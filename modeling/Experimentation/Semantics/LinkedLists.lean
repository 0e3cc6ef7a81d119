import Mathlib.Data.List.Nodup
import Mathlib.Data.List.Perm.Subperm
import Experimentation.Semantics.TailQueue

/-!
# Doubly linked lists

The head of a doubly linked list has a link to the first node.  A node has a link to the next one,
and it knows the place where the link to itself is kept, be it a head or the node before, so that it
can be unlinked without a walk along its list and without its list being named.
-/

namespace Experimentation.LinkedLists

open TailQueue (Slot Chain)

/-- The links of lists with heads in `Q` and nodes in `N`. -/
structure Links (Q N : Type*) where
  first : Q → Option N
  next : N → Option N
  prev : N → Slot Q N

namespace Links

variable {Q N : Type*}

/-! ## What is on a list -/

def read (l : Links Q N) : Slot Q N → Option N
  | .first q => l.first q
  | .next n => l.next n

/-- The list of the nodes that are passed on the way from a place to the end, each of which knows
where the link to it is kept. -/
def Linked (l : Links Q N) : Slot Q N → List N → Prop
  | s, [] => l.read s = none
  | s, n :: ns => l.read s = some n ∧ l.prev n = s ∧ l.Linked (.next n) ns

/-- The lists hold the given nodes, and no node is on them twice. -/
structure Holds (l : Links Q N) (lists : Q → List N) : Prop where
  linked : ∀ q, l.Linked (.first q) (lists q)
  nodup : ∀ q, (lists q).Nodup
  apart : ∀ q q', q ≠ q' → (lists q).Disjoint (lists q')

section Linked

variable {l l' : Links Q N} {s : Slot Q N} {n m : N} {ns : List N}

theorem Linked.read_eq (h : l.Linked s ns) : l.read s = ns.head? := by
  cases ns with
  | nil => exact h
  | cons n ns => exact h.1

/-- The way from a place is the way from the link that is kept there. -/
theorem Linked.chain (h : l.Linked s ns) : Chain l.next (l.read s) ns := by
  induction ns generalizing s with
  | nil => exact h
  | cons n ns ih => exact ⟨h.1, ih h.2.2⟩

theorem Linked.congr (h : l.Linked s ns) (hread : l'.read s = l.read s)
    (hnext : ∀ n ∈ ns, l'.next n = l.next n) (hprev : ∀ n ∈ ns, l'.prev n = l.prev n) :
    l'.Linked s ns := by
  induction ns generalizing s with
  | nil => exact hread.trans h
  | cons n ns ih =>
      refine ⟨hread.trans h.1, (hprev n List.mem_cons_self).trans h.2.1, ?_⟩
      apply ih h.2.2 (hnext n List.mem_cons_self)
      · exact fun m hm ↦ hnext m (List.mem_cons_of_mem n hm)
      · exact fun m hm ↦ hprev m (List.mem_cons_of_mem n hm)

theorem Linked.next_mem (h : l.Linked s ns) (hn : n ∈ ns) (hnext : l.next n = some m) :
    m ∈ ns.tail := by
  induction ns generalizing s with
  | nil => cases hn
  | cons k ns ih =>
      rcases List.mem_cons.1 hn with rfl | hn
      · have hhead : l.next n = ns.head? := h.2.2.read_eq
        rw [hhead] at hnext
        exact List.mem_of_head? hnext
      · exact List.mem_of_mem_tail (ih h.2.2 hn)

theorem Linked.next_ne_self (h : l.Linked s ns) (hnodup : ns.Nodup) (hn : n ∈ ns) :
    l.next n ≠ some n := by
  induction ns generalizing s with
  | nil => cases hn
  | cons k ns ih =>
      obtain ⟨hk, hnodup⟩ := List.nodup_cons.1 hnodup
      rcases List.mem_cons.1 hn with rfl | hn
      · exact fun heq ↦ hk (h.next_mem List.mem_cons_self heq)
      · exact ih h.2.2 hnodup hn

/-- The link to a node is kept in the place where the list starts, or in a node of the list. -/
theorem Linked.prev_mem (h : l.Linked s ns) (hn : n ∈ ns) :
    l.prev n = s ∨ ∃ m ∈ ns, l.prev n = .next m := by
  induction ns generalizing s with
  | nil => cases hn
  | cons k ns ih =>
      rcases List.mem_cons.1 hn with rfl | hn
      · exact .inl h.2.1
      · rcases ih h.2.2 hn with hprev | ⟨m, hm, hprev⟩
        · exact .inr ⟨k, List.mem_cons_self, hprev⟩
        · exact .inr ⟨m, List.mem_cons_of_mem k hm, hprev⟩

/-- The lists depend on the heads, and on the links of the nodes that are on them. -/
theorem Holds.congr {lists : Q → List N} (h : l.Holds lists) (hfirst : l'.first = l.first)
    (hnext : ∀ q, ∀ n ∈ lists q, l'.next n = l.next n)
    (hprev : ∀ q, ∀ n ∈ lists q, l'.prev n = l.prev n) : l'.Holds lists where
  linked q := (h.linked q).congr (congrFun hfirst q) (hnext q) (hprev q)
  nodup := h.nodup
  apart := h.apart

end Linked

/-- A list without repetitions has no more nodes than there are numbers below a bound. -/
theorem length_le_of_lt {ns : List ℕ} {bound : ℕ} (hnodup : ns.Nodup) (h : ∀ n ∈ ns, n < bound) :
    ns.length ≤ bound := by
  have hsub : ns ⊆ List.range bound := fun n hn ↦ List.mem_range.2 (h n hn)
  calc ns.length ≤ (List.range bound).length := (hnodup.subperm hsub).length_le
    _ = bound := List.length_range

/-! ## Operations -/

variable [DecidableEq N]

/-- Tell a node where the link to it is kept. -/
def setPrev (l : Links Q N) (n : N) (s : Slot Q N) : Links Q N :=
  { l with prev := Function.update l.prev n s }

/-- Tell the node that a link leads to, if there is one, where that link is kept. -/
def relink (l : Links Q N) (link : Option N) (s : Slot Q N) : Links Q N :=
  match link with
  | none => l
  | some n => l.setPrev n s

section Fields

variable (l : Links Q N) (link : Option N) {s s' : Slot Q N} {n m : N}

@[simp]
theorem read_setPrev : (l.setPrev n s).read s' = l.read s' := by
  cases s' <;> rfl

theorem setPrev_prev_self : (l.setPrev n s).prev n = s := Function.update_self ..

theorem setPrev_prev_of_ne (h : m ≠ n) : (l.setPrev n s).prev m = l.prev m :=
  Function.update_of_ne h ..

@[simp]
theorem read_relink : (l.relink link s).read s' = l.read s' := by
  cases link with
  | none => rfl
  | some n => exact l.read_setPrev

theorem relink_prev_of_ne (h : link ≠ some m) : (l.relink link s).prev m = l.prev m := by
  cases link with
  | none => rfl
  | some n => exact l.setPrev_prev_of_ne fun heq ↦ h (congrArg some heq.symm)

end Fields

variable [DecidableEq Q]

def write (l : Links Q N) (s : Slot Q N) (link : Option N) : Links Q N :=
  match s with
  | .first q => { l with first := Function.update l.first q link }
  | .next n => { l with next := Function.update l.next n link }

/-- Put a node in front of a list. -/
def insertHead (l : Links Q N) (q : Q) (n : N) : Links Q N :=
  (((l.write (.next n) (l.first q)).relink (l.first q) (.next n)).write (.first q) (some n)).setPrev
    n (.first q)

/-- Take a node off the list that it is on. -/
def remove (l : Links Q N) (n : N) : Links Q N :=
  (l.relink (l.next n) (l.prev n)).write (l.prev n) (l.next n)

section Fields

variable (l : Links Q N) (link : Option N) {s s' : Slot Q N}

theorem read_write_self : (l.write s link).read s = link := by
  cases s <;> exact Function.update_self ..

theorem read_write_of_ne (h : s' ≠ s) : (l.write s link).read s' = l.read s' := by
  cases s <;> cases s' <;> first
    | rfl
    | exact Function.update_of_ne (fun heq ↦ h (congrArg _ heq)) ..

@[simp]
theorem write_prev : (l.write s link).prev = l.prev := by
  cases s <;> rfl

end Fields

variable {l : Links Q N} {lists : Q → List N}

section Separate

variable {q : Q} {n : N} {ns : List N}

omit [DecidableEq N] in
theorem separate_update (hnodup : ∀ q, (lists q).Nodup)
    (hapart : ∀ q q', q ≠ q' → (lists q).Disjoint (lists q')) (hn : ∀ q, n ∉ lists q)
    (hns : ns.Perm (n :: lists q)) :
    (∀ q', (Function.update lists q ns q').Nodup) ∧
      ∀ q₁ q₂, q₁ ≠ q₂ →
        (Function.update lists q ns q₁).Disjoint (Function.update lists q ns q₂) := by
  constructor
  · intro q'
    by_cases hq : q' = q
    · rw [hq, Function.update_self]
      exact hns.nodup_iff.2 (List.nodup_cons.2 ⟨hn q, hnodup q⟩)
    · rw [Function.update_of_ne hq]
      exact hnodup q'
  · intro q₁ q₂ hne k hk₁ hk₂
    have hmem : ∀ q', k ∈ Function.update lists q ns q' → k ∈ lists q' ∨ q' = q ∧ k = n :=
      fun q' hk ↦ by
        by_cases hq : q' = q
        · rw [hq, Function.update_self] at hk
          rw [hq]
          exact (List.mem_cons.1 (hns.subset hk)).symm.imp_right fun heq ↦ ⟨rfl, heq⟩
        · rw [Function.update_of_ne hq] at hk
          exact .inl hk
    rcases hmem q₁ hk₁, hmem q₂ hk₂ with ⟨hk₁ | ⟨h₁, rfl⟩, hk₂ | ⟨h₂, h₂'⟩⟩
    · exact hapart q₁ q₂ hne hk₁ hk₂
    · exact hn q₁ (h₂' ▸ hk₁)
    · exact hn q₂ hk₂
    · exact hne (h₁.trans h₂.symm)

end Separate

section InsertHead

variable {q : Q} {n : N}

theorem read_insertHead_head : (l.insertHead q n).read (.first q) = some n := by
  rw [insertHead, read_setPrev, read_write_self]

theorem read_insertHead_node : (l.insertHead q n).read (.next n) = l.first q := by
  rw [insertHead, read_setPrev, read_write_of_ne _ _ (by simp), read_relink, read_write_self]

theorem read_insertHead_of_ne {s : Slot Q N} (hfirst : s ≠ .first q) (hnext : s ≠ .next n) :
    (l.insertHead q n).read s = l.read s := by
  rw [insertHead, read_setPrev, read_write_of_ne _ _ hfirst, read_relink,
    read_write_of_ne _ _ hnext]

theorem insertHead_prev_of_ne {m : N} (hm : m ≠ n) (hfirst : l.first q ≠ some m) :
    (l.insertHead q n).prev m = l.prev m := by
  rw [insertHead, setPrev_prev_of_ne _ hm, write_prev, relink_prev_of_ne _ _ hfirst, write_prev]

theorem insertHead_prev_first {m : N} (hm : m ≠ n) (hfirst : l.first q = some m) :
    (l.insertHead q n).prev m = .next n := by
  rw [insertHead, setPrev_prev_of_ne _ hm, write_prev, hfirst]
  exact setPrev_prev_self _

/-- A node that is on no list becomes the first one of a list. -/
theorem Holds.insertHead (h : l.Holds lists) (hn : ∀ q, n ∉ lists q) :
    (l.insertHead q n).Holds (Function.update lists q (n :: lists q)) := by
  have hread : ∀ m, m ≠ n → (l.insertHead q n).next m = l.next m := fun m hm ↦ by
    exact read_insertHead_of_ne (s := .next m) (by simp) fun heq ↦ hm (Slot.next.inj heq)
  have hself : l.Linked (.first q) (lists q) := h.linked q
  obtain ⟨hnodup, hapart⟩ := separate_update (q := q) h.nodup h.apart hn (List.Perm.refl _)
  refine ⟨fun q' ↦ ?_, hnodup, hapart⟩
  by_cases hq : q' = q
  · rw [hq, Function.update_self]
    refine ⟨read_insertHead_head, setPrev_prev_self _, ?_⟩
    have hafter : (l.insertHead q n).read (.next n) = l.first q := read_insertHead_node
    have hnodup := h.nodup q
    have hfresh := hn q
    cases hlist : lists q with
    | nil =>
        rw [hlist] at hself
        exact hafter.trans hself
    | cons m ms =>
        rw [hlist] at hself hnodup hfresh
        have hm : m ≠ n := fun heq ↦ hfresh (heq ▸ List.mem_cons_self)
        refine ⟨hafter.trans hself.1, insertHead_prev_first hm hself.1, ?_⟩
        refine hself.2.2.congr (hread m hm) (fun k hk ↦ ?_) (fun k hk ↦ ?_)
        · exact hread k fun heq ↦ hfresh (heq ▸ List.mem_cons_of_mem m hk)
        · refine insertHead_prev_of_ne ?_ ?_
          · exact fun heq ↦ hfresh (heq ▸ List.mem_cons_of_mem m hk)
          · rw [show l.first q = some m from hself.1]
            exact fun heq ↦ (List.nodup_cons.1 hnodup).1 (Option.some.inj heq ▸ hk)
  · rw [Function.update_of_ne hq]
    refine (h.linked q').congr ?_ (fun k hk ↦ ?_) (fun k hk ↦ ?_)
    · exact read_insertHead_of_ne (fun heq ↦ hq (Slot.first.inj heq)) (by simp)
    · exact hread k fun heq ↦ hn q' (heq ▸ hk)
    · refine insertHead_prev_of_ne (fun heq ↦ hn q' (heq ▸ hk)) fun hfirst ↦ ?_
      -- the first node of one list would be on another one
      have hmem : k ∈ lists q := by
        refine List.mem_of_head? ?_
        rw [← hself.read_eq]
        exact hfirst
      exact h.apart q' q hq hk hmem

end InsertHead

section Remove

variable {n : N} {s : Slot Q N} {ns : List N}

theorem read_remove_of_ne (h : s ≠ l.prev n) : (l.remove n).read s = l.read s := by
  rw [remove, read_write_of_ne _ _ h, read_relink]

theorem read_remove_prev : (l.remove n).read (l.prev n) = l.next n := read_write_self _ _

theorem remove_prev_of_ne {m : N} (h : l.next n ≠ some m) : (l.remove n).prev m = l.prev m := by
  rw [remove, write_prev, relink_prev_of_ne _ _ h]

theorem remove_prev_next {m : N} (h : l.next n = some m) : (l.remove n).prev m = l.prev n := by
  rw [remove, write_prev, h]
  exact setPrev_prev_self _

theorem Linked.remove_other (h : l.Linked s ns) (hs : s ≠ l.prev n)
    (hprev : ∀ m ∈ ns, l.prev n ≠ .next m) (hnext : ∀ m ∈ ns, l.next n ≠ some m) :
    (l.remove n).Linked s ns := by
  apply h.congr (read_remove_of_ne hs)
  · exact fun m hm ↦ read_remove_of_ne (s := .next m) (hprev m hm).symm
  · exact fun m hm ↦ remove_prev_of_ne (hnext m hm)

/-- Taking a node off the list that it is on.  The induction is on the list, of which no node keeps
the link to the list itself. -/
theorem Linked.remove (h : l.Linked s ns) (hnodup : ns.Nodup) (hs : ∀ m ∈ ns, s ≠ .next m)
    (hn : n ∈ ns) : (l.remove n).Linked s (ns.erase n) := by
  induction ns generalizing s with
  | nil => cases hn
  | cons k ns ih =>
      obtain ⟨hk, hnodup⟩ := List.nodup_cons.1 hnodup
      have hafter : ∀ m ∈ ns, Slot.next k ≠ (.next m : Slot Q N) := fun m hm heq ↦
        hk (Slot.next.inj heq ▸ hm)
      by_cases heq : k = n
      · subst heq
        have hplace : l.prev k = s := h.2.1
        have hrest := h.2.2
        have hread : (l.remove k).read s = l.next k := by
          rw [← hplace]
          exact read_remove_prev
        rw [List.erase_cons_head]
        cases ns with
        | nil => exact hread.trans hrest
        | cons m ms =>
            refine ⟨hread.trans hrest.1, (remove_prev_next hrest.1).trans hplace, ?_⟩
            apply hrest.2.2.remove_other
            · rw [hplace]
              exact (hs m (by simp)).symm
            · intro j hj
              rw [hplace]
              exact hs j (by simp [hj])
            · intro j hj hnext
              rw [show l.next k = some m from hrest.1] at hnext
              exact (List.nodup_cons.1 hnodup).1 (Option.some.inj hnext ▸ hj)
      · have hn : n ∈ ns := (List.mem_cons.1 hn).resolve_left (Ne.symm heq)
        have hplace : s ≠ l.prev n := fun hslot ↦ by
          rcases h.2.2.prev_mem hn with hprev | ⟨m, hm, hprev⟩
          · exact hs k List.mem_cons_self (hslot.trans hprev)
          · exact hs m (List.mem_cons_of_mem k hm) (hslot.trans hprev)
        have hnext : l.next n ≠ some k := fun hlink ↦
          hk (List.mem_of_mem_tail (h.2.2.next_mem hn hlink))
        rw [List.erase_cons_tail (by simpa using heq)]
        exact ⟨(read_remove_of_ne hplace).trans h.1, (remove_prev_of_ne hnext).trans h.2.1,
          ih h.2.2 hnodup hafter hn⟩

/-- A node is taken off the list that it is on, and the other lists stay as they are. -/
theorem Holds.remove (h : l.Holds lists) {q : Q} (hn : n ∈ lists q) :
    (l.remove n).Holds fun q' ↦ (lists q').erase n where
  linked q' := by
    by_cases hq : q' = q
    · rw [hq]
      exact (h.linked q).remove (h.nodup q) (fun m _ ↦ by simp) hn
    · have hfresh : n ∉ lists q' := fun hmem ↦ h.apart q' q hq hmem hn
      rw [List.erase_of_not_mem hfresh]
      have hprev := (h.linked q).prev_mem hn
      apply (h.linked q').remove_other
      · intro heq
        rcases hprev with hprev | ⟨m, hm, hprev⟩
        · exact hq (Slot.first.inj (heq.trans hprev))
        · cases heq.trans hprev
      · intro k hk heq
        rcases hprev with hprev | ⟨m, hm, hprev⟩
        · cases heq.symm.trans hprev
        · have hkm : k = m := Slot.next.inj (heq.symm.trans hprev)
          exact h.apart q' q hq hk (hkm ▸ hm)
      · exact fun k hk heq ↦ h.apart q' q hq hk
          (List.mem_of_mem_tail ((h.linked q).next_mem hn heq))
  nodup q' := (h.nodup q').erase n
  apart q₁ q₂ hne := by
    intro k hk₁ hk₂
    exact h.apart q₁ q₂ hne (List.mem_of_mem_erase hk₁) (List.mem_of_mem_erase hk₂)

end Remove

section Append

variable {s : Slot Q N} {n : N} {ns : List N}

/-- The place where the way from `s` along the nodes ends. -/
def endOf (s : Slot Q N) : List N → Slot Q N
  | [] => s
  | n :: ns => endOf (.next n) ns

omit [DecidableEq N] [DecidableEq Q] in
theorem endOf_eq_or_mem (s : Slot Q N) (ns : List N) :
    endOf s ns = s ∨ ∃ m ∈ ns, endOf s ns = .next m := by
  induction ns generalizing s with
  | nil => exact .inl rfl
  | cons k ns ih =>
      rcases ih (.next k) with hend | ⟨m, hm, hend⟩
      · exact .inr ⟨k, List.mem_cons_self, hend⟩
      · exact .inr ⟨m, List.mem_cons_of_mem k hm, hend⟩

omit [DecidableEq N] [DecidableEq Q] in
theorem endOf_cons_ne (h : ∀ m ∈ n :: ns, s ≠ .next m) : s ≠ endOf s (n :: ns) := fun heq ↦ by
  rcases endOf_eq_or_mem (.next n) ns with hend | ⟨m, hm, hend⟩
  · exact h n List.mem_cons_self (heq.trans hend)
  · exact h m (List.mem_cons_of_mem n hm) (heq.trans hend)

/-- Hang a node onto the place `s`. -/
def append (l : Links Q N) (s : Slot Q N) (n : N) : Links Q N :=
  ((l.write (.next n) none).setPrev n s).write s (some n)

theorem read_append_self : (l.append s n).read s = some n := read_write_self _ _

theorem read_append_node (h : s ≠ .next n) : (l.append s n).read (.next n) = none := by
  rw [append, read_write_of_ne _ _ h.symm, read_setPrev, read_write_self]

theorem read_append_of_ne {s' : Slot Q N} (hs : s' ≠ s) (hn : s' ≠ .next n) :
    (l.append s n).read s' = l.read s' := by
  rw [append, read_write_of_ne _ _ hs, read_setPrev, read_write_of_ne _ _ hn]

theorem append_prev_self : (l.append s n).prev n = s := by
  rw [append, write_prev]
  exact setPrev_prev_self _

theorem append_prev_of_ne {m : N} (h : m ≠ n) : (l.append s n).prev m = l.prev m := by
  rw [append, write_prev, setPrev_prev_of_ne _ h, write_prev]

theorem Linked.append_other {s' : Slot Q N} (h : l.Linked s' ns) (hs : s' ≠ s) (hn : s' ≠ .next n)
    (hfresh : n ∉ ns) (hend : ∀ m ∈ ns, s ≠ .next m) : (l.append s n).Linked s' ns := by
  apply h.congr (read_append_of_ne hs hn)
  · intro m hm
    refine read_append_of_ne (show Slot.next m ≠ s from (hend m hm).symm) fun heq ↦ ?_
    exact hfresh (Slot.next.inj heq ▸ hm)
  · exact fun m hm ↦ append_prev_of_ne fun heq ↦ hfresh (heq ▸ hm)

/-- Hanging a new node onto the end of a list.  The induction is on the list. -/
theorem Linked.append (h : l.Linked s ns) (hnodup : ns.Nodup) (hs : ∀ m ∈ ns, s ≠ .next m)
    (hn : s ≠ .next n) (hfresh : n ∉ ns) : (l.append (endOf s ns) n).Linked s (ns ++ [n]) := by
  induction ns generalizing s with
  | nil => exact ⟨read_append_self, append_prev_self, read_append_node hn⟩
  | cons k ns ih =>
      obtain ⟨hk, hnodup⟩ := List.nodup_cons.1 hnodup
      have hkn : k ≠ n := fun heq ↦ hfresh (heq ▸ List.mem_cons_self)
      refine ⟨(read_append_of_ne (endOf_cons_ne hs) hn).trans h.1,
        (append_prev_of_ne hkn).trans h.2.1, ih h.2.2 hnodup ?_ ?_ ?_⟩
      · exact fun m hm heq ↦ hk (Slot.next.inj heq ▸ hm)
      · exact fun heq ↦ hkn (Slot.next.inj heq)
      · exact fun hmem ↦ hfresh (List.mem_cons_of_mem k hmem)

omit [DecidableEq Q] in
theorem Linked.endOf_erase (h : l.Linked s ns) (hn : n ∈ ns) :
    endOf s (ns.erase n) = if l.next n = none then l.prev n else endOf s ns := by
  induction ns generalizing s with
  | nil => cases hn
  | cons k ns ih =>
      by_cases heq : k = n
      · subst heq
        have hhead : l.next k = ns.head? := h.2.2.read_eq
        rw [List.erase_cons_head, hhead, h.2.1]
        cases ns <;> rfl
      · have hn : n ∈ ns := (List.mem_cons.1 hn).resolve_left (Ne.symm heq)
        rw [List.erase_cons_tail (by simpa using heq)]
        exact ih h.2.2 hn

end Append

end Links

/-! ## Lists that know where they end -/

/-- The links of lists of which each head also knows the place where the link to a new last node is
to be written. -/
structure TailLinks (Q N : Type*) extends Links Q N where
  last : Q → Slot Q N

namespace TailLinks

open Links

variable {Q N : Type*}

/-- The lists hold the given nodes, and know where they end. -/
structure Holds (l : TailLinks Q N) (lists : Q → List N) : Prop where
  links : l.toLinks.Holds lists
  last : ∀ q, l.last q = endOf (.first q) (lists q)

variable [DecidableEq N] [DecidableEq Q]

/-- Hang a node onto the end of a list. -/
def insertTail (l : TailLinks Q N) (q : Q) (n : N) : TailLinks Q N :=
  ⟨l.toLinks.append (l.last q) n, Function.update l.last q (.next n)⟩

/-- Take a node off the list of the head `q`. -/
def remove (l : TailLinks Q N) (q : Q) (n : N) : TailLinks Q N :=
  ⟨l.toLinks.remove n, if l.next n = none then Function.update l.last q (l.prev n) else l.last⟩

variable {l : TailLinks Q N} {lists : Q → List N} {q : Q} {n : N}

omit [DecidableEq N] [DecidableEq Q] in
theorem Holds.last_eq_or_mem (h : l.Holds lists) (q : Q) :
    l.last q = .first q ∨ ∃ m ∈ lists q, l.last q = .next m := by
  rw [h.last q]
  exact endOf_eq_or_mem _ _

theorem Holds.insertTail (h : l.Holds lists) (hn : ∀ q, n ∉ lists q) :
    (l.insertTail q n).Holds (Function.update lists q (lists q ++ [n])) := by
  have hlast : ∀ q', q' ≠ q → ∀ m ∈ lists q', l.last q ≠ .next m := fun q' hq' m hm heq ↦ by
    rcases h.last_eq_or_mem q with hend | ⟨k, hk, hend⟩
    · cases heq.symm.trans hend
    · have hmk : m = k := Slot.next.inj (heq.symm.trans hend)
      exact h.links.apart q' q hq' hm (hmk ▸ hk)
  obtain ⟨hnodup, hapart⟩ := separate_update (q := q) h.links.nodup h.links.apart hn
    (List.perm_append_singleton n _)
  refine ⟨⟨fun q' ↦ ?_, hnodup, hapart⟩, fun q' ↦ ?_⟩
  · by_cases hq : q' = q
    · rw [hq, Function.update_self, TailLinks.insertTail, h.last q]
      exact (h.links.linked q).append (h.links.nodup q) (fun m _ ↦ by simp) (by simp) (hn q)
    · rw [Function.update_of_ne hq]
      refine (h.links.linked q').append_other (fun heq ↦ ?_) (by simp) (hn q') (hlast q' hq)
      rcases h.last_eq_or_mem q with hend | ⟨k, _, hend⟩
      · exact hq (Slot.first.inj (heq.trans hend))
      · cases heq.trans hend
  · by_cases hq : q' = q
    · rw [hq, Function.update_self]
      have hend : ∀ (s : Slot Q N) (ns : List N), endOf s (ns ++ [n]) = .next n := fun s ns ↦ by
        induction ns generalizing s with
        | nil => rfl
        | cons k ns ih => exact ih (.next k)
      rw [hend]
      exact Function.update_self ..
    · rw [Function.update_of_ne hq]
      exact (Function.update_of_ne hq ..).trans (h.last q')

theorem Holds.remove (h : l.Holds lists) (hn : n ∈ lists q) :
    (l.remove q n).Holds fun q' ↦ (lists q').erase n where
  links := h.links.remove hn
  last q' := by
    by_cases hq : q' = q
    · rw [hq, (h.links.linked q).endOf_erase hn, TailLinks.remove]
      dsimp only
      split
      · exact Function.update_self ..
      · exact h.last q
    · have hfresh : n ∉ lists q' := fun hmem ↦ h.links.apart q' q hq hmem hn
      rw [List.erase_of_not_mem hfresh, ← h.last q', TailLinks.remove]
      dsimp only
      split
      · exact Function.update_of_ne hq ..
      · rfl

end TailLinks

end Experimentation.LinkedLists
