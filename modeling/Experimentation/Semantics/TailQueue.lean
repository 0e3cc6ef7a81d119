import Mathlib.Data.List.Nodup
import Mathlib.Logic.Function.Basic
import Mathlib.Tactic.Common

/-!
# Tail queues

A tail queue is a linked list whose head has two fields: the link to the first node, and the place
where the link to the next new node is to be written, which is the first field of the head itself as
long as the queue is empty.  Taking the only node off takes two steps.  In between the queue is
empty, but new nodes are still hung onto the node that was taken off.
-/

namespace Experimentation.TailQueue

/-- The places in which a link is kept: the heads of the queues, and the nodes. -/
inductive Slot (Q N : Type*)
  | first (q : Q)
  | next (n : N)

/-- The links of tail queues and of their nodes. -/
structure Links (Q N : Type*) where
  first : Q → Option N
  last : Q → Slot Q N
  next : N → Option N

variable {Q N : Type*}

/-! ## What is on a queue -/

/-- The list of the nodes that are passed on the way from a link to the end. -/
def Chain (next : N → Option N) : Option N → List N → Prop
  | p, [] => p = none
  | p, n :: ns => p = some n ∧ Chain next (next n) ns

theorem Chain.link_eq {next : N → Option N} {p : Option N} {ns : List N} (h : Chain next p ns) :
    p = ns.head? := by
  cases ns with
  | nil => exact h
  | cons n ns => exact h.1

theorem Chain.congr {next next' : N → Option N} {p : Option N} {ns : List N}
    (h : Chain next p ns) (heq : ∀ n ∈ ns, next' n = next n) : Chain next' p ns := by
  induction ns generalizing p with
  | nil => exact h
  | cons n ns ih =>
      have hnext : next' n = next n := heq n List.mem_cons_self
      exact ⟨h.1, hnext ▸ ih h.2 fun m hm ↦ heq m (List.mem_cons_of_mem _ hm)⟩

theorem Chain.append_last {next next' : N → Option N} {p : Option N} {ms : List N} {m n : N}
    (h : Chain next p (ms ++ [m])) (hsame : ∀ k ∈ ms, next' k = next k) (hm : next' m = some n)
    (hn : next' n = none) : Chain next' p (ms ++ [m] ++ [n]) := by
  induction ms generalizing p with
  | nil => exact ⟨h.1, hm, hn⟩
  | cons k ms ih =>
      have hk : next' k = next k := hsame k List.mem_cons_self
      exact ⟨h.1, hk ▸ ih h.2 fun k' hk' ↦ hsame k' (List.mem_cons_of_mem _ hk')⟩

/-- Where the link to a new node is written. -/
def endSlot (q : Q) (ns : List N) : Slot Q N :=
  match ns.getLast? with
  | none => .first q
  | some n => .next n

theorem endSlot_append (q : Q) (ns : List N) (n : N) : endSlot q (ns ++ [n]) = .next n := by
  rw [endSlot, List.getLast?_concat]

theorem endSlot_cons (q : Q) (n : N) {ns : List N} (h : ns ≠ []) :
    endSlot q (n :: ns) = endSlot q ns := by
  obtain ⟨ms, m, rfl⟩ := (List.eq_nil_or_concat' ns).resolve_left h
  rw [← List.cons_append, endSlot_append, endSlot_append]

theorem mem_of_endSlot {q : Q} {ns : List N} {n : N} (h : endSlot q ns = .next n) : n ∈ ns := by
  unfold endSlot at h
  split at h
  · cases h
  · rename_i hlast
    cases h
    exact List.mem_of_getLast? hlast

theorem endSlot_ne_first {q q' : Q} (h : q ≠ q') (ns : List N) : endSlot q ns ≠ .first q' := by
  intro heq
  unfold endSlot at heq
  split at heq
  · exact h (Slot.first.inj heq)
  · cases heq

namespace Links

/-- The queue holds the nodes of the list, and knows where it ends. -/
structure Holds (l : Links Q N) (q : Q) (ns : List N) : Prop where
  chain : Chain l.next (l.first q) ns
  last : l.last q = endSlot q ns

/-- The node can be reached from the head of the queue. -/
inductive OnQueue (l : Links Q N) (q : Q) : N → Prop
  | first {n : N} (h : l.first q = some n) : OnQueue l q n
  | next {m n : N} (hm : OnQueue l q m) (h : l.next m = some n) : OnQueue l q n

def empty : Links Q N := ⟨fun _ ↦ none, .first, fun _ ↦ none⟩

theorem empty_holds (q : Q) : (empty : Links Q N).Holds q [] := ⟨rfl, rfl⟩

variable {l : Links Q N} {q q' : Q} {n : N} {ns : List N}

theorem not_onQueue (h : l.first q = none) : ¬ l.OnQueue q n := by
  intro hn
  induction hn with
  | first hfirst =>
      rw [h] at hfirst
      cases hfirst
  | next _ _ ih => exact ih

theorem Holds.first_eq (h : l.Holds q ns) : l.first q = ns.head? := h.chain.link_eq

theorem onQueue_of_chain {p : Option N} (h : Chain l.next p ns)
    (hp : ∀ m, p = some m → l.OnQueue q m) (hn : n ∈ ns) : l.OnQueue q n := by
  induction ns generalizing p with
  | nil => cases hn
  | cons m ns ih =>
      have hm : l.OnQueue q m := hp m h.1
      rcases List.mem_cons.1 hn with rfl | hn
      · exact hm
      · exact ih h.2 (fun _ hnext ↦ .next hm hnext) hn

theorem Holds.onQueue (h : l.Holds q ns) (hn : n ∈ ns) : l.OnQueue q n :=
  onQueue_of_chain h.chain (fun _ hfirst ↦ .first hfirst) hn

variable [DecidableEq Q]

/-! ## Operations -/

/-- Let the queue end at its head. -/
def resetLast (l : Links Q N) (q : Q) : Links Q N :=
  { l with last := Function.update l.last q (.first q) }

theorem resetLast_holds (h : l.first q = none) : (l.resetLast q).Holds q [] :=
  ⟨h, Function.update_self ..⟩

theorem Holds.resetLast_other (h : l.Holds q' ns) (hq : q' ≠ q) : (l.resetLast q).Holds q' ns :=
  ⟨h.chain, (Function.update_of_ne hq ..).trans h.last⟩

variable [DecidableEq N]

def write (l : Links Q N) (slot : Slot Q N) (link : Option N) : Links Q N :=
  match slot with
  | .first q => { l with first := Function.update l.first q link }
  | .next n => { l with next := Function.update l.next n link }

/-- Hang a node onto the end of a queue. -/
def insertTail (l : Links Q N) (q : Q) (n : N) : Links Q N :=
  { (l.write (.next n) none).write (l.last q) (some n) with
    last := Function.update l.last q (.next n) }

/-- Let the second node be the first one. -/
def dropFirst (l : Links Q N) (q : Q) : Links Q N :=
  l.write (.first q) ((l.first q).bind l.next)

theorem write_first_of_ne {slot : Slot Q N} (link : Option N) (h : slot ≠ .first q) :
    (l.write slot link).first q = l.first q := by
  cases slot with
  | first q' =>
      have hne : q ≠ q' := fun heq ↦ h (congrArg Slot.first heq.symm)
      exact Function.update_of_ne hne ..
  | next n => rfl

theorem write_next_of_ne {slot : Slot Q N} (link : Option N) (h : slot ≠ .next n) :
    (l.write slot link).next n = l.next n := by
  cases slot with
  | first q' => rfl
  | next m =>
      have hne : n ≠ m := fun heq ↦ h (congrArg Slot.next heq.symm)
      exact Function.update_of_ne hne ..

theorem insertTail_last_self (l : Links Q N) (q : Q) (n : N) :
    (l.insertTail q n).last q = .next n := Function.update_self ..

theorem insertTail_last_of_ne (n : N) (h : q' ≠ q) :
    (l.insertTail q n).last q' = l.last q' := Function.update_of_ne h ..

/-- The head of a queue is changed only if the end of the queue is there. -/
theorem insertTail_first_of_ne (n : N) (h : l.last q ≠ .first q') :
    (l.insertTail q n).first q' = l.first q' := by
  calc (l.insertTail q n).first q'
      = ((l.write (.next n) none).write (l.last q) (some n)).first q' := rfl
    _ = (l.write (.next n) none).first q' := write_first_of_ne _ h
    _ = l.first q' := write_first_of_ne _ (by simp)

theorem insertTail_next_of_ne {m : N} (hm : m ≠ n) (h : l.last q ≠ .next m) :
    (l.insertTail q n).next m = l.next m := by
  calc (l.insertTail q n).next m
      = ((l.write (.next n) none).write (l.last q) (some n)).next m := rfl
    _ = (l.write (.next n) none).next m := write_next_of_ne _ h
    _ = l.next m := write_next_of_ne _ fun heq ↦ hm (Slot.next.inj heq).symm

/-- A queue to whose end a new node is hung holds this node as well. -/
theorem Holds.insertTail (h : l.Holds q ns) (hnodup : ns.Nodup) (hn : n ∉ ns) :
    (l.insertTail q n).Holds q (ns ++ [n]) := by
  refine ⟨?_, by rw [insertTail_last_self, endSlot_append]⟩
  rcases List.eq_nil_or_concat' ns with rfl | ⟨ms, m, rfl⟩
  · have hend : l.last q = .first q := h.last
    rw [insertTail, hend]
    exact ⟨Function.update_self .., Function.update_self ..⟩
  · have hend : l.last q = .next m := h.last.trans (endSlot_append q ms m)
    have hne : n ≠ m := fun heq ↦ hn (heq ▸ List.mem_concat_self)
    have hms : m ∉ ms := fun hm ↦
      List.disjoint_of_nodup_append hnodup hm (List.mem_singleton_self m)
    have hfirst : (l.insertTail q n).first q = l.first q :=
      insertTail_first_of_ne n (by simp [hend])
    rw [hfirst]
    apply h.chain.append_last
    · intro k hk
      apply insertTail_next_of_ne
      · exact fun heq ↦ hn (heq ▸ List.mem_append_left _ hk)
      · rw [hend]
        exact fun heq ↦ hms (Slot.next.inj heq ▸ hk)
    · rw [insertTail, hend]
      exact Function.update_self ..
    · rw [insertTail, hend]
      exact (Function.update_of_ne hne ..).trans (Function.update_self ..)

theorem Holds.insertTail_other (h : l.Holds q' ns) (hq : q' ≠ q) (hfirst : l.last q ≠ .first q')
    (hnext : ∀ m ∈ ns, l.last q ≠ .next m) (hn : n ∉ ns) : (l.insertTail q n).Holds q' ns := by
  refine ⟨?_, (insertTail_last_of_ne n hq).trans h.last⟩
  rw [insertTail_first_of_ne n hfirst]
  exact h.chain.congr fun m hm ↦ insertTail_next_of_ne (fun heq ↦ hn (heq ▸ hm)) (hnext m hm)

theorem dropFirst_first_self (h : l.Holds q (n :: ns)) :
    (l.dropFirst q).first q = l.next n := by
  have hbind : (l.first q).bind l.next = l.next n := by
    rw [h.chain.1]
    rfl
  exact (Function.update_self ..).trans hbind

theorem dropFirst_first_of_ne (h : q' ≠ q) : (l.dropFirst q).first q' = l.first q' :=
  Function.update_of_ne h ..

theorem Holds.dropFirst_chain (h : l.Holds q (n :: ns)) :
    Chain (l.dropFirst q).next ((l.dropFirst q).first q) ns := by
  rw [dropFirst_first_self h]
  exact h.chain.2

theorem Holds.dropFirst_first (h : l.Holds q (n :: ns)) : (l.dropFirst q).first q = ns.head? :=
  h.dropFirst_chain.link_eq

/-- Unless the first node was the only one, the queue still knows its end. -/
theorem Holds.dropFirst (h : l.Holds q (n :: ns)) (hns : ns ≠ []) : (l.dropFirst q).Holds q ns :=
  ⟨h.dropFirst_chain, h.last.trans (endSlot_cons q n hns)⟩

theorem Holds.dropFirst_other (h : l.Holds q' ns) (hq : q' ≠ q) : (l.dropFirst q).Holds q' ns :=
  ⟨by rw [dropFirst_first_of_ne hq]; exact h.chain, h.last⟩

end Links

end Experimentation.TailQueue
