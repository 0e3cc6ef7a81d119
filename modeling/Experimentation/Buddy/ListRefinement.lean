import Experimentation.Buddy.ListLinks

/-!
# The linked pool refines the pool of sequences

A linked pool refines a pool when it agrees with it on everything but the links, and when following
the links of each head gives the sequence that the pool has for it.  Then every function takes the
same decisions at both levels and returns the same, and the pools it leaves are again related.  In
particular `LIST_REMOVE`, which is not told the list, finds in the node itself the place where the
link to it is kept.

What is written through links lies in headers of blocks, and no payload overlaps one.
-/

namespace Experimentation.Buddy

open DyadicTiling LinkedLists Semantics
open TailQueue (Slot Chain)

namespace LinkedPool

variable {l l' : LinkedPool} {o pos : ℕ}

def links (l : LinkedPool) : Links ℕ ℕ where
  first pos := l.blktable.getD pos none
  next o := (l.mem o).leNext
  prev o := (l.mem o).lePrev

/-- The node at `o` lies in the pool. -/
def Room (l : LinkedPool) (o : ℕ) : Prop := o + sizeofBlkNode ≤ l.bytes

/-- The place of a link lies in the pool or in the table. -/
def HasSlot (l : LinkedPool) : Slot ℕ ℕ → Prop
  | .first pos => pos < l.blktable.length
  | .next o => l.Room o

/-- The links of `l'` are `k`; otherwise `l'` is `l`, and the nodes outside `K` are untouched. -/
structure Relinked (l l' : LinkedPool) (k : Links ℕ ℕ) (K : Set ℕ) : Prop where
  links : l'.links = k
  toPool : ∀ table, l'.toPool table = l.toPool table
  length : l'.blktable.length = l.blktable.length
  same : ∀ o ∉ K, l'.mem o = l.mem o

namespace Relinked

variable {k k' : Links ℕ ℕ} {K K' : Set ℕ} {l'' : LinkedPool}

theorem bytes (h : Relinked l l' k K) : l'.bytes = l.bytes := congrArg Pool.bytes (h.toPool [])

theorem room (h : Relinked l l' k K) (hroom : l.Room o) : l'.Room o := by
  rw [Room, h.bytes]
  exact hroom

theorem trans (h : Relinked l l' k K) (h' : Relinked l' l'' k' K') :
    Relinked l l'' k' (K ∪ K') where
  links := h'.links
  toPool table := (h'.toPool table).trans (h.toPool table)
  length := h'.length.trans h.length
  same o ho := (h'.same o fun hmem ↦ ho (.inr hmem)).trans (h.same o fun hmem ↦ ho (.inl hmem))

theorem mono (h : Relinked l l' k K) (hK : K ⊆ K') : Relinked l l' k K' :=
  { h with same := fun o ho ↦ h.same o fun hmem ↦ ho (hK hmem) }

end Relinked

theorem load_eq (h : l.Room o) : l.load o = .ok (l.mem o) := if_pos h

theorem links_setMem (l : LinkedPool) (o : ℕ) (n : LinkedNode) :
    (l.setMem o n).links = ⟨l.links.first, Function.update l.links.next o n.leNext,
      Function.update l.links.prev o n.lePrev⟩ := by
  simp only [links, setMem, Links.mk.injEq, true_and]
  constructor <;> funext i <;> by_cases hi : i = o <;> simp [hi]

theorem toPool_setMem (l : LinkedPool) (o : ℕ) (n : LinkedNode) (table : List (List ℕ)) :
    (l.setMem o n).toPool table = (l.toPool table).write o n.toBlkNode := by
  simp only [toPool, setMem, Pool.write, Pool.mk.injEq, and_true]
  funext i
  by_cases hi : i = o <;> simp [hi]

theorem toPool_setMem_self (l : LinkedPool) (o : ℕ) {n : LinkedNode}
    (hn : n.toBlkNode = (l.mem o).toBlkNode) (table : List (List ℕ)) :
    (l.setMem o n).toPool table = l.toPool table := by
  rw [toPool_setMem, hn]
  simp only [Pool.write, toPool, Pool.mk.injEq, and_true]
  exact Function.update_eq_self o fun o ↦ (l.mem o).toBlkNode

theorem setMem_mem_of_ne (l : LinkedPool) (n : LinkedNode) {o' : ℕ} (h : o' ≠ o) :
    (l.setMem o n).mem o' = l.mem o' := Function.update_of_ne h ..

theorem writeLink_ok {s : Slot ℕ ℕ} (h : l.HasSlot s) (link : Option ℕ) :
    ∃ l', l.writeLink s link = .ok l' ∧
      Relinked l l' (l.links.write s link) {o | s = .next o} := by
  cases s with
  | first pos =>
      refine ⟨{ l with blktable := l.blktable.set pos link }, if_pos h, ?_, fun _ ↦ rfl,
        List.length_set, fun _ _ ↦ rfl⟩
      have hpos : pos < l.blktable.length := h
      simp only [links, Links.write, Links.mk.injEq, and_true]
      funext i
      rw [Function.update_apply, List.getD_eq_getElem?_getD, List.getElem?_set]
      by_cases hi : pos = i
      · simp [← hi, hpos]
      · simp [hi, Ne.symm hi]
  | next o =>
      refine ⟨l.setMem o { l.mem o with leNext := link }, ?_, ?_, l.toPool_setMem_self o rfl, rfl,
        fun o' ho' ↦ l.setMem_mem_of_ne _ fun heq ↦ ho' (congrArg _ heq.symm)⟩
      · rw [writeLink, load_eq h]
        rfl
      · rw [links_setMem]
        exact congrArg _ (Function.update_eq_self o l.links.prev)

theorem writePrev_ok (link : Option ℕ) (h : ∀ o, link = some o → l.Room o) (s : Slot ℕ ℕ) :
    ∃ l', l.writePrev link s = .ok l' ∧
      Relinked l l' (l.links.relink link s) {o | link = some o} := by
  cases link with
  | none => exact ⟨l, rfl, rfl, fun _ ↦ rfl, rfl, fun _ _ ↦ rfl⟩
  | some o =>
      refine ⟨l.setMem o { l.mem o with lePrev := s }, ?_, ?_, l.toPool_setMem_self o rfl, rfl,
        fun o' ho' ↦ l.setMem_mem_of_ne _ fun heq ↦ ho' (congrArg _ heq.symm)⟩
      · rw [writePrev, load_eq (h o rfl)]
        rfl
      · rw [links_setMem]
        exact congrArg (fun next ↦ Links.mk l.links.first next _)
          (Function.update_eq_self o l.links.next)

theorem store_ok (h : l.Room o) (x : BlkNode) :
    ∃ l', l.store o x = .ok l' ∧ l'.links = l.links ∧
      (∀ table, l'.toPool table = (l.toPool table).write o x) ∧ l'.blktable = l.blktable ∧
      ∀ o', o' ≠ o → l'.mem o' = l.mem o' := by
  refine ⟨l.setMem o { l.mem o with toBlkNode := x }, ?_, ?_, l.toPool_setMem o _, rfl,
    fun o' ↦ l.setMem_mem_of_ne _⟩
  · rw [store, load_eq h]
    rfl
  · rw [links_setMem]
    calc (⟨l.links.first, Function.update l.links.next o (l.links.next o),
          Function.update l.links.prev o (l.links.prev o)⟩ : Links ℕ ℕ)
        = ⟨l.links.first, l.links.next, l.links.prev⟩ := by
          rw [Function.update_eq_self, Function.update_eq_self]
      _ = l.links := rfl

theorem listFirst_eq (h : pos < l.blktable.length) :
    l.listFirst pos = .ok (l.links.first pos) := by
  rw [listFirst, List.getElem?_eq_getElem h]
  simp [links, h]

theorem insertHead_ok (hpos : pos < l.blktable.length) (ho : l.Room o)
    (hfirst : ∀ o', l.links.first pos = some o' → l.Room o') :
    ∃ l', l.insertHead pos o = .ok l' ∧ Relinked l l' (l.links.insertHead pos o)
      {x | x = o ∨ l.links.first pos = some x} := by
  obtain ⟨l₁, hrun₁, h₁⟩ := writeLink_ok (s := .next o) ho (l.links.first pos)
  obtain ⟨l₂, hrun₂, h₂⟩ := writePrev_ok _ (fun o' ho' ↦ h₁.room (hfirst o' ho')) (.next o)
  have h₁₂ := h₁.trans h₂
  obtain ⟨l₃, hrun₃, h₃⟩ := writeLink_ok (l := l₂) (s := .first pos)
    (show pos < l₂.blktable.length from h₁₂.length ▸ hpos) (some o)
  have h₁₃ := h₁₂.trans h₃
  obtain ⟨l₄, hrun₄, h₄⟩ := writePrev_ok (l := l₃) (some o)
    (fun o' ho' ↦ Option.some.inj ho' ▸ h₁₃.room ho) (.first pos)
  refine ⟨l₄, ?_, ?_⟩
  · rw [insertHead, listFirst_eq hpos, Exec.ok_bind, hrun₁, Exec.ok_bind, hrun₂, Exec.ok_bind,
      hrun₃,
      Exec.ok_bind, hrun₄]
  · rw [h₃.links, h₂.links, h₁.links] at h₄
    apply (h₁₃.trans h₄).mono
    intro x hx
    simp only [Set.mem_union, Set.mem_ofPred_eq, Slot.next.injEq, Option.some.injEq, reduceCtorEq,
      or_false] at hx
    rcases hx with (hx | hx) | hx
    · exact .inl hx.symm
    · exact .inr hx
    · exact .inl hx.symm

theorem listRemove_ok (ho : l.Room o) (hself : l.links.next o ≠ some o)
    (hnext : ∀ o', l.links.next o = some o' → l.Room o') (hprev : l.HasSlot (l.links.prev o)) :
    ∃ l', l.listRemove o = .ok l' ∧ Relinked l l' (l.links.remove o)
      {x | l.links.next o = some x ∨ l.links.prev o = .next x} := by
  obtain ⟨l₁, hrun₁, h₁⟩ := writePrev_ok (l.links.next o) hnext (l.links.prev o)
  have hplace : l₁.links.prev o = l.links.prev o := by
    rw [h₁.links, Links.relink_prev_of_ne _ _ hself]
  have hlink : l₁.links.next o = l.links.next o := by
    rw [h₁.links]
    exact @Links.read_relink _ _ _ l.links _ _ (.next o)
  have hslot : l₁.HasSlot (l.links.prev o) := by
    cases hs : l.links.prev o with
    | first q =>
        rw [hs] at hprev
        exact (show q < l₁.blktable.length from h₁.length ▸ hprev)
    | next o' =>
        rw [hs] at hprev
        exact h₁.room hprev
  obtain ⟨l₂, hrun₂, h₂⟩ := writeLink_ok hslot (l.links.next o)
  refine ⟨l₂, ?_, ?_⟩
  · have hstart : l.listRemove o = l₁.load o >>= fun n ↦ l₁.writeLink n.lePrev n.leNext := by
      rw [listRemove, load_eq ho, Exec.ok_bind]
      change (l.writePrev (l.links.next o) (l.links.prev o) >>= _) = _
      rw [hrun₁, Exec.ok_bind]
    rw [hstart, load_eq (h₁.room ho), Exec.ok_bind]
    change l₁.writeLink (l₁.links.prev o) (l₁.links.next o) = _
    rw [hplace, hlink, hrun₂]
  · rw [h₁.links] at h₂
    exact (h₁.trans h₂).mono fun x hx ↦ hx

end LinkedPool

/-! ## The relation -/

/-- The nodes of list `pos`. -/
def Pool.offsAt (p : Pool) (pos : ℕ) : List ℕ := p.blktable.getD pos []

/-- The nodes of all lists. -/
def Pool.nodeSet (p : Pool) : Set ℕ := {o | ∃ pos, o ∈ p.offsAt pos}

/-- The linked pool is the pool with its sequences spelled out by links. -/
structure LinkedPool.Refines (l : LinkedPool) (p : Pool) : Prop where
  toPool : l.toPool p.blktable = p
  length : l.blktable.length = p.blktable.length
  holds : l.links.Holds p.offsAt
  inside : ∀ o ∈ p.nodeSet, o + sizeofBlkNode ≤ p.bytes

section Listed

variable {p : Pool} {o pos : ℕ}

theorem offsAt_push (h : pos < p.blktable.length) :
    (p.push pos o).offsAt = Function.update p.offsAt pos (o :: p.offsAt pos) := by
  funext i
  simp only [Pool.offsAt, Pool.push, List.getD_eq_getElem?_getD, List.getElem?_modify,
    Function.update_apply]
  by_cases hi : i = pos
  · simp [hi, h]
  · cases p.blktable[i]? <;> simp [hi, Ne.symm hi]

theorem offsAt_listRemove (p : Pool) (o : ℕ) :
    (p.listRemove o).offsAt = fun pos ↦ (p.offsAt pos).erase o := by
  funext i
  simp only [Pool.offsAt, Pool.listRemove, List.getD_eq_getElem?_getD, List.getElem?_map]
  cases p.blktable[i]? <;> rfl

theorem nodeSet_push (h : pos < p.blktable.length) :
    (p.push pos o).nodeSet ⊆ insert o p.nodeSet := by
  rintro x ⟨i, hx⟩
  rw [offsAt_push h, Function.update_apply] at hx
  split at hx
  · exact (List.mem_cons.1 hx).imp_right fun hmem ↦ ⟨pos, hmem⟩
  · exact .inr ⟨i, hx⟩

theorem nodeSet_listRemove (p : Pool) (o : ℕ) : (p.listRemove o).nodeSet ⊆ p.nodeSet := by
  rintro x ⟨i, hx⟩
  rw [offsAt_listRemove] at hx
  exact ⟨i, List.mem_of_mem_erase hx⟩

end Listed

namespace LinkedPool.Refines

variable {l : LinkedPool} {p : Pool} {o pos : ℕ}

theorem toPool_table (h : l.Refines p) (table : List (List ℕ)) :
    l.toPool table = { p with blktable := table } := by
  rw [← h.toPool]
  rfl

theorem mem (h : l.Refines p) (o : ℕ) : (l.mem o).toBlkNode = p.mem o :=
  congrFun (congrArg Pool.mem h.toPool) o

theorem bytes (h : l.Refines p) : l.bytes = p.bytes := congrArg Pool.bytes h.toPool

theorem maxlogsize (h : l.Refines p) : l.maxlogsize = p.maxlogsize :=
  congrArg Pool.maxlogsize h.toPool

theorem minlogsize (h : l.Refines p) : l.minlogsize = p.minlogsize :=
  congrArg Pool.minlogsize h.toPool

theorem room (h : l.Refines p) (ho : o + sizeofBlkNode ≤ p.bytes) : l.Room o := by
  rw [LinkedPool.Room, h.bytes]
  exact ho

theorem room_of_node (h : l.Refines p) (ho : o ∈ p.nodeSet) : l.Room o := h.room (h.inside o ho)

theorem of_links {l' : LinkedPool} {q : Pool} (h : l.Refines p) (htoPool : l'.toPool q.blktable = q)
    (hlinks : l'.links = l.links) (hlen : l'.blktable.length = l.blktable.length)
    (htable : q.blktable = p.blktable) (hbytes : q.bytes = p.bytes) : l'.Refines q where
  toPool := htoPool
  length := by rw [hlen, h.length, htable]
  holds := by
    rw [hlinks, show q.offsAt = p.offsAt from funext fun _ ↦ by rw [Pool.offsAt, htable]; rfl]
    exact h.holds
  inside := by
    rintro x ⟨i, hx⟩
    rw [hbytes]
    exact h.inside x ⟨i, by rwa [Pool.offsAt, htable] at hx⟩

/-! ## The macros -/

theorem store (h : l.Refines p) (ho : o + sizeofBlkNode ≤ p.bytes) (x : BlkNode) :
    ∃ l', l.store o x = .ok l' ∧ l'.Refines (p.write o x) ∧ ∀ i, i ≠ o → l'.mem i = l.mem i := by
  obtain ⟨l', hrun, hlinks, htoPool, htable, hsame⟩ := LinkedPool.store_ok (h.room ho) x
  refine ⟨l', hrun, h.of_links ?_ hlinks (congrArg _ htable) rfl rfl, hsame⟩
  rw [htoPool, h.toPool_table]
  rfl

theorem first_mem_nodeSet (h : l.Refines p) {o' : ℕ} (hfirst : l.links.first pos = some o') :
    o' ∈ p.nodeSet :=
  ⟨pos, List.mem_of_head? ((h.holds.linked pos).read_eq.symm.trans hfirst)⟩

theorem insertHead (h : l.Refines p) (pos : ℕ) (hpos : pos < p.blktable.length)
    (ho : o + sizeofBlkNode ≤ p.bytes) (hfresh : o ∉ p.nodeSet) :
    ∃ l', l.insertHead pos o = .ok l' ∧ l'.Refines (p.push pos o) ∧
      ∀ i ∉ insert o p.nodeSet, l'.mem i = l.mem i := by
  obtain ⟨l', hrun, hl'⟩ := LinkedPool.insertHead_ok (h.length ▸ hpos) (h.room ho)
    fun o' ho' ↦ h.room_of_node (h.first_mem_nodeSet ho')
  refine ⟨l', hrun, ⟨?_, ?_, ?_, ?_⟩, fun i hi ↦ hl'.same i fun hmem ↦ hi ?_⟩
  · rw [hl'.toPool, h.toPool_table]
    rfl
  · rw [hl'.length, h.length, Pool.push_length]
  · rw [hl'.links, offsAt_push hpos]
    exact h.holds.insertHead fun q hq ↦ hfresh ⟨q, hq⟩
  · intro x hx
    rcases nodeSet_push hpos hx with rfl | hx
    · exact ho
    · exact h.inside x hx
  · exact hmem.imp_right fun hfirst ↦ h.first_mem_nodeSet hfirst

/-- Unlinking a node that is on some list. -/
theorem listRemove (h : l.Refines p) (ho : o ∈ p.nodeSet) :
    ∃ l', l.listRemove o = .ok l' ∧ l'.Refines (p.listRemove o) ∧
      ∀ i ∉ p.nodeSet, l'.mem i = l.mem i := by
  obtain ⟨pos, hmem⟩ := ho
  have hlinked := h.holds.linked pos
  have hnext : ∀ o', l.links.next o = some o' → o' ∈ p.offsAt pos := fun o' ho' ↦
    List.mem_of_mem_tail (hlinked.next_mem hmem ho')
  have hself : l.links.next o ≠ some o := fun heq ↦ by
    have hnodup := h.holds.nodup pos
    exact absurd heq (hlinked.next_ne_self hnodup hmem)
  have hprev : l.HasSlot (l.links.prev o) := by
    rcases hlinked.prev_mem hmem with hp | ⟨o', ho', hp⟩
    · rw [hp]
      refine (show pos < l.blktable.length from ?_)
      rw [h.length]
      by_contra hlen
      rw [Pool.offsAt, List.getD_eq_getElem?_getD, List.getElem?_eq_none (not_lt.1 hlen)] at hmem
      cases hmem
    · rw [hp]
      exact h.room_of_node ⟨pos, ho'⟩
  obtain ⟨l', hrun, hl'⟩ := LinkedPool.listRemove_ok (h.room_of_node ⟨pos, hmem⟩) hself
    (fun o' ho' ↦ h.room_of_node ⟨pos, hnext o' ho'⟩) hprev
  refine ⟨l', hrun, ⟨?_, ?_, ?_, ?_⟩, fun i hi ↦ hl'.same i fun hmem' ↦ hi ?_⟩
  · rw [hl'.toPool, h.toPool_table]
    rfl
  · rw [hl'.length, h.length, Pool.listRemove_length]
  · rw [hl'.links, offsAt_listRemove]
    exact h.holds.remove hmem
  · exact fun x hx ↦ h.inside x (nodeSet_listRemove p o hx)
  · rcases hmem' with hi' | hi'
    · exact ⟨pos, hnext i hi'⟩
    · rcases hlinked.prev_mem hmem with hp | ⟨o', ho', hp⟩
      · cases hi'.symm.trans hp
      · have hio : i = o' := Slot.next.inj (hi'.symm.trans hp)
        exact ⟨pos, hio ▸ ho'⟩

theorem load (h : l.Refines p) (ho : o ∈ p.nodeSet) :
    l.load o = .ok (l.mem o) ∧ p.load o = .ok (l.mem o).toBlkNode := by
  refine ⟨LinkedPool.load_eq (h.room_of_node ho), ?_⟩
  rw [h.mem]
  exact Pool.load_eq (h.inside o ho)

/-- Along a chain of links the inner loop sees the nodes of the sequence. -/
theorem firstAvail (h : l.Refines p) {link : Option ℕ} {ns : List ℕ} {fuel : ℕ}
    (hchain : Chain l.links.next link ns) (hlisted : ∀ o ∈ ns, o ∈ p.nodeSet)
    (hfuel : ns.length ≤ fuel) : l.firstAvail fuel link = Buddy.firstAvail p ns := by
  induction ns generalizing link fuel with
  | nil =>
      rw [show link = none from hchain]
      cases fuel <;> rfl
  | cons o ns ih =>
      obtain ⟨hload, hload'⟩ := h.load (hlisted o List.mem_cons_self)
      obtain ⟨fuel, rfl⟩ : ∃ k, fuel = k + 1 := ⟨fuel - 1, by
        rw [List.length_cons] at hfuel
        omega⟩
      have hrest := ih hchain.2 (fun o' ho' ↦ hlisted o' (List.mem_cons_of_mem o ho'))
        (Nat.le_of_succ_le_succ hfuel)
      rw [hchain.1, LinkedPool.firstAvail, Buddy.firstAvail, hload, hload', Exec.ok_bind,
        Exec.ok_bind, ← hrest]
      rfl

theorem length_le_bytes (h : l.Refines p) (pos : ℕ) : (p.offsAt pos).length ≤ l.bytes := by
  refine Links.length_le_of_lt (h.holds.nodup pos) fun o ho ↦ ?_
  have hroom := h.inside o ⟨pos, ho⟩
  rw [sizeofBlkNode] at hroom
  rw [h.bytes]
  omega

/-- The search finds the same node at both levels, or stops for the same reason. -/
theorem searchTable (h : l.Refines p) (size : ℕ) {heads : List (Option ℕ)}
    {table : List (List ℕ)}
    (hheads : List.Forall₂ (fun link ns ↦ Chain l.links.next link ns ∧ (∀ o ∈ ns, o ∈ p.nodeSet) ∧
      ns.length ≤ l.bytes) heads table) (cand : Option ℕ) :
    l.searchTable size heads cand = Buddy.searchTable p size table cand := by
  induction hheads generalizing cand with
  | nil => rfl
  | @cons link ns heads table hlink _ ih =>
      obtain ⟨hchain, hlisted, hlen⟩ := hlink
      cases ns with
      | nil =>
          rw [show link = none from hchain]
          exact ih cand
      | cons o ns =>
          obtain ⟨hload, hload'⟩ := h.load (hlisted o List.mem_cons_self)
          have hlink : link = some o := hchain.1
          subst hlink
          rw [LinkedPool.searchTable, Buddy.searchTable, hload, hload', Exec.ok_bind, Exec.ok_bind,
            h.firstAvail hchain hlisted hlen]
          cases hshift : shiftOne (l.mem o).logsize with
          | error fault => rfl
          | ok length =>
              rw [Exec.ok_bind, Exec.ok_bind]
              by_cases hsize : length ≥ size
              · rw [if_pos hsize, if_pos hsize]
                cases hfound : Buddy.firstAvail p (o :: ns) with
                | error fault => rfl
                | ok found => cases found <;> exact ih _
              · rw [if_neg hsize, if_neg hsize]
                exact ih cand

/-- The search over the whole table. -/
theorem search (h : l.Refines p) (size : ℕ) :
    l.searchTable size l.blktable none = Buddy.searchTable p size p.blktable none := by
  apply h.searchTable
  refine List.forall₂_iff_get.2 ⟨h.length, fun i hi hi' ↦ ?_⟩
  have hfirst : l.blktable.get ⟨i, hi⟩ = l.links.first i := by
    simp [LinkedPool.links, hi]
  have hlist : p.blktable.get ⟨i, hi'⟩ = p.offsAt i := by
    simp [Pool.offsAt, hi']
  rw [hfirst, hlist]
  exact ⟨(h.holds.linked i).chain, fun o ho ↦ ⟨i, ho⟩, h.length_le_bytes i⟩

end LinkedPool.Refines

end Experimentation.Buddy
