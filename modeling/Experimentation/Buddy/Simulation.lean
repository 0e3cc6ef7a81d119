import Experimentation.Buddy.Capacity

/-!
# The simulation of `test4.c`

In every epoch the program releases the blocks whose time has come, allocates one block of random
size for a random number of epochs, and puts it into a list that is kept in order of the epochs in
which the blocks are to be released.  What `rand` returns is arbitrary.  The length of the pool is
left open: with 64-bit pointers `mpool_init` refuses the length that the program asks for.

Only the first blocks of the list are looked at in an epoch, and only those of the same lifetime, so
that a block out of order would be lost.  None is, and the memory of the pool never runs out.
-/

namespace Experimentation.Buddy

open DyadicTiling Semantics

/-! ## The program -/

def maxEpochs : ℕ := 20000

def maxLifetime : ℕ := 1000

def maxLogsize : ℕ := 5

/-- The value of an `unsigned int`. -/
def wrapUnsigned (k : ℕ) : ℕ := k % 2 ^ 32

/-- A `simnode_t`, with its place in the array `simnode`. -/
structure SimNode where
  index : ℕ
  ptr : ℕ
  lifetime : ℕ
deriving DecidableEq, Repr

def simAddToList (simnode : SimNode) : List SimNode → List SimNode
  | [] => [simnode]
  | pnode :: rest =>
      if simnode.lifetime < pnode.lifetime then
        simnode :: pnode :: rest
      else if rest.isEmpty then
        [pnode, simnode]
      else
        pnode :: simAddToList simnode rest

def simFreeFromList (t : ℕ) : Pool → List SimNode → Exec (Pool × List SimNode)
  | p, [] => return (p, [])
  | p, pnode :: rest =>
      if t = pnode.lifetime then do
        let p ← mpoolFree p pnode.ptr
        simFreeFromList t p rest
      else
        return (p, pnode :: rest)

/-- What `rand` returns in each epoch, for the size and for the lifetime of the block. -/
structure Draws where
  size : ℕ → ℕ
  lifetime : ℕ → ℕ

/-- The pool and the list between two epochs. -/
structure SimState where
  pool : Pool
  simhead : List SimNode

/-- The number of epochs that the block of epoch `t` lasts. -/
def Draws.lt (d : Draws) (t : ℕ) : ℕ :=
  if t < maxEpochs - maxLifetime then
    1 + d.lifetime t % maxLifetime
  else
    1 + d.lifetime t % (maxEpochs - t)

/-- The body of the simulation loop; `none` when `mpool_alloc` returns `NULL` and the program gives
up. -/
def simEpoch (d : Draws) (t : ℕ) (s : SimState) : Exec (Option SimState) := do
  let (p, simhead) ← simFreeFromList (wrapUnsigned t) s.pool s.simhead
  let sz ← shiftOne (d.size t % (1 + maxLogsize))
  match ← mpoolAlloc p sz with
  | (_, none) => return none
  | (p, some ptr) =>
      return some ⟨p, simAddToList ⟨t, ptr, wrapUnsigned (t + d.lt t)⟩ simhead⟩

/-- The first epochs of the simulation. -/
def simEpochs (d : Draws) : (epochs : ℕ) → SimState → Exec (Option SimState)
  | 0, s => return some s
  | t + 1, s => do
      match ← simEpochs d t s with
      | none => return none
      | some s => simEpoch d t s

/-- The simulation on a pool that was initialised. -/
def simulate (d : Draws) (p : Pool) : Exec (Option SimState) := do
  match ← simEpochs d maxEpochs ⟨p, []⟩ with
  | none => return none
  | some s =>
      let (p, simhead) ← simFreeFromList (wrapUnsigned maxEpochs) s.pool s.simhead
      return some ⟨p, simhead⟩

/-- How `main` ends. -/
inductive SimExit
  /-- `mpool_init` failed. -/
  | refused (ret : MpRet)
  /-- `mpool_alloc` returned `NULL`. -/
  | noBlock
  | success (s : SimState)

/-- `main`, with the arguments of `mpool_init` left open. -/
def simMain (mallocs : InitMallocs) (garbage : ℕ → BlkNode) (d : Draws)
    (maxlogsize minlogsize : ℕ) : Exec SimExit := do
  match ← mpoolInit mallocs garbage maxlogsize minlogsize with
  | (ret, none) => return .refused ret
  | (_, some p) =>
      match ← simulate d p with
      | none => return .noBlock
      | some s => return .success s

theorem simMain_refused (mallocs : InitMallocs) (garbage : ℕ → BlkNode) (d : Draws) :
    simMain mallocs garbage d 25 5 = .ok (.refused .ebadval) := by
  rw [simMain, mpoolInit_eq]
  rfl

namespace Draws

variable (d : Draws) {t e : ℕ}

/-- The epoch in which the block of epoch `e` is to be released. -/
def release (e : ℕ) : ℕ := e + d.lt e

/-- What the program asked for when it allocated the block of a node. -/
def allocation (node : SimNode) : Allocation :=
  ⟨node.ptr, 2 ^ (d.size node.index % (1 + maxLogsize))⟩

/-- A block lasts one epoch at least, `maxLifetime` epochs at most, and not beyond the last one. -/
theorem release_bounds (he : e < maxEpochs) :
    e < d.release e ∧ d.release e ≤ e + maxLifetime ∧ d.release e ≤ maxEpochs := by
  unfold release lt maxEpochs maxLifetime at *
  split
  · have hmod := Nat.mod_lt (d.lifetime e) (show 0 < 1000 by decide)
    omega
  · have hmod := Nat.mod_lt (d.lifetime e) (show 0 < 20000 - e by omega)
    omega

theorem wrapUnsigned_release (he : e < maxEpochs) : wrapUnsigned (e + d.lt e) = d.release e := by
  have hle := (d.release_bounds he).2.2
  apply Nat.mod_eq_of_lt
  change d.release e < _
  unfold maxEpochs at hle
  omega

end Draws

theorem wrapUnsigned_epoch {t : ℕ} (ht : t ≤ maxEpochs) : wrapUnsigned t = t := by
  apply Nat.mod_eq_of_lt
  unfold maxEpochs at ht
  omega

/-! ## The list -/

/-- The list is in order of release. -/
def Ordered (simhead : List SimNode) : Prop := simhead.Pairwise fun a b ↦ a.lifetime ≤ b.lifetime

theorem simAddToList_perm (simnode : SimNode) (simhead : List SimNode) :
    (simAddToList simnode simhead).Perm (simnode :: simhead) := by
  induction simhead with
  | nil => exact List.Perm.refl _
  | cons pnode rest ih =>
      rw [simAddToList]
      split
      · exact List.Perm.refl _
      · split
        next hlast =>
          rw [List.isEmpty_iff.1 hlast]
          exact List.Perm.swap simnode pnode []
        next => exact (ih.cons pnode).trans (List.Perm.swap simnode pnode rest)

theorem simAddToList_ordered {simnode : SimNode} {simhead : List SimNode} (h : Ordered simhead) :
    Ordered (simAddToList simnode simhead) := by
  induction simhead with
  | nil => exact List.pairwise_singleton _ _
  | cons pnode rest ih =>
      obtain ⟨hhead, hrest⟩ := List.pairwise_cons.1 h
      rw [simAddToList]
      split
      next hlt =>
        refine List.pairwise_cons.2 ⟨fun a ha ↦ ?_, h⟩
        rcases List.mem_cons.1 ha with rfl | ha
        · exact hlt.le
        · exact hlt.le.trans (hhead a ha)
      next hle =>
        have hstart : ∀ a ∈ simnode :: rest, pnode.lifetime ≤ a.lifetime := fun a ha ↦ by
          rcases List.mem_cons.1 ha with rfl | ha
          · exact not_lt.1 hle
          · exact hhead a ha
        split
        next hlast =>
          refine List.pairwise_cons.2 ⟨fun a ha ↦ hstart a ?_, List.pairwise_singleton _ _⟩
          rw [List.isEmpty_iff.1 hlast]
          exact ha
        next =>
          refine List.pairwise_cons.2 ⟨fun a ha ↦ ?_, ih hrest⟩
          exact hstart a ((simAddToList_perm simnode rest).subset ha)

/-- Dropping the first nodes of one lifetime drops all of them, unless the list has a node whose
time is over already. -/
theorem Ordered.dropWhile_eq {simhead : List SimNode} (h : Ordered simhead) {t : ℕ}
    (hwait : ∀ node ∈ simhead, t ≤ node.lifetime) :
    simhead.dropWhile (fun node ↦ t = node.lifetime) =
      simhead.filter fun node ↦ t < node.lifetime := by
  induction simhead with
  | nil => rfl
  | cons node rest ih =>
      obtain ⟨hhead, hrest⟩ := List.pairwise_cons.1 h
      by_cases ht : t = node.lifetime
      · rw [List.dropWhile_cons_of_pos (by simpa using ht),
          List.filter_cons_of_neg (by simpa using ht.ge)]
        exact ih hrest fun a ha ↦ hwait a (List.mem_cons_of_mem node ha)
      · have hlt : t < node.lifetime := lt_of_le_of_ne (hwait node List.mem_cons_self) ht
        rw [List.dropWhile_cons_of_neg (by simpa using ht), List.filter_eq_self.2]
        intro a ha
        rcases List.mem_cons.1 ha with rfl | ha
        · simpa using hlt
        · simpa using hlt.trans_le (hhead a ha)

section Held

variable {m n k : ℕ} {d : Draws} {p : Pool} {simhead : List SimNode}

/-- The live allocations of the pool are those of the nodes on the list. -/
def Held (d : Draws) (k n m : ℕ) (p : Pool) (simhead : List SimNode) : Prop :=
  ∃ live : List Allocation, live.Perm (simhead.map d.allocation) ∧
    Reach (requestWithin k) n m ⟨p, live⟩

theorem Held.perm {simhead' : List SimNode} (h : Held d k n m p simhead)
    (hperm : simhead.Perm simhead') : Held d k n m p simhead' := by
  obtain ⟨live, hlive, hreach⟩ := h
  exact ⟨live, hlive.trans (hperm.map _), hreach⟩

/-- The block of a node can be released. -/
theorem Held.free {node : SimNode} (h : Held d k n m p (node :: simhead)) :
    ∃ q, mpoolFree p node.ptr = .ok q ∧ Held d k n m q simhead := by
  obtain ⟨live, hlive, hreach⟩ := h
  have ha : d.allocation node ∈ live := hlive.symm.subset List.mem_cons_self
  obtain ⟨A, hp, howned⟩ := hreach.inv
  obtain ⟨b, hb, hptr, _⟩ := howned.block _ ha
  obtain ⟨q, A', hfree, _⟩ := mpoolFree_spec hp hb
  rw [← hptr] at hfree
  refine ⟨q, hfree, live.erase (d.allocation node), ?_, hreach.step (.free _ ha hfree)⟩
  have herase := hlive.erase (d.allocation node)
  rwa [List.map_cons, List.erase_cons_head] at herase

/-- `sim_free_from_list` releases the first nodes of the list, up to one with another lifetime. -/
theorem Held.freeFromList (h : Held d k n m p simhead) (t : ℕ) :
    ∃ q, simFreeFromList t p simhead =
        .ok (q, simhead.dropWhile fun node ↦ t = node.lifetime) ∧
      Held d k n m q (simhead.dropWhile fun node ↦ t = node.lifetime) := by
  induction simhead generalizing p with
  | nil => exact ⟨p, rfl, h⟩
  | cons node rest ih =>
      rw [simFreeFromList]
      by_cases ht : t = node.lifetime
      · obtain ⟨q, hfree, hq⟩ := h.free
        obtain ⟨q', hrun, hq'⟩ := ih hq
        rw [if_pos ht, hfree, Exec.ok_bind, hrun, List.dropWhile_cons_of_pos (by simpa using ht)]
        exact ⟨q', rfl, hq'⟩
      · rw [if_neg ht, List.dropWhile_cons_of_neg (by simpa using ht)]
        exact ⟨p, rfl, h⟩

/-- A block is found for the next node, as long as there are few nodes. -/
theorem Held.alloc (h : Held d k n m p simhead) (hm : m ≤ k) (h7 : 7 ≤ k) (hk : k ≤ n)
    (hfew : simhead.length < 2 ^ (n - k)) (t lifetime : ℕ) :
    ∃ q ptr, mpoolAlloc p (2 ^ (d.size t % (1 + maxLogsize))) = .ok (q, some ptr) ∧
      Held d k n m q (⟨t, ptr, lifetime⟩ :: simhead) := by
  obtain ⟨live, hlive, hreach⟩ := h
  have hsize : 2 ^ (d.size t % (1 + maxLogsize)) ≤ 2 ^ 5 :=
    Nat.pow_le_pow_right two_pos (Nat.le_of_lt_succ (Nat.mod_lt _ (by decide)))
  have hreq : requestWithin k p (2 ^ (d.size t % (1 + maxLogsize))) := by
    have hlong : 2 ^ 7 ≤ 2 ^ k := Nat.pow_le_pow_right two_pos h7
    unfold requestWithin
    rw [wrapSize_of_lt (by unfold sizeofBlkNode sizeModulus; omega)]
    unfold sizeofBlkNode
    omega
  have hlen : live.length < 2 ^ (n - k) := by
    rw [hlive.length_eq, List.length_map]
    exact hfew
  obtain ⟨q, ptr, hrun⟩ := (hreach.invWithin hm).served hk hlen hreq
  have hlt : 2 ^ (d.size t % (1 + maxLogsize)) < sizeModulus :=
    hsize.trans_lt (by unfold sizeModulus; omega)
  exact ⟨q, ptr, hrun, _, hlive.cons _, hreach.step (.alloc _ hlt hreq hrun)⟩

end Held

/-! ## The run -/

variable {m n k : ℕ} {d : Draws}

/-- What holds before epoch `t`: the list has the nodes of the blocks that are not to be released
before, in order of release, and their blocks are what is allocated. -/
structure SimProgress (d : Draws) (k n m t : ℕ) (s : SimState) : Prop where
  waiting : (s.simhead.map SimNode.index).Perm
    ((List.range t).filter fun e ↦ t ≤ d.release e)
  lifetime : ∀ node ∈ s.simhead, node.lifetime = d.release node.index
  ordered : Ordered s.simhead
  held : Held d k n m s.pool s.simhead

/-- The list after the blocks of epoch `t` have been released. -/
structure SimMidway (d : Draws) (k n m t : ℕ) (p : Pool) (simhead : List SimNode) : Prop where
  waiting : (simhead.map SimNode.index).Perm ((List.range t).filter fun e ↦ t < d.release e)
  lifetime : ∀ node ∈ simhead, node.lifetime = d.release node.index
  ordered : Ordered simhead
  held : Held d k n m p simhead

theorem SimProgress.freeFromList {t : ℕ} {s : SimState} (h : SimProgress d k n m t s)
    (ht : t ≤ maxEpochs) :
    ∃ p simhead, simFreeFromList (wrapUnsigned t) s.pool s.simhead = .ok (p, simhead) ∧
      SimMidway d k n m t p simhead := by
  have hwait : ∀ node ∈ s.simhead, t ≤ node.lifetime := fun node hnode ↦ by
    have hmem := h.waiting.subset (List.mem_map_of_mem hnode)
    rw [h.lifetime node hnode]
    simpa using (List.mem_filter.1 hmem).2
  obtain ⟨p, hrun, hheld⟩ := h.held.freeFromList t
  rw [h.ordered.dropWhile_eq hwait] at hrun hheld
  rw [wrapUnsigned_epoch ht]
  refine ⟨p, _, hrun, ?_, fun node hnode ↦ h.lifetime node (List.mem_filter.1 hnode).1,
    h.ordered.filter _, hheld⟩
  have hmap : (s.simhead.filter fun node ↦ t < node.lifetime).map SimNode.index =
      (s.simhead.map SimNode.index).filter fun e ↦ t < d.release e := by
    rw [List.filter_map]
    congr 1
    refine List.filter_congr fun node hnode ↦ ?_
    simp [h.lifetime node hnode]
  rw [hmap]
  refine (h.waiting.filter _).trans ?_
  rw [List.filter_filter]
  refine List.Perm.of_eq (List.filter_congr fun e _ ↦ ?_)
  by_cases hlt : t < d.release e
  · simp [hlt, hlt.le]
  · simp [hlt]

theorem SimMidway.length_lt {t : ℕ} {p : Pool} {simhead : List SimNode}
    (h : SimMidway d k n m t p simhead) (ht : t ≤ maxEpochs) : simhead.length < maxLifetime := by
  have hsub : ((List.range t).filter fun e ↦ t < d.release e) ⊆
      List.range' (t - (maxLifetime - 1)) (maxLifetime - 1) := fun e he ↦ by
    obtain ⟨hmem, hrelease⟩ := List.mem_filter.1 he
    have het : e < t := List.mem_range.1 hmem
    have hlt : t < d.release e := by simpa using hrelease
    have hbounds := d.release_bounds (het.trans_le ht)
    unfold maxLifetime at hbounds ⊢
    rw [List.mem_range'_1]
    omega
  have hnodup : ((List.range t).filter fun e ↦ t < d.release e).Nodup := List.nodup_range.filter _
  calc simhead.length = (simhead.map SimNode.index).length := (List.length_map _).symm
    _ = ((List.range t).filter fun e ↦ t < d.release e).length := h.waiting.length_eq
    _ ≤ (List.range' (t - (maxLifetime - 1)) (maxLifetime - 1)).length :=
        (hnodup.subperm hsub).length_le
    _ = maxLifetime - 1 := List.length_range'
    _ < maxLifetime := by decide

theorem SimProgress.epoch {t : ℕ} {s : SimState} (h : SimProgress d k n m t s) (ht : t < maxEpochs)
    (hm : m ≤ k) (h7 : 7 ≤ k) (hk : k ≤ n) (hroom : maxLifetime ≤ 2 ^ (n - k)) :
    ∃ s', simEpoch d t s = .ok (some s') ∧ SimProgress d k n m (t + 1) s' := by
  obtain ⟨p, simhead, hfree, hmid⟩ := h.freeFromList ht.le
  obtain ⟨q, ptr, halloc, hheld⟩ := hmid.held.alloc hm h7 hk
    ((hmid.length_lt ht.le).trans_le hroom) t (wrapUnsigned (t + d.lt t))
  let node : SimNode := ⟨t, ptr, wrapUnsigned (t + d.lt t)⟩
  have hperm := simAddToList_perm node simhead
  have hrelease : t < d.release t := (d.release_bounds ht).1
  refine ⟨⟨q, simAddToList node simhead⟩, ?_, ?_, ?_, simAddToList_ordered hmid.ordered,
    hheld.perm hperm.symm⟩
  · have hshift : shiftOne (d.size t % (1 + maxLogsize)) =
        .ok (2 ^ (d.size t % (1 + maxLogsize))) := by
      apply shiftOne_of_le
      have hmod := Nat.mod_lt (d.size t) (show 0 < 1 + maxLogsize by decide)
      unfold maxLogsize at hmod ⊢
      omega
    rw [simEpoch, hfree, Exec.ok_bind]
    dsimp only
    rw [hshift, Exec.ok_bind, halloc]
    rfl
  · have hrange : ((List.range (t + 1)).filter fun e ↦ t + 1 ≤ d.release e) =
        ((List.range t).filter fun e ↦ t < d.release e) ++ [t] := by
      rw [List.range_succ, List.filter_append, List.filter_cons_of_pos (by simpa using hrelease)]
      rfl
    rw [hrange]
    calc ((simAddToList node simhead).map SimNode.index).Perm
          (t :: simhead.map SimNode.index) := hperm.map _
      List.Perm _ (t :: ((List.range t).filter fun e ↦ t < d.release e)) := hmid.waiting.cons t
      List.Perm _ _ := (List.perm_append_singleton t _).symm
  · intro a ha
    rcases List.mem_cons.1 (hperm.subset ha) with rfl | ha
    · exact d.wrapUnsigned_release ht
    · exact hmid.lifetime a ha

theorem simEpochs_progress {p : Pool} (hinit : Reach (requestWithin k) n m ⟨p, []⟩) (hm : m ≤ k)
    (h7 : 7 ≤ k) (hk : k ≤ n) (hroom : maxLifetime ≤ 2 ^ (n - k)) {t : ℕ} (ht : t ≤ maxEpochs) :
    ∃ s, simEpochs d t ⟨p, []⟩ = .ok (some s) ∧ SimProgress d k n m t s := by
  induction t with
  | zero =>
      exact ⟨⟨p, []⟩, rfl, List.Perm.nil, fun _ hnode ↦ absurd hnode List.not_mem_nil,
        List.Pairwise.nil, [], List.Perm.nil, hinit⟩
  | succ t ih =>
      obtain ⟨s, hrun, hs⟩ := ih (Nat.le_of_succ_le ht)
      obtain ⟨s', hstep, hs'⟩ := hs.epoch ht hm h7 hk hroom
      refine ⟨s', ?_, hs'⟩
      rw [simEpochs, hrun, Exec.ok_bind]
      exact hstep

theorem SimMidway.nil_of_last {p : Pool} {simhead : List SimNode}
    (h : SimMidway d k n m maxEpochs p simhead) : simhead = [] := by
  have hnone : ((List.range maxEpochs).filter fun e ↦ maxEpochs < d.release e) = [] := by
    refine List.filter_eq_nil_iff.2 fun e he ↦ ?_
    simpa using (d.release_bounds (List.mem_range.1 he)).2.2
  have hperm := h.waiting
  rw [hnone] at hperm
  exact List.map_eq_nil_iff.1 (List.perm_nil.1 hperm)

/-- For every sequence of random numbers the program carries out all epochs, in every pool that has
room for `maxLifetime` blocks of the longest kind, which is that of 128 bytes, or that of the
shortest blocks of the pool where these are longer.  Before each epoch the list is in order and
holds the blocks that are still to be released, each of them allocated; in the end it is empty, and
the pool is one block again. -/
theorem simulation_runs (d : Draws) {mallocs : InitMallocs} {garbage : ℕ → BlkNode} {p : Pool}
    (hinit : mpoolInit mallocs garbage n m = .ok (.ok, some p))
    (hroom : maxLifetime * 2 ^ max m 7 ≤ 2 ^ n) :
    (∀ t ≤ maxEpochs, ∃ s, simEpochs d t ⟨p, []⟩ = .ok (some s) ∧
        SimProgress d (max m 7) n m t s) ∧
      ∃ q, simMain mallocs garbage d n m = .ok (.success ⟨q, []⟩) ∧ OneBlock n m q := by
  have hk : max m 7 ≤ n := by
    rw [← Nat.pow_le_pow_iff_right Nat.one_lt_two]
    exact (Nat.le_mul_of_pos_left _ (by decide)).trans hroom
  have hcells : maxLifetime ≤ 2 ^ (n - max m 7) := by
    have hpow : 2 ^ n = 2 ^ (n - max m 7) * 2 ^ max m 7 := by rw [← pow_add, Nat.sub_add_cancel hk]
    rw [hpow] at hroom
    exact Nat.le_of_mul_le_mul_right hroom (Nat.two_pow_pos _)
  have hrun {t : ℕ} (ht : t ≤ maxEpochs) := simEpochs_progress (d := d)
    (.init mallocs garbage hinit) (le_max_left m 7) (le_max_right m 7) hk hcells ht
  refine ⟨fun t ht ↦ hrun ht, ?_⟩
  obtain ⟨s, hepochs, hs⟩ := hrun le_rfl
  obtain ⟨q, simhead, hfree, hmid⟩ := hs.freeFromList le_rfl
  have hnil : simhead = [] := hmid.nil_of_last
  subst hnil
  obtain ⟨live, hlive, hreach⟩ := hmid.held
  have hempty : live = [] := List.perm_nil.1 hlive
  subst hempty
  refine ⟨q, ?_, hreach.inv.oneBlock⟩
  rw [simMain, hinit, Exec.ok_bind]
  dsimp only
  rw [simulate, hepochs, Exec.ok_bind]
  dsimp only
  rw [hfree]
  rfl

/-- A pool of 2 ^ 17 bytes is long enough. -/
theorem simulation_runs_small : ∃ q, simMain ⟨true, true, true⟩ (fun _ ↦ ⟨0, 0, 0⟩)
    ⟨fun t ↦ t, fun t ↦ t⟩ 17 6 = .ok (.success ⟨q, []⟩) ∧ OneBlock 17 6 q :=
  (simulation_runs ⟨fun t ↦ t, fun t ↦ t⟩
    (mpoolInit_eq ⟨true, true, true⟩ (fun _ ↦ ⟨0, 0, 0⟩) 17 6) (by decide)).2

end Experimentation.Buddy
