import Experimentation.Buddy.Allocation
import Experimentation.Buddy.Release

/-!
# Runs of the buddy pool

A run starts from a pool that `mpool_init` returned and is made of requests, of releases of
pointers that were returned and not yet released, and of writes by the clients.  A client may
change every header cell that its payload overlaps, so that nothing is assumed about stale headers;
a client whose request wrapped was given fewer bytes than a header and is assumed not to write.

Every reachable pool describes a tiling whose used blocks are those of the live allocations.
-/

namespace Experimentation.Buddy

open DyadicTiling Semantics

/-- An address returned by `mpool_alloc`, with the number of bytes that were requested. -/
structure Allocation where
  ptr : ℕ
  size : ℕ
deriving DecidableEq, Repr

/-- A pool with the allocations that its clients hold. -/
structure PoolState where
  pool : Pool
  live : List Allocation

/-- `blksize + sizeof(blknode_t)` does not wrap. -/
def NoWrap (blksize : ℕ) : Prop := blksize + sizeofBlkNode < sizeModulus

instance (blksize : ℕ) : Decidable (NoWrap blksize) :=
  inferInstanceAs (Decidable (blksize + sizeofBlkNode < sizeModulus))

/-- The header cell at `o` overlaps the payload of the allocation. -/
def Allocation.Overlaps (a : Allocation) (o : ℕ) : Prop :=
  o < a.ptr + a.size ∧ a.ptr < o + sizeofBlkNode

/-- One step of a run.  Requests are restricted to those that `allow` holds of. -/
inductive Step (allow : Pool → ℕ → Prop) : PoolState → PoolState → Prop
  | alloc {s : PoolState} {p : Pool} {ptr : ℕ} (blksize : ℕ) (hsize : blksize < sizeModulus)
      (hallow : allow s.pool blksize) (h : mpoolAlloc s.pool blksize = .ok (p, some ptr)) :
      Step allow s ⟨p, ⟨ptr, blksize⟩ :: s.live⟩
  | refused {s : PoolState} {p : Pool} (blksize : ℕ) (hsize : blksize < sizeModulus)
      (hallow : allow s.pool blksize) (h : mpoolAlloc s.pool blksize = .ok (p, none)) :
      Step allow s ⟨p, s.live⟩
  | free {s : PoolState} {p : Pool} (a : Allocation) (ha : a ∈ s.live)
      (h : mpoolFree s.pool a.ptr = .ok p) : Step allow s ⟨p, s.live.erase a⟩
  | write {s : PoolState} (mem : ℕ → BlkNode)
      (h : ∀ o, mem o ≠ s.pool.mem o → ∃ a ∈ s.live, NoWrap a.size ∧ a.Overlaps o) :
      Step allow s ⟨{ s.pool with mem := mem }, s.live⟩

/-- The states that runs reach from pools initialised with the two logarithms. -/
inductive Reach (allow : Pool → ℕ → Prop) (maxlogsize minlogsize : ℕ) : PoolState → Prop
  | init {p : Pool} (mallocs : InitMallocs) (garbage : ℕ → BlkNode)
      (h : mpoolInit mallocs garbage maxlogsize minlogsize = .ok (.ok, some p)) :
      Reach allow maxlogsize minlogsize ⟨p, []⟩
  | step {s t : PoolState} (hs : Reach allow maxlogsize minlogsize s) (h : Step allow s t) :
      Reach allow maxlogsize minlogsize t

def anyRequest : Pool → ℕ → Prop := fun _ _ ↦ True

/-! ## Initialisation -/

/-- The pool that a successful `mpool_init` returns. -/
def freshPool (garbage : ℕ → BlkNode) (maxlogsize minlogsize : ℕ) : Pool :=
  ((emptyPool garbage (2 ^ maxlogsize) maxlogsize minlogsize).write 0
    (mpoolBlockInit (garbage 0) sizeofBlkNode mpoolBlockAvail mpoolBlockLeft mpoolBlockParent
      maxlogsize)).push 0 0

/-- The checks of `mpool_init`, and what follows them for a pool of so many bytes. -/
def initChecks {P : Type} (mallocs : InitMallocs) (maxlogsize minlogsize : ℕ)
    (fill : ℕ → Exec (MpRet × Option P)) : Exec (MpRet × Option P) :=
  if maxlogsize > sizeTBits then
    return (.erange, none)
  else if maxlogsize < minlogsize then
    return (.ebadval, none)
  else do
    let minsize ← shiftOne minlogsize
    if minsize ≤ sizeofBlkNode then
      return (.ebadval, none)
    else if !mallocs.pool then
      return (.enomem, none)
    else do
      let bytes ← shiftOne maxlogsize
      if !mallocs.mem || !mallocs.blktable then
        return (.enomem, none)
      else
        fill bytes

theorem initChecks_eq {P : Type} (mallocs : InitMallocs) (maxlogsize minlogsize : ℕ)
    (fill : ℕ → Exec (MpRet × Option P)) :
    initChecks mallocs maxlogsize minlogsize fill =
      if sizeTBits < maxlogsize then .ok (.erange, none)
      else if maxlogsize < minlogsize then .ok (.ebadval, none)
      else if 30 < minlogsize then .error .shift
      else if 2 ^ minlogsize ≤ sizeofBlkNode then .ok (.ebadval, none)
      else if !mallocs.pool then .ok (.enomem, none)
      else if 30 < maxlogsize then .error .shift
      else if !mallocs.mem || !mallocs.blktable then .ok (.enomem, none)
      else fill (2 ^ maxlogsize) := by
  have hfault : ∀ k, 30 < k → shiftOne k = .error .shift := fun k hk ↦ if_neg (by omega)
  unfold initChecks
  by_cases hrange : sizeTBits < maxlogsize
  · rw [if_pos hrange, if_pos hrange]
    rfl
  rw [if_neg hrange, if_neg hrange]
  by_cases hle : maxlogsize < minlogsize
  · rw [if_pos hle, if_pos hle]
    rfl
  rw [if_neg hle, if_neg hle]
  by_cases hmin : 30 < minlogsize
  · rw [if_pos hmin, hfault _ hmin]
    rfl
  rw [if_neg hmin, shiftOne_of_le (not_lt.1 hmin), Exec.ok_bind]
  by_cases hfits : 2 ^ minlogsize ≤ sizeofBlkNode
  · rw [if_pos hfits, if_pos hfits]
    rfl
  rw [if_neg hfits, if_neg hfits]
  by_cases hpool : (!mallocs.pool) = true
  · rw [if_pos hpool, if_pos hpool]
    rfl
  rw [if_neg hpool, if_neg hpool]
  by_cases hmax : 30 < maxlogsize
  · rw [if_pos hmax, hfault _ hmax]
    rfl
  rw [if_neg hmax, shiftOne_of_le (not_lt.1 hmax), Exec.ok_bind]
  by_cases hmem : (!mallocs.mem || !mallocs.blktable) = true
  · rw [if_pos hmem, if_pos hmem]
    rfl
  rw [if_neg hmem, if_neg hmem]

theorem room_of_checks {maxlogsize minlogsize : ℕ} (hle : ¬ maxlogsize < minlogsize)
    (hfits : ¬ 2 ^ minlogsize ≤ sizeofBlkNode) : 0 + sizeofBlkNode ≤ 2 ^ maxlogsize := by
  have hpow : 2 ^ minlogsize ≤ 2 ^ maxlogsize := Nat.pow_le_pow_right two_pos (not_lt.1 hle)
  omega

theorem initChecks_cases (mallocs : InitMallocs) (maxlogsize minlogsize : ℕ) :
    (∃ r : Exec MpRet, r ≠ .ok .ok ∧ ∀ {P : Type} (fill : ℕ → Exec (MpRet × Option P)),
      initChecks mallocs maxlogsize minlogsize fill = r.map fun code ↦ (code, none)) ∨
    0 + sizeofBlkNode ≤ 2 ^ maxlogsize ∧ ∀ {P : Type} (fill : ℕ → Exec (MpRet × Option P)),
      initChecks mallocs maxlogsize minlogsize fill = fill (2 ^ maxlogsize) := by
  simp only [initChecks_eq]
  split_ifs with _ hle _ hfits
  · exact .inl ⟨.ok .erange, by decide, fun _ ↦ rfl⟩
  · exact .inl ⟨.ok .ebadval, by decide, fun _ ↦ rfl⟩
  · exact .inl ⟨.error .shift, by decide, fun _ ↦ rfl⟩
  · exact .inl ⟨.ok .ebadval, by decide, fun _ ↦ rfl⟩
  · exact .inl ⟨.ok .enomem, by decide, fun _ ↦ rfl⟩
  · exact .inl ⟨.error .shift, by decide, fun _ ↦ rfl⟩
  · exact .inl ⟨.ok .enomem, by decide, fun _ ↦ rfl⟩
  · exact .inr ⟨room_of_checks hle hfits, fun _ ↦ rfl⟩

/-- `mpool_init`, branch by branch. -/
theorem mpoolInit_eq (mallocs : InitMallocs) (garbage : ℕ → BlkNode) (maxlogsize minlogsize : ℕ) :
    mpoolInit mallocs garbage maxlogsize minlogsize =
      if sizeTBits < maxlogsize then .ok (.erange, none)
      else if maxlogsize < minlogsize then .ok (.ebadval, none)
      else if 30 < minlogsize then .error .shift
      else if 2 ^ minlogsize ≤ sizeofBlkNode then .ok (.ebadval, none)
      else if !mallocs.pool then .ok (.enomem, none)
      else if 30 < maxlogsize then .error .shift
      else if !mallocs.mem || !mallocs.blktable then .ok (.enomem, none)
      else .ok (.ok, some (freshPool garbage maxlogsize minlogsize)) := by
  refine (initChecks_eq mallocs maxlogsize minlogsize _).trans ?_
  split_ifs with _ hle _ hfits
  any_goals rfl
  have hroom := room_of_checks hle hfits
  dsimp only
  rw [Pool.load_eq hroom, Exec.ok_bind, Pool.store_eq _ hroom, Exec.ok_bind,
    Pool.insertHead_eq (by simp [emptyPool])]
  rfl

/-- A pool returned by `mpool_init` is a fresh pool with acceptable lengths. -/
theorem mpoolInit_ok {mallocs : InitMallocs} {garbage : ℕ → BlkNode} {maxlogsize minlogsize : ℕ}
    {p : Pool} (h : mpoolInit mallocs garbage maxlogsize minlogsize = .ok (.ok, some p)) :
    minlogsize ≤ maxlogsize ∧ maxlogsize ≤ 30 ∧ sizeofBlkNode < 2 ^ minlogsize ∧
      p = freshPool garbage maxlogsize minlogsize := by
  rw [mpoolInit_eq] at h
  split_ifs at h
  · cases h
  · cases h
  · cases h
  · cases h
  · cases h
  · simp only [Except.ok.injEq, Prod.mk.injEq, Option.some.injEq, true_and] at h
    exact ⟨by omega, by omega, by omega, h.symm⟩

theorem freshPool_describes (garbage : ℕ → BlkNode) {maxlogsize minlogsize : ℕ}
    (hle : minlogsize ≤ maxlogsize) (hmax : maxlogsize ≤ 30)
    (hfits : sizeofBlkNode < 2 ^ minlogsize) :
    Describes (freshPool garbage maxlogsize minlogsize)
      (BuddyTiling.fresh minlogsize maxlogsize hle) := by
  let empty := emptyPool garbage (2 ^ maxlogsize) maxlogsize minlogsize
  let root : Block := ⟨0, maxlogsize⟩
  have hlist : ∀ k, empty.listOf k = [] := fun k ↦ by
    simp only [Pool.listOf, empty, emptyPool, List.getD_eq_getElem?_getD, List.getElem?_replicate]
    split <;> rfl
  have hempty : Lists minlogsize maxlogsize empty ∅ :=
    { maxlogsize := rfl, minlogsize := rfl, bytes := rfl, nblocks := rfl
      length := List.length_replicate
      minFits := hfits, le := hle, maxFits := hmax
      mem_iff := fun b ↦ by simp [hlist]
      nodup := fun k _ ↦ by simp [hlist] }
  let node := mpoolBlockInit (garbage 0) sizeofBlkNode mpoolBlockAvail mpoolBlockLeft
    mpoolBlockParent maxlogsize
  have hpush := (hempty.write 0 node).push (b := root) (Set.notMem_empty _) hle le_rfl
  have hpos : maxlogsize - root.log = 0 := Nat.sub_self _
  rw [hpos] at hpush
  have hset : (BuddyTiling.fresh minlogsize maxlogsize hle).used ∪
      (BuddyTiling.fresh minlogsize maxlogsize hle).free = insert root ∅ := by
    simp [BuddyTiling.fresh, root]
  have hmem : (freshPool garbage maxlogsize minlogsize).mem 0 = node := by
    simp only [freshPool, Pool.push_mem, Pool.write_mem, Function.update_self, node]
  refine ⟨hset ▸ hpush, ?_, ?_, ?_⟩
  · intro b hb
    rw [hset] at hb
    have hroot : b = root := by simpa using hb
    rw [hroot, hmem]
    exact ⟨by simp [node, root], by simp [node, root], by simp [node, root, lrBit, mpoolBlockLeft,
      mpoolBlockRight], by simp [node, root, parentBit]⟩
  · intro b hb
    exact absurd hb (Set.notMem_empty b)
  · intro b hb
    rw [show b = root from hb, hmem]
    simp [node]

/-! ## The invariant of runs -/

/-- The used blocks of the tiling are the blocks of the live allocations, one block for each, and
each block holds what was requested, as far as the request did not wrap. -/
structure Owned {m n : ℕ} (A : BuddyTiling m n) (live : List Allocation) : Prop where
  owner : ∀ b ∈ A.used, ∃ a ∈ live, a.ptr = b.off + sizeofBlkNode
  block : ∀ a ∈ live, ∃ b ∈ A.used, a.ptr = b.off + sizeofBlkNode ∧
    wrapSize (a.size + sizeofBlkNode) ≤ 2 ^ b.log
  nodup : (live.map Allocation.ptr).Nodup

/-- Every reachable state satisfies this. -/
def Inv (m n : ℕ) (s : PoolState) : Prop :=
  ∃ A : BuddyTiling m n, Describes s.pool A ∧ Owned A s.live

variable {m n : ℕ}

theorem Owned.alloc {A A' : BuddyTiling m n} {live : List Allocation} (h : Owned A live)
    {b : Block} {blksize : ℕ} (hb : b ∈ Vacant n A.used) (hused : A'.used = insert b A.used)
    (hsize : wrapSize (blksize + sizeofBlkNode) ≤ 2 ^ b.log) :
    Owned A' (⟨b.off + sizeofBlkNode, blksize⟩ :: live) where
  owner c hc := by
    rw [hused] at hc
    rcases hc with rfl | hc
    · exact ⟨_, List.mem_cons_self, rfl⟩
    · obtain ⟨a, ha, hptr⟩ := h.owner c hc
      exact ⟨a, List.mem_cons_of_mem _ ha, hptr⟩
  block a ha := by
    rw [hused]
    rcases List.mem_cons.1 ha with rfl | ha
    · exact ⟨b, Set.mem_insert _ _, rfl, hsize⟩
    · obtain ⟨c, hc, hfits⟩ := h.block a ha
      exact ⟨c, Set.mem_insert_of_mem _ hc, hfits⟩
  nodup := by
    rw [List.map_cons, List.nodup_cons]
    refine ⟨fun hmem ↦ ?_, h.nodup⟩
    obtain ⟨a, ha, hptr⟩ := List.mem_map.1 hmem
    obtain ⟨c, hc, hcptr, _⟩ := h.block a ha
    -- a block in use at the same offset would meet the vacant one
    have hoff : c.off = b.off := by
      have hsum := hcptr.symm.trans hptr
      exact Nat.add_right_cancel hsum
    have hapart := hb.2.2 c hc
    have hlt := b.off_lt_stop
    have hlt' := c.off_lt_stop
    unfold Block.Apart at hapart
    omega

theorem Owned.free {A A' : BuddyTiling m n} {live : List Allocation} (h : Owned A live)
    {b : Block} {a : Allocation} (ha : a ∈ live) (hb : b ∈ A.used)
    (hptr : a.ptr = b.off + sizeofBlkNode) (hused : A'.used = A.used \ {b}) :
    Owned A' (live.erase a) where
  owner c hc := by
    rw [hused] at hc
    obtain ⟨a', ha', hptr'⟩ := h.owner c hc.1
    refine ⟨a', (List.mem_erase_of_ne fun heq ↦ hc.2 ?_).2 ha', hptr'⟩
    refine A.off_injective hc.1 hb ?_
    rw [heq, hptr] at hptr'
    exact (Nat.add_right_cancel hptr').symm
  block a' ha' := by
    rw [hused]
    have hnodup : live.Nodup := List.Nodup.of_map _ h.nodup
    obtain ⟨hne, hmem⟩ := (hnodup.mem_erase_iff).1 ha'
    obtain ⟨c, hc, hcptr, hfits⟩ := h.block a' hmem
    refine ⟨c, ⟨hc, fun heq ↦ hne ?_⟩, hcptr, hfits⟩
    have hcb : c = b := heq
    exact List.inj_on_of_nodup_map h.nodup hmem ha (by rw [hcptr, hptr, hcb])
  nodup := h.nodup.sublist (List.Sublist.map _ List.erase_sublist)

/-- A tiling is described by every memory that agrees on the headers of its blocks. -/
theorem Describes.of_mem {p : Pool} {A : BuddyTiling m n} (h : Describes p A) {mem : ℕ → BlkNode}
    (hmem : ∀ b ∈ A.used ∪ A.free, mem b.off = p.mem b.off) :
    Describes { p with mem := mem } A where
  lists := h.lists.of_eq rfl rfl rfl rfl rfl
  headers b hb := by
    dsimp only
    rw [hmem b hb]
    exact h.headers b hb
  used b hb := by
    dsimp only
    rw [hmem b (.inl hb)]
    exact h.used b hb
  free b hb := by
    dsimp only
    rw [hmem b (.inr hb)]
    exact h.free b hb

theorem Owned.not_overlaps {p : Pool} {A : BuddyTiling m n} {live : List Allocation}
    (hp : Describes p A) (h : Owned A live) {a : Allocation} (ha : a ∈ live) (hwrap : NoWrap a.size)
    {c : Block} (hc : c ∈ A.used ∪ A.free) : ¬ a.Overlaps c.off := fun hover ↦ by
  obtain ⟨b, hb, hptr, hfits⟩ := h.block a ha
  rw [wrapSize_of_lt hwrap] at hfits
  have hroom : sizeofBlkNode ≤ 2 ^ c.log := by
    have hm := hp.lists.minFits
    have hpow : 2 ^ m ≤ 2 ^ c.log := Nat.pow_le_pow_right two_pos (A.floor c hc)
    omega
  unfold Allocation.Overlaps at hover
  by_cases heq : b = c
  · subst heq
    omega
  · have hapart := A.tiles.apart b (.inl hb) c hc heq
    unfold Block.Apart Block.stop at hapart
    omega

/-- One step keeps the invariant. -/
theorem Inv.step {allow : Pool → ℕ → Prop} {s t : PoolState} (h : Inv m n s)
    (hstep : Step allow s t) : Inv m n t := by
  obtain ⟨A, hp, hlive⟩ := h
  cases hstep with
  | alloc blksize hsize hallow hrun =>
      rcases mpoolAlloc_spec hp blksize with ⟨hnull, _⟩ | ⟨p', b, A', hsome, hp', hleast, hb, hused, _⟩
      · rw [hnull] at hrun
        cases hrun
      · rw [hsome] at hrun
        cases hrun
        exact ⟨A', hp', hlive.alloc hb hused hleast.1.2⟩
  | refused blksize hsize hallow hrun =>
      rcases mpoolAlloc_spec hp blksize with ⟨hnull, _⟩ | ⟨p', b, A', hsome, _⟩
      · rw [hnull] at hrun
        cases hrun
        exact ⟨A, hp, hlive⟩
      · rw [hsome] at hrun
        cases hrun
  | free a ha hrun =>
      obtain ⟨b, hb, hptr, _⟩ := hlive.block a ha
      obtain ⟨p', A', hfree, hp', hused, _⟩ := mpoolFree_spec hp hb
      rw [hptr, hfree] at hrun
      cases hrun
      exact ⟨A', hp', hlive.free ha hb hptr hused⟩
  | write mem hmem =>
      refine ⟨A, hp.of_mem fun b hb ↦ ?_, hlive⟩
      by_contra hne
      obtain ⟨a, ha, hwrap, hover⟩ := hmem b.off hne
      exact hlive.not_overlaps hp ha hwrap hb hover

/-- Every reachable state satisfies the invariant. -/
theorem Reach.inv {allow : Pool → ℕ → Prop} {maxlogsize minlogsize : ℕ} {s : PoolState}
    (h : Reach allow maxlogsize minlogsize s) : Inv minlogsize maxlogsize s := by
  induction h with
  | init mallocs garbage h =>
      obtain ⟨hle, hmax, hfits, rfl⟩ := mpoolInit_ok h
      refine ⟨_, freshPool_describes garbage hle hmax hfits, ?_, ?_, List.nodup_nil⟩
      · intro b hb
        exact absurd hb (Set.notMem_empty b)
      · intro a ha
        exact absurd ha List.not_mem_nil
  | step _ hstep ih => exact ih.step hstep

end Experimentation.Buddy
