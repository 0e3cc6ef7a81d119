import Experimentation.Buddy.Run

/-!
# The blocks of a reachable pool

Two results about every run.  The blocks on the lists tile the memory of the pool, each on the list
of its length, and the used ones are those of the live allocations.  The available blocks depend on
the used ones alone, so neither the order of the operations nor anything else about the past of a
pool can be read off it; with nothing allocated the pool is one block again.
-/

namespace Experimentation.Buddy

open DyadicTiling Semantics

namespace Pool

/-- The node at `o` is on some list. -/
def Listed (p : Pool) (o : ℕ) : Prop := ∃ l ∈ p.blktable, o ∈ l

/-- The offset and the logarithm of the length of the block whose node is at `o`. -/
def blockAt (p : Pool) (o : ℕ) : Block := ⟨o, (p.mem o).logsize⟩

/-- The blocks on the lists that are marked used. -/
def usedBlocks (p : Pool) : Set Block :=
  {b | p.Listed b.off ∧ b = p.blockAt b.off ∧ (p.mem b.off).isAvail = false}

/-- The blocks on the lists that are marked available. -/
def availBlocks (p : Pool) : Set Block :=
  {b | p.Listed b.off ∧ b = p.blockAt b.off ∧ (p.mem b.off).isAvail = true}

end Pool

variable {m n : ℕ} {p : Pool}

section Described

variable {A : BuddyTiling m n}

theorem Lists.listed_iff {S : Set Block} (h : Lists m n p S) {o : ℕ} :
    p.Listed o ↔ ∃ b ∈ S, b.off = o := by
  constructor
  · intro hlisted
    obtain ⟨l, hl, ho⟩ := hlisted
    obtain ⟨i, hi⟩ := List.getElem?_of_mem hl
    exact ⟨_, (h.exists_block hi ho).2, rfl⟩
  · intro hblock
    obtain ⟨b, hb, rfl⟩ := hblock
    obtain ⟨l, hl, hmem⟩ := h.exists_list hb
    exact ⟨l, List.mem_of_getElem? hl, hmem⟩

theorem Describes.blockAt_eq (h : Describes p A) {b : Block} (hb : b ∈ A.used ∪ A.free) :
    p.blockAt b.off = b :=
  Block.ext rfl (h.headers b hb).logsize

theorem Describes.listed_iff (h : Describes p A) {o : ℕ} :
    p.Listed o ↔ p.blockAt o ∈ A.used ∪ A.free := by
  rw [h.lists.listed_iff]
  constructor
  · intro hblock
    obtain ⟨b, hb, rfl⟩ := hblock
    rw [h.blockAt_eq hb]
    exact hb
  · intro hmem
    exact ⟨_, hmem, rfl⟩

theorem Describes.usedBlocks_eq (h : Describes p A) : p.usedBlocks = A.used := by
  ext b
  constructor
  · intro hb
    obtain ⟨hlisted, heq, havail⟩ := hb
    rcases h.listed_iff.1 hlisted with hu | hf
    · exact heq.symm ▸ hu
    · rw [h.free _ (heq.symm ▸ hf)] at havail
      exact Bool.noConfusion havail
  · intro hb
    have heq := h.blockAt_eq (.inl hb)
    exact ⟨h.listed_iff.2 (.inl (heq.symm ▸ hb)), heq.symm, h.used b hb⟩

theorem Describes.availBlocks_eq (h : Describes p A) : p.availBlocks = A.free := by
  ext b
  constructor
  · intro hb
    obtain ⟨hlisted, heq, havail⟩ := hb
    rcases h.listed_iff.1 hlisted with hu | hf
    · rw [h.used _ (heq.symm ▸ hu)] at havail
      exact Bool.noConfusion havail
    · exact heq.symm ▸ hf
  · intro hb
    have heq := h.blockAt_eq (.inr hb)
    exact ⟨h.listed_iff.2 (.inr (heq.symm ▸ hb)), heq.symm, h.free b hb⟩

end Described

/-! ## The tiling invariant -/

/-- The nodes on the lists tile the `2 ^ maxlogsize` bytes of the pool, and the used ones are those
of the live allocations. -/
structure TilingInvariant (maxlogsize minlogsize : ℕ) (s : PoolState) : Prop where
  /-- Each node is on one list, that of its length. -/
  position : ∀ o, s.pool.Listed o → ∀ i,
    (∃ l, s.pool.blktable[i]? = some l ∧ o ∈ l) ↔ i = maxlogsize - (s.pool.mem o).logsize
  /-- No list holds a node twice. -/
  nodup : ∀ l ∈ s.pool.blktable, l.Nodup
  bounds : ∀ o, s.pool.Listed o →
    minlogsize ≤ (s.pool.mem o).logsize ∧ (s.pool.mem o).logsize ≤ maxlogsize
  aligned : ∀ o, s.pool.Listed o → 2 ^ (s.pool.mem o).logsize ∣ o
  disjoint : ∀ o o', s.pool.Listed o → s.pool.Listed o' → o ≠ o' →
    o + 2 ^ (s.pool.mem o).logsize ≤ o' ∨ o' + 2 ^ (s.pool.mem o').logsize ≤ o
  cover : ∀ x, x < 2 ^ maxlogsize ↔
    ∃ o, s.pool.Listed o ∧ o ≤ x ∧ x < o + 2 ^ (s.pool.mem o).logsize
  ptr : ∀ o, s.pool.Listed o → (s.pool.mem o).ptr = o + sizeofBlkNode
  /-- A block is marked used just when a live allocation has its pointer. -/
  used : ∀ o, (s.pool.Listed o ∧ (s.pool.mem o).isAvail = false) ↔
    ∃ a ∈ s.live, a.ptr = o + sizeofBlkNode
  /-- No two live allocations share a block. -/
  separate : (s.live.map Allocation.ptr).Nodup

theorem Inv.tilingInvariant {s : PoolState} (h : Inv m n s) : TilingInvariant n m s := by
  obtain ⟨A, hp, hlive⟩ := h
  have hblock : ∀ o, s.pool.Listed o → s.pool.blockAt o ∈ A.used ∪ A.free := fun o ho ↦
    hp.listed_iff.1 ho
  constructor
  case position =>
    intro o ho i
    constructor
    · intro hmem
      obtain ⟨l, hl, hmem⟩ := hmem
      obtain ⟨hi, hb⟩ := hp.lists.exists_block hl hmem
      have hlog : (s.pool.mem o).logsize = n - i := (hp.headers _ hb).logsize
      rw [hlog]
      have hle := hp.lists.le
      omega
    · intro hi
      rw [hi]
      exact hp.lists.exists_list (hblock o ho)
  case nodup =>
    intro l hl
    obtain ⟨i, hi⟩ := List.getElem?_of_mem hl
    have hlt : i < s.pool.blktable.length := (List.getElem?_eq_some_iff.1 hi).1
    have hnodup := hp.lists.nodup (n - i) (Nat.sub_le _ _)
    have hlen := hp.lists.length
    have hsub : n - (n - i) = i := by
      have hle := hp.lists.le
      omega
    rw [Pool.listOf, hp.lists.maxlogsize, hsub, List.getD_eq_getElem?_getD, hi] at hnodup
    exact hnodup
  case bounds => exact fun o ho ↦ ⟨hp.lists.le_log (hblock o ho), hp.lists.log_le (hblock o ho)⟩
  case aligned => exact fun o ho ↦ A.tiles.aligned _ (hblock o ho)
  case disjoint =>
    intro o o' ho ho' hne
    exact A.tiles.apart _ (hblock o ho) _ (hblock o' ho') fun heq ↦ hne (congrArg Block.off heq)
  case cover =>
    intro x
    constructor
    · intro hx
      obtain ⟨b, hb, hlo, hhi⟩ := A.tiles.cover x hx
      have heq := hp.blockAt_eq hb
      refine ⟨b.off, hp.listed_iff.2 (heq.symm ▸ hb), hlo, ?_⟩
      rw [(hp.headers b hb).logsize]
      exact hhi
    · intro hx
      obtain ⟨o, ho, _, hhi⟩ := hx
      exact hhi.trans_le (A.tiles.inside _ (hblock o ho))
  case ptr => exact fun o ho ↦ (hp.headers _ (hblock o ho)).ptr
  case used =>
    intro o
    constructor
    · intro hused
      have hb : s.pool.blockAt o ∈ A.used :=
        hp.usedBlocks_eq ▸ ⟨hused.1, rfl, hused.2⟩
      exact hlive.owner _ hb
    · intro howned
      obtain ⟨a, ha, hptr⟩ := howned
      obtain ⟨b, hb, hbptr, _⟩ := hlive.block a ha
      have hoff : b.off = o := Nat.add_right_cancel (hbptr.symm.trans hptr)
      have hmem : b ∈ s.pool.usedBlocks := hp.usedBlocks_eq ▸ hb
      exact hoff ▸ ⟨hmem.1, hmem.2.2⟩
  case separate => exact hlive.nodup

/-- In every state that a run reaches, the blocks tile the pool and the used ones are those of the
live allocations.  Requests that wrap are covered too. -/
theorem reach_tilingInvariant {maxlogsize minlogsize : ℕ} {s : PoolState}
    (h : Reach anyRequest maxlogsize minlogsize s) : TilingInvariant maxlogsize minlogsize s :=
  h.inv.tilingInvariant

/-- A pool of 128 bytes whose memory held zeros. -/
def smallPool : Pool := freshPool (fun _ ↦ ⟨0, 0, 0⟩) 7 6

theorem smallPool_reach (allow : Pool → ℕ → Prop) : Reach allow 7 6 ⟨smallPool, []⟩ :=
  .init ⟨true, true, true⟩ (fun _ ↦ ⟨0, 0, 0⟩) (mpoolInit_eq _ _ _ _)

/-- A request of 20 bytes splits the pool of 128 bytes, and both halves are blocks. -/
theorem smallPool_tilingInvariant :
    ∃ p, mpoolAlloc smallPool 20 = .ok (p, some 40) ∧ TilingInvariant 7 6 ⟨p, [⟨40, 20⟩]⟩ :=
  ⟨_, rfl, reach_tilingInvariant
    (.step (smallPool_reach anyRequest) (.alloc 20 (by decide) trivial rfl))⟩

/-! ## Full coalescing -/

/-- The calls `mpool_free(ptr)` for each pointer of the list in turn. -/
def freeAll : Pool → List ℕ → Exec Pool := List.foldlM mpoolFree

/-- The lists of a pool hold one available block, of full length. -/
structure OneBlock (maxlogsize minlogsize : ℕ) (p : Pool) : Prop where
  blktable : p.blktable = [0] :: List.replicate (maxlogsize - minlogsize) []
  avail : (p.mem 0).isAvail = true
  logsize : (p.mem 0).logsize = maxlogsize

theorem Lists.getElem?_blktable {S : Set Block} (h : Lists m n p S) {i : ℕ} (hi : i ≤ n - m) :
    p.blktable[i]? = some (p.listOf (n - i)) := by
  have hlt : i < p.blktable.length := by
    rw [h.length]
    omega
  have hpos : n - (n - i) = i := by
    have hle := h.le
    omega
  rw [Pool.listOf, h.maxlogsize, hpos, List.getD_eq_getElem?_getD, List.getElem?_eq_getElem hlt]
  rfl

theorem Lists.blktable_eq (h : Lists m n p {⟨0, n⟩}) :
    p.blktable = [0] :: List.replicate (n - m) [] := by
  have hle := h.le
  have hmem : ∀ i ≤ n - m, ∀ o, o ∈ p.listOf (n - i) ↔ o = 0 ∧ i = 0 := fun i hi o ↦ by
    have hiff := h.mem_iff ⟨o, n - i⟩
    rw [Set.mem_singleton_iff, Block.mk.injEq] at hiff
    dsimp only at hiff
    constructor
    · intro ho
      have heq := hiff.2 ⟨by omega, by omega, ho⟩
      exact ⟨heq.1, by omega⟩
    · intro heq
      exact (hiff.1 ⟨heq.1, by omega⟩).2.2
  apply List.ext_getElem?
  intro i
  by_cases hi : i ≤ n - m
  · rw [h.getElem?_blktable hi]
    cases i with
    | zero =>
        have hone : (p.listOf n).Perm [0] :=
          (List.perm_ext_iff_of_nodup (h.nodup n le_rfl) (List.nodup_singleton 0)).2 fun o ↦ by
            simpa using hmem 0 hi o
        exact congrArg some (List.perm_singleton.1 hone)
    | succ i =>
        have hnil : p.listOf (n - (i + 1)) = [] :=
          List.eq_nil_iff_forall_not_mem.2 fun o ho ↦ Nat.succ_ne_zero i ((hmem _ hi o).1 ho).2
        rw [hnil, List.getElem?_cons_succ, List.getElem?_replicate, if_pos (by omega)]
  · have hlen := h.length
    have hlong : ([0] :: List.replicate (n - m) []).length = n - m + 1 := by simp
    rw [List.getElem?_eq_none (by omega), List.getElem?_eq_none (by omega)]

theorem Owned.free_of_nil {A : BuddyTiling m n} (h : Owned A []) :
    A.used = ∅ ∧ A.free = {⟨0, n⟩} := by
  have hnone : A.used = ∅ := Set.eq_empty_of_forall_notMem fun b hb ↦ by
    obtain ⟨a, ha, _⟩ := h.owner b hb
    exact List.not_mem_nil ha
  exact ⟨hnone, A.free_of_used_eq_empty hnone⟩

theorem Inv.oneBlock (h : Inv m n ⟨p, []⟩) : OneBlock n m p := by
  obtain ⟨A, hp, hlive⟩ := h
  obtain ⟨hnone, hfree⟩ := hlive.free_of_nil
  have hset : A.used ∪ A.free = {⟨0, n⟩} := by rw [hnone, hfree, Set.empty_union]
  have hroot : (⟨0, n⟩ : Block) ∈ A.free := hfree.symm ▸ rfl
  have hlists : Lists m n p {⟨0, n⟩} := hset ▸ hp.lists
  exact ⟨hlists.blktable_eq, hp.free _ hroot, (hp.headers _ (.inr hroot)).logsize⟩

theorem Inv.freeAll {s : PoolState} (h : Inv m n s) {order : List ℕ}
    (horder : order.Perm (s.live.map Allocation.ptr)) :
    ∃ q, Buddy.freeAll s.pool order = .ok q ∧ Inv m n ⟨q, []⟩ := by
  induction order generalizing s with
  | nil =>
      have hlive : s.live = [] := List.map_eq_nil_iff.1 (List.perm_nil.1 horder.symm)
      exact ⟨s.pool, rfl, hlive ▸ h⟩
  | cons ptr order ih =>
      obtain ⟨a, ha, hptr⟩ := List.mem_map.1 (horder.subset List.mem_cons_self)
      obtain ⟨A, hp, hlive⟩ := h
      obtain ⟨b, hb, hbptr, _⟩ := hlive.block a ha
      obtain ⟨q, A', hfree, hq, hused, _⟩ := mpoolFree_spec hp hb
      have hrest : order.Perm ((s.live.erase a).map Allocation.ptr) := by
        refine List.Perm.cons_inv (a := ptr) (horder.trans ?_)
        rw [← hptr]
        exact (List.perm_cons_erase ha).map Allocation.ptr
      obtain ⟨q', hall, hq'⟩ :=
        ih (s := ⟨q, s.live.erase a⟩) ⟨A', hq, hlive.free ha hb hbptr hused⟩ hrest
      refine ⟨q', ?_, hq'⟩
      rw [Buddy.freeAll, List.foldlM_cons, ← hptr, hbptr, hfree, Exec.ok_bind]
      exact hall

theorem Inv.availBlocks_eq {s : PoolState} (h : Inv m n s) :
    s.pool.availBlocks = MaxVacant n s.pool.usedBlocks := by
  obtain ⟨A, hp, _⟩ := h
  rw [hp.availBlocks_eq, hp.usedBlocks_eq, A.free_eq]

/-- Two runs whose pools end with the same used blocks end with the same available blocks, and
releasing everything that is allocated, in any order, leaves one block. -/
theorem reach_coalesced {maxlogsize minlogsize : ℕ} {s t : PoolState}
    (hs : Reach anyRequest maxlogsize minlogsize s) (ht : Reach anyRequest maxlogsize minlogsize t) :
    (s.pool.usedBlocks = t.pool.usedBlocks → s.pool.availBlocks = t.pool.availBlocks) ∧
      ∀ order : List ℕ, order.Perm (s.live.map Allocation.ptr) →
        ∃ q, freeAll s.pool order = .ok q ∧ OneBlock maxlogsize minlogsize q := by
  constructor
  · intro hused
    rw [hs.inv.availBlocks_eq, ht.inv.availBlocks_eq, hused]
  · intro order horder
    obtain ⟨q, hall, hq⟩ := hs.inv.freeAll horder
    exact ⟨q, hall, hq.oneBlock⟩

/-- The pool of 128 bytes is one block again after its only allocation is released. -/
theorem smallPool_coalesced :
    ∃ p q, mpoolAlloc smallPool 20 = .ok (p, some 40) ∧ freeAll p [40] = .ok q ∧ OneBlock 7 6 q := by
  have hreach := (smallPool_reach anyRequest).step (.alloc 20 (by decide) trivial rfl)
  obtain ⟨q, hall, hq⟩ := (reach_coalesced hreach hreach).2 [40] (List.Perm.refl _)
  exact ⟨_, q, rfl, hall, hq⟩

end Experimentation.Buddy
