import Experimentation.Buddy.Coverage

/-!
# Requests that cannot fail

Splitting and joining may scatter the blocks in use over the pool, but a block of length `2 ^ k`
never reaches beyond the cell of that length in which it starts.  As long as there are fewer live
allocations than such cells, none of them longer than a cell, one cell is free from end to end, and
a request that fits into it is served, whatever the history of the pool.
-/

namespace Experimentation.Buddy

open DyadicTiling Semantics

variable {m n k : ℕ} {p : Pool}

/-- Requests that fit into a block of length `2 ^ k` together with their header. -/
def requestWithin (k : ℕ) : Pool → ℕ → Prop := fun _ blksize ↦
  wrapSize (blksize + sizeofBlkNode) ≤ 2 ^ k

/-- The invariant of runs, with a bound on the lengths of the blocks in use. -/
def InvWithin (k m n : ℕ) (s : PoolState) : Prop :=
  ∃ A : BuddyTiling m n, Describes s.pool A ∧ Owned A s.live ∧ ∀ b ∈ A.used, b.log ≤ k

theorem InvWithin.inv {s : PoolState} (h : InvWithin k m n s) : Inv m n s := by
  obtain ⟨A, hp, howned, _⟩ := h
  exact ⟨A, hp, howned⟩

/-- A request is given no longer block than it needs. -/
theorem InvWithin.step {s t : PoolState} (h : InvWithin k m n s) (hk : m ≤ k)
    (hstep : Step (requestWithin k) s t) : InvWithin k m n t := by
  obtain ⟨A, hp, howned, hlog⟩ := h
  cases hstep with
  | alloc blksize hsize hallow hrun =>
      rcases mpoolAlloc_spec hp blksize with ⟨hnull, _⟩ |
        ⟨p', b, A', hsome, hp', hleast, hb, hused, _⟩
      · rw [hnull] at hrun
        cases hrun
      · rw [hsome] at hrun
        cases hrun
        refine ⟨A', hp', howned.alloc hb hused hleast.1.2, fun c hc ↦ ?_⟩
        rw [hused] at hc
        rcases hc with rfl | hc
        · exact hleast.2 ⟨hk, hallow⟩
        · exact hlog c hc
  | refused blksize hsize hallow hrun =>
      rcases mpoolAlloc_spec hp blksize with ⟨hnull, _⟩ | ⟨p', b, A', hsome, _⟩
      · rw [hnull] at hrun
        cases hrun
        exact ⟨A, hp, howned, hlog⟩
      · rw [hsome] at hrun
        cases hrun
  | free a ha hrun =>
      obtain ⟨b, hb, hptr, _⟩ := howned.block a ha
      obtain ⟨p', A', hfree, hp', hused, _⟩ := mpoolFree_spec hp hb
      rw [hptr, hfree] at hrun
      cases hrun
      refine ⟨A', hp', howned.free ha hb hptr hused, fun c hc ↦ ?_⟩
      rw [hused] at hc
      exact hlog c hc.1
  | write mem hmem =>
      refine ⟨A, hp.of_mem fun b hb ↦ ?_, howned, hlog⟩
      by_contra hne
      obtain ⟨a, ha, hwrap, hover⟩ := hmem b.off hne
      exact howned.not_overlaps hp ha hwrap hb hover

theorem Inv.within_of_nil (h : Inv m n ⟨p, []⟩) (k : ℕ) : InvWithin k m n ⟨p, []⟩ := by
  obtain ⟨A, hp, howned⟩ := h
  refine ⟨A, hp, howned, fun b hb ↦ ?_⟩
  rw [howned.free_of_nil.1] at hb
  exact absurd hb (Set.notMem_empty b)

theorem Reach.invWithin {s : PoolState} (h : Reach (requestWithin k) n m s) (hk : m ≤ k) :
    InvWithin k m n s := by
  induction h with
  | init mallocs garbage h =>
      have hinit : Reach anyRequest n m _ := .init mallocs garbage h
      exact hinit.inv.within_of_nil k
  | step _ hstep ih => exact ih.step hk hstep

theorem Owned.ncard_used_le {A : BuddyTiling m n} {live : List Allocation} (h : Owned A live) :
    A.used.ncard ≤ live.length := by
  have hsub : Block.off '' A.used ⊆ ↑(live.map fun a ↦ a.ptr - sizeofBlkNode).toFinset := by
    rintro _ ⟨b, hb, rfl⟩
    obtain ⟨a, ha, hptr⟩ := h.owner b hb
    refine List.mem_toFinset.2 (List.mem_map.2 ⟨a, ha, ?_⟩)
    rw [hptr, Nat.add_sub_cancel]
  calc A.used.ncard
      = (Block.off '' A.used).ncard :=
        (Set.InjOn.ncard_image fun b hb c hc hoff ↦ A.off_injective hb hc hoff).symm
    _ ≤ (live.map fun a ↦ a.ptr - sizeofBlkNode).toFinset.card := by
        rw [← Set.ncard_coe_finset]
        exact Set.ncard_le_ncard hsub (Finset.finite_toSet _)
    _ ≤ live.length := (List.toFinset_card_le _).trans (List.length_map _).le

/-- With few live allocations a request finds a block. -/
theorem InvWithin.served {s : PoolState} (h : InvWithin k m n s) (hk : k ≤ n)
    (hfew : s.live.length < 2 ^ (n - k)) {blksize : ℕ} (hreq : requestWithin k s.pool blksize) :
    ∃ p ptr, mpoolAlloc s.pool blksize = .ok (p, some ptr) := by
  obtain ⟨A, hp, howned, hlog⟩ := h
  have hcard : A.used.ncard < 2 ^ (n - k) := howned.ncard_used_le.trans_lt hfew
  have hfin : A.used.Finite := A.tiles.finite.subset Set.subset_union_left
  have hvacant := exists_vacant_of_ncard_lt hfin (fun u hu ↦ A.tiles.aligned u (.inl hu)) hlog hk
    hcard
  obtain ⟨f, hf, hlong⟩ := A.exists_vacant_iff.1 hvacant
  rcases mpoolAlloc_spec hp blksize with ⟨_, hnone⟩ | ⟨p', b, A', hsome, _⟩
  · exact absurd (hreq.trans (Nat.pow_le_pow_right two_pos hlong)) (hnone f hf)
  · exact ⟨p', _, hsome⟩

/-- In a run whose requests all fit into blocks of length `2 ^ k`, one that finds fewer live
allocations than the pool has cells of that length is served. -/
theorem mpoolAlloc_served {s : PoolState} (h : Reach (requestWithin k) n m s) (hlo : m ≤ k)
    (hk : k ≤ n) (hfew : s.live.length < 2 ^ (n - k)) {blksize : ℕ}
    (hreq : requestWithin k s.pool blksize) :
    ∃ p ptr, mpoolAlloc s.pool blksize = .ok (p, some ptr) :=
  (h.invWithin hlo).served hk hfew hreq

/-- One allocation in a pool of two cells leaves room for another one. -/
theorem mpoolAlloc_served_small : ∃ p, mpoolAlloc smallPool 20 = .ok (p, some 40) ∧
    ∃ q ptr, mpoolAlloc p 24 = .ok (q, some ptr) :=
  ⟨_, rfl, mpoolAlloc_served (k := 6)
    ((smallPool_reach (requestWithin 6)).step
      (.alloc 20 (by decide) (show wrapSize (20 + sizeofBlkNode) ≤ 2 ^ 6 by decide) rfl))
    le_rfl (by decide) (by decide) (show wrapSize (24 + sizeofBlkNode) ≤ 2 ^ 6 by decide)⟩

end Experimentation.Buddy
