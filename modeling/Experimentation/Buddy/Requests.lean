import Experimentation.Buddy.Coverage

/-!
# What a request is answered

When `mpool_alloc` returns `NULL`, and what its clients may rely on when it does not.  A request
whose size does not wrap is refused just when every aligned place for it is taken, and the payload
it is given is the client's own.  A request whose size wraps is treated as a request of fewer bytes
than a header has, so that the payload is safe just when there is no block even for those.
-/

namespace Experimentation.Buddy

open DyadicTiling Semantics

variable {m n : ℕ} {p : Pool}

theorem Describes.refused_iff {A : BuddyTiling m n} (h : Describes p A) (blksize : ℕ) :
    mpoolAlloc p blksize = .ok (p, none) ↔
      ∀ f ∈ A.free, 2 ^ f.log < wrapSize (blksize + sizeofBlkNode) := by
  rcases mpoolAlloc_spec h blksize with ⟨hnull, hfree⟩ | ⟨p', b, A', hsome, _, hleast, hb, _⟩
  · exact ⟨fun _ f hf ↦ not_le.1 (hfree f hf), fun _ ↦ hnull⟩
  · constructor
    · intro hnull
      rw [hsome] at hnull
      cases hnull
    · intro hfree
      obtain ⟨f, hf, hlog⟩ := A.exists_vacant_iff.1 ⟨b, hb, rfl⟩
      have hpow : 2 ^ b.log ≤ 2 ^ f.log := Nat.pow_le_pow_right two_pos hlog
      exact absurd (hleast.1.2.trans hpow) (not_le.2 (hfree f hf))

/-! ## Completeness of the search -/

/-- `mpool_alloc` returns `NULL` just when every aligned interval of the least sufficient length
meets a used block, and then nothing has changed. -/
theorem mpoolAlloc_none_iff {maxlogsize minlogsize : ℕ} {s : PoolState}
    (h : Reach anyRequest maxlogsize minlogsize s) {blksize : ℕ} (hsize : NoWrap blksize) {j : ℕ}
    (hj : IsLeast (Holding minlogsize (blksize + sizeofBlkNode)) j) :
    ∃ p r, mpoolAlloc s.pool blksize = .ok (p, r) ∧
      (r = none ↔ ∀ a, 2 ^ j ∣ a → a + 2 ^ j ≤ 2 ^ maxlogsize →
        ∃ b ∈ s.pool.usedBlocks, a < b.stop ∧ b.off < a + 2 ^ j) ∧
      (r = none → p = s.pool) := by
  obtain ⟨A, hp, _⟩ := h.inv
  rw [hp.usedBlocks_eq]
  have hspec := mpoolAlloc_spec hp blksize
  rw [wrapSize_of_lt hsize] at hspec
  rcases hspec with ⟨hnull, hfree⟩ | ⟨p', b, A', hsome, _, hleast, hb, _⟩
  · refine ⟨s.pool, none, hnull, ⟨fun _ a halign hstop ↦ ?_, fun _ ↦ rfl⟩, fun _ ↦ rfl⟩
    by_contra hmiss
    have hvacant : (⟨a, j⟩ : Block) ∈ Vacant maxlogsize A.used := by
      refine ⟨halign, hstop, fun u hu ↦ ?_⟩
      have hapart : ¬ (a < u.stop ∧ u.off < a + 2 ^ j) := fun hmeet ↦ hmiss ⟨u, hu, hmeet⟩
      change a + 2 ^ j ≤ u.off ∨ u.stop ≤ a
      omega
    obtain ⟨f, hf, hlog⟩ := A.exists_vacant_iff.1 ⟨_, hvacant, rfl⟩
    exact hfree f hf (hj.1.2.trans (Nat.pow_le_pow_right two_pos hlog))
  · refine ⟨p', some _, hsome, ⟨fun hnone ↦ absurd hnone (Option.some_ne_none _),
      fun hall ↦ ?_⟩, fun hnone ↦ absurd hnone (Option.some_ne_none _)⟩
    have hlog : b.log = j := hleast.unique hj
    obtain ⟨u, hu, hlt, hgt⟩ := hall b.off (hlog ▸ hb.1) (hlog ▸ hb.2.1)
    have hapart := hb.2.2 u hu
    rw [← hlog] at hgt
    unfold Block.Apart Block.stop at *
    omega

/-- With 20 bytes allocated, a pool of 128 bytes has no place for 80 more: what is in use meets
every aligned interval of 128 bytes. -/
theorem smallPool_full :
    ∃ p, mpoolAlloc smallPool 20 = .ok (p, some 40) ∧ mpoolAlloc p 80 = .ok (p, none) ∧
      ∀ a, 2 ^ 7 ∣ a → a + 2 ^ 7 ≤ 2 ^ 7 → ∃ b ∈ p.usedBlocks, a < b.stop ∧ b.off < a + 2 ^ 7 := by
  have hreach := (smallPool_reach anyRequest).step (.alloc 20 (by decide) trivial rfl)
  have hleast : IsLeast (Holding 6 (80 + sizeofBlkNode)) 7 := by
    refine ⟨⟨by decide, by decide⟩, fun j hj ↦ ?_⟩
    by_contra hlt
    have hpow : 2 ^ j ≤ 2 ^ 6 := Nat.pow_le_pow_right two_pos (by omega)
    have hfit : 80 + 40 ≤ 2 ^ j := hj.2
    omega
  obtain ⟨_, _, hrun, hiff, _⟩ := mpoolAlloc_none_iff hreach (by decide) hleast
  cases hrun
  exact ⟨_, rfl, rfl, hiff.1 rfl⟩

/-! ## Safety of the payload -/

/-- The `size` bytes at `ptr`, given out by a call that turned the pool of `s` into `p`, lie in the
pool and belong to no other allocation and to no header. -/
structure PayloadSafe (s : PoolState) (p : Pool) (ptr size : ℕ) : Prop where
  inside : ptr + size ≤ p.bytes
  others : ∀ a ∈ s.live, Disjoint (Set.Ico ptr (ptr + size)) (Set.Ico a.ptr (a.ptr + a.size))
  headers : ∀ o, p.Listed o → Disjoint (Set.Ico ptr (ptr + size)) (Set.Ico o (o + sizeofBlkNode))

/-- Whatever `mpool_alloc` returns for the request is safe. -/
def RequestSafe (s : PoolState) (blksize : ℕ) : Prop :=
  ∀ p ptr, mpoolAlloc s.pool blksize = .ok (p, some ptr) → PayloadSafe s p ptr blksize

/-- Either the size that the request needs does not wrap, or no available block has even the bytes
that are left of it. -/
def Admissible (p : Pool) (blksize : ℕ) : Prop :=
  NoWrap blksize ∨ ∀ b ∈ p.availBlocks, 2 ^ b.log < blksize + sizeofBlkNode - sizeModulus

theorem wrapSize_of_wraps {blksize : ℕ} (hsize : blksize < sizeModulus) (hwrap : ¬ NoWrap blksize) :
    wrapSize (blksize + sizeofBlkNode) = blksize + sizeofBlkNode - sizeModulus := by
  unfold NoWrap at hwrap
  unfold wrapSize
  unfold sizeModulus sizeofBlkNode at *
  omega

theorem Describes.refused_of_wraps {A : BuddyTiling m n} (h : Describes p A) {blksize : ℕ}
    (hsize : blksize < sizeModulus) (hallow : Admissible p blksize) (hwrap : ¬ NoWrap blksize) :
    mpoolAlloc p blksize = .ok (p, none) := by
  have hfree := hallow.resolve_left hwrap
  rw [h.availBlocks_eq, ← wrapSize_of_wraps hsize hwrap] at hfree
  exact (h.refused_iff blksize).2 hfree

theorem Reach.live_noWrap {maxlogsize minlogsize : ℕ} {s : PoolState}
    (h : Reach Admissible maxlogsize minlogsize s) : ∀ a ∈ s.live, NoWrap a.size := by
  induction h with
  | init mallocs garbage h =>
      intro a ha
      exact absurd ha List.not_mem_nil
  | step hs hstep ih =>
      cases hstep with
      | alloc blksize hsize hallow hrun =>
          intro a ha
          rcases List.mem_cons.1 ha with rfl | ha
          · by_contra hwrap
            obtain ⟨A, hp, _⟩ := hs.inv
            rw [hp.refused_of_wraps hsize hallow hwrap] at hrun
            cases hrun
          · exact ih a ha
      | refused blksize hsize hallow hrun => exact ih
      | free a ha hrun => exact fun a' ha' ↦ ih a' (List.mem_of_mem_erase ha')
      | write mem hmem => exact ih

theorem Inv.requestSafe {s : PoolState} (h : Inv m n s) (hlive : ∀ a ∈ s.live, NoWrap a.size)
    {blksize : ℕ} (hsize : NoWrap blksize) : RequestSafe s blksize := by
  intro p ptr hrun
  obtain ⟨A, hp, howned⟩ := h
  rcases mpoolAlloc_spec hp blksize with ⟨hnull, _⟩ | ⟨p', b, A', hsome, hp', hleast, hb, hused, _⟩
  · rw [hnull] at hrun
    cases hrun
  rw [hsome] at hrun
  cases hrun
  have howned' := howned.alloc hb hused hleast.1.2
  have hfits : blksize + sizeofBlkNode ≤ 2 ^ b.log := by
    have hfits := hleast.1.2
    rwa [wrapSize_of_lt hsize] at hfits
  refine ⟨?_, fun a ha ↦ ?_, fun o ho ↦ ?_⟩
  · have hstop := hb.2.1
    rw [hp'.lists.bytes]
    unfold Block.stop at hstop
    omega
  · obtain ⟨c, hc, hptr, hcfits⟩ := howned.block a ha
    rw [wrapSize_of_lt (hlive a ha)] at hcfits
    have hapart := hb.2.2 c hc
    rw [Set.Ico_disjoint_Ico]
    unfold Block.Apart Block.stop at hapart
    omega
  · have hover := howned'.not_overlaps hp' List.mem_cons_self hsize (hp'.listed_iff.1 ho)
    rw [Set.Ico_disjoint_Ico]
    unfold Allocation.Overlaps Pool.blockAt at hover
    dsimp only at hover
    omega

/-- In a run of admissible requests, what is given for a request is safe just when the request is
admissible. -/
theorem requestSafe_iff_admissible {maxlogsize minlogsize : ℕ} {s : PoolState}
    (h : Reach Admissible maxlogsize minlogsize s) {blksize : ℕ} (hsize : blksize < sizeModulus) :
    RequestSafe s blksize ↔ Admissible s.pool blksize := by
  constructor
  · intro hsafe
    by_contra hallow
    have hwrap : ¬ NoWrap blksize := fun hfits ↦ hallow (.inl hfits)
    obtain ⟨A, hp, _⟩ := h.inv
    rcases mpoolAlloc_spec hp blksize with ⟨_, hfree⟩ | ⟨p', b, A', hsome, hp', _⟩
    · refine hallow (.inr fun b hb ↦ ?_)
      rw [hp.availBlocks_eq] at hb
      rw [← wrapSize_of_wraps hsize hwrap]
      exact not_le.1 (hfree b hb)
    · have hinside := (hsafe p' _ hsome).inside
      -- the payload is longer than the longest pool
      have hpow : 2 ^ maxlogsize ≤ 2 ^ 30 := Nat.pow_le_pow_right two_pos hp'.lists.maxFits
      rw [hp'.lists.bytes] at hinside
      unfold NoWrap at hwrap
      unfold sizeModulus sizeofBlkNode at *
      omega
  · intro hallow
    by_cases hwrap : NoWrap blksize
    · exact h.inv.requestSafe h.live_noWrap hwrap
    · intro p ptr hrun
      obtain ⟨A, hp, _⟩ := h.inv
      rw [hp.refused_of_wraps hsize hallow hwrap] at hrun
      cases hrun

/-- With 20 bytes allocated in a pool of 128 bytes, 24 more are found in the other half, apart from
the payload that is live. -/
theorem smallPool_requestSafe : ∃ p q, mpoolAlloc smallPool 20 = .ok (p, some 40) ∧
    mpoolAlloc p 24 = .ok (q, some 104) ∧ RequestSafe ⟨p, [⟨40, 20⟩]⟩ 24 := by
  have hreach := (smallPool_reach Admissible).step (.alloc 20 (by decide) (.inl (by decide)) rfl)
  have hsize : 24 < sizeModulus := by decide
  exact ⟨_, _, rfl, rfl, (requestSafe_iff_admissible hreach hsize).2 (.inl (by decide))⟩

/-- A request of `2 ^ 64 - 1` bytes needs 39 bytes after wrapping and is given a block of 64. -/
theorem smallPool_not_requestSafe :
    Reach anyRequest 7 6 ⟨smallPool, []⟩ ∧ 2 ^ 64 - 1 < sizeModulus ∧
      (∃ p, mpoolAlloc smallPool (2 ^ 64 - 1) = .ok (p, some 40)) ∧
      ¬ RequestSafe ⟨smallPool, []⟩ (2 ^ 64 - 1) := by
  refine ⟨smallPool_reach anyRequest, by decide, ⟨_, rfl⟩, fun hsafe ↦ ?_⟩
  have hinside : 40 + (2 ^ 64 - 1) ≤ 2 ^ 7 := (hsafe _ 40 rfl).inside
  exact absurd hinside (by decide)

end Experimentation.Buddy
