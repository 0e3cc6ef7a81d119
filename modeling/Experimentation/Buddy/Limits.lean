import Experimentation.Buddy.Coverage

/-!
# The lengths that `mpool_init` accepts

`mpool_init` compares `maxlogsize` with the width of `size_t`, while every power of two is computed
in the width of `int`.  Up to 30 all evaluations are defined and stay inside the memory of the pool,
in every state of every run; from 31 on the initialisation itself evaluates an undefined shift.
-/

namespace Experimentation.Buddy

open DyadicTiling Semantics

variable {maxlogsize minlogsize : ℕ}

/-- `mpool_init` returns neither `MPOOL_ERANGE` nor `MPOOL_EBADVAL`. -/
def PassesChecks (maxlogsize minlogsize : ℕ) : Prop :=
  ∀ mallocs garbage r, mpoolInit mallocs garbage maxlogsize minlogsize = .ok r →
    r.1 ≠ .erange ∧ r.1 ≠ .ebadval

/-- What the two functions evaluate on a state of a run is defined, and what they compute lies in
the memory of the pool. -/
structure WithinMemory (maxlogsize : ℕ) (s : PoolState) : Prop where
  bytes : s.pool.bytes = 2 ^ maxlogsize
  alloc : ∀ blksize < sizeModulus, ∃ r, mpoolAlloc s.pool blksize = .ok r
  free : ∀ a ∈ s.live, ∃ p, mpoolFree s.pool a.ptr = .ok p
  header : ∀ o, s.pool.Listed o → o + sizeofBlkNode ≤ s.pool.bytes
  extent : ∀ o, s.pool.Listed o → o + 2 ^ (s.pool.mem o).logsize ≤ s.pool.bytes

/-- The checks of `mpool_init` were enough: neither it nor any run from a pool that it returned
evaluates anything undefined or leaves the memory. -/
structure Sufficient (maxlogsize minlogsize : ℕ) : Prop where
  init : ∀ mallocs garbage, ∃ r, mpoolInit mallocs garbage maxlogsize minlogsize = .ok r
  run : ∀ s, Reach anyRequest maxlogsize minlogsize s → WithinMemory maxlogsize s

/-- The lengths that pass the checks: `maxlogsize` is compared with the width of `size_t`. -/
theorem passesChecks_iff : PassesChecks maxlogsize minlogsize ↔
    maxlogsize ≤ sizeTBits ∧ minlogsize ≤ maxlogsize ∧ sizeofBlkNode < 2 ^ minlogsize := by
  constructor
  · intro h
    have hinit := h ⟨true, true, true⟩ (fun _ ↦ ⟨0, 0, 0⟩)
    rw [mpoolInit_eq] at hinit
    have hrange : maxlogsize ≤ sizeTBits := by
      by_contra hlt
      rw [if_pos (not_le.1 hlt)] at hinit
      exact (hinit _ rfl).1 rfl
    have hle : minlogsize ≤ maxlogsize := by
      by_contra hlt
      rw [if_neg (not_lt.2 hrange), if_pos (not_le.1 hlt)] at hinit
      exact (hinit _ rfl).2 rfl
    refine ⟨hrange, hle, ?_⟩
    by_contra hsmall
    -- a length that is too small is small enough to be shifted
    have hmin : ¬ 30 < minlogsize := fun hlt ↦ by
      have hpow : 2 ^ 30 ≤ 2 ^ minlogsize := Nat.pow_le_pow_right two_pos hlt.le
      unfold sizeofBlkNode at hsmall
      omega
    rw [if_neg (not_lt.2 hrange), if_neg (not_lt.2 hle), if_neg hmin,
      if_pos (not_lt.1 hsmall)] at hinit
    exact (hinit _ rfl).2 rfl
  · intro hbounds mallocs garbage r hr
    obtain ⟨hrange, hle, hfits⟩ := hbounds
    rw [mpoolInit_eq, if_neg (not_lt.2 hrange), if_neg (not_lt.2 hle),
      if_neg (not_le.2 hfits)] at hr
    split_ifs at hr
    all_goals
      cases hr
      exact ⟨MpRet.noConfusion, MpRet.noConfusion⟩

theorem Inv.withinMemory {s : PoolState} (h : Inv minlogsize maxlogsize s) :
    WithinMemory maxlogsize s := by
  obtain ⟨A, hp, hlive⟩ := h
  have hstop : ∀ o, s.pool.Listed o → o + 2 ^ (s.pool.mem o).logsize ≤ 2 ^ maxlogsize := fun o ho ↦
    A.tiles.inside _ (hp.listed_iff.1 ho)
  refine ⟨hp.lists.bytes, fun blksize _ ↦ ?_, fun a ha ↦ ?_, fun o ho ↦ ?_, fun o ho ↦ ?_⟩
  · rcases mpoolAlloc_spec hp blksize with ⟨hrun, _⟩ | ⟨p', b, A', hrun, _⟩
    · exact ⟨_, hrun⟩
    · exact ⟨_, hrun⟩
  · obtain ⟨b, hb, hptr, _⟩ := hlive.block a ha
    obtain ⟨p', A', hrun, _⟩ := mpoolFree_spec hp hb
    exact ⟨p', hptr ▸ hrun⟩
  · exact hp.lists.header_fits (hp.lists.le_log (hp.listed_iff.1 ho)) (hstop o ho)
  · rw [hp.lists.bytes]
    exact hstop o ho

theorem mpoolInit_eq_shift (h : PassesChecks maxlogsize minlogsize) (hmax : 30 < maxlogsize)
    (garbage : ℕ → BlkNode) :
    mpoolInit ⟨true, true, true⟩ garbage maxlogsize minlogsize = .error .shift := by
  obtain ⟨hrange, hle, hfits⟩ := passesChecks_iff.1 h
  rw [mpoolInit_eq, if_neg (not_lt.2 hrange), if_neg (not_lt.2 hle), if_neg (not_le.2 hfits),
    if_pos hmax]
  exact ite_self _

/-- Of the lengths that pass the checks, those up to 30 are the ones for which they suffice. -/
theorem sufficient_iff (h : PassesChecks maxlogsize minlogsize) :
    Sufficient maxlogsize minlogsize ↔ maxlogsize ≤ 30 := by
  constructor
  · intro hsuff
    by_contra hmax
    obtain ⟨r, hr⟩ := hsuff.init ⟨true, true, true⟩ (fun _ ↦ ⟨0, 0, 0⟩)
    rw [mpoolInit_eq_shift h (not_le.1 hmax)] at hr
    cases hr
  · intro hmax
    obtain ⟨hrange, hle, hfits⟩ := passesChecks_iff.1 h
    refine ⟨fun mallocs garbage ↦ ?_, fun s hs ↦ hs.inv.withinMemory⟩
    rw [mpoolInit_eq, if_neg (not_lt.2 hrange), if_neg (not_lt.2 hle),
      if_neg (not_lt.2 (hle.trans hmax)), if_neg (not_le.2 hfits), if_neg (not_lt.2 hmax)]
    split_ifs
    all_goals exact ⟨_, rfl⟩

/-- The checks suffice for a pool of 128 bytes. -/
theorem smallPool_sufficient : Sufficient 7 6 :=
  (sufficient_iff (passesChecks_iff.2 (by decide))).2 (by decide)

/-- A pool of `2 ^ 31` bytes passes the checks, and its initialisation shifts out of `int`. -/
theorem largePool_not_sufficient :
    PassesChecks 31 6 ∧ (∀ garbage, mpoolInit ⟨true, true, true⟩ garbage 31 6 = .error .shift) ∧
      ¬ Sufficient 31 6 := by
  have hchecks : PassesChecks 31 6 := passesChecks_iff.2 (by decide)
  have hshift := mpoolInit_eq_shift hchecks (by decide)
  refine ⟨hchecks, hshift, fun hsuff ↦ ?_⟩
  obtain ⟨r, hr⟩ := hsuff.init ⟨true, true, true⟩ (fun _ ↦ ⟨0, 0, 0⟩)
  rw [hshift] at hr
  cases hr

end Experimentation.Buddy
