import Experimentation.Buddy.Statistics

/-!
# Best fit and exact splits

What `mpool_alloc` does to the blocks, in full.  The chunk it takes is a shortest available one that
holds the request.  Halving it down to the least length that holds the request leaves one new
available block for each length in between, each of them the upper half of a chunk that was split;
whatever else is on the lists stays as it is, header and all.
-/

namespace Experimentation.Buddy

open DyadicTiling Semantics

/-! ## Blocks on the lists -/

/-- A block of length `2 ^ k` starts at `o`: it is on the list for its length, and so says its
header. -/
structure Pool.Block (p : Pool) (o k : ℕ) : Prop where
  minlogsize_le : p.minlogsize ≤ k
  le_maxlogsize : k ≤ p.maxlogsize
  listed : o ∈ p.listOf k
  logsize : (p.mem o).logsize = k

/-- The block is marked available. -/
def Pool.Available (p : Pool) (o k : ℕ) : Prop := p.Block o k ∧ (p.mem o).isAvail = true

/-- The block is marked used. -/
def Pool.InUse (p : Pool) (o k : ℕ) : Prop := p.Block o k ∧ (p.mem o).isAvail = false

variable {m n : ℕ} {p p' : Pool}

theorem Lists.block_iff {S : Set Block} (h : Lists m n p S) (hheaders : Headers n p S) {o k : ℕ} :
    p.Block o k ↔ ⟨o, k⟩ ∈ S := by
  rw [h.mem_iff]
  constructor
  · intro hb
    exact ⟨h.minlogsize ▸ hb.minlogsize_le, h.maxlogsize ▸ hb.le_maxlogsize, hb.listed⟩
  · intro hb
    refine ⟨?_, ?_, hb.2.2, (hheaders _ ((h.mem_iff _).2 hb)).logsize⟩
    · rw [h.minlogsize]
      exact hb.1
    · rw [h.maxlogsize]
      exact hb.2.1

theorem Describes.available_iff {A : BuddyTiling m n} (h : Describes p A) {o k : ℕ} :
    p.Available o k ↔ ⟨o, k⟩ ∈ A.free := by
  rw [Pool.Available, h.lists.block_iff h.headers]
  constructor
  · rintro ⟨hu | hf, havail⟩
    · rw [h.used _ hu] at havail
      contradiction
    · exact hf
  · intro hf
    exact ⟨.inr hf, h.free _ hf⟩

theorem Describes.inUse_iff {A : BuddyTiling m n} (h : Describes p A) {o k : ℕ} :
    p.InUse o k ↔ ⟨o, k⟩ ∈ A.used := by
  rw [Pool.InUse, h.lists.block_iff h.headers]
  constructor
  · rintro ⟨hu | hf, havail⟩
    · exact hu
    · rw [h.free _ hf] at havail
      contradiction
  · intro hu
    exact ⟨.inl hu, h.used _ hu⟩

/-- `mpool_alloc`, asked for `size` bytes in all, takes a block of length `2 ^ k` at `o`, halves it
down to length `2 ^ j` and returns `ptr`. -/
structure BestFit (p p' : Pool) (size ptr o j k : ℕ) : Prop where
  ptr_eq : ptr = o + sizeofBlkNode
  taken : p.Available o k
  /-- No shorter available block holds the request. -/
  best : IsLeast {i | (∃ c, p.Available c i) ∧ size ≤ 2 ^ i} k
  /-- No shorter block that the pool allows holds the request. -/
  exact : IsLeast {i | p.minlogsize ≤ i ∧ size ≤ 2 ^ i} j
  used : p'.InUse o j
  /-- The upper halves are available, and no block was there before. -/
  upper : ∀ i, j ≤ i → i < k → p'.Available (o + 2 ^ i) i ∧ ∀ l, ¬ p.Block (o + 2 ^ i) l
  nsplits : p'.nsplits = wrapSize (p.nsplits + (k - j))
  /-- Every other block keeps its place, its header and its list. -/
  kept : ∀ c i, p.Block c i → c ≠ o → p'.Block c i ∧ p'.mem c = p.mem c
  /-- No other block is new. -/
  only : ∀ c i, p'.Block c i → c ≠ o → (∀ l, j ≤ l → l < k → ¬ (c = o + 2 ^ l ∧ i = l)) →
    p.Block c i

theorem Describes.not_block_inside {A : BuddyTiling m n} (h : Describes p A) {b : Block}
    (hb : b ∈ A.used ∪ A.free) {o : ℕ} (hlo : b.off < o) (hhi : o < b.stop) (l : ℕ) :
    ¬ p.Block o l := by
  intro hblock
  rw [h.lists.block_iff h.headers] at hblock
  have hne : b ≠ ⟨o, l⟩ := by
    rintro rfl
    exact lt_irrefl _ hlo
  have hapart := A.tiles.apart b hb _ hblock hne
  have hpos := Nat.two_pow_pos l
  unfold Block.Apart Block.stop at hapart
  unfold Block.stop at hhi
  simp only at hapart
  omega

/-- `mpool_alloc` takes a shortest available block that holds the request and halves it exactly as
often as needed. -/
theorem mpoolAlloc_best_fit {allow : Pool → ℕ → Prop} {maxlogsize minlogsize : ℕ} {s : PoolState}
    (hs : Reach allow maxlogsize minlogsize s) (blksize : ℕ) {ptr : ℕ} {p' : Pool}
    (hwrap : NoWrap blksize) (h : mpoolAlloc s.pool blksize = .ok (p', some ptr)) :
    ∃ o j k, BestFit s.pool p' (blksize + sizeofBlkNode) ptr o j k := by
  obtain ⟨A, hp, hlive⟩ := hs.inv
  have hsize := wrapSize_of_lt hwrap
  rcases mpoolAlloc_splits hp blksize with ⟨hnull, _⟩ |
    ⟨f, hf, q, j, A', hrun, hfits, hbest, hp', hleast, hsplits⟩
  · rw [hnull] at h
    cases h
  rw [hrun] at h
  cases h
  rw [hsize] at hfits hbest hleast
  have hafter (b : Block) : b ∈ A'.used ∪ A'.free ↔ b = ⟨f.off, j⟩ ∨
      b ∈ upperHalves f.off j f.log ∨ b ∈ A.used ∪ A.free \ {f} := by
    rw [hsplits.used, hsplits.free]
    simp only [BuddyTiling.take, Set.mem_union, Set.mem_insert_iff]
    tauto
  refine ⟨f.off, j, f.log, rfl, hp.available_iff.2 hf, ⟨⟨⟨f.off, hp.available_iff.2 hf⟩, hfits⟩,
    ?least⟩, ?exact, ?used, ?upper, hsplits.nsplits hs.counted.nsplits, ?kept, ?only⟩
  case least =>
    rintro i ⟨⟨c, hc⟩, hi⟩
    exact hbest ⟨c, i⟩ (hp.available_iff.1 hc) hi
  case exact =>
    rw [hp.lists.minlogsize]
    exact hleast
  case used =>
    rw [hp'.inUse_iff, hsplits.used]
    exact Set.mem_insert _ _
  case upper =>
    intro i hlo hhi
    have hinside : f.off + 2 ^ i < f.stop :=
      Nat.add_lt_add_left (Nat.pow_lt_pow_right Nat.one_lt_two hhi) _
    refine ⟨?_, hp.not_block_inside (.inr hf) (Nat.lt_add_of_pos_right (Nat.two_pow_pos i)) hinside⟩
    rw [hp'.available_iff, hsplits.free]
    exact .inl ⟨i, hlo, hhi, rfl⟩
  case kept =>
    intro c i hc hne
    rw [hp.lists.block_iff hp.headers] at hc
    have hother : (⟨c, i⟩ : Block) ∈ A.used ∪ A.free \ {f} :=
      hc.imp_right fun hfree ↦ ⟨hfree, fun heq ↦ hne (congrArg Block.off heq)⟩
    rw [hp'.lists.block_iff hp'.headers, hafter]
    exact ⟨.inr (.inr hother), hsplits.kept _ hother⟩
  case only =>
    intro c i hc hne hnew
    rw [hp'.lists.block_iff hp'.headers, hafter] at hc
    rw [hp.lists.block_iff hp.headers]
    rcases hc with heq | ⟨l, hlo, hhi, heq⟩ | hother
    · exact absurd (congrArg Block.off heq) hne
    · exact absurd (Block.mk.injEq .. ▸ heq) (hnew l hlo hhi)
    · exact hother.imp_right fun hfree ↦ hfree.1

/-- A request of 20 bytes halves the pool of 128 bytes once. -/
theorem smallPool_best_fit : ∃ p o j k, mpoolAlloc smallPool 20 = .ok (p, some 40) ∧
    BestFit smallPool p 60 40 o j k := by
  obtain ⟨o, j, k, hfit⟩ := mpoolAlloc_best_fit (smallPool_reach anyRequest) 20 (by decide) rfl
  exact ⟨_, o, j, k, rfl, hfit⟩

end Experimentation.Buddy
