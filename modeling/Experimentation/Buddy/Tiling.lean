import Experimentation.Semantics.DyadicTiling

/-!
# What a buddy allocator is for

The purpose of the pool, in its own terms: `[0, 2 ^ n)` is tiled by dyadic blocks, some in use and
some free, and free buddies have been joined wherever they can be.  A request takes a free block
out, halves it until it has the wanted length and puts it in use; a release takes a block out of
use, joins it with free buddies as long as there are any and puts it back among the free ones.

Between the first and the last step one block is neither in use nor free.  `OpenTiling` is the
state of the loops: the same tiling with that block named.  Nothing is said about lists, headers
or flags here.
-/

namespace Experimentation.Buddy

open DyadicTiling

/-- The blocks of a pool of `2 ^ n` bytes whose blocks have at least `2 ^ m` bytes. -/
structure BuddyTiling (m n : ℕ) where
  used : Set Block
  free : Set Block
  tiles : Tiles n (used ∪ free)
  separate : Disjoint used free
  coalesced : Coalesced free
  floor : ∀ b ∈ used ∪ free, m ≤ b.log

/-- The blocks while `cur` is being split or joined. -/
structure OpenTiling (m n : ℕ) where
  used : Set Block
  free : Set Block
  cur : Block
  tiles : Tiles n (insert cur (used ∪ free))
  fresh : cur ∉ used ∪ free
  separate : Disjoint used free
  coalesced : Coalesced free
  floor : ∀ b ∈ insert cur (used ∪ free), m ≤ b.log

variable {m n : ℕ}

namespace BuddyTiling

/-- One free block of full length. -/
def fresh (m n : ℕ) (h : m ≤ n) : BuddyTiling m n where
  used := ∅
  free := {⟨0, n⟩}
  tiles := by
    rw [Set.empty_union]
    exact Tiles.singleton n
  separate := Set.empty_disjoint _
  coalesced := by
    rintro _ rfl hbuddy
    exact Block.buddy_ne _ hbuddy
  floor := by
    rintro b (hb | rfl)
    · exact absurd hb (Set.notMem_empty b)
    · exact h

variable (A : BuddyTiling m n)

theorem free_eq : A.free = MaxVacant n A.used :=
  A.tiles.free_eq_maxVacant A.separate A.coalesced

theorem off_injective {b c : Block} (hb : b ∈ A.used) (hc : c ∈ A.used) (h : b.off = c.off) :
    b = c :=
  A.tiles.eq_of_off_eq (.inl hb) (.inl hc) h

/-- A vacant block of length at least `2 ^ m` exists just when some free block is that long. -/
theorem exists_vacant_iff {j : ℕ} :
    (∃ d ∈ Vacant n A.used, d.log = j) ↔ ∃ f ∈ A.free, j ≤ f.log := by
  constructor
  · rintro ⟨d, hd, rfl⟩
    obtain ⟨f, hf, hin⟩ := A.tiles.exists_free_of_vacant A.coalesced hd
    exact ⟨f, hf, hin.log_le⟩
  · rintro ⟨f, hf, hlog⟩
    obtain ⟨hal, hstop, hvac⟩ := A.tiles.free_vacant A.separate hf
    have hin : (⟨f.off, j⟩ : Block).Within f :=
      ⟨le_rfl, Nat.add_le_add_left (Nat.pow_le_pow_right two_pos hlog) _⟩
    exact ⟨⟨f.off, j⟩, ⟨(pow_dvd_pow 2 hlog).trans hal, hin.2.trans hstop,
      fun u hu ↦ (hvac u hu).of_within hin⟩, rfl⟩

theorem free_of_used_eq_empty (h : A.used = ∅) : A.free = {⟨0, n⟩} := by
  rw [A.free_eq, h]
  exact ((fresh n n le_rfl).free_eq).symm

/-- Take a free block out. -/
def take (b : Block) (hb : b ∈ A.free) : OpenTiling m n where
  used := A.used
  free := A.free \ {b}
  cur := b
  tiles := by
    rw [← Set.union_insert, Set.insert_sdiff_singleton, Set.insert_eq_of_mem hb]
    exact A.tiles
  fresh := by
    rintro (hu | hf)
    · exact Set.disjoint_left.1 A.separate hu hb
    · exact hf.2 rfl
  separate := A.separate.mono_right Set.sdiff_subset
  coalesced := A.coalesced.mono Set.sdiff_subset
  floor := by
    rintro c (rfl | hu | hf)
    · exact A.floor c (.inr hb)
    · exact A.floor c (.inl hu)
    · exact A.floor c (.inr hf.1)

/-- Take a block out of use. -/
def release (b : Block) (hb : b ∈ A.used) : OpenTiling m n where
  used := A.used \ {b}
  free := A.free
  cur := b
  tiles := by
    rw [← Set.insert_union, Set.insert_sdiff_singleton, Set.insert_eq_of_mem hb]
    exact A.tiles
  fresh := by
    rintro (hu | hf)
    · exact hu.2 rfl
    · exact Set.disjoint_left.1 A.separate hb hf
  separate := A.separate.mono_left Set.sdiff_subset
  coalesced := A.coalesced
  floor := by
    rintro c (rfl | hu | hf)
    · exact A.floor c (.inl hb)
    · exact A.floor c (.inl hu.1)
    · exact A.floor c (.inr hf)

theorem take_blocks {b : Block} (hb : b ∈ A.free) :
    insert (A.take b hb).cur ((A.take b hb).used ∪ (A.take b hb).free) = A.used ∪ A.free := by
  change insert b (A.used ∪ A.free \ {b}) = _
  rw [← Set.union_insert, Set.insert_sdiff_singleton, Set.insert_eq_of_mem hb]

theorem release_blocks {b : Block} (hb : b ∈ A.used) :
    insert (A.release b hb).cur ((A.release b hb).used ∪ (A.release b hb).free) =
      A.used ∪ A.free := by
  change insert b (A.used \ {b} ∪ A.free) = _
  rw [← Set.insert_union, Set.insert_sdiff_singleton, Set.insert_eq_of_mem hb]

end BuddyTiling

namespace OpenTiling

variable (O : OpenTiling m n)

theorem cur_aligned : O.cur.Aligned := O.tiles.aligned _ (Set.mem_insert _ _)

theorem cur_log_le : O.cur.log ≤ n := O.tiles.log_le (Set.mem_insert _ _)

theorem off_ne_cur {c : Block} (hc : c ∈ O.used ∪ O.free) : c.off ≠ O.cur.off := fun heq ↦
  O.fresh (O.tiles.eq_of_off_eq (Set.mem_insert_of_mem _ hc) (Set.mem_insert _ _) heq ▸ hc)

theorem cur_apart {c : Block} (hc : c ∈ O.used ∪ O.free) : O.cur.Apart c :=
  O.tiles.apart _ (Set.mem_insert _ _) c (Set.mem_insert_of_mem _ hc) fun heq ↦ O.fresh (heq ▸ hc)

theorem not_mem_of_within {b : Block} (h : b.Within O.cur) : b ∉ O.used ∪ O.free := fun hmem ↦
  Block.not_apart_of_within h (O.cur_apart hmem).symm

/-- Halve the open block; the upper half becomes free. -/
def split (h : m < O.cur.log) : OpenTiling m n where
  used := O.used
  free := insert O.cur.right O.free
  cur := O.cur.left
  tiles := by
    rw [Set.union_insert]
    exact O.tiles.split O.fresh (Nat.zero_lt_of_lt h)
  fresh := by
    have hpos := Nat.zero_lt_of_lt h
    have hleft := O.not_mem_of_within (Block.left_within hpos)
    intro hmem
    rcases hmem with hu | hright | hf
    · exact hleft (.inl hu)
    · exact Block.buddy_ne _ ((O.cur_aligned.buddy_right hpos).trans hright)
    · exact hleft (.inr hf)
  separate := by
    have hright := O.not_mem_of_within (Block.right_within (Nat.zero_lt_of_lt h))
    rw [Set.disjoint_insert_right]
    exact ⟨fun hu ↦ hright (.inl hu), O.separate⟩
  coalesced := by
    have hpos := Nat.zero_lt_of_lt h
    have hleft := O.not_mem_of_within (Block.left_within hpos)
    -- the buddy of the upper half is the open block, which is not free
    have hright : O.cur.right.buddy = O.cur.left := O.cur_aligned.buddy_right hpos
    intro b hb hbuddy
    rcases hb with rfl | hb <;> rcases hbuddy with hbuddy | hbuddy
    · exact Block.buddy_ne _ hbuddy
    · exact hleft (.inr (hright ▸ hbuddy))
    · have hal := O.tiles.aligned b (Set.mem_insert_of_mem _ (.inr hb))
      have hb' : b = O.cur.left := by rw [← hright, ← hbuddy, hal.buddy_buddy]
      exact hleft (.inr (hb' ▸ hb))
    · exact O.coalesced b hb hbuddy
  floor := by
    rintro c (rfl | hu | rfl | hf)
    · exact Nat.le_sub_one_of_lt h
    · exact O.floor c (.inr (.inl hu))
    · exact Nat.le_sub_one_of_lt h
    · exact O.floor c (.inr (.inr hf))

theorem buddy_not_free (h : O.cur.log = n) : O.cur.buddy ∉ O.free := fun hf ↦ by
  have hcur := O.tiles.off_eq_zero (Set.mem_insert _ _) h
  have hbuddy := O.tiles.off_eq_zero (Set.mem_insert_of_mem _ (.inr hf)) h
  exact Block.buddy_ne _ (Block.ext (hbuddy.trans hcur.symm) rfl)

/-- Some other block starts where the buddy of the open block would start. -/
theorem exists_at_buddy (h : O.cur.log < n) :
    ∃ c ∈ O.used ∪ O.free, c.off = O.cur.buddy.off ∧ c.log ≤ O.cur.log := by
  obtain ⟨c, hc, hoff, hlog⟩ := O.tiles.exists_at_buddy (Set.mem_insert _ _) h
  rcases hc with rfl | hc
  · exact absurd (Block.ext hoff.symm rfl) (Block.buddy_ne _)
  · exact ⟨c, hc, hoff, hlog⟩

theorem right_fresh (h : m < O.cur.log) :
    O.cur.right ∉ insert O.cur.left (O.used ∪ O.free) := by
  have hpos := Nat.zero_lt_of_lt h
  intro hmem
  rcases hmem with heq | hmem
  · exact Block.buddy_ne _ ((O.cur_aligned.buddy_right hpos).trans heq.symm)
  · exact O.not_mem_of_within (Block.right_within hpos) hmem

theorem off_ne_right (h : m < O.cur.log) {c : Block} (hc : c ∈ O.used ∪ O.free) :
    c.off ≠ O.cur.right.off := fun heq ↦ by
  have hmem : ∀ d ∈ insert O.cur.right (O.used ∪ O.free),
      d ∈ insert (O.split h).cur ((O.split h).used ∪ (O.split h).free) := fun d hd ↦ by
    rw [← Set.union_insert] at hd
    exact Set.mem_insert_of_mem _ hd
  have hcr := (O.split h).tiles.eq_of_off_eq (hmem c (Set.mem_insert_of_mem _ hc))
    (hmem _ (Set.mem_insert _ _)) heq
  exact O.not_mem_of_within (Block.right_within (Nat.zero_lt_of_lt h)) (hcr ▸ hc)

/-- Join the open block with its free buddy. -/
def join (h : O.cur.buddy ∈ O.free) (hlog : O.cur.log < n) : OpenTiling m n where
  used := O.used
  free := O.free \ {O.cur.buddy}
  cur := O.cur.parent
  tiles := by
    have hset : insert O.cur.buddy (O.used ∪ O.free \ {O.cur.buddy}) = O.used ∪ O.free := by
      rw [← Set.union_insert, Set.insert_sdiff_singleton, Set.insert_eq_of_mem h]
    have hsub : O.used ∪ O.free \ {O.cur.buddy} ⊆ O.used ∪ O.free :=
      Set.union_subset_union_right _ Set.sdiff_subset
    refine Tiles.join (b := O.cur) (hset ▸ O.tiles) (fun hmem ↦ O.fresh (hsub hmem)) ?_ hlog
    rintro (hu | hf)
    · exact Set.disjoint_left.1 O.separate hu h
    · exact hf.2 rfl
  fresh := by
    intro hmem
    have hmem' : O.cur.parent ∈ O.used ∪ O.free :=
      Set.union_subset_union_right _ Set.sdiff_subset hmem
    exact Block.not_apart_of_within O.cur_aligned.within_parent (O.cur_apart hmem')
  separate := O.separate.mono_right Set.sdiff_subset
  coalesced := O.coalesced.mono Set.sdiff_subset
  floor := by
    rintro c (rfl | hu | hf)
    · exact (O.floor _ (Set.mem_insert _ _)).trans (Nat.le_succ _)
    · exact O.floor c (.inr (.inl hu))
    · exact O.floor c (.inr (.inr hf.1))

/-- Put the open block in use. -/
def closeUsed : BuddyTiling m n where
  used := insert O.cur O.used
  free := O.free
  tiles := by
    rw [Set.insert_union]
    exact O.tiles
  separate := by
    rw [Set.disjoint_insert_left]
    exact ⟨fun hf ↦ O.fresh (.inr hf), O.separate⟩
  coalesced := O.coalesced
  floor := by
    rw [Set.insert_union]
    exact O.floor

/-- Put the open block among the free ones, once its buddy is not free. -/
def closeFree (h : O.cur.buddy ∉ O.free) : BuddyTiling m n where
  used := O.used
  free := insert O.cur O.free
  tiles := by
    rw [Set.union_insert]
    exact O.tiles
  separate := by
    rw [Set.disjoint_insert_right]
    exact ⟨fun hu ↦ O.fresh (.inl hu), O.separate⟩
  coalesced := by
    rintro b (rfl | hb) (hbuddy | hbuddy)
    · exact Block.buddy_ne _ hbuddy
    · exact h hbuddy
    · have hal := O.tiles.aligned b (Set.mem_insert_of_mem _ (.inr hb))
      exact h (by rw [← hbuddy, hal.buddy_buddy]; exact hb)
    · exact O.coalesced b hb hbuddy
  floor := by
    rw [Set.union_insert]
    exact O.floor

theorem closeUsed_blocks :
    O.closeUsed.used ∪ O.closeUsed.free = insert O.cur (O.used ∪ O.free) := Set.insert_union

theorem closeFree_blocks (h : O.cur.buddy ∉ O.free) :
    (O.closeFree h).used ∪ (O.closeFree h).free = insert O.cur (O.used ∪ O.free) :=
  Set.union_insert

theorem finite : (O.used ∪ O.free).Finite := O.tiles.finite.subset (Set.subset_insert _ _)

theorem ncard_insert_cur :
    (insert O.cur (O.used ∪ O.free)).ncard = (O.used ∪ O.free).ncard + 1 :=
  Set.ncard_insert_of_notMem O.fresh O.finite

theorem ncard_split (h : m < O.cur.log) :
    (insert (O.split h).cur ((O.split h).used ∪ (O.split h).free)).ncard =
      (insert O.cur (O.used ∪ O.free)).ncard + 1 := by
  have hset : (O.split h).used ∪ (O.split h).free = insert O.cur.right (O.used ∪ O.free) :=
    Set.union_insert
  have hright : O.cur.right ∉ O.used ∪ O.free := fun hmem ↦
    O.right_fresh h (Set.mem_insert_of_mem _ hmem)
  rw [ncard_insert_cur, ncard_insert_cur, hset, Set.ncard_insert_of_notMem hright O.finite]

theorem ncard_join (h : O.cur.buddy ∈ O.free) (hlog : O.cur.log < n) :
    (insert (O.join h hlog).cur ((O.join h hlog).used ∪ (O.join h hlog).free)).ncard + 1 =
      (insert O.cur (O.used ∪ O.free)).ncard := by
  have hset : O.used ∪ O.free =
      insert O.cur.buddy ((O.join h hlog).used ∪ (O.join h hlog).free) := by
    change _ = insert O.cur.buddy (O.used ∪ O.free \ {O.cur.buddy})
    rw [← Set.union_insert, Set.insert_sdiff_singleton, Set.insert_eq_of_mem h]
  have hbuddy : O.cur.buddy ∉ (O.join h hlog).used ∪ (O.join h hlog).free := by
    intro hmem
    rcases hmem with hu | hf
    · exact Set.disjoint_left.1 O.separate hu h
    · exact hf.2 rfl
  rw [ncard_insert_cur, ncard_insert_cur, hset,
    Set.ncard_insert_of_notMem hbuddy (O.join h hlog).finite]

end OpenTiling

end Experimentation.Buddy
