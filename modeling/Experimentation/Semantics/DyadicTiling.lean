import Mathlib.Algebra.BigOperators.Group.Finset.Basic
import Mathlib.Algebra.Order.Group.Nat
import Mathlib.Data.Nat.Basic
import Mathlib.Data.Set.Card
import Mathlib.Data.Set.Lattice
import Mathlib.Order.CompletePartialOrder
import Mathlib.Order.Interval.Finset.Nat
import Mathlib.Order.Interval.Set.Disjoint
import Mathlib.Tactic.Ring

/-!
# Dyadic blocks and the tilings they form

A dyadic block is an interval of length `2 ^ log` that starts at a multiple of its length.  Any two
of them are either apart or nested, and this single fact carries everything below: a tiling of
`[0, 2 ^ n)` by dyadic blocks may be refined by halving a block and coarsened by joining a block
with its buddy, the first byte of a buddy is always the first byte of some tile, and a tiling whose
free tiles have been joined as far as possible is determined by the tiles that are in use.
-/

namespace Experimentation.DyadicTiling

/-- The interval of `2 ^ log` positions that starts at `off`. -/
@[ext]
structure Block where
  off : ℕ
  log : ℕ
deriving DecidableEq, Repr

namespace Block

/-- The first position after the block. -/
def stop (b : Block) : ℕ := b.off + 2 ^ b.log

/-- The block starts at a multiple of its own length. -/
def Aligned (b : Block) : Prop := 2 ^ b.log ∣ b.off

/-- The two blocks have no position in common. -/
def Apart (b c : Block) : Prop := b.stop ≤ c.off ∨ c.stop ≤ b.off

/-- Every position of `b` is a position of `c`. -/
def Within (b c : Block) : Prop := c.off ≤ b.off ∧ b.stop ≤ c.stop

/-- The block is the upper half of the dyadic block one level up. -/
def isRight (b : Block) : Bool := b.off / 2 ^ b.log % 2 == 1

/-- The lower half. -/
def left (b : Block) : Block := ⟨b.off, b.log - 1⟩

/-- The upper half. -/
def right (b : Block) : Block := ⟨b.off + 2 ^ (b.log - 1), b.log - 1⟩

/-- The other half of the dyadic block one level up. -/
def buddy (b : Block) : Block :=
  ⟨if b.isRight then b.off - 2 ^ b.log else b.off + 2 ^ b.log, b.log⟩

/-- The dyadic block one level up. -/
def parent (b : Block) : Block :=
  ⟨if b.isRight then b.off - 2 ^ b.log else b.off, b.log + 1⟩

theorem off_lt_stop (b : Block) : b.off < b.stop :=
  Nat.lt_add_of_pos_right (Nat.two_pow_pos b.log)

theorem Apart.symm {b c : Block} (h : b.Apart c) : c.Apart b := Or.symm h

theorem Within.trans {b c d : Block} (hbc : b.Within c) (hcd : c.Within d) : b.Within d :=
  ⟨hcd.1.trans hbc.1, hbc.2.trans hcd.2⟩

/-- A block within one of two blocks that are apart is apart from the other. -/
theorem Apart.of_within {b c d : Block} (h : c.Apart d) (hb : b.Within c) : b.Apart d := by
  unfold Apart Within at *
  have := off_lt_stop b
  omega

theorem not_apart_of_within {b c : Block} (h : b.Within c) : ¬ b.Apart c := by
  have hb := off_lt_stop b
  unfold Apart Within at *
  omega

/-- Containment orders the lengths. -/
theorem Within.log_le {b c : Block} (h : b.Within c) : b.log ≤ c.log := by
  have hpow : 2 ^ b.log ≤ 2 ^ c.log := by
    unfold Within stop at h
    omega
  exact (Nat.pow_le_pow_iff_right (by norm_num)).1 hpow

theorem Within.antisymm {b c : Block} (hbc : b.Within c) (hcb : c.Within b) : b = c := by
  have hlog : b.log = c.log := le_antisymm hbc.log_le hcb.log_le
  have hoff : b.off = c.off := le_antisymm hcb.1 hbc.1
  exact Block.ext hoff hlog

theorem apart_or_within {b c : Block} (hb : b.Aligned) (hc : c.Aligned) (hlog : b.log ≤ c.log) :
    b.Apart c ∨ b.Within c := by
  obtain ⟨i, hi⟩ := hb
  obtain ⟨j, hj⟩ := hc
  obtain ⟨d, hd⟩ := Nat.exists_eq_add_of_le hlog
  have hlen : 2 ^ c.log = 2 ^ b.log * 2 ^ d := by rw [hd, pow_add]
  have hstop : b.stop = 2 ^ b.log * (i + 1) := by
    unfold stop
    rw [hi]
    ring
  have hoff : c.off = 2 ^ b.log * (2 ^ d * j) := by rw [hj, hlen, mul_assoc]
  have hstop' : c.stop = 2 ^ b.log * (2 ^ d * (j + 1)) := by
    unfold stop
    rw [hj, hlen]
    ring
  -- in units of the smaller length, `b` is one cell and `c` a whole number of cells
  rcases Nat.lt_or_ge i (2 ^ d * j) with hbefore | hstart
  · exact .inl (.inl (by rw [hstop, hoff]; exact Nat.mul_le_mul_left _ hbefore))
  · rcases Nat.lt_or_ge i (2 ^ d * (j + 1)) with hinside | hafter
    · refine .inr ⟨?_, ?_⟩
      · rw [hoff, hi]
        exact Nat.mul_le_mul_left _ hstart
      · rw [hstop, hstop']
        exact Nat.mul_le_mul_left _ hinside
    · exact .inl (.inr (by rw [hstop', hi]; exact Nat.mul_le_mul_left _ hafter))

theorem within_of_mem {b c : Block} (hb : b.Aligned) (hc : c.Aligned) (hlog : b.log ≤ c.log)
    {x : ℕ} (hxb : b.off ≤ x ∧ x < b.stop) (hxc : c.off ≤ x ∧ x < c.stop) : b.Within c := by
  rcases apart_or_within hb hc hlog with h | h
  · unfold Apart at h
    omega
  · exact h

/-! ## Halves, buddies and parents -/

section Family

variable {b : Block}

@[simp] theorem left_off (b : Block) : b.left.off = b.off := rfl
@[simp] theorem left_log (b : Block) : b.left.log = b.log - 1 := rfl
@[simp] theorem right_off (b : Block) : b.right.off = b.off + 2 ^ (b.log - 1) := rfl
@[simp] theorem right_log (b : Block) : b.right.log = b.log - 1 := rfl
@[simp] theorem buddy_log (b : Block) : b.buddy.log = b.log := rfl
@[simp] theorem parent_log (b : Block) : b.parent.log = b.log + 1 := rfl

theorem Aligned.exists_odd (hb : b.Aligned) (hright : b.isRight = true) :
    ∃ i, b.off = 2 ^ b.log * (2 * i + 1) := by
  obtain ⟨j, hj⟩ := hb
  have hdiv : b.off / 2 ^ b.log = j := by
    rw [hj, Nat.mul_div_cancel_left _ (Nat.two_pow_pos _)]
  have hodd : j % 2 = 1 := by simpa [isRight, hdiv] using hright
  exact ⟨j / 2, by rw [hj]; congr 1; omega⟩

theorem Aligned.exists_even (hb : b.Aligned) (hleft : b.isRight = false) :
    ∃ i, b.off = 2 ^ b.log * (2 * i) := by
  obtain ⟨j, hj⟩ := hb
  have hdiv : b.off / 2 ^ b.log = j := by
    rw [hj, Nat.mul_div_cancel_left _ (Nat.two_pow_pos _)]
  have heven : j % 2 = 0 := by
    have : ¬ j % 2 = 1 := by simpa [isRight, hdiv] using hleft
    omega
  exact ⟨j / 2, by rw [hj]; congr 1; omega⟩

theorem isRight_of_odd {i : ℕ} (h : b.off = 2 ^ b.log * (2 * i + 1)) : b.isRight = true := by
  have hdiv : b.off / 2 ^ b.log = 2 * i + 1 := by
    rw [h, Nat.mul_div_cancel_left _ (Nat.two_pow_pos _)]
  simp [isRight, hdiv]

theorem isRight_of_even {i : ℕ} (h : b.off = 2 ^ b.log * (2 * i)) : b.isRight = false := by
  have hdiv : b.off / 2 ^ b.log = 2 * i := by
    rw [h, Nat.mul_div_cancel_left _ (Nat.two_pow_pos _)]
  simp [isRight, hdiv]

theorem Aligned.length_le_off (hb : b.Aligned) (hright : b.isRight = true) :
    2 ^ b.log ≤ b.off := by
  obtain ⟨i, hi⟩ := hb.exists_odd hright
  rw [hi]
  exact Nat.le_mul_of_pos_right _ (Nat.succ_pos _)

theorem Aligned.buddy (hb : b.Aligned) : b.buddy.Aligned := by
  unfold Block.buddy
  split
  · exact Nat.dvd_sub hb (dvd_refl _)
  · exact Nat.dvd_add hb (dvd_refl _)

theorem Aligned.parent (hb : b.Aligned) : b.parent.Aligned := by
  cases hright : b.isRight with
  | true =>
      obtain ⟨i, hi⟩ := hb.exists_odd hright
      refine ⟨i, ?_⟩
      simp only [Block.parent, hright, if_true, hi]
      rw [mul_add, mul_one, Nat.add_sub_cancel, pow_succ]
      ring
  | false =>
      obtain ⟨i, hi⟩ := hb.exists_even hright
      refine ⟨i, ?_⟩
      simp only [Block.parent, hright, Bool.false_eq_true, if_false, hi, pow_succ]
      ring

theorem Aligned.isRight_buddy (hb : b.Aligned) : b.buddy.isRight = !b.isRight := by
  cases hright : b.isRight with
  | true =>
      obtain ⟨i, hi⟩ := hb.exists_odd hright
      refine isRight_of_even (i := i) ?_
      simp only [Block.buddy, hright, if_true, hi]
      rw [mul_add, mul_one, Nat.add_sub_cancel]
  | false =>
      obtain ⟨i, hi⟩ := hb.exists_even hright
      refine isRight_of_odd (i := i) ?_
      simp only [Block.buddy, hright, Bool.false_eq_true, if_false, hi]
      ring

theorem Aligned.buddy_buddy (hb : b.Aligned) : b.buddy.buddy = b := by
  refine Block.ext ?_ rfl
  have hflip := hb.isRight_buddy
  cases hright : b.isRight with
  | true =>
      have hle := hb.length_le_off hright
      rw [hright] at hflip
      simp only [Block.buddy, hright, if_true] at hflip ⊢
      simp only [hflip, Bool.not_true, Bool.false_eq_true, if_false]
      omega
  | false =>
      rw [hright] at hflip
      simp only [Block.buddy, hright, Bool.false_eq_true, if_false] at hflip ⊢
      simp only [hflip, Bool.not_false, if_true]
      omega

theorem Aligned.parent_buddy (hb : b.Aligned) : b.buddy.parent = b.parent := by
  refine Block.ext ?_ rfl
  have hflip := hb.isRight_buddy
  cases hright : b.isRight with
  | true =>
      rw [hright] at hflip
      simp only [Block.buddy, Block.parent, hright, if_true] at hflip ⊢
      simp only [hflip, Bool.not_true, Bool.false_eq_true, if_false]
  | false =>
      rw [hright] at hflip
      simp only [Block.buddy, Block.parent, hright, Bool.false_eq_true, if_false] at hflip ⊢
      simp only [hflip, Bool.not_false, if_true, Nat.add_sub_cancel]

theorem buddy_ne (b : Block) : b.buddy ≠ b := by
  intro h
  have hoff := congrArg Block.off h
  have hpos := Nat.two_pow_pos b.log
  simp only [Block.buddy] at hoff
  split at hoff
  next hright =>
    have hzero : b.off = 0 := by omega
    simp [isRight, hzero] at hright
  next => omega

theorem Aligned.left (hb : b.Aligned) : b.left.Aligned :=
  (pow_dvd_pow 2 (Nat.sub_le _ _)).trans hb

theorem Aligned.exists_halves (hb : b.Aligned) (hlog : 0 < b.log) :
    ∃ i, b.off = 2 ^ (b.log - 1) * (2 * i) := by
  obtain ⟨i, hi⟩ := hb
  refine ⟨i, ?_⟩
  obtain ⟨k, hk⟩ := Nat.exists_eq_succ_of_ne_zero hlog.ne'
  rw [hi, hk, Nat.succ_sub_one, pow_succ]
  ring

theorem Aligned.right (hb : b.Aligned) : b.right.Aligned :=
  Nat.dvd_add hb.left (dvd_refl _)

theorem Aligned.isRight_left (hb : b.Aligned) (hlog : 0 < b.log) : b.left.isRight = false := by
  obtain ⟨i, hi⟩ := hb.exists_halves hlog
  exact isRight_of_even (i := i) hi

theorem Aligned.isRight_right (hb : b.Aligned) (hlog : 0 < b.log) : b.right.isRight = true := by
  obtain ⟨i, hi⟩ := hb.exists_halves hlog
  refine isRight_of_odd (i := i) ?_
  rw [right_off, right_log, hi]
  ring

theorem Aligned.parent_left (hb : b.Aligned) (hlog : 0 < b.log) : b.left.parent = b := by
  apply Block.ext
  · simp [Block.parent, hb.isRight_left hlog]
  · simp only [parent_log, left_log]
    omega

theorem Aligned.parent_right (hb : b.Aligned) (hlog : 0 < b.log) : b.right.parent = b := by
  apply Block.ext
  · simp [Block.parent, hb.isRight_right hlog]
  · simp only [parent_log, right_log]
    omega

theorem Aligned.buddy_right (hb : b.Aligned) (hlog : 0 < b.log) : b.right.buddy = b.left := by
  apply Block.ext
  · simp [Block.buddy, hb.isRight_right hlog]
  · rfl

theorem Aligned.buddy_left (hb : b.Aligned) (hlog : 0 < b.log) : b.left.buddy = b.right := by
  rw [← hb.buddy_right hlog, hb.right.buddy_buddy]

theorem Aligned.halves_parent_of_left (hb : b.Aligned) (hleft : b.isRight = false) :
    b.parent.left = b ∧ b.parent.right = b.buddy := by
  have hparent : b.parent.left = b := by
    refine Block.ext ?_ (Nat.add_sub_cancel b.log 1)
    simp [Block.parent, hleft]
  exact ⟨hparent, by rw [← hb.parent.buddy_left (Nat.succ_pos _), hparent]⟩

theorem Aligned.halves_parent_of_right (hb : b.Aligned) (hright : b.isRight = true) :
    b.parent.right = b ∧ b.parent.left = b.buddy := by
  have hle := hb.length_le_off hright
  have hparent : b.parent.right = b := by
    refine Block.ext ?_ (Nat.add_sub_cancel b.log 1)
    simp only [right_off, Nat.add_sub_cancel, Block.parent, hright, if_true]
    omega
  exact ⟨hparent, by rw [← hb.parent.buddy_right (Nat.succ_pos _), hparent]⟩

theorem two_mul_half (hlog : 0 < b.log) : 2 * 2 ^ (b.log - 1) = 2 ^ b.log := by
  obtain ⟨k, hk⟩ := Nat.exists_eq_succ_of_ne_zero hlog.ne'
  rw [hk, Nat.succ_sub_one, pow_succ, mul_comm]

theorem left_stop (b : Block) : b.left.stop = b.right.off := rfl

theorem right_stop (hlog : 0 < b.log) : b.right.stop = b.stop := by
  have := two_mul_half hlog
  simp only [stop, right_off, right_log]
  omega

theorem left_within (hlog : 0 < b.log) : b.left.Within b := by
  refine ⟨le_rfl, ?_⟩
  rw [left_stop, ← right_stop hlog]
  exact (off_lt_stop _).le

theorem right_within (hlog : 0 < b.log) : b.right.Within b :=
  ⟨Nat.le_add_right _ _, (right_stop hlog).le⟩

theorem Aligned.within_parent (hb : b.Aligned) : b.Within b.parent := by
  have hpos := Nat.two_pow_pos b.log
  cases hright : b.isRight with
  | true =>
      have hle := hb.length_le_off hright
      simp only [Within, stop, Block.parent, hright, if_true, pow_succ]
      omega
  | false =>
      simp only [Within, stop, Block.parent, hright, Bool.false_eq_true, if_false, pow_succ]
      omega

theorem Aligned.buddy_within_parent (hb : b.Aligned) : b.buddy.Within b.parent := by
  have h := hb.buddy.within_parent
  rwa [hb.parent_buddy] at h

theorem Aligned.mem_parent (hb : b.Aligned) {x : ℕ}
    (hx : b.parent.off ≤ x ∧ x < b.parent.stop) :
    (b.off ≤ x ∧ x < b.stop) ∨ (b.buddy.off ≤ x ∧ x < b.buddy.stop) := by
  cases hright : b.isRight with
  | true =>
      have hle := hb.length_le_off hright
      simp only [stop, Block.parent, Block.buddy, hright, if_true, pow_succ] at hx ⊢
      omega
  | false =>
      simp only [stop, Block.parent, Block.buddy, hright, Bool.false_eq_true, if_false,
        pow_succ] at hx ⊢
      omega

/-- The parent of a block below the top level stays inside the range the block is in. -/
theorem Aligned.parent_stop_le (hb : b.Aligned) {n : ℕ} (hlog : b.log < n)
    (hstop : b.stop ≤ 2 ^ n) : b.parent.stop ≤ 2 ^ n := by
  let top : Block := ⟨0, n⟩
  have htop : top.Aligned := dvd_zero _
  have htopStop : top.stop = 2 ^ n := Nat.zero_add _
  have hwithin : b.parent.Within top :=
    within_of_mem hb.parent htop (Nat.succ_le_of_lt hlog) (x := b.off)
      ⟨hb.within_parent.1, b.off_lt_stop.trans_le hb.within_parent.2⟩
      ⟨Nat.zero_le _, by rw [htopStop]; exact b.off_lt_stop.trans_le hstop⟩
  rw [← htopStop]
  exact hwithin.2

end Family

end Block

/-! ## Tilings -/

/-- `S` cuts `[0, 2 ^ n)` into dyadic blocks. -/
structure Tiles (n : ℕ) (S : Set Block) : Prop where
  aligned : ∀ b ∈ S, b.Aligned
  inside : ∀ b ∈ S, b.stop ≤ 2 ^ n
  apart : ∀ b ∈ S, ∀ c ∈ S, b ≠ c → b.Apart c
  cover : ∀ x < 2 ^ n, ∃ b ∈ S, b.off ≤ x ∧ x < b.stop

namespace Tiles

variable {n : ℕ} {S : Set Block} {b c : Block}

theorem singleton (n : ℕ) : Tiles n {⟨0, n⟩} where
  aligned := by
    rintro _ rfl
    exact dvd_zero _
  inside := by
    rintro _ rfl
    simp [Block.stop]
  apart := by
    rintro _ rfl _ rfl hne
    exact absurd rfl hne
  cover x hx := ⟨⟨0, n⟩, rfl, Nat.zero_le _, by simpa [Block.stop] using hx⟩

theorem log_le (h : Tiles n S) (hb : b ∈ S) : b.log ≤ n := by
  have hstop := h.inside b hb
  have hpow : 2 ^ b.log ≤ 2 ^ n := by
    unfold Block.stop at hstop
    omega
  exact (Nat.pow_le_pow_iff_right (by norm_num)).1 hpow

theorem eq_of_mem (h : Tiles n S) (hb : b ∈ S) (hc : c ∈ S) {x : ℕ}
    (hxb : b.off ≤ x ∧ x < b.stop) (hxc : c.off ≤ x ∧ x < c.stop) : b = c := by
  by_contra hne
  have hapart := h.apart b hb c hc hne
  unfold Block.Apart at hapart
  omega

theorem eq_of_off_eq (h : Tiles n S) (hb : b ∈ S) (hc : c ∈ S) (hoff : b.off = c.off) : b = c :=
  h.eq_of_mem hb hc (x := b.off) ⟨le_rfl, b.off_lt_stop⟩
    ⟨hoff.ge, hoff ▸ c.off_lt_stop⟩

theorem eq_of_within (h : Tiles n S) (hb : b ∈ S) (hc : c ∈ S) (hbc : b.Within c) : b = c := by
  by_contra hne
  exact Block.not_apart_of_within hbc (h.apart b hb c hc hne)

theorem off_eq_zero (h : Tiles n S) (hb : b ∈ S) (hlog : b.log = n) : b.off = 0 := by
  have hstop := h.inside b hb
  unfold Block.stop at hstop
  rw [hlog] at hstop
  omega

/-- A block one level below the top never straddles the end of the range. -/
theorem buddy_stop_le (h : Tiles n S) (hb : b ∈ S) (hlog : b.log < n) : b.buddy.stop ≤ 2 ^ n :=
  ((h.aligned b hb).buddy_within_parent).2.trans
    ((h.aligned b hb).parent_stop_le hlog (h.inside b hb))

/-- A tile that is not the whole range has a tile at the first position of its buddy, and that
tile is no longer than the buddy. -/
theorem exists_at_buddy (h : Tiles n S) (hb : b ∈ S) (hlog : b.log < n) :
    ∃ c ∈ S, c.off = b.buddy.off ∧ c.log ≤ b.log := by
  have hal := h.aligned b hb
  have hlt : b.buddy.off < 2 ^ n := b.buddy.off_lt_stop.trans_le (h.buddy_stop_le hb hlog)
  obtain ⟨c, hc, hxc⟩ := h.cover _ hlt
  have hxb : b.buddy.off ≤ b.buddy.off ∧ b.buddy.off < b.buddy.stop :=
    ⟨le_rfl, b.buddy.off_lt_stop⟩
  rcases Nat.lt_or_ge b.log c.log with hlong | hshort
  · -- a longer tile there would hold the parent, hence `b` itself
    have hparent : b.parent.Within c :=
      Block.within_of_mem hal.parent (h.aligned c hc) hlong
        (x := b.buddy.off) ⟨hal.buddy_within_parent.1,
          b.buddy.off_lt_stop.trans_le hal.buddy_within_parent.2⟩ hxc
    have hbc : b = c := h.eq_of_within hb hc (hal.within_parent.trans hparent)
    rw [hbc] at hlong
    exact absurd hlong (lt_irrefl _)
  · have hwithin : c.Within b.buddy :=
      Block.within_of_mem (h.aligned c hc) hal.buddy hshort hxc hxb
    exact ⟨c, hc, le_antisymm hxc.1 hwithin.1, hshort⟩

/-- Halving one tile keeps a tiling. -/
theorem split (h : Tiles n (insert b S)) (hbS : b ∉ S) (hlog : 0 < b.log) :
    Tiles n (insert b.left (insert b.right S)) where
  aligned := by
    have hb := h.aligned b (Set.mem_insert _ _)
    rintro c (rfl | rfl | hc)
    · exact hb.left
    · exact hb.right
    · exact h.aligned c (Set.mem_insert_of_mem _ hc)
  inside := by
    have hb := h.inside b (Set.mem_insert _ _)
    rintro c (rfl | rfl | hc)
    · exact (Block.left_within hlog).2.trans hb
    · exact (Block.right_within hlog).2.trans hb
    · exact h.inside c (Set.mem_insert_of_mem _ hc)
  apart := by
    have hrest : ∀ c ∈ S, b.Apart c := fun c hc ↦
      h.apart b (Set.mem_insert _ _) c (Set.mem_insert_of_mem _ hc) fun heq ↦ hbS (heq ▸ hc)
    have hhalves : b.left.Apart b.right := .inl (Block.left_stop b).le
    have hleft : ∀ c ∈ S, b.left.Apart c := fun c hc ↦
      (hrest c hc).of_within (Block.left_within hlog)
    have hright : ∀ c ∈ S, b.right.Apart c := fun c hc ↦
      (hrest c hc).of_within (Block.right_within hlog)
    rintro c (rfl | rfl | hc) d (rfl | rfl | hd) hne
    · exact absurd rfl hne
    · exact hhalves
    · exact hleft d hd
    · exact hhalves.symm
    · exact absurd rfl hne
    · exact hright d hd
    · exact (hleft c hc).symm
    · exact (hright c hc).symm
    · exact h.apart c (Set.mem_insert_of_mem _ hc) d (Set.mem_insert_of_mem _ hd) hne
  cover x hx := by
    obtain ⟨c, rfl | hc, hlo, hhi⟩ := h.cover x hx
    · rcases Nat.lt_or_ge x c.right.off with hlow | hhigh
      · exact ⟨c.left, Set.mem_insert _ _, hlo, hlow⟩
      · exact ⟨c.right, Set.mem_insert_of_mem _ (Set.mem_insert _ _), hhigh,
          (Block.right_stop hlog).symm ▸ hhi⟩
    · exact ⟨c, Set.mem_insert_of_mem _ (Set.mem_insert_of_mem _ hc), hlo, hhi⟩

/-- Joining a tile with its buddy keeps a tiling. -/
theorem join (h : Tiles n (insert b (insert b.buddy S))) (hbS : b ∉ S) (hbuddy : b.buddy ∉ S)
    (hlog : b.log < n) : Tiles n (insert b.parent S) := by
  have hmem : b ∈ insert b (insert b.buddy S) := Set.mem_insert _ _
  have hmem' : b.buddy ∈ insert b (insert b.buddy S) := Set.mem_insert_of_mem _ (Set.mem_insert _ _)
  have hold : ∀ c ∈ S, c ∈ insert b (insert b.buddy S) := fun c hc ↦
    Set.mem_insert_of_mem _ (Set.mem_insert_of_mem _ hc)
  have hal := h.aligned b hmem
  have hparent : ∀ c ∈ S, c.Apart b.parent := by
    intro c hc
    have hcb : c.Apart b := h.apart c (hold c hc) b hmem fun heq ↦ hbS (heq ▸ hc)
    have hcb' : c.Apart b.buddy := h.apart c (hold c hc) _ hmem' fun heq ↦ hbuddy (heq ▸ hc)
    rcases Nat.lt_or_ge b.log c.log with hlong | hshort
    · rcases Block.apart_or_within hal.parent (h.aligned c (hold c hc)) hlong with hapart | hin
      · exact hapart.symm
      · exact absurd (hal.within_parent.trans hin) fun hbc ↦ Block.not_apart_of_within hbc hcb.symm
    · rcases Block.apart_or_within (h.aligned c (hold c hc)) hal.parent
        (hshort.trans (Nat.le_succ _)) with hapart | hin
      · exact hapart
      · -- the first position of `c` lies in one of the two halves, so `c` meets that half
        have hoff := hal.mem_parent ⟨hin.1, c.off_lt_stop.trans_le hin.2⟩
        have hpos := c.off_lt_stop
        unfold Block.Apart at hcb hcb'
        omega
  refine ⟨?_, ?_, ?_, ?_⟩
  · rintro c (rfl | hc)
    · exact hal.parent
    · exact h.aligned c (hold c hc)
  · rintro c (rfl | hc)
    · exact hal.parent_stop_le hlog (h.inside b hmem)
    · exact h.inside c (hold c hc)
  · rintro c (rfl | hc) d (rfl | hd) hne
    · exact absurd rfl hne
    · exact (hparent d hd).symm
    · exact hparent c hc
    · exact h.apart c (hold c hc) d (hold d hd) hne
  · intro x hx
    obtain ⟨c, rfl | rfl | hc, hxc⟩ := h.cover x hx
    · exact ⟨_, Set.mem_insert _ _, hal.within_parent.1.trans hxc.1,
        hxc.2.trans_le hal.within_parent.2⟩
    · exact ⟨_, Set.mem_insert _ _, hal.buddy_within_parent.1.trans hxc.1,
        hxc.2.trans_le hal.buddy_within_parent.2⟩
    · exact ⟨c, Set.mem_insert_of_mem _ hc, hxc⟩

/-- There are finitely many tiles. -/
theorem finite (h : Tiles n S) : S.Finite := by
  apply Set.Finite.of_injOn (t := Set.Iio (2 ^ n)) (f := Block.off)
  · intro b hb
    exact b.off_lt_stop.trans_le (h.inside b hb)
  · intro b hb c hc hoff
    exact h.eq_of_off_eq hb hc hoff
  · exact Set.finite_Iio _

theorem sum_length {bs : Finset Block} (h : Tiles n (bs : Set Block)) :
    ∑ b ∈ bs, 2 ^ b.log = 2 ^ n := by
  have hcover : bs.biUnion (fun b ↦ Finset.Ico b.off b.stop) = Finset.range (2 ^ n) := by
    ext x
    rw [Finset.mem_biUnion, Finset.mem_range]
    constructor
    · intro hx
      obtain ⟨b, hb, hmem⟩ := hx
      exact (Finset.mem_Ico.1 hmem).2.trans_le (h.inside b hb)
    · intro hx
      obtain ⟨b, hb, hlo, hhi⟩ := h.cover x hx
      exact ⟨b, hb, Finset.mem_Ico.2 ⟨hlo, hhi⟩⟩
  have hdisjoint : (bs : Set Block).PairwiseDisjoint fun b ↦ Finset.Ico b.off b.stop := by
    intro b hb c hc hne
    apply Finset.disjoint_left.2
    intro x hxb hxc
    have hapart := h.apart b hb c hc hne
    rw [Finset.mem_Ico] at hxb hxc
    unfold Block.Apart at hapart
    omega
  calc
    ∑ b ∈ bs, 2 ^ b.log = ∑ b ∈ bs, (Finset.Ico b.off b.stop).card := by
      apply Finset.sum_congr rfl
      intro b _
      rw [Nat.card_Ico, Block.stop, Nat.add_sub_cancel_left]
    _ = (bs.biUnion fun b ↦ Finset.Ico b.off b.stop).card := (Finset.card_biUnion hdisjoint).symm
    _ = 2 ^ n := by rw [hcover, Finset.card_range]

end Tiles

/-- No two buddies are both in the set. -/
def Coalesced (F : Set Block) : Prop := ∀ b ∈ F, b.buddy ∉ F

theorem Coalesced.mono {F G : Set Block} (hG : Coalesced G) (h : F ⊆ G) : Coalesced F :=
  fun b hb hbuddy ↦ hG b (h hb) (h hbuddy)

/-- The dyadic blocks of `[0, 2 ^ n)` that meet no block of `U`. -/
def Vacant (n : ℕ) (U : Set Block) : Set Block :=
  {d | d.Aligned ∧ d.stop ≤ 2 ^ n ∧ ∀ u ∈ U, d.Apart u}

/-- The vacant blocks that lie within no other vacant block. -/
def MaxVacant (n : ℕ) (U : Set Block) : Set Block :=
  {d | d ∈ Vacant n U ∧ ∀ e ∈ Vacant n U, d.Within e → e = d}

/-- Fewer short blocks than there are cells of length `2 ^ k` leave one of the cells vacant. -/
theorem exists_vacant_of_ncard_lt {n k : ℕ} {U : Set Block} (hfin : U.Finite)
    (hal : ∀ u ∈ U, u.Aligned) (hlog : ∀ u ∈ U, u.log ≤ k) (hk : k ≤ n)
    (hcard : U.ncard < 2 ^ (n - k)) : ∃ d ∈ Vacant n U, d.log = k := by
  -- the cell in which a block lies
  let cells := hfin.toFinset.image fun u ↦ u.off / 2 ^ k
  have hcells : cells.card < (Finset.range (2 ^ (n - k))).card := by
    calc cells.card ≤ hfin.toFinset.card := Finset.card_image_le
      _ = U.ncard := (Set.ncard_eq_toFinset_card U hfin).symm
      _ < 2 ^ (n - k) := hcard
      _ = (Finset.range (2 ^ (n - k))).card := (Finset.card_range _).symm
  obtain ⟨i, hi, hnot⟩ := Finset.exists_mem_notMem_of_card_lt_card hcells
  have hpow : 2 ^ n = 2 ^ (n - k) * 2 ^ k := by rw [← pow_add, Nat.sub_add_cancel hk]
  have hd : (⟨i * 2 ^ k, k⟩ : Block).Aligned := Dvd.intro_left i rfl
  refine ⟨⟨i * 2 ^ k, k⟩, ⟨hd, ?_, fun u hu ↦ ?_⟩, rfl⟩
  · calc i * 2 ^ k + 2 ^ k = (i + 1) * 2 ^ k := (Nat.succ_mul i (2 ^ k)).symm
      _ ≤ 2 ^ (n - k) * 2 ^ k := Nat.mul_le_mul_right _ (Finset.mem_range.1 hi)
      _ = 2 ^ n := hpow.symm
  · rcases Block.apart_or_within (hal u hu) hd (hlog u hu) with hapart | hin
    · exact hapart.symm
    · refine absurd (Finset.mem_image.2 ⟨u, hfin.mem_toFinset.2 hu, ?_⟩) hnot
      apply Nat.div_eq_of_lt_le hin.1
      calc u.off < u.stop := u.off_lt_stop
        _ ≤ i * 2 ^ k + 2 ^ k := hin.2
        _ = (i + 1) * 2 ^ k := (Nat.succ_mul i (2 ^ k)).symm

section Canonical

variable {n : ℕ} {U F : Set Block}

theorem Tiles.free_vacant (h : Tiles n (U ∪ F)) (hsep : Disjoint U F) {f : Block} (hf : f ∈ F) :
    f ∈ Vacant n U := by
  refine ⟨h.aligned f (.inr hf), h.inside f (.inr hf), fun u hu ↦ ?_⟩
  exact h.apart f (.inr hf) u (.inl hu) fun heq ↦ Set.disjoint_left.1 hsep hu (heq ▸ hf)

/-- Once buddies are joined wherever they can be, every vacant block lies within one free tile.
The induction is on the length: the two halves lie within free tiles, and unless one of these
already holds the whole block they are the halves themselves, two free buddies. -/
theorem Tiles.exists_free_of_vacant (h : Tiles n (U ∪ F)) (hco : Coalesced F) {d : Block}
    (hd : d ∈ Vacant n U) : ∃ f ∈ F, d.Within f := by
  obtain ⟨k, hk⟩ : ∃ k, d.log = k := ⟨_, rfl⟩
  induction k generalizing d with
  | zero =>
      obtain ⟨hal, hstop, hvac⟩ := hd
      obtain ⟨c, hc, hxc⟩ := h.cover d.off (d.off_lt_stop.trans_le hstop)
      have hin : d.Within c :=
        Block.within_of_mem hal (h.aligned c hc) (hk ▸ Nat.zero_le _) ⟨le_rfl, d.off_lt_stop⟩ hxc
      rcases hc with hu | hf
      · exact absurd (hvac c hu) (Block.not_apart_of_within hin)
      · exact ⟨c, hf, hin⟩
  | succ k ih =>
      obtain ⟨hal, hstop, hvac⟩ := hd
      have hlog : 0 < d.log := by omega
      have hhalf : ∀ e : Block, e.Aligned → e.Within d → e ∈ Vacant n U := fun e he hin ↦
        ⟨he, hin.2.trans hstop, fun u hu ↦ (hvac u hu).of_within hin⟩
      obtain ⟨f, hf, hlf⟩ := ih (hhalf _ hal.left (Block.left_within hlog)) (by simp [hk])
      obtain ⟨g, hg, hrg⟩ := ih (hhalf _ hal.right (Block.right_within hlog)) (by simp [hk])
      have hlong : ∀ e ∈ F, ∀ c : Block, c.Aligned → c.log = k → c.Within e → c.Within d →
          e = c ∨ d.Within e := by
        intro e he c hc hck hce hcd
        have hea := h.aligned e (.inr he)
        rcases Nat.lt_or_ge k e.log with hlt | hge
        · exact .inr (Block.within_of_mem hal hea (by omega) (x := c.off)
            ⟨hcd.1, c.off_lt_stop.trans_le hcd.2⟩ ⟨hce.1, c.off_lt_stop.trans_le hce.2⟩)
        · have hec : e.Within c := Block.within_of_mem hea hc (by omega) (x := c.off)
            ⟨hce.1, c.off_lt_stop.trans_le hce.2⟩ ⟨le_rfl, c.off_lt_stop⟩
          exact .inl (hec.antisymm hce)
      rcases hlong f hf _ hal.left (by simp [hk]) hlf (Block.left_within hlog) with rfl | hin
      · rcases hlong g hg _ hal.right (by simp [hk]) hrg (Block.right_within hlog) with rfl | hin
        · exact absurd (hal.buddy_left hlog ▸ hg) (hco _ hf)
        · exact ⟨g, hg, hin⟩
      · exact ⟨f, hf, hin⟩

/-- The free tiles are exactly the maximal vacant blocks: they depend on the tiles in use alone. -/
theorem Tiles.free_eq_maxVacant (h : Tiles n (U ∪ F)) (hsep : Disjoint U F) (hco : Coalesced F) :
    F = MaxVacant n U := by
  ext d
  constructor
  · intro hd
    refine ⟨h.free_vacant hsep hd, fun e he hin ↦ ?_⟩
    obtain ⟨f, hf, hef⟩ := h.exists_free_of_vacant hco he
    have hdf : d = f := h.eq_of_within (.inr hd) (.inr hf) (hin.trans hef)
    exact Block.Within.antisymm (hdf ▸ hef) hin
  · rintro ⟨hvac, hmax⟩
    obtain ⟨f, hf, hdf⟩ := h.exists_free_of_vacant hco hvac
    rw [← hmax f (h.free_vacant hsep hf) hdf]
    exact hf

end Canonical

end Experimentation.DyadicTiling
