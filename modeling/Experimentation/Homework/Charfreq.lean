import Experimentation.Semantics.Numerals

/-!
# `charfreq`

The program that counts the letters of a text and prints a bar for each of them.  Its loop for the
largest frequency starts from a frequency and goes on with positions: the variable `maxf` holds
`freq[0]` first and the number of a letter afterwards.  So a letter becomes `maxf` if it occurs more
often than the number of the letter before says.
-/

namespace Experimentation.Homework

open Semantics

/-- The number of letters. -/
def len : ℕ := 26

/-- The array `freq` of unsigned integers. -/
abbrev Frequencies := Vector ℕ len

def load (freq : Frequencies) (i : ℕ) : Exec ℕ :=
  if h : i < len then .ok freq[i] else .error .outOfBounds

def bump (freq : Frequencies) (i : ℕ) : Exec Frequencies :=
  if h : i < len then .ok (freq.set i ((freq[i] + 1) % 2 ^ 32)) else .error .outOfBounds

def toupper (c : UInt8) : UInt8 := if c ≥ 97 ∧ c ≤ 122 then c - 32 else c

/-- The loop that counts the letters. -/
def countFrequencies (freq : Frequencies) : Text → Exec Frequencies
  | [] => .ok freq
  | c :: text =>
      if toupper c ≥ 65 ∧ toupper c ≤ 90 then do
        let freq' ← bump freq ((toupper c).toNat - 65)
        countFrequencies freq' text
      else
        countFrequencies freq text

/-- The loop that looks for the largest frequency: the value of `maxf`. -/
def scanMax (freq : Frequencies) : Exec ℕ := do
  let first ← load freq 0
  (List.range' 1 (len - 1)).foldlM (fun maxf i ↦ do
    let n ← load freq i
    return if n > maxf then i else maxf) first

/-- The star of a bar. -/
def star : UInt8 := 42

/-- A turn of the loop that prints the bars. -/
def printRow (freq : Frequencies) (i : ℕ) : Exec Text := do
  let stars ← (List.range len).mapM fun j ↦ do
    let n ← load freq j
    return if n ≥ i then star else blank
  return padLeft blank 3 (numeral false 10 i) ++ bar :: blank :: stars ++ [newline]

/-- The loop that prints the bars, from the row `i` downwards. -/
def printRows (freq : Frequencies) : (i : ℕ) → Exec Text
  | 0 => .ok []
  | i + 1 => do
      let row ← printRow freq (i + 1)
      let rows ← printRows freq i
      return row ++ rows

/-- The last line. -/
def letters : Text := ascii "     " ++ (List.range len).map fun i ↦ UInt8.ofNat (65 + i)

/-- `main`, from where the file is open. -/
def charfreq (text : Text) : Exec Text := do
  let freq ← countFrequencies (Vector.replicate len 0) text
  let maxf ← scanMax freq
  let top ← load freq maxf
  let rows ← printRows freq top
  return rows ++ (letters ++ [newline])

/-! ## Counting -/

/-- How often a letter occurs in a text, in the upper or in the lower case. -/
def occurrences (text : Text) (a : ℕ) : ℕ :=
  text.countP fun c ↦ c.toNat = 65 + a ∨ c.toNat = 97 + a

theorem toupper_eq_iff {c : UInt8} {a : ℕ} (ha : a < len) :
    (65 ≤ toupper c ∧ toupper c ≤ 90) ∧ (toupper c).toNat - 65 = a ↔
      c.toNat = 65 + a ∨ c.toNat = 97 + a := by
  unfold len at ha
  unfold toupper
  split_ifs with hlower
  · have hle : (32 : UInt8) ≤ c := UInt8.le_trans (by decide) hlower.1
    rw [UInt8.le_iff_toNat_le, UInt8.le_iff_toNat_le, UInt8.toNat_sub_of_le _ _ hle]
    rw [ge_iff_le, UInt8.le_iff_toNat_le, UInt8.le_iff_toNat_le] at hlower
    simp only [UInt8.reduceToNat] at hlower ⊢
    omega
  · rw [ge_iff_le, UInt8.le_iff_toNat_le, UInt8.le_iff_toNat_le] at hlower
    rw [UInt8.le_iff_toNat_le, UInt8.le_iff_toNat_le]
    simp only [UInt8.reduceToNat] at hlower ⊢
    omega

theorem occurrences_cons (c : UInt8) (text : Text) {a : ℕ} (ha : a < len) :
    occurrences (c :: text) a = occurrences text a +
      if (65 ≤ toupper c ∧ toupper c ≤ 90) ∧ (toupper c).toNat - 65 = a then 1 else 0 := by
  rw [occurrences, List.countP_cons, occurrences, if_congr (toupper_eq_iff ha) rfl rfl]
  simp

theorem countFrequencies_eq (text : Text) {freq : Frequencies} {g : ℕ → ℕ}
    (hload : ∀ a < len, load freq a = .ok (g a % 2 ^ 32)) :
    ∃ freq', countFrequencies freq text = .ok freq' ∧
      ∀ a < len, load freq' a = .ok ((g a + occurrences text a) % 2 ^ 32) := by
  induction text generalizing freq g with
  | nil => exact ⟨freq, rfl, hload⟩
  | cons c text ih =>
      by_cases hletter : toupper c ≥ 65 ∧ toupper c ≤ 90
      · have hlt : (toupper c).toNat - 65 < len := by
          have hle := UInt8.le_iff_toNat_le.1 hletter.2
          simp only [UInt8.reduceToNat] at hle
          unfold len
          omega
        have hnext : ∀ a < len, load (freq.set ((toupper c).toNat - 65)
            ((freq[(toupper c).toNat - 65] + 1) % 2 ^ 32)) a =
            .ok ((g a + if (toupper c).toNat - 65 = a then 1 else 0) % 2 ^ 32) := by
          intro a ha
          have hg := hload a ha
          rw [load, dif_pos ha, Except.ok.injEq] at hg
          rw [load, dif_pos ha, Vector.getElem_set]
          split_ifs with hsame
          · subst hsame
            rw [hg, Nat.mod_add_mod]
          · rw [hg, Nat.add_zero]
        obtain ⟨freq', hrun, hfreq'⟩ := ih hnext
        refine ⟨freq', ?_, ?_⟩
        · rw [countFrequencies, if_pos hletter, bump, dif_pos hlt]
          exact hrun
        · intro a ha
          rw [hfreq' a ha, occurrences_cons c text ha, Nat.add_assoc, Nat.add_comm (ite _ _ _)]
          simp [hletter.1, hletter.2]
      · obtain ⟨freq', hrun, hfreq'⟩ := ih hload
        refine ⟨freq', ?_, ?_⟩
        · rw [countFrequencies, if_neg hletter]
          exact hrun
        · intro a ha
          rw [hfreq' a ha, occurrences_cons c text ha, if_neg fun h ↦ hletter h.1, Nat.add_zero]

/-- `maxf` after the letters up to the number `k`, if the letters occur as often as `f` says. -/
def threshold (f : ℕ → ℕ) : (k : ℕ) → ℕ
  | 0 => f 0
  | k + 1 => if f (k + 1) > threshold f k then k + 1 else threshold f k

section Scan

variable {freq : Frequencies} {f : ℕ → ℕ}

theorem scanMax_eq (hload : ∀ a < len, load freq a = .ok (f a)) :
    scanMax freq = .ok (threshold f (len - 1)) := by
  have hpos : 0 < len := by decide
  have hloop : ∀ k < len, (List.range' 1 k).foldlM (fun maxf i ↦ do
      let n ← load freq i
      return if n > maxf then i else maxf) (f 0) = .ok (threshold f k) := by
    intro k hk
    induction k with
    | zero => rfl
    | succ k ih =>
        rw [List.range'_1_concat, List.foldlM_append, ih (Nat.lt_of_succ_lt hk), Exec.ok_bind,
          List.foldlM_cons, hload (1 + k) (by omega), Nat.add_comm 1 k]
        rfl
  rw [scanMax, hload 0 hpos, Exec.ok_bind]
  exact hloop (len - 1) (Nat.sub_lt hpos Nat.zero_lt_one)

/-- The value does not change while no letter occurs more often than it says. -/
theorem threshold_stay {p k : ℕ} (hle : p ≤ k)
    (h : ∀ i, p < i → i ≤ k → f i ≤ threshold f p) : threshold f k = threshold f p := by
  induction k, hle using Nat.le_induction with
  | base => rfl
  | succ k hle ih =>
      have hk := ih fun i hi hik ↦ h i hi (Nat.le_succ_of_le hik)
      rw [threshold, hk, if_neg (Nat.not_lt.2 (h (k + 1) (Nat.lt_succ_of_le hle) le_rfl))]

theorem threshold_jump {p q : ℕ} (hlt : p < q) (hq : f q > threshold f p)
    (h : ∀ i, p < i → i < q → f i ≤ threshold f p) : threshold f q = q := by
  obtain ⟨k, rfl⟩ := Nat.exists_eq_succ_of_ne_zero (Nat.ne_zero_of_lt hlt)
  have hk := threshold_stay (Nat.le_of_lt_succ hlt) fun i hi hik ↦ h i hi (Nat.lt_succ_of_le hik)
  rw [threshold, hk, if_pos hq]

end Scan

/-! ## Printing -/

/-- The line of the bars with the number `i`. -/
def rowText (f : ℕ → ℕ) (i : ℕ) : Text :=
  padLeft blank 3 (numeral false 10 i) ++
    bar :: blank :: (List.range len).map fun a ↦ if f a ≥ i then star else blank

/-- The bars of some frequencies, from the row `top` downwards. -/
def bars (f : ℕ → ℕ) (top : ℕ) : Text :=
  unlines ((List.range' 1 top).reverse.map (rowText f) ++ [letters])

section Rows

variable {freq : Frequencies} {f : ℕ → ℕ}

theorem printRow_eq (hload : ∀ a < len, load freq a = .ok (f a)) (i : ℕ) :
    printRow freq i = .ok (rowText f i ++ [newline]) := by
  have hstars : ∀ as : List ℕ, (∀ a ∈ as, a < len) → as.mapM (fun j ↦ do
      let n ← load freq j
      return if n ≥ i then star else blank) =
        (.ok (as.map fun a ↦ if f a ≥ i then star else blank) : Exec Text) := by
    intro as has
    induction as with
    | nil => rfl
    | cons a as ih =>
        rw [List.mapM_cons, hload a (has a List.mem_cons_self), Exec.ok_bind,
          ih fun a' ha' ↦ has a' (List.mem_cons_of_mem a ha')]
        rfl
  rw [printRow, hstars _ fun a ha ↦ List.mem_range.1 ha, Exec.ok_bind, rowText]
  simp

theorem printRows_eq (hload : ∀ a < len, load freq a = .ok (f a)) (top : ℕ) :
    printRows freq top = .ok (unlines ((List.range' 1 top).reverse.map (rowText f))) := by
  induction top with
  | zero => rfl
  | succ i ih =>
      rw [printRows, printRow_eq hload, Exec.ok_bind, ih, Exec.ok_bind, List.range'_1_concat,
        List.reverse_append, List.map_append, Nat.add_comm 1 i]
      simp [unlines]

end Rows

/-- How often the program takes a letter to occur. -/
def counted (text : Text) (a : ℕ) : ℕ := occurrences text a % 2 ^ 32

/-- The program prints the bars from the frequency of the letter `maxf` downwards, if there is such
a letter. -/
theorem charfreq_eq (text : Text) :
    charfreq text =
      if threshold (counted text) (len - 1) < len then
        .ok (bars (counted text) (counted text (threshold (counted text) (len - 1))))
      else
        .error .outOfBounds := by
  have hzero : ∀ a < len, load (Vector.replicate len 0) a = .ok (0 % 2 ^ 32) := by decide
  obtain ⟨freq, hcount, hfreq⟩ := countFrequencies_eq text (g := fun _ ↦ 0) hzero
  have hload : ∀ a < len, load freq a = .ok (counted text a) := by
    intro a ha
    rw [hfreq a ha, Nat.zero_add, counted]
  rw [charfreq, hcount, Exec.ok_bind, scanMax_eq hload, Exec.ok_bind]
  split_ifs with hmax
  · rw [hload _ hmax, Exec.ok_bind, printRows_eq hload, Exec.ok_bind, bars]
    simp [unlines]
  · rw [load, dif_neg hmax]
    rfl

end Experimentation.Homework
