import Mathlib.Data.Finset.Lattice.Fold
import Mathlib.Data.List.TakeWhile
import Mathlib.Order.Lattice.Nat
import Experimentation.Homework.Charfreq

/-!
# Reading the histogram of `charfreq`

A reader of the histogram takes the numbers in front of the bars of the rows, and counts the stars
in the column of each letter.  These are right just when the letter that the program takes for the
most frequent one is one, which the numbers of the letters and their frequencies decide together.
-/

namespace Experimentation.Homework

open Semantics

/-- How often the most frequent letter of a text occurs. -/
def most (text : Text) : ℕ := (Finset.range len).sup (occurrences text)

/-- The number in front of the bar of a row. -/
def rowLabel (row : Text) : Option ℕ :=
  readNumeral 10 ((beforeBar row).dropWhile (· = blank))

/-- The character of a row for a letter, counted from the label of the row. -/
def afterLabel (_bottom : Text) (a : ℕ) (row : Text) : Option UInt8 :=
  (row.drop ((beforeBar row).length + 2))[a]?

/-- The character of a row in the column in which the letter itself is on the last line. -/
def aboveLetter (bottom : Text) (a : ℕ) (row : Text) : Option UInt8 :=
  row[bottom.idxOf (UInt8.ofNat (65 + a))]?

/-- What a histogram is for: it has as many rows as the most frequent letter occurs, with the
numbers from that one down to one, and as many stars in the column of each letter as the letter
occurs. -/
def Faithful (column : (bottom : Text) → (a : ℕ) → (row : Text) → Option UInt8)
    (text out : Text) : Prop :=
  (lines out).dropLast.map rowLabel = (List.range' 1 (most text)).reverse.map some ∧
    ∀ a < len, ((lines out).dropLast.countP fun row ↦
      column ((lines out).getLastD []) a row = some star) = occurrences text a

/-! ## The letter that is found -/

/-- The next letter after `p` that occurs more than `b` times. -/
def FirstAbove (f : ℕ → ℕ) (b p q : ℕ) : Prop :=
  p < q ∧ b < f q ∧ ∀ i, p < i → i < q → f i ≤ b

/-- A letter that is reached from the first one by going on to the next letter that occurs more
often than the number of the present one says, where one starts with a letter that occurs more often
than the first one does. -/
inductive Reached (f : ℕ → ℕ) : ℕ → Prop
  | first {q : ℕ} (h : FirstAbove f (f 0) 0 q) : Reached f q
  | next {p q : ℕ} (hp : Reached f p) (h : FirstAbove f p p q) : Reached f q

/-- The frequencies for which the program finds the largest one, `m`.  It does so if the letter with
the number `m` has it.  If a letter with a smaller number `p` has it, the first letter must have
less and no later one more than `p`.  A letter with a larger number must be reached. -/
def FindsMost (f : ℕ → ℕ) (m : ℕ) : Prop :=
  (m < len ∧ f m = m) ∨
    (f 0 < m ∧ ∃ p < len, p < m ∧ f p = m ∧ ∀ i, p < i → i < len → f i ≤ p) ∨
    ∃ p < len, m < p ∧ f p = m ∧ Reached f p

/-- What the loop may have found up to the letter `k`: the first letter, by how often it occurs, or
another letter, by its number. -/
def Found (f : ℕ → ℕ) (k t : ℕ) : Prop :=
  (t = f 0 ∧ ∀ i, 0 < i → i ≤ k → f i ≤ f 0) ∨
    t ≤ k ∧ Reached f t ∧ ∀ i, t < i → i ≤ k → f i ≤ t

section Reached

variable {f : ℕ → ℕ}

theorem Reached.threshold_eq {p : ℕ} (h : Reached f p) : threshold f p = p := by
  induction h with
  | first h =>
      obtain ⟨hlt, hq, hbetween⟩ := h
      exact threshold_jump hlt hq hbetween
  | next hp h ih =>
      obtain ⟨hlt, hq, hbetween⟩ := h
      exact threshold_jump hlt (by rwa [ih]) (by rwa [ih])

theorem Reached.exists_above {p : ℕ} (h : Reached f p) : ∃ q ≤ p, f 0 < f q := by
  induction h with
  | first h => exact ⟨_, le_rfl, h.2.1⟩
  | next hp h ih =>
      obtain ⟨q, hle, hq⟩ := ih
      exact ⟨q, hle.trans h.1.le, hq⟩

/-- The loop goes on to the next letter. -/
theorem Found.reached {k t : ℕ} (h : Found f k t) (hjump : t < f (k + 1)) : Reached f (k + 1) := by
  rcases h with ⟨rfl, hbefore⟩ | ⟨hle, hreached, hafter⟩
  · exact .first ⟨k.succ_pos, hjump, fun i hi hlt ↦ hbefore i hi (Nat.le_of_lt_succ hlt)⟩
  · exact hreached.next ⟨Nat.lt_succ_of_le hle, hjump, fun i hi hlt ↦
      hafter i hi (Nat.le_of_lt_succ hlt)⟩

theorem threshold_found (f : ℕ → ℕ) (k : ℕ) : Found f k (threshold f k) := by
  induction k with
  | zero => exact .inl ⟨rfl, fun i hi hle ↦ absurd hi (Nat.not_lt.2 hle)⟩
  | succ k ih =>
      rw [threshold]
      split_ifs with hjump
      · exact .inr ⟨le_rfl, ih.reached hjump, fun i hi hle ↦ absurd hi (Nat.not_lt.2 hle)⟩
      · rw [gt_iff_lt, not_lt] at hjump
        refine ih.imp ?_ ?_
        · rintro ⟨heq, hbefore⟩
          refine ⟨heq, fun i hi hle ↦ ?_⟩
          rcases Nat.le_succ_iff.1 hle with hle | rfl
          · exact hbefore i hi hle
          · exact heq ▸ hjump
        · rintro ⟨hle, hreached, hafter⟩
          refine ⟨Nat.le_succ_of_le hle, hreached, fun i hi hik ↦ ?_⟩
          rcases Nat.le_succ_iff.1 hik with hik | rfl
          · exact hafter i hi hik
          · exact hjump

/-- A letter is reached if it occurs at least as often as its number says, and more often than the
first one. -/
theorem reached_of_le {p : ℕ} (hzero : f 0 < f p) (hle : p ≤ f p) : Reached f p := by
  have hne : p ≠ 0 := fun heq ↦ absurd hzero (by rw [heq]; exact lt_irrefl _)
  obtain ⟨k, rfl⟩ := Nat.exists_eq_succ_of_ne_zero hne
  have hfound := threshold_found f k
  refine hfound.reached ?_
  rcases hfound with ⟨heq, _⟩ | ⟨hbelow, _⟩
  · rwa [heq]
  · exact (Nat.lt_succ_of_le hbelow).trans_le hle

theorem threshold_congr {g : ℕ → ℕ} {k : ℕ} (h : ∀ i ≤ k, f i = g i) :
    threshold f k = threshold g k := by
  induction k with
  | zero => exact h 0 le_rfl
  | succ k ih =>
      rw [threshold, threshold, ih fun i hi ↦ h i (Nat.le_succ_of_le hi), h (k + 1) le_rfl]

/-- The loop ends with a letter that is reached if no later one occurs more often than its number
says. -/
theorem Reached.threshold_last {p : ℕ} (h : Reached f p) (hlt : p < len)
    (hafter : ∀ i, p < i → i < len → f i ≤ p) : threshold f (len - 1) = p := by
  have hstay : threshold f (len - 1) = threshold f p := by
    apply threshold_stay (Nat.le_sub_one_of_lt hlt)
    intro i hi hik
    rw [h.threshold_eq]
    exact hafter i hi (Nat.lt_of_le_sub_one (by decide) hik)
  rw [hstay, h.threshold_eq]

theorem findsMost_iff {m : ℕ} (hmost : ∀ a < len, f a ≤ m) :
    FindsMost f m ↔ threshold f (len - 1) < len ∧ f (threshold f (len - 1)) = m := by
  have hlast : ∀ {i}, i ≤ len - 1 → i < len := fun hi ↦ Nat.lt_of_le_sub_one (by decide) hi
  constructor
  · rintro (⟨hlt, hm⟩ | ⟨hzero, p, hlt, hpm, hp, hafter⟩ | ⟨p, hlt, hmp, hp, hreached⟩)
    · have hfound : threshold f (len - 1) = m := by
        rcases (hmost 0 (by decide)).eq_or_lt with hzero | hzero
        · have hstay : threshold f (len - 1) = threshold f 0 := by
            apply threshold_stay (Nat.zero_le _)
            intro i _ hi
            exact (hmost i (hlast hi)).trans hzero.ge
          rw [hstay, threshold, hzero]
        · exact (reached_of_le (hm.symm ▸ hzero) hm.ge).threshold_last hlt fun i _ hi ↦ hmost i hi
      rw [hfound]
      exact ⟨hlt, hm⟩
    · rw [(reached_of_le (hp.symm ▸ hzero) (hp.symm ▸ hpm.le)).threshold_last hlt hafter]
      exact ⟨hlt, hp⟩
    · rw [hreached.threshold_last hlt fun i _ hi ↦ (hmost i hi).trans hmp.le]
      exact ⟨hlt, hp⟩
  · rintro ⟨hlt, hm⟩
    rcases threshold_found f (len - 1) with ⟨heq, hall⟩ | ⟨_, hreached, hafter⟩
    · rw [heq] at hlt hm
      have hle : f (f 0) ≤ f 0 := by
        rcases Nat.eq_zero_or_pos (f 0) with hzero | hpos
        · rw [hzero]
          exact hzero.le
        · exact hall (f 0) hpos (Nat.le_sub_one_of_lt hlt)
      have hzero : f 0 = m := le_antisymm (hmost 0 (by decide)) (hm ▸ hle)
      rw [hzero] at hlt hm
      exact .inl ⟨hlt, hm⟩
    · generalize threshold f (len - 1) = p at *
      rcases lt_trichotomy p m with hpm | rfl | hmp
      · obtain ⟨q, hqp, hq⟩ := hreached.exists_above
        have hzero : f 0 < m := hq.trans_le (hmost q (hqp.trans_lt hlt))
        exact .inr (.inl ⟨hzero, p, hlt, hpm, hm, fun i hi hi' ↦
          hafter i hi (Nat.le_sub_one_of_lt hi')⟩)
      · exact .inl ⟨hlt, hm⟩
      · exact .inr (.inr ⟨p, hlt, hmp, hm, hreached⟩)

end Reached

section Rows

variable {f : ℕ → ℕ} {a i : ℕ}

/-- The label of a row, without the bar. -/
def label (i : ℕ) : Text := padLeft blank 3 (numeral false 10 i)

theorem digitValue_ne_none_of_mem_numeral {c : UInt8} (h : c ∈ numeral false 10 i) :
    digitValue c ≠ none := by
  have hpad : c ∈ padLeft (digit false 0) 0 (numeral false 10 i) := by simpa [padLeft] using h
  exact digitValue_ne_none (by decide) (by decide) hpad

theorem mem_label {c : UInt8} (h : c ∈ label i) : c = blank ∨ digitValue c ≠ none := by
  rcases List.mem_append.1 h with hblank | hnumeral
  · exact .inl (List.eq_of_mem_replicate hblank)
  · exact .inr (digitValue_ne_none_of_mem_numeral hnumeral)

theorem beforeBar_rowText (f : ℕ → ℕ) (i : ℕ) : beforeBar (rowText f i) = label i := by
  apply beforeBar_append
  intro hbar
  exact absurd (mem_label hbar) (by decide)

theorem rowLabel_rowText (f : ℕ → ℕ) (i : ℕ) : rowLabel (rowText f i) = some i := by
  have hread : readNumeral 10 (padLeft (digit false 0) 0 (numeral false 10 i)) = some i :=
    readNumeral_padLeft (by decide) (by decide) 0
  have hhead : (numeral false 10 i).dropWhile (· = blank) = numeral false 10 i := by
    rw [List.dropWhile_eq_self_iff]
    intro hpos hblank
    have hdigit := digitValue_ne_none_of_mem_numeral (List.getElem_mem hpos)
    rw [of_decide_eq_true hblank] at hdigit
    exact hdigit (by decide)
  have hblanks : (label i).dropWhile (· = blank) = numeral false 10 i := by
    rw [label, padLeft, List.dropWhile_append_of_pos, hhead]
    intro c hc
    exact decide_eq_true (List.eq_of_mem_replicate hc)
  rw [rowLabel, beforeBar_rowText, hblanks, ← hread, padLeft]
  simp

theorem afterLabel_rowText (bottom : Text) (ha : a < len) :
    afterLabel bottom a (rowText f i) = some (if f a ≥ i then star else blank) := by
  have hdrop : (rowText f i).drop ((label i).length + 2) =
      (List.range len).map fun a ↦ if f a ≥ i then star else blank := by
    rw [rowText, ← label, List.drop_append]
    simp
  rw [afterLabel, beforeBar_rowText, hdrop]
  simp [ha]

theorem idxOf_letters (ha : a < len) : letters.idxOf (UInt8.ofNat (65 + a)) = 5 + a := by
  have hall : ∀ a < len, letters.idxOf (UInt8.ofNat (65 + a)) = 5 + a := by decide
  exact hall a ha

theorem aboveLetter_rowText (ha : a < len) (hi : i < 1000) :
    aboveLetter letters a (rowText f i) = some (if f a ≥ i then star else blank) := by
  have hlength : (label i).length = 3 :=
    length_padLeft ((length_numeral_le_iff (by decide) (by decide)).2 hi)
  calc
    _ = (rowText f i)[5 + a]? := by rw [aboveLetter, idxOf_letters ha]
    _ = afterLabel letters a (rowText f i) := by
      rw [afterLabel, beforeBar_rowText, hlength, List.getElem?_drop]
    _ = _ := afterLabel_rowText letters ha

theorem exists_of_aboveLetter (ha : a < len) (hi : 1000 ≤ i)
    (h : aboveLetter letters a (rowText f i) = some star) : ∃ b < a, i ≤ f b := by
  have hlength : 3 < (label i).length := by
    have hnumeral : ¬ (numeral false 10 i).length ≤ 3 := by
      rw [length_numeral_le_iff (by decide) (by decide)]
      omega
    rw [label, padLeft, List.length_append]
    omega
  have hlabel : star ∉ label i ++ [bar, blank] := by
    intro hstar
    rcases List.mem_append.1 hstar with hstar | hstar
    · exact absurd (mem_label hstar) (by decide)
    · exact absurd hstar (by decide)
  have hsplit : rowText f i = (label i ++ [bar, blank]) ++
      (List.range len).map fun a ↦ if f a ≥ i then star else blank := by
    rw [rowText, ← label]
    simp
  have hprefix : (label i ++ [bar, blank]).length = (label i).length + 2 := by simp
  rw [aboveLetter, idxOf_letters ha, hsplit] at h
  by_cases hlt : 5 + a < (label i ++ [bar, blank]).length
  · rw [List.getElem?_append_left hlt] at h
    exact absurd (List.mem_of_getElem? h) hlabel
  · rw [List.getElem?_append_right (Nat.le_of_not_lt hlt), List.getElem?_map,
      Option.map_eq_some_iff] at h
    obtain ⟨b, hb, hstar⟩ := h
    rw [List.getElem?_eq_some_iff] at hb
    obtain ⟨_, hb⟩ := hb
    rw [List.getElem_range] at hb
    refine ⟨b, by omega, ?_⟩
    by_contra hsmall
    rw [if_neg hsmall] at hstar
    exact absurd hstar (by decide)

theorem newline_notMem_rowText (f : ℕ → ℕ) (i : ℕ) : newline ∉ rowText f i := by
  rw [rowText, List.mem_append, List.mem_cons, List.mem_cons]
  rintro (hlabel | hbar | hblank | hstars)
  · exact absurd (mem_label hlabel) (by decide)
  · exact absurd hbar (by decide)
  · exact absurd hblank (by decide)
  · obtain ⟨a, _, hstar⟩ := List.mem_map.1 hstars
    split_ifs at hstar
    · exact absurd hstar (by decide)
    · exact absurd hstar (by decide)

theorem lines_bars (f : ℕ → ℕ) (top : ℕ) :
    lines (bars f top) = (List.range' 1 top).reverse.map (rowText f) ++ [letters] := by
  apply lines_unlines
  intro line hline
  rcases List.mem_append.1 hline with hrow | hletters
  · obtain ⟨i, _, rfl⟩ := List.mem_map.1 hrow
    exact newline_notMem_rowText f i
  · rw [List.mem_singleton.1 hletters]
    decide

end Rows

/-! ## The histogram -/

section Histogram

variable {text : Text} {f : ℕ → ℕ} {top : ℕ}

theorem countP_range'_le (top n : ℕ) : (List.range' 1 top).countP (· ≤ n) = min top n := by
  induction top with
  | zero => simp
  | succ top ih =>
      rw [List.range'_1_concat, List.countP_append, ih, List.countP_singleton]
      simp only [decide_eq_true_eq]
      split_ifs <;> omega

theorem faithful_bars_iff (column : Text → ℕ → Text → Option UInt8) :
    Faithful column text (bars f top) ↔ top = most text ∧ ∀ a < len,
      ((List.range' 1 top).countP fun i ↦ column letters a (rowText f i) = some star) =
        occurrences text a := by
  have hlabels : ((List.range' 1 top).reverse.map (rowText f)).map rowLabel =
      (List.range' 1 top).reverse.map some := by
    rw [List.map_map]
    exact List.map_congr_left fun i _ ↦ rowLabel_rowText f i
  rw [Faithful, lines_bars, List.dropLast_concat, hlabels]
  apply and_congr
  · constructor
    · intro h
      simpa using congrArg List.length h
    · intro h
      rw [h]
  · simp [List.countP_map, Function.comp_def]

theorem countP_afterLabel {a : ℕ} (ha : a < len) :
    ((List.range' 1 top).countP fun i ↦ afterLabel letters a (rowText f i) = some star) =
      min top (f a) := by
  rw [← countP_range'_le]
  apply List.countP_congr
  intro i _
  rw [afterLabel_rowText letters ha]
  split_ifs with hle
  · simpa using hle
  · simpa [star, blank] using hle

theorem occurrences_le_most {a : ℕ} (ha : a < len) : occurrences text a ≤ most text :=
  Finset.le_sup (f := occurrences text) (Finset.mem_range.2 ha)

theorem counted_eq (hmost : most text < 2 ^ 32) {a : ℕ} (ha : a < len) :
    counted text a = occurrences text a :=
  Nat.mod_eq_of_lt ((occurrences_le_most ha).trans_lt hmost)

theorem counted_threshold_iff : (threshold (counted text) (len - 1) < len ∧
      counted text (threshold (counted text) (len - 1)) = most text) ↔
    most text < 2 ^ 32 ∧ FindsMost (occurrences text) (most text) := by
  have hlast : ∀ i ≤ len - 1, i < len := fun i hi ↦ by
    unfold len at hi ⊢
    omega
  by_cases hmost : most text < 2 ^ 32
  · have hsame : threshold (counted text) (len - 1) = threshold (occurrences text) (len - 1) :=
      threshold_congr fun i hi ↦ counted_eq hmost (hlast i hi)
    rw [findsMost_iff fun a ha ↦ occurrences_le_most ha, hsame]
    constructor
    · rintro ⟨hlt, hfound⟩
      rw [counted_eq hmost hlt] at hfound
      exact ⟨hmost, hlt, hfound⟩
    · rintro ⟨_, hlt, hfound⟩
      rw [counted_eq hmost hlt]
      exact ⟨hlt, hfound⟩
  · constructor
    · rintro ⟨_, hfound⟩
      rw [← hfound] at hmost
      exact absurd (Nat.mod_lt _ (by decide)) hmost
    · exact fun h ↦ absurd h.1 hmost

theorem exists_faithful_iff (column : Text → ℕ → Text → Option UInt8) :
    (∃ out, charfreq text = .ok out ∧ Faithful column text out) ↔
      (most text < 2 ^ 32 ∧ FindsMost (occurrences text) (most text)) ∧ ∀ a < len,
        ((List.range' 1 (most text)).countP fun i ↦
          column letters a (rowText (counted text) i) = some star) = occurrences text a := by
  rw [← counted_threshold_iff, charfreq_eq]
  constructor
  · rintro ⟨out, hrun, hfaithful⟩
    split_ifs at hrun with hlt
    cases hrun
    obtain ⟨hfound, hstars⟩ := (faithful_bars_iff column).1 hfaithful
    rw [hfound] at hstars
    exact ⟨⟨hlt, hfound⟩, hstars⟩
  · rintro ⟨⟨hlt, hfound⟩, hstars⟩
    rw [if_pos hlt, hfound]
    exact ⟨_, rfl, (faithful_bars_iff column).2 ⟨rfl, hstars⟩⟩

theorem countP_afterLabel_counted (hmost : most text < 2 ^ 32) {a : ℕ} (ha : a < len) :
    ((List.range' 1 (most text)).countP fun i ↦
      afterLabel letters a (rowText (counted text) i) = some star) = occurrences text a := by
  rw [countP_afterLabel ha, counted_eq hmost ha, Nat.min_eq_right (occurrences_le_most ha)]

/-- The stars above the letters are right if, besides, no label is longer than three characters. -/
theorem countP_aboveLetter_iff (hmost : most text < 2 ^ 32) :
    (∀ a < len, ((List.range' 1 (most text)).countP fun i ↦
      aboveLetter letters a (rowText (counted text) i) = some star) = occurrences text a) ↔
      most text < 1000 := by
  constructor
  · intro h
    by_contra hlong
    have hex : ∃ a, a < len ∧ 1000 ≤ occurrences text a := by
      by_contra hnone
      simp only [not_exists, not_and, not_le] at hnone
      have hsup : most text < 1000 := (Finset.sup_lt_iff (by decide)).2 fun a ha ↦
        hnone a (Finset.mem_range.1 ha)
      exact hlong hsup
    -- the first letter that occurs more than 999 times lacks the stars of the longer labels
    obtain ⟨ha, hmany⟩ := Nat.find_spec hex
    have hshort : ((List.range' 1 (most text)).countP fun i ↦
        aboveLetter letters (Nat.find hex) (rowText (counted text) i) = some star) ≤ 999 := by
      calc
        _ ≤ (List.range' 1 (most text)).countP (· ≤ 999) := by
          apply List.countP_mono_left
          intro i _ hstar
          rw [decide_eq_true_eq] at hstar ⊢
          by_contra hrow
          obtain ⟨b, hb, hle⟩ := exists_of_aboveLetter ha (Nat.lt_of_not_le hrow) hstar
          rw [counted_eq hmost (hb.trans ha)] at hle
          exact Nat.find_min hex hb ⟨hb.trans ha, by omega⟩
        _ = min (most text) 999 := countP_range'_le _ _
        _ ≤ 999 := Nat.min_le_right _ _
    have heq := h _ ha
    omega
  · intro hshort a ha
    rw [← countP_afterLabel_counted hmost ha]
    apply List.countP_congr
    intro i hi
    rw [List.mem_range'_1] at hi
    rw [aboveLetter_rowText ha (by omega), afterLabel_rowText letters ha]

/-- The histogram is right just when the letters have the largest frequency where the program looks
for it.  In the columns above the letters on the last line, it is so if there are less than a
thousand rows, besides. -/
theorem charfreq_faithful_iff (text : Text) :
    ((∃ out, charfreq text = .ok out ∧ Faithful afterLabel text out) ↔
      most text < 2 ^ 32 ∧ FindsMost (occurrences text) (most text)) ∧
    ((∃ out, charfreq text = .ok out ∧ Faithful aboveLetter text out) ↔
      most text < 1000 ∧ FindsMost (occurrences text) (most text)) := by
  rw [exists_faithful_iff, exists_faithful_iff]
  constructor
  · constructor
    · exact fun h ↦ h.1
    · exact fun h ↦ ⟨h, fun a ha ↦ countP_afterLabel_counted h.1 ha⟩
  · constructor
    · rintro ⟨⟨hmost, hfinds⟩, hstars⟩
      exact ⟨(countP_aboveLetter_iff hmost).1 hstars, hfinds⟩
    · rintro ⟨hshort, hfinds⟩
      have hmost : most text < 2 ^ 32 := hshort.trans (by decide)
      exact ⟨⟨hmost, hfinds⟩, (countP_aboveLetter_iff hmost).2 hshort⟩

end Histogram

/-- A single letter gets no bar, and twenty-six of them lead out of the array. -/
theorem charfreq_not_faithful :
    (charfreq (ascii "a") = .ok (letters ++ [newline]) ∧
      ∀ column, ¬ Faithful column (ascii "a") (letters ++ [newline])) ∧
    charfreq (List.replicate 26 65) = .error .outOfBounds := by
  have hout : letters ++ [newline] = bars (counted (ascii "a")) 0 := by decide
  refine ⟨⟨?_, fun column hfaithful ↦ ?_⟩, ?_⟩
  · rw [charfreq_eq]
    decide
  · rw [hout, faithful_bars_iff] at hfaithful
    exact absurd hfaithful.1 (by decide)
  · rw [charfreq_eq]
    decide

end Experimentation.Homework
