import Experimentation.Semantics.Streams

/-!
# Lines and words

A text that is printed for a reader is made of lines, each ended by a line feed, and a line of words
with blanks between them, or of a label in front of a bar.  Reading the lines back from such a text,
or the words from such a line, gives what was printed.
-/

namespace Experimentation.Semantics

def newline : UInt8 := 10

def blank : UInt8 := 32

theorem mapM_map_eq_some {α β : Type} {print : α → β} {read : β → Option α} {as : List α}
    (h : ∀ a ∈ as, read (print a) = some a) : (as.map print).mapM read = some as := by
  induction as with
  | nil => rfl
  | cons a as ih =>
      rw [List.map_cons, List.mapM_cons, h a List.mem_cons_self,
        ih fun a' ha' ↦ h a' (List.mem_cons_of_mem a ha')]
      rfl

/-- Texts with an end mark after the first part have the same parts if they are the same. -/
theorem append_cons_inj {c : UInt8} {t t' u u' : Text} (ht : c ∉ t) (ht' : c ∉ t') :
    t ++ c :: u = t' ++ c :: u' ↔ t = t' ∧ u = u' := by
  constructor
  · intro heq
    have hsplit := congrArg (List.splitOn c) heq
    rw [List.splitOn_append_cons_self_of_not_mem ht, List.splitOn_append_cons_self_of_not_mem ht',
      List.cons.injEq] at hsplit
    rw [hsplit.1, List.append_cancel_left_eq, List.cons.injEq] at heq
    exact ⟨hsplit.1, heq.2⟩
  · rintro ⟨rfl, rfl⟩
    rfl

/-- The lines that a text ends, one after the other. -/
def lines (t : Text) : List Text := (t.splitOn newline).dropLast

/-- The text made of some lines. -/
def unlines (ls : List Text) : Text := ls.flatMap fun l ↦ l ++ [newline]

@[simp]
theorem lines_nil : lines [] = [] := rfl

theorem lines_append {l : Text} (hl : newline ∉ l) (t : Text) :
    lines (l ++ newline :: t) = l :: lines t := by
  rw [lines, List.splitOn_append_cons_self_of_not_mem hl,
    List.dropLast_cons_of_ne_nil (List.splitOn_ne_nil _ _), lines]

theorem lines_unlines {ls : List Text} (h : ∀ l ∈ ls, newline ∉ l) : lines (unlines ls) = ls := by
  induction ls with
  | nil => rfl
  | cons l ls ih =>
      have happend : unlines (l :: ls) = l ++ newline :: unlines ls := by
        rw [unlines, List.flatMap_cons, List.append_assoc]
        rfl
      rw [happend, lines_append (h l List.mem_cons_self),
        ih fun l' hl' ↦ h l' (List.mem_cons_of_mem l hl')]

/-! ## Words -/

/-- The words of a line. -/
def words (t : Text) : List Text := (t.splitOn blank).filter (· ≠ [])

@[simp]
theorem words_nil : words [] = [] := rfl

theorem words_append {w : Text} (hne : w ≠ []) (hw : blank ∉ w) (t : Text) :
    words (w ++ blank :: t) = w :: words t := by
  rw [words, List.splitOn_append_cons_self_of_not_mem hw, List.filter_cons_of_pos (by simpa), words]

@[simp]
theorem words_blank (t : Text) : words (blank :: t) = words t := by
  have hsplit := List.splitOn_append_cons_self_of_not_mem (List.not_mem_nil (a := blank)) t
  rw [List.nil_append] at hsplit
  rw [words, hsplit, List.filter_cons_of_neg (by simp), words]

theorem words_blanks {t : Text} (h : ∀ c ∈ t, c = blank) (t' : Text) :
    words (t ++ t') = words t' := by
  induction t with
  | nil => rfl
  | cons c t ih =>
      have hc : c = blank := h c List.mem_cons_self
      rw [List.cons_append, hc, words_blank, ih fun c' hc' ↦ h c' (List.mem_cons_of_mem c hc')]

/-! ## Labels -/

/-- The character that ends the label of a line. -/
def bar : UInt8 := 124

/-- What a line has before its first bar. -/
def beforeBar (line : Text) : Text := line.takeWhile (· ≠ bar)

theorem beforeBar_append {t : Text} (h : bar ∉ t) (t' : Text) : beforeBar (t ++ bar :: t') = t := by
  have hall : ∀ c ∈ t, decide (c ≠ bar) = true := fun c hc ↦
    decide_eq_true fun hbar ↦ h (hbar ▸ hc)
  rw [beforeBar, List.takeWhile_append_of_pos hall, List.takeWhile_cons_of_neg (by simp),
    List.append_nil]

end Experimentation.Semantics
