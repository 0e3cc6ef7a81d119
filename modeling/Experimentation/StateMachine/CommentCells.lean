import Experimentation.Semantics.Comments
import Experimentation.StateMachine.CommentProgram

/-!
# Comments in a file that is read into a buffer

A content is cut where a line ends or the buffer is full.  Each of its bytes is looked at together
with the byte that is behind it in the buffer, so that the delimiters of the content can be compared
with those that can be seen in the buffer.
-/

namespace Experimentation.StateMachine.CommentRemoval

open Semantics

/-! ## Comments -/

/-- The delimiters of comments in C. -/
def delimiters : Delimiters UInt8 where
  opens a b := a == slash && b == star
  closes a b := a == star && b == slash

/-- The content with every comment removed. -/
def removeComments (content : Text) : Text := delimiters.strip false content

theorem delimiters_turns_nul (inside : Bool) (a : UInt8) : delimiters.turns inside a 0 = false := by
  cases inside with
  | false => exact Bool.and_false _
  | true => exact Bool.and_false _

/-- A byte of the content, with the byte behind it in the buffer that it is read into. -/
structure Cell where
  byte : UInt8
  next : UInt8
deriving DecidableEq, Repr

/-- The cells of a line that is in the buffer. -/
def bufCells : Text → List Cell
  | [] => []
  | c :: l => ⟨c, l.headD 0⟩ :: bufCells l

/-- The cells of a content, when `room` more bytes fit in the buffer.  A line that does not fit is
continued in the next buffer. -/
def cells : (room : ℕ) → Text → List Cell
  | _, [] => []
  | room, c :: l =>
      if c = newline ∨ room = 1 then ⟨c, 0⟩ :: cells (bufSize - 1) l
      else ⟨c, l.headD 0⟩ :: cells (room - 1) l

/-- The cells of a file. -/
def fileCells (content : Text) : List Cell := cells (bufSize - 1) content

/-- The delimiters that can be seen in the buffer. -/
def bufDelimiters : Delimiters Cell where
  opens c _ := delimiters.opens c.byte c.next
  closes c _ := delimiters.closes c.byte c.next

/-- The delimiters of the content. -/
def cellDelimiters : Delimiters Cell := delimiters.comap Cell.byte

theorem bufDelimiters_turns (inside : Bool) (c c' : Cell) :
    bufDelimiters.turns inside c c' = delimiters.turns inside c.byte c.next := by
  cases inside with
  | false => rfl
  | true => rfl

theorem cellDelimiters_turns (inside : Bool) (c c' : Cell) :
    cellDelimiters.turns inside c c' = delimiters.turns inside c.byte c'.byte :=
  delimiters.comap_turns Cell.byte inside c c'

theorem map_byte_cells (room : ℕ) (content : Text) :
    (cells room content).map Cell.byte = content := by
  induction content generalizing room with
  | nil => rfl
  | cons c l ih =>
      rw [cells]
      split
      · rw [List.map_cons, ih]
      · rw [List.map_cons, ih]

theorem byte_of_head_cells (room : ℕ) (content : Text) :
    ∀ c ∈ (cells room content).head?, content.headD 0 = c.byte := by
  cases content with
  | nil => exact fun c hc ↦ by cases hc
  | cons a l =>
      rw [cells]
      split
      · exact fun c hc ↦ by cases hc; rfl
      · exact fun c hc ↦ by cases hc; rfl

/-- The byte behind another one in the buffer is the next one of the content, or ends the buffer. -/
theorem cells_isChain (room : ℕ) (content : Text) :
    (cells room content).IsChain fun a b ↦ a.next = b.byte ∨ a.next = 0 := by
  induction content generalizing room with
  | nil => exact .nil
  | cons c l ih =>
      rw [cells]
      split
      · exact (ih _).cons fun b _ ↦ .inr rfl
      · exact (ih _).cons fun b hb ↦ .inl (byte_of_head_cells _ l b hb)

/-- No delimiter of the content has its two characters in different buffers. -/
def Unsplit (content : Text) : Prop :=
  ∀ c ∈ cellDelimiters.firsts false (fileCells content), c.next ≠ 0

theorem strip_bufDelimiters {content : Text} (hunsplit : Unsplit content) :
    bufDelimiters.strip false (fileCells content) =
      cellDelimiters.strip false (fileCells content) := by
  refine Delimiters.strip_congr ((cells_isChain _ _).imp fun a b hnext inside hsplit ↦ ?_) hunsplit
  rw [cellDelimiters_turns] at hsplit
  rw [bufDelimiters_turns, cellDelimiters_turns]
  rcases hnext with hnext | hnext
  · rw [hnext]
  · have hstay : delimiters.turns inside a.byte b.byte = false :=
      eq_false_of_ne_true fun hturns ↦ hsplit hturns hnext
    rw [hstay, hnext, delimiters_turns_nul]

/-- When lines are short, only newlines end a buffer.  `run` is what the buffer holds already of the
first line. -/
theorem cells_isChain_of_lines (run : Text) {content : Text} {room : ℕ} (hrun : newline ∉ run)
    (hroom : run.length + room = bufSize - 1)
    (hlines : ∀ l, l <:+: run ++ content → newline ∉ l → l.length < bufSize - 1) :
    (cells room content).IsChain fun a b ↦ a.next = b.byte ∨ a.byte = newline := by
  induction content generalizing run room with
  | nil => exact .nil
  | cons c l ih =>
      by_cases hline : c = newline
      · rw [cells, if_pos (.inl hline)]
        refine (ih [] List.not_mem_nil (Nat.zero_add _) fun l' hl' ↦ ?_).cons fun b _ ↦ .inr hline
        exact hlines l' (hl'.trans ((List.suffix_cons c l).isInfix.trans
          (List.suffix_append run (c :: l)).isInfix))
      · have hlonger : newline ∉ run ++ [c] := by
          rw [List.mem_append, List.mem_singleton, not_or]
          exact ⟨hrun, Ne.symm hline⟩
        rw [List.append_cons] at hlines
        have hlength := hlines (run ++ [c]) (List.prefix_append _ l).isInfix hlonger
        rw [List.length_append, List.length_singleton] at hlength
        have hroom' : (run ++ [c]).length + (room - 1) = bufSize - 1 := by
          rw [List.length_append, List.length_singleton]
          omega
        rw [cells, if_neg (not_or.2 ⟨hline, by omega⟩)]
        exact (ih (run ++ [c]) hlonger hroom' hlines).cons fun b hb ↦
          .inl (byte_of_head_cells _ l b hb)

theorem unsplit_of_lines {content : Text}
    (hlines : ∀ l, l <:+: content → newline ∉ l → l.length < bufSize - 1) : Unsplit content := by
  have hchain := cells_isChain_of_lines [] List.not_mem_nil (Nat.zero_add _) hlines
  refine cellDelimiters.forall_firsts (hchain.imp fun a b hnext inside hturns hnul ↦ ?_)
  rw [cellDelimiters_turns] at hturns
  rcases hnext with hnext | hline
  · rw [← hnext, hnul, delimiters_turns_nul] at hturns
    cases hturns
  · have hstay : delimiters.turns inside newline b.byte = false := by
      cases inside with
      | false => rfl
      | true => rfl
    rw [hline, hstay] at hturns
    cases hturns

/-! ## Lines -/

section Reading

variable {n : ℕ} {content : Text}

theorem readLine_append (n : ℕ) (content : Text) :
    (readLine n content).1 ++ (readLine n content).2.1 = content := by
  induction n, content using readLine.induct with
  | case1 rest => rfl
  | case2 n => rfl
  | case3 n rest =>
      rw [readLine, if_pos rfl]
      rfl
  | case4 n c rest hline ih =>
      rw [readLine, if_neg hline]
      exact congrArg (c :: ·) ih

theorem readLine_length_le (n : ℕ) (content : Text) : (readLine n content).1.length ≤ n := by
  induction n, content using readLine.induct with
  | case1 rest => exact le_rfl
  | case2 n => exact Nat.zero_le _
  | case3 n rest =>
      rw [readLine, if_pos rfl]
      exact Nat.le_add_left 1 n
  | case4 n c rest hline ih =>
      rw [readLine, if_neg hline]
      exact Nat.succ_le_succ ih

theorem readLine_rest (h : (readLine n content).2.2 = true) : (readLine n content).2.1 = [] := by
  induction n, content using readLine.induct with
  | case1 rest => cases h
  | case2 n => rfl
  | case3 n rest =>
      rw [readLine, if_pos rfl] at h
      cases h
  | case4 n c rest hline ih =>
      rw [readLine, if_neg hline] at h ⊢
      exact ih h

theorem readLine_headD (hn : 0 < n) (content : Text) :
    (readLine n content).1.headD 0 = content.headD 0 := by
  obtain ⟨n, rfl⟩ := Nat.exists_eq_succ_of_ne_zero hn.ne'
  cases content with
  | nil => rfl
  | cons c rest =>
      rw [readLine]
      split
      · rfl
      · rfl

theorem cells_eq_append (hn : 0 < n) (content : Text) :
    cells n content = bufCells (readLine n content).1 ++ fileCells (readLine n content).2.1 := by
  induction n, hn using Nat.le_induction generalizing content with
  | base =>
      cases content with
      | nil => rfl
      | cons c rest =>
          rw [cells, if_pos (.inr rfl), readLine]
          split
          · rfl
          · rfl
  | succ n hn ih =>
      cases content with
      | nil => rfl
      | cons c rest =>
          rw [cells, readLine]
          by_cases hline : c = newline
          · rw [if_pos (.inl hline), if_pos hline]
            rfl
          · rw [if_neg (not_or.2 ⟨hline, by omega⟩), if_neg hline, Nat.add_sub_cancel, ih,
              ← readLine_headD hn]
            rfl

theorem readLine_atEnd (hn : 0 < n) (h : (readLine n content).1 = []) :
    (readLine n content).2.2 = true := by
  obtain ⟨n, rfl⟩ := Nat.exists_eq_succ_of_ne_zero hn.ne'
  cases content with
  | nil => rfl
  | cons c rest =>
      rw [readLine] at h
      split at h
      · cases h
      · cases h

theorem exists_readLine (content : Text) : ∃ line rest atEnd,
    readLine (bufSize - 1) content = (line, rest, atEnd) ∧ line ++ rest = content ∧
      line.length < bufSize ∧ fileCells content = bufCells line ++ fileCells rest ∧
      (line = [] → atEnd = true) ∧ (atEnd = true → rest = []) := by
  have hpos : 0 < bufSize - 1 := by decide
  have hroom : bufSize - 1 < bufSize := by decide
  exact ⟨_, _, _, rfl, readLine_append _ content, (readLine_length_le _ content).trans_lt hroom,
    cells_eq_append hpos content, readLine_atEnd hpos, readLine_rest⟩

end Reading

theorem bufCells_getLast? {line : Text} : ∀ c ∈ (bufCells line).getLast?, c.next = 0 := by
  induction line with
  | nil => exact fun c hc ↦ by cases hc
  | cons a line ih =>
      cases line with
      | nil =>
          intro c hc
          cases hc
          rfl
      | cons b line =>
          intro c hc
          rw [bufCells, bufCells, List.getLast?_cons_cons] at hc
          exact ih c hc

end Experimentation.StateMachine.CommentRemoval
