import Experimentation.StateMachine.CommentCells

/-!
# What the program prints

The machine goes in and out of comments as a scan does that sees only the delimiters within one
buffer.  The program prints what this scan keeps or, when the data argument is evaluated late, what
is behind it in the buffer.
-/

namespace Experimentation.StateMachine.CommentRemoval

open Semantics

/-! ## Parsing -/

/-- The byte that the data of an event points to, when the pointer was at a cell. -/
def ArgOrder.select : ArgOrder → Cell → UInt8
  | .keyFirst, c => c.next
  | .dataFirst, c => c.byte

/-- The calls of `print_char` for the cells that are kept. -/
def prints (order : ArgOrder) (cs : List Cell) : List (Action × UInt8) :=
  cs.map fun c ↦ (.printChar, order.select c)

theorem prints_append (order : ArgOrder) (cs cs' : List Cell) :
    prints order (cs ++ cs') = prints order cs ++ prints order cs' := List.map_append

section Buffer

variable {buf rest : Text} {p : ℕ} {a b : UInt8}

theorem byteAt_eq (h : buf.drop p = a :: rest) : byteAt buf p = .ok a := by
  have hget : buf[p]? = some a := by
    rw [← Nat.add_zero p, ← List.getElem?_drop, h]
    rfl
  rw [byteAt, hget]

theorem drop_succ_eq (h : buf.drop p = a :: rest) : buf.drop (p + 1) = rest := by
  rw [← List.drop_drop, h, List.drop_one, List.tail_cons]

variable (h : buf.drop p = a :: b :: rest)
include h

theorem looksAt_eq (c d : UInt8) : looksAt buf p c d = .ok (a == c && b == d) := by
  rw [looksAt, byteAt_eq h, Exec.ok_bind, byteAt_eq (drop_succ_eq h)]
  by_cases hc : a = c
  · by_cases hd : b = d
    · simp [hc, hd]
    · simp [hc, hd]
  · simp [hc]

variable {w : Printer} {inside : Bool} (hruns : Runs w inside)
include hruns

theorem getEvtKey_eq : getEvtKey w buf p = .ok (eventKey inside (delimiters.turns inside a b),
    if delimiters.turns inside a b then p + 2 else p + 1) := by
  have hne : stComment ≠ stNoComment := by decide
  rw [getEvtKey, hruns.fsmGetCurrentState_eq, Exec.ok_bind]
  cases inside with
  | false =>
      have hturns : delimiters.turns false a b = (a == slash && b == star) := rfl
      rw [hturns, looksAt_eq h]
      cases a == slash && b == star with
      | false => rfl
      | true => rfl
  | true =>
      have hturns : delimiters.turns true a b = (a == star && b == slash) := rfl
      rw [hturns, if_pos rfl, if_neg hne, if_pos rfl, looksAt_eq h]
      cases a == star && b == slash with
      | false => rfl
      | true => rfl

theorem parseChar_of_turns (order : ArgOrder) (hturns : delimiters.turns inside a b = true)
    (hrest : rest ≠ []) :
    ∃ w', parseChar order w buf p = .ok (w', p + 2) ∧ Runs w' (!inside) ∧ w'.trace = w.trace := by
  obtain ⟨c, rest', rfl⟩ := List.exists_cons_of_ne_nil hrest
  have hdata : ∃ data, byteAt buf (order.dataPtr p (p + 2)) = .ok data := by
    cases order with
    | keyFirst => exact ⟨c, byteAt_eq (drop_succ_eq (drop_succ_eq h))⟩
    | dataFirst => exact ⟨a, byteAt_eq h⟩
  obtain ⟨data, hdata⟩ := hdata
  obtain ⟨w', hprocess, hruns', htrace⟩ := hruns.fsmProcessEvent_eq true data
  rw [Bool.xor_true] at hruns'
  rw [Bool.or_true, if_pos rfl, List.append_nil] at htrace
  refine ⟨w', ?_, hruns', htrace⟩
  rw [parseChar, getEvtKey_eq h hruns, hturns, if_pos rfl, Exec.ok_bind]
  dsimp only
  rw [hdata, Exec.ok_bind, hprocess]
  rfl

theorem parseChar_of_not_turns (order : ArgOrder)
    (hturns : delimiters.turns inside a b = false) :
    ∃ w', parseChar order w buf p = .ok (w', p + 1) ∧ Runs w' inside ∧
      w'.trace = w.trace ++ prints order (Delimiters.kept inside ⟨a, b⟩) := by
  have hdata : byteAt buf (order.dataPtr p (p + 1)) = .ok (order.select ⟨a, b⟩) := by
    cases order with
    | keyFirst => exact byteAt_eq (drop_succ_eq h)
    | dataFirst => exact byteAt_eq h
  obtain ⟨w', hprocess, hruns', htrace⟩ :=
    hruns.fsmProcessEvent_eq false (order.select ⟨a, b⟩)
  rw [Bool.xor_false] at hruns'
  refine ⟨w', ?_, hruns', ?_⟩
  · rw [parseChar, getEvtKey_eq h hruns, hturns, Exec.ok_bind]
    dsimp only
    rw [if_neg Bool.false_ne_true, hdata, Exec.ok_bind, hprocess]
    rfl
  · rw [htrace]
    cases inside with
    | false => rfl
    | true => rfl

end Buffer

section Line

variable {inside : Bool} {a b : UInt8} {line : Text}

theorem scan_of_turns (line : Text) (hturns : delimiters.turns inside a b = true) :
    bufDelimiters.strip inside (bufCells (a :: b :: line)) =
        bufDelimiters.strip (!inside) (bufCells line) ∧
      bufDelimiters.after inside (bufCells (a :: b :: line)) =
        bufDelimiters.after (!inside) (bufCells line) := by
  have hcells : bufDelimiters.turns inside ⟨a, b⟩ ⟨b, line.headD 0⟩ = true :=
    (bufDelimiters_turns ..).trans hturns
  exact ⟨bufDelimiters.strip_of_turns hcells, bufDelimiters.after_of_turns hcells⟩

theorem scan_of_not_turns (hturns : delimiters.turns inside a (line.headD 0) = false) :
    bufDelimiters.strip inside (bufCells (a :: line)) =
        Delimiters.kept inside ⟨a, line.headD 0⟩ ++ bufDelimiters.strip inside (bufCells line) ∧
      bufDelimiters.after inside (bufCells (a :: line)) =
        bufDelimiters.after inside (bufCells line) := by
  cases line with
  | nil => exact ⟨(List.append_nil _).symm, rfl⟩
  | cons b line =>
      have hcells : bufDelimiters.turns inside ⟨a, b⟩ ⟨b, line.headD 0⟩ = false :=
        (bufDelimiters_turns ..).trans hturns
      exact ⟨bufDelimiters.strip_of_not_turns hcells, bufDelimiters.after_of_not_turns hcells⟩

end Line

/-- One turn of the loop over the buffer: it leaves a rest of the line, and what it prints and what
is printed for the rest is what is printed for the line. -/
theorem parseChar_line (order : ArgOrder) {buf line rest : Text} {p : ℕ} {a : UInt8} {w : Printer}
    {inside : Bool} (hbuf : buf.drop p = a :: line ++ 0 :: rest) (hruns : Runs w inside) :
    ∃ w' p' inside' line', parseChar order w buf p = .ok (w', p') ∧ Runs w' inside' ∧
      buf.drop p' = line' ++ 0 :: rest ∧ line' <:+ line ∧
      bufDelimiters.after inside' (bufCells line') =
        bufDelimiters.after inside (bufCells (a :: line)) ∧
      w'.trace ++ prints order (bufDelimiters.strip inside' (bufCells line')) =
        w.trace ++ prints order (bufDelimiters.strip inside (bufCells (a :: line))) := by
  have hline : ∃ rest', buf.drop p = a :: line.headD 0 :: rest' := by
    cases line with
    | nil => exact ⟨rest, hbuf⟩
    | cons b line => exact ⟨line ++ 0 :: rest, hbuf⟩
  obtain ⟨rest', hbuf'⟩ := hline
  cases hdelim : delimiters.turns inside a (line.headD 0) with
  | false =>
      obtain ⟨hstrip, hafter⟩ := scan_of_not_turns hdelim
      obtain ⟨w', hchar, hruns', htrace⟩ := parseChar_of_not_turns hbuf' hruns order hdelim
      refine ⟨w', p + 1, inside, line, hchar, hruns', drop_succ_eq hbuf, List.suffix_rfl,
        hafter.symm, ?_⟩
      rw [htrace, hstrip, prints_append, List.append_assoc]
  | true =>
      -- a delimiter does not end with the byte behind the line
      cases line with
      | nil => exact absurd hdelim (ne_true_of_eq_false (delimiters_turns_nul inside a))
      | cons b line =>
          have hdelim' : delimiters.turns inside a b = true := hdelim
          have hbehind : line ++ 0 :: rest ≠ [] :=
            List.append_ne_nil_of_right_ne_nil line (List.cons_ne_nil 0 rest)
          obtain ⟨hstrip, hafter⟩ := scan_of_turns line hdelim'
          obtain ⟨w', hchar, hruns', htrace⟩ := parseChar_of_turns hbuf hruns order hdelim' hbehind
          refine ⟨w', p + 2, !inside, line, hchar, hruns', drop_succ_eq (drop_succ_eq hbuf),
            List.suffix_cons b line, hafter.symm, ?_⟩
          rw [htrace, hstrip]

theorem parseBuf_eq (order : ArgOrder) {buf line rest : Text} {p turns : ℕ} {w : Printer}
    {inside : Bool} (hbuf : buf.drop p = line ++ 0 :: rest) (hnul : 0 ∉ line)
    (hturns : line.length < turns) (hruns : Runs w inside) :
    ∃ w', parseBuf order turns w buf p = .ok w' ∧
      Runs w' (bufDelimiters.after inside (bufCells line)) ∧
      w'.trace = w.trace ++ prints order (bufDelimiters.strip inside (bufCells line)) := by
  induction turns generalizing line p w inside with
  | zero => omega
  | succ turns ih =>
      cases line with
      | nil =>
          refine ⟨w, ?_, hruns, (List.append_nil _).symm⟩
          rw [parseBuf, byteAt_eq hbuf]
          rfl
      | cons a line =>
          obtain ⟨hne, hnul⟩ := List.ne_and_not_mem_of_not_mem_cons hnul
          obtain ⟨w₁, p₁, inside₁, line₁, hchar, hruns₁, hbuf₁, hsuffix, hafter, htrace₁⟩ :=
            parseChar_line order hbuf hruns
          have hshorter : line₁.length < turns :=
            hsuffix.length_le.trans_lt (Nat.lt_of_succ_lt_succ hturns)
          obtain ⟨w', hloop, hruns', htrace'⟩ :=
            ih hbuf₁ (fun hmem ↦ hnul (hsuffix.subset hmem)) hshorter hruns₁
          refine ⟨w', ?_, hafter ▸ hruns', htrace'.trans htrace₁⟩
          rw [parseBuf, byteAt_eq hbuf, Exec.ok_bind, if_neg hne.symm, hchar]
          exact hloop

theorem parseFile_succ (order : ArgOrder) (turns : ℕ) (w : Printer) {content line rest : Text}
    {atEnd : Bool} (hread : readLine (bufSize - 1) content = (line, rest, atEnd))
    (hend : line = [] → atEnd = true) :
    parseFile order (turns + 1) w ⟨content, false⟩ =
      parseBuf order bufSize w (line ++ List.replicate (bufSize - line.length) 0) 0 >>= fun w ↦
        parseFile order turns w ⟨rest, atEnd⟩ := by
  have hgets : fgets bufSize ⟨content, false⟩ =
      (if line = [] then none else some line, ⟨rest, atEnd⟩) := by
    rw [fgets, hread]
    rfl
  rw [parseFile, if_neg Bool.false_ne_true, hgets]
  dsimp only
  by_cases hline : line = []
  · rw [if_pos hline, if_neg fun h ↦ Bool.false_ne_true (h.2.symm.trans (hend hline)), hline]
    rfl
  · rw [if_neg hline, if_neg fun h ↦ Option.some_ne_none _ h.1]
    rfl

theorem parseFile_atEnd (order : ArgOrder) {turns : ℕ} (hturns : 0 < turns) (w : Printer)
    (rest : Text) : parseFile order turns w ⟨rest, true⟩ = .ok w := by
  obtain ⟨turns, rfl⟩ := Nat.exists_eq_succ_of_ne_zero hturns.ne'
  rfl

theorem strip_line_append (inside : Bool) (line : Text) (cs : List Cell) :
    bufDelimiters.strip inside (bufCells line ++ cs) =
      bufDelimiters.strip inside (bufCells line) ++
        bufDelimiters.strip (bufDelimiters.after inside (bufCells line)) cs := by
  refine bufDelimiters.strip_append (fun c hc inside c' ↦ ?_) cs
  rw [bufDelimiters_turns, bufCells_getLast? c hc, delimiters_turns_nul]

theorem parseFile_eq (order : ArgOrder) {content : Text} {turns : ℕ} {w : Printer} {inside : Bool}
    (hnul : 0 ∉ content) (hturns : content.length + 1 < turns) (hruns : Runs w inside) :
    ∃ w', parseFile order turns w ⟨content, false⟩ = .ok w' ∧
      w'.trace = w.trace ++ prints order (bufDelimiters.strip inside (fileCells content)) := by
  induction turns generalizing content w inside with
  | zero => omega
  | succ turns ih =>
      obtain ⟨line, rest, atEnd, hread, rfl, hroom, hcells, hend, hrest⟩ := exists_readLine content
      rw [List.mem_append, not_or] at hnul
      rw [List.length_append] at hturns
      have hbuf : (line ++ List.replicate (bufSize - line.length) 0).drop 0 =
          line ++ 0 :: List.replicate (bufSize - line.length - 1) 0 := by
        rw [List.drop_zero, ← List.replicate_succ, Nat.sub_add_cancel (Nat.sub_pos_of_lt hroom)]
      obtain ⟨w₁, hparse, hruns₁, htrace₁⟩ := parseBuf_eq order hbuf hnul.1 hroom hruns
      rw [parseFile_succ order turns w hread hend, hparse, Exec.ok_bind, hcells, strip_line_append,
        prints_append, ← List.append_assoc, ← htrace₁]
      cases atEnd with
      | false =>
          have hline : line ≠ [] := fun heq ↦ Bool.false_ne_true (hend heq)
          have hpos := List.length_pos_iff.2 hline
          exact ih hnul.2 (by omega) hruns₁
      | true =>
          rw [hrest rfl]
          exact ⟨w₁, parseFile_atEnd order (by omega) w₁ [], (List.append_nil _).symm⟩

/-- Whatever the content is, the program prints what the scan of its cells keeps that sees only the
delimiters within one buffer. -/
theorem testRmcom_eq (order : ArgOrder) {content : Text} (hnul : 0 ∉ content) :
    testRmcom order content =
      .ok ((bufDelimiters.strip false (fileCells content)).map order.select) := by
  obtain ⟨w, hsetup, hruns, htrace⟩ := exists_setUp
  obtain ⟨w', hparse, htrace'⟩ := parseFile_eq order hnul (Nat.lt_succ_self _) hruns
  rw [testRmcom, hsetup, Exec.ok_bind, hparse, Exec.ok_bind, htrace', htrace, List.nil_append,
    prints, List.map_map]
  rfl

/-! ## What is printed -/

/-- When no delimiter is split, the comments are removed just when the data argument is evaluated
before the generator moves the pointer, or every character that is kept has the same character
behind it. -/
theorem testRmcom_eq_removeComments_iff {content : Text} (hnul : 0 ∉ content)
    (hunsplit : Unsplit content) (order : ArgOrder) :
    testRmcom order content = .ok (removeComments content) ↔
      order = .dataFirst ∨
        ∀ c ∈ cellDelimiters.strip false (fileCells content), c.next = c.byte := by
  have hremove : removeComments content =
      (cellDelimiters.strip false (fileCells content)).map Cell.byte := by
    rw [cellDelimiters, delimiters.map_strip_comap, fileCells, map_byte_cells]
    rfl
  rw [testRmcom_eq order hnul, strip_bufDelimiters hunsplit, hremove, Except.ok.injEq,
    List.map_inj_left]
  cases order with
  | dataFirst => exact iff_of_true (fun _ _ ↦ rfl) (.inl rfl)
  | keyFirst => exact ⟨.inr, fun h ↦ h.resolve_left fun heq ↦ by cases heq⟩

/-- Comments are removed in either order when only slashes that precede slashes are outside of them,
and in the one order in any case. -/
theorem slashes_removed :
    testRmcom .keyFirst (ascii "//**/") = .ok (removeComments (ascii "//**/")) ∧
      testRmcom .dataFirst (ascii "a/*b*/c") = .ok (removeComments (ascii "a/*b*/c")) := by
  have hfirst : Unsplit (ascii "//**/") := by
    unfold Unsplit
    decide
  have hsecond : Unsplit (ascii "a/*b*/c") := by
    unfold Unsplit
    decide
  exact ⟨(testRmcom_eq_removeComments_iff (by decide) hfirst .keyFirst).2 (.inr (by decide)),
    (testRmcom_eq_removeComments_iff (by decide) hsecond .dataFirst).2 (.inl rfl)⟩

/-- A comment that begins with the last character of the first buffer. -/
def longLine : Text := List.replicate 254 97 ++ ascii "/**/"

/-- In the one order a NUL byte is printed for a character, and in the other one a comment of a long
line is printed. -/
theorem comments_not_removed :
    0 ∉ ascii "a" ∧ testRmcom .keyFirst (ascii "a") ≠ .ok (removeComments (ascii "a")) ∧
      0 ∉ longLine ∧ testRmcom .dataFirst longLine ≠ .ok (removeComments longLine) := by
  have hshort : 0 ∉ ascii "a" := by decide
  have hlong : 0 ∉ longLine := by decide
  refine ⟨hshort, ?_, hlong, ?_⟩
  · rw [testRmcom_eq _ hshort]
    decide
  · rw [testRmcom_eq _ hlong]
    decide +kernel

/-- A comment that begins with the last character of the first buffer can be printed instead of
other characters. -/
def luckyLine : Text := List.replicate 254 97 ++ ascii "/*/*///*//*/*"

example : ¬ Unsplit luckyLine ∧
    testRmcom .dataFirst luckyLine = .ok (removeComments luckyLine) := by
  have hnul : 0 ∉ luckyLine := by decide
  rw [testRmcom_eq _ hnul, Unsplit]
  decide +kernel

end Experimentation.StateMachine.CommentRemoval
