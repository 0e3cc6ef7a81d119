import Experimentation.Semantics.Numerals

/-!
# `hexdump`

The loop that reads a file in pieces of `BUFSIZE` bytes and prints a line for each of them: the
offset, the bytes as two digits to the base sixteen, blanks where bytes are missing, and the bytes
as characters.  It ends at the end of the file or when the length that was asked for is reached, in
the middle of a piece as it may be.
-/

namespace Experimentation.FileOps

open Semantics

def bufSize : ℕ := 20

/-- The arguments of the program: `caps`, `len` and `skip`. -/
structure Options where
  caps : Bool
  len : ℤ
  skip : ℕ

/-- A file that is read: the bytes that are left, and whether a read has met its end. -/
structure Stream where
  rest : List UInt8
  eof : Bool

/-- `fread` of single bytes: those read, and the file afterwards. -/
def fread (size : ℕ) (fp : Stream) : List UInt8 × Stream :=
  (fp.rest.take size, ⟨fp.rest.drop size, fp.eof || decide (fp.rest.length < size)⟩)

/-- `fseek` from the start of a file. -/
def fseek (file : List UInt8) (skip : ℕ) : Stream := ⟨file.drop skip, false⟩

/-- `totalbytes < len || len == -1`. -/
def Options.more (o : Options) (totalbytes : ℕ) : Bool := totalbytes < o.len || o.len == -1

/-- `x++` for an `int`. -/
def increment (x : ℕ) : Option ℕ := if x + 1 < 2 ^ 31 then some (x + 1) else none

/-- The conversions `%0*x` and `%0*X`. -/
def hex (caps : Bool) (width n : ℕ) : Text := padLeft (digit caps 0) width (numeral caps 16 n)

/-- A byte on a line, with the blank between the two halves of the line after it. -/
def cell (caps : Bool) (i : ℕ) (c : UInt8) : Text :=
  hex caps 2 c.toNat ++ blank :: if i = bufSize / 2 - 1 then [blank] else []

/-- The loop over the buffer: what it prints, and its two counters. -/
def printCells (o : Options) : (buf : List UInt8) → (i totalbytes : ℕ) → Option (Text × ℕ × ℕ)
  | [], i, totalbytes => some ([], i, totalbytes)
  | c :: buf, i, totalbytes =>
      if o.more totalbytes then do
        let next ← increment totalbytes
        let (text, counters) ← printCells o buf (i + 1) next
        return (cell o.caps i c ++ text, counters)
      else
        some ([], i, totalbytes)

/-- The loop that fills in the blanks of a line with `i` bytes. -/
def padding (i : ℕ) : Text :=
  (List.range (bufSize - i)).flatMap fun j ↦
    ascii "   " ++ if j = bufSize / 2 - 1 then [blank] else []

/-- A byte as a character. -/
def character (c : UInt8) : UInt8 := if c ≥ 32 ∧ c ≤ 127 then c else 46

/-- A line of the dump, without its line feed. -/
def printLine (caps : Bool) (offset : ℕ) (cells : Text) (i : ℕ) (buf : List UInt8) : Text :=
  hex caps 8 offset ++ blank ::
    (cells ++ (padding i ++ (ascii " |" ++ ((buf.take i).map character ++ ascii "|"))))

/-- The loop of `main`. -/
def dumpLoop (o : Options) (fp : Stream) (cnt totalbytes : ℕ) : Option Text :=
  if !fp.eof && o.more totalbytes then do
    let buf := (fread bufSize fp).1
    let (cells, i, total) ← printCells o buf 0 totalbytes
    let line := printLine o.caps (wrapSize (cnt * bufSize + o.skip)) cells i buf
    let next ← increment cnt
    let text ← dumpLoop o (fread bufSize fp).2 next total
    return line ++ newline :: text
  else
    some []
termination_by if fp.eof then 0 else fp.rest.length + 1
decreasing_by
  have heof : fp.eof = false := by simp_all
  rw [heof, fread, heof]
  by_cases hshort : fp.rest.length < bufSize
  · simp [hshort]
  · have hpos : 0 < bufSize := by decide
    simp only [Bool.false_or, decide_eq_false hshort, Bool.false_eq_true, if_false, List.length_drop]
    omega

/-- `main`, from where the file is open. -/
def hexdump (o : Options) (file : List UInt8) : Option Text := dumpLoop o (fseek file o.skip) 0 0

/-! ## The bytes that are left to print -/

section Left

variable {o : Options} {totalbytes : ℕ}

/-- The bytes that may still be printed when `totalbytes` of them have been. -/
def Options.left (o : Options) (totalbytes : ℕ) (bytes : List UInt8) : List UInt8 :=
  if o.len = -1 then bytes else bytes.take (o.len - totalbytes).toNat

/-- The bytes that a dump is of. -/
def dumped (o : Options) (file : List UInt8) : List UInt8 :=
  if o.len = -1 then file.drop o.skip else (file.drop o.skip).take o.len.toNat

theorem left_zero (file : List UInt8) : o.left 0 (file.drop o.skip) = dumped o file := by
  rw [Options.left, dumped, Nat.cast_zero, sub_zero]

@[simp]
theorem left_nil : o.left totalbytes [] = [] := by
  simp [Options.left]

theorem left_of_not_more (h : o.more totalbytes = false) (bytes : List UInt8) :
    o.left totalbytes bytes = [] := by
  simp only [Options.more, Bool.or_eq_false_iff, decide_eq_false_iff_not, beq_eq_false_iff_ne] at h
  have hzero : (o.len - totalbytes).toNat = 0 := by omega
  rw [Options.left, if_neg h.2, hzero, List.take_zero]

theorem left_cons (h : o.more totalbytes = true) (c : UInt8) (bytes : List UInt8) :
    o.left totalbytes (c :: bytes) = c :: o.left (totalbytes + 1) bytes := by
  simp only [Options.more, Bool.or_eq_true, decide_eq_true_eq, beq_iff_eq] at h
  by_cases hnone : o.len = -1
  · simp [Options.left, hnone]
  · have hsucc : (o.len - totalbytes).toNat = (o.len - (totalbytes + 1 : ℕ)).toNat + 1 := by omega
    rw [Options.left, Options.left, if_neg hnone, if_neg hnone, hsucc, List.take_succ_cons]

theorem left_take (n : ℕ) (bytes : List UInt8) :
    o.left totalbytes (bytes.take n) = (o.left totalbytes bytes).take n := by
  unfold Options.left
  split_ifs
  · rfl
  · rw [List.take_take, List.take_take, Nat.min_comm]

theorem left_isPrefix (bytes : List UInt8) : o.left totalbytes bytes <+: bytes := by
  unfold Options.left
  split_ifs
  · exact List.prefix_rfl
  · exact List.take_prefix _ _

theorem left_drop (n : ℕ) (bytes : List UInt8) :
    o.left (totalbytes + n) (bytes.drop n) = (o.left totalbytes bytes).drop n := by
  unfold Options.left
  split_ifs with hnone
  · rfl
  · have hsub : (o.len - (totalbytes + n : ℕ)).toNat = (o.len - totalbytes).toNat - n := by omega
    rw [hsub, List.drop_take]

theorem more_of_lt {n : ℕ} {bytes : List UInt8} (h : (o.left totalbytes bytes).length < n)
    (hn : n ≤ bytes.length) : o.more (totalbytes + (o.left totalbytes bytes).length) = false := by
  unfold Options.left at h ⊢
  split_ifs at h ⊢ with hnone
  · omega
  · rw [List.length_take] at h ⊢
    simp only [Options.more, Bool.or_eq_false_iff, decide_eq_false_iff_not, beq_eq_false_iff_ne]
    exact ⟨by omega, hnone⟩

end Left

/-! ## The lines of a dump -/

/-- The cells of a line, the first of which has the number `i`. -/
def cells (caps : Bool) : (i : ℕ) → List UInt8 → Text
  | _, [] => []
  | i, c :: bytes => cell caps i c ++ cells caps (i + 1) bytes

/-- The line of some bytes. -/
def rowText (caps : Bool) (row : ℕ × List UInt8) : Text :=
  printLine caps row.1 (cells caps 0 row.2) row.2.length row.2

/-- How some bytes of a file are divided among the lines of a dump.  Every line but the last one is
full, and the last one may be empty. -/
inductive Rows : (offset : ℕ) → List UInt8 → List (ℕ × List UInt8) → Prop
  | none {offset : ℕ} : Rows offset [] []
  | last {offset : ℕ} {bytes : List UInt8} (h : bytes.length ≤ bufSize) :
      Rows offset bytes [(offset, bytes)]
  | full {offset : ℕ} {first bytes : List UInt8} {rows : List (ℕ × List UInt8)}
      (h : first.length = bufSize) (hrest : Rows (offset + bufSize) bytes rows) :
      Rows offset (first ++ bytes) ((offset, first) :: rows)

theorem printCells_eq (o : Options) (buf : List UInt8) (i : ℕ) {totalbytes : ℕ}
    (hint : totalbytes + (o.left totalbytes buf).length < 2 ^ 31) :
    printCells o buf i totalbytes = some (cells o.caps i (o.left totalbytes buf),
      i + (o.left totalbytes buf).length, totalbytes + (o.left totalbytes buf).length) := by
  induction buf generalizing i totalbytes with
  | nil => simp [printCells, cells]
  | cons c buf ih =>
      by_cases hmore : o.more totalbytes = true
      · rw [left_cons hmore, List.length_cons] at hint
        have hnext : increment totalbytes = some (totalbytes + 1) := if_pos (by omega)
        rw [printCells, if_pos hmore, hnext, Option.bind_eq_bind, Option.bind_some, ih _ (by omega),
          Option.bind_eq_bind, Option.bind_some, left_cons hmore, List.length_cons, cells]
        simp only [Option.pure_def, Option.some.injEq, Prod.mk.injEq, true_and]
        omega
      · rw [printCells, if_neg hmore, left_of_not_more (Bool.not_eq_true _ ▸ hmore)]
        rfl

theorem dumpLoop_of_stop {o : Options} {fp : Stream} {totalbytes : ℕ}
    (h : (!fp.eof && o.more totalbytes) = false) (cnt : ℕ) :
    dumpLoop o fp cnt totalbytes = some [] := by
  rw [dumpLoop, if_neg (by simp [h])]

section Loop

variable {o : Options} {rest : List UInt8} {cnt totalbytes : ℕ}

theorem dumpLoop_turn (hskip : o.skip < 2 ^ 31) (hmore : o.more totalbytes = true)
    (hcnt : totalbytes = cnt * bufSize)
    (hint : totalbytes + (o.left totalbytes rest).length < 2 ^ 31) :
    dumpLoop o ⟨rest, false⟩ cnt totalbytes =
      (dumpLoop o (fread bufSize ⟨rest, false⟩).2 (cnt + 1)
        (totalbytes + ((o.left totalbytes rest).take bufSize).length)).map fun text ↦
          rowText o.caps (o.skip + totalbytes, (o.left totalbytes rest).take bufSize) ++
            newline :: text := by
  have hbuf : o.left totalbytes (rest.take bufSize) = (o.left totalbytes rest).take bufSize :=
    left_take bufSize rest
  have hshown : (rest.take bufSize).take ((o.left totalbytes rest).take bufSize).length =
      (o.left totalbytes rest).take bufSize := by
    rw [← hbuf]
    exact (List.prefix_iff_eq_take.1 (left_isPrefix _)).symm
  have hle : ((o.left totalbytes rest).take bufSize).length ≤ (o.left totalbytes rest).length :=
    List.length_take_le' _ _
  have hcells := printCells_eq o (rest.take bufSize) 0 (by rw [hbuf]; omega)
  have hnext : increment cnt = some (cnt + 1) := by
    unfold bufSize at hcnt
    exact if_pos (by omega)
  have hoffset : wrapSize (cnt * bufSize + o.skip) = o.skip + totalbytes := by
    rw [← hcnt, Nat.add_comm]
    exact wrapSize_of_lt (lt_trans (b := 2 ^ 32) (by omega) (by decide))
  rw [hbuf, Nat.zero_add] at hcells
  rw [dumpLoop, if_pos (by simpa using hmore)]
  simp only [fread, Option.bind_eq_bind, hcells, hnext, Option.bind_some, hoffset]
  rw [rowText, printLine, printLine, hshown, List.take_length]
  cases dumpLoop o _ (cnt + 1) _ with
  | none => rfl
  | some text => rfl

/-- The loop of `main` prints the bytes that are left to print.  The induction is on the length of
the file; only full lines are followed by others. -/
theorem dumpLoop_rows (hskip : o.skip < 2 ^ 31) (hcnt : totalbytes = cnt * bufSize)
    (hint : totalbytes + (o.left totalbytes rest).length < 2 ^ 31) :
    ∃ rows, Rows (o.skip + totalbytes) (o.left totalbytes rest) rows ∧
      dumpLoop o ⟨rest, false⟩ cnt totalbytes = some (unlines (rows.map (rowText o.caps))) := by
  induction hlength : rest.length using Nat.strong_induction_on generalizing rest cnt totalbytes with
  | _ n ih =>
  by_cases hmore : o.more totalbytes = true
  swap
  · rw [Bool.not_eq_true] at hmore
    rw [left_of_not_more hmore]
    exact ⟨[], .none, dumpLoop_of_stop (by simp [hmore]) cnt⟩
  rw [dumpLoop_turn hskip hmore hcnt hint]
  have hprefix : (o.left totalbytes rest).length ≤ rest.length := (left_isPrefix rest).length_le
  by_cases hfull : bufSize ≤ (o.left totalbytes rest).length
  · have htake : ((o.left totalbytes rest).take bufSize).length = bufSize :=
      List.length_take_of_le hfull
    have hstream : (fread bufSize ⟨rest, false⟩).2 = ⟨rest.drop bufSize, false⟩ := by
      simp [fread, hfull.trans hprefix]
    have hleft : o.left (totalbytes + bufSize) (rest.drop bufSize) =
        (o.left totalbytes rest).drop bufSize := left_drop bufSize rest
    have hpos : 0 < bufSize := by decide
    have hnext : totalbytes + bufSize = (cnt + 1) * bufSize := by rw [Nat.succ_mul, hcnt]
    obtain ⟨rows, hrows, hrun⟩ := ih (rest.drop bufSize).length (by rw [List.length_drop]; omega)
      hnext (by rw [hleft, List.length_drop]; omega) rfl
    rw [htake, hstream, hrun]
    refine ⟨(o.skip + totalbytes, (o.left totalbytes rest).take bufSize) :: rows, ?_, ?_⟩
    · have hsplit := Rows.full htake (by rwa [hleft, ← Nat.add_assoc] at hrows)
      rwa [List.take_append_drop] at hsplit
    · simp [unlines]
  · have hlt : (o.left totalbytes rest).length < bufSize := Nat.lt_of_not_le hfull
    have hall : (o.left totalbytes rest).take bufSize = o.left totalbytes rest :=
      List.take_of_length_le hlt.le
    have hstop : (!(fread bufSize ⟨rest, false⟩).2.eof &&
        o.more (totalbytes + (o.left totalbytes rest).length)) = false := by
      by_cases hshort : rest.length < bufSize
      · simp [fread, hshort]
      · simp [more_of_lt hlt (Nat.le_of_not_lt hshort)]
    rw [hall, dumpLoop_of_stop hstop]
    exact ⟨[(o.skip + totalbytes, o.left totalbytes rest)], .last hlt.le, by simp [unlines]⟩

end Loop

theorem length_dumped_le (o : Options) (file : List UInt8) :
    (dumped o file).length ≤ file.length := by
  rw [← left_zero]
  exact (left_isPrefix _).length_le.trans (List.drop_sublist _ _).length_le

theorem hexdump_rows {o : Options} {file : List UInt8} (hfile : file.length < 2 ^ 31)
    (hskip : o.skip < 2 ^ 31) :
    ∃ rows, Rows o.skip (dumped o file) rows ∧
      hexdump o file = some (unlines (rows.map (rowText o.caps))) := by
  have hle := length_dumped_le o file
  rw [← left_zero]
  exact dumpLoop_rows hskip (Nat.zero_mul _).symm (by rw [left_zero]; omega)

end Experimentation.FileOps
