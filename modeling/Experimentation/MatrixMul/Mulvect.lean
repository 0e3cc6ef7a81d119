import Experimentation.MatrixMul.Schedule
import Experimentation.Semantics.LittleEndian

/-!
# The cell that `mulvect` computes

The program of threads takes the indices that a thread finds in its slot as they are meant.  Here
`mulvect` reads them as the code does, from the bytes of its argument.  `main` writes a pair of
`size_t`, and `mulvect` reads the first two `int` of it, which are the lower and the upper half of
the row.  The column is never read, so a thread computes the cell that it was given just when that
is in the first column.
-/

namespace Experimentation.MatrixMul

open Semantics LittleEndian

variable {N M K : ℕ} {mat1 : Matrix (Fin N) (Fin M) ℤ} {mat2 : Matrix (Fin M) (Fin K) ℤ}

def sizeofSizeT : ℕ := 8

def sizeofInt : ℕ := 4

/-- What a `matindex_t` looks like in memory. -/
def MatIndex.bytes (index : MatIndex) : List UInt8 :=
  encode sizeofSizeT index.row ++ encode sizeofSizeT index.col

/-- `*((int *)arg + k)`. -/
def loadInt (arg : List UInt8) (k : ℕ) : Option ℤ :=
  if (k + 1) * sizeofInt ≤ arg.length then
    some (decodeSigned ((arg.drop (k * sizeofInt)).take sizeofInt))
  else
    none

/-- An `int` that is converted to `size_t`. -/
def sizeOfInt (x : ℤ) : ℕ := (x % sizeModulus).toNat

/-- The loop of `mulvect`.  `turns` is the number of products that are left. -/
def mulvectLoop (mat1 : Matrix (Fin N) (Fin M) ℤ) (mat2 : Matrix (Fin M) (Fin K) ℤ) (row : Fin N)
    (col : Fin K) : (turns i : ℕ) → Matrix (Fin N) (Fin K) ℤ → Option (Matrix (Fin N) (Fin K) ℤ)
  | 0, _, mat3 => some mat3
  | turns + 1, i, mat3 =>
      if h : i < M then do
        let x ← addProduct (mat3 row col) (mat1 row ⟨i, h⟩) (mat2 ⟨i, h⟩ col)
        mulvectLoop mat1 mat2 row col turns (i + 1) (setCell mat3 row col x)
      else
        some mat3

/-- `mulvect`, from where it has read its indices. -/
def mulvectCell (mat1 : Matrix (Fin N) (Fin M) ℤ) (mat2 : Matrix (Fin M) (Fin K) ℤ) (row col : ℕ)
    (mat3 : Matrix (Fin N) (Fin K) ℤ) : Option (Matrix (Fin N) (Fin K) ℤ) :=
  if h : row < N ∧ col < K then
    mulvectLoop mat1 mat2 ⟨row, h.1⟩ ⟨col, h.2⟩ M 0 (setCell mat3 ⟨row, h.1⟩ ⟨col, h.2⟩ 0)
  else
    none

/-- `mulvect`: the result matrix after the call. -/
def mulvect (mat1 : Matrix (Fin N) (Fin M) ℤ) (mat2 : Matrix (Fin M) (Fin K) ℤ) (arg : List UInt8)
    (mat3 : Matrix (Fin N) (Fin K) ℤ) : Option (Matrix (Fin N) (Fin K) ℤ) := do
  let row ← loadInt arg 0
  let col ← loadInt arg 1
  mulvectCell mat1 mat2 (sizeOfInt row) (sizeOfInt col) mat3

theorem setCell_setCell (data : Matrix (Fin N) (Fin K) ℤ) (row : Fin N) (col : Fin K) (x y : ℤ) :
    setCell (setCell data row col x) row col y = setCell data row col y := by
  ext row' col'
  by_cases h : row' = row ∧ col' = col
  · obtain ⟨rfl, rfl⟩ := h
    rw [setCell_self, setCell_self]
  · rw [setCell_of_ne h, setCell_of_ne h, setCell_of_ne h]

/-- The loop adds up the dot product.  The induction is on the products that are left. -/
theorem mulvectLoop_eq (hint : NoOverflow mat1 mat2) (row : Fin N) (col : Fin K)
    (mat3 : Matrix (Fin N) (Fin K) ℤ) {turns i : ℕ} (hturns : i + turns = M) :
    mulvectLoop mat1 mat2 row col turns i
        (setCell mat3 row col (partialDot mat1 mat2 row col i)) =
      some (setCell mat3 row col ((mat1 * mat2) row col)) := by
  induction turns generalizing i with
  | zero =>
      have hall : i = M := hturns
      rw [mulvectLoop, hall, partialDot_all]
  | succ turns ih =>
      have hi : i < M := by omega
      have hrest : i + 1 + turns = M := by omega
      calc
        _ = mulvectLoop mat1 mat2 row col turns (i + 1)
            (setCell mat3 row col (partialDot mat1 mat2 row col (i + 1))) := by
          rw [mulvectLoop, dif_pos hi, setCell_self, hint.addProduct_eq row col hi,
            Option.bind_eq_bind, Option.bind_some, setCell_setCell]
        _ = _ := ih hrest

theorem mulvectCell_eq (hint : NoOverflow mat1 mat2) (row : Fin N) (col : Fin K)
    (mat3 : Matrix (Fin N) (Fin K) ℤ) :
    mulvectCell mat1 mat2 row col mat3 = some (setCell mat3 row col ((mat1 * mat2) row col)) := by
  calc
    _ = mulvectLoop mat1 mat2 row col M 0
        (setCell mat3 row col (partialDot mat1 mat2 row col 0)) := by
      rw [mulvectCell, dif_pos ⟨row.isLt, col.isLt⟩, partialDot_zero]
    _ = _ := mulvectLoop_eq hint row col mat3 (Nat.zero_add M)

/-! ## The indices -/

section Indices

variable (index : MatIndex)

theorem loadInt_zero : loadInt index.bytes 0 = some ((index.row : ℤ).bmod (256 ^ 4)) := by
  have hbytes : (index.bytes.drop (0 * sizeofInt)).take sizeofInt = encode 4 index.row := by
    rw [zero_mul, List.drop_zero, MatIndex.bytes, List.take_append_of_le_length (by simp [sizeofInt,
      sizeofSizeT])]
    exact take_encode 4 4 index.row
  rw [loadInt, if_pos (by simp [MatIndex.bytes, sizeofInt, sizeofSizeT]), hbytes,
    decodeSigned_encode]

theorem loadInt_one :
    loadInt index.bytes 1 = some (((index.row / 256 ^ 4 : ℕ) : ℤ).bmod (256 ^ 4)) := by
  have hbytes : (index.bytes.drop (1 * sizeofInt)).take sizeofInt =
      encode 4 (index.row / 256 ^ 4) := by
    have hrow : (encode sizeofSizeT index.row).drop (1 * sizeofInt) =
        encode 4 (index.row / 256 ^ 4) := drop_encode 4 4 index.row
    rw [MatIndex.bytes, List.drop_append_of_le_length (by simp [sizeofInt, sizeofSizeT]), hrow,
      List.take_append_of_le_length (by simp [sizeofInt])]
    exact List.take_of_length_le (by simp [sizeofInt])
  rw [loadInt, if_pos (by simp [MatIndex.bytes, sizeofInt, sizeofSizeT]), hbytes,
    decodeSigned_encode]

/-- The row that `mulvect` uses. -/
def MatIndex.rowRead (index : MatIndex) : ℕ := sizeOfInt ((index.row : ℤ).bmod (256 ^ 4))

/-- The column that `mulvect` uses. -/
def MatIndex.colRead (index : MatIndex) : ℕ :=
  sizeOfInt (((index.row / 256 ^ 4 : ℕ) : ℤ).bmod (256 ^ 4))

/-- The indices are read as they were written only in the first column and up to the largest
`int`. -/
theorem MatIndex.read_iff {index : MatIndex} (hrow : index.row < sizeModulus)
    (hcol : index.col + 1 < sizeModulus) :
    index.rowRead = index.row ∧ index.colRead = index.col ↔ index.row < 2 ^ 31 ∧ index.col = 0 := by
  unfold MatIndex.rowRead MatIndex.colRead sizeOfInt
  unfold sizeModulus at hrow hcol ⊢
  rw [Int.bmod_def, Int.bmod_def]
  split_ifs <;> omega

end Indices

/-! ## The cell -/

/-- What `mulvect` is for: called with the address of a pair it writes the dot product to the cell
of that pair and to no other one, whatever the result matrix holds. -/
def ComputesCell (mat1 : Matrix (Fin N) (Fin M) ℤ) (mat2 : Matrix (Fin M) (Fin K) ℤ) (row : Fin N)
    (col : Fin K) : Prop :=
  ∀ mat3, ∃ mat3', mulvect mat1 mat2 (MatIndex.bytes ⟨row, col⟩) mat3 = some mat3' ∧
    mat3' row col = ∑ i, mat1 row i * mat2 i col ∧
    ∀ row' col', ¬ (row' = row ∧ col' = col) → mat3' row' col' = mat3 row' col'

theorem mulvect_bytes (index : MatIndex) (mat3 : Matrix (Fin N) (Fin K) ℤ) :
    mulvect mat1 mat2 index.bytes mat3 =
      mulvectCell mat1 mat2 index.rowRead index.colRead mat3 := by
  rw [mulvect, loadInt_zero, Option.bind_eq_bind, Option.bind_some, loadInt_one,
    Option.bind_some, MatIndex.rowRead, MatIndex.colRead]

/-- `mulvect` computes the cell that it was given just when that is in the first column, and in a
row whose number is an `int`. -/
theorem mulvect_computes_iff (hint : NoOverflow mat1 mat2) (hN : N < sizeModulus)
    (hK : K < sizeModulus) (row : Fin N) (col : Fin K) :
    ComputesCell mat1 mat2 row col ↔ row.val < 2 ^ 31 ∧ col.val = 0 := by
  let index : MatIndex := ⟨row, col⟩
  have hread : index.rowRead = row ∧ index.colRead = col ↔ row.val < 2 ^ 31 ∧ col.val = 0 :=
    MatIndex.read_iff (row.isLt.trans hN) (lt_of_le_of_lt (Nat.succ_le_of_lt col.isLt) hK)
  rw [← hread]
  constructor
  · intro h
    -- a result matrix that does not hold the dot product in the cell before the call
    let garbage : Matrix (Fin N) (Fin K) ℤ := Matrix.of fun _ _ ↦ (mat1 * mat2) row col + 1
    obtain ⟨mat3', hrun, hcell, _⟩ := h garbage
    rw [mulvect_bytes index] at hrun
    have hin : index.rowRead < N ∧ index.colRead < K := by
      by_contra hout
      rw [mulvectCell, dif_neg hout] at hrun
      cases hrun
    have hcall := mulvectCell_eq hint ⟨index.rowRead, hin.1⟩ ⟨index.colRead, hin.2⟩ garbage
    dsimp only at hcall
    rw [hcall] at hrun
    cases hrun
    by_contra hother
    rw [setCell_of_ne, ← Matrix.mul_apply] at hcell
    · exact absurd hcell (Int.lt_succ _).ne'
    · intro hsame
      simp only [Fin.ext_iff] at hsame
      exact hother ⟨hsame.1.symm, hsame.2.symm⟩
  · intro h mat3
    obtain ⟨hrow, hcol⟩ := h
    refine ⟨setCell mat3 row col ((mat1 * mat2) row col), ?_, ?_, ?_⟩
    · change mulvect mat1 mat2 index.bytes mat3 = _
      rw [mulvect_bytes, hrow, hcol, mulvectCell_eq hint]
    · rw [setCell_self, Matrix.mul_apply]
    · exact fun row' col' hne ↦ setCell_of_ne hne _

/-- The first cell of the second row. -/
theorem secondRow_computesCell : ComputesCell !![(1 : ℤ), 2; 3, 4] !![5, 6; 7, 8] 1 0 := by
  have hint : NoOverflow !![(1 : ℤ), 2; 3, 4] !![5, 6; 7, 8] := ⟨by decide, by decide⟩
  exact (mulvect_computes_iff hint (by decide) (by decide) 1 0).2 ⟨by decide, rfl⟩

/-- The second cell of a row: `mulvect` computes the first one instead. -/
theorem second_not_computesCell :
    mulvect !![(1 : ℤ)] !![2, 3] (MatIndex.bytes ⟨0, 1⟩) 0 = some !![2, 0] ∧
      ¬ ComputesCell !![(1 : ℤ)] !![2, 3] 0 1 := by
  have hint : NoOverflow !![(1 : ℤ)] !![2, 3] := ⟨by decide, by decide⟩
  have hrun : mulvect !![(1 : ℤ)] !![2, 3] (MatIndex.bytes ⟨0, 1⟩) 0 = some !![2, 0] := by
    rw [mulvect_bytes]
    decide
  refine ⟨hrun, fun h ↦ ?_⟩
  obtain ⟨mat3', hrun', hcell, _⟩ := h 0
  have hsame : some !![2, 0] = some mat3' := hrun.symm.trans hrun'
  cases hsame
  exact absurd hcell (by decide)

end Experimentation.MatrixMul
