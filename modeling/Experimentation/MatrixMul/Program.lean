import Experimentation.Semantics.Exec
import Experimentation.Semantics.Interleaving
import Mathlib.Data.Matrix.Basic
import Mathlib.LinearAlgebra.Matrix.RowCol

/-!
# The threaded product of two matrices

`main` creates one thread for each cell of the product.  The cell of a thread is found in an array
of index pairs, to an element of which the thread is given a pointer; the thread reads the pair when
it runs, not when it is created.  The state of the program is what its threads share: the array of
pairs, the array of thread identifiers and the resulting matrix, together with the place that every
thread has reached.

The program starts where both matrices have been read, their dimensions fit and the memory has been
allocated; what the allocated memory contains is arbitrary.
-/

namespace Experimentation.MatrixMul

open Semantics

variable {N M K : ℕ}

structure MatIndex where
  row : ℕ
  col : ℕ
deriving DecidableEq, Repr

def sizeofMatIndex : ℕ := 16

def sizeofPthread : ℕ := 8

/-- The number of objects in the memory that was allocated for `count` objects of `size` bytes. -/
def capacity (count size : ℕ) : ℕ := wrapSize (count * size) / size

def numthreads (N K : ℕ) : ℕ := wrapSize (N * K)

/-- The slot `k = i*mat1->rows + j` that the creation loop uses. -/
def slot (N i j : ℕ) : ℕ := wrapSize (i * N + j)

/-- The value is representable in `int`. -/
def IsInt (x : ℤ) : Prop := -2 ^ 31 ≤ x ∧ x < 2 ^ 31

instance (x : ℤ) : Decidable (IsInt x) := inferInstanceAs (Decidable (_ ∧ _))

/-- `x += a * b`, evaluated in `int`. -/
def addProduct (x a b : ℤ) : Option ℤ :=
  if IsInt (a * b) ∧ IsInt (x + a * b) then some (x + a * b) else none

/-- `data[row][col] = x`. -/
def setCell (data : Matrix (Fin N) (Fin K) ℤ) (row : Fin N) (col : Fin K) (x : ℤ) :
    Matrix (Fin N) (Fin K) ℤ :=
  data.updateRow row (Function.update (data row) col x)

@[simp]
theorem setCell_self (data : Matrix (Fin N) (Fin K) ℤ) (row : Fin N) (col : Fin K) (x : ℤ) :
    setCell data row col x row col = x := by
  simp [setCell]

theorem setCell_of_ne {data : Matrix (Fin N) (Fin K) ℤ} {row row' : Fin N} {col col' : Fin K}
    (h : ¬ (row' = row ∧ col' = col)) (x : ℤ) :
    setCell data row col x row' col' = data row' col' := by
  by_cases hrow : row' = row
  · subst hrow
    rw [setCell, Matrix.updateRow_self, Function.update_of_ne fun hcol ↦ h ⟨rfl, hcol⟩]
  · rw [setCell, Matrix.updateRow_ne hrow]

/-- Where a thread that runs `mulvect` is. -/
inductive Phase (N K : ℕ)
  /-- It has not read its indices. -/
  | ready
  /-- It is in the loop. -/
  | running (row : Fin N) (col : Fin K) (i : ℕ)
  /-- It has called `pthread_exit`. -/
  | done (row : Fin N) (col : Fin K)

/-- A thread and the slot that its argument points to. -/
structure Thread (N K : ℕ) where
  slot : ℕ
  phase : Phase N K

/-- Where `main` is. -/
inductive Pc
  /-- It is about to use the slot of the loop variables. -/
  | creating (i j : ℕ)
  /-- The slot holds the pair, the thread has not been created. -/
  | starting (i j : ℕ)
  | joining (i : ℕ)
  | printed
deriving DecidableEq, Repr

/-- What the threads share.  A thread is identified by its position in the order of creation. -/
structure State (N K : ℕ) where
  pc : Pc
  v : List MatIndex
  tid : List ℕ
  threads : List (Thread N K)
  joined : List ℕ
  mat3 : Matrix (Fin N) (Fin K) ℤ

/-- `pthread_join(tid[i], NULL)`: a thread that has been joined may not be joined again. -/
def pthreadJoin (s : State N K) (i t : ℕ) : Outcome (State N K) :=
  match s.threads[t]? with
  | none => .undefined
  | some thread =>
      if t ∈ s.joined then
        .undefined
      else
        match thread.phase with
        | .done _ _ => .next { s with pc := .joining (i + 1), joined := t :: s.joined }
        | _ => .blocked

/-- `main`, from the creation loop on. -/
def mainStep (s : State N K) : Outcome (State N K) :=
  match s.pc with
  | .creating i j =>
      if i < N then
        if j < K then
          if slot N i j < s.v.length then
            .next { s with pc := .starting i j, v := s.v.set (slot N i j) ⟨i, j⟩ }
          else
            .undefined
        else
          .next { s with pc := .creating (i + 1) 0 }
      else
        .next { s with pc := .joining 0 }
  | .starting i j =>
      if slot N i j < s.tid.length then
        .next { s with
          pc := .creating i (j + 1)
          tid := s.tid.set (slot N i j) s.threads.length
          threads := s.threads ++ [⟨slot N i j, .ready⟩] }
      else
        .undefined
  | .joining i =>
      if i < numthreads N K then
        match s.tid[i]? with
        | none => .undefined
        | some t => pthreadJoin s i t
      else
        .next { s with pc := .printed }
  | .printed => .blocked

/-- The state in which a thread has moved on. -/
def State.advance (s : State N K) (t : ℕ) (thread : Thread N K) (phase : Phase N K) : State N K :=
  { s with threads := s.threads.set t { thread with phase := phase } }

/-- `mulvect`, for the cell that it finds in its slot when it starts. -/
def mulvectStep (mat1 : Matrix (Fin N) (Fin M) ℤ) (mat2 : Matrix (Fin M) (Fin K) ℤ) (t : ℕ)
    (s : State N K) : Outcome (State N K) :=
  match s.threads[t]? with
  | none => .blocked
  | some thread =>
      match thread.phase with
      | .ready =>
          match s.v[thread.slot]? with
          | none => .undefined
          | some index =>
              if h : index.row < N ∧ index.col < K then
                let row : Fin N := ⟨index.row, h.1⟩
                let col : Fin K := ⟨index.col, h.2⟩
                .next { s.advance t thread (.running row col 0) with
                  mat3 := setCell s.mat3 row col 0 }
              else
                .undefined
      | .running row col i =>
          if h : i < M then
            match addProduct (s.mat3 row col) (mat1 row ⟨i, h⟩) (mat2 ⟨i, h⟩ col) with
            | none => .undefined
            | some x =>
                .next { s.advance t thread (.running row col (i + 1)) with
                  mat3 := setCell s.mat3 row col x }
          else
            .next (s.advance t thread (.done row col))
      | .done _ _ => .blocked

/-- Who may be scheduled. -/
inductive Actor
  | main
  | thread (t : ℕ)
deriving DecidableEq, Repr

/-- The program.  The memory that has been allocated starts with arbitrary contents. -/
def program (mat1 : Matrix (Fin N) (Fin M) ℤ) (mat2 : Matrix (Fin M) (Fin K) ℤ) :
    System (State N K) Actor where
  init s :=
    s.pc = .creating 0 0 ∧ s.v.length = capacity (numthreads N K) sizeofMatIndex ∧
      s.tid.length = capacity (numthreads N K) sizeofPthread ∧ s.threads = [] ∧ s.joined = []
  step a :=
    match a with
    | .main => mainStep
    | .thread t => mulvectStep mat1 mat2 t

end Experimentation.MatrixMul
