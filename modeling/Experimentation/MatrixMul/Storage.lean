import Mathlib.Data.List.Perm.Basic
import Experimentation.MatrixMul.Mulvect
import Experimentation.Semantics.Heap

/-!
# The memory of a matrix

A matrix is a `matrix_t`, an array of pointers to its rows, and a block for each row.
`matrix_alloc` obtains them one after the other and counts in `mdepth` how far it has come, so that
it can undo what it has done when a request fails; a failure on the first row is a case of its own.

What the memory holds that `malloc` returns is arbitrary.
-/

namespace Experimentation.MatrixMul

open Semantics

inductive MmRet
  | ok
  | enomem
  | eio
deriving DecidableEq, Repr

structure MatrixT where
  rows : ℕ
  cols : ℕ
  data : Option BlockId
deriving DecidableEq, Repr

def sizeofMatrixT : ℕ := 24

def sizeofPointer : ℕ := 8

/-- The heap, with its blocks seen as `matrix_t` and as arrays of pointers. -/
structure Memory where
  heap : Heap
  matrix : BlockId → MatrixT
  pointer : BlockId → ℕ → Option BlockId

namespace Memory

variable (mem : Memory)

/-- `malloc(n)`. -/
def malloc (answer : Malloc) (n : ℕ) : Option BlockId × Memory :=
  let (p, heap) := mem.heap.malloc answer n
  (p, { mem with heap := heap })

def free (p : Option BlockId) : Exec Memory := do
  let heap ← mem.heap.free p
  return { mem with heap := heap }

/-- Dereference a pointer to a block of which `n` bytes are accessed. -/
def deref (p : Option BlockId) (n : ℕ) : Exec BlockId :=
  match p with
  | none => throw .badPointer
  | some b => if mem.heap.Holds b n then return b else throw .outOfBounds

/-- `**mat`. -/
def loadMatrix (mat : Option BlockId) : Exec MatrixT := do
  let b ← mem.deref mat sizeofMatrixT
  return mem.matrix b

/-- Overwrite `**mat`. -/
def storeMatrix (mat : Option BlockId) (m : MatrixT) : Exec Memory := do
  let b ← mem.deref mat sizeofMatrixT
  return { mem with matrix := Function.update mem.matrix b m }

/-- `(*mat)->data[i]`. -/
def loadRow (mat : Option BlockId) (i : ℕ) : Exec (Option BlockId) := do
  let m ← mem.loadMatrix mat
  let d ← mem.deref m.data ((i + 1) * sizeofPointer)
  return mem.pointer d i

/-- `(*mat)->data[i] = p`. -/
def storeRow (mat : Option BlockId) (i : ℕ) (p : Option BlockId) : Exec Memory := do
  let m ← mem.loadMatrix mat
  let d ← mem.deref m.data ((i + 1) * sizeofPointer)
  return { mem with
    pointer := Function.update mem.pointer d (Function.update (mem.pointer d) i p) }

end Memory

/-- Free the rows from row `j` on.  `turns` is the number of rows that are left. -/
def freeRows (mat : Option BlockId) : (turns j : ℕ) → Memory → Exec Memory
  | 0, _, mem => return mem
  | turns + 1, j, mem => do
      let p ← mem.loadRow mat j
      let mem ← mem.free p
      freeRows mat turns (j + 1) mem

/-- The `switch` at the end of `matrix_alloc`, in which every case falls through to the next one. -/
def cleanup (mat : Option BlockId) (i mdepth : ℕ) (mem : Memory) : Exec Memory :=
  let case1 (mem : Memory) : Exec Memory := mem.free mat
  let case2 (mem : Memory) : Exec Memory := do
    let m ← mem.loadMatrix mat
    let mem ← mem.free m.data
    case1 mem
  let case3 (mem : Memory) : Exec Memory := do
    let mem ← freeRows mat i 0 mem
    case2 mem
  match mdepth with
  | 3 => case3 mem
  | 2 => case2 mem
  | 1 => case1 mem
  | _ => return mem

/-- What follows the label `CLEANUP_AND_RETURN`. -/
def cleanupAndReturn (mat : Option BlockId) (i mdepth : ℕ) (mem : Memory) :
    Exec (MmRet × Option BlockId × Memory) := do
  let mem ← cleanup mat i mdepth mem
  return (.enomem, mat, mem)

/-- The loop of `matrix_alloc` over the rows from row `i` on.  `turns` is the number of rows that
are left.  The result has a row if its request has failed. -/
def allocRows (answer : Malloc) (mat : Option BlockId) (cols : ℕ) :
    (turns i : ℕ) → Memory → Exec (Option ℕ × Memory)
  | 0, _, mem => return (none, mem)
  | turns + 1, i, mem => do
      let (p, mem) := mem.malloc answer (wrapSize (cols * sizeofInt))
      let mem ← mem.storeRow mat i p
      if p = none then
        return (some i, mem)
      else
        allocRows answer mat cols turns (i + 1) mem

/-- `matrix_alloc`, from its loop on. -/
def matrixAllocRows (answer : Malloc) (mat : Option BlockId) (rows cols mdepth : ℕ) (mem : Memory) :
    Exec (MmRet × Option BlockId × Memory) := do
  match ← allocRows answer mat cols rows 0 mem with
  | (none, mem) => return (.ok, mat, mem)
  | (some i, mem) => cleanupAndReturn mat i (if i ≠ 0 then mdepth + 1 else mdepth) mem

/-- `matrix_alloc`, with the value that it leaves in `*mat`.  Before the loop `i` has no value, and
the case that uses it is not reached. -/
def matrixAlloc (answer : Malloc) (rows cols : ℕ) (mem : Memory) :
    Exec (MmRet × Option BlockId × Memory) := do
  let mdepth := 0
  let (mat, mem) := mem.malloc answer sizeofMatrixT
  if mat = none then
    cleanupAndReturn mat 0 mdepth mem
  else
    let mdepth := mdepth + 1
    let mem ← mem.storeMatrix mat { (← mem.loadMatrix mat) with rows := rows, cols := cols }
    let (data, mem) := mem.malloc answer (wrapSize (rows * sizeofPointer))
    let mem ← mem.storeMatrix mat { (← mem.loadMatrix mat) with data := data }
    if data = none then
      cleanupAndReturn mat 0 mdepth mem
    else
      let mdepth := mdepth + 1
      matrixAllocRows answer mat rows cols mdepth mem

def matrixFree (mat : Option BlockId) (mem : Memory) : Exec Memory := do
  let m ← mem.loadMatrix mat
  let mem ← freeRows mat m.rows 0 mem
  let m ← mem.loadMatrix mat
  let mem ← mem.free m.data
  mem.free mat

namespace Memory

variable {mem : Memory} {b : BlockId} {n : ℕ}

/-- The memory after some blocks have been freed. -/
def release (mem : Memory) (bs : List BlockId) : Memory :=
  { mem with heap := mem.heap.release bs }

@[simp]
theorem release_nil (mem : Memory) : mem.release [] = mem := rfl

theorem release_release (mem : Memory) (bs cs : List BlockId) :
    (mem.release bs).release cs = mem.release (cs ++ bs) := by
  rw [release, release, release, Heap.release_release]

theorem deref_eq (h : mem.heap.Holds b n) {k : ℕ} (hk : k ≤ n) : mem.deref (some b) k = .ok b :=
  if_pos ⟨h.1, hk.trans h.2⟩

theorem loadMatrix_eq (h : mem.heap.Holds b sizeofMatrixT) :
    mem.loadMatrix (some b) = .ok (mem.matrix b) := by
  rw [loadMatrix, mem.deref_eq h le_rfl]
  rfl

theorem storeMatrix_eq (h : mem.heap.Holds b sizeofMatrixT) (m : MatrixT) :
    mem.storeMatrix (some b) m = .ok { mem with matrix := Function.update mem.matrix b m } := by
  rw [storeMatrix, mem.deref_eq h le_rfl]
  rfl

theorem free_eq (h : mem.heap.Live b) : mem.free (some b) = .ok (mem.release [b]) := by
  rw [free, Heap.free_eq h]
  rfl

end Memory

/-! ## Matrices in memory -/

/-- There is a matrix at `mat`, with its array of pointers at `d`. -/
structure Header (mem : Memory) (mat d : BlockId) (rows cols : ℕ) : Prop where
  matrix : mem.matrix mat = ⟨rows, cols, some d⟩
  mat_holds : mem.heap.Holds mat sizeofMatrixT
  data_holds : mem.heap.Holds d (rows * sizeofPointer)

namespace Header

variable {mem : Memory} {mat d : BlockId} {rows cols : ℕ} (h : Header mem mat d rows cols)
include h

theorem release {bs : List BlockId} (hmat : mat ∉ bs) (hd : d ∉ bs) :
    Header (mem.release bs) mat d rows cols :=
  ⟨h.matrix, h.mat_holds.release hmat, h.data_holds.release hd⟩

theorem loadMatrix_eq : mem.loadMatrix (some mat) = .ok ⟨rows, cols, some d⟩ := by
  rw [mem.loadMatrix_eq h.mat_holds, h.matrix]

theorem deref_data {i : ℕ} (hi : i < rows) :
    mem.deref (some d) ((i + 1) * sizeofPointer) = .ok d :=
  mem.deref_eq h.data_holds (Nat.mul_le_mul_right _ hi)

theorem loadRow_eq {i : ℕ} (hi : i < rows) : mem.loadRow (some mat) i = .ok (mem.pointer d i) := by
  rw [Memory.loadRow, h.loadMatrix_eq, Exec.ok_bind]
  dsimp only
  rw [h.deref_data hi]
  rfl

theorem storeRow_eq {i : ℕ} (hi : i < rows) (p : Option BlockId) :
    mem.storeRow (some mat) i p = .ok { mem with
      pointer := Function.update mem.pointer d (Function.update (mem.pointer d) i p) } := by
  rw [Memory.storeRow, h.loadMatrix_eq, Exec.ok_bind]
  dsimp only
  rw [h.deref_data hi]
  rfl

end Header

/-- The blocks `bs` are the first rows of the matrix at `mat`. -/
structure Rows (mem : Memory) (mat d : BlockId) (rows cols : ℕ) (bs : List BlockId) : Prop extends
    Header mem mat d rows cols where
  length_le : bs.length ≤ rows
  pointer : ∀ i b, bs[i]? = some b → mem.pointer d i = some b
  live : ∀ b ∈ bs, mem.heap.Live b
  nodup : (mat :: d :: bs).Nodup

namespace Rows

variable {mem : Memory} {mat d : BlockId} {rows cols : ℕ} {bs : List BlockId}
  (h : Rows mem mat d rows cols bs)
include h

theorem mat_not_mem : mat ∉ bs := fun hmem ↦
  (List.nodup_cons.1 h.nodup).1 (List.mem_cons_of_mem d hmem)

theorem data_not_mem : d ∉ bs := (List.nodup_cons.1 (List.nodup_cons.1 h.nodup).2).1

theorem mat_ne : mat ≠ d := fun heq ↦ (List.nodup_cons.1 h.nodup).1 (heq ▸ List.mem_cons_self)

theorem freeRows_eq {turns j : ℕ} (hturns : j + turns = bs.length) :
    freeRows (some mat) turns j (mem.release (bs.take j).reverse) =
      .ok (mem.release bs.reverse) := by
  induction turns generalizing j with
  | zero =>
      have hall : j = bs.length := hturns
      rw [hall, List.take_length]
      rfl
  | succ turns ih =>
      have hj : j < bs.length := by omega
      have hsub : ∀ b ∈ (bs.take j).reverse, b ∈ bs := fun b hb ↦
        List.mem_of_mem_take (List.mem_reverse.1 hb)
      have hheader := h.toHeader.release (fun hmem ↦ h.mat_not_mem (hsub mat hmem))
        fun hmem ↦ h.data_not_mem (hsub d hmem)
      have hnodup : bs.Nodup := (List.nodup_cons.1 (List.nodup_cons.1 h.nodup).2).2
      have hget : bs[j]? = some bs[j] := List.getElem?_eq_getElem hj
      have hnew : bs[j] ∉ (bs.take j).reverse := by
        rw [List.mem_reverse]
        intro hmem
        obtain ⟨i, hi, heq⟩ := List.getElem_of_mem hmem
        rw [List.getElem_take, hnodup.getElem_inj_iff] at heq
        rw [List.length_take] at hi
        omega
      have hlive := (h.live bs[j] (List.getElem_mem hj)).release hnew
      have hprefix : [bs[j]] ++ (bs.take j).reverse = (bs.take (j + 1)).reverse := by
        rw [List.take_add_one, hget, Option.toList_some, List.reverse_append]
        rfl
      rw [freeRows, hheader.loadRow_eq (hj.trans_le h.length_le), Exec.ok_bind]
      change (mem.release _).free (mem.pointer d j) >>= _ = _
      rw [h.pointer j _ hget, Memory.free_eq hlive, Exec.ok_bind, Memory.release_release, hprefix]
      exact ih (by omega)

theorem cleanup_two_eq (i : ℕ) {cs : List BlockId} (hmat : mat ∉ cs) (hd : d ∉ cs) :
    cleanup (some mat) i 2 (mem.release cs) = .ok (mem.release (mat :: d :: cs)) := by
  have hheader := h.toHeader.release hmat hd
  have hmat' : mat ∉ d :: cs := fun hmem ↦ (List.mem_cons.1 hmem).elim h.mat_ne hmat
  dsimp only [cleanup]
  rw [hheader.loadMatrix_eq, Exec.ok_bind]
  dsimp only
  rw [Memory.free_eq hheader.data_holds.1, Exec.ok_bind, Memory.release_release]
  exact (Memory.free_eq (h.mat_holds.release hmat').1).trans (by rw [Memory.release_release]; rfl)

theorem cleanup_three_eq :
    cleanup (some mat) bs.length 3 mem = .ok (mem.release (mat :: d :: bs.reverse)) := by
  have hfree := h.freeRows_eq (Nat.zero_add bs.length)
  rw [List.take_zero, List.reverse_nil, Memory.release_nil] at hfree
  dsimp only [cleanup]
  rw [hfree, Exec.ok_bind]
  exact h.cleanup_two_eq 0 (fun hmem ↦ h.mat_not_mem (List.mem_reverse.1 hmem))
    fun hmem ↦ h.data_not_mem (List.mem_reverse.1 hmem)

theorem matrixFree_eq (hrows : bs.length = rows) :
    matrixFree (some mat) mem = .ok (mem.release (mat :: d :: bs.reverse)) := by
  have hcleanup := h.cleanup_three_eq
  dsimp only [cleanup] at hcleanup
  rw [matrixFree, h.loadMatrix_eq, Exec.ok_bind]
  dsimp only
  rw [← hrows]
  exact hcleanup

end Rows

/-! ## Allocating -/

/-- Between the two memories, the blocks `cs` have been obtained in this order, `refused` requests
have failed, and no block has been freed. -/
structure Grown (mem mem' : Memory) (cs : List BlockId) (refused : ℕ) : Prop where
  requests : mem'.heap.requests = mem.heap.requests + cs.length + refused
  obtained : mem'.heap.obtained = cs.reverse ++ mem.heap.obtained
  freed : mem'.heap.freed = mem.heap.freed
  new : ∀ c ∈ cs, c ∉ mem.heap.obtained

theorem Grown.trans {mem mem' mem'' : Memory} {cs cs' : List BlockId} {refused : ℕ}
    (h : Grown mem mem' cs 0) (h' : Grown mem' mem'' cs' refused) :
    Grown mem mem'' (cs ++ cs') refused where
  requests := by
    rw [h'.requests, h.requests, List.length_append]
    omega
  obtained := by
    rw [h'.obtained, h.obtained, List.reverse_append, List.append_assoc]
  freed := h'.freed.trans h.freed
  new c hc := by
    rcases List.mem_append.1 hc with hc | hc
    · exact h.new c hc
    · intro hold
      refine h'.new c hc ?_
      rw [h.obtained]
      exact List.mem_append_right _ hold

theorem Memory.malloc_cases (mem : Memory) (answer : Malloc) (n : ℕ) :
    (∃ mem', mem.malloc answer n = (none, mem') ∧ Grown mem mem' [] 1 ∧
      mem'.heap.size = mem.heap.size ∧ mem'.matrix = mem.matrix ∧ mem'.pointer = mem.pointer) ∨
    ∃ b mem', mem.malloc answer n = (some b, mem') ∧ Grown mem mem' [b] 0 ∧
      mem.heap.Obtains b n mem'.heap ∧ mem'.matrix = mem.matrix ∧ mem'.pointer = mem.pointer := by
  rcases mem.heap.malloc_cases answer n with heq | ⟨b, h, heq, hnew⟩
  · have hgrown : Grown mem { mem with heap.requests := mem.heap.requests + 1 } [] 1 :=
      ⟨rfl, rfl, rfl, fun c hc ↦ absurd hc List.not_mem_nil⟩
    refine .inl ⟨_, ?_, hgrown, rfl, rfl, rfl⟩
    rw [malloc, heq]
  · refine .inr ⟨b, { mem with heap := h }, ?_,
      ⟨hnew.requests, hnew.obtained, hnew.freed, ?_⟩, hnew, rfl, rfl⟩
    · rw [malloc, heq]
    · intro c hc
      rw [List.mem_singleton.1 hc]
      exact hnew.new

namespace Rows

variable {mem : Memory} {mat d : BlockId} {rows cols : ℕ} {bs : List BlockId}

theorem obtained (h : Rows mem mat d rows cols bs) {b : BlockId} (hb : b ∈ mat :: d :: bs) :
    b ∈ mem.heap.obtained := by
  rcases List.mem_cons.1 hb with rfl | hb
  · exact h.mat_holds.1.1
  · rcases List.mem_cons.1 hb with rfl | hb
    · exact h.data_holds.1.1
    · exact (h.live b hb).1

/-- A request for a row that fails leaves the rows before it as they are. -/
theorem fail (h : Rows mem mat d rows cols bs) {mem' : Memory} (hgrown : Grown mem mem' [] 1)
    (hsize : mem'.heap.size = mem.heap.size) (hmatrix : mem'.matrix = mem.matrix)
    (hpointer : ∀ i < bs.length, mem'.pointer d i = mem.pointer d i) :
    Rows mem' mat d rows cols bs := by
  have hobtained : mem'.heap.obtained = mem.heap.obtained := hgrown.obtained
  have hlive : ∀ b, mem.heap.Live b → mem'.heap.Live b := by
    intro b hb
    exact ⟨hobtained ▸ hb.1, hgrown.freed ▸ hb.2⟩
  refine ⟨⟨?_, ⟨hlive _ h.mat_holds.1, ?_⟩, ⟨hlive _ h.data_holds.1, ?_⟩⟩, h.length_le, ?_, ?_,
    h.nodup⟩
  · rw [hmatrix, h.matrix]
  · rw [hsize]
    exact h.mat_holds.2
  · rw [hsize]
    exact h.data_holds.2
  · intro i b hb
    rw [hpointer i (List.getElem?_eq_some_iff.1 hb).1]
    exact h.pointer i b hb
  · exact fun b hb ↦ hlive b (h.live b hb)

/-- A request for a row that succeeds adds the row. -/
theorem add (h : Rows mem mat d rows cols bs) {mem' : Memory} {b : BlockId} {n : ℕ}
    (hlt : bs.length < rows) (hnew : mem.heap.Obtains b n mem'.heap)
    (hmatrix : mem'.matrix = mem.matrix)
    (hpointer : mem'.pointer = Function.update mem.pointer d
      (Function.update (mem.pointer d) bs.length (some b))) :
    Rows mem' mat d rows cols (bs ++ [b]) := by
  refine ⟨⟨?_, h.mat_holds.of_obtains hnew, h.data_holds.of_obtains hnew⟩, ?_, ?_, ?_, ?_⟩
  · rw [hmatrix, h.matrix]
  · rw [List.length_append]
    exact hlt
  · intro i c hc
    rw [hpointer, Function.update_self]
    rcases (Nat.lt_succ_iff_lt_or_eq.1 (by simpa using (List.getElem?_eq_some_iff.1 hc).1)) with
      hold | heq
    · rw [List.getElem?_append_left hold] at hc
      rw [Function.update_of_ne hold.ne]
      exact h.pointer i c hc
    · rw [heq, List.getElem?_concat_length] at hc
      rw [heq, Function.update_self]
      exact hc
  · intro c hc
    rcases List.mem_append.1 hc with hold | hself
    · have hlive := h.live c hold
      exact (Heap.Holds.of_obtains ⟨hlive, Nat.zero_le _⟩ hnew).1
    · rw [List.mem_singleton.1 hself]
      exact hnew.holds.1
  · have happend : mat :: d :: (bs ++ [b]) = (mat :: d :: bs) ++ [b] := rfl
    rw [happend, List.nodup_append_comm]
    exact List.nodup_cons.2 ⟨fun hmem ↦ hnew.new (h.obtained hmem), h.nodup⟩

theorem allocRows_succ (h : Rows mem mat d rows cols bs) (answer : Malloc)
    (hlt : bs.length < rows) (turns : ℕ) :
    (∃ mem', allocRows answer (some mat) cols (turns + 1) bs.length mem =
        .ok (some bs.length, mem') ∧ Rows mem' mat d rows cols bs ∧ Grown mem mem' [] 1) ∨
    ∃ b mem', allocRows answer (some mat) cols (turns + 1) bs.length mem =
        allocRows answer (some mat) cols turns (bs ++ [b]).length mem' ∧
      Rows mem' mat d rows cols (bs ++ [b]) ∧ Grown mem mem' [b] 0 := by
  rcases mem.malloc_cases answer (wrapSize (cols * sizeofInt)) with
    ⟨mem', heq, hgrown, hsize, hmatrix, hpointer⟩ | ⟨b, mem', heq, hgrown, hnew, hmatrix, hpointer⟩
  · have hrows := h.fail hgrown hsize hmatrix fun i _ ↦ by rw [hpointer]
    have hfail : Rows { mem' with
        pointer := Function.update mem'.pointer d
          (Function.update (mem'.pointer d) bs.length none) } mat d rows cols bs := by
      refine h.fail ⟨hgrown.requests, hgrown.obtained, hgrown.freed, hgrown.new⟩ hsize hmatrix
        fun i hi ↦ ?_
      dsimp only
      rw [Function.update_self, Function.update_of_ne hi.ne, hpointer]
    refine .inl ⟨_, ?_, hfail, ⟨hgrown.requests, hgrown.obtained, hgrown.freed, hgrown.new⟩⟩
    rw [allocRows, heq]
    dsimp only
    rw [hrows.storeRow_eq hlt, Exec.ok_bind, if_pos rfl]
    rfl
  · have hheader : Header mem' mat d rows cols :=
      ⟨by rw [hmatrix, h.matrix], h.mat_holds.of_obtains hnew, h.data_holds.of_obtains hnew⟩
    have hadd : Rows { mem' with
        pointer := Function.update mem'.pointer d
          (Function.update (mem'.pointer d) bs.length (some b)) } mat d rows cols (bs ++ [b]) :=
      h.add hlt hnew hmatrix (by dsimp only; rw [hpointer])
    refine .inr ⟨b, _, ?_, hadd, ⟨hgrown.requests, hgrown.obtained, hgrown.freed, hgrown.new⟩⟩
    rw [allocRows, heq]
    dsimp only
    rw [hheader.storeRow_eq hlt, Exec.ok_bind, if_neg (Option.some_ne_none b), List.length_append]
    rfl

theorem allocRows_cases (h : Rows mem mat d rows cols bs) (answer : Malloc) {turns : ℕ}
    (hturns : bs.length + turns = rows) :
    ∃ cs mem', Rows mem' mat d rows cols (bs ++ cs) ∧
      (allocRows answer (some mat) cols turns bs.length mem = .ok (none, mem') ∧
          (bs ++ cs).length = rows ∧ Grown mem mem' cs 0 ∨
        allocRows answer (some mat) cols turns bs.length mem =
          .ok (some (bs ++ cs).length, mem') ∧ (bs ++ cs).length < rows ∧
          Grown mem mem' cs 1) := by
  induction turns generalizing bs mem with
  | zero =>
      have hgrown : Grown mem mem [] 0 := ⟨rfl, rfl, rfl, fun c hc ↦ absurd hc List.not_mem_nil⟩
      refine ⟨[], mem, ?_, .inl ⟨rfl, ?_, hgrown⟩⟩
      · rwa [List.append_nil]
      · rwa [List.append_nil]
  | succ turns ih =>
      have hlt : bs.length < rows := by omega
      rcases h.allocRows_succ answer hlt turns with ⟨mem', hrun, hrows, hgrown⟩ |
        ⟨b, mem₁, hrun, hrows, hgrown⟩
      · refine ⟨[], mem', ?_, .inr ⟨?_, ?_, hgrown⟩⟩
        · rwa [List.append_nil]
        · rw [hrun, List.append_nil]
        · rwa [List.append_nil]
      · have hrest : (bs ++ [b]).length + turns = rows := by
          rw [List.length_append, List.length_singleton]
          omega
        obtain ⟨cs, mem', hrows', hresult⟩ := ih hrows hrest
        rw [hrun]
        refine ⟨b :: cs, mem', ?_, ?_⟩
        · rwa [List.append_cons]
        rw [List.append_cons bs b cs]
        rcases hresult with ⟨hloop, hlength, hmore⟩ | ⟨hloop, hlength, hmore⟩
        · exact .inl ⟨hloop, hlength, hgrown.trans hmore⟩
        · exact .inr ⟨hloop, hlength, hgrown.trans hmore⟩

end Rows

/-! ## All or nothing -/

/-- The program has changed nothing since but elements of the matrix, and what is none of its
blocks. -/
structure KeepsMatrix (mat : BlockId) (blocks : List BlockId) (mem mem' : Memory) : Prop where
  live : ∀ b ∈ blocks, mem'.heap.Live b
  size : ∀ b ∈ blocks, mem'.heap.size b = mem.heap.size b
  matrix : mem'.matrix mat = mem.matrix mat
  pointer : ∀ d, (mem.matrix mat).data = some d → mem'.pointer d = mem.pointer d

/-- The blocks have been freed, each of them once, and nothing else has. -/
structure FreedOnce (blocks : List BlockId) (mem mem' : Memory) : Prop where
  nodup : blocks.Nodup
  freed : ∃ fs, mem'.heap.freed = fs ++ mem.heap.freed ∧ fs.Perm blocks

/-- The call has been granted all it has asked for, which are the blocks of a matrix, and
`matrix_free` will free them. -/
structure Kept (rows : ℕ) (mat : BlockId) (blocks : List BlockId) (mem mem' : Memory) : Prop where
  length : blocks.length = 2 + rows
  granted : mem'.heap.requests = mem.heap.requests + blocks.length
  nodup : blocks.Nodup
  obtained : mem'.heap.obtained = blocks ++ mem.heap.obtained
  freed : mem'.heap.freed = mem.heap.freed
  live : ∀ b ∈ blocks, mem'.heap.Live b
  matrixFree : ∀ mem₁, KeepsMatrix mat blocks mem' mem₁ → ∃ mem₂,
    MatrixMul.matrixFree (some mat) mem₁ = .ok mem₂ ∧
      mem₂.heap.obtained = mem₁.heap.obtained ∧ FreedOnce blocks mem₁ mem₂

/-- The last request of the call has failed, and the call has freed all that it had obtained. -/
structure Undone (rows : ℕ) (blocks : List BlockId) (mem mem' : Memory) : Prop where
  length : blocks.length < 2 + rows
  refused : mem'.heap.requests = mem.heap.requests + blocks.length + 1
  obtained : mem'.heap.obtained = blocks ++ mem.heap.obtained
  new : ∀ b ∈ blocks, b ∉ mem.heap.obtained
  freedOnce : FreedOnce blocks mem mem'

/-- `matrix_alloc` returns `MM_OK` with all blocks of a matrix if all its requests are granted, and
`MM_ENOMEM` with none of them once a request has failed. -/
def AllOrNothing (answer : Malloc) (rows cols : ℕ) (mem : Memory) : Prop :=
  (∃ mat mem' blocks, matrixAlloc answer rows cols mem = .ok (.ok, some mat, mem') ∧
    Kept rows mat blocks mem mem') ∨
  ∃ mat mem' blocks, matrixAlloc answer rows cols mem = .ok (.enomem, mat, mem') ∧
    Undone rows blocks mem mem'

theorem Grown.undone {mem mem' : Memory} {cs : List BlockId} (h : Grown mem mem' cs 1)
    (hnodup : cs.Nodup) {rows : ℕ} (hlength : cs.length < 2 + rows) {fs : List BlockId}
    (hperm : fs.Perm cs) : Undone rows cs.reverse mem (mem'.release fs) where
  length := by
    rwa [List.length_reverse]
  refused := by
    rw [List.length_reverse]
    exact h.requests
  obtained := h.obtained
  new b hb := h.new b (List.mem_reverse.1 hb)
  freedOnce := by
    refine ⟨List.nodup_reverse.2 hnodup, fs, ?_, hperm.trans (List.reverse_perm cs).symm⟩
    rw [← h.freed]
    rfl

namespace Rows

variable {mem mem' : Memory} {mat d : BlockId} {rows cols : ℕ} {bs : List BlockId}
  (h : Rows mem mat d rows cols bs)
include h

theorem of_keeps (hkeeps : KeepsMatrix mat (mat :: d :: bs).reverse mem mem') :
    Rows mem' mat d rows cols bs := by
  have hlive : ∀ b ∈ mat :: d :: bs, mem'.heap.Live b := fun b hb ↦
    hkeeps.live b (List.mem_reverse.2 hb)
  have hsize : ∀ b ∈ mat :: d :: bs, mem'.heap.size b = mem.heap.size b := fun b hb ↦
    hkeeps.size b (List.mem_reverse.2 hb)
  have hmat : mat ∈ mat :: d :: bs := List.mem_cons_self
  have hd : d ∈ mat :: d :: bs := List.mem_cons_of_mem mat List.mem_cons_self
  refine ⟨⟨?_, ⟨hlive mat hmat, ?_⟩, ⟨hlive d hd, ?_⟩⟩, h.length_le, ?_, ?_, h.nodup⟩
  · rw [hkeeps.matrix, h.matrix]
  · rw [hsize mat hmat]
    exact h.mat_holds.2
  · rw [hsize d hd]
    exact h.data_holds.2
  · intro i b hb
    rw [hkeeps.pointer d (by rw [h.matrix])]
    exact h.pointer i b hb
  · exact fun b hb ↦ hlive b (List.mem_cons_of_mem mat (List.mem_cons_of_mem d hb))

/-- What `matrix_alloc` leaves when all requests have been granted. -/
theorem kept (hrows : bs.length = rows) {mem₀ : Memory}
    (hgrown : Grown mem₀ mem (mat :: d :: bs) 0) :
    Kept rows mat (mat :: d :: bs).reverse mem₀ mem where
  length := by
    rw [List.length_reverse, List.length_cons, List.length_cons, hrows]
    omega
  granted := by
    rw [List.length_reverse]
    exact hgrown.requests
  nodup := List.nodup_reverse.2 h.nodup
  obtained := hgrown.obtained
  freed := hgrown.freed
  live b hb := by
    rcases List.mem_cons.1 (List.mem_reverse.1 hb) with rfl | hb
    · exact h.mat_holds.1
    · rcases List.mem_cons.1 hb with rfl | hb
      · exact h.data_holds.1
      · exact h.live b hb
  matrixFree mem₁ hkeeps := by
    have hperm : (mat :: d :: bs.reverse).Perm (mat :: d :: bs).reverse :=
      (((List.reverse_perm bs).cons d).cons mat).trans (List.reverse_perm _).symm
    exact ⟨_, (h.of_keeps hkeeps).matrixFree_eq hrows, rfl,
      List.nodup_reverse.2 h.nodup, mat :: d :: bs.reverse, rfl, hperm⟩

/-- The clean-up after the request for a row has failed, be it the first one or another one. -/
theorem cleanup_eq :
    cleanup (some mat) bs.length (if bs.length ≠ 0 then 3 else 2) mem =
      .ok (mem.release (mat :: d :: bs.reverse)) := by
  by_cases hfirst : bs.length = 0
  · have hnil : bs = [] := List.length_eq_zero_iff.1 hfirst
    have hcleanup : cleanup (some mat) bs.length 2 (mem.release []) =
        .ok (mem.release [mat, d]) := h.cleanup_two_eq _ List.not_mem_nil List.not_mem_nil
    rw [if_neg (not_not.2 hfirst), hnil] at *
    exact hcleanup
  · rw [if_pos hfirst]
    exact h.cleanup_three_eq

end Rows

/-- What `matrix_alloc` does once the `matrix_t` and the array of pointers have been obtained. -/
theorem Rows.matrixAllocRows_cases {mem mem' : Memory} {mat d : BlockId} {rows cols : ℕ}
    (h : Rows mem' mat d rows cols []) (hgrown : Grown mem mem' [mat, d] 0) (answer : Malloc) :
    ∃ r mem'' blocks,
      matrixAllocRows answer (some mat) rows cols 2 mem' = .ok (r, some mat, mem'') ∧
      (r = .ok ∧ Kept rows mat blocks mem mem'' ∨
        r = .enomem ∧ Undone rows blocks mem mem'') := by
  obtain ⟨bs, mem₁, hrows, hresult⟩ := h.allocRows_cases answer (Nat.zero_add rows)
  rw [List.nil_append] at hrows hresult
  rw [List.length_nil] at hresult
  rcases hresult with ⟨hloop, hlength, hmore⟩ | ⟨hloop, hlength, hmore⟩
  · refine ⟨.ok, mem₁, _, ?_, .inl ⟨rfl, hrows.kept hlength (hgrown.trans hmore)⟩⟩
    rw [matrixAllocRows, hloop]
    rfl
  · have hperm : (mat :: d :: bs.reverse).Perm (mat :: d :: bs) :=
      ((List.reverse_perm bs).cons d).cons mat
    have hfewer : (mat :: d :: bs).length < 2 + rows := by
      rw [List.length_cons, List.length_cons]
      omega
    have hundone := (hgrown.trans hmore).undone hrows.nodup hfewer hperm
    refine ⟨.enomem, _, _, ?_, .inr ⟨rfl, hundone⟩⟩
    rw [matrixAllocRows, hloop, Exec.ok_bind]
    dsimp only
    have hcleanup := hrows.cleanup_eq
    rw [cleanupAndReturn, hcleanup]
    rfl

/-- The `matrix_t` with the dimensions in it. -/
def withDimensions (mem : Memory) (mat rows cols : ℕ) : Memory :=
  let m : MatrixT := { mem.matrix mat with rows := rows, cols := cols }
  { mem with matrix := Function.update mem.matrix mat m }

/-- The `matrix_t` with the pointer to the array in it. -/
def withData (mem : Memory) (mat : BlockId) (data : Option BlockId) : Memory :=
  let m : MatrixT := { mem.matrix mat with data := data }
  { mem with matrix := Function.update mem.matrix mat m }

theorem matrixAlloc_eq {answer : Malloc} {rows cols : ℕ} {mem mem₁ mem₂ : Memory} {mat : BlockId}
    {data : Option BlockId} (heq : mem.malloc answer sizeofMatrixT = (some mat, mem₁))
    (hmat : mem₁.heap.Holds mat sizeofMatrixT)
    (heq' : (withDimensions mem₁ mat rows cols).malloc answer (wrapSize (rows * sizeofPointer)) =
      (data, mem₂)) (hmat' : mem₂.heap.Holds mat sizeofMatrixT) :
    matrixAlloc answer rows cols mem =
      if data = none then cleanupAndReturn (some mat) 0 1 (withData mem₂ mat data)
      else matrixAllocRows answer (some mat) rows cols 2 (withData mem₂ mat data) := by
  rw [matrixAlloc, heq]
  dsimp only
  rw [if_neg (Option.some_ne_none mat), Memory.loadMatrix_eq hmat, Exec.ok_bind,
    Memory.storeMatrix_eq hmat, Exec.ok_bind]
  dsimp only [withDimensions] at heq' ⊢
  rw [heq']
  dsimp only
  rw [Memory.loadMatrix_eq hmat', Exec.ok_bind, Memory.storeMatrix_eq hmat', Exec.ok_bind]
  rfl

/-- `matrix_alloc` returns all blocks of a matrix or none, whatever `malloc` answers. -/
theorem matrixAlloc_allOrNothing (answer : Malloc) {rows : ℕ} (cols : ℕ)
    (hrows : rows * sizeofPointer < sizeModulus) (mem : Memory) :
    AllOrNothing answer rows cols mem := by
  rcases mem.malloc_cases answer sizeofMatrixT with
    ⟨mem₁, heq, hgrown, _⟩ | ⟨mat, mem₁, heq, hgrown, hmat, _, _⟩
  · have hnone : ([] : List BlockId).length < 2 + rows := Nat.lt_add_right rows two_pos
    refine .inr ⟨none, mem₁, [], ?_, hgrown.undone List.nodup_nil hnone (.refl [])⟩
    rw [matrixAlloc, heq]
    rfl
  have hgrown₁ : Grown mem (withDimensions mem₁ mat rows cols) [mat] 0 :=
    ⟨hgrown.requests, hgrown.obtained, hgrown.freed, hgrown.new⟩
  have hmat₁ : (withDimensions mem₁ mat rows cols).heap.Holds mat sizeofMatrixT := hmat.holds
  rcases (withDimensions mem₁ mat rows cols).malloc_cases answer (wrapSize (rows * sizeofPointer))
    with ⟨mem₂, heq', hgrown', hsize, _⟩ | ⟨d, mem₂, heq', hgrown', hd, hmatrix, _⟩
  · have hmat₂ : mem₂.heap.Holds mat sizeofMatrixT := by
      refine ⟨⟨?_, ?_⟩, ?_⟩
      · rw [hgrown'.obtained]
        exact hmat₁.1.1
      · rw [hgrown'.freed]
        exact hmat₁.1.2
      · rw [hsize]
        exact hmat₁.2
    have hboth := hgrown₁.trans hgrown'
    have hall : Grown mem (withData mem₂ mat none) [mat] 1 :=
      ⟨hboth.requests, hboth.obtained, hboth.freed, hboth.new⟩
    have hone : [mat].length < 2 + rows := Nat.lt_add_right rows one_lt_two
    refine .inr ⟨some mat, _, _, ?_, hall.undone (List.nodup_singleton mat) hone (.refl [mat])⟩
    have hcleanup : cleanup (some mat) 0 1 (withData mem₂ mat none) =
        .ok ((withData mem₂ mat none).release [mat]) := Memory.free_eq hmat₂.1
    rw [matrixAlloc_eq heq hmat.holds heq' hmat₂, if_pos rfl, cleanupAndReturn, hcleanup]
    rfl
  · have hmat₂ : mem₂.heap.Holds mat sizeofMatrixT := hmat₁.of_obtains hd
    have hne : mat ≠ d := fun heq ↦ hd.new (heq ▸ hmat₁.1.1)
    have hheader : Rows (withData mem₂ mat (some d)) mat d rows cols [] := by
      refine ⟨⟨?_, hmat₂, ?_⟩, Nat.zero_le rows, ?_, ?_, ?_⟩
      · dsimp only [withData]
        rw [Function.update_self, hmatrix]
        dsimp only [withDimensions]
        rw [Function.update_self]
      · have hholds := hd.holds
        rwa [wrapSize_of_lt hrows] at hholds
      · exact fun i b hb ↦ by cases hb
      · exact fun b hb ↦ absurd hb List.not_mem_nil
      · exact List.nodup_cons.2 ⟨fun hmem ↦ hne (List.mem_singleton.1 hmem), List.nodup_singleton d⟩
    have hboth := hgrown₁.trans hgrown'
    have hall : Grown mem (withData mem₂ mat (some d)) [mat, d] 0 :=
      ⟨hboth.requests, hboth.obtained, hboth.freed, hboth.new⟩
    obtain ⟨r, mem₃, blocks, hrun, hresult⟩ := hheader.matrixAllocRows_cases hall answer
    have hcall := matrixAlloc_eq heq hmat.holds heq' hmat₂
    rw [if_neg (Option.some_ne_none d), hrun] at hcall
    rcases hresult with ⟨rfl, hkept⟩ | ⟨rfl, hundone⟩
    · exact .inl ⟨mat, mem₃, blocks, hcall, hkept⟩
    · exact .inr ⟨some mat, mem₃, blocks, hcall, hundone⟩

/-- An allocator that numbers its blocks and grants the first requests only. -/
def grantFirst (count : ℕ) : Malloc where
  answer h _ := if h.requests < count then some ((h.obtained ++ h.freed).sum + 1) else none
  fresh := by
    intro h n b hb
    have hlt : ∀ c ∈ h.obtained ++ h.freed, c < (h.obtained ++ h.freed).sum + 1 := fun c hc ↦
      Nat.lt_succ_of_le (List.single_le_sum (fun _ _ ↦ Nat.zero_le _) c hc)
    have hnot : b ∉ h.obtained ++ h.freed := by
      intro hmem
      split at hb
      · cases hb
        exact lt_irrefl _ (hlt _ hmem)
      · cases hb
    rw [List.mem_append, not_or] at hnot
    exact hnot

/-- No memory is in use. -/
def emptyMemory : Memory where
  heap := ⟨0, [], [], fun _ ↦ 0⟩
  matrix _ := ⟨0, 0, none⟩
  pointer _ _ := none

/-- Two rows of three elements, with the request for the second row failing and without: what the
call returns, and the blocks that it has obtained and freed. -/
theorem grantFirst_allOrNothing :
    (AllOrNothing (grantFirst 3) 2 3 emptyMemory ∧
      (matrixAlloc (grantFirst 3) 2 3 emptyMemory).map (fun r ↦
        (r.1, r.2.2.heap.obtained, r.2.2.heap.freed)) = .ok (.enomem, [4, 2, 1], [1, 2, 4])) ∧
    AllOrNothing (grantFirst 4) 2 3 emptyMemory ∧
      (matrixAlloc (grantFirst 4) 2 3 emptyMemory).map (fun r ↦
        (r.1, r.2.2.heap.obtained, r.2.2.heap.freed)) = .ok (.ok, [8, 4, 2, 1], []) :=
  ⟨⟨matrixAlloc_allOrNothing _ 3 (by decide) _, rfl⟩,
    matrixAlloc_allOrNothing _ 3 (by decide) _, rfl⟩

end Experimentation.MatrixMul
