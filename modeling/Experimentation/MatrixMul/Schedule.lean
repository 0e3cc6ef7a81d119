import Mathlib.LinearAlgebra.Matrix.Notation
import Experimentation.MatrixMul.Program

/-!
# All schedules of the threaded product

As long as the creation loop numbers the cells row by row, thread `i * K + j` owns the cell `(i, j)`
and its own slot, so that no thread touches what another one reads.  Every schedule then ends with
the product, whatever the order in which the threads run.

The loop multiplies the row by the number of rows of the first matrix instead of the number of
columns of the second one.  Both give the same slots for a single row and for a square product, and
for no other shape.
-/

namespace Experimentation.MatrixMul

open Semantics

variable {N M K : ℕ} {mat1 : Matrix (Fin N) (Fin M) ℤ} {mat2 : Matrix (Fin M) (Fin K) ℤ}

/-- The part of a dot product that the loop of `mulvect` has added up after `i` turns. -/
def partialDot (mat1 : Matrix (Fin N) (Fin M) ℤ) (mat2 : Matrix (Fin M) (Fin K) ℤ) (row : Fin N)
    (col : Fin K) (i : ℕ) : ℤ :=
  ∑ l : Fin M with l.val < i, mat1 row l * mat2 l col

theorem partialDot_zero (row : Fin N) (col : Fin K) : partialDot mat1 mat2 row col 0 = 0 := by
  simp [partialDot]

theorem partialDot_succ (row : Fin N) (col : Fin K) {i : ℕ} (h : i < M) :
    partialDot mat1 mat2 row col (i + 1) =
      partialDot mat1 mat2 row col i + mat1 row ⟨i, h⟩ * mat2 ⟨i, h⟩ col := by
  have hfilter : (Finset.univ.filter fun l : Fin M ↦ l.val < i + 1) =
      insert ⟨i, h⟩ (Finset.univ.filter fun l : Fin M ↦ l.val < i) := by
    ext l
    simp only [Finset.mem_filter, Finset.mem_univ, true_and, Finset.mem_insert, Fin.ext_iff]
    omega
  rw [partialDot, hfilter, Finset.sum_insert (by simp), add_comm]
  rfl

theorem partialDot_all (row : Fin N) (col : Fin K) :
    partialDot mat1 mat2 row col M = (mat1 * mat2) row col := by
  rw [partialDot, Matrix.mul_apply, Finset.filter_true_of_mem fun l _ ↦ l.isLt]

/-- No computation of a dot product leaves `int`. -/
structure NoOverflow (mat1 : Matrix (Fin N) (Fin M) ℤ) (mat2 : Matrix (Fin M) (Fin K) ℤ) :
    Prop where
  product : ∀ row l col, IsInt (mat1 row l * mat2 l col)
  sum : ∀ row col, ∀ i ≤ M, IsInt (partialDot mat1 mat2 row col i)

theorem NoOverflow.addProduct_eq (h : NoOverflow mat1 mat2) (row : Fin N) (col : Fin K) {i : ℕ}
    (hi : i < M) :
    addProduct (partialDot mat1 mat2 row col i) (mat1 row ⟨i, hi⟩) (mat2 ⟨i, hi⟩ col) =
      some (partialDot mat1 mat2 row col (i + 1)) := by
  have hsum := h.sum row col (i + 1) hi
  rw [partialDot_succ row col hi] at hsum ⊢
  exact if_pos ⟨h.product _ _ _, hsum⟩

/-- The arrays of pairs and of identifiers have been allocated for all cells. -/
def Allocated (N K : ℕ) : Prop := N * K * sizeofMatIndex < sizeModulus

instance (N K : ℕ) : Decidable (Allocated N K) :=
  inferInstanceAs (Decidable (N * K * sizeofMatIndex < sizeModulus))

/-- The creation loop numbers the cells row by row. -/
def RowMajor (N K : ℕ) : Prop := ∀ i < N, ∀ j < K, slot N i j = i * K + j

theorem flat_lt {i j : ℕ} (hi : i < N) (hj : j < K) : i * K + j < N * K := by
  calc
    i * K + j < i * K + K := Nat.add_lt_add_left hj _
    _ = (i + 1) * K := (Nat.succ_mul i K).symm
    _ ≤ N * K := Nat.mul_le_mul_right K hi

theorem flat_injective {i j i' j' : ℕ} (hj : j < K) (hj' : j' < K)
    (h : i * K + j = i' * K + j') : i = i' ∧ j = j' := by
  have hpos : 0 < K := Nat.zero_lt_of_lt hj
  have hij := (Nat.div_mod_unique hpos).2 ⟨(by rw [mul_comm, add_comm] : j + K * i = i * K + j), hj⟩
  have hij' := (Nat.div_mod_unique hpos).2
    ⟨(by rw [mul_comm, add_comm] : j' + K * i' = i' * K + j'), hj'⟩
  rw [h] at hij
  exact ⟨hij.1.symm.trans hij'.1, hij.2.symm.trans hij'.2⟩

theorem exists_flat {t : ℕ} (h : t < N * K) : ∃ i < N, ∃ j < K, t = i * K + j := by
  have hpos : 0 < K := Nat.pos_of_mul_pos_left (Nat.zero_lt_of_lt h)
  exact ⟨t / K, Nat.div_lt_of_lt_mul (by rwa [mul_comm]), t % K, Nat.mod_lt _ hpos,
    (Nat.div_add_mod' t K).symm⟩

theorem Allocated.numthreads_eq (h : Allocated N K) : numthreads N K = N * K :=
  wrapSize_of_lt (by unfold Allocated sizeofMatIndex at h; omega)

theorem Allocated.capacity_eq (h : Allocated N K) {size : ℕ} (hpos : 0 < size)
    (hsize : size ≤ sizeofMatIndex) : capacity (numthreads N K) size = N * K := by
  have hlt : N * K * size < sizeModulus := (Nat.mul_le_mul_left _ hsize).trans_lt h
  rw [capacity, h.numthreads_eq, wrapSize_of_lt hlt, Nat.mul_div_cancel _ hpos]

theorem rowMajor_of_shape (hmem : Allocated N K) (h : N = 1 ∨ N = K) : RowMajor N K := by
  intro i hi j hj
  have hlt : i * K + j < sizeModulus := by
    have hflat := flat_lt hi hj
    unfold Allocated sizeofMatIndex at hmem
    omega
  have heq : i * N + j = i * K + j := by
    rcases h with hone | hsquare
    · have hzero : i = 0 := by omega
      rw [hzero, zero_mul, zero_mul]
    · rw [hsquare]
  rw [slot, heq, wrapSize_of_lt hlt]

/-! ## The invariant -/

/-- What the place of a thread says about the cell that it owns. -/
def PhaseHolds (mat1 : Matrix (Fin N) (Fin M) ℤ) (mat2 : Matrix (Fin M) (Fin K) ℤ)
    (mat3 : Matrix (Fin N) (Fin K) ℤ) (t : ℕ) : Phase N K → Prop
  | .ready => True
  | .running row col i =>
      t = row * K + col ∧ i ≤ M ∧ mat3 row col = partialDot mat1 mat2 row col i
  | .done row col => t = row * K + col ∧ mat3 row col = (mat1 * mat2) row col

/-- How many threads have been created and joined when `main` is at a place. -/
def PlaceHolds (N K : ℕ) (v : List MatIndex) (created joined : ℕ) : Pc → Prop
  | .creating i j => i ≤ N ∧ j ≤ K ∧ (i = N → j = 0) ∧ created = i * K + j ∧ joined = 0
  | .starting i j =>
      i < N ∧ j < K ∧ v[i * K + j]? = some ⟨i, j⟩ ∧ created = i * K + j ∧ joined = 0
  | .joining i => i ≤ N * K ∧ created = N * K ∧ joined = i
  | .printed => created = N * K ∧ joined = N * K

theorem PlaceHolds.created_le {v : List MatIndex} {created joined : ℕ} {pc : Pc}
    (h : PlaceHolds N K v created joined pc) : created ≤ N * K := by
  cases pc with
  | creating i j =>
      obtain ⟨hi, hj, hlast, hcount, _⟩ := h
      rcases hi.eq_or_lt with heq | hlt
      · rw [hcount, heq, hlast heq, Nat.add_zero]
      · calc
          created = i * K + j := hcount
          _ ≤ i * K + K := Nat.add_le_add_left hj _
          _ = (i + 1) * K := (Nat.succ_mul i K).symm
          _ ≤ N * K := Nat.mul_le_mul_right K hlt
  | starting i j =>
      obtain ⟨hi, hj, _, hcount, _⟩ := h
      exact hcount ▸ (flat_lt hi hj).le
  | joining i => exact h.2.1.le
  | printed => exact h.1.le

/-- Thread `i * K + j` owns the slot of that number and the cell `(i, j)`; the threads are joined in
the order of their creation. -/
structure Owning (mat1 : Matrix (Fin N) (Fin M) ℤ) (mat2 : Matrix (Fin M) (Fin K) ℤ)
    (s : State N K) : Prop where
  v_length : s.v.length = N * K
  tid_length : s.tid.length = N * K
  place : PlaceHolds N K s.v s.threads.length s.joined.length s.pc
  thread : ∀ t < s.threads.length, ∃ phase, s.threads[t]? = some ⟨t, phase⟩ ∧
    PhaseHolds mat1 mat2 s.mat3 t phase
  pair : ∀ i < N, ∀ j < K, i * K + j < s.threads.length → s.v[i * K + j]? = some ⟨i, j⟩
  identifier : ∀ t < s.threads.length, s.tid[t]? = some t
  joined : s.joined = (List.range s.joined.length).reverse
  finished : ∀ t < s.joined.length, ∃ row col, s.threads[t]? = some ⟨t, .done row col⟩

theorem PhaseHolds.frame {mat3 : Matrix (Fin N) (Fin K) ℤ} {t t' : ℕ} {row : Fin N} {col : Fin K}
    {phase : Phase N K} (h : PhaseHolds mat1 mat2 mat3 t' phase) (ht : t = row * K + col)
    (hne : t' ≠ t) (x : ℤ) : PhaseHolds mat1 mat2 (setCell mat3 row col x) t' phase := by
  have hcell : ∀ (row' : Fin N) (col' : Fin K), t' = row' * K + col' →
      setCell mat3 row col x row' col' = mat3 row' col' := by
    intro row' col' ht'
    apply setCell_of_ne
    intro hsame
    rw [hsame.1, hsame.2] at ht'
    exact hne (ht'.trans ht.symm)
  cases phase with
  | ready => trivial
  | running row' col' i => exact ⟨h.1, h.2.1, (hcell row' col' h.1).trans h.2.2⟩
  | done row' col' => exact ⟨h.1, (hcell row' col' h.1).trans h.2⟩

/-- The steps that `main` still has to take. -/
def mainWork (N K : ℕ) : Pc → ℕ
  | .creating i j => (N - i) * (2 * K + 1) - 2 * j + N * K + 2
  | .starting i j => (N - i) * (2 * K + 1) - (2 * j + 1) + N * K + 2
  | .joining i => N * K - i + 1
  | .printed => 0

/-- The steps that a thread still has to take. -/
def phaseWork (M : ℕ) : Phase N K → ℕ
  | .ready => M + 2
  | .running _ _ i => M - i + 1
  | .done _ _ => 0

/-- The steps that all threads still have to take, those that have not been created included. -/
def State.work (M : ℕ) (s : State N K) : ℕ :=
  mainWork N K s.pc + (N * K - s.threads.length) * (M + 2) +
    (s.threads.map fun thread ↦ phaseWork M thread.phase).sum

section MainWork

variable {i j : ℕ}

theorem mainWork_store (hi : i < N) (hj : j < K) :
    mainWork N K (.starting i j) < mainWork N K (.creating i j) := by
  have hrest : 2 * K + 1 ≤ (N - i) * (2 * K + 1) :=
    Nat.le_mul_of_pos_left _ (Nat.sub_pos_of_lt hi)
  simp only [mainWork]
  omega

theorem mainWork_create (hi : i < N) (hj : j < K) :
    mainWork N K (.creating i (j + 1)) < mainWork N K (.starting i j) := by
  have hrest : 2 * K + 1 ≤ (N - i) * (2 * K + 1) :=
    Nat.le_mul_of_pos_left _ (Nat.sub_pos_of_lt hi)
  simp only [mainWork]
  omega

theorem mainWork_next_row (hi : i < N) :
    mainWork N K (.creating (i + 1) 0) < mainWork N K (.creating i K) := by
  have hrest : (N - i) * (2 * K + 1) = (N - (i + 1)) * (2 * K + 1) + (2 * K + 1) := by
    rw [← Nat.succ_mul]
    congr 1
    omega
  simp only [mainWork]
  omega

theorem mainWork_leave (i : ℕ) : mainWork N K (.joining 0) < mainWork N K (.creating i 0) := by
  simp only [mainWork]
  omega

theorem mainWork_join (hi : i < N * K) :
    mainWork N K (.joining (i + 1)) < mainWork N K (.joining i) := by
  simp only [mainWork]
  omega

end MainWork

theorem sum_set_lt {ks : List ℕ} {t k k' : ℕ} (hget : ks[t]? = some k) (hlt : k' < k) :
    (ks.set t k').sum < ks.sum := by
  induction ks generalizing t with
  | nil => cases hget
  | cons a ks ih =>
      cases t with
      | zero =>
          cases hget
          exact Nat.add_lt_add_right hlt _
      | succ t => exact Nat.add_lt_add_left (ih hget) _

/-! ## The steps -/

section Steps

variable {s : State N K}

theorem work_advance {t : ℕ} {thread : Thread N K} {phase : Phase N K}
    {mat3 : Matrix (Fin N) (Fin K) ℤ} (hget : s.threads[t]? = some thread)
    (hless : phaseWork M phase < phaseWork M thread.phase) :
    ({ s.advance t thread phase with mat3 := mat3 } : State N K).work M < s.work M := by
  have hsum : ((s.threads.set t { thread with phase := phase }).map
      fun thread ↦ phaseWork M thread.phase).sum <
        (s.threads.map fun thread ↦ phaseWork M thread.phase).sum := by
    rw [List.map_set]
    exact sum_set_lt (by rw [List.getElem?_map, hget]; rfl) hless
  unfold State.work State.advance
  dsimp only
  rw [List.length_set]
  omega

/-- Some thread has been created and has not ended. -/
def Unfinished (s : State N K) : Prop :=
  ∃ (t : ℕ) (phase : Phase N K), s.threads[t]? = some ⟨t, phase⟩ ∧ ∀ row col, phase ≠ .done row col

theorem Owning.advance (h : Owning mat1 mat2 s) {t : ℕ} {phase phase' : Phase N K}
    {mat3 : Matrix (Fin N) (Fin K) ℤ} (hget : s.threads[t]? = some ⟨t, phase⟩)
    (hrunning : ∀ row col, phase ≠ .done row col) (hphase : PhaseHolds mat1 mat2 mat3 t phase')
    (hframe : ∀ t' phase, t' ≠ t → PhaseHolds mat1 mat2 s.mat3 t' phase →
      PhaseHolds mat1 mat2 mat3 t' phase) :
    Owning mat1 mat2 { s.advance t ⟨t, phase⟩ phase' with mat3 := mat3 } := by
  have hlength : (s.threads.set t ⟨t, phase'⟩).length = s.threads.length := List.length_set
  have hlt : t < s.threads.length := (List.getElem?_eq_some_iff.1 hget).1
  refine ⟨h.v_length, h.tid_length, ?_, ?_, ?_, ?_, h.joined, ?_⟩
  · exact hlength ▸ h.place
  · intro t' ht'
    by_cases heq : t' = t
    · exact ⟨phase', by rw [heq]; exact List.getElem?_set_self hlt, heq ▸ hphase⟩
    · obtain ⟨phase'', hget', hholds⟩ := h.thread t' (hlength ▸ ht')
      exact ⟨phase'', (List.getElem?_set_ne (Ne.symm heq)).trans hget', hframe t' _ heq hholds⟩
  · exact fun i hi j hj hij ↦ h.pair i hi j hj (hlength ▸ hij)
  · exact fun t' ht' ↦ h.identifier t' (hlength ▸ ht')
  · intro t' ht'
    obtain ⟨row, col, hdone⟩ := h.finished t' ht'
    have hne : t ≠ t' := by
      intro heq
      rw [heq, hdone] at hget
      cases hget
      exact hrunning row col rfl
    exact ⟨row, col, (List.getElem?_set_ne hne).trans hdone⟩

theorem Owning.mulvectStep (h : Owning mat1 mat2 s) (hint : NoOverflow mat1 mat2) {t : ℕ}
    {phase : Phase N K} (hget : s.threads[t]? = some ⟨t, phase⟩)
    (hrunning : ∀ row col, phase ≠ .done row col) :
    ∃ s', MatrixMul.mulvectStep mat1 mat2 t s = .next s' ∧ Owning mat1 mat2 s' ∧
      s'.work M < s.work M := by
  have hlt : t < s.threads.length := (List.getElem?_eq_some_iff.1 hget).1
  have hholds : PhaseHolds mat1 mat2 s.mat3 t phase := by
    obtain ⟨phase', hget', hholds⟩ := h.thread t hlt
    rw [hget] at hget'
    cases hget'
    exact hholds
  unfold MatrixMul.mulvectStep
  rw [hget]
  cases phase with
  | ready =>
      obtain ⟨i, hi, j, hj, hflat⟩ := exists_flat (hlt.trans_le h.place.created_le)
      have hpair : s.v[t]? = some ⟨i, j⟩ := hflat ▸ h.pair i hi j hj (hflat ▸ hlt)
      dsimp only
      rw [hpair]
      dsimp only
      rw [dif_pos ⟨hi, hj⟩]
      have hphase : PhaseHolds mat1 mat2 (setCell s.mat3 ⟨i, hi⟩ ⟨j, hj⟩ 0) t
          (.running ⟨i, hi⟩ ⟨j, hj⟩ 0) :=
        ⟨hflat, Nat.zero_le M, (setCell_self ..).trans (partialDot_zero _ _).symm⟩
      have hless : phaseWork M (.running ⟨i, hi⟩ ⟨j, hj⟩ 0 : Phase N K) <
          phaseWork M (.ready : Phase N K) := Nat.lt_succ_self _
      exact ⟨_, rfl, h.advance hget hrunning hphase fun t' _ hne hother ↦ hother.frame hflat hne 0,
        work_advance hget hless⟩
  | running row col i =>
      obtain ⟨hown, hile, hsum⟩ := hholds
      dsimp only
      by_cases hi : i < M
      · rw [dif_pos hi, hsum, hint.addProduct_eq row col hi]
        have hphase : PhaseHolds mat1 mat2
            (setCell s.mat3 row col (partialDot mat1 mat2 row col (i + 1))) t
            (.running row col (i + 1)) := ⟨hown, hi, setCell_self ..⟩
        have hless : phaseWork M (.running row col (i + 1) : Phase N K) <
            phaseWork M (.running row col i : Phase N K) := by
          simp only [phaseWork]
          omega
        exact ⟨_, rfl, h.advance hget hrunning hphase fun t' _ hne hother ↦ hother.frame hown hne _,
          work_advance hget hless⟩
      · have hall : i = M := hile.antisymm (not_lt.1 hi)
        have hphase : PhaseHolds mat1 mat2 s.mat3 t (.done row col) :=
          ⟨hown, by rw [hsum, hall, partialDot_all]⟩
        rw [dif_neg hi]
        have hless : phaseWork M (.done row col : Phase N K) <
            phaseWork M (.running row col i : Phase N K) := Nat.succ_pos _
        exact ⟨_, rfl, h.advance hget hrunning hphase fun _ _ _ hother ↦ hother,
          work_advance hget hless⟩
  | done row col => exact absurd rfl (hrunning row col)

theorem mulvectStep_blocked {t : ℕ}
    (h : ∀ thread, s.threads[t]? = some thread → ∃ row col, thread.phase = .done row col) :
    mulvectStep mat1 mat2 t s = .blocked := by
  unfold mulvectStep
  cases hget : s.threads[t]? with
  | none => rfl
  | some thread =>
      obtain ⟨row, col, hdone⟩ := h thread hget
      dsimp only
      rw [hdone]

theorem Owning.place_next (h : Owning mat1 mat2 s) {pc : Pc}
    (hpc : PlaceHolds N K s.v s.threads.length s.joined.length pc) :
    Owning mat1 mat2 { s with pc := pc } :=
  ⟨h.v_length, h.tid_length, hpc, h.thread, h.pair, h.identifier, h.joined, h.finished⟩

/-- `main` writes a pair into the slot of the thread that it creates next. -/
theorem Owning.store (h : Owning mat1 mat2 s) {i j : ℕ} (hpc : s.pc = .creating i j) (hi : i < N)
    (hj : j < K) :
    Owning mat1 mat2 { s with pc := .starting i j, v := s.v.set (i * K + j) ⟨i, j⟩ } := by
  have hplace := h.place
  rw [hpc] at hplace
  obtain ⟨_, _, _, hcount, hjoined⟩ := hplace
  have hlt : i * K + j < s.v.length := h.v_length ▸ flat_lt hi hj
  refine ⟨List.length_set.trans h.v_length, h.tid_length,
    ⟨hi, hj, List.getElem?_set_self hlt, hcount, hjoined⟩, h.thread, ?_, h.identifier, h.joined,
    h.finished⟩
  intro i' hi' j' hj' hold
  -- the pairs of the threads that exist are in other slots
  have hne : i * K + j ≠ i' * K + j' := (hcount ▸ hold).ne'
  exact (List.getElem?_set_ne hne).trans (h.pair i' hi' j' hj' hold)

theorem Owning.create (h : Owning mat1 mat2 s) {i j : ℕ} (hpc : s.pc = .starting i j) :
    Owning mat1 mat2 { s with
      pc := .creating i (j + 1)
      tid := s.tid.set (i * K + j) s.threads.length
      threads := s.threads ++ [⟨i * K + j, .ready⟩] } := by
  have hplace := h.place
  rw [hpc] at hplace
  obtain ⟨hi, hj, hstored, hcount, hjoined⟩ := hplace
  let thread : Thread N K := ⟨i * K + j, .ready⟩
  have hlength : (s.threads ++ [thread]).length = s.threads.length + 1 := List.length_append
  have hlt : i * K + j < s.tid.length := h.tid_length ▸ flat_lt hi hj
  -- a thread is an old one or the new one
  have hcases : ∀ t < (s.threads ++ [thread]).length,
      t < s.threads.length ∨ t = s.threads.length := fun t ht ↦
    Nat.lt_succ_iff_lt_or_eq.1 (ht.trans_eq hlength)
  refine ⟨h.v_length, List.length_set.trans h.tid_length, ?_, ?_, ?_, ?_, h.joined, ?_⟩
  · exact ⟨hi.le, hj, fun heq ↦ absurd hi (heq ▸ lt_irrefl N),
      by rw [hlength, hcount, Nat.add_assoc], hjoined⟩
  · intro t ht
    rcases hcases t ht with hold | hnew
    · obtain ⟨phase, hget, hholds⟩ := h.thread t hold
      exact ⟨phase, (List.getElem?_append_left hold).trans hget, hholds⟩
    · refine ⟨.ready, ?_, trivial⟩
      rw [hnew, hcount]
      exact hcount ▸ List.getElem?_concat_length
  · intro i' hi' j' hj' ht
    rcases hcases _ ht with hold | hnew
    · exact h.pair i' hi' j' hj' hold
    · obtain ⟨rfl, rfl⟩ := flat_injective hj' hj (hnew.trans hcount)
      exact hstored
  · intro t ht
    rcases hcases t ht with hold | hnew
    · have hne : i * K + j ≠ t := hcount ▸ hold.ne'
      exact (List.getElem?_set_ne hne).trans (h.identifier t hold)
    · rw [hnew, hcount]
      exact List.getElem?_set_self hlt
  · intro t ht
    rw [hjoined] at ht
    exact absurd ht (Nat.not_lt_zero t)

/-- `main` joins a thread that has ended. -/
theorem Owning.join (h : Owning mat1 mat2 s) {i : ℕ} (hpc : s.pc = .joining i) (hi : i < N * K)
    {row : Fin N} {col : Fin K} (hget : s.threads[i]? = some ⟨i, .done row col⟩) :
    Owning mat1 mat2 { s with pc := .joining (i + 1), joined := i :: s.joined } := by
  have hplace := h.place
  rw [hpc] at hplace
  obtain ⟨_, hcount, hjoined⟩ := hplace
  refine ⟨h.v_length, h.tid_length, ⟨hi, hcount, congrArg (· + 1) hjoined⟩, h.thread, h.pair,
    h.identifier, ?_, ?_⟩
  · rw [List.length_cons, List.range_succ, List.reverse_append, ← h.joined, hjoined]
    rfl
  · intro t ht
    rcases Nat.lt_succ_iff_lt_or_eq.1 ht with hold | hnew
    · exact h.finished t hold
    · exact ⟨row, col, by rw [hnew, hjoined]; exact hget⟩

/-- A step of `main` that creates no thread makes the work less if it makes that of `main` less. -/
theorem work_main {s' : State N K} (hthreads : s'.threads = s.threads)
    (hless : mainWork N K s'.pc < mainWork N K s.pc) : s'.work M < s.work M := by
  unfold State.work
  rw [hthreads]
  omega

theorem work_create {s' : State N K} {thread : Thread N K}
    (hthreads : s'.threads = s.threads ++ [thread]) (hready : thread.phase = .ready)
    (hcount : s.threads.length < N * K)
    (hless : mainWork N K s'.pc < mainWork N K s.pc) : s'.work M < s.work M := by
  have hrest : (N * K - s.threads.length) * (M + 2) =
      (N * K - (s.threads.length + 1)) * (M + 2) + (M + 2) := by
    rw [← Nat.succ_mul]
    congr 1
    omega
  have hwork : phaseWork M thread.phase = M + 2 := by
    rw [hready]
    rfl
  unfold State.work
  rw [hthreads, List.length_append, List.map_append, List.sum_append, List.length_singleton,
    List.map_singleton, List.sum_singleton, hwork, hrest]
  omega

theorem Owning.creatingStep (h : Owning mat1 mat2 s) (hrows : RowMajor N K) {i j : ℕ}
    (hpc : s.pc = .creating i j) :
    ∃ s', MatrixMul.mainStep s = .next s' ∧ Owning mat1 mat2 s' ∧ s'.work M < s.work M := by
  have hplace := h.place
  rw [hpc] at hplace
  obtain ⟨hi, hj, hlast, hcount, hjoined⟩ := hplace
  unfold MatrixMul.mainStep
  rw [hpc]
  dsimp only
  by_cases hrow : i < N
  · rw [if_pos hrow]
    by_cases hcol : j < K
    · have hlt : i * K + j < s.v.length := h.v_length ▸ flat_lt hrow hcol
      rw [if_pos hcol, hrows i hrow j hcol, if_pos hlt]
      exact ⟨_, rfl, h.store hpc hrow hcol, work_main rfl (hpc ▸ mainWork_store hrow hcol)⟩
    · have hfull : j = K := hj.antisymm (not_lt.1 hcol)
      have hnext : s.threads.length = (i + 1) * K + 0 := by
        rw [hcount, hfull, Nat.succ_mul, Nat.add_zero]
      have hless : mainWork N K (.creating (i + 1) 0) < mainWork N K s.pc := by
        rw [hpc, hfull]
        exact mainWork_next_row hrow
      rw [if_neg hcol]
      exact ⟨_, rfl, h.place_next ⟨hrow, Nat.zero_le K, fun _ ↦ rfl, hnext, hjoined⟩,
        work_main rfl hless⟩
  · have hall : i = N := hi.antisymm (not_lt.1 hrow)
    have hcreated : s.threads.length = N * K := by
      rw [hcount, hlast hall, hall, Nat.add_zero]
    have hless : mainWork N K (.joining 0) < mainWork N K s.pc := by
      rw [hpc, hlast hall]
      exact mainWork_leave i
    rw [if_neg hrow]
    exact ⟨_, rfl, h.place_next ⟨Nat.zero_le _, hcreated, hjoined⟩, work_main rfl hless⟩

theorem Owning.startingStep (h : Owning mat1 mat2 s) (hrows : RowMajor N K) {i j : ℕ}
    (hpc : s.pc = .starting i j) :
    ∃ s', MatrixMul.mainStep s = .next s' ∧ Owning mat1 mat2 s' ∧ s'.work M < s.work M := by
  have hplace := h.place
  rw [hpc] at hplace
  obtain ⟨hi, hj, _, hcount, _⟩ := hplace
  have hlt : i * K + j < s.tid.length := h.tid_length ▸ flat_lt hi hj
  unfold MatrixMul.mainStep
  rw [hpc]
  dsimp only
  rw [hrows i hi j hj, if_pos hlt]
  exact ⟨_, rfl, h.create hpc,
    work_create rfl rfl (hcount ▸ flat_lt hi hj) (hpc ▸ mainWork_create hi hj)⟩

theorem Owning.joiningStep (h : Owning mat1 mat2 s) (hmem : Allocated N K) {i : ℕ}
    (hpc : s.pc = .joining i) :
    (∃ s', MatrixMul.mainStep s = .next s' ∧ Owning mat1 mat2 s' ∧ s'.work M < s.work M) ∨
      MatrixMul.mainStep s = .blocked ∧ Unfinished s := by
  have hplace := h.place
  rw [hpc] at hplace
  obtain ⟨hile, hcount, hjoined⟩ := hplace
  unfold MatrixMul.mainStep
  rw [hpc]
  dsimp only
  rw [hmem.numthreads_eq]
  by_cases hi : i < N * K
  · have hlt : i < s.threads.length := hcount ▸ hi
    have hnew : i ∉ s.joined := by
      rw [h.joined, hjoined, List.mem_reverse, List.mem_range]
      exact lt_irrefl i
    obtain ⟨phase, hget, _⟩ := h.thread i hlt
    rw [if_pos hi, h.identifier i hlt]
    dsimp only
    unfold pthreadJoin
    rw [hget]
    dsimp only
    rw [if_neg hnew]
    cases phase with
    | ready => exact .inr ⟨rfl, i, .ready, hget, by simp⟩
    | running row col n => exact .inr ⟨rfl, i, .running row col n, hget, by simp⟩
    | done row col =>
        exact .inl ⟨_, rfl, h.join hpc hi hget, work_main rfl (hpc ▸ mainWork_join hi)⟩
  · have hall : i = N * K := hile.antisymm (not_lt.1 hi)
    have hless : mainWork N K .printed < mainWork N K s.pc := by
      rw [hpc]
      exact Nat.succ_pos _
    rw [if_neg hi]
    exact .inl ⟨_, rfl, h.place_next ⟨hcount, hjoined.trans hall⟩, work_main rfl hless⟩

/-- `main` waits for a thread that has not ended, or takes a step, or has printed the result. -/
theorem Owning.mainStep (h : Owning mat1 mat2 s) (hmem : Allocated N K) (hrows : RowMajor N K) :
    (∃ s', MatrixMul.mainStep s = .next s' ∧ Owning mat1 mat2 s' ∧ s'.work M < s.work M) ∨
      MatrixMul.mainStep s = .blocked ∧ (s.pc = .printed ∨ Unfinished s) := by
  cases hpc : s.pc with
  | creating i j => exact .inl (h.creatingStep hrows hpc)
  | starting i j => exact .inl (h.startingStep hrows hpc)
  | joining i =>
      apply (h.joiningStep hmem hpc).imp_right
      intro hblocked
      exact ⟨hblocked.1, .inr hblocked.2⟩
  | printed =>
      have hblocked : MatrixMul.mainStep s = .blocked := by
        unfold MatrixMul.mainStep
        rw [hpc]
      exact .inr ⟨hblocked, .inl rfl⟩

/-- Whoever is scheduled waits, has ended, or takes a step that keeps the invariant. -/
theorem Owning.step (h : Owning mat1 mat2 s) (hmem : Allocated N K) (hrows : RowMajor N K)
    (hint : NoOverflow mat1 mat2) (a : Actor) :
    (∃ s', (program mat1 mat2).step a s = .next s' ∧ Owning mat1 mat2 s' ∧
      s'.work M < s.work M) ∨ (program mat1 mat2).step a s = .blocked := by
  cases a with
  | main =>
      apply (h.mainStep hmem hrows).imp_right
      exact And.left
  | thread t =>
      by_cases hended : ∀ thread, s.threads[t]? = some thread →
          ∃ row col, thread.phase = .done row col
      · exact .inr (mulvectStep_blocked hended)
      · push Not at hended
        obtain ⟨thread, hget, hrunning⟩ := hended
        obtain ⟨phase, hphase, _⟩ := h.thread t (List.getElem?_eq_some_iff.1 hget).1
        rw [hphase] at hget
        cases hget
        exact .inl (h.mulvectStep hint hphase hrunning)

end Steps

theorem program_init (hmem : Allocated N K) {s : State N K} (h : (program mat1 mat2).init s) :
    Owning mat1 mat2 s := by
  obtain ⟨hpc, hv, htid, hthreads, hjoined⟩ := h
  have hnone : s.threads.length = 0 := hthreads ▸ rfl
  have hfirst : PlaceHolds N K s.v s.threads.length s.joined.length s.pc := by
    rw [hpc, hthreads, hjoined]
    exact ⟨Nat.zero_le N, Nat.zero_le K, fun _ ↦ rfl, (by simp), rfl⟩
  refine ⟨hv.trans (hmem.capacity_eq (by decide) le_rfl),
    htid.trans (hmem.capacity_eq (by decide) (by decide)), hfirst, ?_, ?_, ?_, ?_, ?_⟩
  · intro t ht
    exact absurd (hnone ▸ ht) (Nat.not_lt_zero t)
  · intro i _ j _ ht
    exact absurd (hnone ▸ ht) (Nat.not_lt_zero _)
  · intro t ht
    exact absurd (hnone ▸ ht) (Nat.not_lt_zero t)
  · rw [hjoined]
    rfl
  · intro t ht
    rw [hjoined] at ht
    exact absurd ht (Nat.not_lt_zero t)

theorem reach_owning (hmem : Allocated N K) (hrows : RowMajor N K) (hint : NoOverflow mat1 mat2)
    {s : State N K} (h : (program mat1 mat2).Reach s) : Owning mat1 mat2 s := by
  apply h.invariant fun s hs ↦ program_init hmem hs
  intro a s t hs hstep
  rcases hs.step hmem hrows hint a with ⟨s', hnext, hown, _⟩ | hblocked
  · rw [hnext] at hstep
    cases hstep
    exact hown
  · rw [hblocked] at hstep
    cases hstep

/-! ## The product -/

/-- Thread `t` has computed the cell. -/
def State.ComputedBy (s : State N K) (t : ℕ) (row : Fin N) (col : Fin K) : Prop :=
  ∃ thread : Thread N K, s.threads[t]? = some thread ∧ thread.phase = .done row col

/-- What the program is for.  The slots of the creation loop are distinct and below `numthreads`; in
every schedule all evaluations are defined, `main` reaches its end after finitely many steps, and
when it prints the result every cell has been computed by exactly one thread, every thread has been
joined and the result is the product. -/
structure ThreadedProduct (mat1 : Matrix (Fin N) (Fin M) ℤ) (mat2 : Matrix (Fin M) (Fin K) ℤ) :
    Prop where
  slots_injective : ∀ i < N, ∀ j < K, ∀ i' < N, ∀ j' < K, slot N i j = slot N i' j' →
    i = i' ∧ j = j'
  slots_lt : ∀ i < N, ∀ j < K, slot N i j < numthreads N K
  numthreads : numthreads N K = N * K
  defined : ∀ s, (program mat1 mat2).Reach s → ∀ a, (program mat1 mat2).step a s ≠ .undefined
  progress : ∀ s, (program mat1 mat2).Reach s →
    s.pc = .printed ∨ ∃ a t, (program mat1 mat2).step a s = .next t
  finite : ∀ s, (program mat1 mat2).init s →
    ∃ bound, ∀ n t, (program mat1 mat2).Steps s n t → n ≤ bound
  assigned : ∀ s, (program mat1 mat2).Reach s → s.pc = .printed → ∀ row col,
    ∃! t, s.ComputedBy t row col
  joined : ∀ s, (program mat1 mat2).Reach s → s.pc = .printed → ∀ t < s.threads.length, t ∈ s.joined
  product : ∀ s, (program mat1 mat2).Reach s → s.pc = .printed → s.mat3 = mat1 * mat2

/-- When `main` has printed, every thread has ended and has been joined. -/
theorem Owning.printed {s : State N K} (h : Owning mat1 mat2 s) (hpc : s.pc = .printed) :
    s.joined = (List.range (N * K)).reverse ∧ s.threads.length = N * K ∧
      ∀ (row : Fin N) (col : Fin K),
        s.threads[row * K + col]? = some ⟨row * K + col, .done row col⟩ ∧
          s.mat3 row col = (mat1 * mat2) row col := by
  have hplace := h.place
  rw [hpc] at hplace
  obtain ⟨hcount, hjoined⟩ := hplace
  refine ⟨hjoined ▸ h.joined, hcount, fun row col ↦ ?_⟩
  have hlt : row * K + col < N * K := flat_lt row.isLt col.isLt
  obtain ⟨row', col', hget⟩ := h.finished _ (hjoined ▸ hlt)
  obtain ⟨phase, hget', hholds⟩ := h.thread _ (hcount ▸ hlt)
  rw [hget] at hget'
  cases hget'
  obtain ⟨hown, hcell⟩ := hholds
  obtain ⟨hrow, hcol⟩ := flat_injective col.isLt col'.isLt hown
  rw [Fin.ext hrow, Fin.ext hcol] at hget ⊢
  exact ⟨hget, hcell⟩

theorem threadedProduct_of_rowMajor (hmem : Allocated N K) (hrows : RowMajor N K)
    (hint : NoOverflow mat1 mat2) : ThreadedProduct mat1 mat2 where
  slots_injective i hi j hj i' hi' j' hj' heq := by
    rw [hrows i hi j hj, hrows i' hi' j' hj'] at heq
    exact flat_injective hj hj' heq
  slots_lt i hi j hj := by
    rw [hrows i hi j hj, hmem.numthreads_eq]
    exact flat_lt hi hj
  numthreads := hmem.numthreads_eq
  defined s hs a hundefined := by
    rcases (reach_owning hmem hrows hint hs).step hmem hrows hint a with ⟨s', hnext, _⟩ | hblocked
    · rw [hnext] at hundefined
      cases hundefined
    · rw [hblocked] at hundefined
      cases hundefined
  progress s hs := by
    have hown := reach_owning hmem hrows hint hs
    rcases hown.mainStep hmem hrows with ⟨s', hnext, _⟩ | ⟨_, hprinted | ⟨t, phase, hget, hrunning⟩⟩
    · exact .inr ⟨.main, s', hnext⟩
    · exact .inl hprinted
    · obtain ⟨s', hnext, _⟩ := hown.mulvectStep hint hget hrunning
      exact .inr ⟨.thread t, s', hnext⟩
  finite s hs := by
    refine ⟨s.work M, fun n t hsteps ↦ hsteps.length_le (program_init hmem hs) ?_⟩
    intro a s t hown hstep
    rcases hown.step hmem hrows hint a with ⟨s', hnext, hown', hless⟩ | hblocked
    · rw [hnext] at hstep
      cases hstep
      exact ⟨hown', hless⟩
    · rw [hblocked] at hstep
      cases hstep
  assigned s hs hpc row col := by
    have hown := reach_owning hmem hrows hint hs
    obtain ⟨_, _, hcells⟩ := hown.printed hpc
    refine ⟨row * K + col, ⟨_, (hcells row col).1, rfl⟩, ?_⟩
    intro t ht
    obtain ⟨thread, hget, hdone⟩ := ht
    obtain ⟨phase, hget', hholds⟩ := hown.thread t (List.getElem?_eq_some_iff.1 hget).1
    rw [hget] at hget'
    cases hget'
    dsimp only at hdone
    rw [hdone] at hholds
    exact hholds.1
  joined s hs hpc t ht := by
    obtain ⟨hjoined, hcount, _⟩ := (reach_owning hmem hrows hint hs).printed hpc
    rw [hjoined, List.mem_reverse, List.mem_range]
    exact hcount ▸ ht
  product s hs hpc := by
    ext row col
    exact (((reach_owning hmem hrows hint hs).printed hpc).2.2 row col).2

theorem ThreadedProduct.shape (h : ThreadedProduct mat1 mat2) (hmem : Allocated N K) (hN : 1 ≤ N)
    (hK : 1 ≤ K) : N = 1 ∨ N = K := by
  by_contra hshape
  push Not at hshape
  have hsmall : N * K < sizeModulus := by
    unfold Allocated sizeofMatIndex at hmem
    omega
  rcases lt_or_gt_of_ne hshape.2 with hwide | htall
  · -- the cell `(0, N)` has the slot of `(1, 0)`
    have hshared : slot N 0 N = slot N 1 0 := by
      unfold slot
      rw [zero_mul, one_mul, zero_add, add_zero]
    have heq := h.slots_injective 0 hN N hwide 1 (by omega) 0 hK hshared
    exact absurd heq.1 (by decide)
  · -- the slot of `(K, 0)` is the first one after the arrays
    have hlast := h.slots_lt K htall 0 hK
    rw [h.numthreads, slot, add_zero, mul_comm, wrapSize_of_lt hsmall] at hlast
    exact lt_irrefl _ hlast

/-- The program computes the product in every schedule exactly if the first matrix has one row or
the product is square. -/
theorem threadedProduct_iff (hN : 1 ≤ N) (hK : 1 ≤ K) (hmem : Allocated N K)
    (hint : NoOverflow mat1 mat2) : ThreadedProduct mat1 mat2 ↔ N = 1 ∨ N = K :=
  ⟨fun h ↦ h.shape hmem hN hK, fun h ↦
    threadedProduct_of_rowMajor hmem (rowMajor_of_shape hmem h) hint⟩

/-- Two square matrices. -/
theorem square_threadedProduct : ThreadedProduct !![1, 2; 3, 4] !![5, 6; 7, 8] := by
  have hint : NoOverflow !![1, 2; 3, 4] !![5, 6; 7, 8] := ⟨by decide, by decide⟩
  exact (threadedProduct_iff (by decide) (by decide) (by decide) hint).2 (.inr rfl)

/-- A column of two rows multiplied by a single number. -/
def tallProgram : System (State 2 1) Actor := program !![1; 2] !![(1 : ℤ)]

/-- With two rows and one column, `main` writes past the end of the arrays. -/
theorem tall_not_threadedProduct : ¬ ThreadedProduct !![1; 2] !![(1 : ℤ)] ∧
    ∃ s, tallProgram.Reach s ∧ tallProgram.step .main s = .undefined := by
  constructor
  · intro h
    have hlast := h.slots_lt 1 (by decide) 0 (by decide)
    exact absurd hlast (by decide)
  · let start : State 2 1 := ⟨.creating 0 0, [⟨0, 0⟩, ⟨0, 0⟩], [0, 0], [], [], 0⟩
    have hstart : tallProgram.Reach start := .init ⟨rfl, rfl, rfl, rfl, rfl⟩
    have hstored := hstart.step .main rfl
    have hcreated := hstored.step .main rfl
    have hnextRow := hcreated.step .main rfl
    exact ⟨_, hnextRow, rfl⟩

end Experimentation.MatrixMul
