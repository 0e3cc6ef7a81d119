import Experimentation.Semantics.Census
import Mathlib.Algebra.Order.BigOperators.Group.Finset
import Experimentation.SharedCounter.Program

/-!
# The shared counter counts

The lock guards the critical sections, the value of the variable is the number of times that it was
written, and a thread in its critical section that has read the variable knows its value.  Every
step keeps this, and leaves less work than there was; so however the threads are interleaved the
program ends, and the value that it prints is the number of all turns.
-/

namespace Experimentation.SharedCounter

open Semantics

variable {N turns : ℕ} {L : Type} {lock : Lock (Fin N) L} {answers : Answers} {s s' : State N L}
  {t : Fin N}

/-! ## The invariant -/

/-- What a thread knows of the variable, and of its own turns. -/
def Place.Knows (turns : ℕ) (myglobal : ℤ) : Place → Prop
  | .absent | .exited => True
  | .turning i => i ≤ turns
  | .locking i | .reading i | .unlocking i => i < turns
  | .adding i j => i < turns ∧ j = myglobal
  | .sleeping i j | .writing i j => i < turns ∧ j = myglobal + 1

/-- How many threads `main` has created. -/
def Main.created (N : ℕ) : Main → ℕ
  | .initialising => 0
  | .creating i => i
  | .joining _ | .printed _ | .died => N

/-- How many threads `main` has joined. -/
def Main.joined (N : ℕ) : Main → ℕ
  | .initialising | .creating _ | .died => 0
  | .joining i => i
  | .printed _ => N

/-- The lock has been initialised, and the process has not died. -/
def Main.Running : Main → Prop
  | .initialising | .died => False
  | .creating _ | .joining _ | .printed _ => True

/-- The invariant of the programs. -/
structure Inv (lock : Lock (Fin N) L) (turns : ℕ) (s : State N L) : Prop where
  guards : s.main.Running → lock.Guards s.lock fun t ↦ (s.threads t).Holds
  counter : s.myglobal = (∑ t, (s.threads t).written turns : ℕ)
  knows : ∀ t, (s.threads t).Knows turns s.myglobal
  created : s.main ≠ .died → ∀ t, s.threads t = .absent ↔ s.main.created N ≤ t
  joined : ∀ t : Fin N, t < s.main.joined N → s.threads t = .exited
  printed : ∀ value, s.main = .printed value → value = s.myglobal

/-- How many steps a thread has to take. -/
def Place.work (turns : ℕ) : Place → ℕ
  | .absent => 7 * turns + 1
  | .turning i => 7 * (turns - i) + 1
  | .locking i => 7 * (turns - i)
  | .reading i => 7 * (turns - i) - 1
  | .adding i _ => 7 * (turns - i) - 2
  | .sleeping i _ => 7 * (turns - i) - 3
  | .writing i _ => 7 * (turns - i) - 4
  | .unlocking i => 7 * (turns - i) - 5
  | .exited => 0

/-- How many steps `main` has to take. -/
def Main.work (N : ℕ) : Main → ℕ
  | .initialising => 2 * N + 4
  | .creating i => N - i + N + 3
  | .joining i => N - i + 1
  | .printed _ | .died => 0

/-- How many steps are left. -/
def State.work (turns : ℕ) (s : State N L) : ℕ :=
  s.main.work N + ∑ t, (s.threads t).work turns

/-- Outside of its critical section a thread knows nothing that a new value could refute. -/
theorem Place.Knows.of_not_holds {place : Place} {myglobal : ℤ} (h : place.Knows turns myglobal)
    (hout : ¬ place.Holds) (value : ℤ) : place.Knows turns value := by
  cases place <;> first | exact h | exact absurd trivial hout

theorem Place.Knows.written_le {place : Place} {myglobal : ℤ} (h : place.Knows turns myglobal) :
    place.written turns ≤ turns := by
  cases place <;> simp only [Place.Knows] at h <;> simp only [Place.written] <;> omega

section Move

variable {old place : Place}

theorem Inv.knows_at (hinv : Inv lock turns s) (hthread : s.threads t = old) :
    old.Knows turns s.myglobal := by
  rw [← hthread]
  exact hinv.knows t

theorem Inv.of_move (hinv : Inv lock turns s) (s' : State N L) (place : Place)
    (hthread : s.threads t = old) (hthreads : s'.threads = Function.update s.threads t place)
    (hmain : s'.main = s.main) (hexists : old ≠ .absent) (hruns : old ≠ .exited)
    (hplace : place ≠ .absent)
    (hguards : s.main.Running → lock.Guards s'.lock fun u ↦ (s'.threads u).Holds)
    (hcounter : s'.myglobal + old.written turns = s.myglobal + place.written turns)
    (hknows : place.Knows turns s'.myglobal)
    (hothers : ∀ u, u ≠ t → (s.threads u).Knows turns s'.myglobal) : Inv lock turns s' where
  guards := hmain ▸ hguards
  counter := by
    have hsum := sum_update_add (Place.written turns) s.threads t place
    have hbefore := hinv.counter
    rw [hthread] at hsum
    rw [hthreads]
    omega
  knows u := by
    rw [hthreads]
    by_cases hu : u = t
    · rw [hu, Function.update_self]
      exact hknows
    · rw [Function.update_of_ne hu]
      exact hothers u hu
  created hdied u := by
    rw [hmain] at hdied ⊢
    have hcreated := hinv.created hdied u
    rw [hthreads]
    by_cases hu : u = t
    · rw [hu, hthread] at hcreated
      rw [hu, Function.update_self, ← hcreated]
      exact iff_of_false hplace hexists
    · rw [Function.update_of_ne hu]
      exact hcreated
  joined u hu := by
    rw [hmain] at hu
    have hexited := hinv.joined u hu
    have hne : u ≠ t := fun heq ↦ hruns (hthread.symm.trans (heq ▸ hexited))
    rw [hthreads, Function.update_of_ne hne]
    exact hexited
  printed value hvalue := by
    rw [hmain] at hvalue
    -- once `main` has printed, every thread has been joined
    have hexited := hinv.joined t (by rw [hvalue]; exact t.isLt)
    exact absurd (hthread.symm.trans hexited) hruns

/-- The work after a thread has moved to where less is left for it to do. -/
theorem State.work_of_move (hthread : s.threads t = old)
    (hthreads : s'.threads = Function.update s.threads t place)
    (hmain : s'.main = s.main) (hless : place.work turns < old.work turns) :
    s'.work turns < s.work turns := by
  have hsum := sum_update_add (Place.work turns) s.threads t place
  rw [hthread] at hsum
  rw [State.work, State.work, hthreads, hmain]
  omega

theorem holds_update_of_ne (threads : Fin N → Place) {u : Fin N} (hu : u ≠ t) :
    (Function.update threads t place u).Holds ↔ (threads u).Holds := by
  rw [Function.update_of_ne hu]

theorem Inv.guards_of_same (hinv : Inv lock turns s) (hthread : s.threads t = old)
    (hsame : place.Holds ↔ old.Holds) (hmain : s.main.Running) :
    lock.Guards s.lock fun u ↦ (Function.update s.threads t place u).Holds := by
  apply (hinv.guards hmain).congr
  intro u
  by_cases hu : u = t
  · rw [hu, Function.update_self, hthread]
    exact hsame
  · exact holds_update_of_ne s.threads hu

/-- Where there are threads, the lock has been initialised. -/
theorem Inv.running (hinv : Inv lock turns s) (hlive : s.main ≠ .died)
    (hthread : s.threads t = old) (hexists : old ≠ .absent) : s.main.Running := by
  have hcreated := hinv.created hlive t
  cases hmain : s.main with
  | initialising =>
      rw [hthread, hmain] at hcreated
      exact absurd (hcreated.2 (Nat.zero_le _)) hexists
  | died => exact absurd hmain hlive
  | creating i => trivial
  | joining i => trivial
  | printed value => trivial

/-- While a thread is in its critical section, the others know nothing of the variable. -/
theorem Inv.others_know (hinv : Inv lock turns s) (hmain : s.main.Running)
    (hthread : s.threads t = old) (hholds : old.Holds) (value : ℤ) (u : Fin N) (hu : u ≠ t) :
    (s.threads u).Knows turns value := by
  apply (hinv.knows u).of_not_holds
  exact fun hin ↦ hu ((hinv.guards hmain).unique hin (by rw [hthread]; exact hholds))

theorem Inv.counter_lt (hinv : Inv lock turns s) (hless : (s.threads t).written turns < turns) :
    s.myglobal < (N * turns : ℕ) := by
  have hsum : ∑ u, (s.threads u).written turns < ∑ _u : Fin N, turns := by
    apply Finset.sum_lt_sum
    · exact fun u _ ↦ (hinv.knows u).written_le
    · exact ⟨t, Finset.mem_univ t, hless⟩
  rw [Finset.sum_const, Finset.card_univ, Fintype.card_fin, smul_eq_mul] at hsum
  rw [hinv.counter]
  exact_mod_cast hsum

end Move

/-! ## Steps -/

/-- What a thread that is scheduled does: it waits, or it takes a step that keeps the invariant. -/
def Advances (lock : Lock (Fin N) L) (turns : ℕ) (s : State N L) (o : Outcome (State N L)) : Prop :=
  o = .blocked ∨ ∃ s', o = .next s' ∧ Inv lock turns s' ∧ s'.work turns < s.work turns

/-- A thread moves on inside or outside of its critical section, and leaves the rest as it is. -/
theorem Inv.advances_move (hinv : Inv lock turns s) {old : Place} (place : Place)
    (hthread : s.threads t = old) (hexists : old ≠ .absent) (hruns : old ≠ .exited)
    (hplace : place ≠ .absent) (hsame : place.Holds ↔ old.Holds)
    (hwritten : place.written turns = old.written turns) (hknows : place.Knows turns s.myglobal)
    (hless : place.work turns < old.work turns) :
    Advances lock turns s (.next (s.move t place)) := by
  refine .inr ⟨_, rfl, ?_, State.work_of_move hthread rfl rfl hless⟩
  refine hinv.of_move _ place hthread rfl rfl hexists hruns hplace
    (hinv.guards_of_same hthread hsame) ?_ hknows fun u _ ↦ hinv.knows u
  rw [hwritten]
  rfl

theorem Inv.advances_locking (hinv : Inv lock turns s) {i : ℕ}
    (hthread : s.threads t = .locking i) {value : L}
    (hacquire : lock.acquire t s.lock = some value) :
    Advances lock turns s (.next { s.move t (.reading i) with lock := value }) := by
  have hi : i < turns := hinv.knows_at hthread
  have hless : (Place.reading i).work turns < (Place.locking i).work turns := by
    simp only [Place.work]
    omega
  refine .inr ⟨_, rfl, ?_, State.work_of_move hthread rfl rfl hless⟩
  refine hinv.of_move _ (.reading i) hthread rfl rfl nofun nofun nofun ?_ rfl hi
    fun u _ ↦ hinv.knows u
  intro hmain
  apply (hinv.guards hmain).acquire hacquire
  · change (Function.update s.threads t (.reading i) t).Holds
    rw [Function.update_self]
    trivial
  · exact fun u hu ↦ holds_update_of_ne s.threads hu

theorem Inv.advances_unlocking (hinv : Inv lock turns s) (hmain : s.main.Running) {i : ℕ}
    (hthread : s.threads t = .unlocking i) : lock.release t s.lock = some lock.idle ∧
      Advances lock turns s (.next { s.move t (.turning (i + 1)) with lock := lock.idle }) := by
  have hi : i < turns := hinv.knows_at hthread
  have hless : (Place.turning (i + 1)).work turns < (Place.unlocking i).work turns := by
    simp only [Place.work]
    omega
  have hrelease := @Lock.Guards.release _ _ _ _ _ (hinv.guards hmain) t (by rw [hthread]; trivial)
    (fun u ↦ (Function.update s.threads t (.turning (i + 1)) u).Holds)
    (by rw [Function.update_self]; exact id) fun u hu ↦ holds_update_of_ne s.threads hu
  refine ⟨hrelease.1, .inr ⟨_, rfl, ?_, State.work_of_move hthread rfl rfl hless⟩⟩
  exact hinv.of_move _ (.turning (i + 1)) hthread rfl rfl nofun nofun nofun
    (fun _ ↦ hrelease.2) rfl hi fun u _ ↦ hinv.knows u

theorem Inv.advances_writing (hinv : Inv lock turns s) (hmain : s.main.Running) {i : ℕ} {j : ℤ}
    (hthread : s.threads t = .writing i j) :
    Advances lock turns s (.next { s.move t (.unlocking i) with myglobal := j }) := by
  have hknows : i < turns ∧ j = s.myglobal + 1 := hinv.knows_at hthread
  have hless : (Place.unlocking i).work turns < (Place.writing i j).work turns := by
    simp only [Place.work]
    omega
  refine .inr ⟨_, rfl, ?_, State.work_of_move hthread rfl rfl hless⟩
  refine hinv.of_move _ (.unlocking i) hthread rfl rfl nofun nofun nofun
    (hinv.guards_of_same hthread Iff.rfl) ?_ hknows.1 (hinv.others_know hmain hthread trivial j)
  change j + (i : ℤ) = s.myglobal + ((i + 1 : ℕ) : ℤ)
  omega

theorem Inv.advances_threadfun (hinv : Inv lock turns s) (hfits : (N * turns : ℕ) ≤ intMax)
    (hlive : s.main ≠ .died) (t : Fin N) : Advances lock turns s (threadfun lock turns t s) := by
  have hknows := hinv.knows t
  rw [threadfun]
  cases hthread : s.threads t with
  | absent => exact .inl rfl
  | exited => exact .inl rfl
  | turning i =>
      rw [hthread] at hknows
      have hle : i ≤ turns := hknows
      dsimp only
      by_cases hi : i < turns
      · rw [if_pos hi]
        refine hinv.advances_move _ hthread nofun nofun nofun Iff.rfl rfl hi ?_
        simp only [Place.work]
        omega
      · rw [if_neg hi]
        refine hinv.advances_move _ hthread nofun nofun nofun Iff.rfl ?_ trivial ?_
        · exact (Nat.le_antisymm hle (Nat.le_of_not_lt hi)).symm
        · simp only [Place.work]
          omega
  | locking i =>
      dsimp only
      cases hacquire : lock.acquire t s.lock with
      | none => exact .inl rfl
      | some value => exact hinv.advances_locking hthread hacquire
  | reading i =>
      rw [hthread] at hknows
      have hi : i < turns := hknows
      refine hinv.advances_move _ hthread nofun nofun nofun Iff.rfl rfl ⟨hi, rfl⟩ ?_
      simp only [Place.work]
      omega
  | adding i j =>
      rw [hthread] at hknows
      obtain ⟨hi, hj⟩ := hknows
      have hless : s.myglobal < (N * turns : ℕ) := by
        apply hinv.counter_lt
        rw [hthread]
        exact hi
      dsimp only
      rw [if_pos (by omega)]
      refine hinv.advances_move _ hthread nofun nofun nofun Iff.rfl rfl ⟨hi, by rw [hj]⟩ ?_
      simp only [Place.work]
      omega
  | sleeping i j =>
      rw [hthread] at hknows
      have hi : i < turns := hknows.1
      refine hinv.advances_move _ hthread nofun nofun nofun Iff.rfl rfl hknows ?_
      simp only [Place.work]
      omega
  | writing i j => exact hinv.advances_writing (hinv.running hlive hthread nofun) hthread
  | unlocking i =>
      have hmain := hinv.running hlive hthread nofun
      obtain ⟨hrelease, hadvances⟩ := hinv.advances_unlocking hmain hthread
      dsimp only
      rw [hrelease]
      exact hadvances

theorem Inv.advances_main (hinv : Inv lock turns s) (main : Main)
    (hrunning : main.Running → s.main.Running)
    (hcreated : main ≠ .died → s.main ≠ .died ∧
      ∀ t : Fin N, s.main.created N ≤ t ↔ main.created N ≤ t)
    (hjoined : ∀ t : Fin N, t < main.joined N → s.threads t = .exited)
    (hprinted : ∀ value, main = .printed value → value = s.myglobal)
    (hless : main.work N < s.main.work N) :
    Advances lock turns s (.next { s with main := main }) := by
  refine .inr ⟨_, rfl, ⟨fun hmain ↦ hinv.guards (hrunning hmain), hinv.counter, hinv.knows, ?_,
    hjoined, hprinted⟩, Nat.add_lt_add_right hless _⟩
  intro hlive t
  have hsame := hcreated hlive
  exact (hinv.created hsame.1 t).trans (hsame.2 t)

theorem Inv.advances_died (hinv : Inv lock turns s) (hless : 0 < s.main.work N) :
    Advances lock turns s (.next { s with main := .died }) := by
  apply hinv.advances_main .died
  · exact fun hrunning ↦ absurd hrunning id
  · exact fun hlive ↦ absurd rfl hlive
  · exact fun t ht ↦ absurd ht (Nat.not_lt_zero t)
  · exact nofun
  · exact hless

theorem Inv.advances_creating (hinv : Inv lock turns s) {i : ℕ} (hmain : s.main = .creating i)
    (hi : i < N) :
    Advances lock turns s
      (.next { s.move ⟨i, hi⟩ (.turning 0) with main := .creating (i + 1) }) := by
  have hcreated : ∀ t, s.threads t = .absent ↔ i ≤ t := fun t ↦ by
    have hbefore := hinv.created (by rw [hmain]; exact Main.noConfusion) t
    rwa [hmain] at hbefore
  have habsent : s.threads ⟨i, hi⟩ = .absent := (hcreated _).2 le_rfl
  have hthread (t : Fin N) : Function.update s.threads ⟨i, hi⟩ (.turning 0) t =
      if t = ⟨i, hi⟩ then .turning 0 else s.threads t := Function.update_apply ..
  refine .inr ⟨_, rfl, ⟨?_, ?_, fun t ↦ ?_, fun _ t ↦ ?_, fun t ht ↦ ?_, nofun⟩, ?_⟩
  · intro _
    exact hinv.guards_of_same habsent Iff.rfl (by rw [hmain]; trivial)
  · have hsum := sum_update_add (Place.written turns) s.threads ⟨i, hi⟩ (.turning 0)
    rw [habsent] at hsum
    exact hinv.counter.trans (congrArg _ (Nat.add_right_cancel hsum).symm)
  · change (Function.update s.threads _ _ t).Knows turns s.myglobal
    rw [hthread]
    split
    · exact Nat.zero_le turns
    · exact hinv.knows t
  · change Function.update s.threads _ _ t = .absent ↔ i + 1 ≤ t
    rw [hthread]
    split
    · rename_i heq
      rw [heq]
      exact iff_of_false nofun (Nat.not_succ_le_self i)
    · rename_i hne
      have hval : (t : ℕ) ≠ i := fun heq ↦ hne (Fin.ext heq)
      rw [hcreated t]
      omega
  · exact absurd ht (Nat.not_lt_zero t)
  · have hsum := sum_update_add (Place.work turns) s.threads ⟨i, hi⟩ (.turning 0)
    rw [habsent, show Place.work turns .absent = Place.work turns (.turning 0) from rfl] at hsum
    simp only [State.work, State.move, hmain, Main.work]
    omega

theorem Inv.advances_initialising (hinv : Inv lock turns s) (hmain : s.main = .initialising) :
    Advances lock turns s (.next { s with lock := lock.idle, main := .creating 0 }) := by
  have habsent (t : Fin N) : s.threads t = .absent := by
    rw [hinv.created (by rw [hmain]; exact Main.noConfusion) t, hmain]
    exact Nat.zero_le _
  refine .inr ⟨_, rfl, ⟨fun _ ↦ .idle fun t ↦ ?_, hinv.counter, hinv.knows, fun _ t ↦ ?_,
    fun t ht ↦ ?_, nofun⟩, ?_⟩
  · rw [habsent t]
    exact id
  · exact iff_of_true (habsent t) (Nat.zero_le _)
  · exact absurd ht (Nat.not_lt_zero t)
  · simp only [State.work, hmain, Main.work]
    omega

theorem Inv.advances_joining (hinv : Inv lock turns s) {i : ℕ} (hmain : s.main = .joining i)
    (hi : i < N) (hexited : s.threads ⟨i, hi⟩ = .exited) :
    Advances lock turns s (.next { s with main := .joining (i + 1) }) := by
  apply hinv.advances_main
  · rw [hmain]
    exact id
  · intro _
    rw [hmain]
    exact ⟨nofun, fun _ ↦ Iff.rfl⟩
  · intro t ht
    have hjoined := hinv.joined t
    rw [hmain] at hjoined
    rcases Nat.lt_succ_iff_lt_or_eq.1 ht with hlt | heq
    · exact hjoined hlt
    · rwa [show t = ⟨i, hi⟩ from Fin.ext heq]
  · exact nofun
  · rw [hmain]
    simp only [Main.work]
    omega

theorem Inv.advances_created (hinv : Inv lock turns s) {i : ℕ} (hmain : s.main = .creating i)
    (hi : ¬ i < N) : Advances lock turns s (.next { s with main := .joining 0 }) := by
  apply hinv.advances_main
  · rw [hmain]
    exact id
  · intro _
    rw [hmain]
    exact ⟨nofun, fun t ↦ iff_of_false (fun hle ↦ hi (hle.trans_lt t.isLt)) t.isLt.not_ge⟩
  · exact fun t ht ↦ absurd ht (Nat.not_lt_zero t)
  · exact nofun
  · rw [hmain]
    simp only [Main.work]
    omega

theorem Inv.advances_joined (hinv : Inv lock turns s) {i : ℕ} (hmain : s.main = .joining i)
    (hi : ¬ i < N) : Advances lock turns s (.next { s with main := .printed s.myglobal }) := by
  apply hinv.advances_main
  · rw [hmain]
    exact id
  · intro _
    rw [hmain]
    exact ⟨nofun, fun _ ↦ Iff.rfl⟩
  · intro t _
    apply hinv.joined t
    rw [hmain]
    exact t.isLt.trans_le (Nat.le_of_not_lt hi)
  · exact fun value hvalue ↦ (Main.printed.inj hvalue).symm
  · rw [hmain]
    simp [Main.work]

theorem Inv.advances_mainThread (hinv : Inv lock turns s) :
    Advances lock turns s (mainThread lock answers s) := by
  rw [mainThread]
  cases hmain : s.main with
  | initialising =>
      dsimp only
      by_cases hsem : answers.semInit = true
      · rw [if_pos hsem]
        exact hinv.advances_initialising hmain
      · rw [if_neg hsem]
        exact hinv.advances_died (by rw [hmain]; simp [Main.work])
  | creating i =>
      dsimp only
      by_cases hi : i < N
      · rw [dif_pos hi]
        by_cases hcreate : answers.pthreadCreate i = true
        · rw [if_pos hcreate]
          exact hinv.advances_creating hmain hi
        · rw [if_neg hcreate]
          exact hinv.advances_died (by rw [hmain]; simp [Main.work])
      · rw [dif_neg hi]
        exact hinv.advances_created hmain hi
  | joining i =>
      dsimp only
      by_cases hi : i < N
      · rw [dif_pos hi]
        by_cases hjoin : answers.pthreadJoin i = true
        · rw [if_pos hjoin]
          cases hthread : s.threads ⟨i, hi⟩ with
          | exited => exact hinv.advances_joining hmain hi hthread
          | _ => exact .inl rfl
        · rw [if_neg hjoin]
          exact hinv.advances_died (by rw [hmain]; simp [Main.work])
      · rw [dif_neg hi]
        exact hinv.advances_joined hmain hi
  | printed value => exact .inl rfl
  | died => exact .inl rfl

/-! ## Runs -/

variable {start : Main} {value : L}

/-- The places from which `main` starts in the two programs. -/
def Starts (lock : Lock (Fin N) L) (start : Main) (value : L) : Prop :=
  start = .initialising ∨ start = .creating 0 ∧ value = lock.idle

theorem Starts.inv (h : Starts lock start value) :
    Inv lock turns (⟨value, 0, start, fun _ ↦ .absent⟩ : State N L) where
  guards hrunning := by
    rcases h with rfl | ⟨rfl, rfl⟩
    · exact absurd hrunning id
    · exact .idle fun t ↦ id
  counter := by simp [Place.written]
  knows _ := trivial
  created _ t := by
    rcases h with rfl | ⟨rfl, _⟩ <;> exact iff_of_true rfl (Nat.zero_le _)
  joined t ht := by
    rcases h with rfl | ⟨rfl, _⟩ <;> exact absurd ht (Nat.not_lt_zero t)
  printed v hv := by
    rcases h with rfl | ⟨rfl, _⟩ <;> cases hv

theorem Inv.advances (hinv : Inv lock turns s) (hfits : (N * turns : ℕ) ≤ intMax)
    (a : Thread N) :
    Advances lock turns s ((program lock turns answers start value).step a s) := by
  have hmain : Advances lock turns s (mainThread lock answers s) := hinv.advances_mainThread
  have hthread (t : Fin N) (hlive : s.main ≠ .died) := hinv.advances_threadfun hfits hlive t
  rw [program]
  dsimp only
  cases hplace : s.main with
  | died => exact .inl rfl
  | printed v => exact .inl rfl
  | initialising | creating i | joining i =>
      cases a with
      | main => exact hmain
      | created t => exact hthread t (by rw [hplace]; exact Main.noConfusion)

theorem Inv.of_next (hinv : Inv lock turns s) (hfits : (N * turns : ℕ) ≤ intMax) {a : Thread N}
    (hstep : (program lock turns answers start value).step a s = .next s') :
    Inv lock turns s' ∧ s'.work turns < s.work turns := by
  rcases hinv.advances hfits a with hblocked | ⟨s₁, hnext, hinv', hless⟩
  · rw [hblocked] at hstep
    cases hstep
  · rw [hnext] at hstep
    cases hstep
    exact ⟨hinv', hless⟩

theorem inv_of_reach (hstart : Starts lock start value) (hfits : (N * turns : ℕ) ≤ intMax)
    (h : (program lock turns answers start value).Reach s) : Inv lock turns s := by
  apply h.invariant
  · rintro s rfl
    exact hstart.inv
  · exact fun a s s' hinv hstep ↦ (hinv.of_next hfits hstep).1

theorem Advances.exists_next {o : Outcome (State N L)} (h : Advances lock turns s o)
    (hfree : o ≠ .blocked) : ∃ s', o = .next s' := by
  rcases h with hblocked | ⟨s', hnext, _⟩
  · exact absurd hblocked hfree
  · exact ⟨s', hnext⟩

theorem threadfun_ne_blocked (hholds : (s.threads t).Holds) :
    threadfun lock turns t s ≠ .blocked := by
  rw [threadfun]
  cases hthread : s.threads t with
  | absent | turning i | locking i | exited =>
      rw [hthread] at hholds
      exact absurd hholds id
  | reading i | sleeping i j | writing i j => exact nofun
  | adding i j =>
      dsimp only
      split <;> exact nofun
  | unlocking i =>
      dsimp only
      split <;> exact nofun

/-- As long as a thread has not exited, it or the thread that holds the lock can take a step. -/
theorem Inv.exists_threadfun (hinv : Inv lock turns s) (hfits : (N * turns : ℕ) ≤ intMax)
    (hlive : s.main ≠ .died) (hexists : s.threads t ≠ .absent) (hruns : s.threads t ≠ .exited) :
    ∃ u s', threadfun lock turns u s = .next s' := by
  by_cases hin : ∃ u, (s.threads u).Holds
  · obtain ⟨u, hu⟩ := hin
    exact ⟨u, (hinv.advances_threadfun hfits hlive u).exists_next (threadfun_ne_blocked hu)⟩
  · have hout : ∀ u, ¬ (s.threads u).Holds := fun u hu ↦ hin ⟨u, hu⟩
    refine ⟨t, (hinv.advances_threadfun hfits hlive t).exists_next ?_⟩
    rw [threadfun]
    cases hthread : s.threads t with
    | absent => exact absurd hthread hexists
    | exited => exact absurd hthread hruns
    | turning i => exact nofun
    | locking i =>
        have hrunning := hinv.running hlive hthread nofun
        obtain ⟨value, hacquire⟩ := (hinv.guards hrunning).exists_acquire hout t
        dsimp only
        rw [hacquire]
        exact nofun
    | reading i | adding i j | sleeping i j | writing i j | unlocking i =>
        have hnot := hout t
        rw [hthread] at hnot
        exact absurd trivial hnot

theorem Inv.exists_step (hinv : Inv lock turns s) (hfits : (N * turns : ℕ) ≤ intMax)
    (hlive : ¬ s.Ended) :
    ∃ a s', (program lock turns answers start value).step a s = .next s' := by
  have hdied : s.main ≠ .died := fun heq ↦ hlive (.inl heq)
  have hprinted : ∀ v, s.main ≠ .printed v := fun v heq ↦ hlive (.inr ⟨v, heq⟩)
  have hstep : (∀ t, (program lock turns answers start value).step (.created t) s =
      threadfun lock turns t s) ∧
      (program lock turns answers start value).step .main s = mainThread lock answers s := by
    cases hmain : s.main with
    | died => exact absurd hmain hdied
    | printed v => exact absurd hmain (hprinted v)
    | initialising | creating i | joining i => simp [program, hmain]
  by_cases hwaits : ∃ t, s.threads t ≠ .absent ∧ s.threads t ≠ .exited
  · obtain ⟨t, hexists, hruns⟩ := hwaits
    obtain ⟨u, s', hnext⟩ := hinv.exists_threadfun hfits hdied hexists hruns
    exact ⟨.created u, s', (hstep.1 u).trans hnext⟩
  · -- every thread that exists has exited, so `main` does not wait for any
    have hadvances : Advances lock turns s (mainThread lock answers s) := hinv.advances_mainThread
    have hcreated := hinv.created hdied
    refine ⟨.main, (hadvances.exists_next ?_).imp fun s' hnext ↦ hstep.2.trans hnext⟩
    rw [mainThread]
    cases hmain : s.main with
    | died => exact absurd hmain hdied
    | printed v => exact absurd hmain (hprinted v)
    | initialising =>
        dsimp only
        split <;> exact nofun
    | creating i =>
        dsimp only
        split
        · split <;> exact nofun
        · exact nofun
    | joining i =>
        dsimp only
        split
        · rename_i hi
          have hexited : s.threads ⟨i, hi⟩ = .exited := by
            by_contra hruns
            apply hwaits
            refine ⟨⟨i, hi⟩, ?_, hruns⟩
            rw [Ne, hcreated, hmain]
            exact hi.not_ge
          rw [hexited]
          split <;> exact nofun
        · exact nofun

/-- The system counts: in every interleaving the variable is accessed by one thread at a time, no
step is undefined, and the program ends and has then counted all turns. -/
structure Counts (S : System (State N L) (Thread N)) (turns : ℕ) (answers : Answers) : Prop where
  /-- No two threads are in their critical sections. -/
  exclusive : ∀ s, S.Reach s → s.main ≠ .died → ∀ t u, (s.threads t).Holds →
    (s.threads u).Holds → t = u
  /-- A thread that accesses the variable is in its critical section. -/
  guarded : ∀ s, S.Reach s → ∀ t, (s.threads t).Touches → (s.threads t).Holds
  defined : ∀ s, S.Reach s → ∀ a, S.step a s ≠ .undefined
  progress : ∀ s, S.Reach s → s.Ended ∨ ∃ a s', S.step a s = .next s'
  finite : ∃ bound, ∀ s, S.init s → ∀ n s', S.Steps s n s' → n ≤ bound
  /-- What is printed is the number of all turns. -/
  total : ∀ s, S.Reach s → ∀ value, s.main = .printed value →
    value = (N * turns : ℕ) ∧ ∀ t, s.threads t = .exited
  /-- If all calls of the library succeed, the process does not die. -/
  lives : answers.semInit = true → (∀ i, answers.pthreadCreate i = true) →
    (∀ i, answers.pthreadJoin i = true) → ∀ s, S.Reach s → s.main ≠ .died

theorem Place.holds_of_touches {place : Place} (h : place.Touches) : place.Holds := by
  cases place <;> trivial

theorem mainThread_main (hsem : answers.semInit = true)
    (hcreate : ∀ i, answers.pthreadCreate i = true) (hjoin : ∀ i, answers.pthreadJoin i = true)
    (hlive : s.main ≠ .died) (h : mainThread lock answers s = .next s') : s'.main ≠ .died := by
  rw [mainThread] at h
  cases hmain : s.main with
  | initialising =>
      rw [hmain, hsem] at h
      cases h
      exact nofun
  | creating i =>
      rw [hmain] at h
      dsimp only at h
      split at h
      · rw [hcreate i] at h
        cases h
        exact nofun
      · cases h
        exact nofun
  | joining i =>
      rw [hmain] at h
      dsimp only at h
      split at h
      · rw [hjoin i, if_pos rfl] at h
        split at h
        · cases h
          exact nofun
        · cases h
      · cases h
        exact nofun
  | printed v =>
      rw [hmain] at h
      cases h
  | died => exact absurd hmain hlive

theorem threadfun_main (h : threadfun lock turns t s = .next s') : s'.main = s.main := by
  rw [threadfun] at h
  cases hthread : s.threads t with
  | absent | exited =>
      rw [hthread] at h
      cases h
  | turning i | reading i | sleeping i j | writing i j =>
      rw [hthread] at h
      cases h
      rfl
  | adding i j =>
      rw [hthread] at h
      dsimp only at h
      split at h
      · cases h
        rfl
      · cases h
  | locking i | unlocking i =>
      rw [hthread] at h
      dsimp only at h
      split at h
      · cases h
      · cases h
        rfl

theorem counts_of_starts (hstart : Starts lock start value) (hfits : (N * turns : ℕ) ≤ intMax) :
    Counts (program lock turns answers start value) turns answers where
  exclusive s hs hlive t u ht hu := by
    have hinv := inv_of_reach hstart hfits hs
    have hexists : s.threads t ≠ .absent := fun habsent ↦ by
      rw [habsent] at ht
      exact ht
    exact (hinv.guards (hinv.running hlive rfl hexists)).unique ht hu
  guarded _ _ _ := Place.holds_of_touches
  defined s hs a hundefined := by
    rcases (inv_of_reach hstart hfits hs).advances hfits a with hblocked | ⟨s', hnext, _⟩
    · rw [hblocked] at hundefined
      cases hundefined
    · rw [hnext] at hundefined
      cases hundefined
  progress s hs := by
    by_cases hlive : s.Ended
    · exact .inl hlive
    · exact .inr ((inv_of_reach hstart hfits hs).exists_step hfits hlive)
  finite := by
    refine ⟨(⟨value, 0, start, fun _ ↦ .absent⟩ : State N L).work turns, fun s hs n s' hsteps ↦ ?_⟩
    cases hs
    exact @System.Steps.length_le _ _ _ _ _ (Inv lock turns) (State.work turns) n hsteps hstart.inv
      fun a s s' hinv hstep ↦ hinv.of_next hfits hstep
  total s hs v hv := by
    have hinv := inv_of_reach hstart hfits hs
    have hexited : ∀ t, s.threads t = .exited := fun t ↦ by
      apply hinv.joined t
      rw [hv]
      exact t.isLt
    refine ⟨?_, hexited⟩
    calc v = s.myglobal := hinv.printed v hv
      _ = (∑ t, (s.threads t).written turns : ℕ) := hinv.counter
      _ = (∑ _t : Fin N, turns : ℕ) := by simp only [hexited, Place.written]
      _ = (N * turns : ℕ) := by
        rw [Finset.sum_const, Finset.card_univ, Fintype.card_fin, smul_eq_mul]
  lives hsem hcreate hjoin s hs := by
    apply hs.invariant
    · rintro s rfl
      rcases hstart with rfl | ⟨rfl, _⟩ <;> exact nofun
    · intro a s s' hlive hstep
      rw [program] at hstep
      dsimp only at hstep
      split at hstep
      · cases hstep
      · cases hstep
      · cases a with
        | main => exact mainThread_main hsem hcreate hjoin hlive hstep
        | created t => exact threadfun_main hstep ▸ hlive

/-- Both programs count, with any number of threads and of turns for which the value fits. -/
theorem sharedCounter_counts (N turns : ℕ) (answers : Answers)
    (hfits : (N * turns : ℕ) ≤ intMax) :
    Counts (pthreadMutex N turns answers) turns answers ∧
      Counts (pthreadSemaphore N turns answers) turns answers :=
  ⟨counts_of_starts (.inr ⟨rfl, rfl⟩) hfits, counts_of_starts (.inl rfl) hfits⟩

/-- No call fails. -/
def allSucceed : Answers := ⟨true, fun _ ↦ true, fun _ ↦ true⟩

/-- Five threads of five turns each, when no call fails. -/
theorem sharedCounter_counts_five :
    Counts (pthreadMutex 5 5 allSucceed) 5 allSucceed ∧
      Counts (pthreadSemaphore 5 5 allSucceed) 5 allSucceed :=
  sharedCounter_counts 5 5 allSucceed (by decide)

end Experimentation.SharedCounter
