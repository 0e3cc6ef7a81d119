import Experimentation.Semantics.Interleaving
import Experimentation.Semantics.Locks
import Mathlib.Logic.Function.Basic

/-!
# The shared counter

The programs `pthread_mutex.c` and `pthread_semaphore.c`.  The threads that `main` creates add one
to a global variable, a number of times each, by way of a local variable and with a pause in
between.  Both programs are the same but for what keeps the threads apart, which is a lock here, and
for the call that initialises the semaphore.

Every access to the variable is a step of its own, and a thread may run as soon as it was created.
To call `diep` ends all threads.  Each call of `sem_init`, `pthread_create` and `pthread_join` may
fail; the other calls of the library are not checked, and succeed.
-/

namespace Experimentation.SharedCounter

open Semantics

def intMax : ℤ := 2147483647

/-- Where a thread is in `threadfun`, with the values of its local variables. -/
inductive Place
  /-- It has not been created. -/
  | absent
  /-- Before the test of the loop. -/
  | turning (i : ℕ)
  /-- Before `pthread_mutex_lock(&mymutex)` or `sem_wait(&mutex)`. -/
  | locking (i : ℕ)
  /-- Before `j = myglobal`. -/
  | reading (i : ℕ)
  /-- Before `j++`. -/
  | adding (i : ℕ) (j : ℤ)
  /-- Before `sleep(1)`. -/
  | sleeping (i : ℕ) (j : ℤ)
  /-- Before `myglobal = j`. -/
  | writing (i : ℕ) (j : ℤ)
  /-- Before `pthread_mutex_unlock(&mymutex)` or `sem_post(&mutex)`. -/
  | unlocking (i : ℕ)
  /-- At `pthread_exit`. -/
  | exited
deriving DecidableEq, Repr

/-- Where `main` is. -/
inductive Main
  /-- Before `sem_init(&mutex, 0, 1)`. -/
  | initialising
  | creating (i : ℕ)
  | joining (i : ℕ)
  /-- It has printed the value, and returned. -/
  | printed (value : ℤ)
  /-- It has called `diep`. -/
  | died
deriving DecidableEq, Repr

/-- What the threads share, and where they are. -/
structure State (N : ℕ) (L : Type) where
  lock : L
  myglobal : ℤ
  main : Main
  threads : Fin N → Place

inductive Thread (N : ℕ)
  | main
  | created (t : Fin N)
deriving DecidableEq

/-- Which calls of the library succeed. -/
structure Answers where
  semInit : Bool
  pthreadCreate : ℕ → Bool
  pthreadJoin : ℕ → Bool

variable {N : ℕ} {L : Type}

namespace State

/-- The thread is at the place now. -/
def move (s : State N L) (t : Fin N) (place : Place) : State N L :=
  { s with threads := Function.update s.threads t place }

/-- The process has ended. -/
def Ended (s : State N L) : Prop := s.main = .died ∨ ∃ value, s.main = .printed value

end State

/-- `threadfun`, with `turns` turns of its loop. -/
def threadfun (lock : Lock (Fin N) L) (turns : ℕ) (t : Fin N) (s : State N L) :
    Outcome (State N L) :=
  match s.threads t with
  | .absent => .blocked
  | .turning i => .next (s.move t (if i < turns then .locking i else .exited))
  | .locking i =>
      match lock.acquire t s.lock with
      | none => .blocked
      | some value => .next { s.move t (.reading i) with lock := value }
  | .reading i => .next (s.move t (.adding i s.myglobal))
  | .adding i j => if j < intMax then .next (s.move t (.sleeping i (j + 1))) else .undefined
  | .sleeping i j => .next (s.move t (.writing i j))
  | .writing i j => .next { s.move t (.unlocking i) with myglobal := j }
  | .unlocking i =>
      match lock.release t s.lock with
      | none => .undefined
      | some value => .next { s.move t (.turning (i + 1)) with lock := value }
  | .exited => .blocked

/-- `main`. -/
def mainThread (lock : Lock (Fin N) L) (answers : Answers) (s : State N L) : Outcome (State N L) :=
  match s.main with
  | .initialising =>
      if answers.semInit then .next { s with lock := lock.idle, main := .creating 0 }
      else .next { s with main := .died }
  | .creating i =>
      if h : i < N then
        if answers.pthreadCreate i then
          .next { s.move ⟨i, h⟩ (.turning 0) with main := .creating (i + 1) }
        else
          .next { s with main := .died }
      else
        .next { s with main := .joining 0 }
  | .joining i =>
      if h : i < N then
        if answers.pthreadJoin i then
          match s.threads ⟨i, h⟩ with
          | .exited => .next { s with main := .joining (i + 1) }
          | _ => .blocked
        else
          -- a call that fails does not wait for the thread
          .next { s with main := .died }
      else
        .next { s with main := .printed s.myglobal }
  | .printed _ => .blocked
  | .died => .blocked

/-- The threads, interleaved in any order, from the place on where `main` starts. -/
def program (lock : Lock (Fin N) L) (turns : ℕ) (answers : Answers) (start : Main) (value : L) :
    System (State N L) (Thread N) where
  init s := s = ⟨value, 0, start, fun _ ↦ .absent⟩
  step a s :=
    match s.main with
    | .died => .blocked
    | .printed _ => .blocked
    | _ =>
        match a with
        | .main => mainThread lock answers s
        | .created t => threadfun lock turns t s

/-- `pthread_mutex.c`, with `N` threads of `turns` turns each. -/
def pthreadMutex (N turns : ℕ) (answers : Answers) : System (State N (Option (Fin N))) (Thread N) :=
  program (mutex (Fin N)) turns answers (.creating 0) none

/-- `pthread_semaphore.c`, with `N` threads of `turns` turns each. -/
def pthreadSemaphore (N turns : ℕ) (answers : Answers) : System (State N ℕ) (Thread N) :=
  program (semaphore (Fin N)) turns answers .initialising 0

/-! ## Places -/

/-- The thread is between the calls that acquire and release the lock. -/
def Place.Holds : Place → Prop
  | .reading _ | .adding _ _ | .sleeping _ _ | .writing _ _ | .unlocking _ => True
  | .absent | .turning _ | .locking _ | .exited => False

/-- The thread's next step reads or writes the variable. -/
def Place.Touches : Place → Prop
  | .reading _ | .writing _ _ => True
  | .absent | .turning _ | .locking _ | .adding _ _ | .sleeping _ _ | .unlocking _ | .exited =>
      False

/-- How often the thread has written the variable, if it is in its loop as it should be. -/
def Place.written (turns : ℕ) : Place → ℕ
  | .absent => 0
  | .turning i | .locking i | .reading i | .adding i _ | .sleeping i _ | .writing i _ => i
  | .unlocking i => i + 1
  | .exited => turns

end Experimentation.SharedCounter
