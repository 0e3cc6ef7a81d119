import Experimentation.Semantics.Interleaving
import Mathlib.Data.UInt
import Mathlib.Logic.Function.Basic

/-!
# The sleeping barber

One barber and any number of customers share a counter of free seats and three semaphores.  A
semaphore is a natural number; waiting for one whose value is zero blocks, and taking or posting one
is a single step.  The counter is an ordinary variable: `freeseats++` and `freeseats--` read it in
one step and write it in another, and other threads may run in between.

The messages that the threads print are left out.
-/

namespace Experimentation.SleepingBarber

open Semantics

/-- Where the barber is in `barthread`. -/
inductive Barber
  /-- Before `sem_wait(&cussem)`. -/
  | asleep
  /-- Before `sem_wait(&seasem)`. -/
  | called
  /-- Before `freeseats++` reads the counter. -/
  | seating
  /-- Before `freeseats++` writes the counter. -/
  | storing (seats : UInt32)
  /-- Before `sem_post(&barsem)`. -/
  | inviting
  /-- Before `sem_post(&seasem)`. -/
  | releasing
deriving DecidableEq, Repr

/-- Where a customer is in `custhread`. -/
inductive Customer
  /-- Before `sem_wait(&seasem)`. -/
  | arriving
  /-- Before the test `freeseats > 0`. -/
  | looking
  /-- Before `freeseats--` reads the counter. -/
  | sitting
  /-- Before `freeseats--` writes the counter. -/
  | storing (seats : UInt32)
  /-- Before `sem_post(&cussem)`. -/
  | calling
  /-- Before `sem_post(&seasem)`, on the branch with a free seat. -/
  | releasing
  /-- Before `sem_wait(&barsem)`. -/
  | waiting
  /-- Before `sem_post(&seasem)`, on the branch without a free seat. -/
  | leaving
  /-- After `sem_wait(&barsem)`, at `pthread_exit`. -/
  | served
  /-- At `pthread_exit`, on the branch without a free seat. -/
  | unserved
deriving DecidableEq, Repr

/-- What the threads share, where they are, and how often the barber has posted `barsem`. -/
structure State (ι : Type) where
  barsem : ℕ
  cussem : ℕ
  seasem : ℕ
  freeseats : UInt32
  bar : Barber
  cus : ι → Customer
  invited : ℕ

inductive Thread (ι : Type)
  | barber
  | customer (c : ι)
deriving DecidableEq

variable {ι : Type}

/-- `sem_wait(&cussem)`, and so for the other semaphores: the value that is left. -/
def semWait (value : ℕ) (after : ℕ → State ι) : Outcome (State ι) :=
  match value with
  | 0 => .blocked
  | left + 1 => .next (after left)

def barthread (s : State ι) : Outcome (State ι) :=
  match s.bar with
  | .asleep => semWait s.cussem fun left ↦ { s with cussem := left, bar := .called }
  | .called => semWait s.seasem fun left ↦ { s with seasem := left, bar := .seating }
  | .seating => .next { s with bar := .storing s.freeseats }
  | .storing seats => .next { s with freeseats := seats + 1, bar := .inviting }
  | .inviting =>
      .next { s with barsem := s.barsem + 1, bar := .releasing, invited := s.invited + 1 }
  | .releasing => .next { s with seasem := s.seasem + 1, bar := .asleep }

/-- The customer is at the place now. -/
def State.move [DecidableEq ι] (s : State ι) (c : ι) (place : Customer) : State ι :=
  { s with cus := Function.update s.cus c place }

def custhread [DecidableEq ι] (c : ι) (s : State ι) : Outcome (State ι) :=
  match s.cus c with
  | .arriving => semWait s.seasem fun left ↦ { s.move c .looking with seasem := left }
  | .looking => .next (s.move c (if 0 < s.freeseats then .sitting else .leaving))
  | .sitting => .next (s.move c (.storing s.freeseats))
  | .storing seats => .next { s.move c .calling with freeseats := seats - 1 }
  | .calling => .next { s.move c .releasing with cussem := s.cussem + 1 }
  | .releasing => .next { s.move c .waiting with seasem := s.seasem + 1 }
  | .waiting => semWait s.barsem fun left ↦ { s.move c .served with barsem := left }
  | .leaving => .next { s.move c .unserved with seasem := s.seasem + 1 }
  | .served => .blocked
  | .unserved => .blocked

/-- The semaphores as `main` initialises them, with the counter at `MAX_FREESEATS` and every thread
at its start. -/
def opening (ι : Type) (maxFreeseats : UInt32) : State ι where
  barsem := 0
  cussem := 0
  seasem := 1
  freeseats := maxFreeseats
  bar := .asleep
  cus := fun _ ↦ .arriving
  invited := 0

/-- The barber and the customers, interleaved in any order. -/
def barberShop (ι : Type) [DecidableEq ι] (maxFreeseats : UInt32) :
    System (State ι) (Thread ι) where
  init s := s = opening ι maxFreeseats
  step
    | .barber, s => barthread s
    | .customer c, s => custhread c s

/-! ## Places -/

/-- The barber is between `sem_wait(&seasem)` and `sem_post(&seasem)`. -/
def Barber.holdsSeasem : Barber → Bool
  | .seating | .storing _ | .inviting | .releasing => true
  | .asleep | .called => false

/-- The customer is between `sem_wait(&seasem)` and `sem_post(&seasem)`. -/
def Customer.holdsSeasem : Customer → Bool
  | .looking | .sitting | .storing _ | .calling | .releasing | .leaving => true
  | .arriving | .waiting | .served | .unserved => false

/-- The barber's next step reads or writes the counter. -/
def Barber.touchesFreeseats : Barber → Bool
  | .seating | .storing _ => true
  | .asleep | .called | .inviting | .releasing => false

/-- The customer's next step reads or writes the counter. -/
def Customer.touchesFreeseats : Customer → Bool
  | .looking | .sitting | .storing _ => true
  | .arriving | .calling | .releasing | .waiting | .leaving | .served | .unserved => false

/-- The barber has taken `cussem` and has not yet written the counter. -/
def Barber.owesSeat : Barber → Bool
  | .called | .seating | .storing _ => true
  | .asleep | .inviting | .releasing => false

/-- The barber has taken `cussem` and has not yet posted `barsem`. -/
def Barber.owesInvitation : Barber → Bool
  | .called | .seating | .storing _ | .inviting => true
  | .asleep | .releasing => false

/-- The customer has taken a seat and has not yet posted `cussem`. -/
def Customer.owesCall : Customer → Bool
  | .calling => true
  | _ => false

/-- The customer has posted `cussem` and has not got past `sem_wait(&barsem)`. -/
def Customer.awaitsBarber : Customer → Bool
  | .releasing | .waiting => true
  | _ => false

/-- The customer has got past `sem_wait(&barsem)`. -/
def Customer.isServed : Customer → Bool
  | .served => true
  | _ => false

/-- The customer has called `pthread_exit`. -/
def Customer.finished : Customer → Bool
  | .served | .unserved => true
  | _ => false

/-- The thread is inside its critical section. -/
def HoldsSeasem (s : State ι) : Thread ι → Bool
  | .barber => s.bar.holdsSeasem
  | .customer c => (s.cus c).holdsSeasem

/-- The next step of the thread reads or writes the counter. -/
def TouchesFreeseats (s : State ι) : Thread ι → Bool
  | .barber => s.bar.touchesFreeseats
  | .customer c => (s.cus c).touchesFreeseats

end Experimentation.SleepingBarber
