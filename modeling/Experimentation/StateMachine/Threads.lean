import Experimentation.Semantics.Interleaving
import Experimentation.Semantics.TailQueue
import Experimentation.StateMachine.Queue

/-!
# Producers and a consumer

Threads that share the queues of a machine.  Any number of producers call `fsm_queue_event`, which
takes a lock around the insertion, so that an insertion is one step.  The consumer calls
`fsm_dequeue_event` for ever and takes no lock; each of its accesses to a queue is a step of its
own.  Memory is sequentially consistent.  A call of `fsm_process_event` is recorded and no more: of
all that it does, only the events that it may queue concern the queues, and these are no different
from those that a producer queues at that time.

The queues are what `<sys/queue.h>` makes of them, and the nodes are named by their addresses.  For
each event that was queued there is a ticket, which tells it from all others, also from those that
are the same or were at the same address.
-/

namespace Experimentation.StateMachine

open Semantics TailQueue

variable {D : Type}

/-! ## States -/

/-- An event that was queued, and how many were queued before it. -/
structure QueuedEvent (D : Type) where
  ticket : ℕ
  pqnode : PqNode D
deriving DecidableEq, Repr

/-- The queue that an event belongs to. -/
def QueuedEvent.queue (e : QueuedEvent D) : ℕ := e.pqnode.prio.toNat

/-- What the consumer does next, with the variables `i` and `pnode` of `fsm_dequeue_event`. -/
inductive Consumer
  /-- Read the first node of queue `i`. -/
  | scan (i : ℕ)
  /-- Call `fsm_process_event`. -/
  | process (i pnode : ℕ)
  /-- Read the first node again. -/
  | reread (i pnode : ℕ)
  /-- The assignment to `stqh_first` of `STAILQ_REMOVE_HEAD`. -/
  | dropFirst (i : ℕ) (pnode : Option ℕ)
  /-- The assignment to `stqh_last`, if the queue became empty. -/
  | resetLast (i : ℕ) (pnode : Option ℕ)
  /-- Free the node, and return. -/
  | free (pnode : Option ℕ)
deriving DecidableEq, Repr

/-- What the threads share, the place of the consumer, and the history: the events that were queued,
and those that were handed to `fsm_process_event`. -/
structure ThreadState (D : Type) where
  nqueues : UInt32
  links : Links ℕ ℕ
  nodes : ℕ → Option (QueuedEvent D)
  consumer : Consumer
  queued : List (QueuedEvent D)
  handed : List (QueuedEvent D)

namespace ThreadState

/-- The consumer calls `fsm_dequeue_event`. -/
def entry (nqueues : UInt32) : Consumer := .scan (nqueues - 1).toNat

/-- The queues that `fsm_init` leaves. -/
def start (nqueues : UInt32) : ThreadState D :=
  ⟨nqueues, .empty, fun _ ↦ none, entry nqueues, [], []⟩

/-! ## Steps -/

/-- `stqh_last` points to a link that exists. -/
def endExists (s : ThreadState D) (q : ℕ) : Bool :=
  match s.links.last q with
  | .first _ => true
  | .next pnode => (s.nodes pnode).isSome

/-- A producer calls `fsm_queue_event`; `pnode` is what `malloc` returns for the node. -/
def queueEvent (s : ThreadState Bytes) (q : Request) (pnode : ℕ) :
    Semantics.Outcome (ThreadState Bytes) :=
  if q.prio ≥ s.nqueues then
    .next s
  else if !q.mallocNode then
    .next s
  else if !q.mallocData then
    .next s
  else if (s.nodes pnode).isSome then
    -- `malloc` does not return memory that is in use
    .blocked
  else if !s.endExists q.prio.toNat then
    .undefined
  else
    let e : QueuedEvent Bytes :=
      ⟨s.queued.length, ⟨memcpy q.pdata q.size, q.evtkey, q.prio⟩⟩
    .next { s with
      links := s.links.insertTail q.prio.toNat pnode
      nodes := Function.update s.nodes pnode (some e)
      queued := s.queued ++ [e] }

/-- The next step of the consumer. -/
def dequeueEvent (s : ThreadState D) : Semantics.Outcome (ThreadState D) :=
  match s.consumer with
  | .scan i =>
      if i < s.nqueues.toNat then
        match s.links.first i with
        | some pnode => .next { s with consumer := .process i pnode }
        | none =>
            match i with
            -- `fsm_dequeue_event` returns `FSM_EMPTY` and is called again
            | 0 => .next { s with consumer := entry s.nqueues }
            | i + 1 => .next { s with consumer := .scan i }
      else
        .undefined
  | .process i pnode =>
      match s.nodes pnode with
      | some e => .next { s with consumer := .reread i pnode, handed := s.handed ++ [e] }
      | none => .undefined
  | .reread i _ => .next { s with consumer := .dropFirst i (s.links.first i) }
  | .dropFirst i pnode =>
      match (s.links.first i).bind s.nodes with
      | none => .undefined
      | some _ =>
          let links := s.links.dropFirst i
          if links.first i = none then
            .next { s with links := links, consumer := .resetLast i pnode }
          else
            .next { s with links := links, consumer := .free pnode }
  | .resetLast i pnode =>
      .next { s with links := s.links.resetLast i, consumer := .free pnode }
  | .free none => .undefined
  | .free (some pnode) =>
      match s.nodes pnode with
      | none => .undefined
      | some _ => .next { s with
          nodes := Function.update s.nodes pnode none
          consumer := entry s.nqueues }

end ThreadState

/-- A step of one of the threads. -/
inductive ThreadStep (ι : Type)
  | producer (thread : ι) (q : Request) (pnode : ℕ)
  | consumer

/-- The producers, which are named by `ι`, and the consumer. -/
def threads (ι : Type) : System (ThreadState Bytes) (ThreadStep ι) where
  init s := ∃ nqueues, s = .start nqueues
  step
    | .producer _ q pnode, s => s.queueEvent q pnode
    | .consumer, s => s.dequeueEvent

/-- Every event that was queued was handed over exactly once, or it was not handed over and can be
reached from the head of its queue. -/
def ThreadState.NothingLost (s : ThreadState Bytes) : Prop :=
  ∀ e ∈ s.queued, s.handed.count e = 1 ∨
    s.handed.count e = 0 ∧ ∃ pnode, s.links.OnQueue e.queue pnode ∧ s.nodes pnode = some e

/-- The queue that the consumer has emptied, but whose end it has not reset. -/
def Consumer.resetting : Consumer → Option ℕ
  | .resetLast i _ => some i
  | _ => none

/-- `fsm_queue_event` gets as far as the insertion. -/
def Request.Accepted (q : Request) (nqueues : UInt32) : Prop :=
  q.prio < nqueues ∧ q.mallocNode = true ∧ q.mallocData = true

/-- No event is inserted into a queue that the consumer has emptied without resetting its end. -/
def ThreadStep.OutsideWindow {ι : Type} : ThreadStep ι → ThreadState Bytes → Prop
  | .producer _ q _, s => q.Accepted s.nqueues → s.consumer.resetting ≠ some q.prio.toNat
  | .consumer, _ => True

end Experimentation.StateMachine
