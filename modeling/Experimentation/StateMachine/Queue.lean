import Experimentation.StateMachine.Machine

/-!
# The priority queues of a state machine

Pending events of `fsm.c`.  There is one tail queue for each priority, a list of nodes here.  An
event is taken off its queue after `fsm_process_event` returned, and the function that the event
calls may queue events in the meantime.  Such a function is described by the requests that it makes,
which may depend on everything that it can look at.
-/

namespace Experimentation.StateMachine

open Semantics

variable {A D : Type}

/-- The data of an event, as bytes. -/
abbrev Bytes := List UInt8

/-- `memcpy` of the first `size` bytes. -/
def memcpy (pdata : ℕ → UInt8) (size : ℕ) : Bytes := (List.range size).map pdata

/-- The queue of the head at `i`. -/
def queueAt (pqtable : List (List (PqNode D))) (i : ℕ) : Exec (List (PqNode D)) :=
  match pqtable[i]? with
  | some queue => .ok queue
  | none => .error .outOfBounds

theorem queueAt_eq_ok {pqtable : List (List (PqNode D))} {i : ℕ} {queue : List (PqNode D)} :
    queueAt pqtable i = .ok queue ↔ pqtable[i]? = some queue := by
  cases hget : pqtable[i]? with
  | none => simp [queueAt, hget]
  | some queue' => simp [queueAt, hget]

/-- `STAILQ_INSERT_TAIL` on the head at `i`. -/
def queueInsertTail (pqtable : List (List (PqNode D))) (i : ℕ) (pnode : PqNode D) :
    Exec (List (List (PqNode D))) := do
  let _ ← queueAt pqtable i
  return pqtable.modify i (· ++ [pnode])

/-- `STAILQ_REMOVE_HEAD` on the head at `i`, after its first node was read. -/
def queueRemoveHead (pqtable : List (List (PqNode D))) (i : ℕ) :
    Exec (List (List (PqNode D))) := do
  match ← queueAt pqtable i with
  | [] => throw .badPointer
  | _ :: _ => return pqtable.modify i List.tail

/-! ## Queueing -/

/-- What `fsm_queue_event` is called with, and whether its allocations succeed. -/
structure Request where
  evtkey : UInt32
  pdata : ℕ → UInt8
  size : ℕ
  prio : UInt32
  mallocNode : Bool
  mallocData : Bool

def fsmQueueEvent (w : World A Bytes) (q : Request) : Exec (FsmRet × World A Bytes) :=
  if q.prio ≥ w.fsm.nqueues then
    return (.eprio, w)
  else if !q.mallocNode then
    return (.enomem, w)
  else if !q.mallocData then
    return (.enomem, w)
  else do
    let pnode : PqNode Bytes := ⟨memcpy q.pdata q.size, q.evtkey, q.prio⟩
    let pqtable ← queueInsertTail w.fsm.pqtable q.prio.toNat pnode
    return (.ok, { w with fsm := { w.fsm with pqtable := pqtable } })

/-- Calls of `fsm_queue_event` in turn, whatever they return. -/
def queueAll (w : World A Bytes) (qs : List Request) : Exec (World A Bytes) :=
  qs.foldlM (fun w q ↦ do
    let (_, w) ← fsmQueueEvent w q
    return w) w

/-- The requests that a function makes when it is called with some data. -/
abbrev Requests (A : Type) := A → Bytes → World A Bytes → List Request

/-- The functions that events call, given the requests that they make. -/
def queueing (requests : Requests A) : A → Bytes → World A Bytes → Exec (World A Bytes) :=
  fun f data w ↦ queueAll w (requests f data w)

/-! ## Serving -/

/-- The body of the loop of `fsm_dequeue_event` on the head at `i`, which goes on with `next` when
there is no event.  Besides what is returned, the node whose key and data are handed to
`fsm_process_event` is recorded. -/
def serveHead (act : A → D → World A D → Exec (World A D)) (w : World A D) (i : ℕ)
    (next : Exec (FsmRet × Option (PqNode D) × World A D)) :
    Exec (FsmRet × Option (PqNode D) × World A D) := do
  match ← queueAt w.fsm.pqtable i with
  | [] => next
  | pnode :: _ => do
      -- what `fsm_process_event` returns is not acted upon
      let (_, w) ← fsmProcessEvent act w pnode.evtkey pnode.data
      let pqtable ← queueRemoveHead w.fsm.pqtable i
      return (.ok, some pnode, { w with fsm := { w.fsm with pqtable := pqtable } })

/-- The loop of `fsm_dequeue_event` from the head at `i` down. -/
def serveFrom (act : A → D → World A D → Exec (World A D)) (w : World A D) :
    (i : ℕ) → Exec (FsmRet × Option (PqNode D) × World A D)
  | 0 => serveHead act w 0 (return (.empty, none, w))
  | i + 1 => serveHead act w (i + 1) (serveFrom act w i)

def fsmDequeueEvent (act : A → D → World A D → Exec (World A D)) (w : World A D) :
    Exec (FsmRet × Option (PqNode D) × World A D) :=
  serveFrom act w (w.fsm.nqueues - 1).toNat

def fsmGetQueuedEvents (w : World A D) : Exec ℕ :=
  (List.range w.fsm.nqueues.toNat).foldlM (fun total i ↦ do
    let queue ← queueAt w.fsm.pqtable i
    return queue.foldl (fun total _ ↦ wrapSize (total + 1)) total) 0

/-- A call on the queues. -/
inductive QueueCall
  | queueEvent (q : Request)
  | dequeueEvent

/-- What a call returns, and the event that it hands to `fsm_process_event`. -/
structure Outcome (D : Type) where
  ret : FsmRet
  handed : Option (PqNode D)
deriving DecidableEq, Repr

/-- One call on the queues, when events call functions that make the given requests. -/
def performQueue (requests : Requests A) (w : World A Bytes) :
    QueueCall → Exec (Outcome Bytes × World A Bytes)
  | .queueEvent q => do
      let (r, w) ← fsmQueueEvent w q
      return (⟨r, none⟩, w)
  | .dequeueEvent => do
      let (r, handed, w) ← fsmDequeueEvent (queueing requests) w
      return (⟨r, handed⟩, w)

/-- The calls of a list in turn, with their outcomes. -/
def performQueueAll (requests : Requests A) :
    World A Bytes → List QueueCall → Exec (List (Outcome Bytes) × World A Bytes)
  | w, [] => return ([], w)
  | w, c :: cs => do
      let (o, w) ← performQueue requests w c
      let (os, w) ← performQueueAll requests w cs
      return (o :: os, w)

end Experimentation.StateMachine
