import Experimentation.StateMachine.States

/-!
# The state machine

The engine of `fsm.c`.  The states that a machine knows are in a hash table whose keys are pointers:
to the key of a registered state, which can be overwritten, or to a variable of the caller.  What a
key compares to therefore depends on the memory of the states.

The world of a machine is the memory of the states, the machine itself, and a history: the functions
that events called so far, each with its data.  What such a function does to the world is a
parameter.
-/

namespace Experimentation.StateMachine

open Semantics HashTable

variable {A D : Type}

/-- A pointer to an unsigned key: that of a state, or a variable that holds `key`. -/
inductive KeyRef
  | stKey (s : StateId)
  | caller (key : UInt32)
deriving DecidableEq, Repr

/-- `pqnode_t`, with the data that was copied for it. -/
structure PqNode (D : Type) where
  data : D
  evtkey : UInt32
  prio : UInt32
deriving DecidableEq, Repr

structure Fsm (D : Type) where
  sttable : HTable KeyRef StateId
  cstate : Option StateId
  nqueues : UInt32
  pqtable : List (List (PqNode D))

inductive FsmRet
  | clean
  | dirty
  | empty
  | eprio
  | eexists
  | enomem
  | enotfound
  | ok
deriving DecidableEq, Repr

/-- A machine with the memory of the states and the history of the actions that were executed. -/
structure World (A D : Type) where
  states : StateMem A
  fsm : Fsm D
  trace : List (A × D)

/-- The key that a pointer refers to.  Registered states are not freed, so the case of an address
without an object does not arise. -/
def readKey (mem : StateMem A) : KeyRef → UInt32
  | .stKey s =>
      match mem s with
      | some st => st.stKey
      | none => 0
  | .caller key => key

theorem readKey_stKey {mem : StateMem A} {s : StateId} {st : StateObj A} (h : mem s = some st) :
    readKey mem (.stKey s) = st.stKey := by
  rw [readKey, h]

def fsmHashf (mem : StateMem A) (pkey : KeyRef) : ℕ := uintHashf (readKey mem pkey)

def fsmCmpf (mem : StateMem A) (parg1 parg2 : KeyRef) : ℤ :=
  uintCmpf (readKey mem parg1) (readKey mem parg2)

def fsmCallbacks (mem : StateMem A) : LawfulCallbacks KeyRef where
  hashf := fsmHashf mem
  cmpf := fsmCmpf mem
  refl _ := uintCmpf_eq_zero_iff.2 rfl
  symm _ _ h := uintCmpf_eq_zero_iff.2 (uintCmpf_eq_zero_iff.1 h).symm
  trans _ _ _ h h' :=
    uintCmpf_eq_zero_iff.2 ((uintCmpf_eq_zero_iff.1 h).trans (uintCmpf_eq_zero_iff.1 h'))
  hash_eq _ _ h := congrArg uintHashf (uintCmpf_eq_zero_iff.1 h)

/-! ## Building a machine -/

/-- The outcomes of the allocations of `fsm_init`. -/
structure FsmMallocs where
  fsm : Bool
  sttable : Bool
  pqtable : Bool
  mobj : Bool
  heads : Bool

/-- `fsm_init`.  `cstate` is not set, so it points nowhere until `fsm_set_state`. -/
def fsmInit (mallocs : FsmMallocs) (size factor : ℕ) (nqueues : UInt32) :
    Exec (FsmRet × Option (Fsm D)) :=
  if !mallocs.fsm || !mallocs.sttable || !mallocs.pqtable || !mallocs.mobj then
    return (.enomem, none)
  else do
    match ← htableInit mallocs.heads size factor with
    | (_, none) => return (.enomem, none)
    | (_, some sttable) =>
        return (.ok, some
          { sttable := sttable, cstate := none, nqueues := nqueues,
            pqtable := List.replicate nqueues.toNat [] })

/-- `fsm_add_state`.  The key of the state is overwritten before the table is searched. -/
def fsmAddState (mallocs : InsertMallocs) (w : World A D) (key : UInt32) (pstate : StateId) :
    Exec (FsmRet × World A D) := do
  let st ← loadState w.states pstate
  let states := storeState w.states pstate { st with stKey := key }
  let (r, sttable) ←
    htableInsert (fsmCallbacks states) mallocs w.fsm.sttable (.stKey pstate) (some pstate)
  let w := { w with states := states, fsm := { w.fsm with sttable := sttable } }
  if r = .existing then
    return (.eexists, w)
  else
    return (.ok, w)

/-- The body of the inner loop of `fsm_mark_reachable_states`: the event at the iterator of the
state `pstate`. -/
def markEvent (pstate : StateId) (w : World A D) (eit : HIterator UInt32 (Event A)) :
    Exec (World A D) := do
  let pevt ← htableIteratorGetData eit
  let st ← loadState w.states pstate
  if st.isReachable then
    match pevt with
    | none => throw .badPointer
    | some pevt =>
        match pevt.evtNewstate with
        | none => throw .badPointer
        | some pnewstate =>
            let new ← loadState w.states pnewstate
            return { w with states := storeState w.states pnewstate new.markAsReachable }
  else
    return w

/-- The body of the outer loop of `fsm_mark_reachable_states`: the state at the iterator. -/
def markState (w : World A D) (sit : HIterator KeyRef StateId) : Exec (World A D) := do
  match ← htableIteratorGetData sit with
  | none => throw .badPointer
  | some pstate =>
      let st ← loadState w.states pstate
      st.evttable.forEachElm (markEvent pstate) w

def fsmMarkReachableStates (w : World A D) : Exec (World A D) :=
  w.fsm.sttable.forEachElm markState w

/-! ## Running a machine -/

def fsmSetState (w : World A D) (stkey : UInt32) : Exec (FsmRet × World A D) := do
  match ← htableSearch (fsmCallbacks w.states) w.fsm.sttable (.caller stkey) with
  | none => return (.enotfound, w)
  | some pstate =>
      let st ← loadState w.states pstate
      let w := { w with states := storeState w.states pstate st.markAsReachable }
      let w ← fsmMarkReachableStates w
      return (.ok, { w with fsm := { w.fsm with cstate := some pstate } })

/-- The state that `cstate` points to. -/
def World.currentState (w : World A D) : Exec (StateObj A) :=
  match w.fsm.cstate with
  | none => .error .badPointer
  | some s => loadState w.states s

theorem World.currentState_eq {w : World A D} {s : StateId} {st : StateObj A}
    (hs : w.fsm.cstate = some s) (hst : w.states s = some st) : w.currentState = .ok st := by
  rw [World.currentState, hs]
  exact loadState_eq hst

def fsmGetCurrentState (w : World A D) : Exec UInt32 := do
  let st ← w.currentState
  return st.stKey

/-- The call of the action of an event, which is recorded in the history. -/
def callAction (act : A → D → World A D → Exec (World A D)) (evtActionf : Option A) (data : D)
    (w : World A D) : Exec (World A D) :=
  match evtActionf with
  | none => return w
  | some f => act f data { w with trace := w.trace ++ [(f, data)] }

def fsmProcessEvent (act : A → D → World A D → Exec (World A D)) (w : World A D) (evtkey : UInt32)
    (data : D) : Exec (FsmRet × World A D) := do
  let st ← w.currentState
  match ← htableSearch stateCallbacks st.evttable evtkey with
  | none => return (.enotfound, w)
  | some pevt => do
      let w ← callAction act pevt.evtActionf data w
      match pevt.evtNewstate with
      | none => return (.enotfound, w)
      | some pnewstate => do
          let _ ← loadState w.states pnewstate
          match ← htableSearch (fsmCallbacks w.states) w.fsm.sttable (.stKey pnewstate) with
          | none => return (.enotfound, w)
          | some _ => return (.ok, { w with fsm := { w.fsm with cstate := some pnewstate } })

end Experimentation.StateMachine
