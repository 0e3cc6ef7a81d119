import Experimentation.HashTable.Layout
import Experimentation.Semantics.Flags

/-!
# States and their events

The state objects of `states.c`.  A state object is named by its address, and holds a hash table of
the events that it handles, its key and its flags.  Functions that events call are left abstract:
`A` is the type of their pointers.  Keys of events are copied and never change, so the table of a
state is keyed by their values.
-/

namespace Experimentation.StateMachine

open Semantics HashTable

/-- The address of a `state_t`. -/
abbrev StateId := ℕ

/-- `event_t`; absent pointers are `NULL`. -/
structure Event (A : Type) where
  evtDesc : List UInt8
  evtActionf : Option A
  evtNewstate : Option StateId
deriving DecidableEq, Repr

/-- `state_t`, with what `evttable` and `st_key` point to. -/
structure StateObj (A : Type) where
  evttable : HTable UInt32 (Event A)
  stKey : UInt32
  flag : FlagByte
deriving DecidableEq, Repr

inductive StRet
  | ok
  | existing
  | nomem
  | notfound
deriving DecidableEq, Repr

/-! ## Flags -/

def stateReachable : FlagByte := 1 <<< 0

namespace StateObj

variable {A : Type} (st : StateObj A)

def isReachable : Bool := FlagByte.test stateReachable st.flag

def markAsReachable : StateObj A := { st with flag := FlagByte.set stateReachable st.flag }

def markAsUnreachable : StateObj A := { st with flag := FlagByte.clear stateReachable st.flag }

@[simp]
theorem isReachable_markAsReachable : st.markAsReachable.isReachable = true :=
  FlagByte.test_set_self (by decide) st.flag

@[simp]
theorem isReachable_markAsUnreachable : st.markAsUnreachable.isReachable = false :=
  FlagByte.test_clear_self stateReachable st.flag

@[simp]
theorem markAsReachable_evttable : st.markAsReachable.evttable = st.evttable := rfl

@[simp]
theorem markAsReachable_stKey : st.markAsReachable.stKey = st.stKey := rfl

end StateObj

def uintHashf (key : UInt32) : ℕ := key.toNat

def uintCmpf (a b : UInt32) : ℤ := if a > b then -1 else if a = b then 0 else 1

theorem uintCmpf_eq_zero_iff {a b : UInt32} : uintCmpf a b = 0 ↔ a = b := by
  unfold uintCmpf
  constructor
  · intro h
    by_contra hne
    rw [if_neg hne] at h
    split at h
    · cases h
    · cases h
  · intro h
    subst h
    rw [if_neg (UInt32.lt_irrefl a), if_pos rfl]

def stateHashf : UInt32 → ℕ := uintHashf

def stateCmpf : UInt32 → UInt32 → ℤ := uintCmpf

/-- The callbacks of the event tables. -/
def stateCallbacks : LawfulCallbacks UInt32 where
  hashf := stateHashf
  cmpf := stateCmpf
  refl _ := uintCmpf_eq_zero_iff.2 rfl
  symm _ _ h := uintCmpf_eq_zero_iff.2 (uintCmpf_eq_zero_iff.1 h).symm
  trans _ _ _ h h' :=
    uintCmpf_eq_zero_iff.2 ((uintCmpf_eq_zero_iff.1 h).trans (uintCmpf_eq_zero_iff.1 h'))
  hash_eq _ _ h := congrArg uintHashf (uintCmpf_eq_zero_iff.1 h)

/-! ## State objects in memory -/

/-- The state objects that are allocated. -/
abbrev StateMem (A : Type) := StateId → Option (StateObj A)

variable {A : Type}

def loadState (mem : StateMem A) (s : StateId) : Exec (StateObj A) :=
  match mem s with
  | some st => .ok st
  | none => .error .badPointer

def storeState (mem : StateMem A) (s : StateId) (st : StateObj A) : StateMem A :=
  Function.update mem s (some st)

theorem loadState_eq {mem : StateMem A} {s : StateId} {st : StateObj A} (h : mem s = some st) :
    loadState mem s = .ok st := by
  rw [loadState, h]

theorem loadState_eq_ok {mem : StateMem A} {s : StateId} {st : StateObj A} :
    loadState mem s = .ok st ↔ mem s = some st := by
  unfold loadState
  cases mem s with
  | none => simp
  | some st' => simp

@[simp]
theorem storeState_self (mem : StateMem A) (s : StateId) (st : StateObj A) :
    storeState mem s st s = some st :=
  Function.update_self ..

theorem storeState_of_ne (mem : StateMem A) {s s' : StateId} (st : StateObj A) (h : s' ≠ s) :
    storeState mem s st s' = mem s' :=
  Function.update_of_ne h ..

/-- What holds of the new object and of those that were there holds of all. -/
theorem forall_storeState {mem : StateMem A} {s : StateId} {st : StateObj A}
    {P : StateId → StateObj A → Prop} (hself : P s st)
    (hother : ∀ s' st', mem s' = some st' → P s' st') {s' : StateId} {st' : StateObj A}
    (h : storeState mem s st s' = some st') : P s' st' := by
  by_cases heq : s' = s
  · subst heq
    rw [storeState_self, Option.some.injEq] at h
    exact h ▸ hself
  · rw [storeState_of_ne _ _ heq] at h
    exact hother s' st' h

/-- The outcomes of the allocations of `state_init`: the address of the state, if there is one, and
whether those of the event table, of its heads and of the key succeed. -/
structure StateMallocs where
  state : Option StateId
  evttable : Bool
  heads : Bool
  stKey : Bool

/-- `state_init`.  `key` and `flag` are what the memory of the new object holds. -/
def stateInit (mem : StateMem A) (mallocs : StateMallocs) (key : UInt32) (flag : FlagByte)
    (size factor : ℕ) : Exec (StRet × StateMem A) :=
  match mallocs.state with
  | none => return (.nomem, mem)
  | some s =>
      if !mallocs.evttable then
        return (.nomem, mem)
      else do
        match ← htableInit mallocs.heads size factor with
        | (_, none) => return (.nomem, mem)
        | (_, some evttable) =>
            if !mallocs.stKey then
              return (.nomem, mem)
            else
              let st : StateObj A := ⟨evttable, key, flag⟩
              return (.ok, storeState mem s st.markAsUnreachable)

def maxEvtDesc : ℕ := 64

/-- `strncpy`: the bytes of a string, cut or filled with NUL bytes to length `n`. -/
def strncpy (src : List UInt8) (n : ℕ) : List UInt8 := (src ++ List.replicate n 0).take n

/-- The outcomes of the allocations of `state_add_evt`. -/
structure EventMallocs where
  key : Bool
  event : Bool
  insert : InsertMallocs

def stateAddEvt (mem : StateMem A) (mallocs : EventMallocs) (pstate : StateId) (key : UInt32)
    (pdesc : List UInt8) (pactionf : Option A) (pnewstate : Option StateId) :
    Exec (StRet × StateMem A) :=
  if !mallocs.key then
    return (.nomem, mem)
  else if !mallocs.event then
    return (.nomem, mem)
  else do
    let pevt : Event A := ⟨strncpy pdesc maxEvtDesc, pactionf, pnewstate⟩
    let st ← loadState mem pstate
    let (r, evttable) ← htableInsert stateCallbacks mallocs.insert st.evttable key (some pevt)
    let mem := storeState mem pstate { st with evttable := evttable }
    if r = .existing then
      return (.existing, mem)
    else
      return (.ok, mem)

def stateRemEvt (mem : StateMem A) (pstate : StateId) (key : UInt32) :
    Exec (StRet × StateMem A) := do
  let st ← loadState mem pstate
  let (r, evttable, _) ← htableFreeObj stateCallbacks st.evttable key (htFreekey ||| htFreedata)
  let mem := storeState mem pstate { st with evttable := evttable }
  if r = .notfound then
    return (.notfound, mem)
  else
    return (.ok, mem)

def stateGetKey (mem : StateMem A) (pstate : StateId) : Exec UInt32 := do
  let st ← loadState mem pstate
  return st.stKey

end Experimentation.StateMachine
