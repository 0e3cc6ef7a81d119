import Experimentation.HashTable.Run
import Experimentation.StateMachine.Machine

/-!
# The automaton of a state machine

What a state machine is for: states that are registered under keys, a table of transitions for each
state, and a current state that events move along the transitions.  Tables have no sizes, factors or
collisions here, and nothing is said about flags or about the order in which things were added.

A client builds and runs a machine by calls in any order.  The calls that are allowed register every
state object once and under a new key, and see to it that the transitions of the registered states
lead to registered states before the machine is run.
-/

namespace Experimentation.StateMachine

open Semantics HashTable

variable {A D : Type}

/-- A call of a client, with the outcomes of the allocations that it makes. -/
inductive Call (A D : Type)
  | stateInit (mallocs : StateMallocs) (key : UInt32) (flag : FlagByte) (size factor : ℕ)
  | stateAddEvt (mallocs : EventMallocs) (pstate : StateId) (key : UInt32) (pdesc : List UInt8)
      (pactionf : Option A) (pnewstate : Option StateId)
  | stateRemEvt (pstate : StateId) (key : UInt32)
  | addState (mallocs : InsertMallocs) (key : UInt32) (pstate : StateId)
  | setState (stkey : UInt32)
  | processEvent (evtkey : UInt32) (data : D)

inductive Ret
  | st (r : StRet)
  | fsm (r : FsmRet)
deriving DecidableEq, Repr

/-- The actions of events when no action calls into the machine. -/
def leaveAlone : A → D → World A D → Exec (World A D) := fun _ _ w ↦ return w

theorem callAction_leaveAlone (evtActionf : Option A) (data : D) (w : World A D) :
    callAction leaveAlone evtActionf data w =
      .ok { w with trace := w.trace ++ (evtActionf.map fun f ↦ (f, data)).toList } := by
  cases evtActionf with
  | none =>
      rw [Option.map_none, Option.toList_none, List.append_nil]
      rfl
  | some f => rfl

def perform (w : World A D) : Call A D → Exec (Ret × World A D)
  | .stateInit mallocs key flag size factor => do
      let (r, states) ← stateInit w.states mallocs key flag size factor
      return (.st r, { w with states := states })
  | .stateAddEvt mallocs pstate key pdesc pactionf pnewstate => do
      let (r, states) ← stateAddEvt w.states mallocs pstate key pdesc pactionf pnewstate
      return (.st r, { w with states := states })
  | .stateRemEvt pstate key => do
      let (r, states) ← stateRemEvt w.states pstate key
      return (.st r, { w with states := states })
  | .addState mallocs key pstate => do
      let (r, w) ← fsmAddState mallocs w key pstate
      return (.fsm r, w)
  | .setState stkey => do
      let (r, w) ← fsmSetState w stkey
      return (.fsm r, w)
  | .processEvent evtkey data => do
      let (r, w) ← fsmProcessEvent leaveAlone w evtkey data
      return (.fsm r, w)

/-- The calls of a list in turn, with what they return. -/
def performAll : World A D → List (Call A D) → Exec (List Ret × World A D)
  | w, [] => return ([], w)
  | w, c :: cs => do
      let (r, w) ← perform w c
      let (rs, w) ← performAll w cs
      return (r :: rs, w)

theorem performAll_cons {w w₁ w' : World A D} {c : Call A D} {cs : List (Call A D)} {r : Ret}
    {rs : List Ret} (hcall : perform w c = .ok (r, w₁)) (hrest : performAll w₁ cs = .ok (rs, w')) :
    performAll w (c :: cs) = .ok (r :: rs, w') := by
  rw [performAll, hcall, Exec.ok_bind]
  change (performAll w₁ cs >>= fun p ↦ .ok (r :: p.1, p.2)) = _
  rw [hrest, Exec.ok_bind]

/-- A machine that `fsm_init` returned, before there are any state objects. -/
def start (A : Type) (fsm : Fsm D) : World A D := ⟨fun _ ↦ none, fsm, []⟩

theorem fsmInit_ok {mallocs : FsmMallocs} {size factor : ℕ} {nqueues : UInt32} {fsm : Fsm D}
    (hinit : fsmInit mallocs size factor nqueues = .ok (.ok, some fsm)) :
    size * sizeofHhead < sizeModulus ∧ fsm = ⟨emptyTable size factor, none, nqueues,
      List.replicate nqueues.toNat []⟩ := by
  unfold fsmInit at hinit
  split at hinit
  · cases hinit
  · obtain ⟨r, htable, hrest⟩ := Exec.bind_eq_ok.1 hinit
    obtain ⟨ret, sttable⟩ := r
    cases sttable with
    | none => cases hrest
    | some sttable =>
        obtain ⟨hfits, heq⟩ := htableInit_some htable
        cases hrest
        exact ⟨hfits, by rw [heq]⟩

/-! ## The automaton -/

/-- The function that a transition calls and the state that it leads to. -/
structure Transition (A : Type) where
  action : Option A
  target : Option StateId

/-- The states that are registered under a key, the transitions of each state object, and the
current state. -/
structure Automaton (A : Type) where
  stateOf : UInt32 → Option StateId
  table : StateId → Option (UInt32 → Option (Transition A))
  current : Option StateId

namespace Automaton

/-- Nothing is registered, and there are no state objects. -/
def empty : Automaton A := ⟨fun _ ↦ none, fun _ ↦ none, none⟩

variable (a : Automaton A)

/-- The partial transition function of a state. -/
def events (s : StateId) : UInt32 → Option (Transition A) := (a.table s).getD fun _ ↦ none

/-- The automaton with another transition function for a state. -/
def setEvents (s : StateId) (δ : UInt32 → Option (Transition A)) : Automaton A :=
  { a with table := Function.update a.table s (some δ) }

@[simp]
theorem events_setEvents_self (s : StateId) (δ : UInt32 → Option (Transition A)) :
    (a.setEvents s δ).events s = δ := by
  simp [events, setEvents]

theorem events_setEvents_of_ne {s s' : StateId} (δ : UInt32 → Option (Transition A))
    (h : s' ≠ s) : (a.setEvents s δ).events s' = a.events s' := by
  simp [events, setEvents, h]

theorem setEvents_events {s : StateId} (h : a.table s ≠ none) : a.setEvents s (a.events s) = a := by
  obtain ⟨δ, hδ⟩ := Option.ne_none_iff_exists'.1 h
  rw [setEvents, events, hδ, Option.getD_some, ← hδ, Function.update_eq_self]

theorem setEvents_table_eq_none_iff {s s' : StateId} (δ : UInt32 → Option (Transition A)) :
    (a.setEvents s δ).table s' = none ↔ s' ≠ s ∧ a.table s' = none := by
  rw [setEvents]
  by_cases h : s' = s
  · simp [h]
  · simp [h]

/-- What a call returns, what it does to the automaton, and the action that it executes with its
data. -/
def step : Call A D → Ret × Automaton A × List (A × D)
  | .stateInit mallocs _ _ _ _ =>
      match mallocs.state with
      | none => (.st .nomem, a, [])
      | some s => (.st .ok, a.setEvents s fun _ ↦ none, [])
  | .stateAddEvt _ s key _ pactionf pnewstate =>
      if a.events s key = none then
        (.st .ok, a.setEvents s (Function.update (a.events s) key (some ⟨pactionf, pnewstate⟩)), [])
      else (.st .existing, a, [])
  | .stateRemEvt s key =>
      if a.events s key = none then (.st .notfound, a, [])
      else (.st .ok, a.setEvents s (Function.update (a.events s) key none), [])
  | .addState _ key s =>
      if a.stateOf key = none then
        (.fsm .ok, { a with stateOf := Function.update a.stateOf key (some s) }, [])
      else (.fsm .eexists, a, [])
  | .setState key =>
      match a.stateOf key with
      | none => (.fsm .enotfound, a, [])
      | some s => (.fsm .ok, { a with current := some s }, [])
  | .processEvent evtkey data =>
      match a.current.bind fun s ↦ a.events s evtkey with
      | none => (.fsm .enotfound, a, [])
      | some tr =>
          (.fsm .ok, { a with current := tr.target }, (tr.action.map fun f ↦ (f, data)).toList)

/-- The calls of a list in turn. -/
def run (a : Automaton A) : List (Call A D) → List Ret × Automaton A × List (A × D)
  | [] => ([], a, [])
  | c :: cs =>
      let first := a.step c
      let rest := first.2.1.run cs
      (first.1 :: rest.1, rest.2.1, first.2.2 ++ rest.2.2)

/-- The transitions of registered states lead to registered states. -/
def TargetsRegistered : Prop := ∀ k s, a.stateOf k = some s → ∀ e tr, a.events s e = some tr →
  ∃ t k', tr.target = some t ∧ a.stateOf k' = some t

end Automaton

/-! ## Proper runs -/

/-- What a client sees to before a call: allocations succeed, new objects are new, tables have a
size that is a power of two, state objects are registered once and under a new key, and the machine
is set and run only when all transitions lead to registered states. -/
def Call.Allowed (a : Automaton A) : Call A D → Prop
  | .stateInit mallocs _ _ size _ =>
      (∃ s, mallocs.state = some s ∧ a.table s = none) ∧ mallocs.evttable = true ∧
        mallocs.heads = true ∧ mallocs.stKey = true ∧ ∃ k, size = 2 ^ k
  | .stateAddEvt mallocs s _ _ _ _ =>
      a.table s ≠ none ∧ mallocs.key = true ∧ mallocs.event = true ∧ mallocs.insert.node = true ∧
        mallocs.insert.heads = true
  | .stateRemEvt s _ => a.table s ≠ none
  | .addState mallocs key s =>
      a.table s ≠ none ∧ a.stateOf key = none ∧ (∀ k, a.stateOf k ≠ some s) ∧
        mallocs.node = true ∧ mallocs.heads = true
  | .setState _ => a.TargetsRegistered
  | .processEvent _ _ => a.current ≠ none ∧ a.TargetsRegistered

/-- The heads that a call allocates fit in the memory that it requests for them. -/
def Call.Fits (w : World A D) : Call A D → Prop
  | .stateInit _ _ _ size _ => size * sizeofHhead < sizeModulus
  | .stateAddEvt mallocs s key pdesc pactionf pnewstate => ∀ st, w.states s = some st →
      (Op.insert key (some (⟨strncpy pdesc maxEvtDesc, pactionf, pnewstate⟩ : Event A))
        mallocs.insert).Fits stateCallbacks st.evttable
  | .addState mallocs key s => ∀ st, w.states s = some st →
      (Op.insert (.stKey s) (some s) mallocs).Fits
        (fsmCallbacks (storeState w.states s { st with stKey := key })) w.fsm.sttable
  | .stateRemEvt _ _ | .setState _ | .processEvent _ _ => True

/-- Every call of the run is allowed, and no computation of a size wraps. -/
def Proper : World A D → Automaton A → List (Call A D) → Prop
  | _, _, [] => True
  | w, a, c :: cs => c.Allowed a ∧ c.Fits w ∧
      match perform w c with
      | .ok (_, w) => Proper w (a.step c).2.1 cs
      | .error _ => True

/-- The rest of a run can be looked at from any outcome of its first call. -/
theorem Proper.cons {w : World A D} {a : Automaton A} {c : Call A D} {cs : List (Call A D)}
    (hallow : c.Allowed a) (hfits : c.Fits w)
    (hrest : ∀ r w', perform w c = .ok (r, w') → Proper w' (a.step c).2.1 cs) :
    Proper w a (c :: cs) := by
  refine ⟨hallow, hfits, ?_⟩
  cases hcall : perform w c with
  | error fault => trivial
  | ok result => exact hrest result.1 result.2 hcall

end Experimentation.StateMachine
