import Experimentation.Semantics.Streams
import Experimentation.StateMachine.Memory
import Experimentation.StateMachine.Simulation

/-!
# A program that removes comments

The program of `test_rmcom.c`.  It reads a file with `fgets` into a buffer of 256 bytes, generates
an event for what the pointer `p` is at, and lets a machine process it; the action of the event that
stands for a character outside of comments prints what the data of the event points to.

The event is generated by an argument of the call that processes it, and another argument is `p`,
which the generator advances.  C does not say which of the two is evaluated first, so the order is a
parameter.  Allocations and reads succeed.
-/

namespace Experimentation.StateMachine.CommentRemoval

open Semantics HashTable

/-! ## The machine -/

def evtNoStartComment : UInt32 := 1

def evtNoEndComment : UInt32 := 2

def evtStartComment : UInt32 := 3

def evtEndComment : UInt32 := 4

def stNoComment : UInt32 := 1

def stComment : UInt32 := 2

/-- The functions that events call. -/
inductive Action
  | printChar
deriving DecidableEq, Repr

/-- A machine whose history is the calls of `print_char`, each with the byte that its argument
points to. -/
abbrev Printer := World Action UInt8

/-- The calls that construct the states, the transitions and the table of states, and set the
initial state.  The states are at the addresses 0 and 1. -/
def calls : List (Call Action UInt8) :=
  [.stateInit ⟨some 0, true, true, true⟩ 0 0 (2 <<< 5) 2,
    .stateInit ⟨some 1, true, true, true⟩ 0 0 (2 <<< 5) 2,
    .stateAddEvt ⟨true, true, ⟨true, true⟩⟩ 0 evtNoStartComment [] (some .printChar) (some 0),
    .stateAddEvt ⟨true, true, ⟨true, true⟩⟩ 0 evtStartComment [] none (some 1),
    .stateAddEvt ⟨true, true, ⟨true, true⟩⟩ 1 evtNoEndComment [] none (some 1),
    .stateAddEvt ⟨true, true, ⟨true, true⟩⟩ 1 evtEndComment [] none (some 0),
    .addState ⟨true, true⟩ stNoComment 0,
    .addState ⟨true, true⟩ stComment 1,
    .setState stNoComment]

/-- The machine before the file is read.  All calls succeed (`performAll_calls`), so what the
program does when one of them fails is left out. -/
def setUp : Exec Printer := do
  match ← fsmInit ⟨true, true, true, true, true⟩ (2 <<< 8) 5 0 with
  | (_, none) => throw .badPointer
  | (_, some fsm) =>
      let (_, w) ← performAll (start Action fsm) calls
      return w

def slash : UInt8 := 47

def star : UInt8 := 42

def newline : UInt8 := 10

/-- The byte at an offset in the buffer. -/
def byteAt (buf : Text) (p : ℕ) : Exec UInt8 :=
  match buf[p]? with
  | some c => .ok c
  | none => .error .outOfBounds

/-- `**p == a && (*p)[1] == b`. -/
def looksAt (buf : Text) (p : ℕ) (a b : UInt8) : Exec Bool := do
  if (← byteAt buf p) = a then
    return (← byteAt buf (p + 1)) = b
  else
    return false

/-- `get_evt_key`: the key of the event, and the offset that `*p` is advanced to. -/
def getEvtKey (w : Printer) (buf : Text) (p : ℕ) : Exec (UInt32 × ℕ) := do
  let stkey ← fsmGetCurrentState w
  if stkey = stNoComment then
    if ← looksAt buf p slash star then
      return (evtStartComment, p + 2)
    else
      return (evtNoStartComment, p + 1)
  else if stkey = stComment then
    if ← looksAt buf p star slash then
      return (evtEndComment, p + 2)
    else
      return (evtNoEndComment, p + 1)
  else
    return (0 - 1, p + 1)

/-! ## The program -/

/-- Which of the arguments `get_evt_key(fsm, &p)` and `p` is evaluated first. -/
inductive ArgOrder
  | keyFirst
  | dataFirst
deriving DecidableEq, Repr

/-- The value of the argument `p`, which is advanced from `p` to `next` by the other argument. -/
def ArgOrder.dataPtr : ArgOrder → (p next : ℕ) → ℕ
  | .keyFirst, _, next => next
  | .dataFirst, p, _ => p

/-- The call of `fsm_process_event` in `main`, with the offset of `p` after it. -/
def parseChar (order : ArgOrder) (w : Printer) (buf : Text) (p : ℕ) : Exec (Printer × ℕ) := do
  let (evtkey, next) ← getEvtKey w buf p
  let data ← byteAt buf (order.dataPtr p next)
  let (_, w) ← fsmProcessEvent leaveAlone w evtkey data
  return (w, next)

/-- The loop of `main` over the buffer. -/
def parseBuf (order : ArgOrder) : (turns : ℕ) → Printer → Text → ℕ → Exec Printer
  | 0, _, _, _ => throw .outOfFuel
  | turns + 1, w, buf, p => do
      if (← byteAt buf p) = 0 then
        return w
      else
        let (w, p) ← parseChar order w buf p
        parseBuf order turns w buf p

def bufSize : ℕ := 256

/-- What is left to read of a file, and its end-of-file indicator. -/
structure InFile where
  rest : Text
  eof : Bool

/-- Read at most `n` characters, up to the end of the line: those that were read, those that are
left, and whether it was tried to read more than there are. -/
def readLine : ℕ → Text → Text × Text × Bool
  | 0, rest => ([], rest, false)
  | _ + 1, [] => ([], [], true)
  | n + 1, c :: rest =>
      if c = newline then ([c], rest, false)
      else
        let read := readLine n rest
        (c :: read.1, read.2)

def fgets (size : ℕ) (fp : InFile) : Option Text × InFile :=
  let (line, rest, atEnd) := readLine (size - 1) fp.rest
  (if line = [] then none else some line, ⟨rest, fp.eof || atEnd⟩)

/-- The buffer after `memset` and `fgets`. -/
def filledBuf (line : Option Text) : Text :=
  line.getD [] ++ List.replicate (bufSize - (line.getD []).length) 0

/-- The loop of `main` over the file. -/
def parseFile (order : ArgOrder) : (turns : ℕ) → Printer → InFile → Exec Printer
  | 0, _, _ => throw .outOfFuel
  | turns + 1, w, fp =>
      if fp.eof then
        return w
      else
        let (line, fp) := fgets bufSize fp
        if line = none ∧ fp.eof = false then
          return w
        else do
          let w ← parseBuf order bufSize w (filledBuf line) 0
          parseFile order turns w fp

/-- The characters that `test_rmcom` prints for a file. -/
def testRmcom (order : ArgOrder) (content : Text) : Exec Text := do
  let w ← setUp
  let w ← parseFile order (content.length + 2) w ⟨content, false⟩
  return w.trace.map Prod.snd

/-! ## The machine at work -/

/-- The address of the state that the machine is in. -/
def stateAt (inside : Bool) : StateId := if inside then 1 else 0

/-- The transitions of a state. -/
def eventsOf : Bool → UInt32 → Option (Transition Action)
  | false => Function.update (Function.update (fun _ ↦ none) evtNoStartComment
      (some ⟨some .printChar, some 0⟩)) evtStartComment (some ⟨none, some 1⟩)
  | true => Function.update (Function.update (fun _ ↦ none) evtNoEndComment
      (some ⟨none, some 1⟩)) evtEndComment (some ⟨none, some 0⟩)

/-- The automaton that the calls construct, outside or inside of a comment. -/
structure Recognizes (a : Automaton Action) (inside : Bool) : Prop where
  stateOf : a.stateOf =
    Function.update (Function.update (fun _ ↦ none) stNoComment (some 0)) stComment (some 1)
  events : ∀ inside, a.events (stateAt inside) = eventsOf inside
  current : a.current = some (stateAt inside)

/-- The key of the event that is generated. -/
def eventKey (inside turns : Bool) : UInt32 :=
  if inside then if turns then evtEndComment else evtNoEndComment
  else if turns then evtStartComment else evtNoStartComment

theorem eventsOf_eventKey (inside turns : Bool) : eventsOf inside (eventKey inside turns) =
    some ⟨if inside || turns then none else some .printChar, some (stateAt (inside ^^ turns))⟩ := by
  cases inside <;> cases turns <;> rfl

namespace Recognizes

variable {a : Automaton Action} {inside : Bool} (h : Recognizes a inside)
include h

theorem stateOf_eq_some_iff {key : UInt32} {s : StateId} : a.stateOf key = some s ↔
    key = stNoComment ∧ s = 0 ∨ key = stComment ∧ s = 1 := by
  have hne : stNoComment ≠ stComment := by decide
  rw [h.stateOf, Function.update_apply, Function.update_apply]
  grind

theorem targetsRegistered : a.TargetsRegistered := by
  intro key s hkey e tr htr
  have hs : ∃ inside, s = stateAt inside := by
    rcases h.stateOf_eq_some_iff.1 hkey with ⟨_, hs⟩ | ⟨_, hs⟩
    · exact ⟨false, hs⟩
    · exact ⟨true, hs⟩
  obtain ⟨inside, rfl⟩ := hs
  have htarget : tr.target = some 0 ∨ tr.target = some 1 := by
    rw [h.events] at htr
    cases inside with
    | false =>
        rw [eventsOf, Function.update_apply, Function.update_apply] at htr
        grind
    | true =>
        rw [eventsOf, Function.update_apply, Function.update_apply] at htr
        grind
  rcases htarget with htarget | htarget
  · exact ⟨0, stNoComment, htarget, h.stateOf_eq_some_iff.2 (.inl ⟨rfl, rfl⟩)⟩
  · exact ⟨1, stComment, htarget, h.stateOf_eq_some_iff.2 (.inr ⟨rfl, rfl⟩)⟩

end Recognizes

/-- The machine runs, and is outside or inside of a comment. -/
def Runs (w : Printer) (inside : Bool) : Prop := ∃ a, Simulates w a ∧ Recognizes a inside

namespace Runs

variable {w : Printer} {inside : Bool} (h : Runs w inside)
include h

theorem fsmGetCurrentState_eq :
    fsmGetCurrentState w = .ok (if inside then stComment else stNoComment) := by
  obtain ⟨a, hsim, hrec⟩ := h
  obtain ⟨key, hcall, hkey⟩ := hsim.getCurrentState hrec.current
  rw [hcall, ← (hkey _).1 (hrec.stateOf_eq_some_iff.2 ?_)]
  cases inside with
  | false => exact .inl ⟨rfl, rfl⟩
  | true => exact .inr ⟨rfl, rfl⟩

theorem fsmProcessEvent_eq (turns : Bool) (data : UInt8) :
    ∃ w', fsmProcessEvent leaveAlone w (eventKey inside turns) data = .ok (.ok, w') ∧
      Runs w' (inside ^^ turns) ∧
      w'.trace = w.trace ++ if inside || turns then [] else [(.printChar, data)] := by
  obtain ⟨a, hsim, hrec⟩ := h
  have hcurrent : a.current ≠ none := by
    rw [hrec.current]
    exact Option.some_ne_none _
  obtain ⟨w', hperform, hsim', htrace⟩ :=
    hsim.processEvent hcurrent hrec.targetsRegistered (eventKey inside turns) data
  have hstep : a.step (.processEvent (eventKey inside turns) data) =
      (.fsm .ok, { a with current := some (stateAt (inside ^^ turns)) },
        if inside || turns then [] else [(.printChar, data)]) := by
    rw [Automaton.step, hrec.current, Option.bind_some, hrec.events, eventsOf_eventKey]
    cases inside || turns with
    | false => rfl
    | true => rfl
  rw [hstep] at hperform hsim' htrace
  obtain ⟨⟨r, w₁⟩, hcall, hret⟩ := Exec.bind_eq_ok.1 hperform
  cases hret
  exact ⟨w', hcall, ⟨_, hsim', hrec.stateOf, hrec.events, rfl⟩, htrace⟩

end Runs

theorem recognizes_calls : Recognizes (Automaton.empty.run calls).2.1 false where
  stateOf := rfl
  events inside := by
    cases inside with
    | false => rfl
    | true => rfl
  current := rfl

theorem insertFits_of_first {cb : Callbacks KeyRef} {mallocs : InsertMallocs} {key : KeyRef}
    {data : Option StateId} {r : HtRet} {t : HTable KeyRef StateId}
    (hinsert : htableInsert cb mallocs (emptyTable (2 ^ 9) 5) key data = .ok (r, t))
    (malloc : Bool) : t.InsertFits malloc := by
  have hsound : (emptyTable (2 ^ 9) 5 : HTable KeyRef StateId).Sound :=
    emptyTable_sound (by decide) (by decide)
  have hlimit : ¬ (emptyTable (2 ^ 9) 5 : HTable KeyRef StateId).htLimit <
      wrapSize ((emptyTable (2 ^ 9) 5 : HTable KeyRef StateId).htUsed + 1) := by decide
  have hsize : t.htSize = 2 ^ 9 := by
    rcases hsound.htableInsert_inv hinsert with ⟨_, rfl, _⟩ | ⟨_, ⟨_, rfl⟩ | ⟨_, rfl, _⟩⟩
    · rfl
    · rfl
    · rw [HTable.inserted, if_neg hlimit]
      rfl
  intro _ _
  rw [HTable.GrowthFits, hsize]
  decide

theorem calls_proper {fsm : Fsm UInt8} (hfsm : fsm.sttable = emptyTable (2 ^ 9) 5) :
    Proper (start Action fsm) .empty calls := by
  have hsize : 2 <<< 5 * sizeofHhead < sizeModulus := by decide
  have hfresh : ∀ key, Function.update (fun _ ↦ none) stNoComment (some 0) key ≠ some 1 := by
    intro key
    rw [Function.update_apply]
    split
    · decide
    · decide
  refine ⟨⟨⟨0, rfl, rfl⟩, rfl, rfl, rfl, 6, rfl⟩, hsize, ?_⟩
  refine ⟨⟨⟨1, rfl, rfl⟩, rfl, rfl, rfl, 6, rfl⟩, hsize, ?_⟩
  refine ⟨⟨Option.some_ne_none _, rfl, rfl, rfl, rfl⟩, fun st hst ↦ ?_, ?_⟩
  · cases hst
    exact fun _ _ _ _ ↦ by decide
  refine ⟨⟨Option.some_ne_none _, rfl, rfl, rfl, rfl⟩, fun st hst ↦ ?_, ?_⟩
  · cases hst
    exact fun _ _ _ _ ↦ by decide
  refine ⟨⟨Option.some_ne_none _, rfl, rfl, rfl, rfl⟩, fun st hst ↦ ?_, ?_⟩
  · cases hst
    exact fun _ _ _ _ ↦ by decide
  refine ⟨⟨Option.some_ne_none _, rfl, rfl, rfl, rfl⟩, fun st hst ↦ ?_, ?_⟩
  · cases hst
    exact fun _ _ _ _ ↦ by decide
  refine Proper.cons ⟨Option.some_ne_none _, rfl, fun _ hk ↦ Option.some_ne_none _ hk.symm, rfl, rfl⟩
    (fun st hst _ _ ↦ ?_) fun r w hfirst ↦ ?_
  · change fsm.sttable.InsertFits _
    rw [hfsm]
    exact fun _ _ ↦ by decide
  refine Proper.cons ⟨Option.some_ne_none _, rfl, hfresh, rfl, rfl⟩ (fun st hst _ _ ↦ ?_)
    fun r w' _ ↦ ?_
  · obtain ⟨⟨ret, w₁⟩, hcall, hret⟩ := Exec.bind_eq_ok.1 hfirst
    cases hret
    obtain ⟨_, _, t, _, hinsert, rfl, _⟩ := fsmAddState_inv hcall
    change htableInsert _ _ fsm.sttable _ _ = _ at hinsert
    rw [hfsm] at hinsert
    exact insertFits_of_first hinsert _
  exact Proper.cons recognizes_calls.targetsRegistered trivial fun _ _ _ ↦ trivial

theorem performAll_calls : ∃ w : Printer,
    performAll (start Action ⟨emptyTable (2 ^ 9) 5, none, 0, []⟩) calls = .ok
      ([.st .ok, .st .ok, .st .ok, .st .ok, .st .ok, .st .ok, .fsm .ok, .fsm .ok, .fsm .ok], w) ∧
    Runs w false ∧ w.trace = [] := by
  have hinit : fsmInit ⟨true, true, true, true, true⟩ (2 ^ 9) 5 0 =
      .ok (.ok, some (⟨emptyTable (2 ^ 9) 5, none, 0, []⟩ : Fsm UInt8)) := rfl
  obtain ⟨w, hrun, hsim, htrace⟩ := (simulates_of_fsmInit hinit).run (calls_proper rfl)
  exact ⟨w, hrun, ⟨_, hsim, recognizes_calls⟩, htrace⟩

theorem exists_setUp : ∃ w, setUp = .ok w ∧ Runs w false ∧ w.trace = [] := by
  obtain ⟨w, hrun, hruns, htrace⟩ := performAll_calls
  have hinit : fsmInit ⟨true, true, true, true, true⟩ (2 <<< 8) 5 0 =
      .ok (.ok, some (⟨emptyTable (2 ^ 9) 5, none, 0, []⟩ : Fsm UInt8)) := rfl
  refine ⟨w, ?_, hruns, htrace⟩
  rw [setUp, hinit, Exec.ok_bind]
  dsimp only
  rw [hrun]
  rfl

end Experimentation.StateMachine.CommentRemoval
