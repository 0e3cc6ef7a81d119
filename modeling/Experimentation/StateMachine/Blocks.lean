import Experimentation.HashTable.Blocks
import Experimentation.StateMachine.Memory
import Experimentation.StateMachine.Queue
import Mathlib.Algebra.BigOperators.Group.Finset.Basic

/-!
# The blocks of a state machine

The functions of `fsm.c` and `states.c` that allocate or free, with the number of blocks counted.
Their error paths do not free all that they allocated: `fsm_init` forgets the queues or the mutex,
and `state_init` the heads of the event table.  `state_add_evt` takes an event for stored that the
table got no memory for.
-/

namespace Experimentation.StateMachine

open Semantics HashTable

variable {A D : Type}

/-! ## Building a machine -/

def fsmInitMetered (mallocs : FsmMallocs) (size factor : ℕ) (nqueues : UInt32) :
    Metered (FsmRet × Option (Fsm D)) := do
  if !(← Metered.malloc mallocs.fsm) then
    return (.enomem, none)
  else if !(← Metered.malloc mallocs.sttable) then
    Metered.free
    return (.enomem, none)
  else if !(← Metered.malloc mallocs.pqtable) then
    Metered.free
    Metered.free
    return (.enomem, none)
  else if !(← Metered.malloc mallocs.mobj) then
    -- the first pointer that is freed is `mobj`, which is `NULL` here
    Metered.freePtr (none : Option Unit)
    Metered.free
    Metered.free
    return (.enomem, none)
  else
    match ← htableInitMetered mallocs.heads size factor with
    | (_, none) =>
        Metered.free
        Metered.free
        Metered.free
        return (.enomem, none)
    | (_, some sttable) =>
        return (.ok, some
          { sttable := sttable, cstate := none, nqueues := nqueues,
            pqtable := List.replicate nqueues.toNat [] })

def stateInitMetered (mem : StateMem A) (mallocs : StateMallocs) (key : UInt32) (flag : FlagByte)
    (size factor : ℕ) : Metered (StRet × StateMem A) := do
  let _ ← Metered.malloc mallocs.state.isSome
  match mallocs.state with
  | none => return (.nomem, mem)
  | some s =>
      if !(← Metered.malloc mallocs.evttable) then
        Metered.free
        return (.nomem, mem)
      else
        match ← htableInitMetered mallocs.heads size factor with
        | (_, none) =>
            Metered.free
            Metered.free
            return (.nomem, mem)
        | (_, some evttable) =>
            if !(← Metered.malloc mallocs.stKey) then
              Metered.free
              Metered.free
              return (.nomem, mem)
            else
              let st : StateObj A := ⟨evttable, key, flag⟩
              return (.ok, storeState mem s st.markAsUnreachable)

def stateAddEvtMetered (mem : StateMem A) (mallocs : EventMallocs) (pstate : StateId) (key : UInt32)
    (pdesc : List UInt8) (pactionf : Option A) (pnewstate : Option StateId) :
    Metered (StRet × StateMem A) := do
  if !(← Metered.malloc mallocs.key) then
    return (.nomem, mem)
  else if !(← Metered.malloc mallocs.event) then
    Metered.free
    return (.nomem, mem)
  else
    let pevt : Event A := ⟨strncpy pdesc maxEvtDesc, pactionf, pnewstate⟩
    let st ← loadState mem pstate
    let (r, evttable) ←
      htableInsertMetered stateCallbacks mallocs.insert st.evttable key (some pevt)
    let mem := storeState mem pstate { st with evttable := evttable }
    if r = .existing then
      Metered.free
      Metered.free
      return (.existing, mem)
    else
      return (.ok, mem)

def stateRemEvtMetered (mem : StateMem A) (pstate : StateId) (key : UInt32) :
    Metered (StRet × StateMem A) := do
  let st ← loadState mem pstate
  let (r, evttable, _) ←
    htableFreeObjMetered stateCallbacks st.evttable key (htFreekey ||| htFreedata)
  let mem := storeState mem pstate { st with evttable := evttable }
  if r = .notfound then
    return (.notfound, mem)
  else
    return (.ok, mem)

def fsmAddStateMetered (mallocs : InsertMallocs) (w : World A D) (key : UInt32) (pstate : StateId) :
    Metered (FsmRet × World A D) := do
  let st ← loadState w.states pstate
  let states := storeState w.states pstate { st with stKey := key }
  let (r, sttable) ←
    htableInsertMetered (fsmCallbacks states) mallocs w.fsm.sttable (.stKey pstate) (some pstate)
  let w := { w with states := states, fsm := { w.fsm with sttable := sttable } }
  if r = .existing then
    return (.eexists, w)
  else
    return (.ok, w)

/-- The blocks that `fsm_init` leaves behind when it fails. -/
def FsmMallocs.leaks (m : FsmMallocs) : ℕ :=
  if m.fsm && m.sttable && m.pqtable && !(m.mobj && m.heads) then 1 else 0

/-- The blocks that `state_init` leaves behind when it fails. -/
def StateMallocs.leaks (m : StateMallocs) : ℕ :=
  if m.state.isSome && m.evttable && m.heads && !m.stKey then 1 else 0

theorem fsmInitMetered_gains (mallocs : FsmMallocs) (size factor : ℕ) (nqueues : UInt32) :
    Gains (fsmInitMetered (D := D) mallocs size factor nqueues)
      (fsmInit mallocs size factor nqueues)
      fun r ↦ if r.2.isSome then 5 else mallocs.leaks := by
  obtain ⟨fsm, sttable, pqtable, mobj, heads⟩ := mallocs
  apply Gains.malloc_bind
  cases fsm with
  | false => exact .pure rfl
  | true =>
      apply Gains.malloc_bind
      cases sttable with
      | false => exact .free_bind (.pure rfl)
      | true =>
          apply Gains.malloc_bind
          cases pqtable with
          | false => exact .free_bind (.free_bind (.pure rfl))
          | true =>
              apply Gains.malloc_bind
              cases mobj with
              | false => exact .freePtr_bind (.free_bind (.free_bind (.pure rfl)))
              | true =>
                  apply (htableInitMetered_gains heads size factor).bind
                  intro r hr
                  obtain ⟨ret, _ | sttable⟩ := r
                  · cases heads with
                    | false => exact .free_bind (.free_bind (.free_bind (.pure rfl)))
                    | true =>
                        obtain ⟨_, _, heq⟩ := Exec.bind_eq_ok.1 hr
                        cases heq
                  · exact .pure rfl

theorem stateInitMetered_gains (mem : StateMem A) (mallocs : StateMallocs) (key : UInt32)
    (flag : FlagByte) (size factor : ℕ) :
    Gains (stateInitMetered mem mallocs key flag size factor)
      (stateInit mem mallocs key flag size factor)
      fun r ↦ if r.1 = .ok then 4 else mallocs.leaks := by
  obtain ⟨state, evttable, heads, stKey⟩ := mallocs
  apply Gains.malloc_bind
  cases state with
  | none => exact .pure rfl
  | some s =>
      apply Gains.malloc_bind
      cases evttable with
      | false => exact .free_bind (.pure rfl)
      | true =>
          apply (htableInitMetered_gains heads size factor).bind
          intro r hr
          obtain ⟨ret, _ | evttable⟩ := r
          · cases heads with
            | false => exact .free_bind (.free_bind (.pure rfl))
            | true =>
                obtain ⟨_, _, heq⟩ := Exec.bind_eq_ok.1 hr
                cases heq
          · apply Gains.malloc_bind
            cases stKey with
            | true => exact .pure rfl
            | false =>
                cases heads with
                | true => exact .free_bind (.free_bind (.pure rfl))
                | false => cases hr

/-! ## Blocks -/

/-- The blocks that hang on the node of an event: its key and the event. -/
def eventContent (n : HNode UInt32 (Event A)) : ℕ := n.hnData.toList.length + 1

/-- The state, its event table with what is in it, and its key. -/
def StateObj.blocks (st : StateObj A) : ℕ := st.evttable.blocks eventContent + 3

/-- The blocks of the state at an address. -/
def blocksAt (mem : StateMem A) (s : StateId) : ℕ := ((mem s).map StateObj.blocks).getD 0

/-- The blocks of the states at the given addresses. -/
def memBlocks (made : Finset StateId) (mem : StateMem A) : ℕ := ∑ s ∈ made, blocksAt mem s

/-- The machine, its table of states, its queues, its mutex, what is in the table and in the queues,
and the states at the given addresses. -/
def World.blocks (made : Finset StateId) (w : World A D) : ℕ :=
  w.fsm.sttable.blocks (fun _ ↦ 0) + 2 * w.fsm.pqtable.flatten.length + memBlocks made w.states + 4

section States

variable {mem mem' : StateMem A} {s : StateId} {st : StateObj A}

theorem blocksAt_eq (h : mem s = some st) : blocksAt mem s = st.blocks := by
  rw [blocksAt, h]
  rfl

theorem blocksAt_eq_zero (h : mem s = none) : blocksAt mem s = 0 := by
  rw [blocksAt, h]
  rfl

theorem memBlocks_storeState {made : Finset StateId} (hs : s ∈ made) (mem : StateMem A)
    (st : StateObj A) :
    memBlocks made (storeState mem s st) + blocksAt mem s = memBlocks made mem + st.blocks := by
  have hrest : ∑ t ∈ made.erase s, blocksAt (storeState mem s st) t =
      ∑ t ∈ made.erase s, blocksAt mem t := by
    apply Finset.sum_congr rfl
    intro t ht
    rw [blocksAt, storeState_of_ne _ _ (Finset.ne_of_mem_erase ht), blocksAt]
  calc
    _ = st.blocks + ∑ t ∈ made.erase s, blocksAt mem t + blocksAt mem s := by
      rw [memBlocks, ← Finset.add_sum_erase made _ hs, hrest, blocksAt_eq (storeState_self mem s st)]
    _ = blocksAt mem s + ∑ t ∈ made.erase s, blocksAt mem t + st.blocks := by ac_rfl
    _ = _ := by rw [memBlocks, Finset.add_sum_erase made _ hs]

theorem SameButFlags.blocksAt_eq (h : SameButFlags mem mem') (s : StateId) :
    blocksAt mem' s = blocksAt mem s := by
  cases hmem : mem s with
  | none => rw [blocksAt_eq_zero hmem, blocksAt_eq_zero (h.none_iff.2 hmem)]
  | some st =>
      obtain ⟨st', hst', htable, _⟩ := h.exists_eq hmem
      rw [StateMachine.blocksAt_eq hmem, StateMachine.blocksAt_eq hst', StateObj.blocks, htable,
        StateObj.blocks]

end States

/-- The blocks that `state_add_evt` leaves behind: the key and the event, when it returns `ST_OK`
without memory for the node. -/
def EventMallocs.leaks (m : EventMallocs) (r : StRet) : ℕ :=
  if r = .ok ∧ m.insert.node = false then 2 else 0

section StateGains

variable {made : Finset StateId} {mem : StateMem A} {s : StateId}

theorem stateAddEvtMetered_gains (hmade : ∀ st, mem s = some st → s ∈ made)
    (hsound : ∀ st, mem s = some st → st.evttable.Sound) (mallocs : EventMallocs) (key : UInt32)
    (pdesc : List UInt8) (pactionf : Option A) (pnewstate : Option StateId) :
    Gains (stateAddEvtMetered mem mallocs s key pdesc pactionf pnewstate)
      (stateAddEvt mem mallocs s key pdesc pactionf pnewstate) fun r ↦
      (memBlocks made r.2 - memBlocks made mem + mallocs.leaks r.1 : ℤ) := by
  obtain ⟨akey, aevent, insert⟩ := mallocs
  apply Gains.malloc_bind
  cases akey with
  | false => exact .pure (by simp [EventMallocs.leaks])
  | true =>
      apply Gains.malloc_bind
      cases aevent with
      | false => exact .free_bind (.pure (by simp [EventMallocs.leaks]))
      | true =>
          apply Gains.lift_bind
          intro st hst
          rw [loadState_eq_ok] at hst
          apply (htableInsertMetered_gains stateCallbacks st.evttable insert key _).bind
          intro r hr
          have hblocks := blocks_of_htableInsert (hsound st hst) eventContent hr
          have hsum := memBlocks_storeState (hmade st hst) mem { st with evttable := r.2 }
          rw [blocksAt_eq hst, StateObj.blocks, StateObj.blocks, hblocks] at hsum
          rcases ret_of_htableInsert (hsound st hst) hr with hret | hret
          · simp only [hret, reduceCtorEq, if_false, if_true] at hsum ⊢
            apply Gains.free_bind
            apply Gains.free_bind
            apply Gains.pure
            simp only [EventMallocs.leaks, reduceCtorEq, false_and, if_false]
            omega
          · cases hnode : insert.node with
            | true =>
                simp only [hret, hnode, reduceCtorEq, if_false, if_true] at hsum ⊢
                apply Gains.pure
                simp only [EventMallocs.leaks, eventContent, hnode, reduceCtorEq, and_false,
                  if_false, Option.toList_some, List.length_singleton] at hsum ⊢
                omega
            | false =>
                simp only [hret, hnode, Bool.false_eq_true, reduceCtorEq, if_false, if_true]
                  at hsum ⊢
                apply Gains.pure
                simp only [EventMallocs.leaks, hnode, and_self, if_true]
                omega

theorem stateRemEvtMetered_gains (hmade : ∀ st, mem s = some st → s ∈ made) (key : UInt32) :
    Gains (stateRemEvtMetered mem s key) (stateRemEvt mem s key) fun r ↦
      (memBlocks made r.2 - memBlocks made mem : ℤ) := by
  apply Gains.lift_bind
  intro st hst
  rw [loadState_eq_ok] at hst
  apply (htableFreeObjMetered_gains stateCallbacks st.evttable key _).bind
  intro r hr
  obtain ⟨ret, t, freed⟩ := r
  have hsum := memBlocks_storeState (hmade st hst) mem { st with evttable := t }
  rw [blocksAt_eq hst, StateObj.blocks, StateObj.blocks] at hsum
  dsimp only at hsum
  rcases blocks_of_htableFreeObj eventContent hr with
    ⟨rfl, rfl, rfl⟩ | ⟨n, rfl, htable, rfl⟩
  · apply Gains.pure
    simp only [reduceCtorEq, if_false, Option.toList_none, List.length_nil]
    omega
  · have hkey : (htFreekey ||| htFreedata) &&& htFreekey ≠ 0 := by decide
    have hdata : (htFreekey ||| htFreedata) &&& htFreedata ≠ 0 := by decide
    apply Gains.pure
    simp only [eventContent, if_pos hkey, if_pos hdata, if_true, Option.toList_some,
      List.length_singleton] at htable ⊢
    omega

end StateGains

theorem stateInit_ret {mem mem' : StateMem A} {mallocs : StateMallocs} {key : UInt32}
    {flag : FlagByte} {size factor : ℕ} {r : StRet}
    (h : stateInit mem mallocs key flag size factor = .ok (r, mem')) :
    r = .nomem ∧ mem' = mem ∨ r = .ok ∧ ∃ s, mallocs.state = some s ∧
      mem' = storeState mem s (StateObj.markAsUnreachable ⟨emptyTable size factor, key, flag⟩) := by
  unfold stateInit at h
  split at h
  · cases h
    exact .inl ⟨rfl, rfl⟩
  · rename_i s hstate
    split at h
    · cases h
      exact .inl ⟨rfl, rfl⟩
    · obtain ⟨⟨ret, evttable⟩, htable, h⟩ := Exec.bind_eq_ok.1 h
      cases evttable with
      | none =>
          cases h
          exact .inl ⟨rfl, rfl⟩
      | some evttable =>
          dsimp only at h
          split at h
          · cases h
            exact .inl ⟨rfl, rfl⟩
          · cases h
            rw [(htableInit_some htable).2]
            exact .inr ⟨rfl, s, hstate, rfl⟩

section MachineGains

variable {made : Finset StateId} {w : World A D}

theorem stateInitMetered_gains_blocks {mem : StateMem A} {mallocs : StateMallocs}
    (hnew : ∀ s, mallocs.state = some s → mem s = none)
    (hmade : ∀ s, mallocs.state = some s → s ∈ made) (key : UInt32) (flag : FlagByte)
    (size factor : ℕ) :
    Gains (stateInitMetered mem mallocs key flag size factor)
      (stateInit mem mallocs key flag size factor) fun r ↦
      (memBlocks made r.2 - memBlocks made mem + if r.1 = .nomem then mallocs.leaks else 0 : ℤ) := by
  apply (stateInitMetered_gains mem mallocs key flag size factor).congr
  rintro ⟨r, mem'⟩ hr
  rcases stateInit_ret hr with ⟨rfl, rfl⟩ | ⟨rfl, s, hs, rfl⟩
  · simp
  · have hsum := memBlocks_storeState (hmade s hs) mem
      (StateObj.markAsUnreachable ⟨emptyTable size factor, key, flag⟩)
    have hblocks : StateObj.blocks (A := A)
        (StateObj.markAsUnreachable ⟨emptyTable size factor, key, flag⟩) = 4 := by
      rw [StateObj.blocks, StateObj.markAsUnreachable, blocks_emptyTable]
    rw [blocksAt_eq_zero (hnew s hs), hblocks] at hsum
    simp only [reduceCtorEq, if_false, if_true]
    omega

theorem fsmAddStateMetered_gains {s : StateId} (hmade : ∀ st, w.states s = some st → s ∈ made)
    (hsound : w.fsm.sttable.Sound) (mallocs : InsertMallocs) (key : UInt32) :
    Gains (fsmAddStateMetered mallocs w key s) (fsmAddState mallocs w key s) fun r ↦
      (r.2.blocks made - w.blocks made : ℤ) := by
  apply Gains.lift_bind
  intro st hst
  rw [loadState_eq_ok] at hst
  have hsum := memBlocks_storeState (hmade st hst) w.states { st with stKey := key }
  rw [blocksAt_eq hst] at hsum
  apply (htableInsertMetered_gains _ w.fsm.sttable mallocs (.stKey s) (some s)).bind
  rintro ⟨ret, t⟩ hr
  have hblocks := blocks_of_htableInsert hsound (fun _ ↦ 0) hr
  have hsame : StateObj.blocks { st with stKey := key } = st.blocks := rfl
  rw [hsame] at hsum
  dsimp only at hsum hblocks ⊢
  split
  · rename_i hret
    apply Gains.pure
    simp only [hret, reduceCtorEq, if_false] at hblocks
    simp only [World.blocks, hret, reduceCtorEq, if_false]
    omega
  · apply Gains.pure
    simp only [World.blocks]
    split at hblocks
    · rw [if_pos ‹_›]
      omega
    · rw [if_neg ‹_›]
      omega

theorem SameButFlags.blocks_eq {mem : StateMem A} (h : SameButFlags w.states mem)
    {fsm : Fsm D} (hfsm : fsm.sttable = w.fsm.sttable) (hqueues : fsm.pqtable = w.fsm.pqtable)
    (trace : List (A × D)) : World.blocks made ⟨mem, fsm, trace⟩ = w.blocks made := by
  have hmem : memBlocks made mem = memBlocks made w.states :=
    Finset.sum_congr rfl fun s _ ↦ h.blocksAt_eq s
  rw [World.blocks, World.blocks, hfsm, hqueues, hmem]

end MachineGains

end Experimentation.StateMachine
