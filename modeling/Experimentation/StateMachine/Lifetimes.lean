import Experimentation.StateMachine.Blocks
import Experimentation.StateMachine.CurrentState
import Experimentation.StateMachine.TeardownRuns

/-!
# The blocks of a machine over its lifetime

Whatever is called, whatever the functions of events queue and whichever allocations fail, the
blocks that are allocated are those of the machine and of its states, and those that error paths
left behind.  `fsm_free` then leaves just the latter, if every state was registered and the iterator
misses none.
-/

namespace Experimentation.StateMachine

open Semantics HashTable

variable {A D : Type}

def fsmQueueEventMetered (w : World A Bytes) (q : Request) : Metered (FsmRet × World A Bytes) := do
  if q.prio ≥ w.fsm.nqueues then
    return (.eprio, w)
  else if !(← Metered.malloc q.mallocNode) then
    return (.enomem, w)
  else if !(← Metered.malloc q.mallocData) then
    Metered.free
    return (.enomem, w)
  else
    let pnode : PqNode Bytes := ⟨memcpy q.pdata q.size, q.evtkey, q.prio⟩
    let pqtable ← queueInsertTail w.fsm.pqtable q.prio.toNat pnode
    return (.ok, { w with fsm := { w.fsm with pqtable := pqtable } })

/-- The functions that events call, given the requests that they make. -/
def queueingMetered (requests : Requests A) : A → Bytes → World A Bytes → Metered (World A Bytes) :=
  fun f data w ↦ (requests f data w).foldlM (fun w q ↦ do
    let (_, w) ← fsmQueueEventMetered w q
    return w) w

section Serving

variable (act : A → D → World A D → Metered (World A D))

/-- The call of the action of an event. -/
def callActionMetered (evtActionf : Option A) (data : D) (w : World A D) : Metered (World A D) :=
  match evtActionf with
  | none => return w
  | some f => act f data { w with trace := w.trace ++ [(f, data)] }

def fsmProcessEventMetered (w : World A D) (evtkey : UInt32) (data : D) :
    Metered (FsmRet × World A D) := do
  let st ← w.currentState
  match ← htableSearch stateCallbacks st.evttable evtkey with
  | none => return (.enotfound, w)
  | some pevt => do
      let w ← callActionMetered act pevt.evtActionf data w
      match pevt.evtNewstate with
      | none => return (.enotfound, w)
      | some pnewstate => do
          let _ ← loadState w.states pnewstate
          match ← htableSearch (fsmCallbacks w.states) w.fsm.sttable (.stKey pnewstate) with
          | none => return (.enotfound, w)
          | some _ => return (.ok, { w with fsm := { w.fsm with cstate := some pnewstate } })

/-- The body of the loop of `fsm_dequeue_event` on the head at `i`. -/
def serveHeadMetered (w : World A D) (i : ℕ)
    (next : Metered (FsmRet × Option (PqNode D) × World A D)) :
    Metered (FsmRet × Option (PqNode D) × World A D) := do
  match ← queueAt w.fsm.pqtable i with
  | [] => next
  | pnode :: _ => do
      let (_, w) ← fsmProcessEventMetered act w pnode.evtkey pnode.data
      let pqtable ← queueRemoveHead w.fsm.pqtable i
      Metered.free
      Metered.free
      return (.ok, some pnode, { w with fsm := { w.fsm with pqtable := pqtable } })

/-- The loop of `fsm_dequeue_event` from the head at `i` down. -/
def serveFromMetered (w : World A D) :
    (i : ℕ) → Metered (FsmRet × Option (PqNode D) × World A D)
  | 0 => serveHeadMetered act w 0 (return (.empty, none, w))
  | i + 1 => serveHeadMetered act w (i + 1) (serveFromMetered w i)

def fsmDequeueEventMetered (w : World A D) : Metered (FsmRet × Option (PqNode D) × World A D) :=
  serveFromMetered act w (w.fsm.nqueues - 1).toNat

end Serving

/-! ## Calls -/

/-- One call that builds or moves the machine. -/
def performMetered (w : World A D) : Call A D → Metered (Ret × World A D)
  | .stateInit mallocs key flag size factor => do
      let (r, states) ← stateInitMetered w.states mallocs key flag size factor
      return (.st r, { w with states := states })
  | .stateAddEvt mallocs pstate key pdesc pactionf pnewstate => do
      let (r, states) ← stateAddEvtMetered w.states mallocs pstate key pdesc pactionf pnewstate
      return (.st r, { w with states := states })
  | .stateRemEvt pstate key => do
      let (r, states) ← stateRemEvtMetered w.states pstate key
      return (.st r, { w with states := states })
  | .addState mallocs key pstate => do
      let (r, w) ← fsmAddStateMetered mallocs w key pstate
      return (.fsm r, w)
  | .setState stkey => do
      let (r, w) ← fsmSetState w stkey
      return (.fsm r, w)
  | .processEvent evtkey data => do
      let (r, w) ← fsmProcessEvent leaveAlone w evtkey data
      return (.fsm r, w)

/-- One call on the queues. -/
def performQueueMetered (requests : Requests A) (w : World A Bytes) :
    QueueCall → Metered (Outcome Bytes × World A Bytes)
  | .queueEvent q => do
      let (r, w) ← fsmQueueEventMetered w q
      return (⟨r, none⟩, w)
  | .dequeueEvent => do
      let (r, handed, w) ← fsmDequeueEventMetered (queueingMetered requests) w
      return (⟨r, handed⟩, w)

/-- The blocks that a call leaves behind. -/
def Call.leaks : Call A D → Ret → ℕ
  | .stateInit mallocs _ _ _ _, .st .nomem => mallocs.leaks
  | .stateAddEvt mallocs _ _ _ _ _, .st r => mallocs.leaks r
  | _, _ => 0

section Queueing

variable {made : Finset StateId}

theorem blocks_pqtable (made : Finset StateId) (w : World A D) (pqtable : List (List (PqNode D))) :
    World.blocks made { w with fsm := { w.fsm with pqtable := pqtable } } +
      2 * w.fsm.pqtable.flatten.length = w.blocks made + 2 * pqtable.flatten.length := by
  simp only [World.blocks]
  omega

theorem fsmQueueEventMetered_gains (w : World A Bytes) (q : Request) :
    Gains (fsmQueueEventMetered w q) (fsmQueueEvent w q) fun r ↦
      (r.2.blocks made - w.blocks made : ℤ) := by
  unfold fsmQueueEventMetered fsmQueueEvent
  split
  · exact .pure (Int.sub_self _)
  · apply Gains.malloc_bind
    cases q.mallocNode with
    | false => exact .pure (by simp)
    | true =>
        apply Gains.malloc_bind
        cases q.mallocData with
        | false => exact .free_bind (.pure (by simp))
        | true =>
            apply Gains.lift_bind
            intro pqtable hinsert
            obtain ⟨queue, hqueue, heq⟩ := Exec.bind_eq_ok.1 hinsert
            cases heq
            have hlength := Buckets.length_flatten_modify
              (· ++ [(⟨memcpy q.pdata q.size, q.evtkey, q.prio⟩ : PqNode Bytes)])
              (queueAt_eq_ok.1 hqueue)
            have hblocks := blocks_pqtable made w (w.fsm.pqtable.modify q.prio.toNat
              (· ++ [(⟨memcpy q.pdata q.size, q.evtkey, q.prio⟩ : PqNode Bytes)]))
            rw [List.length_append, List.length_singleton] at hlength
            apply Gains.pure
            rw [if_pos rfl]
            dsimp only at hlength hblocks ⊢
            omega

theorem queueingMetered_gains (requests : Requests A) (f : A) (data : Bytes) (w : World A Bytes) :
    Gains (queueingMetered requests f data w) (queueing requests f data w) fun w' ↦
      (w'.blocks made - w.blocks made : ℤ) := by
  apply Gains.foldlM fun w : World A Bytes ↦ (w.blocks made : ℤ)
  intro w q
  apply (fsmQueueEventMetered_gains w q).bind
  intro r _
  exact .pure (Int.sub_self _)

variable {actM : A → D → World A D → Metered (World A D)}
  {act : A → D → World A D → Exec (World A D)}
  (hact : ∀ f data w, Gains (actM f data w) (act f data w) fun w' ↦
    (w'.blocks made - w.blocks made : ℤ))
include hact

theorem callActionMetered_gains (evtActionf : Option A) (data : D) (w : World A D) :
    Gains (callActionMetered actM evtActionf data w) (callAction act evtActionf data w) fun w' ↦
      (w'.blocks made - w.blocks made : ℤ) := by
  cases evtActionf with
  | none => exact .pure (Int.sub_self _)
  | some f => exact hact f data _

theorem fsmProcessEventMetered_gains (w : World A D) (evtkey : UInt32) (data : D) :
    Gains (fsmProcessEventMetered actM w evtkey data) (fsmProcessEvent act w evtkey data) fun r ↦
      (r.2.blocks made - w.blocks made : ℤ) := by
  apply Gains.lift_bind
  intro st _
  apply Gains.lift_bind
  intro found _
  cases found with
  | none => exact .pure (Int.sub_self _)
  | some pevt =>
      apply (callActionMetered_gains hact pevt.evtActionf data w).bind
      intro w₁ _
      dsimp only
      cases pevt.evtNewstate with
      | none => exact .pure (Int.sub_self _)
      | some t =>
          apply Gains.lift_bind
          intro _ _
          apply Gains.lift_bind
          intro found _
          cases found with
          | none => exact .pure (Int.sub_self _)
          | some _ => exact .pure (Int.sub_self _)

theorem serveHeadMetered_gains (w : World A D) (i : ℕ)
    {nextM : Metered (FsmRet × Option (PqNode D) × World A D)}
    {next : Exec (FsmRet × Option (PqNode D) × World A D)}
    (hnext : Gains nextM next fun r ↦ (r.2.2.blocks made - w.blocks made : ℤ)) :
    Gains (serveHeadMetered actM w i nextM) (serveHead act w i next) fun r ↦
      (r.2.2.blocks made - w.blocks made : ℤ) := by
  apply Gains.lift_bind
  intro queue _
  cases queue with
  | nil => exact hnext
  | cons pnode behind =>
      apply (fsmProcessEventMetered_gains hact w pnode.evtkey pnode.data).bind
      intro r _
      obtain ⟨_, w₁⟩ := r
      apply Gains.lift_bind
      intro pqtable hremove
      obtain ⟨queue, hqueue, hremove⟩ := Exec.bind_eq_ok.1 hremove
      cases queue with
      | nil => cases hremove
      | cons head rest =>
          cases hremove
          have hlength := Buckets.length_flatten_modify List.tail (queueAt_eq_ok.1 hqueue)
          have hblocks := blocks_pqtable made w₁ (w₁.fsm.pqtable.modify i List.tail)
          rw [List.length_cons, List.tail_cons] at hlength
          apply Gains.free_bind
          apply Gains.free_bind
          apply Gains.pure
          dsimp only at hblocks ⊢
          omega

theorem serveFromMetered_gains (w : World A D) (i : ℕ) :
    Gains (serveFromMetered actM w i) (serveFrom act w i) fun r ↦
      (r.2.2.blocks made - w.blocks made : ℤ) := by
  induction i with
  | zero => exact serveHeadMetered_gains hact w 0 (.pure (Int.sub_self _))
  | succ i ih => exact serveHeadMetered_gains hact w (i + 1) ih

end Queueing

section Calls

variable {made : Finset StateId} {w : World A D}

/-- The address that a call gets for a state. -/
def Call.newState : Call A D → Option StateId
  | .stateInit mallocs _ _ _ _ => mallocs.state
  | _ => none

/-- A call gains what the blocks of the machine and of its states become more, and what it leaves
behind. -/
theorem performMetered_gains (haccess : Accessible w) {c : Call A D} (hnew : c.NewObject w)
    (hmade : ∀ s, w.states s ≠ none → s ∈ made) (hmakes : ∀ s, c.newState = some s → s ∈ made) :
    Gains (performMetered w c) (perform w c) fun r ↦
      (r.2.blocks made - w.blocks made + c.leaks r.1 : ℤ) := by
  have hloaded : ∀ {s : StateId} st, w.states s = some st → s ∈ made := fun st hst ↦
    hmade _ (by rw [hst]; exact Option.some_ne_none st)
  cases c with
  | stateInit mallocs key flag size factor =>
      apply (stateInitMetered_gains_blocks hnew hmakes key flag size factor).bind
      rintro ⟨r, mem⟩ _
      apply Gains.pure
      cases r with
      | nomem =>
          simp only [World.blocks, Call.leaks, if_true]
          omega
      | ok | existing | notfound =>
          simp only [World.blocks, Call.leaks, reduceCtorEq, if_false]
          omega
  | stateAddEvt mallocs s key pdesc pactionf pnewstate =>
      apply (stateAddEvtMetered_gains hloaded (haccess.evttable s) mallocs key pdesc pactionf
        pnewstate).bind
      rintro ⟨r, mem⟩ _
      apply Gains.pure
      simp only [World.blocks, Call.leaks]
      omega
  | stateRemEvt s key =>
      apply (stateRemEvtMetered_gains hloaded key).bind
      rintro ⟨r, mem⟩ _
      apply Gains.pure
      simp only [World.blocks, Call.leaks]
      omega
  | addState mallocs key s =>
      apply (fsmAddStateMetered_gains hloaded haccess.sttable mallocs key).bind
      rintro ⟨r, w'⟩ _
      apply Gains.pure
      simp only [Call.leaks]
      omega
  | setState key =>
      apply Gains.lift_bind
      rintro ⟨r, w'⟩ hr
      apply Gains.pure
      rcases fsmSetState_inv hr with ⟨_, rfl⟩ | ⟨_, s, mem, _, _, hsame, rfl⟩
      · simp [Call.leaks]
      · have hblocks : World.blocks made { w with
            states := mem, fsm := { w.fsm with cstate := some s } } = w.blocks made :=
          hsame.blocks_eq rfl rfl w.trace
        dsimp only at hblocks ⊢
        simp [hblocks, Call.leaks]
  | processEvent evtkey data =>
      apply Gains.lift_bind
      rintro ⟨r, w'⟩ hr
      obtain ⟨trace, cstate, rfl, _⟩ := fsmProcessEvent_inv hr
      apply Gains.pure
      simp [World.blocks, Call.leaks]

end Calls

theorem performQueueMetered_gains (made : Finset StateId) (requests : Requests A)
    (w : World A Bytes) (c : QueueCall) :
    Gains (performQueueMetered requests w c) (performQueue requests w c) fun r ↦
      (r.2.blocks made - w.blocks made : ℤ) := by
  cases c with
  | queueEvent q =>
      apply (fsmQueueEventMetered_gains w q).bind
      intro r _
      exact .pure (Int.sub_self _)
  | dequeueEvent =>
      apply (serveFromMetered_gains (queueingMetered_gains requests) w _).bind
      intro r _
      exact .pure (Int.sub_self _)

/-! ## Lifetimes -/

/-- A machine that was made by `fsm_init` and any calls that were defined, with the blocks that are
allocated and those of them that were left behind. -/
inductive Lifetime (requests : Requests A) : World A Bytes → ℤ → ℕ → Prop
  | init {mallocs : FsmMallocs} {size factor : ℕ} {nqueues : UInt32} {fsm : Fsm Bytes} {held : ℤ}
      (hpos : 0 < size)
      (hinit : fsmInitMetered mallocs size factor nqueues 0 = .ok ((.ok, some fsm), held)) :
      Lifetime requests (start A fsm) held 0
  | call {w w' : World A Bytes} {held held' : ℤ} {left : ℕ} {c : Call A Bytes} {r : Ret}
      (h : Lifetime requests w held left) (hc : c.Usable w) (hnew : c.NewObject w)
      (hrun : performMetered w c held = .ok ((r, w'), held')) :
      Lifetime requests w' held' (left + c.leaks r)
  | queueCall {w w' : World A Bytes} {held held' : ℤ} {left : ℕ} {c : QueueCall}
      {o : Outcome Bytes} (h : Lifetime requests w held left)
      (hrun : performQueueMetered requests w c held = .ok ((o, w'), held')) :
      Lifetime requests w' held' left

theorem blocksAt_eq_zero_iff {mem : StateMem A} {s : StateId} :
    blocksAt mem s = 0 ↔ mem s = none := by
  cases hmem : mem s with
  | none => simp [blocksAt_eq_zero hmem]
  | some st => simp [blocksAt_eq hmem, StateObj.blocks]

theorem World.blocks_of_subset {w : World A D} {made base : Finset StateId} (hsub : made ⊆ base)
    (hcovers : ∀ s, w.states s ≠ none → s ∈ made) : w.blocks base = w.blocks made := by
  have hmem : memBlocks made w.states = memBlocks base w.states := by
    apply Finset.sum_subset hsub
    intro s _ hs
    rw [blocksAt_eq_zero_iff]
    by_contra hne
    exact hs (hcovers s hne)
  rw [World.blocks, World.blocks, hmem]

/-- What is gained does not depend on which states are counted besides some of them.  The others
are therefore left as they are. -/
theorem blocksAt_of_gains {ρ : Type} {w w' : World A D} {f : Metered (ρ × World A D)}
    {g : Exec (ρ × World A D)} {base : Finset StateId} {extra : ρ → ℕ}
    (h : ∀ made, base ⊆ made → Gains f g fun r ↦
      (r.2.blocks made - w.blocks made + extra r.1 : ℤ))
    {r : ρ} (hrun : g = .ok (r, w')) {s : StateId} (hs : s ∉ base) :
    blocksAt w'.states s = blocksAt w.states s := by
  have hbase := (h base (Finset.Subset.refl base)).run_eq hrun 0
  have hmore := (h (insert s base) (Finset.subset_insert s base)).run_eq hrun 0
  rw [hbase, Except.ok.injEq, Prod.mk.injEq] at hmore
  simp only [World.blocks, memBlocks, Finset.sum_insert hs] at hmore
  omega

/-- The states are among the given ones, and the blocks that are allocated are those of the machine,
of these states, and those that were left behind. -/
structure AccountedFor (w : World A D) (held : ℤ) (left : ℕ) (made : Finset StateId) : Prop where
  covers : ∀ s, w.states s ≠ none → s ∈ made
  held_eq : held = w.blocks made + left

theorem AccountedFor.step {ρ : Type} {w w' : World A D} {held held' : ℤ} {left : ℕ}
    {made base : Finset StateId} (h : AccountedFor w held left made) (hsub : made ⊆ base)
    {f : Metered (ρ × World A D)} {g : Exec (ρ × World A D)} (extra : ρ → ℕ)
    (hgains : ∀ made, base ⊆ made → Gains f g fun r ↦
      (r.2.blocks made - w.blocks made + extra r.1 : ℤ))
    {r : ρ} (hrun : f held = .ok ((r, w'), held')) :
    g = .ok (r, w') ∧ AccountedFor w' held' (left + extra r) base := by
  obtain ⟨hplain, hheld⟩ := (hgains base (Finset.Subset.refl base)).held_eq hrun
  constructor
  · exact hplain
  · constructor
    · intro s hs
      by_contra hout
      apply hs
      rw [← blocksAt_eq_zero_iff, blocksAt_of_gains hgains hplain hout, blocksAt_eq_zero_iff]
      by_contra hne
      exact hout (hsub (h.covers s hne))
    · rw [hheld, h.held_eq, World.blocks_of_subset hsub h.covers]
      push_cast
      omega

section Lifetimes

variable {requests : Requests A} {w : World A Bytes} {held : ℤ} {left : ℕ}

theorem Lifetime.accountedFor (h : Lifetime requests w held left) :
    Used requests w ∧ ∃ made, AccountedFor w held left made := by
  induction h with
  | init hpos hinit =>
      obtain ⟨hplain, hheld⟩ := (fsmInitMetered_gains _ _ _ _).held_eq hinit
      refine ⟨.init hpos hplain, ∅, fun s hs ↦ absurd rfl hs, ?_⟩
      obtain ⟨_, rfl⟩ := fsmInit_ok hplain
      rw [hheld]
      simp [World.blocks, memBlocks, start, blocks_emptyTable]
  | @call w _ _ _ _ c _ _ hc hnew hrun ih =>
      obtain ⟨hused, made, hmade⟩ := ih
      have hgains (made' : Finset StateId) (hsub : made ∪ c.newState.toFinset ⊆ made') :
          Gains (performMetered w c) (perform w c) fun r ↦
            (r.2.blocks made' - w.blocks made' + c.leaks r.1 : ℤ) := by
        apply performMetered_gains hused.orderly.accessible hnew
        · exact fun s hs ↦ hsub (Finset.mem_union_left _ (hmade.covers s hs))
        · exact fun s hs ↦ hsub (Finset.mem_union_right _ (by simpa using hs))
      obtain ⟨hplain, hnext⟩ := hmade.step Finset.subset_union_left c.leaks hgains hrun
      exact ⟨hused.call hc hplain, _, hnext⟩
  | @queueCall w _ _ _ _ c _ _ hrun ih =>
      obtain ⟨hused, made, hmade⟩ := ih
      have hgains (made' : Finset StateId) (_ : made ⊆ made') :
          Gains (performQueueMetered requests w c) (performQueue requests w c) fun r ↦
            (r.2.blocks made' - w.blocks made' + (0 : ℕ) : ℤ) := by
        simpa using performQueueMetered_gains made' requests w c
      obtain ⟨hplain, hnext⟩ := hmade.step (Finset.Subset.refl made) (fun _ ↦ 0) hgains hrun
      exact ⟨hused.queueCall hplain, made, hnext⟩

end Lifetimes

/-! ## What is left after `fsm_free` -/

/-- The blocks of a state that `fsm_free` leaves: none of a state that the iterator yields, all but
the key of another one that is registered, and all of one that is not. -/
def World.leftOf (w : World A D) (s : StateId) : ℕ :=
  if s ∈ w.sweepOrder then 0
  else if s ∈ w.registered then blocksAt w.states s - 1
  else blocksAt w.states s

theorem length_flatMap_slots {α : Type} {rows : List (List α)} {size : ℕ}
    (hlength : rows.length = size) {f : ℕ × α × ℕ → List Block} {g : α → ℕ}
    (hf : ∀ x, (f x).length = g x.2.1) :
    ((slots size rows).flatMap f).length = (rows.flatten.map g).sum := by
  subst hlength
  rw [List.length_flatMap, ← slots_map rows, List.map_map]
  apply congrArg List.sum
  apply List.map_congr_left
  exact fun x _ ↦ hf x

theorem length_nodes {K E : Type} (names : TableNames K E Block) {t : HTable K E}
    (hlength : t.htTable.length = t.htSize) :
    (names.nodes t).length = t.htTable.flatten.length := by
  rw [TableNames.nodes, List.length_map, ← hlength, ← slots_map, List.length_map]

theorem stateBlocks_length {mem : StateMem A} {s : StateId} {st : StateObj A}
    (hst : mem s = some st) (hsound : st.evttable.Sound) :
    (stateBlocks mem s).length + 1 = blocksAt mem s := by
  have hcontent : ((slots st.evttable.htSize st.evttable.htTable).flatMap
      ((eventNames s).content (htFreekey ||| htFreedata))).length =
      (st.evttable.htTable.flatten.map eventContent).sum := by
    apply length_flatMap_slots hsound.length
    rintro ⟨i, n, j⟩
    cases hdata : n.hnData with
    | none => simp [TableNames.content, htFreekey, htFreedata, eventNames, eventContent, hdata]
    | some ev => simp [TableNames.content, htFreekey, htFreedata, eventNames, eventContent, hdata]
  have hnodes := length_nodes (eventNames s) hsound.length
  have hones (ns : List (HNode UInt32 (Event A))) :
      (ns.map fun n ↦ eventContent n + 1).sum = (ns.map eventContent).sum + ns.length := by
    induction ns with
    | nil => rfl
    | cons n ns ih =>
        simp only [List.map_cons, List.sum_cons, ih, List.length_cons]
        omega
  rw [blocksAt_eq hst, StateObj.blocks, HTable.blocks, hones, stateBlocks, hst]
  simp only [List.length_append, hcontent, hnodes, List.length_cons, List.length_nil]
  omega

theorem machineBlocks_length {fsm : Fsm D} (hsound : fsm.sttable.Sound)
    (hlength : fsm.pqtable.length = fsm.nqueues.toNat) : (machineBlocks fsm).length =
      fsm.sttable.blocks (fun _ ↦ 0) + 2 * fsm.pqtable.flatten.length + 4 := by
  have hpending : (pendingBlocks fsm).length = (fsm.pqtable.flatten.map fun _ ↦ 2).sum :=
    length_flatMap_slots hlength fun _ ↦ rfl
  simp only [List.map_const', List.sum_replicate_nat] at hpending
  simp only [machineBlocks, List.length_append, length_nodes _ hsound.length, hpending,
    List.length_cons, List.length_nil, HTable.blocks, Nat.zero_add, List.map_const',
    List.sum_replicate_nat]
  omega

theorem sum_map_eq {made : Finset StateId} {l : List StateId} (hnodup : l.Nodup)
    (hsub : ∀ s ∈ l, s ∈ made) (f : StateId → ℕ) :
    (l.map f).sum = ∑ s ∈ made, if s ∈ l then f s else 0 := by
  rw [← List.sum_toFinset f hnodup, ← Finset.sum_filter]
  apply Finset.sum_congr _ fun _ _ ↦ rfl
  ext s
  simpa using hsub s

section Leftovers

variable {w : World A D} {made : Finset StateId}

theorem World.EntriesLoad.registered (h : w.EntriesLoad) {s : StateId} (hs : s ∈ w.registered) :
    w.states s ≠ none := by
  obtain ⟨n, hn, hdata⟩ := List.mem_filterMap.1 hs
  obtain ⟨s', rfl, hs'⟩ := h n hn
  cases hdata
  exact hs'

theorem Orderly.releasedBlocks_length (h : Orderly w) (hnodup : w.registered.Nodup)
    (hmade : ∀ s, s ∈ made ↔ w.states s ≠ none) :
    w.releasedBlocks.length + ∑ s ∈ made, w.leftOf s = w.blocks made := by
  have hregistered (s : StateId) (hs : s ∈ w.registered) : s ∈ made :=
    (hmade s).2 (h.entries.registered hs)
  have hyielded := sum_map_eq (hnodup.sublist w.sweepOrder_sublist)
    (fun s hs ↦ hregistered s (World.sweepOrder_subset hs)) fun s ↦
    (stateBlocks w.states s).length
  have hkeys := sum_map_eq hnodup hregistered fun _ ↦ 1
  simp only [List.map_const', List.sum_replicate_nat, Nat.mul_one] at hkeys
  have hstate (s : StateId) (hs : s ∈ made) :
      (if s ∈ w.sweepOrder then (stateBlocks w.states s).length else 0) +
        (if s ∈ w.registered then 1 else 0) + w.leftOf s = blocksAt w.states s := by
    obtain ⟨st, hst⟩ := Option.ne_none_iff_exists'.1 ((hmade s).1 hs)
    have hlength := stateBlocks_length hst (h.accessible.evttable s st hst)
    unfold World.leftOf
    by_cases hv : s ∈ w.sweepOrder
    · rw [if_pos hv, if_pos hv, if_pos (w.sweepOrder_sublist.subset hv)]
      omega
    · rw [if_neg hv, if_neg hv]
      split
      · omega
      · omega
  have hsum : ∑ s ∈ made, blocksAt w.states s =
      (w.sweepOrder.flatMap (stateBlocks w.states)).length + w.registered.length +
        ∑ s ∈ made, w.leftOf s := by
    rw [List.length_flatMap, hyielded, hkeys, ← Finset.sum_add_distrib, ← Finset.sum_add_distrib]
    exact (Finset.sum_congr rfl hstate).symm
  rw [World.releasedBlocks, List.length_append, List.length_append, List.length_map,
    machineBlocks_length h.accessible.sttable h.heads, World.blocks, memBlocks, hsum]
  omega

theorem World.leftOf_eq_zero_iff {s : StateId} (hs : w.states s ≠ none) :
    w.leftOf s = 0 ↔ s ∈ w.sweepOrder := by
  obtain ⟨st, hst⟩ := Option.ne_none_iff_exists'.1 hs
  unfold World.leftOf
  by_cases hv : s ∈ w.sweepOrder
  · simp [hv]
  · rw [if_neg hv, blocksAt_eq hst, StateObj.blocks]
    simp only [hv, iff_false]
    split
    · omega
    · omega

end Leftovers

/-- Whatever was called and whichever allocations failed, the blocks that are allocated are those of
the machine and its states and those that were left behind.  If no state is registered twice,
`fsm_free` leaves the latter, and the states that were not registered or that the iterator
misses. -/
theorem fsmFree_leaves {requests : Requests A} {w : World A Bytes} {held : ℤ} {left : ℕ}
    (h : Lifetime requests w held left) {made : Finset StateId}
    (hmade : ∀ s, s ∈ made ↔ w.states s ≠ none) :
    held = w.blocks made + left ∧ (w.registered.Nodup → ∃ freed, fsmFree w = .ok (.ok, freed) ∧
      held - freed.length = left + ∑ s ∈ made, w.leftOf s ∧
      (held = freed.length ↔ left = 0 ∧ (∀ s ∈ made, s ∈ w.registered) ∧
        w.fsm.sttable.lastChain.length ≤ 1)) := by
  obtain ⟨hused, base, hbase⟩ := h.accountedFor
  have horderly := hused.orderly
  have hheld : held = w.blocks made + left := by
    have hsub : made ⊆ base := fun s hs ↦ hbase.covers s ((hmade s).1 hs)
    rw [hbase.held_eq, World.blocks_of_subset hsub fun s ↦ (hmade s).2]
  refine ⟨hheld, fun hnodup ↦ ?_⟩
  have hlength := horderly.releasedBlocks_length hnodup hmade
  have hrest : held - (w.releasedBlocks.reverse.length : ℤ) = left + ∑ s ∈ made, w.leftOf s := by
    rw [hheld, ← hlength, List.length_reverse]
    push_cast
    omega
  refine ⟨_, (horderly.fsmFree_eq_ok_iff _ _).2 ⟨rfl, hnodup, rfl⟩, hrest, ?_⟩
  rw [← horderly.all_yielded_iff hnodup]
  have hzero : ∑ s ∈ made, w.leftOf s = 0 ↔ ∀ s ∈ made, s ∈ w.sweepOrder := by
    rw [Finset.sum_eq_zero_iff]
    exact forall₂_congr fun s hs ↦ w.leftOf_eq_zero_iff ((hmade s).1 hs)
  have hyielded : (∀ s ∈ made, s ∈ w.sweepOrder) ↔
      (∀ s ∈ made, s ∈ w.registered) ∧ ∀ s ∈ w.registered, s ∈ w.sweepOrder := by
    constructor
    · intro hall
      exact ⟨fun s hs ↦ w.sweepOrder_sublist.subset (hall s hs),
        fun s hs ↦ hall s ((hmade s).2 (horderly.entries.registered hs))⟩
    · exact fun hall s hs ↦ hall.2 s (hall.1 s hs)
  rw [← hyielded, ← hzero]
  omega

/-- The event of the state got no node, and the key of another state got no memory. -/
theorem failedCalls_leave : ∃ w held freed, Lifetime (A := ℕ) (fun _ _ _ ↦ []) w held 3 ∧
    fsmFree w = .ok (.ok, freed) ∧ held = 15 ∧ freed.length = 12 := by
  have hinit : fsmInitMetered (D := Bytes) ⟨true, true, true, true, true⟩ 2 2 1 0 =
      .ok ((.ok, some ⟨emptyTable 2 2, none, 1, [[]]⟩), 5) := rfl
  have hstart : Lifetime (A := ℕ) (fun _ _ _ ↦ []) _ 5 0 := .init (by decide) hinit
  have hmade := hstart.call (c := .stateInit ⟨some 0, true, true, true⟩ 0 0 1 1) Nat.one_pos
    (fun _ _ ↦ rfl) rfl
  have hfailed := hmade.call (c := .stateInit ⟨some 1, true, true, false⟩ 0 0 1 1) Nat.one_pos
    (fun _ hs ↦ by cases hs; rfl) rfl
  have hevent := hfailed.call (c := .stateAddEvt ⟨true, true, ⟨false, true⟩⟩ 0 7 [] none none)
    nofun trivial rfl
  have hadded := hevent.call (c := .addState ⟨true, true⟩ 1 0) trivial trivial rfl
  have hqueued := hadded.queueCall (c := .queueEvent ⟨3, fun _ ↦ 1, 1, 0, true, true⟩) rfl
  obtain ⟨_, hfree⟩ := fsmFree_leaves hqueued
    (show ∀ s, s ∈ ({0} : Finset StateId) ↔ _ by
      intro s
      by_cases hs : s = 0
      · subst hs
        exact iff_of_true (Finset.mem_singleton_self 0) (Option.some_ne_none _)
      · apply iff_of_false (by simpa using hs)
        rw [not_not]
        simp [storeState, start, Function.update, hs])
  obtain ⟨freed, hrun, hrest, _⟩ := hfree (by decide)
  have hlength : (15 : ℤ) - freed.length = 3 := hrest
  refine ⟨_, _, freed, hqueued, hrun, rfl, ?_⟩
  omega

end Experimentation.StateMachine
