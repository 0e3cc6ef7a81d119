import Experimentation.StateMachine.Teardown

/-!
# What a state machine leaves behind

After any calls that build a machine, move it, queue events and serve them, `fsm_free` frees no
block twice and touches none that was freed, unless a state is registered twice.  What it leaves
allocated are the states in the last chain of the table of states but the first one there, which the
iterator misses, each with its events but without its key.
-/

namespace Experimentation.StateMachine

open Semantics HashTable

variable {A D : Type}

/-! ## Machines in use -/

/-- A machine that was made by `fsm_init` and any calls that were defined. -/
inductive Used (requests : Requests A) : World A Bytes → Prop
  | init {mallocs : FsmMallocs} {size factor : ℕ} {nqueues : UInt32} {fsm : Fsm Bytes}
      (hpos : 0 < size) (hinit : fsmInit mallocs size factor nqueues = .ok (.ok, some fsm)) :
      Used requests (start A fsm)
  | call {w w' : World A Bytes} {c : Call A Bytes} {r : Ret} (h : Used requests w)
      (hc : c.Usable w) (hrun : perform w c = .ok (r, w')) : Used requests w'
  | queueCall {w w' : World A Bytes} {c : QueueCall} {o : Outcome Bytes} (h : Used requests w)
      (hrun : performQueue requests w c = .ok (o, w')) : Used requests w'

/-- Everything that the machine points to is there, and there is a queue for each priority. -/
structure Orderly (w : World A D) : Prop where
  accessible : Accessible w
  entries : w.EntriesLoad
  heads : w.fsm.pqtable.length = w.fsm.nqueues.toNat

/-- Pending events, the history and the current state may change. -/
theorem Orderly.update {w : World A D} (h : Orderly w) {cstate : Option StateId}
    {pqtable : List (List (PqNode D))} {trace : List (A × D)}
    (hcstate : ∀ s, cstate = some s → w.states s ≠ none)
    (hheads : pqtable.length = w.fsm.nqueues.toNat) :
    Orderly { w with
      fsm := { w.fsm with cstate := cstate, pqtable := pqtable }, trace := trace } where
  accessible := h.accessible.of_same (.refl w.states) rfl hcstate
  entries := h.entries.keep rfl fun _ hs ↦ hs
  heads := hheads

section Steps

variable {w w' : World A Bytes}

theorem Orderly.queueEvent (h : Orderly w) {q : Request} {r : FsmRet}
    (hrun : fsmQueueEvent w q = .ok (r, w')) : Orderly w' := by
  unfold fsmQueueEvent at hrun
  split at hrun
  · cases hrun
    exact h
  · split at hrun
    · cases hrun
      exact h
    · split at hrun
      · cases hrun
        exact h
      · obtain ⟨pqtable, hinsert, hrun⟩ := Exec.bind_eq_ok.1 hrun
        obtain ⟨_, _, hinsert⟩ := Exec.bind_eq_ok.1 hinsert
        cases hinsert
        cases hrun
        exact h.update h.accessible.cstate ((List.length_modify ..).trans h.heads)

theorem Orderly.queueAll (h : Orderly w) {qs : List Request} (hrun : queueAll w qs = .ok w') :
    Orderly w' := by
  induction qs generalizing w with
  | nil =>
      cases hrun
      exact h
  | cons q qs ih =>
      obtain ⟨w₁, hstep, hrest⟩ := Exec.bind_eq_ok.1 hrun
      obtain ⟨⟨r, w₂⟩, hqueue, hstep⟩ := Exec.bind_eq_ok.1 hstep
      cases hstep
      exact ih (h.queueEvent hqueue) hrest

variable {requests : Requests A}

theorem Orderly.callAction (h : Orderly w) {evtActionf : Option A} {data : Bytes}
    (hrun : callAction (queueing requests) evtActionf data w = .ok w') : Orderly w' := by
  cases evtActionf with
  | none =>
      cases hrun
      exact h
  | some f =>
      have hcalled : Orderly { w with trace := w.trace ++ [(f, data)] } :=
        h.update h.accessible.cstate h.heads
      exact hcalled.queueAll hrun

theorem Orderly.processEvent (h : Orderly w) {evtkey : UInt32} {data : Bytes} {r : FsmRet}
    (hrun : fsmProcessEvent (queueing requests) w evtkey data = .ok (r, w')) : Orderly w' := by
  obtain ⟨st, _, hrun⟩ := Exec.bind_eq_ok.1 hrun
  obtain ⟨pevt, _, hrun⟩ := Exec.bind_eq_ok.1 hrun
  cases pevt with
  | none =>
      cases hrun
      exact h
  | some pevt =>
      obtain ⟨w₁, haction, hrun⟩ := Exec.bind_eq_ok.1 hrun
      have h₁ := h.callAction haction
      cases htarget : pevt.evtNewstate with
      | none =>
          rw [htarget] at hrun
          cases hrun
          exact h₁
      | some t =>
          rw [htarget] at hrun
          obtain ⟨new, hnew, hrun⟩ := Exec.bind_eq_ok.1 hrun
          obtain ⟨found, _, hrun⟩ := Exec.bind_eq_ok.1 hrun
          cases found with
          | none =>
              cases hrun
              exact h₁
          | some s =>
              cases hrun
              have hloaded : ∀ t', some t = some t' → w₁.states t' ≠ none := by
                rintro t' ⟨⟩
                rw [loadState_eq_ok.1 hnew]
                exact Option.some_ne_none new
              exact h₁.update hloaded h₁.heads

theorem Orderly.serveHead (h : Orderly w) {i : ℕ}
    {next : Exec (FsmRet × Option (PqNode Bytes) × World A Bytes)} {r : FsmRet}
    {handed : Option (PqNode Bytes)}
    (hnext : ∀ r handed, next = .ok (r, handed, w') → Orderly w')
    (hrun : serveHead (queueing requests) w i next = .ok (r, handed, w')) : Orderly w' := by
  obtain ⟨queue, _, hrun⟩ := Exec.bind_eq_ok.1 hrun
  cases queue with
  | nil => exact hnext r handed hrun
  | cons pnode behind =>
      obtain ⟨⟨r', w₁⟩, hprocess, hrun⟩ := Exec.bind_eq_ok.1 hrun
      obtain ⟨pqtable, hremove, hrun⟩ := Exec.bind_eq_ok.1 hrun
      cases hrun
      have h₁ := h.processEvent hprocess
      obtain ⟨queue, _, hremove⟩ := Exec.bind_eq_ok.1 hremove
      cases queue with
      | nil => cases hremove
      | cons _ _ =>
          cases hremove
          exact h₁.update h₁.accessible.cstate ((List.length_modify ..).trans h₁.heads)

theorem Orderly.serveFrom (h : Orderly w) {i : ℕ} {r : FsmRet} {handed : Option (PqNode Bytes)}
    (hrun : serveFrom (queueing requests) w i = .ok (r, handed, w')) : Orderly w' := by
  induction i generalizing r handed with
  | zero =>
      apply h.serveHead _ hrun
      intro r handed hnext
      cases hnext
      exact h
  | succ i ih => exact h.serveHead (fun _ _ hnext ↦ ih hnext) hrun

theorem Orderly.performQueue (h : Orderly w) {c : QueueCall} {o : Outcome Bytes}
    (hrun : performQueue requests w c = .ok (o, w')) : Orderly w' := by
  cases c with
  | queueEvent q =>
      obtain ⟨⟨r, w₁⟩, hqueue, hrun⟩ := Exec.bind_eq_ok.1 hrun
      cases hrun
      exact h.queueEvent hqueue
  | dequeueEvent =>
      obtain ⟨⟨r, handed, w₁⟩, hserve, hrun⟩ := Exec.bind_eq_ok.1 hrun
      cases hrun
      exact h.serveFrom hserve

end Steps

theorem Used.orderly {requests : Requests A} {w : World A Bytes} (h : Used requests w) :
    Orderly w := by
  induction h with
  | @init _ _ _ _ fsm hpos hinit =>
      have hbuilt : Built (start A fsm) := .init hpos hinit
      refine ⟨hbuilt.accessible, hbuilt.entriesLoad, ?_⟩
      rw [hbuilt.queues_empty, List.length_replicate]
  | call _ hc hrun ih =>
      have heffect := effect_of_perform hrun
      obtain ⟨hnqueues, hpqtable⟩ := heffect.queues
      refine ⟨ih.accessible.effect hc heffect, ih.entries.effect ih.accessible heffect, ?_⟩
      rw [hpqtable, hnqueues, ih.heads]
  | queueCall _ hrun ih => exact ih.performQueue hrun

/-! ## What is freed and what is left -/

/-- The blocks of the machine, of its pending events, and of the registered states. -/
def World.Owns (w : World A D) : Block → Prop
  | .fsm | .mobj | .pqtable | .sttable .table | .sttable .heads => True
  | .sttable (.node i j) => ∃ n, (i, n, j) ∈ slots w.fsm.sttable.htSize w.fsm.sttable.htTable
  | .sttable (.key _ _) | .sttable (.data _ _) => False
  | .pqnode i j | .pqdata i j => ∃ n, (i, n, j) ∈ slots w.fsm.nqueues.toNat w.fsm.pqtable
  | .stKey s | .state s => s ∈ w.registered
  | .evttable s b => s ∈ w.registered ∧ ∃ st, w.states s = some st ∧ b.Of st.evttable

/-- What `fsm_free` has done. -/
structure TornDown (w : World A D) (freed : List Block) : Prop where
  once : freed.Nodup
  /-- What belongs to a state that the iterator misses is left. -/
  mem_iff : ∀ b, b ∈ freed ↔ w.Owns b ∧ ∀ s, b.owner = some s → s ∈ w.sweepOrder
  /-- Nothing is left just if the iterator misses no state. -/
  all_iff : (∀ b, w.Owns b → b ∈ freed) ↔ w.fsm.sttable.lastChain.length ≤ 1

theorem mem_machineBlocks (w : World A D) {b : Block} (howner : b.owner = none)
    (hkey : ∀ s, b ≠ .stKey s) : b ∈ machineBlocks w.fsm ↔ w.Owns b := by
  simp only [machineBlocks, List.mem_append, List.mem_cons, List.not_mem_nil, or_false,
    TableNames.mem_nodes, mem_pendingBlocks]
  cases b with
  | state s | evttable s tb => cases howner
  | stKey s => exact absurd rfl (hkey s)
  | fsm | mobj | pqtable => simp [World.Owns]
  | sttable tb => cases tb <;> simp [World.Owns]
  | pqnode i j | pqdata i j => simp [World.Owns]

/-- The states that the iterator yields are registered and in memory. -/
theorem World.EntriesLoad.yielded {w : World A D} (h : w.EntriesLoad) {s : StateId}
    (hs : s ∈ w.sweepOrder) : ∃ st, w.states s = some st := by
  obtain ⟨n, hn, hdata⟩ := List.mem_filterMap.1 hs
  obtain ⟨s', rfl, hs'⟩ := h n (hasNode_of_mem_yielded hn)
  cases hdata
  exact Option.ne_none_iff_exists'.1 hs'

theorem Orderly.mem_swept {w : World A D} (h : Orderly w) {b : Block} {s : StateId}
    (howner : b.owner = some s) :
    b ∈ w.sweepOrder.flatMap (stateBlocks w.states) ↔ w.Owns b ∧ s ∈ w.sweepOrder := by
  have hself : b ∈ w.sweepOrder.flatMap (stateBlocks w.states) ↔
      s ∈ w.sweepOrder ∧ b ∈ stateBlocks w.states s := by
    rw [List.mem_flatMap]
    constructor
    · rintro ⟨s', hs', hb⟩
      have hsame := owner_of_mem_stateBlocks hb
      rw [howner, Option.some.injEq] at hsame
      exact hsame ▸ ⟨hs', hb⟩
    · exact fun hb ↦ ⟨s, hb⟩
  rw [hself, and_comm]
  apply and_congr_left
  intro hs
  obtain ⟨st, hst⟩ := h.entries.yielded hs
  have hregistered := w.sweepOrder_sublist.subset hs
  rw [mem_stateBlocks hst]
  cases b with
  | state s' =>
      cases howner
      simp [World.Owns, hregistered]
  | evttable s' tb =>
      cases howner
      simp [World.Owns, hregistered, hst]
  | _ => cases howner

theorem Orderly.mem_releasedBlocks {w : World A D} (h : Orderly w) (b : Block) :
    b ∈ w.releasedBlocks ↔ w.Owns b ∧ ∀ s, b.owner = some s → s ∈ w.sweepOrder := by
  rw [World.releasedBlocks, List.mem_append, List.mem_append, List.mem_map]
  cases howner : b.owner with
  | some s =>
      rw [h.mem_swept howner]
      constructor
      · rintro (hb | ⟨s', _, rfl⟩ | hmachine)
        · exact ⟨hb.1, fun _ heq ↦ Option.some.inj heq ▸ hb.2⟩
        · cases howner
        · rw [owner_of_mem_machineBlocks hmachine] at howner
          cases howner
      · exact fun hb ↦ .inl ⟨hb.1, hb.2 s rfl⟩
  | none =>
      have hnot : b ∉ w.sweepOrder.flatMap (stateBlocks w.states) := by
        intro hb
        obtain ⟨s, _, hs⟩ := owner_of_mem_swept hb
        rw [howner] at hs
        cases hs
      by_cases hkey : ∃ s, b = .stKey s
      · obtain ⟨s, rfl⟩ := hkey
        have hmachine : Block.stKey s ∉ machineBlocks w.fsm := by
          simp [machineBlocks, TableNames.mem_nodes, mem_pendingBlocks]
        simp [hnot, hmachine, World.Owns]
      · have hmachine := mem_machineBlocks w howner fun s heq ↦ hkey ⟨s, heq⟩
        have hkeys : ¬ ∃ s ∈ w.registered, Block.stKey s = b := by
          rintro ⟨s, _, heq⟩
          exact hkey ⟨s, heq.symm⟩
        simp [hnot, hkeys, hmachine]

/-- The states that the iterator misses are those of the last chain but the first one there. -/
theorem Orderly.registered_eq {w : World A D} (h : Orderly w) :
    w.registered = w.sweepOrder ++ (w.fsm.sttable.lastChain.drop 1).filterMap HNode.hnData := by
  have hindexed := h.accessible.sttable.toIndexed
  rw [World.registered, flatten_eq_yielded_append hindexed.htTable_ne_nil, List.filterMap_append,
    ← hindexed.lastChain_eq]
  rfl

theorem Orderly.all_yielded_iff {w : World A D} (h : Orderly w) (hnodup : w.registered.Nodup) :
    (∀ s ∈ w.registered, s ∈ w.sweepOrder) ↔ w.fsm.sttable.lastChain.length ≤ 1 := by
  have hsplit := h.registered_eq
  constructor
  · intro hall
    have hnone : w.fsm.sttable.lastChain.drop 1 = [] := by
      rw [List.eq_nil_iff_forall_not_mem]
      intro n hn
      have hmem : n ∈ w.fsm.sttable.htTable.flatten := by
        rw [flatten_eq_yielded_append h.accessible.sttable.toIndexed.htTable_ne_nil,
          ← h.accessible.sttable.toIndexed.lastChain_eq]
        exact List.mem_append_right _ hn
      obtain ⟨s, rfl, _⟩ := h.entries n hmem
      have hs : s ∈ (w.fsm.sttable.lastChain.drop 1).filterMap HNode.hnData :=
        List.mem_filterMap.2 ⟨_, hn, rfl⟩
      rw [hsplit] at hnodup hall
      exact (List.nodup_append.1 hnodup).2.2 s (hall s (List.mem_append_right _ hs)) s hs rfl
    exact List.drop_eq_nil_iff.1 hnone
  · intro hlast s hs
    rw [hsplit, List.drop_of_length_le hlast] at hs
    simpa using hs

theorem Orderly.fsmFree_eq_ok_iff {w : World A D} (h : Orderly w) (r : FsmRet)
    (freed : List Block) : fsmFree w = .ok (r, freed) ↔
      r = .ok ∧ w.registered.Nodup ∧ freed = w.releasedBlocks.reverse := by
  have hreleases := freeMachine_releases h.accessible h.entries h.heads
  rw [← w.nodup_releasedBlocks, ← hreleases.eq_ok_iff, fsmFree, Exec.bind_eq_ok]
  constructor
  · rintro ⟨freed', hrun, heq⟩
    cases heq
    exact ⟨rfl, hrun⟩
  · rintro ⟨rfl, hrun⟩
    exact ⟨freed, hrun, rfl⟩

/-- After any calls, `fsm_free` is defined just if no state is registered twice.  It then frees no
block twice, and leaves those of the states that the iterator misses. -/
theorem fsmFree_tearsDown {requests : Requests A} {w : World A Bytes} (h : Used requests w) :
    ((∃ r freed, fsmFree w = .ok (r, freed)) ↔ w.registered.Nodup) ∧
      ∀ r freed, fsmFree w = .ok (r, freed) → r = .ok ∧ TornDown w freed := by
  have horderly := h.orderly
  constructor
  · constructor
    · rintro ⟨r, freed, hrun⟩
      exact ((horderly.fsmFree_eq_ok_iff r freed).1 hrun).2.1
    · intro hnodup
      exact ⟨.ok, _, (horderly.fsmFree_eq_ok_iff _ _).2 ⟨rfl, hnodup, rfl⟩⟩
  · intro r freed hrun
    obtain ⟨rfl, hnodup, rfl⟩ := (horderly.fsmFree_eq_ok_iff r freed).1 hrun
    have hmem (b : Block) : b ∈ w.releasedBlocks.reverse ↔
        w.Owns b ∧ ∀ s, b.owner = some s → s ∈ w.sweepOrder := by
      rw [List.mem_reverse, horderly.mem_releasedBlocks]
    refine ⟨rfl, List.nodup_reverse.2 (w.nodup_releasedBlocks.2 hnodup), hmem, ?_⟩
    rw [← horderly.all_yielded_iff hnodup]
    constructor
    · intro hall s hs
      exact ((hmem (.state s)).1 (hall (.state s) hs)).2 s rfl
    · intro hall b hb
      refine (hmem b).2 ⟨hb, fun s howner ↦ hall s ?_⟩
      cases b with
      | state s' =>
          cases howner
          exact hb
      | evttable s' tb =>
          cases howner
          exact hb.1
      | _ => cases howner

/-- A machine whose table has one head. -/
def oneHeadFsm : Fsm Bytes := ⟨emptyTable 1 2, none, 1, [[]]⟩

/-- Two states are registered, which share the only chain. -/
def oneHeadCalls : List (Call ℕ Bytes) :=
  [.stateInit ⟨some 0, true, true, true⟩ 0 0 1 1, .stateInit ⟨some 1, true, true, true⟩ 0 0 1 1,
    .addState ⟨true, true⟩ 1 0, .addState ⟨true, true⟩ 2 1]

/-- The machine after the calls of `oneHeadCalls`. -/
def oneHeadWorld : World ℕ Bytes :=
  match performAll (start ℕ oneHeadFsm) oneHeadCalls with
  | .ok (_, w) => w
  | .error _ => start ℕ oneHeadFsm

/-- The state that was registered last is left behind, without its key. -/
theorem oneHead_tearsDown : ∃ w freed, Used (fun _ _ _ ↦ []) w ∧
    performQueue (fun _ _ _ ↦ []) oneHeadWorld (.queueEvent ⟨3, fun _ ↦ 1, 1, 0, true, true⟩) =
      .ok (⟨.ok, none⟩, w) ∧
    fsmFree w = .ok (.ok, freed) ∧ TornDown w freed ∧
      Block.pqdata 0 0 ∈ freed ∧ Block.stKey 1 ∈ freed ∧
      w.Owns (.state 1) ∧ Block.state 1 ∉ freed := by
  have hinit : fsmInit ⟨true, true, true, true, true⟩ 1 2 1 = .ok (.ok, some oneHeadFsm) := rfl
  have hstart : Used (fun _ _ _ ↦ []) (start ℕ oneHeadFsm) := .init (by decide) hinit
  have hfirst := hstart.call (c := .stateInit ⟨some 0, true, true, true⟩ 0 0 1 1) Nat.one_pos rfl
  have hsecond := hfirst.call (c := .stateInit ⟨some 1, true, true, true⟩ 0 0 1 1) Nat.one_pos rfl
  have hadded := hsecond.call (c := .addState ⟨true, true⟩ 1 0) trivial rfl
  have hboth := hadded.call (c := .addState ⟨true, true⟩ 2 1) trivial rfl
  have hqueued := hboth.queueCall (c := .queueEvent ⟨3, fun _ ↦ 1, 1, 0, true, true⟩) rfl
  obtain ⟨hdefined, htorn⟩ := fsmFree_tearsDown hqueued
  obtain ⟨r, freed, hrun⟩ := hdefined.2 (by decide)
  obtain ⟨rfl, hdown⟩ := htorn r freed hrun
  refine ⟨_, freed, hqueued, rfl, hrun, hdown, ?_, ?_, ?_, ?_⟩
  · exact (hdown.mem_iff _).2 ⟨⟨_, mem_slots.2 ⟨by decide, rfl⟩⟩, fun s hs ↦ by cases hs⟩
  · apply (hdown.mem_iff _).2
    exact ⟨show (1 : StateId) ∈ World.registered _ by decide, fun s hs ↦ by cases hs⟩
  · exact show (1 : StateId) ∈ World.registered _ by decide
  · intro hmem
    exact absurd (((hdown.mem_iff _).1 hmem).2 1 rfl) (by decide)

end Experimentation.StateMachine
