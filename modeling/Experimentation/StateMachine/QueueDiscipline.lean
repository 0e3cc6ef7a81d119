import Experimentation.Semantics.PriorityFifo
import Experimentation.StateMachine.Built
import Experimentation.StateMachine.Queue

/-!
# The discipline of the priority queues

Pending events are a list, in the order in which they were queued, and the queues are its
distribution over the priorities.  `fsm_dequeue_event` hands the next event to `fsm_process_event`
and removes whatever is at the head of its queue afterwards.  Events that are queued in between go
to the ends of their queues, so that the head is still the event that was handed over.
-/

open scoped List

namespace Experimentation.StateMachine

open Semantics HashTable Buckets PriorityFifo

variable {A D : Type}

/-! ## Pending events -/

/-- The number of the queue of a node. -/
def PqNode.queue (n : PqNode D) : ℕ := n.prio.toNat

/-- The machine with other pending events. -/
def World.withPending (w : World A D) (p : List (PqNode D)) : World A D :=
  { w with fsm := { w.fsm with pqtable := layout PqNode.queue w.fsm.nqueues.toNat p } }

/-- The queues hold the events of the list, in the order in which they were queued. -/
structure Pending (w : World A D) (p : List (PqNode D)) : Prop where
  table : w.fsm.pqtable = layout PqNode.queue w.fsm.nqueues.toNat p
  queue_lt : ∀ n ∈ p, n.queue < w.fsm.nqueues.toNat

theorem queueAt_layout {size i : ℕ} {p : List (PqNode D)} (hi : i < size) :
    queueAt (layout PqNode.queue size p) i = .ok (chain PqNode.queue p i) := by
  rw [queueAt, layout_getElem? hi]

namespace Pending

variable {w : World A D} {p : List (PqNode D)} (h : Pending w p)
include h

theorem withPending_self : w.withPending p = w := by
  rw [World.withPending, ← h.table]

theorem queueAt_eq {i : ℕ} (hi : i < w.fsm.nqueues.toNat) :
    queueAt w.fsm.pqtable i = .ok (chain PqNode.queue p i) := by
  rw [h.table, queueAt_layout hi]

theorem append {q : List (PqNode D)} (hq : ∀ n ∈ q, n.queue < w.fsm.nqueues.toNat) :
    Pending (w.withPending (p ++ q)) (p ++ q) where
  table := rfl
  queue_lt n hn := (List.mem_append.1 hn).elim (h.queue_lt n) (hq n)

end Pending

theorem Pending.fsmGetQueuedEvents_eq {w : World A D} {p : List (PqNode D)} (h : Pending w p) :
    fsmGetQueuedEvents w = .ok (wrapSize p.length) := by
  have hfold : ∀ (is : List ℕ), (∀ i ∈ is, i < w.fsm.nqueues.toNat) → ∀ m : ℕ,
      is.foldlM (fun total i ↦ do
        let queue ← queueAt w.fsm.pqtable i
        return queue.foldl (fun total _ ↦ wrapSize (total + 1)) total) (wrapSize m) =
      (.ok (wrapSize (m + (is.map (chain PqNode.queue p)).flatten.length)) : Exec ℕ) := by
    intro is
    induction is with
    | nil => exact fun _ m ↦ rfl
    | cons i is ih =>
        intro his m
        have hrest := ih fun j hj ↦ his j (List.mem_cons_of_mem _ hj)
        rw [List.foldlM_cons, h.queueAt_eq (his i List.mem_cons_self), Exec.ok_bind,
          Exec.pure_eq_ok, Exec.ok_bind, foldl_wrapSize, hrest, List.map_cons, List.flatten_cons,
          List.length_append, Nat.add_assoc]
  have hall := hfold (List.range w.fsm.nqueues.toNat) (fun i hi ↦ List.mem_range.1 hi) 0
  have hlength : (layout PqNode.queue w.fsm.nqueues.toNat p).flatten.length = p.length :=
    (flatten_layout_perm h.queue_lt).length_eq
  rw [layout] at hlength
  rw [hlength, Nat.zero_add] at hall
  exact hall

/-- The node that a request adds when it is not refused. -/
def Request.node? (nqueues : UInt32) (q : Request) : Option (PqNode Bytes) :=
  if q.prio < nqueues ∧ q.mallocNode = true ∧ q.mallocData = true then
    some ⟨memcpy q.pdata q.size, q.evtkey, q.prio⟩
  else none

theorem queue_lt_of_node? {nqueues : UInt32} {q : Request} {n : PqNode Bytes}
    (h : q.node? nqueues = some n) : n.queue < nqueues.toNat := by
  unfold Request.node? at h
  split at h
  · rename_i hok
    cases h
    exact UInt32.lt_iff_toNat_lt.1 hok.1
  · cases h

section Queueing

variable {w : World A Bytes} {p : List (PqNode Bytes)}

theorem fsmQueueEvent_refused {q : Request} (h : q.node? w.fsm.nqueues = none) :
    ∃ r, (r = .eprio ∨ r = .enomem) ∧ fsmQueueEvent w q = .ok (r, w) := by
  unfold fsmQueueEvent
  split
  · exact ⟨_, .inl rfl, rfl⟩
  · rename_i hprio
    split
    · exact ⟨_, .inr rfl, rfl⟩
    · rename_i hnode
      split
      · exact ⟨_, .inr rfl, rfl⟩
      · rename_i hdata
        have hok : q.prio < w.fsm.nqueues ∧ q.mallocNode = true ∧ q.mallocData = true :=
          ⟨UInt32.not_le.1 hprio, by simpa using hnode, by simpa using hdata⟩
        rw [Request.node?, if_pos hok] at h
        cases h

theorem Pending.fsmQueueEvent_accepted (hp : Pending w p) {q : Request} {n : PqNode Bytes}
    (h : q.node? w.fsm.nqueues = some n) :
    fsmQueueEvent w q = .ok (.ok, w.withPending (p ++ [n])) := by
  have hlt := queue_lt_of_node? h
  unfold Request.node? at h
  split at h
  · rename_i hok
    obtain ⟨hprio, hnode, hdata⟩ := hok
    cases h
    have hqueue := hp.queueAt_eq hlt
    rw [fsmQueueEvent, if_neg (UInt32.not_le.2 hprio), hnode, hdata]
    change (queueAt w.fsm.pqtable q.prio.toNat >>= fun _ ↦ _) >>= _ = _
    rw [PqNode.queue] at hqueue
    rw [hqueue, Exec.ok_bind, hp.table]
    dsimp only [Exec.pure_eq_ok]
    rw [Exec.ok_bind, World.withPending, ← modify_append]
    rfl
  · cases h

theorem Pending.queueAll_eq (hp : Pending w p) (qs : List Request) :
    queueAll w qs = .ok (w.withPending (p ++ qs.filterMap (Request.node? w.fsm.nqueues))) ∧
      Pending (w.withPending (p ++ qs.filterMap (Request.node? w.fsm.nqueues)))
        (p ++ qs.filterMap (Request.node? w.fsm.nqueues)) := by
  induction qs generalizing w p with
  | nil =>
      rw [List.filterMap_nil, List.append_nil, hp.withPending_self]
      exact ⟨rfl, hp⟩
  | cons q qs ih =>
      unfold queueAll at ih ⊢
      rw [List.foldlM_cons]
      cases hnode : q.node? w.fsm.nqueues with
      | none =>
          obtain ⟨r, _, hrefused⟩ := fsmQueueEvent_refused hnode
          rw [hrefused, List.filterMap_cons_none hnode]
          exact ih hp
      | some n =>
          have hstep := hp.append (q := [n]) fun m hm ↦ by
            rw [List.mem_singleton.1 hm]
            exact queue_lt_of_node? hnode
          rw [hp.fsmQueueEvent_accepted hnode, List.filterMap_cons_some hnode,
            List.append_cons p n (qs.filterMap _)]
          exact ih hstep

end Queueing

/-! ## Handing an event over -/

/-- The function that an event calls in the current state. -/
def World.actionOf (w : World A D) (evtkey : UInt32) : Exec (Option A) := do
  let st ← w.currentState
  match ← htableSearch stateCallbacks st.evttable evtkey with
  | none => return none
  | some pevt => return pevt.evtActionf

/-- The requests that are made while an event is processed. -/
def World.nested (requests : Requests A) (w : World A Bytes)
    (evtkey : UInt32) (data : Bytes) : List Request :=
  match w.actionOf evtkey with
  | .ok (some f) => requests f data { w with trace := w.trace ++ [(f, data)] }
  | _ => []

/-- The events that are queued while an event is processed. -/
def World.accepted (requests : Requests A) (w : World A Bytes)
    (evtkey : UInt32) (data : Bytes) : List (PqNode Bytes) :=
  (w.nested requests evtkey data).filterMap (Request.node? w.fsm.nqueues)

/-- A machine on which events can be queued and served. -/
structure Ready (w : World A D) (p : List (PqNode D)) : Prop extends Pending w p where
  accessible : Accessible w
  cstate : w.fsm.cstate ≠ none
  nqueues_pos : 0 < w.fsm.nqueues.toNat

section Process

variable {w : World A Bytes} {p : List (PqNode Bytes)} (requests : Requests A)

/-- The machine after its current state and its history have changed. -/
def World.moved (w : World A D) (cstate : Option StateId) (trace : List (A × D)) : World A D :=
  { w with fsm := { w.fsm with cstate := cstate }, trace := trace }

theorem Ready.moved (h : Ready w p) {cstate : Option StateId} (trace : List (A × Bytes))
    (hcstate : ∃ s, cstate = some s ∧ w.states s ≠ none) : Ready (w.moved cstate trace) p where
  table := h.table
  queue_lt := h.queue_lt
  accessible := by
    refine ⟨h.accessible.sttable, h.accessible.evttable, h.accessible.targets, fun s hs ↦ ?_⟩
    obtain ⟨s', heq, hs'⟩ := hcstate
    cases heq.symm.trans hs
    exact hs'
  cstate := by
    obtain ⟨s, heq, _⟩ := hcstate
    rw [World.moved, heq]
    exact Option.some_ne_none s
  nqueues_pos := h.nqueues_pos

theorem Ready.withPending (h : Ready w p) {q : List (PqNode Bytes)}
    (hq : ∀ n ∈ q, n.queue < w.fsm.nqueues.toNat) : Ready (w.withPending q) q where
  table := rfl
  queue_lt := hq
  accessible := ⟨h.accessible.sttable, h.accessible.evttable, h.accessible.targets,
    h.accessible.cstate⟩
  cstate := h.cstate
  nqueues_pos := h.nqueues_pos

theorem accepted_queue_lt {evtkey : UInt32} {data : Bytes} :
    ∀ n ∈ w.accepted requests evtkey data, n.queue < w.fsm.nqueues.toNat := by
  intro n hn
  obtain ⟨q, _, hnode⟩ := List.mem_filterMap.1 hn
  exact queue_lt_of_node? hnode

theorem Ready.callAction_eq (h : Ready w p) {evtkey : UInt32} {evtActionf : Option A}
    (haction : w.actionOf evtkey = .ok evtActionf) (data : Bytes) :
    ∃ trace, callAction (queueing requests) evtActionf data w =
      .ok ((w.moved w.fsm.cstate trace).withPending (p ++ w.accepted requests evtkey data)) := by
  rw [World.accepted, World.nested, haction]
  cases evtActionf with
  | none =>
      refine ⟨w.trace, ?_⟩
      rw [List.filterMap_nil, List.append_nil, World.moved, h.withPending_self]
      rfl
  | some f =>
      have hlonger : Pending (w.moved w.fsm.cstate (w.trace ++ [(f, data)])) p :=
        ⟨h.table, h.queue_lt⟩
      exact ⟨_, (hlonger.queueAll_eq _).1⟩

/-- Processing an event puts the accepted events behind the pending ones, and leaves nothing else
but another current state and a longer history. -/
theorem Ready.fsmProcessEvent_eq (h : Ready w p) (evtkey : UInt32) (data : Bytes) :
    ∃ r cstate trace, (∃ s, cstate = some s ∧ w.states s ≠ none) ∧
      fsmProcessEvent (queueing requests) w evtkey data = .ok (r,
        (w.moved cstate trace).withPending (p ++ w.accepted requests evtkey data)) := by
  obtain ⟨s, hs⟩ := Option.ne_none_iff_exists'.1 h.cstate
  have hmem := h.accessible.cstate s hs
  have hstay : ∃ s', w.fsm.cstate = some s' ∧ w.states s' ≠ none := ⟨s, hs, hmem⟩
  obtain ⟨st, hst⟩ := Option.ne_none_iff_exists'.1 hmem
  have hload := World.currentState_eq hs hst
  obtain ⟨found, hsearch⟩ :=
    (h.accessible.evttable s st hst).exists_htableSearch stateCallbacks evtkey
  cases found with
  | none =>
      have haction : w.actionOf evtkey = .ok none := by
        rw [World.actionOf, hload, Exec.ok_bind, hsearch]
        rfl
      refine ⟨.enotfound, w.fsm.cstate, w.trace, hstay, ?_⟩
      rw [World.accepted, World.nested, haction, List.filterMap_nil, List.append_nil,
        World.moved, h.withPending_self, fsmProcessEvent, hload, Exec.ok_bind, hsearch]
      rfl
  | some ev =>
      have haction : w.actionOf evtkey = .ok ev.evtActionf := by
        rw [World.actionOf, hload, Exec.ok_bind, hsearch]
        rfl
      obtain ⟨trace, hcall⟩ := h.callAction_eq requests haction data
      rw [fsmProcessEvent, hload, Exec.ok_bind, hsearch, Exec.ok_bind]
      dsimp only
      rw [hcall, Exec.ok_bind]
      cases htarget : ev.evtNewstate with
      | none => exact ⟨.enotfound, w.fsm.cstate, trace, hstay, rfl⟩
      | some t =>
          have ht := h.accessible.target_ne_none hst hsearch htarget
          obtain ⟨new, hnew⟩ := Option.ne_none_iff_exists'.1 ht
          obtain ⟨registered, hfound⟩ :=
            h.accessible.sttable.exists_htableSearch (fsmCallbacks w.states) (.stKey t)
          dsimp only
          change ∃ r cstate trace', _ ∧ (loadState w.states t >>= fun _ ↦
            htableSearch (fsmCallbacks w.states).toCallbacks w.fsm.sttable (.stKey t) >>= _) = _
          rw [loadState_eq hnew, Exec.ok_bind, hfound, Exec.ok_bind]
          cases registered with
          | none => exact ⟨.enotfound, w.fsm.cstate, trace, hstay, rfl⟩
          | some _ => exact ⟨.ok, some t, trace, ⟨t, rfl, ht⟩, rfl⟩

/-- What the removal after an event was handed over leaves: the pending events without that one,
and those that came in the meantime. -/
theorem Ready.serveHead_eq (h : Ready w p) {i : ℕ} (hi : i < w.fsm.nqueues.toNat)
    (hhigher : ∀ j, i < j → j < w.fsm.nqueues.toNat → chain PqNode.queue p j = [])
    {n : PqNode Bytes} {behind : List (PqNode Bytes)}
    (hchain : chain PqNode.queue p i = n :: behind)
    (next : Exec (FsmRet × Option (PqNode Bytes) × World A Bytes)) :
    ∃ rest r w₁, IsNext PqNode.queue p n rest ∧
      fsmProcessEvent (queueing requests) w n.evtkey n.data = .ok (r, w₁) ∧
      serveHead (queueing requests) w i next = .ok (.ok, some n,
        w₁.withPending (rest ++ w.accepted requests n.evtkey n.data)) ∧
      Ready (w₁.withPending (rest ++ w.accepted requests n.evtkey n.data))
        (rest ++ w.accepted requests n.evtkey n.data) := by
  obtain ⟨rest, hnext, hremove⟩ := isNext_of_chain h.queue_lt hhigher hchain
  obtain ⟨r, cstate, trace, hcstate, hprocess⟩ :=
    h.fsmProcessEvent_eq requests n.evtkey n.data
  have hrest : ∀ m ∈ rest ++ w.accepted requests n.evtkey n.data,
      m.queue < w.fsm.nqueues.toNat := fun m hm ↦
    (List.mem_append.1 hm).elim
      (fun hold ↦ h.queue_lt m (hnext.perm.mem_iff.2 (List.mem_cons_of_mem _ hold)))
      (accepted_queue_lt requests m)
  refine ⟨rest, r, _, hnext, hprocess, ?_, (h.moved trace hcstate).withPending hrest⟩
  -- the head of the queue is still the event that was handed over
  have hhead : queueAt (layout PqNode.queue w.fsm.nqueues.toNat
      (p ++ w.accepted requests n.evtkey n.data)) i =
      .ok (n :: (behind ++ chain PqNode.queue (w.accepted requests n.evtkey n.data) i)) := by
    rw [queueAt_layout hi, chain_append, hchain, List.cons_append]
  rw [serveHead, h.queueAt_eq hi, hchain, Exec.ok_bind]
  dsimp only
  rw [hprocess, Exec.ok_bind]
  change (queueAt _ i >>= _) >>= _ = _
  rw [World.withPending]
  dsimp only [World.moved]
  rw [hhead, Exec.ok_bind]
  change Except.ok (FsmRet.ok, some n, _) = _
  rw [hremove]
  rfl

theorem Ready.serveFrom_spec (h : Ready w p) {i : ℕ} (hi : i < w.fsm.nqueues.toNat)
    (hhigher : ∀ j, i < j → j < w.fsm.nqueues.toNat → chain PqNode.queue p j = []) :
    (p = [] ∧ serveFrom (queueing requests) w i = .ok (.empty, none, w)) ∨
    ∃ n rest r w₁, IsNext PqNode.queue p n rest ∧
      fsmProcessEvent (queueing requests) w n.evtkey n.data = .ok (r, w₁) ∧
      serveFrom (queueing requests) w i = .ok (.ok, some n,
        w₁.withPending (rest ++ w.accepted requests n.evtkey n.data)) ∧
      Ready (w₁.withPending (rest ++ w.accepted requests n.evtkey n.data))
        (rest ++ w.accepted requests n.evtkey n.data) := by
  induction i with
  | zero =>
      cases hchain : chain PqNode.queue p 0 with
      | nil =>
          left
          constructor
          · apply eq_nil_of_chains h.queue_lt
            intro j hj
            rcases Nat.eq_zero_or_pos j with heq | hpos
            · rw [heq, hchain]
            · exact hhigher j hpos hj
          · rw [serveFrom, serveHead, h.queueAt_eq hi, hchain]
            rfl
      | cons n behind => exact .inr ⟨n, h.serveHead_eq requests hi hhigher hchain _⟩
  | succ i ih =>
      cases hchain : chain PqNode.queue p (i + 1) with
      | nil =>
          have hbelow : ∀ j, i < j → j < w.fsm.nqueues.toNat → chain PqNode.queue p j = [] := by
            intro j hij hj
            rcases Nat.eq_or_lt_of_le (Nat.succ_le_of_lt hij) with heq | hlt
            · rw [← heq]
              exact hchain
            · exact hhigher j hlt hj
          have hskip : serveFrom (queueing requests) w (i + 1) =
              serveFrom (queueing requests) w i := by
            rw [serveFrom, serveHead, h.queueAt_eq hi, hchain]
            rfl
          rw [hskip]
          exact ih (Nat.lt_of_succ_lt hi) hbelow
      | cons n behind => exact .inr ⟨n, h.serveHead_eq requests hi hhigher hchain _⟩

end Process

/-! ## Runs -/

/-- What a call does to a machine with the pending events `p`: its outcome, the events that it
accepts, also from the function that an event calls, and the machine and the pending events after
it. -/
inductive Serves (requests : Requests A) (w : World A Bytes)
    (p : List (PqNode Bytes)) : QueueCall → Outcome Bytes → List (PqNode Bytes) →
      World A Bytes → List (PqNode Bytes) → Prop
  /-- A refused request changes nothing. -/
  | refused {q : Request} {r : FsmRet} (hnode : q.node? w.fsm.nqueues = none)
      (hr : r = .eprio ∨ r = .enomem) : Serves requests w p (.queueEvent q) ⟨r, none⟩ [] w p
  /-- An accepted request is the last one that is pending. -/
  | queued {q : Request} {n : PqNode Bytes} (hnode : q.node? w.fsm.nqueues = some n) :
      Serves requests w p (.queueEvent q) ⟨.ok, none⟩ [n] (w.withPending (p ++ [n])) (p ++ [n])
  /-- Nothing is pending. -/
  | empty (hp : p = []) : Serves requests w p .dequeueEvent ⟨.empty, none⟩ [] w p
  /-- The next event is handed over, and it alone is removed. -/
  | handed {n : PqNode Bytes} {rest : List (PqNode Bytes)} {r : FsmRet} {w₁ : World A Bytes}
      (hnext : IsNext PqNode.queue p n rest)
      (hprocess : fsmProcessEvent (queueing requests) w n.evtkey n.data = .ok (r, w₁)) :
      Serves requests w p .dequeueEvent ⟨.ok, some n⟩ (w.accepted requests n.evtkey n.data)
        (w₁.withPending (rest ++ w.accepted requests n.evtkey n.data))
        (rest ++ w.accepted requests n.evtkey n.data)

/-- What the calls of a list do in turn. -/
inductive ServesAll (requests : Requests A) :
    World A Bytes → List (PqNode Bytes) → List QueueCall → List (Outcome Bytes) →
      List (PqNode Bytes) → World A Bytes → List (PqNode Bytes) → Prop
  | nil (w : World A Bytes) (p : List (PqNode Bytes)) : ServesAll requests w p [] [] [] w p
  | cons {w w₁ w' : World A Bytes} {p p₁ p' accepted later : List (PqNode Bytes)} {c : QueueCall}
      {cs : List QueueCall} {o : Outcome Bytes} {os : List (Outcome Bytes)}
      (hfirst : Serves requests w p c o accepted w₁ p₁)
      (hrest : ServesAll requests w₁ p₁ cs os later w' p') :
      ServesAll requests w p (c :: cs) (o :: os) (accepted ++ later) w' p'

/-- The number of calls of `fsm_dequeue_event` that returned `FSM_OK`. -/
def okDequeues : List QueueCall → List (Outcome Bytes) → ℕ
  | .dequeueEvent :: cs, o :: os => (if o.ret = .ok then 1 else 0) + okDequeues cs os
  | .queueEvent _ :: cs, _ :: os => okDequeues cs os
  | _, _ => 0

section Runs

variable {requests : Requests A} {w w' : World A Bytes}
  {p p' accepted : List (PqNode Bytes)}

/-- Events are neither lost nor made up by a call, and none is handed over that stays pending. -/
theorem Serves.perm {c : QueueCall} {o : Outcome Bytes} (h : Serves requests w p c o accepted w' p') :
    p ++ accepted ~ o.handed.toList ++ p' := by
  cases h with
  | refused hnode hr => simp
  | queued hnode => simp
  | empty hp => simp
  | @handed n rest r w₁ hnext hprocess => exact hnext.perm.append_right _

theorem ServesAll.perm {calls : List QueueCall} {outcomes : List (Outcome Bytes)}
    (h : ServesAll requests w p calls outcomes accepted w' p') :
    p ++ accepted ~ outcomes.filterMap Outcome.handed ++ p' := by
  induction h with
  | nil w p => simp
  | @cons w w₁ w' p p₁ p' accepted later c cs o os hfirst hrest ih =>
      have hhanded : (o :: os).filterMap Outcome.handed =
          o.handed.toList ++ os.filterMap Outcome.handed := by
        cases hh : o.handed with
        | none => rw [List.filterMap_cons_none hh]; rfl
        | some n => rw [List.filterMap_cons_some hh]; rfl
      calc
        p ++ (accepted ++ later) = p ++ accepted ++ later := (List.append_assoc ..).symm
        _ ~ o.handed.toList ++ p₁ ++ later := hfirst.perm.append_right later
        _ = o.handed.toList ++ (p₁ ++ later) := List.append_assoc ..
        _ ~ o.handed.toList ++ (os.filterMap Outcome.handed ++ p') := ih.append_left _
        _ = (o :: os).filterMap Outcome.handed ++ p' := by rw [hhanded, List.append_assoc]

theorem ServesAll.length_handed {calls : List QueueCall} {outcomes : List (Outcome Bytes)}
    (h : ServesAll requests w p calls outcomes accepted w' p') :
    (outcomes.filterMap Outcome.handed).length = okDequeues calls outcomes := by
  induction h with
  | nil w p => rfl
  | cons hfirst hrest ih =>
      cases hfirst with
      | refused hnode hr => exact ih
      | queued hnode => exact ih
      | empty hp =>
          rw [okDequeues, ← ih, if_neg (by decide), Nat.zero_add]
          rfl
      | handed hnext hprocess =>
          rw [okDequeues, ← ih, if_pos rfl, Nat.add_comm]
          rfl

theorem Ready.performQueue_spec (h : Ready w p) (requests : Requests A) (c : QueueCall) :
    ∃ o accepted w' p', performQueue requests w c = .ok (o, w') ∧
      Serves requests w p c o accepted w' p' ∧ Ready w' p' := by
  cases c with
  | queueEvent q =>
      cases hnode : q.node? w.fsm.nqueues with
      | none =>
          obtain ⟨r, hr, hrefused⟩ := fsmQueueEvent_refused hnode
          refine ⟨_, _, w, p, ?_, .refused hnode hr, h⟩
          rw [performQueue, hrefused]
          rfl
      | some n =>
          have hlt : ∀ m ∈ p ++ [n], m.queue < w.fsm.nqueues.toNat := fun m hm ↦
            (List.mem_append.1 hm).elim (h.queue_lt m) fun hlast ↦
              List.mem_singleton.1 hlast ▸ queue_lt_of_node? hnode
          refine ⟨_, _, _, _, ?_, .queued hnode, h.withPending hlt⟩
          rw [performQueue, h.fsmQueueEvent_accepted hnode]
          rfl
  | dequeueEvent =>
      have hpos := h.nqueues_pos
      have hone : (1 : UInt32) ≤ w.fsm.nqueues := UInt32.le_iff_toNat_le.2 hpos
      have hlast : (w.fsm.nqueues - 1).toNat = w.fsm.nqueues.toNat - 1 :=
        UInt32.toNat_sub_of_le _ _ hone
      have hlt : (w.fsm.nqueues - 1).toNat < w.fsm.nqueues.toNat := by omega
      have hhigher : ∀ j, (w.fsm.nqueues - 1).toNat < j → j < w.fsm.nqueues.toNat →
          chain PqNode.queue p j = [] := fun j hj hj' ↦ by omega
      rcases h.serveFrom_spec requests hlt hhigher with
        ⟨hp, hserve⟩ | ⟨n, rest, r, w₁, hnext, hprocess, hserve, hready⟩
      · refine ⟨_, _, w, p, ?_, .empty hp, h⟩
        rw [performQueue, fsmDequeueEvent, hserve]
        rfl
      · refine ⟨_, _, _, _, ?_, .handed hnext hprocess, hready⟩
        rw [performQueue, fsmDequeueEvent, hserve]
        rfl

theorem Ready.performQueueAll_spec (h : Ready w p) (requests : Requests A)
    (calls : List QueueCall) :
    ∃ outcomes accepted w' p', performQueueAll requests w calls = .ok (outcomes, w') ∧
      ServesAll requests w p calls outcomes accepted w' p' ∧ Ready w' p' := by
  induction calls generalizing w p with
  | nil => exact ⟨_, _, w, p, rfl, .nil w p, h⟩
  | cons c calls ih =>
      obtain ⟨o, accepted, w₁, p₁, hstep, hserves, hready⟩ := h.performQueue_spec requests c
      obtain ⟨os, later, w', p', hrun, hrest, hready'⟩ := ih hready
      refine ⟨_, _, w', p', ?_, .cons hserves hrest, hready'⟩
      rw [performQueueAll, hstep, Exec.ok_bind]
      change (performQueueAll requests w₁ calls >>= fun r ↦ .ok (o :: r.1, r.2)) = _
      rw [hrun, Exec.ok_bind]

/-- What holds after any calls on the queues of a machine: events were served one by one in the
order of their priorities, every accepted event was handed over once or is still pending, and the
number of queued events is the number of accepted ones less that of the calls that served one. -/
structure Discipline (requests : Requests A) (w : World A Bytes)
    (calls : List QueueCall) (outcomes : List (Outcome Bytes)) (accepted : List (PqNode Bytes))
    (w' : World A Bytes) (p : List (PqNode Bytes)) : Prop where
  serves : ServesAll requests w [] calls outcomes accepted w' p
  pending : Pending w' p
  exactlyOnce : accepted ~ outcomes.filterMap Outcome.handed ++ p
  queued : p.length < sizeModulus →
    fsmGetQueuedEvents w' = .ok (accepted.length - okDequeues calls outcomes)

theorem Built.ready (h : Built w) (hnqueues : 1 ≤ w.fsm.nqueues) (hcstate : w.fsm.cstate ≠ none) :
    Ready w [] where
  table := by rw [h.queues_empty, layout_nil]
  queue_lt _ hn := absurd hn List.not_mem_nil
  accessible := h.accessible
  cstate := hcstate
  nqueues_pos := UInt32.le_iff_toNat_le.1 hnqueues

/-- All calls on the queues of a machine keep the discipline, whatever the functions that events
call request. -/
theorem performQueueAll_discipline (hbuilt : Built w) (hnqueues : 1 ≤ w.fsm.nqueues)
    (hcstate : w.fsm.cstate ≠ none) (requests : Requests A)
    (calls : List QueueCall) :
    ∃ outcomes accepted w' p, performQueueAll requests w calls = .ok (outcomes, w') ∧
      Discipline requests w calls outcomes accepted w' p := by
  obtain ⟨outcomes, accepted, w', p, hrun, hserves, hready⟩ :=
    (hbuilt.ready hnqueues hcstate).performQueueAll_spec requests calls
  have hperm : accepted ~ outcomes.filterMap Outcome.handed ++ p := hserves.perm
  refine ⟨outcomes, accepted, w', p, hrun, hserves, hready.toPending, hperm, fun hroom ↦ ?_⟩
  have hlength := hperm.length_eq
  rw [List.length_append, hserves.length_handed] at hlength
  rw [hready.fsmGetQueuedEvents_eq, wrapSize_of_lt hroom, hlength, Nat.add_sub_cancel_left]

end Runs

/-- A machine with two priorities. -/
def relayFsm : Fsm Bytes := ⟨emptyTable 2 1, none, 2, [[], []]⟩

/-- One state with an event that leads back to it and calls a function. -/
def relayCalls : List (Call ℕ Bytes) :=
  [.stateInit ⟨some 0, true, true, true⟩ 0 0 1 1,
    .stateAddEvt ⟨true, true, ⟨true, true⟩⟩ 0 3 [] (some 9) (some 0),
    .addState ⟨true, true⟩ 5 0, .setState 5]

/-- The machine after the calls of `relayCalls`. -/
def relayWorld : World ℕ Bytes :=
  match performAll (start ℕ relayFsm) relayCalls with
  | .ok (_, w) => w
  | .error _ => start ℕ relayFsm

theorem relayWorld_built : Built relayWorld := by
  have hinit : fsmInit ⟨true, true, true, true, true⟩ 2 1 2 = .ok (.ok, some relayFsm) := rfl
  have hsize : 0 < 1 := Nat.one_pos
  have hstart : Built (start ℕ relayFsm) := .init (by decide) hinit
  have hstate := hstart.call (c := .stateInit ⟨some 0, true, true, true⟩ 0 0 1 1) hsize rfl
  have hevent := hstate.call (c := .stateAddEvt ⟨true, true, ⟨true, true⟩⟩ 0 3 [] (some 9) (some 0))
    (fun t ht ↦ by cases ht; exact Option.some_ne_none _) rfl
  have hadded := hevent.call (c := .addState ⟨true, true⟩ 5 0) trivial rfl
  exact hadded.call (c := .setState 5) trivial rfl

/-- The function requests three more events when it is given the byte `1`: one with the lower
priority, one with the higher, and one with a priority that there is no queue for. -/
def relayRequests : Requests ℕ := fun _ data _ ↦
  if data = [1] then
    [⟨3, fun _ ↦ 2, 1, 0, true, true⟩, ⟨3, fun _ ↦ 3, 1, 1, true, true⟩,
      ⟨3, fun _ ↦ 4, 1, 2, true, true⟩]
  else []

/-- An event is queued and served until nothing is pending. -/
def relayRun : List QueueCall :=
  [.queueEvent ⟨3, fun _ ↦ 1, 1, 0, true, true⟩, .dequeueEvent, .dequeueEvent, .dequeueEvent,
    .dequeueEvent]

/-- The event that was queued last by the function of the first one is served before the other. -/
theorem relayRun_discipline : ∃ outcomes accepted w' p,
    performQueueAll relayRequests relayWorld relayRun = .ok (outcomes, w') ∧
      outcomes.map Outcome.handed =
        [none, some ⟨[1], 3, 0⟩, some ⟨[3], 3, 1⟩, some ⟨[2], 3, 0⟩, none] ∧
      Discipline relayRequests relayWorld relayRun outcomes accepted w' p := by
  obtain ⟨outcomes, accepted, w', p, hrun, hdiscipline⟩ :=
    performQueueAll_discipline relayWorld_built (by decide) (by decide) relayRequests relayRun
  have hhanded : (performQueueAll relayRequests relayWorld relayRun).map
      (fun r ↦ r.1.map Outcome.handed) =
      .ok [none, some ⟨[1], 3, 0⟩, some ⟨[3], 3, 1⟩, some ⟨[2], 3, 0⟩, none] := by
    decide
  rw [hrun] at hhanded
  exact ⟨outcomes, accepted, w', p, hrun, Except.ok.inj hhanded, hdiscipline⟩

end Experimentation.StateMachine
