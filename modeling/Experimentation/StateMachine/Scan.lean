import Experimentation.StateMachine.QueueDiscipline

/-!
# The indices of the priority queues

The loop of `fsm_dequeue_event` counts an `unsigned int` down and tests it before it is counted
down.  It starts at the highest priority, which is the largest `unsigned int` when there are no
queues at all.  With a queue to start from, every index is that of a queue, each queue is looked at
once at most, and the loop ends after the queue of the lowest priority.
-/

open scoped List

namespace Experimentation.StateMachine

open Semantics HashTable Buckets PriorityFifo

variable {A D : Type}

/-- The loop of `fsm_dequeue_event` up to the first event, for a number of turns: the indices that
are used, and the event.  The index is compared with zero before it is counted down. -/
def scan (pqtable : List (List (PqNode D))) :
    (turns : ℕ) → (i : UInt32) → Exec (List UInt32 × Option (PqNode D))
  | 0, _ => throw .outOfFuel
  | turns + 1, i => do
      match ← queueAt pqtable i.toNat with
      | pnode :: _ => return ([i], some pnode)
      | [] =>
          if i ≠ 0 then do
            let (visited, found) ← scan pqtable turns (i - 1)
            return (i :: visited, found)
          else
            return ([i], none)

/-- The loop ends.  It looks at the queues from that of the highest priority down, each of them once
at most, and at all of them if it finds nothing. -/
def World.ScansDown (w : World A D) : Prop :=
  ∃ turns visited found, scan w.fsm.pqtable turns (w.fsm.nqueues - 1) = .ok (visited, found) ∧
    visited.map UInt32.toNat <+: (List.range w.fsm.nqueues.toNat).reverse ∧
    (found = none → visited.map UInt32.toNat = (List.range w.fsm.nqueues.toNat).reverse)

/-- There is a queue for each priority, and `fsm_get_queued_events` only looks at these. -/
structure World.QueuesCounted (w : World A D) : Prop where
  heads : w.fsm.pqtable.length = w.fsm.nqueues.toNat
  total : ∃ total, fsmGetQueuedEvents w = .ok total

/-- A call only uses indices of queues, and `fsm_dequeue_event` looks for an event as it should. -/
structure QueueCall.InBounds (requests : Requests A) (w : World A Bytes) (c : QueueCall) :
    Prop where
  indices : performQueue requests w c ≠ .error .outOfBounds
  scans : c = .dequeueEvent → w.ScansDown
  empty : c = .dequeueEvent → (∀ queue ∈ w.fsm.pqtable, queue = []) →
    performQueue requests w c = .ok (⟨.empty, none⟩, w)

/-- In every state of the run all indices are those of queues. -/
def InBoundsRun (requests : Requests A) : World A Bytes → List QueueCall → Prop
  | w, [] => w.QueuesCounted
  | w, c :: cs => w.QueuesCounted ∧ c.InBounds requests w ∧
      match performQueue requests w c with
      | .ok (_, w) => InBoundsRun requests w cs
      | .error _ => True

/-! ## The scan -/

theorem toNat_sub_one {i : UInt32} (hi : i ≠ 0) : i.toNat = (i - 1).toNat + 1 := by
  have hpos : 1 ≤ i.toNat := Nat.one_le_iff_ne_zero.2 fun heq ↦ hi (UInt32.toNat_inj.1 heq)
  have hsub : (i - 1).toNat = i.toNat - 1 :=
    UInt32.toNat_sub_of_le _ _ (UInt32.le_iff_toNat_le.2 hpos)
  omega

theorem exists_queueAt {pqtable : List (List (PqNode D))} {i : ℕ} (hi : i < pqtable.length) :
    ∃ queue, queueAt pqtable i = .ok queue := by
  rw [queueAt, List.getElem?_eq_getElem hi]
  exact ⟨_, rfl⟩

/-- What the loop does from the index of a queue on: it looks at the queues from there down.  The
induction is on the index. -/
theorem scan_spec {pqtable : List (List (PqNode D))} {k : ℕ} {i : UInt32} (hik : i.toNat = k)
    (hk : k < pqtable.length) :
    ∃ visited found, scan pqtable (k + 1) i = .ok (visited, found) ∧
      visited.map UInt32.toNat <+: (List.range (k + 1)).reverse ∧
      (found = none → visited.map UInt32.toNat = (List.range (k + 1)).reverse) := by
  induction k generalizing i with
  | zero =>
      have hzero : i = 0 := UInt32.toNat_inj.1 hik
      obtain ⟨queue, hqueue⟩ := exists_queueAt (hik.symm ▸ hk)
      have hone : [i].map UInt32.toNat = (List.range 1).reverse := by
        rw [List.map_singleton, hik]
        rfl
      cases queue with
      | nil =>
          refine ⟨[i], none, ?_, hone ▸ List.prefix_rfl, fun _ ↦ hone⟩
          rw [scan, hqueue, Exec.ok_bind]
          exact if_neg (not_not.2 hzero)
      | cons pnode behind =>
          refine ⟨[i], some pnode, ?_, hone ▸ List.prefix_rfl, fun hnone ↦ by cases hnone⟩
          rw [scan, hqueue]
          rfl
  | succ k ih =>
      have hne : i ≠ 0 := by
        rintro rfl
        cases hik
      obtain ⟨queue, hqueue⟩ := exists_queueAt (hik.symm ▸ hk)
      have hrange : (List.range (k + 2)).reverse = i.toNat :: (List.range (k + 1)).reverse := by
        rw [List.range_succ, List.reverse_concat, hik]
      rw [hrange]
      cases queue with
      | nil =>
          have hpred : (i - 1).toNat = k := Nat.succ.inj ((toNat_sub_one hne).symm.trans hik)
          obtain ⟨visited, found, hscan, hprefix, hall⟩ := ih hpred (Nat.lt_of_succ_lt hk)
          refine ⟨i :: visited, found, ?_, (List.prefix_cons_inj _).2 hprefix, fun hnone ↦ ?_⟩
          · rw [scan, hqueue, Exec.ok_bind]
            dsimp only
            rw [if_pos hne, hscan]
            rfl
          · rw [List.map_cons, hall hnone]
      | cons pnode behind =>
          refine ⟨[i], some pnode, ?_, ?_, fun hnone ↦ by cases hnone⟩
          · rw [scan, hqueue]
            rfl
          · exact List.prefix_append [i.toNat] _

theorem serveFrom_of_scan (act : A → D → World A D → Exec (World A D)) {w : World A D} {turns : ℕ}
    {i : UInt32} {visited : List UInt32} {found : Option (PqNode D)}
    (h : scan w.fsm.pqtable turns i = .ok (visited, found)) :
    (found = none → serveFrom act w i.toNat = .ok (.empty, none, w)) ∧
    ∀ pnode, found = some pnode → ∃ j behind, visited.getLast? = some j ∧
      queueAt w.fsm.pqtable j.toNat = .ok (pnode :: behind) ∧
      ∀ next, serveFrom act w i.toNat = serveHead act w j.toNat next := by
  induction turns generalizing i visited with
  | zero => cases h
  | succ turns ih =>
      obtain ⟨queue, hqueue, h⟩ := Exec.bind_eq_ok.1 h
      cases queue with
      | cons pnode behind =>
          cases h
          refine ⟨fun hnone ↦ (by cases hnone), fun pnode' heq ↦ ?_⟩
          cases heq
          refine ⟨i, behind, rfl, hqueue, fun next ↦ ?_⟩
          cases htoNat : i.toNat with
          | zero =>
              rw [htoNat] at hqueue
              rw [serveFrom, serveHead, serveHead, hqueue]
              rfl
          | succ k =>
              rw [htoNat] at hqueue
              rw [serveFrom, serveHead, serveHead, hqueue]
              rfl
      | nil =>
          dsimp only at h
          split at h
          · rename_i hne
            obtain ⟨⟨visited', found'⟩, hrest, h⟩ := Exec.bind_eq_ok.1 h
            cases h
            have hskip : serveFrom act w i.toNat = serveFrom act w (i - 1).toNat := by
              rw [toNat_sub_one hne] at hqueue ⊢
              rw [serveFrom, serveHead, hqueue]
              rfl
            obtain ⟨hnone, hsome⟩ := ih hrest
            refine ⟨fun heq ↦ hskip.trans (hnone heq), fun pnode heq ↦ ?_⟩
            obtain ⟨j, behind, hlast, hj, hserve⟩ := hsome pnode heq
            refine ⟨j, behind, ?_, hj, fun next ↦ hskip.trans (hserve next)⟩
            rw [List.getLast?_cons, hlast]
            rfl
          · rename_i hzero
            cases h
            have heq : i = 0 := not_not.1 hzero
            refine ⟨fun _ ↦ ?_, fun pnode hsome ↦ (by cases hsome)⟩
            subst heq
            change serveHead act w 0 _ = _
            have hq0 : queueAt w.fsm.pqtable 0 = .ok [] := hqueue
            rw [serveHead, hq0]
            rfl

theorem not_scansDown {w : World A D} (hempty : w.fsm.pqtable = []) : ¬ w.ScansDown := by
  rintro ⟨turns, visited, found, hscan, _⟩
  rw [hempty] at hscan
  cases turns with
  | zero => cases hscan
  | succ turns => cases hscan

/-- A machine with queues, which may not have a current state yet, and the pending events. -/
structure Loaded (w : World A D) (p : List (PqNode D)) : Prop extends Pending w p where
  accessible : Accessible w
  nqueues_pos : 0 < w.fsm.nqueues.toNat

theorem Pending.queuesCounted {w : World A D} {p : List (PqNode D)} (h : Pending w p) :
    w.QueuesCounted where
  heads := by rw [h.table, layout_length]
  total := ⟨_, h.fsmGetQueuedEvents_eq⟩

/-- A request is accepted or refused, but never leaves the table. -/
theorem Pending.queueEvent {w : World A Bytes} {p : List (PqNode Bytes)} (h : Pending w p)
    (requests : Requests A) (q : Request) :
    ∃ o w', performQueue requests w (.queueEvent q) = .ok (o, w') ∧
      (w' = w ∨ ∃ n, n.queue < w.fsm.nqueues.toNat ∧ w' = w.withPending (p ++ [n])) := by
  cases hnode : q.node? w.fsm.nqueues with
  | none =>
      obtain ⟨r, _, hrefused⟩ := fsmQueueEvent_refused hnode
      refine ⟨⟨r, none⟩, w, ?_, .inl rfl⟩
      rw [performQueue, hrefused]
      rfl
  | some n =>
      refine ⟨⟨.ok, none⟩, _, ?_, .inr ⟨n, queue_lt_of_node? hnode, rfl⟩⟩
      rw [performQueue, h.fsmQueueEvent_accepted hnode]
      rfl

theorem inBounds_queueEvent {requests : Requests A} {w w' : World A Bytes} {q : Request}
    {o : Outcome Bytes} (h : performQueue requests w (.queueEvent q) = .ok (o, w')) :
    QueueCall.InBounds requests w (.queueEvent q) where
  indices := by
    rw [h]
    exact nofun
  scans heq := by cases heq
  empty heq := by cases heq

namespace Loaded

variable {w : World A Bytes} {p : List (PqNode Bytes)} (h : Loaded w p) (requests : Requests A)
include h

theorem scan_eq : ∃ visited found,
    scan w.fsm.pqtable w.fsm.nqueues.toNat (w.fsm.nqueues - 1) = .ok (visited, found) ∧
      visited.map UInt32.toNat <+: (List.range w.fsm.nqueues.toNat).reverse ∧
      (found = none → visited.map UInt32.toNat = (List.range w.fsm.nqueues.toNat).reverse) := by
  have hpos := h.nqueues_pos
  have hne : w.fsm.nqueues ≠ 0 := by
    intro heq
    rw [heq] at hpos
    exact absurd hpos (Nat.lt_irrefl 0)
  have hlt : (w.fsm.nqueues - 1).toNat < w.fsm.pqtable.length := by
    rw [h.queuesCounted.heads, toNat_sub_one hne]
    exact Nat.lt_succ_self _
  have hspec := scan_spec rfl hlt
  rwa [← toNat_sub_one hne] at hspec

theorem dequeue_of_no_state (hcstate : w.fsm.cstate = none) :
    performQueue requests w .dequeueEvent = .ok (⟨.empty, none⟩, w) ∨
      performQueue requests w .dequeueEvent = .error .badPointer := by
  obtain ⟨visited, found, hscan, _⟩ := h.scan_eq
  obtain ⟨hnone, hsome⟩ := serveFrom_of_scan (queueing requests) hscan
  cases found with
  | none =>
      left
      rw [performQueue, fsmDequeueEvent, hnone rfl]
      rfl
  | some pnode =>
      right
      obtain ⟨j, behind, _, hqueue, hserve⟩ := hsome pnode rfl
      rw [performQueue, fsmDequeueEvent, hserve (throw .badPointer), serveHead, hqueue, Exec.ok_bind]
      dsimp only
      rw [fsmProcessEvent, World.currentState, hcstate]
      rfl

theorem dequeue_of_empty (hempty : ∀ queue ∈ w.fsm.pqtable, queue = []) :
    performQueue requests w .dequeueEvent = .ok (⟨.empty, none⟩, w) := by
  obtain ⟨visited, found, hscan, _⟩ := h.scan_eq
  obtain ⟨hnone, hsome⟩ := serveFrom_of_scan (queueing requests) hscan
  cases found with
  | none =>
      rw [performQueue, fsmDequeueEvent, hnone rfl]
      rfl
  | some pnode =>
      obtain ⟨j, behind, _, hqueue, _⟩ := hsome pnode rfl
      cases hempty _ (List.mem_of_getElem? (queueAt_eq_ok.1 hqueue))

/-- One call on a machine with queues. -/
theorem step (c : QueueCall) : c.InBounds requests w ∧
    ∀ o w', performQueue requests w c = .ok (o, w') → ∃ p', Loaded w' p' := by
  cases c with
  | queueEvent q =>
      obtain ⟨o, w', hrun, hw'⟩ := h.queueEvent requests q
      refine ⟨inBounds_queueEvent hrun, fun o' w'' hrun' ↦ ?_⟩
      rw [hrun] at hrun'
      cases hrun'
      rcases hw' with rfl | ⟨n, hn, rfl⟩
      · exact ⟨p, h⟩
      · have hlt : ∀ m ∈ p ++ [n], m.queue < w.fsm.nqueues.toNat := fun m hm ↦
          (List.mem_append.1 hm).elim (h.queue_lt m) fun hlast ↦ List.mem_singleton.1 hlast ▸ hn
        exact ⟨p ++ [n], ⟨rfl, hlt⟩, ⟨h.accessible.sttable, h.accessible.evttable,
          h.accessible.targets, h.accessible.cstate⟩, h.nqueues_pos⟩
  | dequeueEvent =>
      have hscans : w.ScansDown := ⟨_, h.scan_eq⟩
      by_cases hcstate : w.fsm.cstate = none
      · have hrun := h.dequeue_of_no_state requests hcstate
        refine ⟨⟨?_, fun _ ↦ hscans, fun _ ↦ h.dequeue_of_empty requests⟩, fun o w' hrun' ↦ ?_⟩
        · rcases hrun with heq | heq
          · rw [heq]
            exact nofun
          · rw [heq]
            intro hfault
            cases hfault
        · rcases hrun with heq | heq
          · rw [heq] at hrun'
            cases hrun'
            exact ⟨p, h⟩
          · rw [heq] at hrun'
            cases hrun'
      · have hready : Ready w p := ⟨h.toPending, h.accessible, hcstate, h.nqueues_pos⟩
        obtain ⟨o, accepted, w', p', hrun, _, hready'⟩ := hready.performQueue_spec requests .dequeueEvent
        refine ⟨⟨?_, fun _ ↦ hscans, fun _ ↦ h.dequeue_of_empty requests⟩, fun o' w'' hrun' ↦ ?_⟩
        · rw [hrun]
          exact nofun
        · rw [hrun] at hrun'
          cases hrun'
          exact ⟨p', hready'.toPending, hready'.accessible, hready'.nqueues_pos⟩

end Loaded

/-! ## Runs -/

section Runs

variable {w : World A Bytes} {p : List (PqNode Bytes)}

theorem Loaded.inBoundsRun (h : Loaded w p) (requests : Requests A) (cs : List QueueCall) :
    InBoundsRun requests w cs := by
  induction cs generalizing w p with
  | nil => exact h.queuesCounted
  | cons c cs ih =>
      obtain ⟨hc, hnext⟩ := h.step requests c
      refine ⟨h.queuesCounted, hc, ?_⟩
      cases hrun : performQueue requests w c with
      | error fault => trivial
      | ok result =>
          obtain ⟨o, w'⟩ := result
          obtain ⟨p', h'⟩ := hnext o w' hrun
          exact ih h'

/-- Without queues every request is refused, up to the first call of `fsm_dequeue_event`. -/
theorem Pending.inBoundsRun_iff_not_mem (h : Pending w []) (hnqueues : w.fsm.nqueues = 0)
    (requests : Requests A) (cs : List QueueCall) :
    InBoundsRun requests w cs ↔ .dequeueEvent ∉ cs := by
  have hempty : w.fsm.pqtable = [] := by
    have hlength := h.queuesCounted.heads
    rw [hnqueues] at hlength
    exact List.eq_nil_of_length_eq_zero hlength
  induction cs with
  | nil => exact iff_of_true h.queuesCounted List.not_mem_nil
  | cons c cs ih =>
      cases c with
      | dequeueEvent =>
          refine iff_of_false (fun hrun ↦ ?_) fun hnot ↦ hnot List.mem_cons_self
          exact not_scansDown hempty (hrun.2.1.scans rfl)
      | queueEvent q =>
          obtain ⟨o, w', hrun, hw'⟩ := h.queueEvent requests q
          have hsame : w' = w := by
            rcases hw' with heq | ⟨n, hn, _⟩
            · exact heq
            · rw [hnqueues] at hn
              exact absurd hn (Nat.not_lt_zero _)
          have hne : QueueCall.dequeueEvent ≠ .queueEvent q := nofun
          rw [InBoundsRun, and_iff_right h.queuesCounted, and_iff_right (inBounds_queueEvent hrun),
            hrun, List.mem_cons, or_iff_right hne]
          dsimp only
          rw [hsame]
          exact ih

/-- A run of calls on the queues of a machine only uses indices of queues just when there is a queue
or nothing is dequeued. -/
theorem inBoundsRun_iff (hbuilt : Built w) (requests : Requests A) (cs : List QueueCall) :
    InBoundsRun requests w cs ↔ 0 < w.fsm.nqueues ∨ .dequeueEvent ∉ cs := by
  have hpending : Pending w [] :=
    ⟨by rw [hbuilt.queues_empty, layout_nil], fun _ hn ↦ absurd hn List.not_mem_nil⟩
  by_cases hzero : w.fsm.nqueues = 0
  · have hnot : ¬ 0 < w.fsm.nqueues := by
      rw [hzero]
      decide
    rw [or_iff_right hnot]
    exact hpending.inBoundsRun_iff_not_mem hzero requests cs
  · have hpos : 0 < w.fsm.nqueues := UInt32.pos_iff_ne_zero.2 hzero
    have hloaded : Loaded w [] :=
      ⟨hpending, hbuilt.accessible, UInt32.lt_iff_toNat_lt.1 hpos⟩
    exact iff_of_true (hloaded.inBoundsRun requests cs) (.inl hpos)

end Runs

/-- The machine with two priorities stays within its queues. -/
theorem relayRun_inBoundsRun : InBoundsRun relayRequests relayWorld relayRun :=
  (inBoundsRun_iff relayWorld_built relayRequests relayRun).2 (.inl (by decide))

/-- A machine without queues looks for a queue as far away as possible, as soon as an event is to be
dequeued. -/
theorem fourHeads_not_inBounds :
    fsmInit ⟨true, true, true, true, true⟩ 4 1 0 = .ok (.ok, some (⟨emptyTable 4 1, none, 0, []⟩ :
      Fsm Bytes)) ∧
    ((0 : UInt32) - 1).toNat = 2 ^ 32 - 1 ∧
    performQueue relayRequests (start ℕ ⟨emptyTable 4 1, none, 0, []⟩) .dequeueEvent =
      .error .outOfBounds ∧
    ¬ InBoundsRun relayRequests (start ℕ ⟨emptyTable 4 1, none, 0, []⟩) [.dequeueEvent] := by
  refine ⟨rfl, by decide, rfl, fun hrun ↦ ?_⟩
  exact hrun.2.1.indices rfl

end Experimentation.StateMachine
