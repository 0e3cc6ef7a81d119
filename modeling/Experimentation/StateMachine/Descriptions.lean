import Experimentation.StateMachine.Output
import Experimentation.StateMachine.Stored

/-!
# The descriptions of events

`state_add_evt` copies a description with `strncpy`, which ends the copy with a NUL byte only if
there is room for it, and `state_printf` reads the copy with `%s`, up to the first NUL byte.  The
two agree on the strings that are shorter than the array.
-/

namespace Experimentation.StateMachine

open Semantics HashTable

variable {A D : Type}

/-- The line of an event. -/
def eventLine (key : UInt32) (desc : Text) (newkey : UInt32) : Text :=
  ascii "evtkey: " ++ decimal key ++ ascii "\tdesc: " ++ desc ++ ascii "\tnewstate: " ++
    decimal newkey

/-- The text is printed to the standard output, with other ones before and after it. -/
def PrintsBetween (out out' : Output) (text : Text) : Prop :=
  ∃ before after, out' = out.write (before ++ text ++ after) .stdout

/-- The description of an event that is stored under the key survives: its array holds a NUL byte,
and whenever the event is printed, by itself or among those of a state, what is printed for it is
the longest prefix of the string that fits with its NUL byte. -/
structure Survives (key : UInt32) (pdesc : List UInt8) (ev : Event A) : Prop where
  terminated : 0 ∈ ev.evtDesc.take maxEvtDesc
  printed : ∀ mem t new, ev.evtNewstate = some t → mem t = some new → ∀ out,
    statePrintf mem key (some ev) out =
      .ok (out.write (eventLine key (pdesc.take (maxEvtDesc - 1)) new.stKey) .stdout)
  listed : ∀ mem s st, mem s = some st → st.evttable.Indexed →
    st.evttable.HasNode ⟨key, some ev⟩ → ∀ fp out out', statePrintEvts mem s fp out = .ok out' →
      ∃ t new, ev.evtNewstate = some t ∧ mem t = some new ∧
        PrintsBetween out out' (eventLine key (pdesc.take (maxEvtDesc - 1)) new.stKey)

/-! ## The copy -/

section Copy

variable {pdesc : List UInt8}

theorem strncpy_of_lt {n : ℕ} (h : pdesc.length < n) :
    strncpy pdesc n = pdesc ++ List.replicate (n - pdesc.length) 0 := by
  rw [strncpy, List.take_append, List.take_of_length_le h.le, List.take_replicate,
    Nat.min_eq_left (Nat.sub_le _ _)]

theorem zero_mem_strncpy_iff (hdesc : 0 ∉ pdesc) {n : ℕ} :
    0 ∈ (strncpy pdesc n).take n ↔ pdesc.length < n := by
  constructor
  · intro hzero
    by_contra hlong
    have hcut : strncpy pdesc n = pdesc.take n :=
      List.take_append_of_le_length (Nat.le_of_not_lt hlong)
    rw [hcut] at hzero
    exact hdesc (List.mem_of_mem_take (List.mem_of_mem_take hzero))
  · intro hlt
    rw [strncpy_of_lt hlt, List.take_of_length_le (by simp; omega)]
    exact List.mem_append_right _ (List.mem_replicate.2 ⟨(Nat.sub_pos_of_lt hlt).ne', rfl⟩)

theorem cString_strncpy (hdesc : 0 ∉ pdesc) {n : ℕ} (hlt : pdesc.length < n) :
    cString (strncpy pdesc n) = .ok (pdesc.take (n - 1)) := by
  have hzero : 0 ∈ strncpy pdesc n := List.mem_of_mem_take ((zero_mem_strncpy_iff hdesc).2 hlt)
  have hall : ∀ c ∈ pdesc, decide (c ≠ 0) = true := fun c hc ↦
    decide_eq_true fun heq ↦ hdesc (heq ▸ hc)
  obtain ⟨k, hk⟩ := Nat.exists_eq_succ_of_ne_zero (Nat.sub_pos_of_lt hlt).ne'
  calc
    _ = .ok ((strncpy pdesc n).takeWhile (· ≠ 0)) := by rw [cString, if_pos hzero]
    _ = .ok (pdesc ++ (List.replicate (n - pdesc.length) 0).takeWhile (· ≠ 0)) := by
      rw [strncpy_of_lt hlt, List.takeWhile_append_of_pos hall]
    _ = .ok pdesc := by
      rw [hk, List.replicate_succ, List.takeWhile_cons_of_neg (by simp), List.append_nil]
    _ = _ := by rw [List.take_of_length_le (by omega)]

end Copy

section Printing

variable {mem : StateMem A} {out out' : Output}

theorem statePrintf_ok {key : UInt32} {pdata : Option (Event A)}
    (h : statePrintf mem key pdata out = .ok out') :
    ∃ ev t new desc, pdata = some ev ∧ ev.evtNewstate = some t ∧ mem t = some new ∧
      cString ev.evtDesc = .ok desc ∧ out' = out.write (eventLine key desc new.stKey) .stdout := by
  cases pdata with
  | none => cases h
  | some ev =>
      cases htarget : ev.evtNewstate with
      | none =>
          simp only [statePrintf, htarget] at h
          cases h
      | some t =>
          simp only [statePrintf, htarget] at h
          obtain ⟨new, hnew, h⟩ := Exec.bind_eq_ok.1 h
          obtain ⟨desc, hdesc, h⟩ := Exec.bind_eq_ok.1 h
          cases h
          exact ⟨ev, t, new, desc, rfl, htarget, loadState_eq_ok.1 hnew, hdesc, rfl⟩

theorem statePrintf_eq {key : UInt32} {ev : Event A} {t : StateId} {new : StateObj A} {desc : Text}
    (htarget : ev.evtNewstate = some t) (hnew : mem t = some new)
    (hdesc : cString ev.evtDesc = .ok desc) (out : Output) :
    statePrintf mem key (some ev) out =
      .ok (out.write (eventLine key desc new.stKey) .stdout) := by
  simp only [statePrintf, htarget, loadState_eq hnew, hdesc, Exec.ok_bind]
  rfl

theorem PrintsBetween.refl (out : Output) : PrintsBetween out out [] := by
  refine ⟨[], [], ?_⟩
  simp

theorem PrintsBetween.write {text : Text} (h : PrintsBetween out out' text) (after : Text) :
    PrintsBetween out (out'.write after .stdout) text := by
  obtain ⟨before, after', rfl⟩ := h
  refine ⟨before, after' ++ after, ?_⟩
  rw [Output.write_write, List.append_assoc _ after']

/-- What is printed in a first part of the run. -/
theorem PrintsBetween.before {out'' : Output} {text : Text} (h : PrintsBetween out out' text)
    (h' : PrintsBetween out' out'' []) : PrintsBetween out out'' text := by
  obtain ⟨before, after, rfl⟩ := h'
  exact h.write _

/-- What is printed in a second part of the run. -/
theorem PrintsBetween.after {out'' : Output} {text : Text} (h : PrintsBetween out out' [])
    (h' : PrintsBetween out' out'' text) : PrintsBetween out out'' text := by
  obtain ⟨before, after, rfl⟩ := h
  obtain ⟨before', after', rfl⟩ := h'
  refine ⟨before ++ [] ++ after ++ before', after', ?_⟩
  simp [Output.write_write]

/-- The event is printed in the course of the run. -/
def PrintedWithin (mem : StateMem A) (e : HNode UInt32 (Event A)) (out out' : Output) : Prop :=
  ∃ out₁ out₂, PrintsBetween out out₁ [] ∧ statePrintf mem e.hnKey e.hnData out₁ = .ok out₂ ∧
    PrintsBetween out₂ out' []

theorem statePrintf_printsBetween {e : HNode UInt32 (Event A)}
    (h : statePrintf mem e.hnKey e.hnData out = .ok out') : PrintsBetween out out' [] := by
  obtain ⟨_, _, new, desc, _, _, _, _, rfl⟩ := statePrintf_ok h
  exact (PrintsBetween.refl out).write _

theorem PrintedWithin.before {e : HNode UInt32 (Event A)} {out'' : Output}
    (h : PrintedWithin mem e out out') (h' : PrintsBetween out' out'' []) :
    PrintedWithin mem e out out'' := by
  obtain ⟨out₁, out₂, hbefore, hprint, hafter⟩ := h
  exact ⟨out₁, out₂, hbefore, hprint, hafter.before h'⟩

theorem PrintedWithin.after {e : HNode UInt32 (Event A)} {out'' : Output}
    (h : PrintsBetween out out' []) (h' : PrintedWithin mem e out' out'') :
    PrintedWithin mem e out out'' := by
  obtain ⟨out₁, out₂, hbefore, hprint, hafter⟩ := h'
  exact ⟨out₁, out₂, h.after hbefore, hprint, hafter⟩

theorem foldlM_printedWithin {es : List (HNode UInt32 (Event A))}
    (h : es.foldlM (fun out e ↦ statePrintf mem e.hnKey e.hnData out) out = .ok out') :
    PrintsBetween out out' [] ∧ ∀ e ∈ es, PrintedWithin mem e out out' := by
  induction es generalizing out with
  | nil =>
      cases h
      exact ⟨.refl _, fun e he ↦ absurd he List.not_mem_nil⟩
  | cons e es ih =>
      rw [List.foldlM_cons] at h
      obtain ⟨out₁, hfirst, hrest⟩ := Exec.bind_eq_ok.1 h
      obtain ⟨hbetween, hall⟩ := ih hrest
      have hline := statePrintf_printsBetween hfirst
      refine ⟨hline.before hbetween, List.forall_mem_cons.2 ⟨?_, fun e' he' ↦ ?_⟩⟩
      · exact ⟨out, out₁, .refl out, hfirst, hbetween⟩
      · exact .after hline (hall e' he')

theorem printHeads_printedWithin {t : HTable UInt32 (Event A)} {turns i : ℕ}
    (hturns : i + turns = t.htTable.length)
    (h : printHeads t (statePrintf mem) turns i out = .ok out') :
    PrintsBetween out out' [] ∧
      ∀ e ∈ (t.htTable.drop i).flatten, PrintedWithin mem e out out' := by
  induction turns generalizing i out with
  | zero =>
      cases h
      rw [List.drop_of_length_le (by omega)]
      exact ⟨.refl _, fun e he ↦ absurd he List.not_mem_nil⟩
  | succ turns ih =>
      have hlt : i < t.htTable.length := by omega
      rw [printHeads, headAt_eq (List.getElem?_eq_getElem hlt), Exec.ok_bind] at h
      obtain ⟨out₁, hchain, hrest⟩ := Exec.bind_eq_ok.1 h
      obtain ⟨hbetween, hevents⟩ := foldlM_printedWithin hchain
      obtain ⟨hbetween', hall⟩ := ih (by omega) hrest
      have hend : PrintsBetween out₁
          (if t.htTable[i] ≠ [] then out₁.write (ascii "\n") .stdout else out₁) [] := by
        split_ifs
        · exact (PrintsBetween.refl out₁).write _
        · exact .refl out₁
      have htail := hend.before hbetween'
      rw [List.drop_eq_getElem_cons hlt, List.flatten_cons]
      refine ⟨hbetween.before htail, List.forall_mem_append.2 ⟨fun e he ↦ ?_, fun e he ↦ ?_⟩⟩
      · exact (hevents e he).before htail
      · exact .after (hbetween.before hend) (hall e he)

theorem PrintedWithin.printsBetween {key : UInt32} {ev : Event A} {desc : Text}
    (h : PrintedWithin mem ⟨key, some ev⟩ out out') (hdesc : cString ev.evtDesc = .ok desc) :
    ∃ t new, ev.evtNewstate = some t ∧ mem t = some new ∧
      PrintsBetween out out' (eventLine key desc new.stKey) := by
  obtain ⟨out₁, out₂, hbefore, hprint, hafter⟩ := h
  obtain ⟨ev', t, new, desc', hev, htarget, hnew, hdesc', rfl⟩ := statePrintf_ok hprint
  cases hev
  cases hdesc.symm.trans hdesc'
  have hline : PrintsBetween out₁ (out₁.write (eventLine key desc new.stKey) .stdout)
      (eventLine key desc new.stKey) := ⟨[], [], by rw [List.append_nil, List.nil_append]⟩
  exact ⟨t, new, htarget, hnew, (hbefore.after hline).before hafter⟩

theorem statePrintEvts_printedWithin {s : StateId} {st : StateObj A} (hst : mem s = some st)
    (hindexed : st.evttable.Indexed) {fp : File} (h : statePrintEvts mem s fp out = .ok out')
    {e : HNode UInt32 (Event A)} (he : st.evttable.HasNode e) : PrintedWithin mem e out out' := by
  rw [statePrintEvts, loadState_eq hst, Exec.ok_bind] at h
  have hall := (printHeads_printedWithin (by rw [Nat.zero_add, hindexed.length]) h).2
  rw [List.drop_zero] at hall
  exact hall e he

end Printing

/-! ## The event that is stored -/

/-- Under the key of an insertion that did not find it, a search finds at most the new data. -/
theorem htableSearch_of_insert {cb : LawfulCallbacks UInt32} {t t' : HTable UInt32 (Event A)}
    (h : t.Keyed cb) {mallocs : InsertMallocs} {key : UInt32} {data : Option (Event A)} {r : HtRet}
    (hrun : htableInsert cb mallocs t key data = .ok (r, t')) (hr : r ≠ .existing)
    {ev : Event A} (hsearch : htableSearch cb t' key = .ok (some ev)) : data = some ev := by
  rcases h.toSound.htableInsert_inv hrun with ⟨rfl, _⟩ | ⟨hnone, ⟨_, rfl⟩ | ⟨_, rfl, hfits⟩⟩
  · exact absurd rfl hr
  · rw [htableSearch, hnone] at hsearch
    cases hsearch
  · have hkeyed : (t.inserted cb mallocs.heads ⟨key, data⟩).Keyed cb := h.inserted hnone hfits
    have hnode : (t.inserted cb mallocs.heads ⟨key, data⟩).HasNode ⟨key, data⟩ := by
      apply (h.toSound.inserted cb ⟨key, data⟩ hfits).2.mem_iff.2
      exact List.mem_append_right _ (List.mem_singleton.2 rfl)
    rw [htableSearch, hkeyed.findNode_of_mem hkeyed.distinct hnode (cb.refl key)] at hsearch
    exact Except.ok.inj hsearch

theorem World.InPlace.stateAddEvt_stored {w : World A D} (h : w.InPlace) {mallocs : EventMallocs}
    {s : StateId} {key : UInt32} {pdesc : List UInt8} {pactionf : Option A}
    {pnewstate : Option StateId} {mem' : StateMem A}
    (hrun : stateAddEvt w.states mallocs s key pdesc pactionf pnewstate = .ok (.ok, mem'))
    {st : StateObj A} (hst : mem' s = some st) {ev : Event A}
    (hsearch : htableSearch stateCallbacks st.evttable key = .ok (some ev)) :
    ev = ⟨strncpy pdesc maxEvtDesc, pactionf, pnewstate⟩ := by
  by_cases hmalloc : mallocs.key = true ∧ mallocs.event = true
  case neg =>
    rw [stateAddEvt_of_no_memory hmalloc] at hrun
    cases hrun
  cases hold : w.states s with
  | none =>
      rw [stateAddEvt_of_no_state hold hmalloc.1 hmalloc.2] at hrun
      cases hrun
  | some old =>
      rw [stateAddEvt_eq hold hmalloc.1 hmalloc.2] at hrun
      obtain ⟨⟨r, t⟩, hinsert, hrun⟩ := Exec.bind_eq_ok.1 hrun
      have hr : r ≠ .existing := by
        rintro rfl
        cases hrun
      rw [if_neg hr] at hrun
      cases hrun
      rw [storeState_self, Option.some.injEq] at hst
      subst hst
      rcases h.evttable s old hold with hkeyed | hempty
      · exact (Option.some.inj (htableSearch_of_insert hkeyed hinsert hr hsearch)).symm
      · rw [HTable.htableInsert_of_no_heads hempty] at hinsert
        cases hinsert

theorem survives_iff {key : UInt32} {pdesc : List UInt8} (hdesc : 0 ∉ pdesc) (pactionf : Option A)
    (pnewstate : Option StateId) :
    Survives key pdesc (⟨strncpy pdesc maxEvtDesc, pactionf, pnewstate⟩ : Event A) ↔
      pdesc.length < maxEvtDesc := by
  refine ⟨fun h ↦ (zero_mem_strncpy_iff hdesc).1 h.terminated, fun hlt ↦ ?_⟩
  have hcopy := cString_strncpy hdesc hlt
  exact {
    terminated := (zero_mem_strncpy_iff hdesc).2 hlt
    printed := fun mem t new htarget hnew out ↦ statePrintf_eq htarget hnew hcopy out
    listed := fun mem s st hst hindexed hnode fp out out' hrun ↦
      (statePrintEvts_printedWithin hst hindexed hrun hnode).printsBetween hcopy }

/-- In every state that a machine gets to by calls, the description of an event that `state_add_evt`
stores survives just when it is shorter than the array. -/
theorem description_survives_iff {mallocs : FsmMallocs} {size factor : ℕ} {nqueues : UInt32}
    {fsm : Fsm D} (hinit : fsmInit mallocs size factor nqueues = .ok (.ok, some fsm))
    {cs : List (Call A D)} {rs : List Ret} {w : World A D}
    (hrun : performAll (start A fsm) cs = .ok (rs, w)) {emallocs : EventMallocs} {s : StateId}
    {key : UInt32} {pdesc : List UInt8} (hdesc : 0 ∉ pdesc) {pactionf : Option A}
    {pnewstate : Option StateId} {mem' : StateMem A}
    (hadd : stateAddEvt w.states emallocs s key pdesc pactionf pnewstate = .ok (.ok, mem'))
    {st : StateObj A} (hst : mem' s = some st) {ev : Event A}
    (hstored : htableSearch stateCallbacks st.evttable key = .ok (some ev)) :
    Survives key pdesc ev ↔ pdesc.length < maxEvtDesc := by
  have hplace := (World.InPlace.start hinit).performAll hrun
  rw [hplace.stateAddEvt_stored hadd hst hstored]
  exact survives_iff hdesc pactionf pnewstate

/-- A short description is stored, and survives. -/
theorem oneState_description : ∃ rs w mem' st ev,
    performAll (start ℕ fourHeads) oneStateCalls = .ok (rs, w) ∧
    stateAddEvt w.states ⟨true, true, ⟨true, false⟩⟩ 0 7 (ascii "go") (some 5) (some 0) =
      .ok (.ok, mem') ∧
    mem' 0 = some st ∧ htableSearch stateCallbacks st.evttable 7 = .ok (some ev) ∧
    Survives 7 (ascii "go") ev := by
  have hinit : fsmInit ⟨true, true, true, true, true⟩ 4 1 0 = .ok (.ok, some fourHeads) := rfl
  obtain ⟨rs, w, mem', st, ev, hrun, hadd, hst, hstored⟩ : ∃ rs w mem' st ev,
      performAll (start ℕ fourHeads) oneStateCalls = .ok (rs, w) ∧
      stateAddEvt w.states ⟨true, true, ⟨true, false⟩⟩ 0 7 (ascii "go") (some 5) (some 0) =
        .ok (.ok, mem') ∧
      mem' 0 = some st ∧ htableSearch stateCallbacks st.evttable 7 = .ok (some ev) :=
    ⟨_, _, _, _, _, rfl, rfl, rfl, rfl⟩
  refine ⟨rs, w, mem', st, ev, hrun, hadd, hst, hstored, ?_⟩
  apply (description_survives_iff hinit hrun ?_ hadd hst hstored).2
  · decide
  · decide

/-- A description of 64 characters is stored without a NUL byte, and printing the events of the
state reads past the end of the array. -/
theorem oneState_unterminated : ∃ rs w mem' st ev,
    performAll (start ℕ fourHeads) oneStateCalls = .ok (rs, w) ∧
    stateAddEvt w.states ⟨true, true, ⟨true, false⟩⟩ 0 7 (List.replicate 64 97) (some 5)
      (some 0) = .ok (.ok, mem') ∧
    mem' 0 = some st ∧ htableSearch stateCallbacks st.evttable 7 = .ok (some ev) ∧
    0 ∉ ev.evtDesc ∧ statePrintEvts mem' 0 .stdout (fun _ ↦ []) = .error .outOfBounds ∧
    ¬ Survives 7 (List.replicate 64 97) ev := by
  refine ⟨_, _, _, _, _, rfl, rfl, rfl, rfl, ?_, rfl, fun h ↦ ?_⟩
  · decide
  · have hzero := h.terminated
    revert hzero
    decide

end Experimentation.StateMachine
