import Experimentation.HashTable.Sizes

/-!
# Insertions whose allocations fail

An insertion allocates a node and, when the table has to grow, a new array of heads.  Whether either
of them fails, the entries are what the answer says they are.  The counter of resizes, however, is
advanced whenever a growth is attempted, since what `htable_grow` returns is not looked at: it
counts the resizes just as long as no attempt has failed.
-/

namespace Experimentation.HashTable

open Semantics

variable {K D : Type}

/-- A growth that the call attempts gets the memory for its heads. -/
def Op.GrowthSucceeds (cb : Callbacks K) (t : HTable K D) : Op K D → Prop
  | .insert key _ mallocs =>
      t.findNode cb key = .ok none → mallocs.node = true → t.htLimit < wrapSize (t.htUsed + 1) →
        mallocs.heads = true ∧ t.GrowthFits
  | .remove _ | .freeObj _ _ | .grow _ | .search _ => True

/-- An insertion is defined, and adds the new entry or leaves the table alone, as it answers. -/
def Op.Atomic (cb : Callbacks K) (t : HTable K D) : Op K D → Prop
  | .insert key data mallocs => ∃ r t', htableInsert cb mallocs t key data = .ok (r, t') ∧
      (r = .ok ∧ t'.htTable.flatten.Perm (t.htTable.flatten ++ [⟨key, data⟩]) ∨
        (r = .existing ∨ r = .nomem) ∧ t' = t)
  | .remove _ | .freeObj _ _ | .grow _ | .search _ => True

/-- How often the call, an insertion, has doubled the size of the table. -/
def Op.resizes (t t' : HTable K D) : Op K D → ℕ
  | .insert _ _ _ => if t'.htSize = 2 * t.htSize then 1 else 0
  | .remove _ | .freeObj _ _ | .grow _ | .search _ => 0

/-- Every insertion of the run is atomic, and in every state the counter says how often insertions
have doubled the size; `resizes` times so far. -/
def AtomicRun (cb : Callbacks K) : (resizes : ℕ) → HTable K D → List (Op K D) → Prop
  | resizes, t, [] => t.htGrows = resizes
  | resizes, t, op :: ops => t.htGrows = resizes ∧ op.Atomic cb t ∧
      match step cb t op with
      | .ok (_, t') => AtomicRun cb (resizes + op.resizes t t') t' ops
      | .error _ => True

/-- Every growth that an insertion of the run attempts gets its memory. -/
def GrowthsSucceed (cb : Callbacks K) : HTable K D → List (Op K D) → Prop
  | _, [] => True
  | t, op :: ops => op.GrowthSucceeds cb t ∧
      match step cb t op with
      | .ok (_, t) => GrowthsSucceed cb t ops
      | .error _ => True

variable {cb : Callbacks K} {t t' : HTable K D} {resizes : ℕ}

theorem AtomicRun.head {ops : List (Op K D)} (h : AtomicRun cb resizes t ops) :
    t.htGrows = resizes := by
  cases ops with
  | nil => exact h
  | cons op ops => exact h.1

/-! ## Single calls -/

/-- A table in whose size every counted resize shows. -/
def HTable.Counts (t : HTable K D) : Prop := 2 ^ t.htGrows ≤ t.htSize

/-- What a call does to the counter. -/
inductive CountStep (cb : Callbacks K) (t : HTable K D) (op : Op K D) : Prop
  /-- It counts its resize, if there is one. -/
  | counts (answer : Answer D) (t' : HTable K D) (hsucceeds : op.GrowthSucceeds cb t)
      (hatomic : op.Atomic cb t) (hstep : step cb t op = .ok (answer, t'))
      (hgrows : t'.htGrows = t.htGrows + op.resizes t t') (hcounts : t'.Counts)
  /-- It counts a resize that has failed. -/
  | miscounts (answer : Answer D) (t' : HTable K D) (hfails : ¬ op.GrowthSucceeds cb t)
      (hstep : step cb t op = .ok (answer, t')) (hgrows : t'.htGrows ≠ t.htGrows + op.resizes t t')
  /-- It calls `htable_grow`, which is not defined. -/
  | stops (fault : Fault) (hsucceeds : op.GrowthSucceeds cb t) (hatomic : op.Atomic cb t)
      (hstep : step cb t op = .error fault)
  /-- It inserts, which is not defined. -/
  | undefined (hfails : ¬ op.GrowthSucceeds cb t) (hatomic : ¬ op.Atomic cb t)

theorem wrapSize_succ_ne (n : ℕ) : wrapSize (n + 1) ≠ n := by
  unfold wrapSize sizeModulus
  omega

theorem HTable.Counts.wrapSize_htGrows (hcounts : t.Counts) (hfits : t.GrowthFits) :
    wrapSize (t.htGrows + 1) = t.htGrows + 1 ∧ 2 ^ (t.htGrows + 1) ≤ 2 * t.htSize := by
  have hpow : 2 ^ (t.htGrows + 1) ≤ 2 * t.htSize := by
    rw [Nat.pow_succ, Nat.mul_comm]
    exact Nat.mul_le_mul_left 2 hcounts
  have hlt : t.htGrows + 1 < 2 ^ (t.htGrows + 1) := Nat.lt_two_pow_self
  have hroom : 2 * t.htSize * sizeofHhead < sizeModulus := hfits
  refine ⟨wrapSize_of_lt ?_, hpow⟩
  unfold sizeofHhead at hroom
  omega

namespace HTable.Sound

variable (h : t.Sound)
include h

theorem resizes_eq_zero {op : Op K D} (hsame : t'.htSize = t.htSize) : op.resizes t t' = 0 := by
  have hpos := h.pos
  cases op with
  | insert key data mallocs => exact if_neg (by omega)
  | remove key => rfl
  | freeObj key htfree => rfl
  | grow malloc => rfl
  | search key => rfl

theorem insert_counts (hcounts : t.Counts) (cb : Callbacks K) (key : K) (data : Option D)
    (mallocs : InsertMallocs) : CountStep cb t (.insert key data mallocs) := by
  have hperm := h.withNode_perm cb ⟨key, data⟩
  cases h.insert_step cb key data mallocs with
  | existing n hfind hrun =>
      refine .counts (.ret .existing) t (fun hnone ↦ ?_) ⟨_, t, hrun, .inr ⟨.inl rfl, rfl⟩⟩
        (by rw [step, hrun]; rfl) (by rw [h.resizes_eq_zero rfl]; rfl) hcounts
      rw [hfind] at hnone
      cases hnone
  | nomem hfind hnode hrun =>
      refine .counts (.ret .nomem) t (fun _ htrue ↦ ?_) ⟨_, t, hrun, .inr ⟨.inr rfl, rfl⟩⟩
        (by rw [step, hrun]; rfl) (by rw [h.resizes_eq_zero rfl]; rfl) hcounts
      rw [hnode] at htrue
      contradiction
  | added hfind hnode hlimit hrun =>
      let t' : HTable K D := t.withNode cb ⟨key, data⟩
      have hzero : (Op.insert key data mallocs).resizes t t' = 0 := h.resizes_eq_zero rfl
      exact .counts (.ret .ok) t' (fun _ _ hlt ↦ absurd hlt hlimit)
        ⟨_, _, hrun, .inl ⟨rfl, hperm⟩⟩ (by rw [step, hrun]; rfl) (by rw [hzero]; rfl) hcounts
  | resized hfind hnode hlimit hheads hfits hrun =>
      obtain ⟨hwrap, hpow⟩ := hcounts.wrapSize_htGrows hfits
      have hdoubled := ((h.withNode cb ⟨key, data⟩).doubled_perm cb).trans hperm
      rw [hwrap] at hrun
      let t' : HTable K D :=
        { (t.withNode cb ⟨key, data⟩).doubled cb with htGrows := t.htGrows + 1 }
      have hone : (Op.insert key data mallocs).resizes t t' = 1 := if_pos rfl
      exact .counts (.ret .ok) t' (fun _ _ _ ↦ ⟨hheads, hfits⟩)
        ⟨_, _, hrun, .inl ⟨rfl, hdoubled⟩⟩ (by rw [step, hrun]; rfl) (by rw [hone]) hpow
  | unresized hfind hnode hlimit hheads hrun =>
      let t' : HTable K D :=
        { t.withNode cb ⟨key, data⟩ with htGrows := wrapSize (t.htGrows + 1) }
      have hzero : (Op.insert key data mallocs).resizes t t' = 0 := h.resizes_eq_zero rfl
      refine .miscounts (.ret .ok) t' (fun hsucceeds ↦ ?_) (by rw [step, hrun]; rfl) ?_
      · have htrue := (hsucceeds hfind hnode hlimit).1
        rw [hheads] at htrue
        contradiction
      · rw [hzero]
        exact wrapSize_succ_ne t.htGrows
  | overflows fault hfind hnode hlimit hheads hfits hrun =>
      refine .undefined (fun hsucceeds ↦ hfits (hsucceeds hfind hnode hlimit).2) ?_
      rintro ⟨r, t', hok, _⟩
      rw [hrun] at hok
      cases hok

theorem other_counts (hcounts : t.Counts) {op : Op K D} (hsucceeds : op.GrowthSucceeds cb t)
    (hatomic : op.Atomic cb t) (hzero : ∀ t', op.resizes t t' = 0)
    (hgrows : ∀ answer t', step cb t op = .ok (answer, t') → t'.htGrows = t.htGrows) :
    CountStep cb t op := by
  have hcounts' (t' : HTable K D) (hsame : t'.htGrows = t.htGrows) (hle : t.htSize ≤ t'.htSize) :
      t'.Counts := by
    unfold HTable.Counts
    rw [hsame]
    exact hcounts.trans hle
  cases h.step_sizes cb op with
  | keeps answer t' _ hstep _ hsame =>
      have hgrows' := hgrows answer t' hstep
      exact .counts answer t' hsucceeds hatomic hstep (by rw [hgrows', hzero]; rfl)
        (hcounts' t' hgrows' hsame.size.ge)
  | doubles answer t' _ _ hstep _ hsame =>
      have hgrows' := hgrows answer t' hstep
      refine .counts answer t' hsucceeds hatomic hstep (by rw [hgrows', hzero]; rfl)
        (hcounts' t' hgrows' ?_)
      rw [hsame.size]
      exact Nat.le_mul_of_pos_left _ (by decide)
  | overflows _ _ hstep => exact .stops _ hsucceeds hatomic hstep

theorem step_counts (hcounts : t.Counts) (cb : Callbacks K) (op : Op K D) : CountStep cb t op := by
  cases op with
  | insert key data mallocs => exact h.insert_counts hcounts cb key data mallocs
  | remove key =>
      refine h.other_counts hcounts trivial trivial (fun _ ↦ rfl) fun answer t' hstep ↦ ?_
      obtain ⟨r, hrun, heq⟩ := Exec.bind_eq_ok.1 hstep
      obtain ⟨found, _, hfound⟩ := Exec.bind_eq_ok.1 hrun
      cases found <;> cases hfound <;> cases heq <;> rfl
  | freeObj key htfree =>
      refine h.other_counts hcounts trivial trivial (fun _ ↦ rfl) fun answer t' hstep ↦ ?_
      obtain ⟨r, hrun, heq⟩ := Exec.bind_eq_ok.1 hstep
      obtain ⟨found, _, hfound⟩ := Exec.bind_eq_ok.1 hrun
      cases found <;> cases hfound <;> cases heq <;> rfl
  | grow malloc =>
      refine h.other_counts hcounts trivial trivial (fun _ ↦ rfl) fun answer t' hstep ↦ ?_
      obtain ⟨r, hrun, heq⟩ := Exec.bind_eq_ok.1 hstep
      have hgrown := (h.htableGrow_inv hrun).1
      cases heq
      rw [hgrown]
      cases malloc <;> rfl
  | search key =>
      refine h.other_counts hcounts trivial trivial (fun _ ↦ rfl) fun answer t' hstep ↦ ?_
      obtain ⟨d, _, heq⟩ := Exec.bind_eq_ok.1 hstep
      cases heq
      rfl

theorem of_step {op : Op K D} {answer : Answer D} (hstep : step cb t op = .ok (answer, t')) :
    t'.Sound := by
  cases h.step_sizes cb op with
  | keeps answer' u _ hstep' hsound _ =>
      rw [hstep'] at hstep
      cases hstep
      exact hsound
  | doubles answer' u _ _ hstep' hsound _ =>
      rw [hstep'] at hstep
      cases hstep
      exact hsound
  | overflows _ _ hstep' =>
      rw [hstep'] at hstep
      cases hstep

end HTable.Sound

/-! ## Runs -/

/-- From a sound table on, insertions are atomic and resizes are counted just as long as every
growth that is attempted gets its memory.  The induction is on the calls that are still to come. -/
theorem HTable.Sound.atomicRun_iff (h : t.Sound) (hcounts : t.Counts) (ops : List (Op K D)) :
    AtomicRun cb t.htGrows t ops ↔ GrowthsSucceed cb t ops := by
  induction ops generalizing t with
  | nil => exact iff_of_true rfl trivial
  | cons op ops ih =>
      rw [AtomicRun, GrowthsSucceed, and_iff_right rfl]
      cases h.step_counts hcounts cb op with
      | counts answer t' hsucceeds hatomic hstep hgrows hcounts' =>
          rw [and_iff_right hatomic, and_iff_right hsucceeds, hstep]
          dsimp only
          rw [← hgrows]
          exact ih (h.of_step hstep) hcounts'
      | miscounts answer t' hfails hstep hgrows =>
          rw [hstep]
          exact iff_of_false (fun hrun ↦ hgrows hrun.2.head) fun hrun ↦ hfails hrun.1
      | stops fault hsucceeds hatomic hstep =>
          rw [hstep]
          exact iff_of_true ⟨hatomic, trivial⟩ ⟨hsucceeds, trivial⟩
      | undefined hfails hatomic =>
          exact iff_of_false (fun hrun ↦ hatomic hrun.1) fun hrun ↦ hfails hrun.1

/-- In a run on a table that `htable_init` returned, insertions are atomic and the counter counts
the resizes that insertions made, just when every growth that an insertion attempts gets its
memory. -/
theorem atomicRun_iff_growthsSucceed (cb : Callbacks K) {malloc : Bool} {size factor : ℕ}
    (hpos : 0 < size) {t : HTable K D}
    (h : htableInit malloc size factor = .ok (.ok, some t)) (ops : List (Op K D)) :
    AtomicRun cb 0 t ops ↔ GrowthsSucceed cb t ops := by
  obtain ⟨_, hfits, rfl⟩ := htableInit_ok_iff.1 h
  exact (emptyTable_sound hpos hfits).atomicRun_iff hpos ops

/-- The second of three insertions doubles a table of one head, and is counted. -/
theorem smallTable_atomicRun : AtomicRun numberCallbacks 0 (emptyTable (D := ℕ) 1 1)
    [.insert 0 none ⟨true, true⟩, .insert 2 none ⟨true, true⟩, .insert 4 none ⟨false, true⟩] := by
  have hinit : htableInit true 1 1 = .ok (.ok, some (emptyTable (K := ℕ) (D := ℕ) 1 1)) :=
    htableInit_ok_iff.2 ⟨rfl, by decide, rfl⟩
  have hsucceed : GrowthsSucceed numberCallbacks (emptyTable (D := ℕ) 1 1)
      [.insert 0 none ⟨true, true⟩, .insert 2 none ⟨true, true⟩, .insert 4 none ⟨false, true⟩] :=
    ⟨fun _ _ _ ↦ ⟨rfl, by decide⟩, fun _ _ _ ↦ ⟨rfl, by decide⟩,
      fun _ hnode ↦ Bool.noConfusion hnode, trivial⟩
  exact (atomicRun_iff_growthsSucceed numberCallbacks (by decide) hinit _).2 hsucceed

/-- A table of one head that gets no memory for a second one has counted a resize. -/
theorem failedGrowth_not_atomicRun :
    (∃ t, run numberCallbacks (emptyTable (D := ℕ) 1 1)
        [.insert 0 none ⟨true, true⟩, .insert 2 none ⟨true, false⟩] =
          .ok ([.ret .ok, .ret .ok], t) ∧ t.htSize = 1 ∧ t.htGrows = 1) ∧
      ¬ AtomicRun numberCallbacks 0 (emptyTable (D := ℕ) 1 1)
        [.insert 0 none ⟨true, true⟩, .insert 2 none ⟨true, false⟩] := by
  refine ⟨⟨_, rfl, rfl, rfl⟩, fun hrun ↦ ?_⟩
  have hgrows : (1 : ℕ) = 0 := hrun.2.2.2.2
  contradiction

end Experimentation.HashTable
