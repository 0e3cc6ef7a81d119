import Experimentation.HashTable.Refinement

/-!
# The past of a hash table

A table that was grown and whose entries were inserted and removed in any order is laid out as one
that was created with its final size and was given the entries that survived, in the order in which
they were inserted.  Growing empties the chains from their heads and appends to the new ones, which
keeps that order, since the wider mask tells more entries apart than the narrower one.
-/

namespace Experimentation.HashTable

open Semantics Buckets

variable {K D : Type}

/-- The entries that the calls on an empty table leave, in the order of their insertion: a new entry
comes last, and one that is taken out leaves the order of the others alone. -/
def surviving (cb : Callbacks K) (ops : List (Op K D)) : List (HNode K D) :=
  ops.foldl (Op.entries cb) []

/-- The calls that insert entries in turn. -/
def insertions (es : List (HNode K D)) : List (Op K D) :=
  es.map fun e ↦ .insert e.hnKey e.hnData ⟨true, true⟩

/-- The table shows nothing but its size and its entries in the order of their insertion. -/
structure HistoryIndependent (cb : Callbacks K) (t : HTable K D) (es : List (HNode K D)) : Prop where
  heads : t.htTable.length = t.htSize
  /-- A chain has the entries with the masked hash of its bucket. -/
  chains : ∀ b < t.htSize, t.htTable[b]? =
    some (es.filter fun e ↦ cb.hashf e.hnKey &&& (t.htSize - 1) = b)
  /-- A table of that size can be created, and inserting the entries without growing gives the same
  chains and the same calls of `htable_traverse`. -/
  rebuilt : ∀ factor, ∃ t₁, htableInit true t.htSize factor = .ok (.ok, some t₁) ∧
    (es.length ≤ t₁.htLimit → ∃ t₂,
      run cb t₁ (insertions es) = .ok (es.map fun _ ↦ .ret .ok, t₂) ∧ t₂.htSize = t.htSize ∧
        t₂.htTable = t.htTable ∧ ∀ (σ : Type) (pfunc : σ → Option D → Exec σ) (s : σ),
          htableTraverse t₂ pfunc s = htableTraverse t pfunc s)

section Rebuild

variable {cb : LawfulCallbacks K} {t : HTable K D} {es fs : List (HNode K D)}

theorem inserted_of_le {n : HNode K D} (hused : t.htUsed < t.htLimit) {malloc : Bool} :
    t.inserted cb malloc n = t.withNode cb n := by
  have hwrap : wrapSize (t.htUsed + 1) ≤ t.htUsed + 1 := Nat.mod_le _ _
  rw [HTable.inserted, if_neg (by omega)]

/-- New entries that stay below the limit are appended one after the other.  The induction is on the
entries that are still to come. -/
theorem Holds.insertions (h : Holds (cb : Callbacks K) t fs)
    (hdistinct : (fs ++ es).Pairwise fun a b ↦ cb.cmpf a.hnKey b.hnKey ≠ 0)
    (hlimit : (fs ++ es).length ≤ t.htLimit) :
    ∃ t', HashTable.run cb t (HashTable.insertions es) = .ok (es.map fun _ ↦ .ret .ok, t') ∧
      Holds (cb : Callbacks K) t' (fs ++ es) ∧ t'.htSize = t.htSize := by
  induction es generalizing t fs with
  | nil =>
      rw [List.append_nil]
      exact ⟨t, rfl, h, rfl⟩
  | cons e es ih =>
      have hassoc : fs ++ e :: es = fs ++ [e] ++ es := by rw [List.append_assoc, List.singleton_append]
      have hnew : ∀ f ∈ fs, cb.cmpf f.hnKey e.hnKey ≠ 0 := fun f hf ↦
        (List.pairwise_append.1 hdistinct).2.2 f hf e List.mem_cons_self
      have hfind : fs.find? (cb.sameKey e.hnKey) = none :=
        List.find?_eq_none.2 fun f hf hsame ↦ hnew f hf (sameKey_iff.1 hsame)
      have hused : t.htUsed < t.htLimit := by
        have hle : t.htUsed ≤ fs.length := h.used ▸ Nat.mod_le _ _
        rw [List.length_append, List.length_cons] at hlimit
        omega
      have hnogrow : ∀ malloc, t.inserted cb malloc ⟨e.hnKey, e.hnData⟩ = t.withNode cb e :=
        fun _ ↦ inserted_of_le hused
      have hstep : HashTable.step cb t (.insert e.hnKey e.hnData ⟨true, true⟩) =
          .ok (.ret .ok, t.withNode cb e) := by
        have hfits : t.InsertFits true := fun hgrow _ ↦ by
          have hwrap : wrapSize (t.htUsed + 1) ≤ t.htUsed + 1 := Nat.mod_le _ _
          omega
        rw [HashTable.step, h.htableInsert_new e.hnKey e.hnData hfind rfl hfits, hnogrow]
        rfl
      rw [hassoc] at hdistinct hlimit ⊢
      obtain ⟨t', hrun, hholds, hsize⟩ := ih (h.withNode hnew) hdistinct hlimit
      exact ⟨t', run_cons hstep hrun, hholds, hsize⟩

theorem Holds.historyIndependent (h : Holds (cb : Callbacks K) t es) :
    HistoryIndependent cb t es where
  heads := h.length
  chains b hb := by
    rw [h.table, layout_getElem? hb, chain]
    simp only [bucketOf, bucketIndex_eq h.size_pos]
  rebuilt factor := by
    obtain ⟨k, hk⟩ := h.pow
    have hfits := h.fits
    rw [hk] at hfits ⊢
    have hinit : htableInit true (2 ^ k) factor =
        .ok (.ok, some (emptyTable (K := K) (D := D) (2 ^ k) factor)) :=
      htableInit_ok_iff.2 ⟨rfl, hfits, rfl⟩
    refine ⟨_, hinit, fun hlimit ↦ ?_⟩
    have hdistinct : ([] ++ es).Pairwise fun (a b : HNode K D) ↦ cb.cmpf a.hnKey b.hnKey ≠ 0 :=
      h.distinct
    obtain ⟨t₂, hrun, hholds, hsize⟩ :=
      (emptyTable_holds cb.toCallbacks hfits).insertions hdistinct hlimit
    rw [List.nil_append] at hholds
    have hsame : t₂.htSize = t.htSize := hsize.trans hk.symm
    have htable : t₂.htTable = t.htTable := by rw [hholds.table, h.table, hsame]
    refine ⟨t₂, hrun, hsize, htable, fun σ pfunc s ↦ ?_⟩
    rw [htableTraverse, htableTraverse, HTable.forEachNode_eq hholds.length,
      HTable.forEachNode_eq h.length, htable]

end Rebuild

theorem Holds.exists_run {cb : LawfulCallbacks K} {t : HTable K D} {es : List (HNode K D)}
    (h : Holds (cb : Callbacks K) t es) {ops : List (Op K D)} (hwrap : NoWrapRun cb t ops) :
    ∃ answers t', HashTable.run cb t ops = .ok (answers, t') ∧
      Holds (cb : Callbacks K) t' (ops.foldl (Op.entries cb) es) := by
  induction ops generalizing t es with
  | nil => exact ⟨[], t, rfl, h⟩
  | cons op ops ih =>
      obtain ⟨hop, hrest⟩ := hwrap
      obtain ⟨t₁, hstep, hholds⟩ := h.step hop.fits
      rw [hstep] at hrest
      obtain ⟨answers, t', hrun, hholds'⟩ := ih hholds hrest
      exact ⟨_, t', run_cons hstep hrun, hholds'⟩

/-- After any run of calls a table is laid out as one that was created with its final size and into
which the surviving entries were inserted in the same order without growing.  Allocations may fail
in the run. -/
theorem run_historyIndependent {cb : LawfulCallbacks K} {k factor : ℕ} {t₀ : HTable K D}
    (hinit : htableInit true (2 ^ k) factor = .ok (.ok, some t₀)) {ops : List (Op K D)}
    (hwrap : NoWrapRun cb t₀ ops) :
    ∃ answers t, run cb t₀ ops = .ok (answers, t) ∧
      HistoryIndependent cb t (surviving cb ops) := by
  obtain ⟨_, hfits, rfl⟩ := htableInit_ok_iff.1 hinit
  obtain ⟨answers, t, hrun, hholds⟩ := (emptyTable_holds cb.toCallbacks hfits).exists_run hwrap
  exact ⟨answers, t, hrun, hholds.historyIndependent⟩

/-- A table that grew once, from one head to two, and lost its first entry. -/
theorem numberTable_historyIndependent : ∃ answers t,
    run numberCallbacks (emptyTable (D := ℕ) 1 1)
      [.insert 4 (some 5) ⟨true, true⟩, .insert 2 (some 7) ⟨true, true⟩, .remove 4,
        .insert 6 (some 8) ⟨true, true⟩] = .ok (answers, t) ∧
      HistoryIndependent numberCallbacks t [⟨2, some 7⟩, ⟨6, some 8⟩] := by
  have hinit : htableInit true (2 ^ 0) 1 = .ok (.ok, some (emptyTable (K := ℕ) (D := ℕ) (2 ^ 0) 1)) :=
    htableInit_ok_iff.2 ⟨rfl, by decide, rfl⟩
  exact run_historyIndependent hinit
    ⟨fun _ ↦ ⟨by decide, fun _ ↦ by decide⟩, fun _ ↦ ⟨by decide, fun _ ↦ by decide⟩, trivial,
      fun _ ↦ ⟨by decide, fun _ ↦ by decide⟩, trivial⟩

end Experimentation.HashTable
