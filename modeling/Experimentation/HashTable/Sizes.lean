import Experimentation.HashTable.Accounting
import Experimentation.HashTable.Nodes

/-!
# The size arithmetic of a hash table

A table computes three products of sizes and a shift, none of them checked: the bytes of the header
array, the limit, and both again when the table doubles.  The results are exact in every state of a
run just when the first limit does not wrap and no doubling that gets its memory computes a product
that does.  Sizes need not be powers of two here, and the callbacks may compute anything.
-/

namespace Experimentation.HashTable

open Semantics

variable {K D : Type}

/-- The sizes of a table, as mathematical integers, and the indices that they give. -/
structure HTable.Exact (t : HTable K D) : Prop where
  bytes : t.bytes = t.htSize * sizeofHhead
  limit : t.htLimit = t.htFactor * t.htSize
  /-- The head that a hash selects lies in the memory that was requested for the heads. -/
  index : ∀ hash, (bucketIndex t.htSize hash + 1) * sizeofHhead ≤ t.bytes

/-- The call doubles the table, and `malloc` gives it the memory that it asks for. -/
def Op.Doubles (cb : Callbacks K) (t : HTable K D) : Op K D → Prop
  | .insert key _ mallocs =>
      t.findNode cb key = .ok none ∧ mallocs.node = true ∧ t.htLimit < wrapSize (t.htUsed + 1) ∧
        mallocs.heads = true
  | .grow malloc => malloc = true
  | .remove _ | .freeObj _ _ | .search _ => False

/-- The sizes are exact in every state of the run, and no call leaves the defined language. -/
def ExactRun (cb : Callbacks K) : HTable K D → List (Op K D) → Prop
  | t, [] => t.Exact
  | t, op :: ops => t.Exact ∧
      match step cb t op with
      | .ok (_, t) => ExactRun cb t ops
      | .error _ => False

/-- No product wraps in a call of the run that doubles the table. -/
def DoublingsFit (cb : Callbacks K) : HTable K D → List (Op K D) → Prop
  | _, [] => True
  | t, op :: ops => (op.Doubles cb t → t.ProductsFit) ∧
      match step cb t op with
      | .ok (_, t) => DoublingsFit cb t ops
      | .error _ => True

variable {cb : Callbacks K} {t t' : HTable K D}

theorem ExactRun.head {ops : List (Op K D)} (h : ExactRun cb t ops) : t.Exact := by
  cases ops with
  | nil => exact h
  | cons op ops => exact h.1

/-- Only the sizes matter. -/
theorem HTable.Exact.of_eq (h : t.Exact) (hbytes : t'.bytes = t.bytes)
    (hsize : t'.htSize = t.htSize) (hfactor : t'.htFactor = t.htFactor)
    (hlimit : t'.htLimit = t.htLimit) : t'.Exact where
  bytes := by rw [hbytes, hsize, h.bytes]
  limit := by rw [hlimit, hfactor, hsize, h.limit]
  index hash := by
    rw [hsize, hbytes]
    exact h.index hash

theorem index_fits {size : ℕ} (hpos : 0 < size) (hash : ℕ) :
    (bucketIndex size hash + 1) * sizeofHhead ≤ size * sizeofHhead :=
  Nat.mul_le_mul_right _ (bucketIndex_lt hpos hash)

/-- A table without heads has no head to select. -/
theorem HTable.Exact.size_pos (h : t.Exact) : 0 < t.htSize := by
  by_contra hzero
  have hindex := h.index 0
  rw [h.bytes, Nat.eq_zero_of_not_pos hzero, Nat.zero_mul, Nat.succ_mul, sizeofHhead] at hindex
  omega

theorem HTable.Sound.exact_doubled_iff (h : t.Sound) (hfits : t.GrowthFits) :
    (t.doubled cb).Exact ↔ t.ProductsFit := by
  constructor
  · intro hexact
    refine ⟨hfits, ?_⟩
    have hlimit : wrapSize (t.htFactor * (2 * t.htSize)) = t.htFactor * (2 * t.htSize) :=
      hexact.limit
    rw [← hlimit]
    exact Nat.mod_lt _ (by decide)
  · intro hproducts
    exact ⟨rfl, wrapSize_of_lt hproducts.2, index_fits (Nat.mul_pos (by decide) h.pos)⟩

/-! ## Single calls -/

/-- The members that the sizes are made of are the same in the two tables. -/
structure SameSizes (t t' : HTable K D) : Prop where
  bytes : t'.bytes = t.bytes
  size : t'.htSize = t.htSize
  factor : t'.htFactor = t.htFactor
  limit : t'.htLimit = t.htLimit

theorem SameSizes.refl (t : HTable K D) : SameSizes t t := ⟨rfl, rfl, rfl, rfl⟩

theorem SameSizes.exact_iff (h : SameSizes t t') : t'.Exact ↔ t.Exact :=
  ⟨fun hexact ↦ hexact.of_eq h.bytes.symm h.size.symm h.factor.symm h.limit.symm,
    fun hexact ↦ hexact.of_eq h.bytes h.size h.factor h.limit⟩

/-- What a call does to the sizes of a table. -/
inductive SizeStep (cb : Callbacks K) (t : HTable K D) (op : Op K D) : Prop
  /-- It leaves them alone. -/
  | keeps (answer : Answer D) (t' : HTable K D) (hnot : ¬ op.Doubles cb t)
      (hstep : step cb t op = .ok (answer, t')) (hsound : t'.Sound) (hsame : SameSizes t t')
  /-- It doubles them. -/
  | doubles (answer : Answer D) (t' : HTable K D) (hdoubles : op.Doubles cb t)
      (hfits : t.GrowthFits) (hstep : step cb t op = .ok (answer, t')) (hsound : t'.Sound)
      (hsame : SameSizes (t.doubled cb) t')
  /-- It writes outside the memory that it requested for the new heads. -/
  | overflows {fault : Fault} (hdoubles : op.Doubles cb t) (hnot : ¬ t.GrowthFits)
      (hstep : step cb t op = .error fault)

namespace HTable.Sound

variable (h : t.Sound)
include h

theorem grow_sizes (cb : Callbacks K) (malloc : Bool) : SizeStep cb t (.grow malloc) := by
  cases malloc with
  | false => exact .keeps (.ret .nomem) t Bool.false_ne_true rfl h (.refl t)
  | true =>
      by_cases hfits : t.GrowthFits
      · refine .doubles (.ret .ok) (t.doubled cb) rfl hfits ?_ (h.doubled cb hfits) (.refl _)
        rw [step, htableGrow_eq h.length h.pos hfits]
        rfl
      · obtain ⟨fault, hgrow⟩ := h.htableGrow_error cb hfits
        exact .overflows rfl hfits (by rw [step, hgrow]; rfl)

theorem insert_sizes (cb : Callbacks K) (key : K) (data : Option D) (mallocs : InsertMallocs) :
    SizeStep cb t (.insert key data mallocs) := by
  have hwith := h.withNode cb ⟨key, data⟩
  cases h.insert_step cb key data mallocs with
  | existing n hfind hrun =>
      refine .keeps (.ret .existing) t ?_ (by rw [step, hrun]; rfl) h (.refl t)
      rintro ⟨hnone, _⟩
      rw [hfind] at hnone
      cases hnone
  | nomem _ hnode hrun =>
      refine .keeps (.ret .nomem) t ?_ (by rw [step, hrun]; rfl) h (.refl t)
      rintro ⟨_, htrue, _⟩
      rw [hnode] at htrue
      contradiction
  | added _ _ hlimit hrun =>
      exact .keeps (.ret .ok) _ (fun hdoubles ↦ hlimit hdoubles.2.2.1) (by rw [step, hrun]; rfl)
        hwith ⟨rfl, rfl, rfl, rfl⟩
  | resized hfind hnode hlimit hheads hfits hrun =>
      have hgrown := hwith.doubled cb hfits
      exact .doubles (.ret .ok)
        { (t.withNode cb ⟨key, data⟩).doubled cb with htGrows := wrapSize (t.htGrows + 1) }
        ⟨hfind, hnode, hlimit, hheads⟩ hfits (by rw [step, hrun]; rfl)
        ⟨⟨hgrown.length, hgrown.pos⟩, hgrown.fits⟩ ⟨rfl, rfl, rfl, rfl⟩
  | unresized _ _ _ hheads hrun =>
      refine .keeps (.ret .ok)
        { t.withNode cb ⟨key, data⟩ with htGrows := wrapSize (t.htGrows + 1) } ?_
        (by rw [step, hrun]; rfl) ⟨⟨hwith.length, hwith.pos⟩, hwith.fits⟩ ⟨rfl, rfl, rfl, rfl⟩
      rintro ⟨_, _, _, htrue⟩
      rw [hheads] at htrue
      contradiction
  | overflows fault hfind hnode hlimit hheads hfits hrun =>
      exact .overflows ⟨hfind, hnode, hlimit, hheads⟩ hfits (by rw [step, hrun]; rfl)

/-- A call on a sound table leaves the sizes alone, doubles them, or is undefined. -/
theorem step_sizes (cb : Callbacks K) (op : Op K D) : SizeStep cb t op := by
  cases op with
  | insert key data mallocs => exact h.insert_sizes cb key data mallocs
  | grow malloc => exact h.grow_sizes cb malloc
  | remove key =>
      obtain ⟨found, hfind⟩ := h.toIndexed.exists_findNode cb key
      cases found with
      | none =>
          refine .keeps (.ret .notfound) t not_false ?_ h (.refl t)
          rw [step, htableRemove, hfind]
          rfl
      | some n =>
          refine .keeps (.ret .ok) (t.dropNode cb key) not_false ?_ (h.dropNode cb key)
            ⟨rfl, rfl, rfl, rfl⟩
          rw [step, htableRemove, hfind]
          rfl
  | freeObj key htfree =>
      obtain ⟨found, hfind⟩ := h.toIndexed.exists_findNode cb key
      cases found with
      | none =>
          refine .keeps (.ret .notfound) t not_false ?_ h (.refl t)
          rw [step, HashTable.htableFreeObj, hfind]
          rfl
      | some n =>
          refine .keeps (.ret .ok) (t.dropNode cb key) not_false ?_ (h.dropNode cb key)
            ⟨rfl, rfl, rfl, rfl⟩
          rw [step, HashTable.htableFreeObj, hfind]
          rfl
  | search key =>
      obtain ⟨found, hfound⟩ := h.toIndexed.exists_htableSearch cb key
      refine .keeps (.data found) t not_false ?_ h (.refl t)
      rw [step, hfound]
      rfl

end HTable.Sound

/-! ## Runs -/

/-- From a sound table with exact sizes, the sizes stay exact just when no doubling computes a
product that wraps.  The induction is on the calls that are still to come. -/
theorem HTable.Sound.exactRun_iff (h : t.Sound) (hexact : t.Exact) (ops : List (Op K D)) :
    ExactRun cb t ops ↔ DoublingsFit cb t ops := by
  induction ops generalizing t with
  | nil => exact iff_of_true hexact trivial
  | cons op ops ih =>
      rw [ExactRun, DoublingsFit, and_iff_right hexact]
      cases h.step_sizes cb op with
      | keeps answer t' hnot hstep hsound hsame =>
          rw [hstep]
          dsimp only
          rw [ih hsound (hsame.exact_iff.2 hexact)]
          exact ⟨fun hrest ↦ ⟨fun hdoubles ↦ absurd hdoubles hnot, hrest⟩, And.right⟩
      | doubles answer t' hdoubles hfits hstep hsound hsame =>
          rw [hstep]
          dsimp only
          have hiff := hsame.exact_iff.trans (h.exact_doubled_iff hfits)
          constructor
          · intro hrun
            have hexact' := hrun.head
            exact ⟨fun _ ↦ hiff.1 hexact', (ih hsound hexact').1 hrun⟩
          · rintro ⟨hproducts, hrest⟩
            exact (ih hsound (hiff.2 (hproducts hdoubles))).2 hrest
      | overflows hdoubles hnot hstep =>
          rw [hstep]
          exact iff_of_false id fun hfits ↦ hnot (hfits.1 hdoubles).1

/-- The sizes of a table that `htable_init` returns are exact just when it has a head and its limit
does not wrap. -/
theorem emptyTable_exact_iff {size factor : ℕ} :
    (emptyTable size factor : HTable K D).Exact ↔ 0 < size ∧ factor * size < sizeModulus := by
  constructor
  · intro hexact
    refine ⟨hexact.size_pos, ?_⟩
    have hlimit : wrapSize (factor * size) = factor * size := hexact.limit
    rw [← hlimit]
    exact Nat.mod_lt _ (by decide)
  · rintro ⟨hpos, hlimit⟩
    exact ⟨rfl, wrapSize_of_lt hlimit, index_fits hpos⟩

/-- The sizes are exact in every state of a run just when the table has a head, its first limit does
not wrap, and neither does a product of a doubling. -/
theorem exactRun_iff_doublingsFit (cb : Callbacks K) {malloc : Bool} {size factor : ℕ}
    {t : HTable K D} (h : htableInit malloc size factor = .ok (.ok, some t))
    (ops : List (Op K D)) :
    ExactRun cb t ops ↔ (0 < size ∧ factor * size < sizeModulus) ∧ DoublingsFit cb t ops := by
  obtain ⟨_, hfits, rfl⟩ := htableInit_ok_iff.1 h
  by_cases hexact : (emptyTable size factor : HTable K D).Exact
  · obtain ⟨hpos, hlimit⟩ := emptyTable_exact_iff.1 hexact
    rw [(emptyTable_sound hpos hfits).exactRun_iff hexact ops, and_iff_right ⟨hpos, hlimit⟩]
  · exact iff_of_false (fun hrun ↦ hexact hrun.head)
      fun hcond ↦ hexact (emptyTable_exact_iff.2 hcond.1)

/-- A table of one head and factor 1 doubles at its second entry, and its sizes stay exact. -/
theorem smallTable_exactRun : ExactRun numberCallbacks (emptyTable (D := ℕ) 1 1)
    [.insert 0 none ⟨true, true⟩, .insert 2 none ⟨true, true⟩] := by
  have hinit : htableInit true 1 1 = .ok (.ok, some (emptyTable (K := ℕ) (D := ℕ) 1 1)) :=
    htableInit_ok_iff.2 ⟨rfl, by decide, rfl⟩
  have hfits : DoublingsFit numberCallbacks (emptyTable (D := ℕ) 1 1)
      [.insert 0 none ⟨true, true⟩, .insert 2 none ⟨true, true⟩] :=
    ⟨fun _ ↦ ⟨by decide, by decide⟩, fun _ ↦ ⟨by decide, by decide⟩, trivial⟩
  exact (exactRun_iff_doublingsFit numberCallbacks hinit _).2 ⟨⟨by decide, by decide⟩, hfits⟩

/-- With 16 heads and the factor `2 ^ 60` the limit is not `2 ^ 64` but zero. -/
theorem wideFactor_not_exact : ∃ t : HTable ℕ ℕ,
    htableInit true 16 (2 ^ 60) = .ok (.ok, some t) ∧ t.htLimit = 0 ∧
      ¬ ExactRun numberCallbacks t [] := by
  refine ⟨emptyTable 16 (2 ^ 60), rfl, rfl, fun hexact ↦ ?_⟩
  have hlimit := hexact.limit
  revert hlimit
  decide

end Experimentation.HashTable
