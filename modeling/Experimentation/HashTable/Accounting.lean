import Experimentation.HashTable.History

/-!
# The counters of a hash table

The load of a table stays within its limit: one doubling makes room for the entry that exceeded it,
since the limit is positive and doubles with the table.  The size tells how often a table was
doubled, and the entries can be counted by the counter of the table, along the chains, or by a
traversal.

The count of the entries is a `size_t`.  In a table of one head with the largest factor it can wrap
without ever exceeding the limit, so the traversal is counted in the same type.
-/

namespace Experimentation.HashTable

open Semantics Buckets

variable {K D : Type}

def htableStatGetGrows (t : HTable K D) : ℕ := t.htGrows

def htableStatGetChainLen (t : HTable K D) (pos : ℕ) : Exec ℕ :=
  if pos ≥ t.htSize then
    return 0
  else do
    let chain ← headAt t.htTable pos
    return chain.foldl (fun len _ ↦ wrapSize (len + 1)) 0

/-- The sum of the lengths of the chains at the positions below `ht_size`. -/
def chainLenSum (t : HTable K D) : Exec ℕ :=
  (List.range t.htSize).foldlM (fun sum pos ↦ do
    let len ← htableStatGetChainLen t pos
    return sum + len) 0

/-- The number of calls that `htable_traverse` makes. -/
def callbackCount (t : HTable K D) : Exec ℕ := htableTraverse t (fun count _ ↦ return count + 1) 0

/-- The call is `htable_grow`. -/
def Op.isGrow : Op K D → Bool
  | .grow _ => true
  | .insert _ _ _ | .remove _ | .freeObj _ _ | .search _ => false

/-- Neither product that the doubling of a table computes wraps. -/
def HTable.ProductsFit (t : HTable K D) : Prop :=
  t.GrowthFits ∧ t.htFactor * (2 * t.htSize) < sizeModulus

/-- No product that the call computes wraps. -/
def Op.ProductsFit (cb : Callbacks K) (t : HTable K D) : Op K D → Prop
  | .insert key _ _ =>
      t.findNode cb key = .ok none → t.htLimit < wrapSize (t.htUsed + 1) → t.ProductsFit
  | .grow _ => t.ProductsFit
  | .remove _ | .freeObj _ _ | .search _ => True

/-- No product wraps in any call of the run. -/
def ProductsFitRun (cb : Callbacks K) : HTable K D → List (Op K D) → Prop
  | _, [] => True
  | t, op :: ops => op.ProductsFit cb t ∧
      match step cb t op with
      | .ok (_, t) => ProductsFitRun cb t ops
      | .error _ => True

/-- The counters of a table that was created with `size` heads and for which `htable_grow` was
called `grows` times. -/
structure CountersAgree (size grows : ℕ) (t : HTable K D) : Prop where
  load : t.htUsed ≤ t.htLimit
  limit : t.htLimit = t.htFactor * t.htSize
  size : t.htSize = size * 2 ^ (htableStatGetGrows t + grows)
  chains : chainLenSum t = .ok t.htUsed
  /-- The traversal counts what the table counts; only below the largest limit of all could there
  be more entries than a `size_t` can count. -/
  callbacks : ∃ count, callbackCount t = .ok count ∧ t.htUsed = wrapSize count ∧
    (count < sizeModulus ∨ t.htLimit = sizeModulus - 1)

/-! ## The invariant -/

/-- What holds of the counters of a table with the entries `es` after every call. -/
structure Accounted (cb : Callbacks K) (size grows : ℕ) (t : HTable K D) (es : List (HNode K D)) :
    Prop where
  holds : Holds cb t es
  load : t.htUsed ≤ t.htLimit
  limit : t.htLimit = t.htFactor * t.htSize
  factor : 0 < t.htFactor
  size : t.htSize = size * 2 ^ (t.htGrows + grows)
  count : es.length < sizeModulus ∨ t.htLimit = sizeModulus - 1

namespace Accounted

section Tables

variable {cb : Callbacks K} {t : HTable K D} {es : List (HNode K D)} {size grows : ℕ}

theorem limit_pos (h : Accounted cb size grows t es) : 0 < t.htLimit := by
  rw [h.limit]
  exact Nat.mul_pos h.factor h.holds.size_pos

theorem limit_lt (h : Accounted cb size grows t es) : t.htLimit < sizeModulus := by
  rw [h.holds.limit]
  exact Nat.mod_lt _ (by decide)

/-- A new entry that does not exceed the limit. -/
theorem withNode (h : Accounted cb size grows t es) {n : HNode K D}
    (hnew : ∀ e ∈ es, cb.cmpf e.hnKey n.hnKey ≠ 0) (hload : wrapSize (t.htUsed + 1) ≤ t.htLimit) :
    Accounted cb size grows (t.withNode cb n) (es ++ [n]) where
  holds := h.holds.withNode hnew
  load := hload
  limit := h.limit
  factor := h.factor
  size := h.size
  count := by
    rw [List.length_append, List.length_singleton]
    rcases h.count with hlt | hmax
    · by_cases hnext : es.length + 1 < sizeModulus
      · exact .inl hnext
      · -- the count is about to wrap, so the limit is the largest number
        have hused : t.htUsed = es.length := by rw [h.holds.used, wrapSize_of_lt hlt]
        have hload := h.load
        have hlimit := h.limit_lt
        exact .inr (by change t.htLimit = _; omega)
    · exact .inr hmax

theorem load_doubled (h : Accounted cb size grows t es) (hfits : t.ProductsFit) :
    (t.doubled cb).htLimit = 2 * t.htLimit ∧ t.htLimit + 1 ≤ (t.doubled cb).htLimit := by
  have hdouble : (t.doubled cb).htLimit = 2 * t.htLimit := by
    change wrapSize (t.htFactor * (2 * t.htSize)) = _
    rw [wrapSize_of_lt hfits.2, h.limit, Nat.mul_left_comm]
  have hpos := h.limit_pos
  exact ⟨hdouble, by omega⟩

/-- A table whose entry may have exceeded its limit by one is doubled. -/
theorem doubled (h : Accounted cb size grows t es) (hfits : t.ProductsFit) :
    Accounted cb size (grows + 1) (t.doubled cb) es where
  holds := h.holds.doubled hfits.1
  load := h.load.trans ((Nat.le_succ _).trans (h.load_doubled hfits).2)
  limit := by
    rw [(h.load_doubled hfits).1, h.limit]
    exact Nat.mul_left_comm 2 t.htFactor t.htSize
  factor := h.factor
  size := by
    change 2 * t.htSize = size * 2 ^ (t.htGrows + grows + 1)
    rw [h.size, Nat.pow_succ]
    ac_rfl
  count := by
    rcases h.count with hlt | hmax
    · exact .inl hlt
    · have hlimit := (h.load_doubled hfits).1
      have hlt : (t.doubled cb).htLimit < sizeModulus := by
        rw [(h.holds.doubled hfits.1).limit]
        exact Nat.mod_lt _ (by decide)
      have hpos := h.limit_pos
      omega

theorem grows_lt (h : Accounted cb size grows t es) (hfits : t.GrowthFits) :
    t.htGrows + 1 < sizeModulus := by
  have hsize : 0 < size := Nat.pos_of_ne_zero fun hzero ↦ by
    have hpos := h.holds.size_pos
    rw [h.size, hzero, Nat.zero_mul] at hpos
    exact Nat.lt_irrefl 0 hpos
  have hlt : t.htGrows + 1 ≤ 2 * t.htSize := by
    calc
      t.htGrows + 1 ≤ 2 ^ t.htGrows := Nat.lt_two_pow_self
      _ ≤ 2 ^ (t.htGrows + grows) := Nat.pow_le_pow_right (by decide) (Nat.le_add_right _ _)
      _ ≤ size * 2 ^ (t.htGrows + grows) := Nat.le_mul_of_pos_left _ hsize
      _ = t.htSize := h.size.symm
      _ ≤ 2 * t.htSize := Nat.le_mul_of_pos_left _ (by decide)
  unfold HTable.GrowthFits sizeofHhead at hfits
  omega

/-- A new entry, after which the table grows if its limit is exceeded. -/
theorem inserted (h : Accounted cb size grows t es) {n : HNode K D}
    (hnew : ∀ e ∈ es, cb.cmpf e.hnKey n.hnKey ≠ 0)
    (hfits : t.htLimit < wrapSize (t.htUsed + 1) → t.ProductsFit) :
    Accounted cb size grows (t.inserted cb true n) (es ++ [n]) := by
  have hholds : Holds cb (t.inserted cb true n) (es ++ [n]) :=
    h.holds.inserted hnew fun hlimit _ ↦ (hfits hlimit).1
  by_cases hlimit : t.htLimit < wrapSize (t.htUsed + 1)
  · have hproducts := hfits hlimit
    have hgrown : t.inserted cb true n =
        { (t.withNode cb n).doubled cb with htGrows := wrapSize (t.htGrows + 1) } := by
      rw [HTable.inserted, if_pos hlimit]
      rfl
    have hused : wrapSize (t.htUsed + 1) ≤ t.htLimit + 1 :=
      (Nat.mod_le _ _).trans (Nat.succ_le_succ h.load)
    rw [hgrown] at hholds ⊢
    refine ⟨hholds, hused.trans (h.load_doubled hproducts).2, ?_, h.factor, ?_, .inl ?_⟩
    · exact (h.doubled hproducts).limit
    · have hsize := (h.doubled hproducts).size
      dsimp only
      rw [wrapSize_of_lt (h.grows_lt hproducts.1), Nat.add_right_comm]
      exact hsize
    · -- the limit is below the count, so it is not the largest number
      have hcount : es.length < sizeModulus := h.count.resolve_right fun hmax ↦ by
        have hlt : wrapSize (t.htUsed + 1) < sizeModulus := Nat.mod_lt _ (by decide)
        omega
      have hexact : t.htUsed = es.length := by rw [h.holds.used, wrapSize_of_lt hcount]
      have hroom : t.htUsed + 1 < sizeModulus := by
        by_contra hwrap
        have hzero : wrapSize (t.htUsed + 1) = 0 := by
          have heq : t.htUsed + 1 = sizeModulus := by omega
          rw [heq, wrapSize, Nat.mod_self]
        omega
      rw [List.length_append, List.length_singleton]
      omega
  · rw [HTable.inserted, if_neg hlimit]
    exact h.withNode hnew (Nat.le_of_not_lt hlimit)

theorem shrunk (h : Accounted cb size grows t es) {t' : HTable K D} {es' : List (HNode K D)}
    (hholds : Holds cb t' es') (hle : es'.length ≤ es.length) (hlimit : t'.htLimit = t.htLimit)
    (hfactor : t'.htFactor = t.htFactor) (hsize : t'.htSize = t.htSize)
    (hgrows : t'.htGrows = t.htGrows) : Accounted cb size grows t' es' where
  holds := hholds
  load := by
    have hlt := h.limit_lt
    rw [hlimit, hholds.used]
    rcases h.count with hcount | hmax
    · have hused : t.htUsed = es.length := by rw [h.holds.used, wrapSize_of_lt hcount]
      rw [wrapSize_of_lt (hle.trans_lt hcount)]
      exact hle.trans (hused ▸ h.load)
    · have hwrap : wrapSize es'.length < sizeModulus := Nat.mod_lt _ (by decide)
      omega
  limit := by rw [hlimit, hfactor, hsize, h.limit]
  factor := hfactor ▸ h.factor
  size := by rw [hsize, hgrows, h.size]
  count := by
    rw [hlimit]
    exact h.count.imp_left hle.trans_lt

end Tables

section Runs

variable {cb : LawfulCallbacks K} {t : HTable K D} {es : List (HNode K D)} {size grows : ℕ}

/-- A call that takes an entry out. -/
theorem erased (h : Accounted (cb : Callbacks K) size grows t es) (key : K) :
    Accounted (cb : Callbacks K) size grows
      (if es.find? (cb.sameKey key) = none then t else t.dropNode cb key)
      (es.eraseP (cb.sameKey key)) := by
  have hholds := h.holds.erased key
  have hle : (es.eraseP (cb.sameKey key)).length ≤ es.length := List.eraseP_sublist.length_le
  by_cases hfind : es.find? (cb.sameKey key) = none
  · rw [if_pos hfind] at hholds ⊢
    exact h.shrunk hholds hle rfl rfl rfl rfl
  · rw [if_neg hfind] at hholds ⊢
    exact h.shrunk hholds hle rfl rfl rfl rfl

/-- One call keeps the counters in agreement. -/
theorem step (h : Accounted (cb : Callbacks K) size grows t es) {op : Op K D} (hok : op.Succeeds)
    (hfits : op.ProductsFit cb t) :
    ∃ answer t', HashTable.step cb t op = .ok (answer, t') ∧
      Accounted (cb : Callbacks K) size (grows + op.isGrow.toNat) t'
        (op.entries cb es) := by
  cases op with
  | insert key data mallocs =>
      obtain ⟨hnode, hheads⟩ := hok
      rw [Op.entries]
      by_cases hfind : es.find? (cb.sameKey key) = none
      · have hproducts : t.htLimit < wrapSize (t.htUsed + 1) → t.ProductsFit :=
          hfits (by rw [h.holds.findNode_eq key, hfind])
        have hroom : t.InsertFits mallocs.heads := fun hlimit _ ↦ (hproducts hlimit).1
        rw [if_pos ⟨hfind, hnode⟩]
        refine ⟨.ret .ok, _, ?_, h.inserted (new_of_find? hfind) hproducts⟩
        rw [HashTable.step, h.holds.htableInsert_new key data hfind hnode hroom, hheads]
        rfl
      · rw [if_neg fun hnew ↦ hfind hnew.1]
        refine ⟨.ret .existing, t, ?_, h⟩
        rw [HashTable.step, h.holds.htableInsert_existing key mallocs data hfind]
        rfl
  | remove key => exact ⟨_, _, h.holds.step_remove key, h.erased key⟩
  | freeObj key htfree => exact ⟨_, _, h.holds.step_freeObj key htfree, h.erased key⟩
  | grow malloc =>
      have hmalloc : malloc = true := hok
      refine ⟨.ret .ok, t.doubled cb, ?_, h.doubled hfits⟩
      rw [HashTable.step, h.holds.htableGrow_eq fun _ ↦ hfits.1, hmalloc]
      rfl
  | search key =>
      obtain ⟨t', hrun, _⟩ := h.holds.step (show (Op.search key : Op K D).Fits cb t from trivial)
      have hsame : t' = t := by
        rw [HashTable.step, h.holds.htableSearch_eq key] at hrun
        cases hrun
        rfl
      exact ⟨_, t, hsame ▸ hrun, h⟩

/-- A whole run keeps the counters in agreement. -/
theorem run (h : Accounted (cb : Callbacks K) size grows t es) {ops : List (Op K D)}
    (hok : ∀ op ∈ ops, op.Succeeds) (hfits : ProductsFitRun cb t ops) :
    ∃ answers t', HashTable.run cb t ops = .ok (answers, t') ∧
      Accounted (cb : Callbacks K) size (grows + ops.countP Op.isGrow) t'
        (ops.foldl (Op.entries cb) es) := by
  induction ops generalizing t es grows with
  | nil => exact ⟨[], t, rfl, h⟩
  | cons op ops ih =>
      obtain ⟨hop, hrest⟩ := hfits
      obtain ⟨answer, t₁, hstep, hnext⟩ := h.step (hok op List.mem_cons_self) hop
      rw [hstep] at hrest
      obtain ⟨answers, t', hrun, hlast⟩ :=
        ih hnext (fun op' hop' ↦ hok op' (List.mem_cons_of_mem _ hop')) hrest
      have hcount : grows + (op :: ops).countP Op.isGrow =
          grows + op.isGrow.toNat + ops.countP Op.isGrow := by
        rw [List.countP_cons]
        cases op.isGrow with
        | true => rw [if_pos rfl, Bool.toNat_true, Nat.add_comm (List.countP _ _), Nat.add_assoc]
        | false => rfl
      rw [hcount]
      exact ⟨_, t', run_cons hstep hrun, hlast⟩

end Runs

end Accounted

/-! ## The counts -/

section Counts

variable {cb : Callbacks K} {t : HTable K D} {es : List (HNode K D)}

theorem Holds.callbackCount_eq (h : Holds cb t es) : callbackCount t = .ok es.length := by
  rw [callbackCount, htableTraverse, HTable.forEachNode_eq h.length, Exec.foldlM_count,
    Nat.zero_add, h.flatten_perm.length_eq]

theorem Holds.chainLen_eq (h : Holds cb t es) {pos : ℕ} (hpos : pos < t.htSize) :
    htableStatGetChainLen t pos =
      .ok (wrapSize (chain (bucketOf cb t.htSize) es pos).length) := by
  have hhead : headAt t.htTable pos = .ok (chain (bucketOf cb t.htSize) es pos) :=
    headAt_eq (by rw [h.table, layout_getElem? hpos])
  have hcount := foldl_wrapSize (chain (bucketOf cb t.htSize) es pos) 0
  rw [Nat.zero_add] at hcount
  rw [htableStatGetChainLen, if_neg (Nat.not_le_of_lt hpos), hhead, Exec.ok_bind]
  exact congrArg Except.ok hcount

theorem Holds.chainLenSum_eq (h : Holds cb t es) : chainLenSum t = .ok ((List.range t.htSize).map
    fun pos ↦ wrapSize (chain (bucketOf cb t.htSize) es pos).length).sum := by
  rw [chainLenSum, Exec.foldlM_add fun pos hpos ↦ h.chainLen_eq (List.mem_range.1 hpos),
    Nat.zero_add]

theorem Holds.sum_length (h : Holds cb t es) : ((List.range t.htSize).map
    fun pos ↦ (chain (bucketOf cb t.htSize) es pos).length).sum = es.length := by
  have hlength := h.flatten_perm.length_eq
  rw [h.table, List.length_flatten, layout, List.map_map] at hlength
  exact hlength

end Counts

theorem Accounted.chainLenSum_eq {cb : Callbacks K} {t : HTable K D} {es : List (HNode K D)}
    {size grows : ℕ} (h : Accounted cb size grows t es) : chainLenSum t = .ok t.htUsed := by
  rw [h.holds.chainLenSum_eq, h.holds.used]
  by_cases hcount : es.length < sizeModulus
  · have hchains : ∀ pos ∈ List.range t.htSize,
        wrapSize (chain (bucketOf cb t.htSize) es pos).length =
          (chain (bucketOf cb t.htSize) es pos).length := fun pos _ ↦
      wrapSize_of_lt ((List.length_filter_le _ _).trans_lt hcount)
    rw [List.map_congr_left hchains, h.holds.sum_length, wrapSize_of_lt hcount]
  · -- the limit is odd, so there is one head
    have hlimit := h.count.resolve_left hcount
    have hone : t.htSize = 1 := by
      obtain ⟨k, hk⟩ := h.holds.pow
      rw [h.limit, hk] at hlimit
      cases k with
      | zero => exact hk
      | succ k =>
          rw [Nat.pow_succ, ← Nat.mul_assoc] at hlimit
          unfold sizeModulus at hlimit
          omega
    have hsum := h.holds.sum_length
    rw [hone] at hsum ⊢
    rw [List.range_one, List.map_singleton, List.sum_singleton] at hsum ⊢
    rw [hsum]

/-- What the counters of a table say is in agreement after every call of a run. -/
theorem run_countersAgree {cb : LawfulCallbacks K} {k factor : ℕ} {t₀ : HTable K D}
    (hinit : htableInit true (2 ^ k) factor = .ok (.ok, some t₀)) (hfactor : 1 ≤ factor)
    (hlimit : factor * 2 ^ k < sizeModulus) {ops : List (Op K D)}
    (hok : ∀ op ∈ ops, op.Succeeds) (hwrap : ProductsFitRun cb t₀ ops) :
    ∃ answers t, run cb t₀ ops = .ok (answers, t) ∧
      CountersAgree (2 ^ k) (ops.countP Op.isGrow) t := by
  obtain ⟨_, hfits, rfl⟩ := htableInit_ok_iff.1 hinit
  have hlimit₀ : (emptyTable (2 ^ k) factor : HTable K D).htLimit = factor * 2 ^ k :=
    wrapSize_of_lt hlimit
  have hstart : Accounted (cb : Callbacks K) (2 ^ k) 0 (emptyTable (2 ^ k) factor : HTable K D) [] :=
    { holds := emptyTable_holds cb.toCallbacks hfits
      load := Nat.zero_le _
      limit := hlimit₀
      factor := hfactor
      size := (Nat.mul_one _).symm
      count := .inl (show 0 < sizeModulus by decide) }
  obtain ⟨answers, t, hrun, h⟩ := hstart.run hok hwrap
  rw [Nat.zero_add] at h
  exact ⟨answers, t, hrun, h.load, h.limit, h.size, h.chainLenSum_eq,
    _, h.holds.callbackCount_eq, h.holds.used, h.count⟩

/-- A table that grew by an insertion and by a call of `htable_grow`. -/
theorem numberTable_countersAgree : ∃ answers t,
    run numberCallbacks (emptyTable (D := ℕ) 1 1)
      [.insert 4 (some 5) ⟨true, true⟩, .insert 2 (some 7) ⟨true, true⟩, .remove 4, .grow true] =
        .ok (answers, t) ∧ CountersAgree 1 1 t := by
  have hinit : htableInit true (2 ^ 0) 1 = .ok (.ok, some (emptyTable (K := ℕ) (D := ℕ) (2 ^ 0) 1)) :=
    htableInit_ok_iff.2 ⟨rfl, by decide, rfl⟩
  have hok : ∀ op ∈ ([.insert 4 (some 5) ⟨true, true⟩, .insert 2 (some 7) ⟨true, true⟩, .remove 4,
      .grow true] : List (Op ℕ ℕ)), op.Succeeds := by simp [Op.Succeeds]
  exact run_countersAgree hinit (by decide) (by decide) hok
    ⟨fun _ _ ↦ ⟨by decide, by decide⟩, fun _ _ ↦ ⟨by decide, by decide⟩, trivial,
      ⟨by decide, by decide⟩, trivial⟩

end Experimentation.HashTable
