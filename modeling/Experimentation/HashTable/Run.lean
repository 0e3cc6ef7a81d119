import Experimentation.HashTable.Layout

/-!
# Runs of operations on a hash table

A table comes from `htable_init` with a size that is a power of two, and is then changed by the
operations in any order, each with its own outcomes of `malloc`.  What an operation answers and
which entries it leaves depends on the entries alone, not on sizes, factors or collisions.
-/

namespace Experimentation.HashTable

open Semantics

variable {K D : Type}

/-- A call on a table, with the outcomes of the allocations that it makes. -/
inductive Op (K D : Type)
  | insert (key : K) (data : Option D) (mallocs : InsertMallocs)
  | remove (key : K)
  | freeObj (key : K) (htfree : ℕ)
  | grow (malloc : Bool)
  | search (key : K)

inductive Answer (D : Type)
  | ret (r : HtRet)
  | data (d : Option D)
deriving DecidableEq

def step (cb : Callbacks K) (t : HTable K D) : Op K D → Exec (Answer D × HTable K D)
  | .insert key data mallocs => do
      let (r, t) ← htableInsert cb mallocs t key data
      return (.ret r, t)
  | .remove key => do
      let (r, t) ← htableRemove cb t key
      return (.ret r, t)
  | .freeObj key htfree => do
      let (r, t, _) ← htableFreeObj cb t key htfree
      return (.ret r, t)
  | .grow malloc => do
      let (r, t) ← htableGrow cb malloc t
      return (.ret r, t)
  | .search key => do
      let d ← htableSearch cb t key
      return (.data d, t)

/-- The calls of a list in turn, with their answers. -/
def run (cb : Callbacks K) : HTable K D → List (Op K D) → Exec (List (Answer D) × HTable K D)
  | t, [] => return ([], t)
  | t, op :: ops => do
      let (answer, t) ← step cb t op
      let (answers, t) ← run cb t ops
      return (answer :: answers, t)

theorem run_cons {cb : Callbacks K} {t t₁ t' : HTable K D} {op : Op K D} {ops : List (Op K D)}
    {answer : Answer D} {answers : List (Answer D)} (hstep : step cb t op = .ok (answer, t₁))
    (hrun : run cb t₁ ops = .ok (answers, t')) :
    run cb t (op :: ops) = .ok (answer :: answers, t') := by
  rw [run, hstep, Exec.ok_bind]
  change (run cb t₁ ops >>= fun r ↦ .ok (answer :: r.1, r.2)) = _
  rw [hrun, Exec.ok_bind]

/-! ## What the calls mean for the entries -/

/-- The answer of a call on a table with the entries `es`. -/
def Op.answer (cb : Callbacks K) (es : List (HNode K D)) : Op K D → Answer D
  | .insert key _ mallocs =>
      if es.find? (cb.sameKey key) ≠ none then .ret .existing
      else if mallocs.node then .ret .ok else .ret .nomem
  | .remove key => if es.find? (cb.sameKey key) = none then .ret .notfound else .ret .ok
  | .freeObj key _ => if es.find? (cb.sameKey key) = none then .ret .notfound else .ret .ok
  | .grow malloc => if malloc then .ret .ok else .ret .nomem
  | .search key => .data ((es.find? (cb.sameKey key)).bind HNode.hnData)

/-- The entries that a call leaves. -/
def Op.entries (cb : Callbacks K) (es : List (HNode K D)) : Op K D → List (HNode K D)
  | .insert key data mallocs =>
      if es.find? (cb.sameKey key) = none ∧ mallocs.node = true then es ++ [⟨key, data⟩] else es
  | .remove key => es.eraseP (cb.sameKey key)
  | .freeObj key _ => es.eraseP (cb.sameKey key)
  | .grow _ => es
  | .search _ => es

/-- The heads that the call allocates fit in the memory that it requests for them. -/
def Op.Fits (cb : Callbacks K) (t : HTable K D) : Op K D → Prop
  | .insert key _ mallocs =>
      t.findNode cb key = .ok none → mallocs.node = true → t.InsertFits mallocs.heads
  | .grow malloc => malloc = true → t.GrowthFits
  | .remove _ | .freeObj _ _ | .search _ => True

section Step

variable {cb : LawfulCallbacks K} {t : HTable K D} {es : List (HNode K D)}

theorem eraseP_of_find? {key : K} (hfind : es.find? (cb.sameKey key) = none) :
    es.eraseP (cb.sameKey key) = es :=
  List.eraseP_of_forall_not fun e he ↦ List.find?_eq_none.1 hfind e he

/-- A call that takes the entry of a key out. -/
theorem Holds.erased (h : Holds cb t es) (key : K) :
    Holds cb (if es.find? (cb.sameKey key) = none then t else t.dropNode cb key)
      (es.eraseP (cb.sameKey key)) := by
  by_cases hfind : es.find? (cb.sameKey key) = none
  · rw [if_pos hfind, eraseP_of_find? hfind]
    exact h
  · rw [if_neg hfind]
    exact h.dropNode key hfind

theorem Holds.step_remove (h : Holds cb t es) (key : K) :
    HashTable.step cb t (.remove key) = .ok ((Op.remove key).answer cb es,
      if es.find? (cb.sameKey key) = none then t else t.dropNode cb key) := by
  rw [HashTable.step, h.htableRemove_eq key, Op.answer]
  by_cases hfind : es.find? (cb.sameKey key) = none
  · rw [if_pos hfind, if_pos hfind, if_pos hfind]
    rfl
  · rw [if_neg hfind, if_neg hfind, if_neg hfind]
    rfl

theorem Holds.step_freeObj (h : Holds cb t es) (key : K) (htfree : ℕ) :
    HashTable.step cb t (.freeObj key htfree) = .ok ((Op.freeObj key htfree).answer cb es,
      if es.find? (cb.sameKey key) = none then t else t.dropNode cb key) := by
  obtain ⟨freed, hrun⟩ := h.htableFreeObj_eq key htfree
  rw [HashTable.step, hrun, Op.answer]
  by_cases hfind : es.find? (cb.sameKey key) = none
  · rw [if_pos hfind, if_pos hfind, if_pos hfind]
    rfl
  · rw [if_neg hfind, if_neg hfind, if_neg hfind]
    rfl

/-- A call whose heads fit gives the answer that the entries determine, and leaves a table that
holds the entries it should. -/
theorem Holds.step (h : Holds cb t es) {op : Op K D} (hfits : op.Fits cb t) :
    ∃ t', HashTable.step cb t op = .ok (op.answer cb es, t') ∧ Holds cb t' (op.entries cb es) := by
  cases op with
  | insert key data mallocs =>
      by_cases hfind : es.find? (cb.sameKey key) = none
      · cases hnode : mallocs.node with
        | false =>
            refine ⟨t, ?_, ?_⟩
            · rw [HashTable.step, h.htableInsert_nomem key data hfind hnode, Op.answer,
                if_neg (not_not.2 hfind), hnode]
              rfl
            · rw [Op.entries, if_neg (by simp [hnode])]
              exact h
        | true =>
            have hroom : t.InsertFits mallocs.heads :=
              hfits (by rw [h.findNode_eq key, hfind]) hnode
            refine ⟨t.inserted cb mallocs.heads ⟨key, data⟩, ?_, ?_⟩
            · rw [HashTable.step, h.htableInsert_new key data hfind hnode hroom, Op.answer,
                if_neg (not_not.2 hfind), hnode]
              rfl
            · rw [Op.entries, if_pos ⟨hfind, hnode⟩]
              exact h.inserted (new_of_find? hfind) hroom
      · refine ⟨t, ?_, ?_⟩
        · rw [HashTable.step, h.htableInsert_existing key mallocs data hfind, Op.answer,
            if_pos hfind]
          rfl
        · rw [Op.entries, if_neg fun hnew ↦ hfind hnew.1]
          exact h
  | remove key => exact ⟨_, h.step_remove key, h.erased key⟩
  | freeObj key htfree => exact ⟨_, h.step_freeObj key htfree, h.erased key⟩
  | grow malloc =>
      refine ⟨t.grown cb malloc, ?_, h.grown hfits⟩
      rw [HashTable.step, h.htableGrow_eq hfits, Op.answer]
      cases malloc with
      | false => rfl
      | true => rfl
  | search key =>
      refine ⟨t, ?_, h⟩
      rw [HashTable.step, h.htableSearch_eq key]
      rfl

end Step

/-! ## Reachable tables -/

/-- A table of `size` heads without entries. -/
def emptyTable (size factor : ℕ) : HTable K D :=
  { htGrows := 0, htSize := size, htUsed := 0, htFactor := factor,
    htLimit := wrapSize (factor * size), bytes := size * sizeofHhead,
    htTable := List.replicate size [] }

/-- `htable_init` returns a table just when its heads fit in the memory that it requests. -/
theorem htableInit_ok_iff {malloc : Bool} {size factor : ℕ} {t : HTable K D} :
    htableInit malloc size factor = .ok (.ok, some t) ↔
      malloc = true ∧ size * sizeofHhead < sizeModulus ∧ t = emptyTable size factor := by
  cases malloc with
  | false =>
      constructor
      · intro hinit
        cases hinit
      · intro hinit
        exact absurd hinit.1 Bool.false_ne_true
  | true =>
      by_cases hfits : size * sizeofHhead < sizeModulus
      · have hinit : htableInit true size factor =
            .ok (.ok, some (emptyTable (K := K) (D := D) size factor)) := by
          change (initHeads (wrapSize (size * sizeofHhead)) size >>= fun heads ↦ _) = _
          rw [wrapSize_of_lt hfits, initHeads, if_pos le_rfl]
          rfl
        rw [hinit]
        constructor
        · intro heq
          cases heq
          exact ⟨rfl, hfits, rfl⟩
        · intro heq
          rw [heq.2.2]
      · have hsmall : wrapSize (size * sizeofHhead) < size * sizeofHhead :=
          (Nat.mod_lt _ (by decide)).trans_le (Nat.le_of_not_lt hfits)
        have hinit : (htableInit true size factor : Exec (HtRet × Option (HTable K D))) =
            .error .outOfBounds := by
          change (initHeads (wrapSize (size * sizeofHhead)) size >>= fun heads ↦ _) = _
          rw [initHeads, if_neg (Nat.not_le_of_lt hsmall)]
          rfl
        rw [hinit]
        constructor
        · intro heq
          cases heq
        · intro heq
          exact absurd heq.2.1 hfits

/-- A table that `htable_init` returns. -/
theorem htableInit_some {malloc : Bool} {size factor : ℕ} {r : HtRet} {t : HTable K D}
    (h : htableInit malloc size factor = .ok (r, some t)) :
    size * sizeofHhead < sizeModulus ∧ t = emptyTable size factor := by
  have hret : r = .ok := by
    unfold htableInit at h
    dsimp only at h
    split at h
    · cases h
    · obtain ⟨heads, _, hrest⟩ := Exec.bind_eq_ok.1 h
      cases hrest
      rfl
  rw [hret] at h
  exact (htableInit_ok_iff.1 h).2

theorem emptyTable_holds (cb : Callbacks K) {k factor : ℕ}
    (hfits : 2 ^ k * sizeofHhead < sizeModulus) :
    Holds cb (emptyTable (D := D) (2 ^ k) factor) [] where
  pow := ⟨k, rfl⟩
  fits := hfits
  bytes := rfl
  limit := rfl
  table := Buckets.layout_nil.symm
  used := rfl
  distinct := List.Pairwise.nil

/-- A table of a size that is a power of two, after any calls with any outcomes of `malloc`. -/
def Reachable (cb : Callbacks K) (t : HTable K D) : Prop :=
  ∃ k factor t₀ ops answers, htableInit true (2 ^ k) factor = .ok (.ok, some t₀) ∧
    run cb t₀ ops = .ok (answers, t)

end Experimentation.HashTable
