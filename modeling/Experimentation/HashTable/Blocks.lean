import Experimentation.HashTable.Nodes
import Experimentation.Semantics.Ledger
import Mathlib.Algebra.BigOperators.Group.List.Basic

/-!
# The blocks of a hash table

The functions that allocate or free, with the number of blocks counted.  The blocks of a table are
its array of heads, its nodes, and whatever the clients hang on a node.  Each function gains what
the blocks of the table become more, and so does a growth, which frees the old heads.
-/

namespace Experimentation.HashTable

open Semantics Buckets

open scoped List

variable {K D : Type}

/-! ## Functions that allocate or free -/

/-- `htable_init`, which allocates the heads first. -/
def htableInitMetered (answer : Bool) (size factor : ℕ) :
    Metered (HtRet × Option (HTable K D)) := do
  if !(← Metered.malloc answer) then
    return (.nomem, none)
  else
    htableInit true size factor

/-- `htable_grow`, which allocates the new heads first, and frees the old ones. -/
def htableGrowMetered (cb : Callbacks K) (answer : Bool) (t : HTable K D) :
    Metered (HtRet × HTable K D) := do
  if !(← Metered.malloc answer) then
    return (.nomem, t)
  else
    let r ← htableGrow cb true t
    Metered.free
    return r

def htableInsertMetered (cb : Callbacks K) (mallocs : InsertMallocs) (t : HTable K D) (key : K)
    (data : Option D) : Metered (HtRet × HTable K D) := do
  match ← t.findNode cb key with
  | some _ => return (.existing, t)
  | none =>
      if !(← Metered.malloc mallocs.node) then
        return (.nomem, t)
      else
        let heads ← insertTail t.htTable (t.indexOf cb key) ⟨key, data⟩
        let t := { t with htTable := heads, htUsed := wrapSize (t.htUsed + 1) }
        if t.htUsed > t.htLimit then
          let (_, t) ← htableGrowMetered cb mallocs.heads t
          return (.ok, { t with htGrows := wrapSize (t.htGrows + 1) })
        else
          return (.ok, t)

def htableFreeObjMetered (cb : Callbacks K) (t : HTable K D) (key : K) (htfree : ℕ) :
    Metered (HtRet × HTable K D × Freed K D) := do
  match ← t.findNode cb key with
  | some n =>
      let freed : Freed K D :=
        ⟨if htfree &&& htFreekey ≠ 0 then some n.hnKey else none,
          if htfree &&& htFreedata ≠ 0 then n.hnData else none⟩
      Metered.freePtr freed.key
      Metered.freePtr freed.data
      Metered.free
      return (.ok, t.dropNode cb key, freed)
  | none => return (.notfound, t, ⟨none, none⟩)

theorem htableInitMetered_gains (answer : Bool) (size factor : ℕ) :
    Gains (htableInitMetered (K := K) (D := D) answer size factor) (htableInit answer size factor)
      fun r ↦ if r.2.isSome then 1 else 0 := by
  apply Gains.malloc_bind
  cases answer with
  | false => exact .pure rfl
  | true =>
      apply (Gains.lift (htableInit true size factor)).congr
      intro r hr
      obtain ⟨heads, _, heq⟩ := Exec.bind_eq_ok.1 hr
      cases heq
      rfl

section Gain

variable (cb : Callbacks K) (t : HTable K D)

theorem htableGrowMetered_gains (answer : Bool) :
    Gains (htableGrowMetered cb answer t) (htableGrow cb answer t) fun _ ↦ 0 := by
  apply Gains.malloc_bind
  cases answer with
  | false => exact .pure rfl
  | true =>
      have hgrow : Gains (liftM (htableGrow cb true t) >>= fun r ↦ Metered.free >>= fun _ ↦ pure r)
          (htableGrow cb true t >>= fun r ↦ .ok r) fun _ ↦ 0 - 1 :=
        .lift_bind fun r _ ↦ .free_bind (.pure rfl)
      cases hrun : htableGrow cb true t with
      | error fault => rwa [hrun] at hgrow
      | ok r => rwa [hrun] at hgrow

theorem htableInsertMetered_gains (mallocs : InsertMallocs) (key : K) (data : Option D) :
    Gains (htableInsertMetered cb mallocs t key data) (htableInsert cb mallocs t key data)
      fun r ↦ if r.1 = .ok then 1 else 0 := by
  apply Gains.lift_bind
  intro found _
  cases found with
  | some n => exact .pure rfl
  | none =>
      apply Gains.malloc_bind
      cases mallocs.node with
      | false => exact .pure rfl
      | true =>
          apply Gains.lift_bind
          intro heads _
          dsimp only
          split
          · apply (htableGrowMetered_gains cb _ mallocs.heads).bind
            intro r _
            exact .pure rfl
          · exact .pure rfl

theorem htableFreeObjMetered_gains (key : K) (htfree : ℕ) :
    Gains (htableFreeObjMetered cb t key htfree) (htableFreeObj cb t key htfree) fun r ↦
      -((if r.1 = .ok then 1 else 0) + r.2.2.key.toList.length + r.2.2.data.toList.length) := by
  apply Gains.lift_bind
  intro found _
  cases found with
  | none => exact .pure rfl
  | some n =>
      apply Gains.freePtr_bind
      apply Gains.freePtr_bind
      apply Gains.free_bind
      apply Gains.pure
      dsimp only
      rw [if_pos rfl]
      omega

end Gain

/-! ## Blocks -/

/-- The array of heads and the nodes, each with the blocks that hang on it. -/
def HTable.blocks (content : HNode K D → ℕ) (t : HTable K D) : ℕ :=
  (t.htTable.flatten.map fun n ↦ content n + 1).sum + 1

section Change

variable {content : HNode K D → ℕ} {t t' : HTable K D}

theorem blocks_emptyTable (size factor : ℕ) :
    (emptyTable size factor : HTable K D).blocks content = 1 := by
  simp [HTable.blocks, emptyTable]

variable {cb : Callbacks K} {key : K}

theorem blocks_of_htableInsert (h : t.Sound) (content : HNode K D → ℕ) {mallocs : InsertMallocs}
    {data : Option D} {r : HtRet} (hrun : htableInsert cb mallocs t key data = .ok (r, t')) :
    t'.blocks content = t.blocks content + if r = .ok then content ⟨key, data⟩ + 1 else 0 := by
  rcases h.htableInsert_inv hrun with ⟨rfl, rfl, _⟩ | ⟨_, ⟨rfl, rfl⟩ | ⟨rfl, rfl, hfits⟩⟩
  · rfl
  · rfl
  · have hperm := ((h.inserted cb ⟨key, data⟩ hfits).2.map fun n ↦ content n + 1).sum_eq
    rw [List.map_append, List.sum_append, List.map_singleton, List.sum_singleton] at hperm
    rw [HTable.blocks, HTable.blocks, hperm, if_pos rfl, Nat.add_right_comm]

/-- An insertion that does not find the key depends on whether there is memory for the node. -/
theorem ret_of_htableInsert (h : t.Sound) {mallocs : InsertMallocs} {data : Option D} {r : HtRet}
    (hrun : htableInsert cb mallocs t key data = .ok (r, t')) :
    r = .existing ∨ r = if mallocs.node then .ok else .nomem := by
  cases h.insert_step cb key data mallocs with
  | existing n _ hrun' =>
      rw [hrun'] at hrun
      cases hrun
      exact .inl rfl
  | nomem _ hnode hrun' =>
      rw [hrun'] at hrun
      cases hrun
      exact .inr (by rw [hnode]; rfl)
  | added _ hnode _ hrun' | resized _ hnode _ _ _ hrun' | unresized _ hnode _ _ hrun' =>
      rw [hrun'] at hrun
      cases hrun
      exact .inr (by rw [hnode]; rfl)
  | overflows _ _ _ _ _ _ hrun' =>
      rw [hrun'] at hrun
      cases hrun

theorem blocks_of_htableFreeObj (content : HNode K D → ℕ) {htfree : ℕ} {r : HtRet}
    {freed : Freed K D} (hrun : htableFreeObj cb t key htfree = .ok (r, t', freed)) :
    r = .notfound ∧ t' = t ∧ freed = ⟨none, none⟩ ∨ ∃ n, r = .ok ∧
      t.blocks content = t'.blocks content + (content n + 1) ∧
      freed = ⟨if htfree &&& htFreekey ≠ 0 then some n.hnKey else none,
        if htfree &&& htFreedata ≠ 0 then n.hnData else none⟩ := by
  obtain ⟨found, hfound, hrun⟩ := Exec.bind_eq_ok.1 hrun
  cases found with
  | none =>
      cases hrun
      exact .inl ⟨rfl, rfl, rfl⟩
  | some n =>
      cases hrun
      have hperm := (HTable.flatten_perm_dropNode hfound).map fun n ↦ content n + 1
      have hsum := hperm.sum_eq
      rw [List.map_cons, List.sum_cons] at hsum
      refine .inr ⟨n, rfl, ?_, rfl⟩
      rw [HTable.blocks, hsum, HTable.blocks, Nat.add_comm (content n + 1),
        Nat.add_right_comm]

end Change

end Experimentation.HashTable
