import Mathlib.Data.List.Pairwise
import Experimentation.HashTable.Nodes

/-!
# Nodes in their places

A search looks for a node on the chain that the key belongs to, so it finds the nodes that are in
their places.  Insertions keep all nodes in their places, in a table with any number of heads; they
only rely on the keys of the nodes having the hashes that they had when the nodes were put in.
-/

namespace Experimentation.HashTable

open Semantics Buckets

variable {K D : Type}

/-- Every node is on the chain that its key belongs to. -/
structure HTable.Placed (cb : Callbacks K) (t : HTable K D) : Prop extends t.Sound where
  table : t.htTable = layout (bucketOf cb t.htSize) t.htSize t.htTable.flatten

section Callbacks

variable {cb cb' : Callbacks K} {t : HTable K D}

theorem HTable.Sound.placed (h : t.Sound) (es : List (HNode K D))
    (htable : t.htTable = layout (bucketOf cb t.htSize) t.htSize es) : t.Placed cb where
  toSound := h
  table := by
    rw [htable]
    exact (layout_flatten_layout fun e _ ↦ bucketIndex_lt h.pos _).symm

theorem emptyTable_placed {size factor : ℕ} (hpos : 0 < size)
    (hfits : size * sizeofHhead < sizeModulus) :
    (emptyTable size factor : HTable K D).Placed cb :=
  (emptyTable_sound hpos hfits).placed [] layout_nil.symm

/-- Only the hashes of the keys in the table matter. -/
theorem HTable.Placed.congr (h : t.Placed cb)
    (hhash : ∀ n, t.HasNode n → cb'.hashf n.hnKey = cb.hashf n.hnKey) : t.Placed cb' := by
  apply h.toSound.placed t.htTable.flatten
  rw [h.table]
  apply layout_congr
  intro b _
  rw [← h.table]
  apply List.filter_congr
  intro n hn
  rw [bucketOf, bucketOf, hhash n hn]

/-- A new node is put in its place. -/
theorem HTable.Placed.inserted (h : t.Placed cb) (n : HNode K D) {malloc : Bool}
    (hfits : t.InsertFits malloc) : (t.inserted cb malloc n).Placed cb := by
  have hwith : (t.withNode cb n).Placed cb := by
    apply (h.toSound.withNode cb n).placed (t.htTable.flatten ++ [n])
    have hrow := congrArg (List.modify · (bucketOf cb t.htSize n) (· ++ [n])) h.table
    exact hrow.trans (modify_append n)
  have hsound : (t.inserted cb malloc n).Sound := (h.toSound.inserted cb n hfits).1
  unfold HTable.inserted at hsound ⊢
  by_cases hlimit : t.htLimit < wrapSize (t.htUsed + 1)
  · rw [if_pos hlimit] at hsound ⊢
    cases malloc with
    | false => exact hsound.placed _ hwith.table
    | true => exact hsound.placed _ rfl
  · rw [if_neg hlimit]
    exact hwith

end Callbacks

section Search

variable {cb : LawfulCallbacks K} {t : HTable K D}

/-- The walk along a chain answers for all nodes in their places. -/
theorem HTable.Placed.findNode_eq (h : t.Placed cb) (key : K) :
    t.findNode cb key = .ok (t.htTable.flatten.find? (cb.sameKey key)) :=
  findNode_of_layout h.pos h.table key

/-- A node that is taken off leaves the others in their places. -/
theorem HTable.Placed.dropNode (h : t.Placed cb) (key : K) : (t.dropNode cb key).Placed cb := by
  apply (h.toSound.dropNode cb key).placed (t.htTable.flatten.eraseP (cb.sameKey key))
  have hrow := congrArg (List.modify · (t.indexOf cb key) (List.eraseP (cb.sameKey key))) h.table
  exact hrow.trans (modify_eraseP fun _ _ hsame ↦ bucketOf_of_sameKey hsame)

theorem HTable.Placed.findNode_of_mem (h : t.Placed cb)
    (hdistinct : t.htTable.flatten.Pairwise fun a b ↦ cb.cmpf a.hnKey b.hnKey ≠ 0) {key : K}
    {n : HNode K D} (hn : t.HasNode n) (hkey : cb.cmpf n.hnKey key = 0) :
    t.findNode cb key = .ok (some n) := by
  have hunique : ∀ m ∈ t.htTable.flatten, cb.cmpf m.hnKey key = 0 → m = n := by
    intro m hm hsame
    by_contra hne
    have hsym : Std.Symm fun a b : HNode K D ↦ cb.cmpf a.hnKey b.hnKey ≠ 0 :=
      ⟨fun a b hab hba ↦ hab (cb.symm _ _ hba)⟩
    exact hdistinct.forall hm hn hne (cb.trans _ _ _ hsame (cb.symm _ _ hkey))
  rw [h.findNode_eq key]
  cases hfind : t.htTable.flatten.find? (cb.sameKey key) with
  | none => exact absurd hkey (new_of_find? hfind n hn)
  | some m =>
      rw [hunique m (List.mem_of_find?_eq_some hfind) (sameKey_iff.1 (List.find?_some hfind))]

/-! ## The new node -/

/-- An insertion of a new node doubles the number of heads. -/
def HTable.Resizes (t : HTable K D) (malloc : Bool) : Prop :=
  t.htLimit < wrapSize (t.htUsed + 1) ∧ malloc = true ∧ t.GrowthFits

/-- The nodes of the heads before the one that the key belongs to. -/
def HTable.nodesBefore (cb : Callbacks K) (t : HTable K D) (key : K) : List (HNode K D) :=
  (t.htTable.take (t.indexOf cb key)).flatten

theorem find?_flatten_modify_append {α : Type} {p : α → Bool} {row : List (List α)} {i : ℕ}
    {l : List α} (hl : row[i]? = some l) (hnone : l.find? p = none) {e : α} (he : p e = true) :
    (row.modify i (· ++ [e])).flatten.find? p =
      ((row.take i).flatten.find? p).or (some e) := by
  obtain ⟨hi, hget⟩ := List.getElem?_eq_some_iff.1 hl
  rw [List.modify_eq_take_cons_drop hi, List.flatten_append, List.flatten_cons, hget,
    List.find?_append, List.find?_append, List.find?_append, hnone, Option.none_or,
    List.find?_cons_of_pos he, Option.some_or]

section NewNode

variable {key : K} (h : t.Sound) (hfind : t.findNode cb key = .ok none) (data : Option D)
include h hfind

theorem HTable.Sound.exists_chain : ∃ chain, t.htTable[t.indexOf cb key]? = some chain ∧
    chain.find? (cb.sameKey key) = none := by
  have hlt : t.indexOf cb key < t.htTable.length := by
    rw [h.length]
    exact bucketIndex_lt h.pos _
  have hget := List.getElem?_eq_getElem hlt
  rw [HTable.findNode, headAt_eq hget, Exec.ok_bind, Exec.pure_eq_ok, Except.ok.injEq] at hfind
  exact ⟨_, hget, hfind⟩

theorem HTable.Sound.findNode_withNode :
    (t.withNode cb ⟨key, data⟩).findNode cb key = .ok (some ⟨key, data⟩) := by
  obtain ⟨chain, hget, hnone⟩ := h.exists_chain hfind
  have hsame : cb.sameKey key (⟨key, data⟩ : HNode K D) = true := sameKey_iff.2 (cb.refl key)
  have hnew : (t.withNode cb ⟨key, data⟩).htTable[t.indexOf cb key]? =
      some (chain ++ [⟨key, data⟩]) := by
    change (t.htTable.modify (t.indexOf cb key) _)[t.indexOf cb key]? = _
    rw [List.getElem?_modify, hget, Option.map_eq_map, Option.map_some, if_pos rfl]
  change headAt _ (t.indexOf cb key) >>= _ = _
  rw [headAt_eq hnew, Exec.ok_bind, List.find?_append, hnone, Option.none_or,
    List.find?_cons_of_pos hsame]
  rfl

/-- When the table grows, nodes of earlier heads whose keys were overwritten come first. -/
theorem HTable.Sound.findNode_resized (grows : ℕ) :
    { (t.withNode cb ⟨key, data⟩).doubled cb with htGrows := grows }.findNode cb key =
      .ok (((t.nodesBefore cb key).find? (cb.sameKey key)).or (some ⟨key, data⟩)) := by
  obtain ⟨chain, hget, hnone⟩ := h.exists_chain hfind
  have hsame : cb.sameKey key (⟨key, data⟩ : HNode K D) = true := sameKey_iff.2 (cb.refl key)
  rw [findNode_of_layout (Nat.mul_pos (by decide) h.pos) rfl, HTable.nodesBefore,
    ← find?_flatten_modify_append hget hnone hsame]
  rfl

end NewNode

theorem HTable.Placed.find?_nodesBefore (h : t.Placed cb) {key : K}
    (hfind : t.findNode cb key = .ok none) :
    (t.nodesBefore cb key).find? (cb.sameKey key) = none := by
  rw [h.findNode_eq, Except.ok.injEq] at hfind
  apply List.find?_eq_none.2
  intro n hn
  obtain ⟨chain, hchain, hmem⟩ := List.mem_flatten.1 hn
  exact List.find?_eq_none.1 hfind n (List.mem_flatten.2 ⟨chain, List.mem_of_mem_take hchain, hmem⟩)

end Search

/-! ## Distinct keys -/

/-- Every node is on the chain that its key belongs to, and no two keys are equal. -/
structure HTable.Keyed (cb : Callbacks K) (t : HTable K D) : Prop extends t.Placed cb where
  distinct : t.htTable.flatten.Pairwise fun a b ↦ cb.cmpf a.hnKey b.hnKey ≠ 0

theorem emptyTable_keyed {cb : Callbacks K} {size factor : ℕ} (hpos : 0 < size)
    (hfits : size * sizeofHhead < sizeModulus) :
    (emptyTable size factor : HTable K D).Keyed cb where
  toPlaced := emptyTable_placed hpos hfits
  distinct := by
    rw [List.eq_nil_iff_forall_not_mem.2 fun n ↦ not_hasNode_emptyTable]
    exact List.Pairwise.nil

namespace HTable.Keyed

variable {cb : LawfulCallbacks K} {t t' : HTable K D} (h : t.Keyed cb) {key : K} {r : HtRet}
include h

/-- A node whose key is new. -/
theorem inserted {data : Option D} {malloc : Bool} (hnone : t.findNode cb key = .ok none)
    (hfits : t.InsertFits malloc) : (t.inserted cb malloc ⟨key, data⟩).Keyed cb where
  toPlaced := h.toPlaced.inserted _ hfits
  distinct := by
    have hperm := (h.toSound.inserted cb ⟨key, data⟩ hfits).2
    rw [h.findNode_eq, Except.ok.injEq] at hnone
    apply (hperm.pairwise_iff fun hab hba ↦ hab (cb.symm _ _ hba)).2
    rw [List.pairwise_append]
    refine ⟨h.distinct, List.pairwise_singleton _ _, fun e he f hf ↦ ?_⟩
    rw [List.mem_singleton.1 hf]
    exact new_of_find? hnone e he

/-- An insertion that is defined. -/
theorem htableInsert {mallocs : InsertMallocs} {data : Option D}
    (hrun : htableInsert cb mallocs t key data = .ok (r, t')) : t'.Keyed cb := by
  rcases h.toSound.htableInsert_inv hrun with ⟨_, rfl, _⟩ | ⟨hnone, ⟨_, rfl⟩ | ⟨_, rfl, hfits⟩⟩
  · exact h
  · exact h
  · exact h.inserted hnone hfits

/-- A removal that is defined. -/
theorem htableFreeObj {htfree : ℕ} {freed : Freed K D}
    (hrun : htableFreeObj cb t key htfree = .ok (r, t', freed)) : t'.Keyed cb := by
  rcases htableFreeObj_inv hrun with rfl | rfl
  · exact h
  · exact ⟨h.toPlaced.dropNode key, h.distinct.sublist (t.dropNode_sublist cb key)⟩

end HTable.Keyed

end Experimentation.HashTable
