import Mathlib.Data.Finmap
import Experimentation.HashTable.Run

/-!
# A hash table is a finite map

What a hash table is for: a finite map whose keys are taken up to the equality of the comparison
callback.  Every call answers what the map answers, whatever the size, the factor and the
collisions, and the number of entries is the number of keys.
-/

namespace Experimentation.HashTable

open Semantics

variable {K D : Type}

/-- Keys that compare equal. -/
def LawfulCallbacks.setoid (cb : LawfulCallbacks K) : Setoid K where
  r a b := cb.cmpf a b = 0
  iseqv := ⟨cb.refl, fun {a b} ↦ cb.symm a b, fun {a b c} ↦ cb.trans a b c⟩

/-- The keys that compare equal with a key. -/
def LawfulCallbacks.classOf (cb : LawfulCallbacks K) (key : K) : Quotient cb.setoid :=
  Quotient.mk cb.setoid key

theorem classOf_eq_iff {cb : LawfulCallbacks K} {a b : K} :
    cb.classOf a = cb.classOf b ↔ cb.cmpf a b = 0 :=
  ⟨Quotient.exact (s := cb.setoid), Quotient.sound (s := cb.setoid)⟩

instance (cb : LawfulCallbacks K) : DecidableEq (Quotient cb.setoid) :=
  @Quotient.decidableEq _ cb.setoid fun a b ↦ inferInstanceAs (Decidable (cb.cmpf a b = 0))

/-- Data stored under keys that are taken up to equality. -/
abbrev KeyMap (cb : LawfulCallbacks K) (D : Type) : Type :=
  Finmap fun _ : Quotient cb.setoid ↦ Option D

variable {cb : LawfulCallbacks K}

namespace KeyMap

/-- What a call means for the map, all allocations succeeding. -/
def step (m : KeyMap cb D) : Op K D → Answer D × KeyMap cb D
  | .insert key data _ =>
      if cb.classOf key ∈ m then (.ret .existing, m) else (.ret .ok, m.insert (cb.classOf key) data)
  | .remove key => if cb.classOf key ∈ m then (.ret .ok, m.erase (cb.classOf key)) else (.ret .notfound, m)
  | .freeObj key _ => if cb.classOf key ∈ m then (.ret .ok, m.erase (cb.classOf key)) else (.ret .notfound, m)
  | .grow _ => (.ret .ok, m)
  | .search key => (.data (m.lookup (cb.classOf key)).join, m)

/-- The calls of a list in turn, with their answers. -/
def run (m : KeyMap cb D) : List (Op K D) → List (Answer D) × KeyMap cb D
  | [] => ([], m)
  | op :: ops =>
      let r := m.step op
      let rest := run r.2 ops
      (r.1 :: rest.1, rest.2)

end KeyMap

/-! ## Entries and maps -/

/-- The entries are those of the map. -/
structure Abstracts (es : List (HNode K D)) (m : KeyMap cb D) : Prop where
  lookup : ∀ key, m.lookup (cb.classOf key) = (es.find? (cb.sameKey key)).map HNode.hnData
  card : m.keys.card = es.length

namespace Abstracts

variable {es : List (HNode K D)} {m : KeyMap cb D} (h : Abstracts es m)

theorem nil : Abstracts ([] : List (HNode K D)) (∅ : KeyMap cb D) where
  lookup _ := Finmap.lookup_empty _
  card := by
    rw [Finmap.keys_empty]
    rfl

include h

theorem mem_iff (key : K) : cb.classOf key ∈ m ↔ es.find? (cb.sameKey key) ≠ none := by
  rw [← Finmap.lookup_isSome, h.lookup key, Option.isSome_map, Option.isSome_iff_ne_none]

theorem search (key : K) :
    (m.lookup (cb.classOf key)).join = (es.find? (cb.sameKey key)).bind HNode.hnData := by
  rw [h.lookup key]
  cases es.find? (cb.sameKey key) with
  | none => rfl
  | some n => rfl

/-- An entry with a new key is added to both. -/
theorem append {key : K} (data : Option D) (hfind : es.find? (cb.sameKey key) = none) :
    Abstracts (es ++ [⟨key, data⟩]) (m.insert (cb.classOf key) data) := by
  have hnew : cb.classOf key ∉ m := fun hmem ↦ (h.mem_iff key).1 hmem hfind
  refine ⟨fun key' ↦ ?_, ?_⟩
  · rw [find?_append_new data hfind]
    by_cases hsame : cb.cmpf key key' = 0
    · rw [if_pos hsame, ← classOf_eq_iff.2 hsame, Finmap.lookup_insert]
      rfl
    · have hne : cb.classOf key' ≠ cb.classOf key := fun heq ↦ hsame (classOf_eq_iff.1 heq.symm)
      rw [if_neg hsame, Finmap.lookup_insert_of_ne m hne, h.lookup key']
  · have hkeys : (m.insert (cb.classOf key) data).keys = insert (cb.classOf key) m.keys := by
      ext q
      rw [Finmap.mem_keys, Finmap.mem_insert, Finset.mem_insert, Finmap.mem_keys]
    rw [hkeys, Finset.card_insert_of_notMem fun hmem ↦ hnew (Finmap.mem_keys.1 hmem), h.card,
      List.length_append, List.length_singleton]

/-- The entry of a key is taken out of both. -/
theorem erase (hdistinct : es.Pairwise fun a b ↦ cb.cmpf a.hnKey b.hnKey ≠ 0) {key : K}
    (hfind : es.find? (cb.sameKey key) ≠ none) :
    Abstracts (es.eraseP (cb.sameKey key)) (m.erase (cb.classOf key)) := by
  refine ⟨fun key' ↦ ?_, ?_⟩
  · rw [find?_eraseP hdistinct]
    by_cases hsame : cb.cmpf key key' = 0
    · rw [if_pos hsame, ← classOf_eq_iff.2 hsame, Finmap.lookup_erase]
      rfl
    · have hne : cb.classOf key' ≠ cb.classOf key := fun heq ↦ hsame (classOf_eq_iff.1 heq.symm)
      rw [if_neg hsame, Finmap.lookup_erase_ne hne, h.lookup key']
  · obtain ⟨n, hn⟩ := Option.ne_none_iff_exists'.1 hfind
    rw [Finmap.keys_erase,
      Finset.card_erase_of_mem (Finmap.mem_keys.2 ((h.mem_iff key).2 hfind)), h.card,
      List.length_eraseP_of_mem (List.mem_of_find?_eq_some hn) (List.find?_some hn)]

theorem step_erase (hdistinct : es.Pairwise fun a b ↦ cb.cmpf a.hnKey b.hnKey ≠ 0) (key : K) :
    let r : Answer D × KeyMap cb D := if cb.classOf key ∈ m then (.ret .ok, m.erase (cb.classOf key))
      else (.ret .notfound, m)
    (if es.find? (cb.sameKey key) = none then Answer.ret .notfound else .ret .ok) = r.1 ∧
      Abstracts (es.eraseP (cb.sameKey key)) r.2 := by
  by_cases hfind : es.find? (cb.sameKey key) = none
  · have hnew : cb.classOf key ∉ m := fun hmem ↦ (h.mem_iff key).1 hmem hfind
    rw [if_neg hnew, if_pos hfind, eraseP_of_find? hfind]
    exact ⟨rfl, h⟩
  · rw [if_pos ((h.mem_iff key).2 hfind), if_neg hfind]
    exact ⟨rfl, h.erase hdistinct hfind⟩

end Abstracts

/-! ## Simulation -/

/-- Every allocation that the call makes succeeds. -/
def Op.Succeeds : Op K D → Prop
  | .insert _ _ mallocs => mallocs.node = true ∧ mallocs.heads = true
  | .grow malloc => malloc = true
  | .remove _ | .freeObj _ _ | .search _ => True

/-- Neither the count of the entries nor the memory for the heads wraps in the call. -/
def Op.NoWrap (cb : Callbacks K) (t : HTable K D) : Op K D → Prop
  | .insert key _ _ =>
      t.findNode cb key = .ok none →
        t.htUsed + 1 < sizeModulus ∧ (t.htLimit < t.htUsed + 1 → t.GrowthFits)
  | .grow _ => t.GrowthFits
  | .remove _ | .freeObj _ _ | .search _ => True

/-- Nothing wraps in any call of the run. -/
def NoWrapRun (cb : Callbacks K) : HTable K D → List (Op K D) → Prop
  | _, [] => True
  | t, op :: ops => op.NoWrap cb t ∧
      match step cb t op with
      | .ok (_, t) => NoWrapRun cb t ops
      | .error _ => True

theorem Op.NoWrap.fits {t : HTable K D} {op : Op K D} (h : op.NoWrap cb t) : op.Fits cb t := by
  cases op with
  | insert key data mallocs =>
      intro hfind _ hlimit _
      obtain ⟨hcount, hgrowth⟩ := h hfind
      rw [wrapSize_of_lt hcount] at hlimit
      exact hgrowth hlimit
  | grow malloc => exact fun _ ↦ h
  | remove key => exact trivial
  | freeObj key htfree => exact trivial
  | search key => exact trivial

/-- A call answers what the map answers, and its entries stay those of the map. -/
theorem Abstracts.step {es : List (HNode K D)} {m : KeyMap cb D} (h : Abstracts es m)
    (hdistinct : es.Pairwise fun a b ↦ cb.cmpf a.hnKey b.hnKey ≠ 0) {op : Op K D}
    (hok : op.Succeeds) :
    op.answer cb es = (m.step op).1 ∧ Abstracts (op.entries cb es) (m.step op).2 := by
  cases op with
  | insert key data mallocs =>
      rw [Op.answer, Op.entries, KeyMap.step]
      by_cases hfind : es.find? (cb.sameKey key) = none
      · have hnew : cb.classOf key ∉ m := fun hmem ↦ (h.mem_iff key).1 hmem hfind
        rw [if_neg (not_not.2 hfind), if_pos hok.1, if_neg hnew, if_pos ⟨hfind, hok.1⟩]
        exact ⟨rfl, h.append data hfind⟩
      · rw [if_pos hfind, if_pos ((h.mem_iff key).2 hfind), if_neg fun hnew ↦ hfind hnew.1]
        exact ⟨rfl, h⟩
  | remove key => exact h.step_erase hdistinct key
  | freeObj key htfree => exact h.step_erase hdistinct key
  | grow malloc =>
      have hmalloc : malloc = true := hok
      rw [Op.answer, if_pos hmalloc]
      exact ⟨rfl, h⟩
  | search key =>
      rw [Op.answer, KeyMap.step, h.search key]
      exact ⟨rfl, h⟩

/-- What the table and the map have in common during a run. -/
def Simulates (t : HTable K D) (m : KeyMap cb D) : Prop :=
  ∃ es, Holds (cb : Callbacks K) t es ∧ Abstracts es m ∧ es.length < sizeModulus

/-- One call keeps the table and the map in step. -/
theorem Simulates.step {t : HTable K D} {m : KeyMap cb D} (h : Simulates t m) {op : Op K D}
    (hok : op.Succeeds) (hwrap : op.NoWrap cb t) :
    ∃ t', HashTable.step cb t op = .ok ((m.step op).1, t') ∧ Simulates t' (m.step op).2 := by
  obtain ⟨es, hholds, habs, hcount⟩ := h
  obtain ⟨t', hrun, hholds'⟩ := hholds.step hwrap.fits
  obtain ⟨hanswer, habs'⟩ := habs.step hholds.distinct hok
  refine ⟨t', hanswer ▸ hrun, _, hholds', habs', ?_⟩
  have hused : t.htUsed = es.length := by rw [hholds.used, wrapSize_of_lt hcount]
  cases op with
  | insert key data mallocs =>
      rw [Op.entries]
      by_cases hfind : es.find? (cb.sameKey key) = none
      · obtain ⟨hroom, _⟩ := hwrap (by rw [hholds.findNode_eq key, hfind])
        rw [if_pos ⟨hfind, hok.1⟩, List.length_append, List.length_singleton, ← hused]
        exact hroom
      · rw [if_neg fun hnew ↦ hfind hnew.1]
        exact hcount
  | remove key => exact List.eraseP_sublist.length_le.trans_lt hcount
  | freeObj key htfree => exact List.eraseP_sublist.length_le.trans_lt hcount
  | grow malloc => exact hcount
  | search key => exact hcount

/-- A whole run keeps the table and the map in step. -/
theorem Simulates.run {t : HTable K D} {m : KeyMap cb D} (h : Simulates t m) {ops : List (Op K D)}
    (hok : ∀ op ∈ ops, op.Succeeds) (hwrap : NoWrapRun cb t ops) :
    ∃ t', HashTable.run cb t ops = .ok ((m.run ops).1, t') ∧ Simulates t' (m.run ops).2 := by
  induction ops generalizing t m with
  | nil => exact ⟨t, rfl, h⟩
  | cons op ops ih =>
      obtain ⟨hop, hrest⟩ := hwrap
      obtain ⟨t₁, hstep, hsim⟩ := h.step (hok op List.mem_cons_self) hop
      rw [hstep] at hrest
      obtain ⟨t', hrun, hsim'⟩ := ih hsim (fun op' hop' ↦ hok op' (List.mem_cons_of_mem _ hop')) hrest
      exact ⟨t', run_cons hstep hrun, hsim'⟩

/-- Every run of calls on an initialised table answers what the finite map answers, and the count
of the table is the number of keys. -/
theorem run_eq_keyMap_run {k factor : ℕ} {t₀ : HTable K D}
    (hinit : htableInit true (2 ^ k) factor = .ok (.ok, some t₀)) {ops : List (Op K D)}
    (hok : ∀ op ∈ ops, op.Succeeds) (hwrap : NoWrapRun cb t₀ ops) :
    ∃ t, run cb t₀ ops = .ok ((KeyMap.run (∅ : KeyMap cb D) ops).1, t) ∧
      htableGetUsed t = (KeyMap.run (∅ : KeyMap cb D) ops).2.keys.card := by
  obtain ⟨_, hfits, rfl⟩ := htableInit_ok_iff.1 hinit
  have hsim : Simulates (emptyTable (2 ^ k) factor) (∅ : KeyMap cb D) :=
    ⟨[], emptyTable_holds cb.toCallbacks hfits, Abstracts.nil, (by decide : 0 < sizeModulus)⟩
  obtain ⟨t, hrun, es, hholds, habs, hcount⟩ := hsim.run hok hwrap
  refine ⟨t, hrun, ?_⟩
  rw [htableGetUsed, hholds.used, wrapSize_of_lt hcount, habs.card]

/-- Keys that are numbers, hashed to themselves. -/
def numberCallbacks : LawfulCallbacks ℕ where
  hashf a := a
  cmpf a b := if a = b then 0 else 1
  refl a := if_pos rfl
  symm a b h := by grind
  trans a b c h h' := by grind
  hash_eq a b h := by grind

/-- Two keys in the one bucket of a table that grows at the second, which outlives the first. -/
theorem numberTable_answers : ∃ t, run numberCallbacks (emptyTable (D := ℕ) 1 1)
      [.insert 0 (some 5) ⟨true, true⟩, .insert 2 (some 7) ⟨true, true⟩, .remove 0, .search 2] =
        .ok ([.ret .ok, .ret .ok, .ret .ok, .data (some 7)], t) ∧ htableGetUsed t = 1 := by
  have hinit : htableInit true (2 ^ 0) 1 = .ok (.ok, some (emptyTable (K := ℕ) (D := ℕ) (2 ^ 0) 1)) :=
    htableInit_ok_iff.2 ⟨rfl, by decide, rfl⟩
  have hok : ∀ op ∈ ([.insert 0 (some 5) ⟨true, true⟩, .insert 2 (some 7) ⟨true, true⟩, .remove 0,
      .search 2] : List (Op ℕ ℕ)), op.Succeeds := by simp [Op.Succeeds]
  have hwrap : NoWrapRun numberCallbacks (emptyTable (D := ℕ) (2 ^ 0) 1)
      [.insert 0 (some 5) ⟨true, true⟩, .insert 2 (some 7) ⟨true, true⟩, .remove 0, .search 2] :=
    ⟨fun _ ↦ ⟨by decide, fun _ ↦ by decide⟩, fun _ ↦ ⟨by decide, fun _ ↦ by decide⟩, trivial,
      trivial, trivial⟩
  obtain ⟨t, hrun, hused⟩ := run_eq_keyMap_run hinit hok hwrap
  exact ⟨t, hrun, hused⟩

end Experimentation.HashTable
