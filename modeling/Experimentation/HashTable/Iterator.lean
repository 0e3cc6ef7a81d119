import Experimentation.HashTable.Nodes
import Experimentation.HashTable.Refinement

/-!
# The iterator of a hash table

`htable_get_next_elm` keeps the position after the bucket that it walks, and gives up when that
position is the size of the table.  It does so before it looks at the chain it is on, so what it
yields is every bucket but the last one in full, and the first node of the last one.  Iteration is
complete just when the last bucket has at most one node.
-/

namespace Experimentation.HashTable

open Semantics Buckets

variable {K D σ : Type}

/-- What the iterator yields from a sequence of chains: of the last one only the first node. -/
def yielded : List (List (HNode K D)) → List (HNode K D)
  | [] => []
  | [chain] => chain.take 1
  | chain :: chains => chain ++ yielded chains

theorem yielded_cons {chain : List (HNode K D)} {chains : List (List (HNode K D))}
    (h : chains ≠ []) : yielded (chain :: chains) = chain ++ yielded chains := by
  cases chains with
  | nil => exact absurd rfl h
  | cons next chains => rfl

theorem yielded_nil_cons (chains : List (List (HNode K D))) :
    yielded ([] :: chains) = yielded chains := by
  cases chains with
  | nil => rfl
  | cons next chains => rfl

/-- The yielded nodes are nodes of the chains, in their order. -/
theorem yielded_sublist (chains : List (List (HNode K D))) :
    (yielded chains).Sublist chains.flatten := by
  induction chains with
  | nil => exact List.Sublist.refl _
  | cons chain chains ih =>
      by_cases hlast : chains = []
      · rw [hlast, List.flatten_singleton]
        exact List.take_sublist 1 chain
      · rw [yielded_cons hlast, List.flatten_cons]
        exact List.Sublist.append (List.Sublist.refl _) ih

theorem length_yielded_iff {chains : List (List (HNode K D))} (h : chains ≠ []) :
    (yielded chains).length = chains.flatten.length ↔ (chains.getLast h).length ≤ 1 := by
  induction chains with
  | nil => exact absurd rfl h
  | cons chain chains ih =>
      by_cases hlast : chains = []
      · subst hlast
        rw [yielded, List.length_take, List.flatten_singleton, List.getLast_singleton]
        omega
      · rw [yielded_cons hlast, List.flatten_cons, List.getLast_cons hlast, ← ih hlast,
          List.length_append, List.length_append]
        omega

theorem flatten_eq_yielded_append {chains : List (List (HNode K D))} (h : chains ≠ []) :
    chains.flatten = yielded chains ++ (chains.getLast h).drop 1 := by
  induction chains with
  | nil => exact absurd rfl h
  | cons chain chains ih =>
      by_cases hlast : chains = []
      · subst hlast
        rw [yielded, List.flatten_singleton, List.getLast_singleton, List.take_append_drop]
      · rw [yielded_cons hlast, List.flatten_cons, List.getLast_cons hlast, List.append_assoc,
          ← ih hlast]

/-! ## One call -/

/-- The nodes that are still to come. -/
def HTable.upcoming (t : HTable K D) (it : HIterator K D) : List (HNode K D) :=
  if it.pos < t.htSize then
    match it.pnode with
    | [] => yielded (t.htTable.drop it.pos)
    | _ :: rest => rest ++ yielded (t.htTable.drop it.pos)
  else []

/-- A position of an iterator that was moved by `htable_get_next_elm` only. -/
def HIterator.Moved (it : HIterator K D) : Prop := it.pnode ≠ [] → it.pos ≠ 0

section Next

variable {t : HTable K D}

/-- What a call that left the position and the node behind has to do with the nodes to come. -/
def Yields (t : HTable K D) (nodes : List (HNode K D)) (r : ℕ × List (HNode K D)) : Prop :=
  match r.2 with
  | [] => nodes = []
  | n :: rest => r.1 ≠ 0 ∧ nodes = n :: t.upcoming ⟨r.1, n :: rest⟩

theorem firstUsable_yields (hlength : t.htTable.length = t.htSize) :
    ∀ turns pos, turns + pos = t.htSize →
      ∃ r, t.firstUsable turns pos = .ok r ∧ Yields t (yielded (t.htTable.drop pos)) r
  | 0, pos, h => by
      refine ⟨(pos, []), rfl, ?_⟩
      rw [List.drop_of_length_le (by omega)]
      rfl
  | turns + 1, pos, h => by
      have hlt : pos < t.htTable.length := by omega
      have hdrop := List.drop_eq_getElem_cons hlt
      have hhead : headAt t.htTable pos = .ok t.htTable[pos] :=
        headAt_eq (List.getElem?_eq_getElem hlt)
      cases hchain : t.htTable[pos] with
      | nil =>
          obtain ⟨r, hr, hyields⟩ := firstUsable_yields hlength turns (pos + 1) (by omega)
          refine ⟨r, ?_, ?_⟩
          · rw [HTable.firstUsable, hhead, Exec.ok_bind, hchain]
            exact hr
          · rw [hdrop, hchain, yielded_nil_cons]
            exact hyields
      | cons n rest =>
          refine ⟨(pos + 1, n :: rest), ?_, Nat.succ_ne_zero pos, ?_⟩
          · rw [HTable.firstUsable, hhead, Exec.ok_bind, hchain]
            rfl
          · rw [hdrop, hchain, HTable.upcoming]
            dsimp only
            by_cases hend : pos + 1 < t.htSize
            · rw [if_pos hend, yielded_cons]
              · rfl
              · intro hnil
                have hlen := List.drop_eq_nil_iff.1 hnil
                omega
            · rw [if_neg hend, List.drop_of_length_le (by omega)]
              rfl

theorem htableGetNextElm_yields (hlength : t.htTable.length = t.htSize) (hpos : 0 < t.htSize)
    {it : HIterator K D} (hit : it.Moved) :
    ∃ r, htableGetNextElm t it = .ok r ∧ Yields t (t.upcoming it) r := by
  have hlimit : subSize t.htSize 1 = t.htSize - 1 := subSize_of_le hpos
  rw [htableGetNextElm, hlimit, HTable.upcoming]
  by_cases hend : it.pos < t.htSize
  · have hfirst := firstUsable_yields hlength (t.htSize - it.pos) it.pos (by omega)
    rw [if_neg (by omega), if_pos hend]
    cases hnode : it.pnode with
    | nil => exact hfirst
    | cons n next =>
        have hmoved : it.pos ≠ 0 := hit (by rw [hnode]; exact List.cons_ne_nil n next)
        dsimp only
        rw [if_neg hmoved]
        cases next with
        | nil => exact hfirst
        | cons n' rest =>
            refine ⟨(it.pos, n' :: rest), rfl, hmoved, ?_⟩
            rw [HTable.upcoming, if_pos hend]
            rfl
  · rw [if_pos (by omega), if_neg hend]
    exact ⟨(it.pos, []), rfl, rfl⟩

end Next

section Loops

variable {t : HTable K D} {body : σ → HIterator K D → Exec σ} {f : σ → HNode K D → Exec σ}

/-- A loop whose body looks at the node of the iterator alone is a fold over the nodes to come.  The
induction is on the turns that the loop is given. -/
theorem iterate_eq_foldlM (hlength : t.htTable.length = t.htSize) (hpos : 0 < t.htSize)
    (hbody : ∀ s pos n rest, body s ⟨pos, n :: rest⟩ = f s n) (fuel : ℕ) {it : HIterator K D}
    (hit : it.Moved) (hfuel : (t.upcoming it).length < fuel) (s : σ) :
    t.iterate body fuel it s = (t.upcoming it).foldlM f s := by
  induction fuel generalizing it s with
  | zero => exact absurd hfuel (Nat.not_lt_zero _)
  | succ fuel ih =>
      obtain ⟨⟨pos, pnode⟩, hnext, hyields⟩ := htableGetNextElm_yields hlength hpos hit
      rw [HTable.iterate, hnext, Exec.ok_bind]
      cases pnode with
      | nil =>
          rw [show t.upcoming it = [] from hyields]
          rfl
      | cons n rest =>
          obtain ⟨hmoved, hupcoming⟩ := hyields
          rw [hupcoming, List.length_cons] at hfuel
          rw [hupcoming, List.foldlM_cons]
          dsimp only
          rw [hbody]
          exact bind_congr fun s' ↦ ih (fun _ ↦ hmoved) (Nat.lt_of_succ_lt_succ hfuel) s'

/-- The loop from `htable_iterator_init` on. -/
theorem forEachElm_eq (hlength : t.htTable.length = t.htSize) (hpos : 0 < t.htSize)
    (hbody : ∀ s pos n rest, body s ⟨pos, n :: rest⟩ = f s n) (s : σ) :
    t.forEachElm body s = (yielded t.htTable).foldlM f s := by
  have hall : t.upcoming htableIteratorInit = yielded t.htTable := by
    rw [HTable.upcoming, htableIteratorInit, if_pos hpos, List.drop_zero]
  have hle := (yielded_sublist t.htTable).length_le
  rw [HTable.forEachElm, iterate_eq_foldlM hlength hpos hbody _ (fun hnode ↦ absurd rfl hnode)
    (by rw [hall]; omega), hall]

theorem htableTraverse_eq (hlength : t.htTable.length = t.htSize)
    (pfunc : σ → Option D → Exec σ) (s : σ) :
    htableTraverse t pfunc s = t.htTable.flatten.foldlM (fun s n ↦ pfunc s n.hnData) s :=
  t.forEachNode_eq hlength _ s

end Loops

/-! ## Completeness -/

/-- The nodes that the iterator yields. -/
def HTable.elements (t : HTable K D) : Exec (List (HNode K D)) :=
  t.forEachElm (fun ns it ↦
    match it.pnode with
    | [] => throw .badPointer
    | n :: _ => return ns ++ [n]) []

/-- The data that `htable_traverse` calls its function on. -/
def HTable.traversed (t : HTable K D) : Exec (List (Option D)) :=
  htableTraverse t (fun ds d ↦ return ds ++ [d]) []

/-- The iterator yields every entry once, in the order of `htable_traverse` and as many as
`htable_get_used` says. -/
structure IterationComplete (t : HTable K D) (ns : List (HNode K D)) : Prop where
  elements : t.elements = .ok ns
  every : ns.Perm t.htTable.flatten
  order : t.traversed = .ok (ns.map HNode.hnData)
  count : ns.length = htableGetUsed t

/-- The chain of the last bucket. -/
def HTable.lastChain (t : HTable K D) : List (HNode K D) := t.htTable.getD (t.htSize - 1) []

theorem foldlM_collect {α β : Type} (g : α → β) (ns : List α) (acc : List β) :
    ns.foldlM (fun ds n ↦ (return ds ++ [g n] : Exec (List β))) acc = .ok (acc ++ ns.map g) := by
  induction ns generalizing acc with
  | nil =>
      rw [List.map_nil, List.append_nil]
      rfl
  | cons n ns ih =>
      rw [List.foldlM_cons, Exec.pure_eq_ok, Exec.ok_bind, ih, List.append_assoc]
      rfl

section Complete

variable {t : HTable K D}

theorem HTable.Indexed.htTable_ne_nil (h : t.Indexed) : t.htTable ≠ [] := by
  apply List.ne_nil_of_length_pos
  rw [h.length]
  exact h.pos

theorem HTable.Indexed.lastChain_eq (h : t.Indexed) :
    t.lastChain = t.htTable.getLast h.htTable_ne_nil := by
  rw [HTable.lastChain, ← h.length, List.getD_eq_getElem?_getD, List.getLast_eq_getElem,
    List.getElem?_eq_getElem]
  rfl

theorem elements_eq (hlength : t.htTable.length = t.htSize) (hpos : 0 < t.htSize) :
    t.elements = .ok (yielded t.htTable) := by
  rw [HTable.elements, forEachElm_eq (f := fun ns n ↦ return ns ++ [n]) hlength hpos
    fun _ _ _ _ ↦ rfl]
  have hcollect := foldlM_collect id (yielded t.htTable) []
  rwa [List.map_id, List.nil_append] at hcollect

theorem traversed_eq (hlength : t.htTable.length = t.htSize) :
    t.traversed = .ok (t.htTable.flatten.map HNode.hnData) := by
  rw [HTable.traversed, htableTraverse_eq hlength]
  exact foldlM_collect HNode.hnData _ []

/-- The iteration over a reachable table is complete just when the chain of the last bucket has at
most one node.  The nodes are objects in memory, so there are fewer than `2 ^ 64` of them. -/
theorem iterationComplete_iff {cb : Callbacks K} (h : Reachable cb t)
    (hcount : t.htTable.flatten.length < sizeModulus) :
    (∃ ns, IterationComplete t ns) ↔ t.lastChain.length ≤ 1 := by
  have hcounted := h.counted
  have hused : htableGetUsed t = t.htTable.flatten.length := by
    rw [hcounted.used, wrapSize_of_lt hcount]
  rw [hcounted.lastChain_eq, ← length_yielded_iff]
  constructor
  · intro hcomplete
    obtain ⟨ns, hns⟩ := hcomplete
    have helements := hns.elements
    rw [elements_eq hcounted.length hcounted.pos, Except.ok.injEq] at helements
    rw [helements, hns.count, hused]
  · intro hlength
    have hall : yielded t.htTable = t.htTable.flatten :=
      (yielded_sublist t.htTable).eq_of_length hlength
    refine ⟨yielded t.htTable, elements_eq hcounted.length hcounted.pos, ?_, ?_, ?_⟩
    · rw [hall]
    · rw [hall]
      exact traversed_eq hcounted.length
    · rw [hlength, hused]

end Complete

/-- A table of two buckets whose two entries share the first one. -/
def leaningTable : HTable ℕ ℕ :=
  { emptyTable (K := ℕ) (D := ℕ) 2 2 with
    htUsed := 2
    htTable := [[⟨0, some 5⟩, ⟨2, some 7⟩], []] }

/-- A chain of two nodes in a bucket that is not the last one is iterated over completely. -/
theorem leaningTable_complete : ∃ ns, IterationComplete leaningTable ns := by
  have hreach : Reachable numberCallbacks leaningTable := ⟨1, 2, emptyTable 2 2,
    [.insert 0 (some 5) ⟨true, true⟩, .insert 2 (some 7) ⟨true, true⟩], _,
    htableInit_ok_iff.2 ⟨rfl, by decide, rfl⟩, rfl⟩
  exact (iterationComplete_iff hreach (by decide)).2 (by decide)

/-- A table of one bucket that holds two entries. -/
def crowdedTable : HTable ℕ ℕ :=
  { emptyTable (K := ℕ) (D := ℕ) 1 2 with
    htUsed := 2
    htTable := [[⟨0, some 5⟩, ⟨1, some 7⟩]] }

/-- The iterator loses the second entry of a table of one bucket. -/
theorem crowdedTable_not_complete :
    Reachable numberCallbacks crowdedTable ∧ crowdedTable.elements = .ok [⟨0, some 5⟩] ∧
      crowdedTable.traversed = .ok [some 5, some 7] ∧ htableGetUsed crowdedTable = 2 ∧
      ¬ ∃ ns, IterationComplete crowdedTable ns := by
  have helements : crowdedTable.elements = .ok [⟨0, some 5⟩] := rfl
  refine ⟨⟨0, 2, emptyTable 1 2,
    [.insert 0 (some 5) ⟨true, true⟩, .insert 1 (some 7) ⟨true, true⟩], _,
    htableInit_ok_iff.2 ⟨rfl, by decide, rfl⟩, rfl⟩, helements, rfl, rfl, fun hcomplete ↦ ?_⟩
  obtain ⟨ns, hns⟩ := hcomplete
  have hone := hns.elements
  rw [helements, Except.ok.injEq] at hone
  have htwo : ns.length = 2 := hns.count
  rw [← hone] at htwo
  cases htwo

end Experimentation.HashTable
