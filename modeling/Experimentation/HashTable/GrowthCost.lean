import Experimentation.HashTable.Accounting
import Experimentation.Semantics.Charges

/-!
# What the growth of a hash table costs

`htable_grow` moves every node of the table, but it is only called for the entry that exceeds the
limit, and it doubles the limit.  Over any run of insertions and removals the nodes that are moved
are no more than three for each entry that was stored, wherever the entries were removed in between.

The functions that may move nodes are given here once more, with the number of turns that the inner
loop of `htable_grow` takes; without it, they are the functions of the table.
-/

namespace Experimentation.HashTable

open Semantics

variable {K D : Type}

/-! ## The functions with the number of nodes that they move -/

/-- `htable_grow`, with the number of nodes that it moves. -/
def htableGrowMoves (cb : Callbacks K) (malloc : Bool) (t : HTable K D) :
    Exec ((HtRet × HTable K D) × ℕ) :=
  let newsize := wrapSize (t.htSize <<< 1)
  let bytes := wrapSize (newsize * sizeofHhead)
  if !malloc then
    return ((.nomem, t), 0)
  else do
    let newheads ← initHeads bytes newsize
    let (newheads, moves) ←
      t.forEachNode (counted (rehashNode cb newsize)) t.htSize 0 (newheads, 0)
    return ((.ok, { t with htTable := newheads, bytes := bytes, htSize := newsize,
                           htLimit := wrapSize (t.htFactor * newsize) }), moves)

/-- `htable_insert`, with the number of nodes that it moves. -/
def htableInsertMoves (cb : Callbacks K) (mallocs : InsertMallocs) (t : HTable K D) (key : K)
    (data : Option D) : Exec ((HtRet × HTable K D) × ℕ) := do
  match ← t.findNode cb key with
  | some _ => return ((.existing, t), 0)
  | none =>
      if !mallocs.node then
        return ((.nomem, t), 0)
      else do
        let heads ← insertTail t.htTable (t.indexOf cb key) ⟨key, data⟩
        let t := { t with htTable := heads, htUsed := wrapSize (t.htUsed + 1) }
        if t.htUsed > t.htLimit then do
          let ((_, t), moves) ← htableGrowMoves cb mallocs.heads t
          return ((.ok, { t with htGrows := wrapSize (t.htGrows + 1) }), moves)
        else
          return ((.ok, t), 0)

/-- One call, with the number of nodes that it moves. -/
def stepMoves (cb : Callbacks K) (t : HTable K D) : Op K D → Exec ((Answer D × HTable K D) × ℕ)
  | .insert key data mallocs => do
      let ((r, t), moves) ← htableInsertMoves cb mallocs t key data
      return ((.ret r, t), moves)
  | .grow malloc => do
      let ((r, t), moves) ← htableGrowMoves cb malloc t
      return ((.ret r, t), moves)
  | .remove key => do
      let r ← step cb t (.remove key)
      return (r, 0)
  | .freeObj key htfree => do
      let r ← step cb t (.freeObj key htfree)
      return (r, 0)
  | .search key => do
      let r ← step cb t (.search key)
      return (r, 0)

def Op.stores : Op K D → Answer D → ℕ
  | .insert _ _ _, .ret .ok => 1
  | _, _ => 0

/-- The entries that the calls of a run store. -/
def storedEntries (ops : List (Op K D)) (answers : List (Answer D)) : ℕ :=
  (List.zipWith Op.stores ops answers).sum

/-- The call is not `htable_grow` itself, and heads are allocated if it needs any. -/
def Op.GrowsInTime : Op K D → Prop
  | .insert _ _ mallocs => mallocs.heads = true
  | .grow _ => False
  | .remove _ | .freeObj _ _ | .search _ => True

section Same

variable (cb : Callbacks K) (t : HTable K D)

theorem HTable.forEachNode_counted {σ : Type} (body : σ → HNode K D → Exec σ) :
    ∀ turns i s k, t.forEachNode (counted body) turns i (s, k) =
      t.forEachNode body turns i s >>= fun s' ↦
        .ok (s', k + ((t.htTable.drop i).take turns).flatten.length)
  | 0, i, s, k => by
      rw [List.take_zero]
      rfl
  | turns + 1, i, s, k => by
      rw [HTable.forEachNode, HTable.forEachNode]
      by_cases hlt : i < t.htTable.length
      · rw [headAt_eq (List.getElem?_eq_getElem hlt), Exec.ok_bind, Exec.ok_bind, foldlM_counted,
          List.drop_eq_getElem_cons hlt, List.take_succ_cons, List.flatten_cons, List.length_append,
          ← Nat.add_assoc]
        cases List.foldlM body s t.htTable[i] with
        | error fault => rfl
        | ok s₁ => exact HTable.forEachNode_counted body turns (i + 1) s₁ _
      · rw [headAt, List.getElem?_eq_none (Nat.le_of_not_lt hlt)]
        rfl

theorem htableGrowMoves_eq (malloc : Bool) : htableGrowMoves cb malloc t =
    htableGrow cb malloc t >>= fun r ↦
      .ok (r, if malloc then (t.htTable.take t.htSize).flatten.length else 0) := by
  cases malloc with
  | false => rfl
  | true =>
      change (initHeads _ _ >>= fun newheads ↦ _) = (initHeads _ _ >>= fun newheads ↦ _) >>= _
      cases initHeads (wrapSize (wrapSize (t.htSize <<< 1) * sizeofHhead))
          (wrapSize (t.htSize <<< 1)) with
      | error fault => rfl
      | ok newheads =>
          rw [Exec.ok_bind, Exec.ok_bind, t.forEachNode_counted, List.drop_zero, Nat.zero_add]
          cases t.forEachNode (rehashNode cb (wrapSize (t.htSize <<< 1))) t.htSize 0 newheads with
          | error fault => rfl
          | ok newheads => rfl

theorem htableGrowMoves_fst (malloc : Bool) :
    (htableGrowMoves cb malloc t >>= fun r ↦ .ok r.1) = htableGrow cb malloc t := by
  rw [htableGrowMoves_eq]
  cases htableGrow cb malloc t with
  | error fault => rfl
  | ok r => rfl

theorem htableInsertMoves_fst (mallocs : InsertMallocs) (key : K) (data : Option D) :
    (htableInsertMoves cb mallocs t key data >>= fun r ↦ .ok r.1) =
      htableInsert cb mallocs t key data := by
  rw [htableInsertMoves, htableInsert]
  cases t.findNode cb key with
  | error fault => rfl
  | ok found =>
      cases found with
      | some n => rfl
      | none =>
          cases mallocs.node with
          | false => rfl
          | true =>
              change (insertTail _ _ _ >>= fun heads ↦ _) >>= _ = insertTail _ _ _ >>= fun heads ↦ _
              cases insertTail t.htTable (t.indexOf cb key) (⟨key, data⟩ : HNode K D) with
              | error fault => rfl
              | ok heads =>
                  rw [Exec.ok_bind, Exec.ok_bind]
                  dsimp only
                  split
                  · rw [← htableGrowMoves_fst]
                    cases htableGrowMoves cb mallocs.heads { t with
                        htTable := heads, htUsed := wrapSize (t.htUsed + 1) } with
                    | error fault => rfl
                    | ok r => rfl
                  · rfl

theorem stepMoves_fst (op : Op K D) : (stepMoves cb t op >>= fun r ↦ .ok r.1) = step cb t op := by
  have hnone : ∀ x : Exec (Answer D × HTable K D),
      ((x >>= fun r ↦ .ok (r, 0)) >>= fun r : _ × ℕ ↦ .ok r.1) = x := by
    intro x
    cases x with
    | error fault => rfl
    | ok r => rfl
  cases op with
  | insert key data mallocs =>
      rw [stepMoves, step, ← htableInsertMoves_fst]
      cases htableInsertMoves cb mallocs t key data with
      | error fault => rfl
      | ok r => rfl
  | grow malloc =>
      rw [stepMoves, step, ← htableGrowMoves_fst]
      cases htableGrowMoves cb malloc t with
      | error fault => rfl
      | ok r => rfl
  | remove key => exact hnone _
  | freeObj key htfree => exact hnone _
  | search key => exact hnone _

theorem chargedRun_stepMoves_fst (ops : List (Op K D)) :
    (chargedRun (stepMoves cb) t ops >>= fun r ↦ .ok r.1) = run cb t ops := by
  induction ops generalizing t with
  | nil => rfl
  | cons op ops ih =>
      rw [chargedRun, run, ← stepMoves_fst]
      cases stepMoves cb t op with
      | error fault => rfl
      | ok r =>
          change (chargedRun (stepMoves cb) r.1.2 ops >>= fun r ↦ _) >>= _ =
            (run cb r.1.2 ops >>= fun r ↦ _)
          rw [← ih]
          cases chargedRun (stepMoves cb) r.1.2 ops with
          | error fault => rfl
          | ok r => rfl

end Same

/-! ## What one call costs -/

section Cost

variable {cb : LawfulCallbacks K} {t : HTable K D} {es : List (HNode K D)} {key : K}

theorem Holds.htableInsertMoves_existing (h : Holds cb t es) (mallocs : InsertMallocs)
    (data : Option D) (hfind : es.find? (cb.sameKey key) ≠ none) :
    htableInsertMoves cb mallocs t key data = .ok ((.existing, t), 0) := by
  obtain ⟨n, hn⟩ := Option.ne_none_iff_exists'.1 hfind
  rw [htableInsertMoves, h.findNode_eq key, hn]
  rfl

theorem Holds.htableInsertMoves_nomem (h : Holds cb t es) {mallocs : InsertMallocs}
    (data : Option D) (hfind : es.find? (cb.sameKey key) = none) (hnode : mallocs.node = false) :
    htableInsertMoves cb mallocs t key data = .ok ((.nomem, t), 0) := by
  rw [htableInsertMoves, h.findNode_eq key, hfind, Exec.ok_bind, hnode]
  rfl

theorem Holds.htableInsertMoves_new (h : Holds cb t es) {mallocs : InsertMallocs} (data : Option D)
    (hfind : es.find? (cb.sameKey key) = none) (hnode : mallocs.node = true)
    (hheads : mallocs.heads = true) (hfits : t.InsertFits true) :
    htableInsertMoves cb mallocs t key data = .ok ((.ok, t.inserted cb true ⟨key, data⟩),
      if t.htLimit < wrapSize (t.htUsed + 1) then es.length + 1 else 0) := by
  have hwith : Holds cb (t.withNode cb ⟨key, data⟩) (es ++ [⟨key, data⟩]) :=
    h.withNode (new_of_find? hfind)
  have hinsert : insertTail t.htTable (t.indexOf cb key) (⟨key, data⟩ : HNode K D) =
      .ok (t.withNode cb ⟨key, data⟩).htTable :=
    if_pos (h.length ▸ bucketIndex_lt h.size_pos _)
  rw [htableInsertMoves, h.findNode_eq key, hfind, Exec.ok_bind, hnode]
  change (insertTail t.htTable (t.indexOf cb key) (⟨key, data⟩ : HNode K D) >>= _) = _
  rw [hinsert, Exec.ok_bind, HTable.inserted]
  by_cases hlimit : t.htLimit < wrapSize (t.htUsed + 1)
  · have hgrow : htableGrowMoves cb true (t.withNode cb ⟨key, data⟩) =
        .ok ((.ok, (t.withNode cb ⟨key, data⟩).doubled cb), es.length + 1) := by
      rw [htableGrowMoves_eq, hwith.htableGrow_eq (hfits hlimit), Exec.ok_bind, if_pos rfl,
        List.take_of_length_le hwith.length.le, hwith.flatten_perm.length_eq, List.length_append,
        List.length_singleton]
      rfl
    change (if t.htLimit < wrapSize (t.htUsed + 1) then
      htableGrowMoves cb mallocs.heads (t.withNode cb ⟨key, data⟩) >>= _ else _) = _
    rw [if_pos hlimit, if_pos hlimit, if_pos hlimit, hheads, hgrow]
    rfl
  · change (if t.htLimit < wrapSize (t.htUsed + 1) then _ else _) = _
    rw [if_neg hlimit, if_neg hlimit, if_neg hlimit]
    rfl

/-- What earlier insertions have paid for the next growth. -/
def HTable.potential (t : HTable K D) : ℕ := 2 * t.htTable.flatten.length - t.htLimit

theorem Holds.potential_eq (h : Holds cb t es) : t.potential = 2 * es.length - t.htLimit := by
  rw [HTable.potential, h.flatten_perm.length_eq]

variable {size grows : ℕ}

theorem Accounted.inserted_pays (h : Accounted (cb : Callbacks K) size grows t es) {n : HNode K D}
    (hnew : ∀ e ∈ es, cb.cmpf e.hnKey n.hnKey ≠ 0)
    (hfits : t.htLimit < wrapSize (t.htUsed + 1) → t.ProductsFit) :
    (if t.htLimit < wrapSize (t.htUsed + 1) then es.length + 1 else 0) +
      (t.inserted cb true n).potential ≤ t.potential + 3 := by
  have hinserted := (h.inserted hnew hfits).holds
  rw [hinserted.potential_eq, h.holds.potential_eq, List.length_append, List.length_singleton]
  unfold HTable.inserted
  by_cases hlimit : t.htLimit < wrapSize (t.htUsed + 1)
  · rw [if_pos hlimit, if_pos hlimit]
    have hdouble : ((t.withNode cb n).doubled cb).htLimit = 2 * t.htLimit :=
      (h.load_doubled (hfits hlimit)).1
    have hload := h.load
    have hnext : wrapSize (t.htUsed + 1) ≤ t.htUsed + 1 := Nat.mod_le _ _
    -- the limit is below the count, so it is not the largest number
    have hcount : es.length < sizeModulus := h.count.resolve_right fun hmax ↦ by
      have hlt : wrapSize (t.htUsed + 1) < sizeModulus := Nat.mod_lt _ (by decide)
      omega
    have hexact : t.htUsed = es.length := by rw [h.holds.used, wrapSize_of_lt hcount]
    change es.length + 1 + (2 * (es.length + 1) - ((t.withNode cb n).doubled cb).htLimit) ≤ _
    rw [hdouble]
    omega
  · rw [if_neg hlimit, if_neg hlimit]
    change 0 + (2 * (es.length + 1) - t.htLimit) ≤ _
    omega

theorem Accounted.erased_pays (h : Accounted (cb : Callbacks K) size grows t es) (key : K) :
    (if es.find? (cb.sameKey key) = none then t else t.dropNode cb key).potential ≤
      t.potential := by
  rw [(h.erased key).holds.potential_eq, h.holds.potential_eq]
  have hle : (es.eraseP (cb.sameKey key)).length ≤ es.length := List.eraseP_sublist.length_le
  have hlimit : (if es.find? (cb.sameKey key) = none then t else t.dropNode cb key).htLimit =
      t.htLimit := by
    split
    · rfl
    · rfl
  rw [hlimit]
  omega

/-- The moves of a call are paid for by the entry that it stores and by what the potential falls. -/
theorem Accounted.stepMoves (h : Accounted (cb : Callbacks K) size grows t es) {op : Op K D}
    (hop : op.GrowsInTime) (hfits : op.ProductsFit cb t) :
    ∃ answer t' moves, HashTable.stepMoves cb t op = .ok ((answer, t'), moves) ∧
      Accounted (cb : Callbacks K) size grows t' (op.entries cb es) ∧
      moves + t'.potential ≤ t.potential + 3 * op.stores answer := by
  cases op with
  | insert key data mallocs =>
      rw [Op.entries, HashTable.stepMoves]
      by_cases hfind : es.find? (cb.sameKey key) = none
      · cases hnode : mallocs.node with
        | false =>
            rw [h.holds.htableInsertMoves_nomem data hfind hnode, if_neg (by simp)]
            exact ⟨.ret .nomem, t, 0, rfl, h, by simp [Op.stores]⟩
        | true =>
            have hproducts : t.htLimit < wrapSize (t.htUsed + 1) → t.ProductsFit :=
              hfits (by rw [h.holds.findNode_eq key, hfind])
            have hnew := new_of_find? hfind
            rw [if_pos ⟨hfind, rfl⟩, h.holds.htableInsertMoves_new data hfind hnode hop
              fun hlimit _ ↦ (hproducts hlimit).1]
            refine ⟨.ret .ok, t.inserted cb true ⟨key, data⟩, _, rfl, ?_, ?_⟩
            · exact h.inserted hnew hproducts
            · exact h.inserted_pays hnew hproducts
      · rw [h.holds.htableInsertMoves_existing mallocs data hfind, if_neg fun hand ↦ hfind hand.1]
        exact ⟨.ret .existing, t, 0, rfl, h, by simp [Op.stores]⟩
  | remove key =>
      rw [HashTable.stepMoves, h.holds.step_remove key]
      exact ⟨_, _, 0, rfl, h.erased key, by
        rw [Nat.zero_add]
        exact (h.erased_pays key).trans (Nat.le_add_right _ _)⟩
  | freeObj key htfree =>
      rw [HashTable.stepMoves, h.holds.step_freeObj key htfree]
      exact ⟨_, _, 0, rfl, h.erased key, by
        rw [Nat.zero_add]
        exact (h.erased_pays key).trans (Nat.le_add_right _ _)⟩
  | grow malloc => exact hop.elim
  | search key =>
      rw [HashTable.stepMoves, HashTable.step, h.holds.htableSearch_eq key]
      exact ⟨_, t, 0, rfl, h, by simp⟩

end Cost

/-- The calls that are to come grow the table in time, and no product wraps in them. -/
def PaidFor (cb : Callbacks K) (size : ℕ) (t : HTable K D) (ops : List (Op K D)) : Prop :=
  (∃ es, Accounted cb size 0 t es) ∧ (∀ op ∈ ops, op.GrowsInTime) ∧ ProductsFitRun cb t ops

theorem PaidFor.step {cb : LawfulCallbacks K} {size : ℕ} {t : HTable K D} {op : Op K D}
    {ops : List (Op K D)} (h : PaidFor (cb : Callbacks K) size t (op :: ops)) :
    ∃ answer t' moves, stepMoves cb t op = .ok ((answer, t'), moves) ∧
      PaidFor (cb : Callbacks K) size t' ops ∧
      moves + t'.potential ≤ t.potential + 3 * op.stores answer := by
  obtain ⟨⟨es, hes⟩, hall, hop, hrest⟩ := h
  obtain ⟨answer, t', moves, hstep, hnext, hpay⟩ := hes.stepMoves (hall op List.mem_cons_self) hop
  have hsame := stepMoves_fst cb.toCallbacks t op
  rw [hstep, Exec.ok_bind] at hsame
  rw [← hsame] at hrest
  have hlater : ∀ op' ∈ ops, op'.GrowsInTime := fun op' hop' ↦
    hall op' (List.mem_cons_of_mem op hop')
  exact ⟨answer, t', moves, hstep, ⟨⟨_, hnext⟩, hlater, hrest⟩, hpay⟩

/-- Over any run of calls from `htable_init` on, in any order, in which the heads for a growth are
always allocated and `htable_grow` is not called by itself, at most three nodes are moved for each
entry that is stored. -/
theorem chargedRun_stepMoves_le {cb : LawfulCallbacks K} {k factor : ℕ} {t₀ : HTable K D}
    (hinit : htableInit true (2 ^ k) factor = .ok (.ok, some t₀)) (hfactor : 1 ≤ factor)
    (hlimit : factor * 2 ^ k < sizeModulus) {ops : List (Op K D)}
    (hops : ∀ op ∈ ops, op.GrowsInTime) (hwrap : ProductsFitRun cb t₀ ops) :
    ∃ answers t moves, chargedRun (stepMoves cb) t₀ ops = .ok ((answers, t), moves) ∧
      run cb t₀ ops = .ok (answers, t) ∧ moves ≤ 3 * storedEntries ops answers := by
  obtain ⟨_, hfits, rfl⟩ := htableInit_ok_iff.1 hinit
  have hstart : Accounted (cb : Callbacks K) (2 ^ k) 0
      (emptyTable (2 ^ k) factor : HTable K D) [] :=
    { holds := emptyTable_holds cb.toCallbacks hfits
      load := Nat.zero_le _
      limit := wrapSize_of_lt hlimit
      factor := hfactor
      size := (Nat.mul_one _).symm
      count := .inl (show 0 < sizeModulus by decide) }
  have hpaid : PaidFor cb (2 ^ k) (emptyTable (2 ^ k) factor) ops := ⟨⟨[], hstart⟩, hops, hwrap⟩
  obtain ⟨answers, t, moves, hrun, _, hle⟩ := chargedRun_le (fun _ _ _ ↦ PaidFor.step) hpaid
  have hsame := chargedRun_stepMoves_fst cb.toCallbacks (emptyTable (2 ^ k) factor) ops
  rw [hrun, Exec.ok_bind] at hsame
  refine ⟨answers, t, moves, hrun, hsame.symm, ?_⟩
  have hzero : (emptyTable (2 ^ k) factor : HTable K D).potential = 0 := by
    rw [hstart.holds.potential_eq, List.length_nil, Nat.mul_zero, Nat.zero_sub]
  calc
    moves ≤ moves + t.potential := Nat.le_add_right _ _
    _ ≤ 0 + 3 * storedEntries ops answers := hzero ▸ hle
    _ = 3 * storedEntries ops answers := Nat.zero_add _

/-- Five calls on a table of one head, of which two insertions find it full. -/
def oneHeadCalls : List (Op ℕ ℕ) :=
  [.insert 4 (some 5) ⟨true, true⟩, .insert 2 (some 7) ⟨true, true⟩, .remove 4,
    .insert 1 (some 6) ⟨true, true⟩, .insert 3 (some 8) ⟨true, true⟩]

/-- A table of one head that grows twice while four entries are stored. -/
theorem oneHead_moves_le : ∃ answers t moves,
    chargedRun (stepMoves numberCallbacks) (emptyTable (D := ℕ) 1 1) oneHeadCalls =
      .ok ((answers, t), moves) ∧ moves = 5 ∧ moves ≤ 3 * 4 := by
  have hinit : htableInit true (2 ^ 0) 1 =
      .ok (.ok, some (emptyTable (K := ℕ) (D := ℕ) (2 ^ 0) 1)) :=
    htableInit_ok_iff.2 ⟨rfl, by decide, rfl⟩
  have hops : ∀ op ∈ oneHeadCalls, op.GrowsInTime := by
    simp [oneHeadCalls, Op.GrowsInTime]
  have hwrap : ProductsFitRun numberCallbacks (emptyTable (2 ^ 0) 1) oneHeadCalls :=
    ⟨fun _ _ ↦ ⟨by decide, by decide⟩, fun _ _ ↦ ⟨by decide, by decide⟩, trivial,
      fun _ _ ↦ ⟨by decide, by decide⟩, fun _ _ ↦ ⟨by decide, by decide⟩, trivial⟩
  obtain ⟨answers, t, moves, hrun, hsame, hle⟩ :=
    chargedRun_stepMoves_le hinit (by decide) (by decide) hops hwrap
  cases hrun
  exact ⟨_, _, _, rfl, rfl, hle⟩

end Experimentation.HashTable
