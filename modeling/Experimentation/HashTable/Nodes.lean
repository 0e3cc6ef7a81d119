import Experimentation.HashTable.Run

/-!
# The nodes of a hash table

What can be said of a table whatever its callbacks compute: as long as there is a head for each
index, an operation finds none but nodes of the table, puts in none but the new one, and leaves a
head for each index.  Keys may be overwritten behind the back of such a table.
-/

namespace Experimentation.HashTable

open Semantics Buckets

variable {K D : Type}

/-- The heads are there, and fit in the memory that was requested for them. -/
structure HTable.Sound (t : HTable K D) : Prop extends t.Indexed where
  fits : t.htSize * sizeofHhead < sizeModulus

/-- The node is on some chain of the table. -/
def HTable.HasNode (t : HTable K D) (n : HNode K D) : Prop := n ∈ t.htTable.flatten

theorem flatten_modify_sublist {α : Type} {f : List α → List α} (hf : ∀ l, (f l).Sublist l)
    (row : List (List α)) (i : ℕ) : (row.modify i f).flatten.Sublist row.flatten := by
  induction row generalizing i with
  | nil => rw [List.modify_nil]
  | cons l row ih =>
      cases i with
      | zero =>
          rw [List.modify_zero_cons, List.flatten_cons, List.flatten_cons]
          exact (hf l).append (List.Sublist.refl _)
      | succ i =>
          rw [List.modify_succ_cons, List.flatten_cons, List.flatten_cons]
          exact (List.Sublist.refl l).append (ih i)

variable {cb : Callbacks K} {t t' : HTable K D} {key : K}

theorem HTable.Indexed.exists_findNode (h : t.Indexed) (cb : Callbacks K) (key : K) :
    ∃ found, t.findNode cb key = .ok found := by
  have hlt : t.indexOf cb key < t.htTable.length := by
    rw [h.length]
    exact bucketIndex_lt h.pos _
  rw [HTable.findNode, headAt_eq (List.getElem?_eq_getElem hlt)]
  exact ⟨_, rfl⟩

theorem HTable.hasNode_of_findNode {n : HNode K D} (h : t.findNode cb key = .ok (some n)) :
    t.HasNode n ∧ cb.sameKey key n = true := by
  obtain ⟨chain, hchain, hfind⟩ := Exec.bind_eq_ok.1 h
  rw [Exec.pure_eq_ok, Except.ok.injEq] at hfind
  have hmem : chain ∈ t.htTable := List.mem_of_getElem? (headAt_eq_ok.1 hchain)
  exact ⟨List.mem_flatten.2 ⟨chain, hmem, List.mem_of_find?_eq_some hfind⟩,
    List.find?_some hfind⟩

theorem HTable.Indexed.exists_htableSearch (h : t.Indexed) (cb : Callbacks K) (key : K) :
    ∃ found, htableSearch cb t key = .ok found := by
  obtain ⟨found, hfound⟩ := h.exists_findNode cb key
  rw [htableSearch, hfound]
  cases found with
  | none => exact ⟨_, rfl⟩
  | some n => exact ⟨_, rfl⟩

theorem hasNode_of_htableSearch {d : D} (h : htableSearch cb t key = .ok (some d)) :
    ∃ n, t.HasNode n ∧ cb.sameKey key n = true ∧ n.hnData = some d := by
  obtain ⟨found, hfound, hdata⟩ := Exec.bind_eq_ok.1 h
  cases found with
  | none => cases hdata
  | some n =>
      obtain ⟨hmem, hsame⟩ := HTable.hasNode_of_findNode hfound
      exact ⟨n, hmem, hsame, Except.ok.inj hdata⟩

theorem HTable.findNode_of_no_heads (h : t.htTable = []) (cb : Callbacks K) (key : K) :
    t.findNode cb key = .error .outOfBounds := by
  rw [HTable.findNode, h]
  rfl

theorem HTable.htableInsert_of_no_heads (h : t.htTable = []) (cb : Callbacks K)
    (mallocs : InsertMallocs) (key : K) (data : Option D) :
    htableInsert cb mallocs t key data = .error .outOfBounds := by
  rw [htableInsert, findNode_of_no_heads h]
  rfl

theorem HTable.htableFreeObj_of_no_heads (h : t.htTable = []) (cb : Callbacks K) (key : K)
    (htfree : ℕ) : htableFreeObj cb t key htfree = .error .outOfBounds := by
  rw [htableFreeObj, findNode_of_no_heads h]
  rfl

section Iteration

variable {pos : ℕ} {pnode : List (HNode K D)} {it : HIterator K D}

theorem HTable.firstUsable_mem {turns start : ℕ}
    (h : t.firstUsable turns start = .ok (pos, pnode)) : ∀ n ∈ pnode, t.HasNode n := by
  induction turns generalizing start with
  | zero =>
      cases h
      exact fun n hn ↦ absurd hn List.not_mem_nil
  | succ turns ih =>
      obtain ⟨chain, hchain, hrest⟩ := Exec.bind_eq_ok.1 h
      cases chain with
      | nil => exact ih hrest
      | cons n rest =>
          cases hrest
          intro m hm
          exact List.mem_flatten.2 ⟨_, List.mem_of_getElem? (headAt_eq_ok.1 hchain), hm⟩

theorem htableGetNextElm_mem (hit : ∀ n ∈ it.pnode, t.HasNode n)
    (h : htableGetNextElm t it = .ok (pos, pnode)) : ∀ n ∈ pnode, t.HasNode n := by
  unfold htableGetNextElm at h
  split at h
  · cases h
    exact fun n hn ↦ absurd hn List.not_mem_nil
  · split at h
    · exact HTable.firstUsable_mem h
    · rename_i hpnode
      split at h
      · exact HTable.firstUsable_mem h
      · split at h
        · exact HTable.firstUsable_mem h
        · cases h
          intro m hm
          rw [hpnode] at hit
          exact hit m (List.mem_cons_of_mem _ hm)

/-- What the body of a loop keeps is kept by the loop, whose body only sees nodes of the table. -/
theorem iterate_invariant {σ : Type} {body : σ → HIterator K D → Exec σ} {P : σ → Prop}
    (hbody : ∀ s pos n rest s', t.HasNode n → body s ⟨pos, n :: rest⟩ = .ok s' → P s → P s')
    {fuel : ℕ} {s s' : σ} (hit : ∀ n ∈ it.pnode, t.HasNode n)
    (hrun : t.iterate body fuel it s = .ok s') (hs : P s) : P s' := by
  induction fuel generalizing it s with
  | zero => cases hrun
  | succ fuel ih =>
      obtain ⟨⟨pos, pnode⟩, hnext, hrest⟩ := Exec.bind_eq_ok.1 hrun
      have hmem := htableGetNextElm_mem hit hnext
      cases pnode with
      | nil =>
          cases hrest
          exact hs
      | cons n rest =>
          obtain ⟨s₁, hstep, hloop⟩ := Exec.bind_eq_ok.1 hrest
          exact ih hmem hloop (hbody _ _ _ _ _ (hmem n List.mem_cons_self) hstep hs)

theorem forEachElm_invariant {σ : Type} {body : σ → HIterator K D → Exec σ} {P : σ → Prop}
    (hbody : ∀ s pos n rest s', t.HasNode n → body s ⟨pos, n :: rest⟩ = .ok s' → P s → P s')
    {s s' : σ} (hrun : t.forEachElm body s = .ok s') (hs : P s) : P s' :=
  iterate_invariant hbody (fun _ hn ↦ absurd hn List.not_mem_nil) hrun hs

end Iteration

/-! ## Changes -/

theorem emptyTable_sound {size factor : ℕ} (hpos : 0 < size)
    (hfits : size * sizeofHhead < sizeModulus) :
    (emptyTable size factor : HTable K D).Sound where
  length := List.length_replicate
  pos := hpos
  fits := hfits

theorem not_hasNode_emptyTable {size factor : ℕ} {n : HNode K D} :
    ¬ (emptyTable size factor : HTable K D).HasNode n := by
  intro hn
  obtain ⟨chain, hchain, hmem⟩ := List.mem_flatten.1 hn
  rw [List.eq_of_mem_replicate hchain] at hmem
  cases hmem

namespace HTable.Sound

variable (h : t.Sound)
include h

theorem withNode (cb : Callbacks K) (n : HNode K D) : (t.withNode cb n).Sound where
  length := by
    rw [HTable.withNode]
    dsimp only
    rw [List.length_modify, h.length]
  pos := h.pos
  fits := h.fits

theorem dropNode (cb : Callbacks K) (key : K) : (t.dropNode cb key).Sound where
  length := by
    rw [HTable.dropNode]
    dsimp only
    rw [List.length_modify, h.length]
  pos := h.pos
  fits := h.fits

theorem doubled (cb : Callbacks K) (hfits : t.GrowthFits) : (t.doubled cb).Sound where
  length := layout_length
  pos := Nat.mul_pos (by decide) h.pos
  fits := hfits

end HTable.Sound

theorem HTable.dropNode_sublist (cb : Callbacks K) (t : HTable K D) (key : K) :
    (t.dropNode cb key).htTable.flatten.Sublist t.htTable.flatten :=
  flatten_modify_sublist (fun _ ↦ List.eraseP_sublist) t.htTable _

theorem HTable.flatten_perm_dropNode {n : HNode K D} (h : t.findNode cb key = .ok (some n)) :
    t.htTable.flatten.Perm (n :: (t.dropNode cb key).htTable.flatten) := by
  obtain ⟨chain, hchain, hfind⟩ := Exec.bind_eq_ok.1 h
  rw [Exec.pure_eq_ok, Except.ok.injEq] at hfind
  exact flatten_modify_eraseP_perm (headAt_eq_ok.1 hchain) hfind

theorem HTable.HasNode.of_dropNode {m : HNode K D} (h : (t.dropNode cb key).HasNode m) :
    t.HasNode m :=
  (t.dropNode_sublist cb key).subset h

theorem HTable.Sound.htableGrow_inv (h : t.Sound) {malloc : Bool} {r : HtRet × HTable K D}
    (hrun : htableGrow cb malloc t = .ok r) :
    r.2 = t.grown cb malloc ∧ (malloc = true → t.GrowthFits) := by
  cases malloc with
  | false =>
      cases hrun
      exact ⟨rfl, fun hmalloc ↦ by cases hmalloc⟩
  | true =>
      have hfits := growthFits_of_htableGrow h.fits hrun
      rw [htableGrow_eq h.length h.pos hfits] at hrun
      cases hrun
      exact ⟨rfl, fun _ ↦ hfits⟩

theorem HTable.Sound.htableGrow_error (h : t.Sound) (cb : Callbacks K) (hnot : ¬ t.GrowthFits) :
    ∃ fault, htableGrow cb true t = .error fault := by
  cases hgrow : htableGrow cb true t with
  | error fault => exact ⟨fault, rfl⟩
  | ok r => exact absurd (growthFits_of_htableGrow h.fits hgrow) hnot

/-- What an insertion does to a sound table. -/
inductive InsertStep (cb : Callbacks K) (t : HTable K D) (key : K) (data : Option D)
    (mallocs : InsertMallocs) : Prop
  /-- It finds the key. -/
  | existing (n : HNode K D) (hfind : t.findNode cb key = .ok (some n))
      (hrun : htableInsert cb mallocs t key data = .ok (.existing, t))
  /-- It gets no memory for the node. -/
  | nomem (hfind : t.findNode cb key = .ok none) (hnode : mallocs.node = false)
      (hrun : htableInsert cb mallocs t key data = .ok (.nomem, t))
  /-- It adds the node, and the table need not grow. -/
  | added (hfind : t.findNode cb key = .ok none) (hnode : mallocs.node = true)
      (hlimit : ¬ t.htLimit < wrapSize (t.htUsed + 1))
      (hrun : htableInsert cb mallocs t key data = .ok (.ok, t.withNode cb ⟨key, data⟩))
  /-- It adds the node, and the table grows. -/
  | resized (hfind : t.findNode cb key = .ok none) (hnode : mallocs.node = true)
      (hlimit : t.htLimit < wrapSize (t.htUsed + 1)) (hheads : mallocs.heads = true)
      (hfits : t.GrowthFits)
      (hrun : htableInsert cb mallocs t key data = .ok (.ok,
        { (t.withNode cb ⟨key, data⟩).doubled cb with htGrows := wrapSize (t.htGrows + 1) }))
  /-- It adds the node, and gets no memory for the heads. -/
  | unresized (hfind : t.findNode cb key = .ok none) (hnode : mallocs.node = true)
      (hlimit : t.htLimit < wrapSize (t.htUsed + 1)) (hheads : mallocs.heads = false)
      (hrun : htableInsert cb mallocs t key data = .ok (.ok,
        { t.withNode cb ⟨key, data⟩ with htGrows := wrapSize (t.htGrows + 1) }))
  /-- It writes outside the memory that it requested for the heads. -/
  | overflows (fault : Fault) (hfind : t.findNode cb key = .ok none) (hnode : mallocs.node = true)
      (hlimit : t.htLimit < wrapSize (t.htUsed + 1)) (hheads : mallocs.heads = true)
      (hfits : ¬ t.GrowthFits) (hrun : htableInsert cb mallocs t key data = .error fault)

theorem HTable.Sound.insert_new_step (h : t.Sound) (data : Option D) {mallocs : InsertMallocs}
    (hfind : t.findNode cb key = .ok none) (hnode : mallocs.node = true) :
    InsertStep cb t key data mallocs := by
  have hrun := h.toIndexed.htableInsert_append data hfind hnode
  have hwith := h.withNode cb ⟨key, data⟩
  by_cases hlimit : t.htLimit < wrapSize (t.htUsed + 1)
  · rw [if_pos hlimit] at hrun
    cases hheads : mallocs.heads with
    | false =>
        rw [hheads] at hrun
        exact .unresized hfind hnode hlimit hheads hrun
    | true =>
        rw [hheads] at hrun
        by_cases hfits : t.GrowthFits
        · rw [htableGrow_eq hwith.length hwith.pos hfits] at hrun
          exact .resized hfind hnode hlimit hheads hfits hrun
        · obtain ⟨fault, hgrow⟩ := hwith.htableGrow_error cb hfits
          rw [hgrow] at hrun
          exact .overflows fault hfind hnode hlimit hheads hfits hrun
  · rw [if_neg hlimit] at hrun
    exact .added hfind hnode hlimit hrun

/-- What an insertion does, whatever the allocations answer. -/
theorem HTable.Sound.insert_step (h : t.Sound) (cb : Callbacks K) (key : K) (data : Option D)
    (mallocs : InsertMallocs) : InsertStep cb t key data mallocs := by
  obtain ⟨found, hfind⟩ := h.toIndexed.exists_findNode cb key
  cases found with
  | some n =>
      refine .existing n hfind ?_
      rw [htableInsert, hfind]
      rfl
  | none =>
      cases hnode : mallocs.node with
      | true => exact h.insert_new_step data hfind hnode
      | false =>
          refine .nomem hfind hnode ?_
          rw [htableInsert, hfind, Exec.ok_bind, hnode]
          rfl

/-- An insertion that is defined: the key was there, or there was no memory, or the new node is in
the table, which may have grown. -/
theorem HTable.Sound.htableInsert_inv (h : t.Sound) {mallocs : InsertMallocs} {data : Option D}
    {r : HtRet} (hrun : htableInsert cb mallocs t key data = .ok (r, t')) :
    r = .existing ∧ t' = t ∧ (∃ n, t.findNode cb key = .ok (some n)) ∨
      t.findNode cb key = .ok none ∧ (r = .nomem ∧ t' = t ∨
        r = .ok ∧ t' = t.inserted cb mallocs.heads ⟨key, data⟩ ∧ t.InsertFits mallocs.heads) := by
  cases h.insert_step cb key data mallocs with
  | existing n hfind hrun' =>
      rw [hrun'] at hrun
      cases hrun
      exact .inl ⟨rfl, rfl, n, hfind⟩
  | nomem hfind _ hrun' =>
      rw [hrun'] at hrun
      cases hrun
      exact .inr ⟨hfind, .inl ⟨rfl, rfl⟩⟩
  | added hfind _ hlimit hrun' =>
      rw [hrun'] at hrun
      cases hrun
      refine .inr ⟨hfind, .inr ⟨rfl, ?_, fun hlt ↦ absurd hlt hlimit⟩⟩
      rw [HTable.inserted, if_neg hlimit]
  | resized hfind _ hlimit hheads hfits hrun' =>
      rw [hrun'] at hrun
      cases hrun
      refine .inr ⟨hfind, .inr ⟨rfl, ?_, fun _ _ ↦ hfits⟩⟩
      rw [HTable.inserted, if_pos hlimit, hheads]
      rfl
  | unresized hfind _ hlimit hheads hrun' =>
      rw [hrun'] at hrun
      cases hrun
      refine .inr ⟨hfind, .inr ⟨rfl, ?_, fun _ htrue ↦ ?_⟩⟩
      · rw [HTable.inserted, if_pos hlimit, hheads]
        rfl
      · rw [hheads] at htrue
        contradiction
  | overflows fault _ _ _ _ _ hrun' =>
      rw [hrun'] at hrun
      cases hrun

theorem HTable.Sound.withNode_perm (h : t.Sound) (cb : Callbacks K) (n : HNode K D) :
    (t.withNode cb n).htTable.flatten.Perm (t.htTable.flatten ++ [n]) :=
  flatten_modify_append_perm (h.length ▸ bucketIndex_lt h.pos _) n

theorem HTable.Sound.doubled_perm (h : t.Sound) (cb : Callbacks K) :
    (t.doubled cb).htTable.flatten.Perm t.htTable.flatten :=
  flatten_layout_perm fun _ _ ↦ bucketIndex_lt (Nat.mul_pos (by decide) h.pos) _

/-- The table with a new node is sound, and has just one node more. -/
theorem HTable.Sound.inserted (h : t.Sound) (cb : Callbacks K) (n : HNode K D) {malloc : Bool}
    (hfits : t.InsertFits malloc) : (t.inserted cb malloc n).Sound ∧
      (t.inserted cb malloc n).htTable.flatten.Perm (t.htTable.flatten ++ [n]) := by
  have hwith := h.withNode cb n
  have hperm := h.withNode_perm cb n
  unfold HTable.inserted
  by_cases hlimit : t.htLimit < wrapSize (t.htUsed + 1)
  · rw [if_pos hlimit]
    cases malloc with
    | false => exact ⟨⟨⟨hwith.length, hwith.pos⟩, hwith.fits⟩, hperm⟩
    | true =>
        have hgrown := hwith.doubled cb (hfits hlimit rfl)
        exact ⟨⟨⟨hgrown.length, hgrown.pos⟩, hgrown.fits⟩, (hwith.doubled_perm cb).trans hperm⟩
  · rw [if_neg hlimit]
    exact ⟨hwith, hperm⟩

/-- An insertion puts in nothing but the new node. -/
theorem HTable.Sound.htableInsert (h : t.Sound) {mallocs : InsertMallocs} {data : Option D}
    {r : HtRet} (hrun : htableInsert cb mallocs t key data = .ok (r, t')) :
    t'.Sound ∧ ∀ m, t'.HasNode m → t.HasNode m ∨ m = ⟨key, data⟩ := by
  rcases h.htableInsert_inv hrun with ⟨_, rfl, _⟩ | ⟨_, ⟨_, rfl⟩ | ⟨_, rfl, hfits⟩⟩
  · exact ⟨h, fun _ ↦ .inl⟩
  · exact ⟨h, fun _ ↦ .inl⟩
  · obtain ⟨hsound, hperm⟩ := h.inserted cb ⟨key, data⟩ hfits
    exact ⟨hsound, fun m hm ↦
      (List.mem_append.1 (hperm.mem_iff.1 hm)).imp_right List.mem_singleton.1⟩

/-- The table is sound, or it has no heads at all. -/
def HTable.Tidy (t : HTable K D) : Prop := t.Sound ∨ t.htTable = []

theorem emptyTable_tidy {size factor : ℕ} (hfits : size * sizeofHhead < sizeModulus) :
    (emptyTable size factor : HTable K D).Tidy := by
  rcases Nat.eq_zero_or_pos size with hzero | hpos
  · exact .inr (by rw [hzero]; rfl)
  · exact .inl (emptyTable_sound hpos hfits)

/-- An insertion that is defined loses no node. -/
theorem HTable.Tidy.htableInsert (h : t.Tidy) {mallocs : InsertMallocs} {data : Option D}
    {r : HtRet} (hrun : htableInsert cb mallocs t key data = .ok (r, t')) :
    t'.Tidy ∧ (∀ m, t.HasNode m → t'.HasNode m) ∧
      ∀ m, t'.HasNode m → t.HasNode m ∨ m = ⟨key, data⟩ := by
  rcases h with h | hempty
  · obtain ⟨hsound, hback⟩ := h.htableInsert hrun
    refine ⟨.inl hsound, ?_, hback⟩
    rcases h.htableInsert_inv hrun with ⟨_, rfl, _⟩ | ⟨_, ⟨_, rfl⟩ | ⟨_, rfl, hfits⟩⟩
    · exact fun _ ↦ id
    · exact fun _ ↦ id
    · exact fun m hm ↦ (h.inserted cb ⟨key, data⟩ hfits).2.mem_iff.2 (List.mem_append_left _ hm)
  · rw [HTable.htableInsert_of_no_heads hempty] at hrun
    cases hrun

/-- A removal takes off none but a node with the key. -/
theorem HTable.HasNode.dropNode {m : HNode K D} (h : t.HasNode m)
    (hother : cb.sameKey key m = false) : (t.dropNode cb key).HasNode m := by
  obtain ⟨l, hl, hm⟩ := List.mem_flatten.1 h
  obtain ⟨i, hi⟩ := List.mem_iff_getElem?.1 hl
  have hkept : m ∈ l.eraseP (cb.sameKey key) :=
    (List.mem_eraseP_of_neg (by rw [hother]; exact Bool.false_ne_true)).2 hm
  have hget : (t.dropNode cb key).htTable[i]? =
      some (if t.indexOf cb key = i then l.eraseP (cb.sameKey key) else l) := by
    change (t.htTable.modify _ _)[i]? = _
    rw [List.getElem?_modify, hi]
    rfl
  apply List.mem_flatten.2
  refine ⟨_, List.mem_of_getElem? hget, ?_⟩
  split
  · exact hkept
  · exact hm

/-- A removal that is defined drops the node with the key, if there is one. -/
theorem htableFreeObj_inv {htfree : ℕ} {r : HtRet} {freed : Freed K D}
    (hrun : htableFreeObj cb t key htfree = .ok (r, t', freed)) :
    t' = t ∨ t' = t.dropNode cb key := by
  obtain ⟨found, _, hrun⟩ := Exec.bind_eq_ok.1 hrun
  cases found with
  | none =>
      cases hrun
      exact .inl rfl
  | some n =>
      cases hrun
      exact .inr rfl

/-- A removal that is defined. -/
theorem HTable.Sound.htableFreeObj (h : t.Sound) {htfree : ℕ} {r : HtRet} {freed : Freed K D}
    (hrun : htableFreeObj cb t key htfree = .ok (r, t', freed)) :
    t'.Sound ∧ ∀ m, t'.HasNode m → t.HasNode m := by
  rcases htableFreeObj_inv hrun with rfl | rfl
  · exact ⟨h, fun _ ↦ id⟩
  · exact ⟨h.dropNode cb key, fun _ ↦ HTable.HasNode.of_dropNode⟩

/-- A removal that is defined loses none but a node with the key. -/
theorem HTable.Tidy.htableFreeObj (h : t.Tidy) {htfree : ℕ} {r : HtRet} {freed : Freed K D}
    (hrun : htableFreeObj cb t key htfree = .ok (r, t', freed)) :
    t'.Tidy ∧ ∀ m, t.HasNode m → cb.sameKey key m = false → t'.HasNode m := by
  rcases h with h | hempty
  · rcases htableFreeObj_inv hrun with rfl | rfl
    · exact ⟨.inl h, fun _ hm _ ↦ hm⟩
    · exact ⟨.inl (h.dropNode cb key), fun _ ↦ HTable.HasNode.dropNode⟩
  · rw [HTable.htableFreeObj_of_no_heads hempty] at hrun
    cases hrun

/-! ## Counting -/

/-- A sound table that counts its nodes. -/
structure HTable.Counted (t : HTable K D) : Prop extends t.Sound where
  used : htableGetUsed t = wrapSize t.htTable.flatten.length

namespace HTable.Counted

variable (h : t.Counted)
include h

theorem grown (hfits : t.GrowthFits) : (t.doubled cb).Counted where
  toSound := h.toSound.doubled cb hfits
  used := by
    rw [(h.toSound.doubled_perm cb).length_eq, ← h.used]
    rfl

theorem dropNode {n : HNode K D} (hfind : t.findNode cb key = .ok (some n)) :
    (t.dropNode cb key).Counted where
  toSound := h.toSound.dropNode cb key
  used := by
    have hlength := (HTable.flatten_perm_dropNode hfind).length_eq
    have hused := h.used
    rw [List.length_cons] at hlength
    rw [hlength] at hused
    change subSize t.htUsed 1 = _
    unfold htableGetUsed wrapSize sizeModulus at hused
    unfold subSize wrapSize sizeModulus
    split
    · omega
    · omega

theorem inserted (n : HNode K D) {malloc : Bool} (hfits : t.InsertFits malloc) :
    (t.inserted cb malloc n).Counted where
  toSound := (h.toSound.inserted cb n hfits).1
  used := by
    have hused : htableGetUsed (t.inserted cb malloc n) = wrapSize (htableGetUsed t + 1) := by
      unfold HTable.inserted HTable.grown
      split
      · cases malloc <;> rfl
      · rfl
    rw [hused, h.used, (h.toSound.inserted cb n hfits).2.length_eq, List.length_append]
    exact Nat.mod_add_mod _ _ _

/-- Every call keeps the count, whatever the callbacks compute. -/
theorem step {op : Op K D} {answer : Answer D} (hstep : step cb t op = .ok (answer, t')) :
    t'.Counted := by
  cases op with
  | insert key data mallocs =>
      obtain ⟨⟨r, t₁⟩, hrun, heq⟩ := Exec.bind_eq_ok.1 hstep
      cases heq
      rcases h.toSound.htableInsert_inv hrun with ⟨_, rfl, _⟩ | ⟨_, ⟨_, rfl⟩ | ⟨_, rfl, hfits⟩⟩
      · exact h
      · exact h
      · exact h.inserted _ hfits
  | remove key =>
      obtain ⟨⟨r, t₁⟩, hrun, heq⟩ := Exec.bind_eq_ok.1 hstep
      cases heq
      obtain ⟨found, hfound, hrun⟩ := Exec.bind_eq_ok.1 hrun
      cases found with
      | none =>
          cases hrun
          exact h
      | some n =>
          cases hrun
          exact h.dropNode hfound
  | freeObj key htfree =>
      obtain ⟨⟨r, t₁, freed⟩, hrun, heq⟩ := Exec.bind_eq_ok.1 hstep
      cases heq
      obtain ⟨found, hfound, hrun⟩ := Exec.bind_eq_ok.1 hrun
      cases found with
      | none =>
          cases hrun
          exact h
      | some n =>
          cases hrun
          exact h.dropNode hfound
  | grow malloc =>
      obtain ⟨⟨r, t₁⟩, hrun, heq⟩ := Exec.bind_eq_ok.1 hstep
      cases heq
      obtain ⟨hgrown, hfits⟩ := h.toSound.htableGrow_inv hrun
      dsimp only at hgrown
      rw [hgrown]
      cases malloc with
      | false => exact h
      | true => exact h.grown (hfits rfl)
  | search key =>
      obtain ⟨d, _, heq⟩ := Exec.bind_eq_ok.1 hstep
      cases heq
      exact h

theorem run {ops : List (Op K D)} {answers : List (Answer D)}
    (hrun : run cb t ops = .ok (answers, t')) : t'.Counted := by
  induction ops generalizing t answers with
  | nil =>
      cases hrun
      exact h
  | cons op ops ih =>
      obtain ⟨⟨answer, t₁⟩, hstep, hrest⟩ := Exec.bind_eq_ok.1 hrun
      obtain ⟨⟨answers', t₂⟩, hrest, heq⟩ := Exec.bind_eq_ok.1 hrest
      cases heq
      exact ih (h.step hstep) hrest

end HTable.Counted

theorem Reachable.counted (h : Reachable cb t) : t.Counted := by
  obtain ⟨k, factor, t₀, ops, answers, hinit, hrun⟩ := h
  obtain ⟨hfits, rfl⟩ := htableInit_some hinit
  apply HTable.Counted.run _ hrun
  refine ⟨emptyTable_sound (Nat.two_pow_pos k) hfits, ?_⟩
  simp [emptyTable, htableGetUsed, wrapSize]

end Experimentation.HashTable
