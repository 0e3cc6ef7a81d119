import Experimentation.HashTable.Table
import Experimentation.Semantics.Buckets

/-!
# The entries of a hash table

A table holds a sequence of entries, kept in the order in which they were inserted: its chains are
the distribution of the sequence over the buckets that the masked hashes select.  Each operation
acts on the sequence, and growing a table does not change it.  Nothing is assumed about the factor
of the table or about which allocations succeed.
-/

namespace Experimentation.HashTable

open Semantics Buckets

variable {K D σ : Type}

/-- Callbacks whose comparison is an equivalence that the hash respects. -/
structure LawfulCallbacks (K : Type) extends Callbacks K where
  refl : ∀ a, cmpf a a = 0
  symm : ∀ a b, cmpf a b = 0 → cmpf b a = 0
  trans : ∀ a b c, cmpf a b = 0 → cmpf b c = 0 → cmpf a c = 0
  hash_eq : ∀ a b, cmpf a b = 0 → hashf a = hashf b

instance : Coe (LawfulCallbacks K) (Callbacks K) := ⟨LawfulCallbacks.toCallbacks⟩

/-- The bucket of an entry in a table of `size` heads. -/
def bucketOf (cb : Callbacks K) (size : ℕ) (n : HNode K D) : ℕ :=
  bucketIndex size (cb.hashf n.hnKey)

/-- The table holds the entries of the sequence, in the order in which they were inserted. -/
structure Holds (cb : Callbacks K) (t : HTable K D) (es : List (HNode K D)) : Prop where
  pow : ∃ k, t.htSize = 2 ^ k
  fits : t.htSize * sizeofHhead < sizeModulus
  bytes : t.bytes = t.htSize * sizeofHhead
  limit : t.htLimit = wrapSize (t.htFactor * t.htSize)
  table : t.htTable = layout (bucketOf cb t.htSize) t.htSize es
  used : t.htUsed = wrapSize es.length
  distinct : es.Pairwise fun a b ↦ cb.cmpf a.hnKey b.hnKey ≠ 0

section Index

variable {size : ℕ}

theorem bucketIndex_eq (hpos : 0 < size) (hash : ℕ) :
    bucketIndex size hash = hash &&& (size - 1) := by
  rw [bucketIndex, subSize_of_le hpos]

theorem bucketIndex_lt (hpos : 0 < size) (hash : ℕ) : bucketIndex size hash < size := by
  rw [bucketIndex_eq hpos]
  have hle : hash &&& (size - 1) ≤ size - 1 := Nat.and_le_right
  omega

theorem bucketIndex_eq_mod (k hash : ℕ) : bucketIndex (2 ^ k) hash = hash % 2 ^ k := by
  rw [bucketIndex_eq (Nat.two_pow_pos k), Nat.and_two_pow_sub_one_eq_mod]

theorem bucketIndex_of_double {k a b : ℕ}
    (h : bucketIndex (2 * 2 ^ k) a = bucketIndex (2 * 2 ^ k) b) :
    bucketIndex (2 ^ k) a = bucketIndex (2 ^ k) b := by
  have hdouble : 2 * 2 ^ k = 2 ^ (k + 1) := by rw [Nat.pow_succ, Nat.mul_comm]
  have hdvd : 2 ^ k ∣ 2 ^ (k + 1) := Nat.pow_dvd_pow 2 (Nat.le_succ k)
  rw [hdouble, bucketIndex_eq_mod, bucketIndex_eq_mod] at h
  rw [bucketIndex_eq_mod, bucketIndex_eq_mod, ← Nat.mod_mod_of_dvd a hdvd, h, Nat.mod_mod_of_dvd b hdvd]

end Index

theorem headAt_eq {table : List (List (HNode K D))} {pos : ℕ} {chain : List (HNode K D)}
    (h : table[pos]? = some chain) : headAt table pos = .ok chain := by
  rw [headAt, h]

theorem headAt_eq_ok {table : List (List (HNode K D))} {pos : ℕ} {chain : List (HNode K D)} :
    headAt table pos = .ok chain ↔ table[pos]? = some chain := by
  cases hget : table[pos]? with
  | none => simp [headAt, hget]
  | some chain' => simp [headAt, hget]

theorem HTable.forEachNode_eq_drop (t : HTable K D) (body : σ → HNode K D → Exec σ) :
    ∀ turns i s, turns + i = t.htTable.length →
      t.forEachNode body turns i s = (t.htTable.drop i).flatten.foldlM body s
  | 0, i, s, h => by
      rw [List.drop_of_length_le (by omega)]
      rfl
  | turns + 1, i, s, h => by
      have hlt : i < t.htTable.length := by omega
      rw [List.drop_eq_getElem_cons hlt, List.flatten_cons, List.foldlM_append,
        HTable.forEachNode, headAt_eq (List.getElem?_eq_getElem hlt), Exec.ok_bind]
      exact bind_congr fun s' ↦ t.forEachNode_eq_drop body turns (i + 1) s' (by omega)

/-- The loops over all nodes visit the chains one after the other. -/
theorem HTable.forEachNode_eq {t : HTable K D} (h : t.htTable.length = t.htSize)
    (body : σ → HNode K D → Exec σ) (s : σ) :
    t.forEachNode body t.htSize 0 s = t.htTable.flatten.foldlM body s := by
  rw [t.forEachNode_eq_drop body t.htSize 0 s (by omega), List.drop_zero]

/-! ## What the operations do to the table -/

/-- The table with a node put at the end of its chain and counted. -/
def HTable.withNode (cb : Callbacks K) (t : HTable K D) (n : HNode K D) : HTable K D :=
  { t with htTable := t.htTable.modify (bucketOf cb t.htSize n) (· ++ [n]),
           htUsed := wrapSize (t.htUsed + 1) }

/-- The table with twice as many heads. -/
def HTable.doubled (cb : Callbacks K) (t : HTable K D) : HTable K D :=
  { t with htTable := layout (bucketOf cb (2 * t.htSize)) (2 * t.htSize) t.htTable.flatten,
           bytes := 2 * t.htSize * sizeofHhead
           htSize := 2 * t.htSize
           htLimit := wrapSize (t.htFactor * (2 * t.htSize)) }

/-- The table after a growth that `malloc` allows or not. -/
def HTable.grown (cb : Callbacks K) (t : HTable K D) (malloc : Bool) : HTable K D :=
  if malloc then t.doubled cb else t

/-- The table after a new node: it grows when the count exceeds the limit. -/
def HTable.inserted (cb : Callbacks K) (t : HTable K D) (malloc : Bool) (n : HNode K D) :
    HTable K D :=
  if t.htLimit < wrapSize (t.htUsed + 1) then
    { (t.withNode cb n).grown cb malloc with htGrows := wrapSize (t.htGrows + 1) }
  else
    t.withNode cb n

/-- There is a head for every index below the size, and at least one. -/
structure HTable.Indexed (t : HTable K D) : Prop where
  length : t.htTable.length = t.htSize
  pos : 0 < t.htSize

instance (t : HTable K D) : Decidable t.Indexed :=
  decidable_of_iff (t.htTable.length = t.htSize ∧ 0 < t.htSize)
    ⟨fun h ↦ ⟨h.1, h.2⟩, fun h ↦ ⟨h.length, h.pos⟩⟩

/-- The heads of the doubled table fit in the memory that is requested for them. -/
def HTable.GrowthFits (t : HTable K D) : Prop := 2 * t.htSize * sizeofHhead < sizeModulus

instance (t : HTable K D) : Decidable t.GrowthFits :=
  inferInstanceAs (Decidable (2 * t.htSize * sizeofHhead < sizeModulus))

namespace Holds

variable {cb : Callbacks K} {t : HTable K D} {es : List (HNode K D)}

theorem size_pos (h : Holds cb t es) : 0 < t.htSize := by
  obtain ⟨k, hk⟩ := h.pow
  rw [hk]
  exact Nat.two_pow_pos k

theorem length (h : Holds cb t es) : t.htTable.length = t.htSize := by
  rw [h.table, layout_length]

theorem indexed (h : Holds cb t es) : t.Indexed := ⟨h.length, h.size_pos⟩

theorem bucketOf_lt (h : Holds cb t es) (n : HNode K D) : bucketOf cb t.htSize n < t.htSize :=
  bucketIndex_lt h.size_pos _

/-- The entries of the table are those of the sequence. -/
theorem flatten_perm (h : Holds cb t es) : t.htTable.flatten.Perm es := by
  rw [h.table]
  exact flatten_layout_perm fun e _ ↦ h.bucketOf_lt e

/-- A table holds the same entries for callbacks that agree on them. -/
theorem congr {cb' : Callbacks K} (h : Holds cb t es)
    (hhash : ∀ e ∈ es, cb'.hashf e.hnKey = cb.hashf e.hnKey)
    (hcmp : ∀ e ∈ es, ∀ f ∈ es, cb'.cmpf e.hnKey f.hnKey = cb.cmpf e.hnKey f.hnKey) :
    Holds cb' t es where
  pow := h.pow
  fits := h.fits
  bytes := h.bytes
  limit := h.limit
  table := by
    rw [h.table]
    apply layout_congr
    intro b _
    apply List.filter_congr
    intro e he
    rw [bucketOf, bucketOf, hhash e he]
  used := h.used
  distinct := h.distinct.imp_of_mem fun {a b} ha hb hne ↦ by rwa [hcmp a ha b hb]

end Holds

section Grow

variable {cb : Callbacks K} {t : HTable K D} {es : List (HNode K D)}

theorem foldlM_rehashNode {newsize : ℕ} (hpos : 0 < newsize)
    (ns ms : List (HNode K D)) :
    ns.foldlM (rehashNode cb newsize) (layout (bucketOf cb newsize) newsize ms) =
      .ok (layout (bucketOf cb newsize) newsize (ms ++ ns)) := by
  induction ns generalizing ms with
  | nil =>
      rw [List.append_nil]
      rfl
  | cons n ns ih =>
      have hlt : bucketOf cb newsize n < newsize := bucketIndex_lt hpos _
      have hinsert : rehashNode cb newsize (layout (bucketOf cb newsize) newsize ms) n =
          .ok (layout (bucketOf cb newsize) newsize (ms ++ [n])) := by
        rw [← modify_append]
        exact if_pos (by rw [layout_length]; exact hlt)
      rw [List.foldlM_cons, hinsert, Exec.ok_bind, ih, List.append_assoc]
      rfl

theorem htableGrow_eq (hlength : t.htTable.length = t.htSize) (hpos : 0 < t.htSize)
    (hfits : t.GrowthFits) : htableGrow cb true t = .ok (.ok, t.doubled cb) := by
  have hlt : 2 * t.htSize < sizeModulus := by
    unfold HTable.GrowthFits sizeofHhead at hfits
    omega
  have hnew : wrapSize (t.htSize <<< 1) = 2 * t.htSize := by
    rw [Nat.shiftLeft_eq, Nat.pow_one, Nat.mul_comm, wrapSize_of_lt hlt]
  have hheads : (initHeads (wrapSize (2 * t.htSize * sizeofHhead)) (2 * t.htSize) :
      Exec (List (List (HNode K D)))) =
        .ok (layout (bucketOf cb (2 * t.htSize)) (2 * t.htSize) []) := by
    rw [wrapSize_of_lt hfits, layout_nil]
    exact if_pos le_rfl
  unfold htableGrow
  rw [hnew]
  change (initHeads (wrapSize (2 * t.htSize * sizeofHhead)) (2 * t.htSize) >>= fun heads ↦
    t.forEachNode (rehashNode cb (2 * t.htSize)) t.htSize 0 heads >>= fun heads ↦ _) = _
  rw [hheads, Exec.ok_bind, t.forEachNode_eq hlength,
    foldlM_rehashNode (by omega), Exec.ok_bind, wrapSize_of_lt hfits, List.nil_append]
  rfl

theorem growthFits_of_htableGrow (hsize : t.htSize * sizeofHhead < sizeModulus)
    {r : HtRet × HTable K D} (h : htableGrow cb true t = .ok r) : t.GrowthFits := by
  have hlt : 2 * t.htSize < sizeModulus := by
    unfold sizeofHhead at hsize
    omega
  have hnew : wrapSize (t.htSize <<< 1) = 2 * t.htSize := by
    rw [Nat.shiftLeft_eq, Nat.pow_one, Nat.mul_comm, wrapSize_of_lt hlt]
  unfold htableGrow at h
  rw [hnew] at h
  change (initHeads (wrapSize (2 * t.htSize * sizeofHhead)) (2 * t.htSize) >>= fun heads ↦
    t.forEachNode (rehashNode cb (2 * t.htSize)) t.htSize 0 heads >>= fun heads ↦ _) = _ at h
  by_contra hfits
  have hsmall : wrapSize (2 * t.htSize * sizeofHhead) < 2 * t.htSize * sizeofHhead :=
    (Nat.mod_lt _ (by decide)).trans_le (Nat.le_of_not_lt hfits)
  rw [initHeads, if_neg (Nat.not_le_of_lt hsmall), Exec.error_bind] at h
  cases h

/-- The doubled table holds the same entries. -/
theorem Holds.doubled (h : Holds cb t es) (hfits : t.GrowthFits) : Holds cb (t.doubled cb) es := by
  obtain ⟨k, hk⟩ := h.pow
  refine ⟨⟨k + 1, ?_⟩, hfits, rfl, rfl, ?_, h.used, h.distinct⟩
  · change 2 * t.htSize = 2 ^ (k + 1)
    rw [hk, Nat.pow_succ, Nat.mul_comm]
  · change layout _ _ t.htTable.flatten = layout _ _ es
    apply layout_congr
    intro b _
    rw [h.table]
    apply chain_flatten_layout
    · intro e _
      exact h.bucketOf_lt e
    · intro e _ f _ hef
      unfold bucketOf at hef ⊢
      change bucketIndex (2 * t.htSize) _ = bucketIndex (2 * t.htSize) _ at hef
      rw [hk] at hef ⊢
      exact bucketIndex_of_double hef

/-- A growth that `malloc` allows or not keeps the entries. -/
theorem Holds.grown (h : Holds cb t es) {malloc : Bool} (hfits : malloc = true → t.GrowthFits) :
    Holds cb (t.grown cb malloc) es := by
  cases malloc with
  | false => exact h
  | true => exact h.doubled (hfits rfl)

theorem Holds.htableGrow_eq (h : Holds cb t es) {malloc : Bool}
    (hfits : malloc = true → t.GrowthFits) :
    htableGrow cb malloc t = .ok (if malloc then .ok else .nomem, t.grown cb malloc) := by
  cases malloc with
  | false => rfl
  | true => exact HashTable.htableGrow_eq h.length h.size_pos (hfits rfl)

end Grow

section Insert

variable {cb : Callbacks K} {t : HTable K D} {es : List (HNode K D)}

theorem Holds.withNode (h : Holds cb t es) {n : HNode K D}
    (hnew : ∀ e ∈ es, cb.cmpf e.hnKey n.hnKey ≠ 0) : Holds cb (t.withNode cb n) (es ++ [n]) := by
  refine ⟨h.pow, h.fits, h.bytes, h.limit, ?_, ?_, ?_⟩
  · change t.htTable.modify _ _ = layout (bucketOf cb t.htSize) t.htSize (es ++ [n])
    rw [h.table, modify_append]
  · change wrapSize (t.htUsed + 1) = wrapSize (es ++ [n]).length
    rw [h.used, List.length_append, List.length_singleton]
    exact Nat.mod_add_mod _ _ _
  · rw [List.pairwise_append]
    refine ⟨h.distinct, List.pairwise_singleton _ _, fun e he f hf ↦ ?_⟩
    rw [List.mem_singleton.1 hf]
    exact hnew e he

/-- What the growth after an insertion needs. -/
def HTable.InsertFits (t : HTable K D) (malloc : Bool) : Prop :=
  t.htLimit < wrapSize (t.htUsed + 1) → malloc = true → t.GrowthFits

theorem Holds.inserted (h : Holds cb t es) {n : HNode K D}
    (hnew : ∀ e ∈ es, cb.cmpf e.hnKey n.hnKey ≠ 0) {malloc : Bool} (hfits : t.InsertFits malloc) :
    Holds cb (t.inserted cb malloc n) (es ++ [n]) := by
  unfold HTable.inserted
  by_cases hlimit : t.htLimit < wrapSize (t.htUsed + 1)
  · have hgrown := (h.withNode hnew).grown (hfits hlimit)
    rw [if_pos hlimit]
    exact ⟨hgrown.pow, hgrown.fits, hgrown.bytes, hgrown.limit, hgrown.table, hgrown.used,
      hgrown.distinct⟩
  · rw [if_neg hlimit]
    exact h.withNode hnew

/-- A new node is put at the end of its chain, and then the table may have to grow. -/
theorem HTable.Indexed.htableInsert_append (h : t.Indexed) {key : K} {mallocs : InsertMallocs}
    (data : Option D) (hfind : t.findNode cb key = .ok none) (hnode : mallocs.node = true) :
    htableInsert cb mallocs t key data =
      if t.htLimit < wrapSize (t.htUsed + 1) then
        htableGrow cb mallocs.heads (t.withNode cb ⟨key, data⟩) >>= fun r ↦
          .ok (.ok, { r.2 with htGrows := wrapSize (r.2.htGrows + 1) })
      else .ok (.ok, t.withNode cb ⟨key, data⟩) := by
  have hinsert : insertTail t.htTable (t.indexOf cb key) (⟨key, data⟩ : HNode K D) =
      .ok (t.withNode cb ⟨key, data⟩).htTable :=
    if_pos (by
      rw [h.length]
      exact bucketIndex_lt h.pos _)
  rw [htableInsert, hfind, Exec.ok_bind, hnode]
  change (insertTail t.htTable (t.indexOf cb key) (⟨key, data⟩ : HNode K D) >>= _) = _
  rw [hinsert, Exec.ok_bind]
  rfl

end Insert

/-! ## The operations of a table with lawful callbacks -/

section Operations

variable {cb : LawfulCallbacks K} {t : HTable K D} {es : List (HNode K D)}

theorem sameKey_iff {key : K} {n : HNode K D} :
    cb.sameKey key n = true ↔ cb.cmpf n.hnKey key = 0 := by
  rw [Callbacks.sameKey, decide_eq_true_iff]

theorem bucketOf_of_sameKey {key : K} {n : HNode K D} (h : cb.sameKey key n = true) :
    bucketOf cb t.htSize n = t.indexOf cb key := by
  rw [bucketOf, HTable.indexOf, cb.hash_eq _ _ (sameKey_iff.1 h)]

theorem new_of_find? {key : K} (hfind : es.find? (cb.sameKey key) = none) :
    ∀ e ∈ es, cb.cmpf e.hnKey key ≠ 0 := fun e he heq ↦
  List.find?_eq_none.1 hfind e he (sameKey_iff.2 heq)

theorem not_sameKey_of_mem_eraseP {key : K}
    (hdistinct : es.Pairwise fun a b ↦ cb.cmpf a.hnKey b.hnKey ≠ 0) {e : HNode K D}
    (he : e ∈ es.eraseP (cb.sameKey key)) : cb.cmpf e.hnKey key ≠ 0 := by
  induction es with
  | nil => exact absurd he List.not_mem_nil
  | cons n es ih =>
      obtain ⟨hn, hrest⟩ := List.pairwise_cons.1 hdistinct
      cases hsame : cb.sameKey key n with
      | true =>
          rw [List.eraseP_cons_of_pos hsame] at he
          exact fun heq ↦ hn e he (cb.trans _ _ _ (sameKey_iff.1 hsame) (cb.symm _ _ heq))
      | false =>
          rw [List.eraseP_cons_of_neg (by simp [hsame])] at he
          rcases List.mem_cons.1 he with rfl | he
          · exact fun heq ↦ Bool.false_ne_true (hsame.symm.trans (sameKey_iff.2 heq))
          · exact ih hrest he

theorem find?_append_new {key : K} (data : Option D) (hfind : es.find? (cb.sameKey key) = none)
    (key' : K) : (es ++ [(⟨key, data⟩ : HNode K D)]).find? (cb.sameKey key') =
      if cb.cmpf key key' = 0 then some ⟨key, data⟩ else es.find? (cb.sameKey key') := by
  rw [List.find?_append]
  by_cases hsame : cb.cmpf key key' = 0
  · have hnone : es.find? (cb.sameKey key') = none := by
      apply List.find?_eq_none.2
      intro e he hfound
      exact new_of_find? hfind e he
        (cb.trans _ _ _ (sameKey_iff.1 hfound) (cb.symm _ _ hsame))
    rw [if_pos hsame, hnone, Option.none_or, List.find?_cons_of_pos (sameKey_iff.2 hsame)]
  · rw [if_neg hsame, List.find?_cons_of_neg (fun hs ↦ hsame (sameKey_iff.1 hs)), List.find?_nil,
      Option.or_none]

theorem find?_eraseP {key : K} (hdistinct : es.Pairwise fun a b ↦ cb.cmpf a.hnKey b.hnKey ≠ 0)
    (key' : K) : (es.eraseP (cb.sameKey key)).find? (cb.sameKey key') =
      if cb.cmpf key key' = 0 then none else es.find? (cb.sameKey key') := by
  by_cases hsame : cb.cmpf key key' = 0
  · rw [if_pos hsame]
    apply List.find?_eq_none.2
    intro e he hfound
    exact not_sameKey_of_mem_eraseP hdistinct he
      (cb.trans _ _ _ (sameKey_iff.1 hfound) (cb.symm _ _ hsame))
  · rw [if_neg hsame, find?_eraseP_of_not]
    intro e hfound hgone
    exact hsame (cb.trans _ _ _ (cb.symm _ _ (sameKey_iff.1 hgone)) (sameKey_iff.1 hfound))

/-- The walk along a chain answers for a table that lays out a sequence. -/
theorem findNode_of_layout (hpos : 0 < t.htSize)
    (htable : t.htTable = layout (bucketOf cb t.htSize) t.htSize es) (key : K) :
    t.findNode cb key = .ok (es.find? (cb.sameKey key)) := by
  have hchain : t.htTable[t.indexOf cb key]? =
      some (chain (bucketOf cb t.htSize) es (t.indexOf cb key)) := by
    rw [htable, layout_getElem?]
    exact bucketIndex_lt hpos _
  rw [HTable.findNode, headAt_eq hchain, Exec.ok_bind,
    find?_chain fun e _ he ↦ bucketOf_of_sameKey he]
  rfl

namespace Holds

variable (h : Holds cb t es) (key : K)
include h

/-- The walk along a chain answers for the whole table. -/
theorem findNode_eq : t.findNode cb key = .ok (es.find? (cb.sameKey key)) :=
  findNode_of_layout h.size_pos h.table key

theorem htableInsert_existing (mallocs : InsertMallocs) (data : Option D)
    (hfind : es.find? (cb.sameKey key) ≠ none) :
    htableInsert cb mallocs t key data = .ok (.existing, t) := by
  obtain ⟨n, hn⟩ := Option.ne_none_iff_exists'.1 hfind
  rw [htableInsert, h.findNode_eq key, hn]
  rfl

theorem htableInsert_nomem {mallocs : InsertMallocs} (data : Option D)
    (hfind : es.find? (cb.sameKey key) = none) (hnode : mallocs.node = false) :
    htableInsert cb mallocs t key data = .ok (.nomem, t) := by
  rw [htableInsert, h.findNode_eq key, hfind, Exec.ok_bind, hnode]
  rfl

theorem htableInsert_append {mallocs : InsertMallocs} (data : Option D)
    (hfind : es.find? (cb.sameKey key) = none) (hnode : mallocs.node = true) :
    htableInsert cb mallocs t key data =
      if t.htLimit < wrapSize (t.htUsed + 1) then
        htableGrow cb mallocs.heads (t.withNode cb ⟨key, data⟩) >>= fun r ↦
          .ok (.ok, { r.2 with htGrows := wrapSize (r.2.htGrows + 1) })
      else .ok (.ok, t.withNode cb ⟨key, data⟩) :=
  h.indexed.htableInsert_append data (by rw [h.findNode_eq key, hfind]) hnode

theorem htableInsert_new {mallocs : InsertMallocs} (data : Option D)
    (hfind : es.find? (cb.sameKey key) = none) (hnode : mallocs.node = true)
    (hfits : t.InsertFits mallocs.heads) :
    htableInsert cb mallocs t key data = .ok (.ok, t.inserted cb mallocs.heads ⟨key, data⟩) := by
  have hwith : Holds cb (t.withNode cb ⟨key, data⟩) (es ++ [⟨key, data⟩]) :=
    h.withNode (new_of_find? hfind)
  rw [h.htableInsert_append key data hfind hnode, HTable.inserted]
  by_cases hlimit : t.htLimit < wrapSize (t.htUsed + 1)
  · rw [if_pos hlimit, if_pos hlimit, hwith.htableGrow_eq (hfits hlimit), Exec.ok_bind]
    cases mallocs.heads with
    | false => rfl
    | true => rfl
  · rw [if_neg hlimit, if_neg hlimit]

/-- The table without the entry of a key that it holds. -/
theorem dropNode (hfind : es.find? (cb.sameKey key) ≠ none) :
    Holds cb (t.dropNode cb key) (es.eraseP (cb.sameKey key)) := by
  obtain ⟨n, hn⟩ := Option.ne_none_iff_exists'.1 hfind
  have hmem : n ∈ es := List.mem_of_find?_eq_some hn
  have hsame : cb.sameKey key n = true := List.find?_some hn
  have hused : subSize t.htUsed 1 = wrapSize (es.eraseP (cb.sameKey key)).length := by
    have hpos : 0 < es.length := List.length_pos_of_mem hmem
    rw [h.used, List.length_eraseP_of_mem hmem hsame]
    unfold subSize wrapSize sizeModulus
    split
    · omega
    · omega
  have htable : t.htTable.modify (t.indexOf cb key) (List.eraseP (cb.sameKey key)) =
      layout (bucketOf cb t.htSize) t.htSize (es.eraseP (cb.sameKey key)) := by
    rw [h.table]
    exact modify_eraseP fun e _ he ↦ bucketOf_of_sameKey he
  exact ⟨h.pow, h.fits, h.bytes, h.limit, htable, hused, h.distinct.sublist List.eraseP_sublist⟩

theorem htableRemove_eq : htableRemove cb t key = .ok
    (if es.find? (cb.sameKey key) = none then (.notfound, t) else (.ok, t.dropNode cb key)) := by
  rw [htableRemove, h.findNode_eq key, Exec.ok_bind]
  cases es.find? (cb.sameKey key) with
  | none => rfl
  | some n => rfl

theorem htableFreeObj_eq (htfree : ℕ) : ∃ freed, htableFreeObj cb t key htfree = .ok
    (if es.find? (cb.sameKey key) = none then (.notfound, t, freed)
      else (.ok, t.dropNode cb key, freed)) := by
  rw [htableFreeObj, h.findNode_eq key, Exec.ok_bind]
  cases es.find? (cb.sameKey key) with
  | none => exact ⟨_, rfl⟩
  | some n => exact ⟨_, rfl⟩

theorem htableSearch_eq :
    htableSearch cb t key = .ok ((es.find? (cb.sameKey key)).bind HNode.hnData) := by
  rw [htableSearch, h.findNode_eq key, Exec.ok_bind]
  cases es.find? (cb.sameKey key) with
  | none => rfl
  | some n => rfl

end Holds

end Operations

end Experimentation.HashTable
