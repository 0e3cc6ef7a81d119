import Experimentation.HashTable.ChainRefinement

/-!
# Runs of the linked table

The walks along the links of a memory follow the chains that it spells, so each function of the
linked table answers what the function of the table of sequences answers, and leaves links that
spell what that one leaves.  This takes nothing but that `malloc` returns addresses that are not in
use; the callbacks may compute whatever they like.  A run never touches a node after it was freed,
frees none twice, and loses none: what `htable_free` leaves is empty.
-/

namespace Experimentation.HashTable

open LinkedLists Semantics

variable {K D : Type}

namespace HHeap

variable {h : HHeap K D} {o : ℕ} {rows : Rows K D} {a b i : ℕ}

/-! ## Walks -/

theorem modify_append_cons {α : Type} (pre : List α) (c : α) (rest : List α) (f : α → α) :
    (pre ++ c :: rest).modify pre.length f = pre ++ f c :: rest := by
  induction pre with
  | nil => exact List.modify_zero_cons ..
  | cons p pre ih => exact (List.modify_succ_cons ..).trans (congrArg (p :: ·) ih)

/-- The walk from the place `s` finds the first node with the key, if there is one.  The induction
is on the nodes that are passed. -/
theorem findFrom_ok (cb : Callbacks K) (key : K) {s : Place} {os : List ℕ}
    {ns : List (HNode K D)} {fuel : ℕ} (hlinked : h.links.Linked s os) (hnodup : os.Nodup)
    (hspelled : os.map h.contents = ns.map some) (hfuel : os.length ≤ fuel) :
    h.findFrom cb key fuel (h.links.read s) = .ok none ∧ ns.find? (cb.sameKey key) = none ∨
      ∃ o n, h.findFrom cb key fuel (h.links.read s) = .ok (some o) ∧
        ns.find? (cb.sameKey key) = some n ∧ o ∈ os ∧ h.contents o = some n ∧
        (os.erase o).map h.contents = (ns.eraseP (cb.sameKey key)).map some := by
  induction os generalizing s ns fuel with
  | nil =>
      have hns : ns = [] := List.map_eq_nil_iff.1 hspelled.symm
      have hread : h.links.read s = none := hlinked
      rw [hns, hread]
      exact .inl ⟨by cases fuel <;> rfl, rfl⟩
  | cons o os ih =>
      cases ns with
      | nil => cases hspelled
      | cons n ns =>
          obtain ⟨hn, hrest⟩ := List.cons.inj hspelled
          obtain ⟨ho, hnodup⟩ := List.nodup_cons.1 hnodup
          obtain ⟨fuel, rfl⟩ := Nat.exists_eq_add_of_lt hfuel
          obtain ⟨ln, hln, hsame⟩ := Option.map_eq_some_iff.1 hn
          have hnext : ln.tqeNext = h.links.next o := by simp [links, hln]
          have hread : h.links.read s = some o := hlinked.1
          have hturn : h.findFrom cb key (os.length + fuel + 1) (some o) =
              if cb.sameKey key n then .ok (some o)
              else h.findFrom cb key (os.length + fuel) (h.links.read (.next o)) := by
            rw [findFrom, node_eq hln, Exec.ok_bind, hsame, hnext]
            rfl
          rw [hread, hturn]
          by_cases hkey : cb.sameKey key n = true
          · refine .inr ⟨o, n, if_pos hkey, List.find?_cons_of_pos hkey, List.mem_cons_self, hn, ?_⟩
            rw [List.erase_cons_head, List.eraseP_cons_of_pos hkey]
            exact hrest
          · rw [if_neg hkey, List.find?_cons_of_neg hkey, List.eraseP_cons_of_neg hkey]
            rcases ih hlinked.2.2 hnodup hrest (Nat.le_add_right _ _) with
              hnone | ⟨o', n', hrun, hfind, ho', hn', herase⟩
            · exact .inl hnone
            · have hne : o ≠ o' := fun heq ↦ ho (heq ▸ ho')
              refine .inr ⟨o', n', hrun, hfind, List.mem_cons_of_mem o ho', hn', ?_⟩
              rw [List.erase_cons_tail (by simpa using hne), List.map_cons, List.map_cons, herase,
                hn]

namespace StoresAt

variable {lists : ℕ × ℕ → List ℕ} {loose : Option ℕ} {q : ℕ × ℕ} {row : List (List (HNode K D))}

theorem length_chain_le (hs : StoresAt h lists rows loose) (q : ℕ × ℕ) :
    (chainAt rows q).length ≤ sizeModulus := by
  have hlen := congrArg List.length (hs.spelled q)
  rw [List.length_map, List.length_map] at hlen
  exact hlen ▸ hs.length_le q

theorem head_ok (hs : StoresAt h lists rows loose) (hrow : rows a = some row)
    (hi : i < row.length) : ∃ hd, h.head (a, i) = .ok hd ∧
      hd.tqhFirst = h.links.read (.first (a, i)) := by
  obtain ⟨hd, hhd⟩ := Option.isSome_iff_exists.1 (hs.isSome_head hrow hi)
  exact ⟨hd, head_eq hhd, by simp [links, Links.read, hhd]⟩

theorem head_error (hs : StoresAt h lists rows loose) (hrow : rows a = some row)
    (hi : row.length ≤ i) : h.head (a, i) = .error .outOfBounds := by
  have hlen := hs.lengths a
  rw [hrow] at hlen
  obtain ⟨heads, hheads, hsame⟩ : ∃ heads, h.arrays a = some heads ∧
      heads.length = row.length := by simpa using hlen
  rw [head, hheads]
  simp [List.getElem?_eq_none (hsame ▸ hi : heads.length ≤ i)]

end StoresAt

namespace Stores

variable {loose : Option ℕ} {row : List (List (HNode K D))}

theorem arrays_eq_none_iff (hs : Stores h rows loose) : h.arrays a = none ↔ rows a = none := by
  obtain ⟨lists, hs⟩ := hs
  have hlen := hs.lengths a
  rw [← Option.map_eq_none_iff (f := List.length), hlen, Option.map_eq_none_iff]

theorem nodes_eq_none (hs : Stores h (fun _ ↦ none) none) (o : ℕ) : h.nodes o = none := by
  obtain ⟨lists, hs⟩ := hs
  have hempty : ∀ q, lists q = [] := fun q ↦ hs.lists_eq_nil rfl
  rw [← Option.not_isSome_iff_eq_none, hs.nodes]
  simp [hempty]

variable {pre rest : List (List (HNode K D))} {n : HNode K D} {ns : List (HNode K D)}

theorem head_nil (hs : Stores h rows loose) (hrow : rows a = some (pre ++ [] :: rest)) :
    ∃ hd, h.head (a, pre.length) = .ok hd ∧ hd.tqhFirst = none := by
  obtain ⟨lists, hs⟩ := hs
  obtain ⟨hd, hhd, hfirst⟩ := hs.head_ok hrow (i := pre.length) (by simp)
  refine ⟨hd, hhd, ?_⟩
  rw [hfirst, (hs.holds.links.linked _).read_eq, hs.lists_eq_nil]
  · rfl
  · rw [chainAt_eq hrow]
    simp

theorem remove_head (hs : Stores h rows none) (hrow : rows a = some (pre ++ (n :: ns) :: rest)) :
    ∃ hd o h', h.head (a, pre.length) = .ok hd ∧ hd.tqhFirst = some o ∧
      h.contents o = some n ∧ h.remove (a, pre.length) o = .ok h' ∧ h'.contents = h.contents ∧
      Stores h' (Function.update rows a (some (pre ++ ns :: rest))) (some o) := by
  obtain ⟨lists, hs⟩ := hs
  have hlt : pre.length < (pre ++ (n :: ns) :: rest).length := by simp
  have hchain : chainAt rows (a, pre.length) = n :: ns := by
    rw [chainAt_eq hrow]
    simp
  have hspelled := hs.spelled (a, pre.length)
  rw [hchain] at hspelled
  obtain ⟨hd, hhd, hfirst⟩ := hs.head_ok hrow hlt
  rw [(hs.holds.links.linked _).read_eq] at hfirst
  cases hlist : lists (a, pre.length) with
  | nil =>
      rw [hlist] at hspelled
      cases hspelled
  | cons o os =>
      rw [hlist] at hspelled hfirst
      obtain ⟨hn, hns⟩ := List.cons.inj hspelled
      obtain ⟨h', hrun, hcontents, hs'⟩ := hs.remove (o := o) (hlist ▸ List.mem_cons_self) hrow hlt
        List.tail (by rw [hlist, List.erase_cons_head, hchain]; exact hns)
      rw [modify_append_cons] at hs'
      exact ⟨hd, o, h', hhd, hfirst, hn, hrun, hcontents, hs'⟩

end Stores

/-- One array of heads. -/
def one (a : ℕ) (row : List (List (HNode K D))) : Rows K D :=
  Function.update (fun _ ↦ none) a (some row)

/-- Two arrays of heads. -/
def two (a : ℕ) (row : List (List (HNode K D))) (b : ℕ) (row' : List (List (HNode K D))) :
    Rows K D :=
  Function.update (one a row) b (some row')

section Rows

variable {row row' new : List (List (HNode K D))}

@[simp]
theorem one_self : one a row a = some row := Function.update_self ..

theorem one_eq_none_iff : one a row b = none ↔ b ≠ a := by
  by_cases hb : b = a <;> simp [one, hb]

@[simp]
theorem update_one : Function.update (one a row) a (some new) = one a new :=
  Function.update_idem ..

theorem update_one_none : Function.update (one a row) a none = fun _ ↦ none := by
  rw [one, Function.update_idem, Function.update_eq_self_iff]

theorem two_left (hab : a ≠ b) : two a row b row' a = some row := by
  rw [two, Function.update_of_ne hab, one_self]

@[simp]
theorem two_right : two a row b row' b = some row' := Function.update_self ..

theorem update_two_left (hab : a ≠ b) :
    Function.update (two a row b row') a (some new) = two a new b row' := by
  rw [two, Function.update_comm hab.symm, update_one]
  rfl

@[simp]
theorem update_two_right : Function.update (two a row b row') b (some new) = two a row b new :=
  Function.update_idem ..

theorem update_two_none (hab : a ≠ b) :
    Function.update (two a row b row') a none = one b row' := by
  rw [two, Function.update_comm hab.symm, update_one_none]
  rfl

end Rows

section Grow

variable {cb : Callbacks K} {newsize : ℕ} {pre rest : List (List (HNode K D))}
  {ns ms : List (HNode K D)}

/-- A chain is moved node by node.  The induction is on the chain. -/
theorem moveChain_ok (hab : a ≠ b) (hpos : 0 < newsize) {fuel : ℕ} (hfuel : ns.length < fuel)
    (hs : Stores h (two a (pre ++ ns :: rest) b
      (Buckets.layout (bucketOf cb newsize) newsize ms)) none) :
    ∃ h', h.moveChain cb newsize b (a, pre.length) fuel = .ok h' ∧
      Stores h' (two a (pre ++ [] :: rest) b
        (Buckets.layout (bucketOf cb newsize) newsize (ms ++ ns))) none := by
  induction ns generalizing h ms fuel with
  | nil =>
      obtain ⟨fuel, rfl⟩ := Nat.exists_eq_add_of_lt hfuel
      obtain ⟨hd, hhd, hfirst⟩ := hs.head_nil (two_left hab)
      refine ⟨h, ?_, by rwa [List.append_nil]⟩
      rw [moveChain, hhd, Exec.ok_bind, hfirst]
      rfl
  | cons n ns ih =>
      obtain ⟨fuel, rfl⟩ := Nat.exists_eq_add_of_lt hfuel
      obtain ⟨hd, o, h₁, hhd, hfirst, hn, hrun₁, hcontents, hs₁⟩ := hs.remove_head (two_left hab)
      rw [update_two_left hab] at hs₁
      obtain ⟨ln, hln, hsame⟩ := Option.map_eq_some_iff.1 hn
      obtain ⟨lists, hs₁⟩ := hs₁
      obtain ⟨h₂, hrun₂, hs₂⟩ := hs₁.insertTail (i := bucketOf cb newsize n)
        (hcontents ▸ hn) two_right (by rw [Buckets.layout_length]; exact bucketIndex_lt hpos _)
      rw [update_two_right, Buckets.modify_append] at hs₂
      obtain ⟨h', hrun, hs'⟩ := ih (show ns.length < ns.length + 1 + fuel by omega) hs₂
      refine ⟨h', ?_, by rwa [List.append_assoc] at hs'⟩
      calc h.moveChain cb newsize b (a, pre.length) (ns.length + 1 + fuel + 1) =
          h₁.insertTail (b, bucketOf cb newsize n) o >>= fun h ↦
            h.moveChain cb newsize b (a, pre.length) (ns.length + 1 + fuel) := by
            rw [moveChain, hhd, Exec.ok_bind, hfirst]
            dsimp only
            rw [node_eq hln, Exec.ok_bind, hrun₁, Exec.ok_bind, hsame]
            rfl
        _ = .ok h' := by rw [hrun₂, Exec.ok_bind, hrun]

/-- The chains are moved one after the other.  The induction is on the chains that are left. -/
theorem moveChains_ok (hab : a ≠ b) (hpos : rest ≠ [] → 0 < newsize)
    (hs : Stores h (two a (pre ++ rest) b
      (Buckets.layout (bucketOf cb newsize) newsize ms)) none) :
    ∃ h', h.moveChains cb newsize b a rest.length pre.length = .ok h' ∧
      Stores h' (two a (pre ++ rest.map fun _ ↦ []) b
        (Buckets.layout (bucketOf cb newsize) newsize (ms ++ rest.flatten))) none := by
  induction rest generalizing h pre ms with
  | nil => exact ⟨h, rfl, by simpa using hs⟩
  | cons ns rest ih =>
      have hlen : ns.length < sizeModulus + 1 := by
        obtain ⟨lists, hat⟩ := hs
        have hle := hat.length_chain_le (a, pre.length)
        rw [chainAt_eq (two_left hab)] at hle
        exact Nat.lt_succ_of_le (by simpa using hle)
      have hpos' := hpos (List.cons_ne_nil _ _)
      obtain ⟨h₁, hrun₁, hs₁⟩ := moveChain_ok hab hpos' hlen hs
      rw [List.append_cons] at hs₁
      obtain ⟨h', hrun, hs'⟩ := ih (fun _ ↦ hpos') hs₁
      refine ⟨h', ?_, by simpa using hs'⟩
      rw [List.length_cons, moveChains, hrun₁, Exec.ok_bind]
      simpa using hrun

end Grow

section Free

variable {pre rest : List (List (HNode K D))} {ns : List (HNode K D)}

theorem freeChain_ok {fuel : ℕ} (hfuel : ns.length < fuel)
    (hs : Stores h (one a (pre ++ ns :: rest)) none) :
    ∃ h', h.freeChain (a, pre.length) fuel = .ok h' ∧
      Stores h' (one a (pre ++ [] :: rest)) none := by
  induction ns generalizing h fuel with
  | nil =>
      obtain ⟨fuel, rfl⟩ := Nat.exists_eq_add_of_lt hfuel
      obtain ⟨hd, hhd, hfirst⟩ := hs.head_nil one_self
      refine ⟨h, ?_, hs⟩
      rw [freeChain, hhd, Exec.ok_bind, hfirst]
      rfl
  | cons n ns ih =>
      obtain ⟨fuel, rfl⟩ := Nat.exists_eq_add_of_lt hfuel
      obtain ⟨hd, o, h₁, hhd, hfirst, _, hrun₁, _, hs₁⟩ := hs.remove_head one_self
      rw [update_one] at hs₁
      obtain ⟨h₂, hrun₂, hs₂⟩ := hs₁.freeNode
      obtain ⟨h', hrun, hs'⟩ := ih (show ns.length < ns.length + 1 + fuel by omega) hs₂
      refine ⟨h', ?_, hs'⟩
      calc h.freeChain (a, pre.length) (ns.length + 1 + fuel + 1) =
          h₁.freeNode o >>= fun h ↦ h.freeChain (a, pre.length) (ns.length + 1 + fuel) := by
            rw [freeChain, hhd, Exec.ok_bind, hfirst]
            dsimp only
            rw [hrun₁, Exec.ok_bind]
        _ = .ok h' := by rw [hrun₂, Exec.ok_bind, hrun]

theorem freeChains_ok (hs : Stores h (one a (pre ++ rest)) none) :
    ∃ h', h.freeChains a rest.length pre.length = .ok h' ∧
      Stores h' (one a (pre ++ rest.map fun _ ↦ [])) none := by
  induction rest generalizing h pre with
  | nil => exact ⟨h, rfl, by simpa using hs⟩
  | cons ns rest ih =>
      have hlen : ns.length < sizeModulus + 1 := by
        obtain ⟨lists, hat⟩ := hs
        have hle := hat.length_chain_le (a, pre.length)
        rw [chainAt_eq one_self] at hle
        exact Nat.lt_succ_of_le (by simpa using hle)
      obtain ⟨h₁, hrun₁, hs₁⟩ := freeChain_ok hlen hs
      rw [List.append_cons] at hs₁
      obtain ⟨h', hrun, hs'⟩ := ih hs₁
      refine ⟨h', ?_, by simpa using hs'⟩
      rw [List.length_cons, freeChains, hrun₁, Exec.ok_bind]
      simpa using hrun

end Free

end HHeap

/-! ## Tables -/

/-- The table whose chains are those that the heads lead to. -/
def LinkedTable.spelling (l : LinkedTable K D) (row : List (List (HNode K D))) : HTable K D :=
  { htGrows := l.htGrows, htSize := l.htSize, htUsed := l.htUsed, htFactor := l.htFactor,
    htLimit := l.htLimit, bytes := l.bytes, htTable := row }

/-- The memory of the linked table holds its heads, with the chains of `row`, and nothing else. -/
structure LinkedTable.Spells (l : LinkedTable K D) (row : List (List (HNode K D))) : Prop where
  stores : l.heap.Stores (HHeap.one l.htTable row) none
  length : row.length = l.htSize
  fits : l.htSize * sizeofHhead < sizeModulus

/-- The linked table keeps the table `t`. -/
def LinkedTable.Refines (l : LinkedTable K D) (t : HTable K D) : Prop :=
  ∃ row, l.Spells row ∧ t = l.spelling row

/-- Both calls answer the same, and leave the same table. -/
def SameResult {α : Type} (r : α × LinkedTable K D) (r' : α × HTable K D) : Prop :=
  r.1 = r'.1 ∧ r.2.Refines r'.2

namespace LinkedTable.Spells

variable {l : LinkedTable K D} {row : List (List (HNode K D))} {cb : Callbacks K}

/-- What the walk finds: nothing, or the node that the table of sequences has there. -/
inductive Found (cb : Callbacks K) (l : LinkedTable K D) (row : List (List (HNode K D))) (key : K) :
    Option ℕ → Option (HNode K D) → Prop
  | absent (hi : (l.headOf cb key).2 < row.length) : Found cb l row key none none
  | present {o : ℕ} {n : HNode K D} (hi : (l.headOf cb key).2 < row.length)
      (lists : ℕ × ℕ → List ℕ) (hs : l.heap.StoresAt lists (HHeap.one l.htTable row) none)
      (ho : o ∈ lists (l.headOf cb key)) (hn : l.heap.contents o = some n)
      (herase : ((lists (l.headOf cb key)).erase o).map l.heap.contents =
        ((HHeap.chainAt (HHeap.one l.htTable row) (l.headOf cb key)).eraseP
          (cb.sameKey key)).map some) : Found cb l row key (some o) (some n)

theorem findNode (hs : l.Spells row) (cb : Callbacks K) (key : K) :
    Agree (Found cb l row key) (l.findNode cb key) ((l.spelling row).findNode cb key) := by
  obtain ⟨lists, hat⟩ := hs.stores
  by_cases hi : (l.headOf cb key).2 < row.length
  · obtain ⟨hd, hhd, hfirst⟩ := hat.head_ok HHeap.one_self hi
    have hchain : HHeap.chainAt (HHeap.one l.htTable row) (l.headOf cb key) =
        row[(l.headOf cb key).2] := by
      refine (HHeap.chainAt_eq HHeap.one_self).trans ?_
      rw [List.getD_eq_getElem?_getD]
      exact congrArg (·.getD []) (List.getElem?_eq_getElem hi)
    have hright : (l.spelling row).findNode cb key =
        .ok (row[(l.headOf cb key).2].find? (cb.sameKey key)) := by
      rw [HTable.findNode, show headAt (l.spelling row).htTable ((l.spelling row).indexOf cb key) =
        .ok row[(l.headOf cb key).2] from headAt_eq (List.getElem?_eq_getElem hi)]
      rfl
    have hleft : l.findNode cb key = l.heap.findFrom cb key sizeModulus
        (l.heap.links.read (.first (l.headOf cb key))) := by
      rw [LinkedTable.findNode, show l.heap.head (l.headOf cb key) = .ok hd from hhd,
        Exec.ok_bind, hfirst]
      rfl
    rw [hleft, hright]
    rcases HHeap.findFrom_ok cb key (hat.holds.links.linked _) (hat.holds.links.nodup _)
      (hat.spelled (l.headOf cb key)) (hat.length_le _) with
      ⟨hrun, hfind⟩ | ⟨o, n, hrun, hfind, ho, hn, herase⟩
    · rw [hchain] at hfind
      rw [hrun, hfind]
      exact .ok (.absent hi)
    · rw [hchain] at hfind
      rw [hrun, hfind]
      exact .ok (.present hi lists hat ho hn herase)
  · have hleft : l.heap.head (l.headOf cb key) = .error .outOfBounds :=
      hat.head_error HHeap.one_self (Nat.le_of_not_lt hi)
    have hright : headAt (l.spelling row).htTable ((l.spelling row).indexOf cb key) =
        .error .outOfBounds := by
      rw [headAt, show (l.spelling row).htTable[(l.spelling row).indexOf cb key]? = none from
        List.getElem?_eq_none (Nat.le_of_not_lt hi)]
    rw [LinkedTable.findNode, HTable.findNode, hleft, hright]
    exact .error _

/-- A node that was found has the key and the data of the node that was found. -/
theorem Found.node_eq {key : K} {o : ℕ} {n : HNode K D}
    (hf : Found cb l row key (some o) (some n)) :
    ∃ ln, l.heap.node o = .ok ln ∧ ln.toHNode = n := by
  cases hf with
  | present _ _ _ _ hn _ =>
      obtain ⟨ln, hln, hsame⟩ := Option.map_eq_some_iff.1 hn
      exact ⟨ln, HHeap.node_eq hln, hsame⟩

theorem htableSearch (hs : l.Spells row) (cb : Callbacks K) (key : K) :
    Agree Eq (l.htableSearch cb key) (HashTable.htableSearch cb (l.spelling row) key) := by
  refine (hs.findNode cb key).bind fun o n hf ↦ ?_
  cases o with
  | none =>
      cases hf
      exact .ok rfl
  | some o =>
      cases n with
      | none => cases hf
      | some n =>
          obtain ⟨ln, hln, hsame⟩ := hf.node_eq
          dsimp only
          rw [hln, Exec.ok_bind, ← hsame]
          exact .ok rfl

/-- Taking the node that was found off its chain and freeing it. -/
theorem dropNode (hs : l.Spells row) {key : K} {o : ℕ} {n : HNode K D}
    (hf : Found cb l row key (some o) (some n)) :
    ∃ l', l.dropNode cb key o = .ok l' ∧ l'.Refines ((l.spelling row).dropNode cb key) := by
  cases hf with
  | present hi lists hat ho hn herase =>
      obtain ⟨h₁, hrun₁, _, hs₁⟩ := hat.remove ho HHeap.one_self hi _ herase
      rw [HHeap.update_one] at hs₁
      obtain ⟨h₂, hrun₂, hs₂⟩ := hs₁.freeNode
      refine ⟨{ l with heap := h₂, htUsed := subSize l.htUsed 1 }, ?_, _, ⟨hs₂, ?_, hs.fits⟩, rfl⟩
      · rw [LinkedTable.dropNode, show l.heap.remove (l.headOf cb key) o = .ok h₁ from hrun₁,
          Exec.ok_bind, hrun₂]
        rfl
      · rw [List.length_modify]
        exact hs.length

theorem htableRemove (hs : l.Spells row) (cb : Callbacks K) (key : K) :
    Agree SameResult (l.htableRemove cb key) (HashTable.htableRemove cb (l.spelling row) key) := by
  refine (hs.findNode cb key).bind fun o n hf ↦ ?_
  cases o with
  | none =>
      cases hf
      exact .ok ⟨rfl, row, hs, rfl⟩
  | some o =>
      cases n with
      | none => cases hf
      | some n =>
          obtain ⟨l', hrun, hrefines⟩ := hs.dropNode hf
          dsimp only
          rw [hrun]
          exact .ok ⟨rfl, hrefines⟩

/-- What is handed to `free` besides the node is the same, too. -/
theorem htableFreeObj (hs : l.Spells row) (cb : Callbacks K) (key : K) (htfree : ℕ) :
    Agree (fun r r' ↦ SameResult (r.1, r.2.1) (r'.1, r'.2.1) ∧ r.2.2 = r'.2.2)
      (l.htableFreeObj cb key htfree)
      (HashTable.htableFreeObj cb (l.spelling row) key htfree) := by
  refine (hs.findNode cb key).bind fun o n hf ↦ ?_
  cases o with
  | none =>
      cases hf
      exact .ok ⟨⟨rfl, row, hs, rfl⟩, rfl⟩
  | some o =>
      cases n with
      | none => cases hf
      | some n =>
          obtain ⟨ln, hln, hsame⟩ := hf.node_eq
          obtain ⟨l', hrun, hrefines⟩ := hs.dropNode hf
          dsimp only
          rw [hln, Exec.ok_bind, hrun, ← hsame]
          exact .ok ⟨⟨rfl, hrefines⟩, rfl⟩

theorem double_eq (hs : l.Spells row) : wrapSize (l.htSize <<< 1) = 2 * l.htSize := by
  have hfits := hs.fits
  unfold sizeofHhead at hfits
  rw [Nat.shiftLeft_eq, Nat.pow_one, Nat.mul_comm, wrapSize_of_lt (by omega)]

theorem htableGrow_doubled (hs : l.Spells row) (cb : Callbacks K)
    (hfits : (l.spelling row).GrowthFits) :
    HashTable.htableGrow cb true (l.spelling row) = .ok (.ok, (l.spelling row).doubled cb) := by
  rcases Nat.eq_zero_or_pos l.htSize with hzero | hpos
  · have hnil : row = [] := List.eq_nil_of_length_eq_zero (hs.length.trans hzero)
    simp [HashTable.htableGrow, HTable.doubled, spelling, hzero, hnil, wrapSize,
      HashTable.initHeads, HTable.forEachNode, Buckets.layout]
  · exact htableGrow_eq hs.length hpos hfits

theorem htableGrow (hs : l.Spells row) (cb : Callbacks K) {malloc : Option ℕ}
    (hfresh : ∀ a, malloc = some a → l.heap.arrays a = none) :
    Agree SameResult (l.htableGrow cb malloc)
      (HashTable.htableGrow cb malloc.isSome (l.spelling row)) := by
  cases malloc with
  | none => exact .ok ⟨rfl, row, hs, rfl⟩
  | some a =>
      have hfree := hfresh a rfl
      have hne : l.htTable ≠ a :=
        (HHeap.one_eq_none_iff.1 (hs.stores.arrays_eq_none_iff.1 hfree)).symm
      by_cases hfits : (l.spelling row).GrowthFits
      · have hbytes : wrapSize (2 * l.htSize * sizeofHhead) = 2 * l.htSize * sizeofHhead :=
          wrapSize_of_lt hfits
        obtain ⟨h₁, hrun₁, hs₁⟩ := hs.stores.initHeads hfree hbytes.ge
        have hlayout : List.replicate (2 * l.htSize) [] =
            Buckets.layout (bucketOf cb (2 * l.htSize)) (2 * l.htSize)
              ([] : List (HNode K D)) := Buckets.layout_nil.symm
        rw [hlayout] at hs₁
        obtain ⟨h₂, hrun₂, hs₂⟩ := @HHeap.moveChains_ok _ _ _ _ _ cb _ [] row [] hne
          (fun hrow ↦ by
            have hpos := List.length_pos_of_ne_nil hrow
            rw [hs.length] at hpos
            omega) hs₁
        obtain ⟨h₃, hrun₃, hs₃⟩ := hs₂.freeHeads (HHeap.two_left hne) (by simp)
        rw [HHeap.update_two_none hne] at hs₃
        rw [hs.length] at hrun₂
        rw [Option.isSome_some, hs.htableGrow_doubled cb hfits, LinkedTable.htableGrow,
          hs.double_eq, hrun₁, Exec.ok_bind,
          show h₁.moveChains cb (2 * l.htSize) a l.htTable l.htSize 0 = .ok h₂ from hrun₂,
          Exec.ok_bind, hrun₃, Exec.ok_bind]
        refine .ok ⟨rfl, _, ⟨hs₃, Buckets.layout_length, hfits⟩, ?_⟩
        simp [HTable.doubled, spelling, hbytes]
      · have hsmall : ¬ 2 * l.htSize * sizeofHhead ≤ wrapSize (2 * l.htSize * sizeofHhead) := by
          have hlt : wrapSize (2 * l.htSize * sizeofHhead) < sizeModulus :=
            Nat.mod_lt _ (by decide)
          exact fun hle ↦ hfits (hle.trans_lt hlt)
        have hleft : l.htableGrow cb (some a) = .error .outOfBounds := by
          rw [LinkedTable.htableGrow, hs.double_eq, HHeap.initHeads, if_neg hsmall]
          rfl
        have hright : HashTable.htableGrow cb true (l.spelling row) = .error .outOfBounds := by
          rw [HashTable.htableGrow, show wrapSize ((l.spelling row).htSize <<< 1) = _ from
            hs.double_eq, HashTable.initHeads, if_neg hsmall]
          rfl
        rw [Option.isSome_some, hleft, hright]
        exact .error _

theorem grow_counted (hs : l.Spells row) (cb : Callbacks K) {malloc : Option ℕ}
    (hfresh : ∀ a, malloc = some a → l.heap.arrays a = none) :
    Agree SameResult
      (l.htableGrow cb malloc >>= fun r ↦
        .ok (HtRet.ok, { r.2 with htGrows := wrapSize (r.2.htGrows + 1) }))
      (HashTable.htableGrow cb malloc.isSome (l.spelling row) >>= fun r ↦
        .ok (HtRet.ok, { r.2 with htGrows := wrapSize (r.2.htGrows + 1) })) := by
  refine (hs.htableGrow cb hfresh).bind fun r r' hr ↦ .ok ⟨rfl, ?_⟩
  obtain ⟨_, row', hs', hspelling⟩ := hr
  refine ⟨row', ⟨hs'.stores, hs'.length, hs'.fits⟩, ?_⟩
  rw [hspelling]
  rfl

theorem htableInsert (hs : l.Spells row) (cb : Callbacks K) {mallocs : LinkedTable.Mallocs}
    (key : K) (data : Option D)
    (hnode : ∀ o, mallocs.node = some o → l.heap.nodes o = none ∧ o < sizeModulus)
    (hheads : ∀ a, mallocs.heads = some a → l.heap.arrays a = none) :
    Agree SameResult (l.htableInsert cb mallocs key data)
      (HashTable.htableInsert cb ⟨mallocs.node.isSome, mallocs.heads.isSome⟩ (l.spelling row) key
        data) := by
  refine (hs.findNode cb key).bind fun found found' hf ↦ ?_
  cases hf with
  | present => exact .ok ⟨rfl, row, hs, rfl⟩
  | absent hi =>
      cases hmalloc : mallocs.node with
      | none => exact .ok ⟨rfl, row, hs, rfl⟩
      | some o =>
          obtain ⟨hfree, hsmall⟩ := hnode o hmalloc
          have hnew := hs.stores.mallocNode hfree hsmall ⟨⟨key, data⟩, none, .next o⟩
          obtain ⟨lists, hat⟩ := hnew
          obtain ⟨h₁, hrun₁, hs₁⟩ := hat.insertTail (n := ⟨key, data⟩)
            (by simp [HHeap.contents, HHeap.setNode]) HHeap.one_self hi
          rw [HHeap.update_one] at hs₁
          let l₁ : LinkedTable K D := { l with heap := h₁, htUsed := wrapSize (l.htUsed + 1) }
          have hs₁' : l₁.Spells _ := ⟨hs₁, (List.length_modify ..).trans hs.length, hs.fits⟩
          have hright : insertTail (l.spelling row).htTable ((l.spelling row).indexOf cb key)
              ⟨key, data⟩ = .ok (row.modify (l.headOf cb key).2 (· ++ [⟨key, data⟩])) :=
            if_pos hi
          dsimp only
          rw [show HHeap.insertTail _ (l.headOf cb key) o = .ok h₁ from hrun₁, Exec.ok_bind]
          simp only [Option.isSome_some, Bool.not_true, Bool.false_eq_true, if_false]
          rw [hright, Exec.ok_bind]
          refine Agree.ite (fun hlimit ↦ ?_) fun hlimit ↦ .ok ⟨rfl, _, hs₁', rfl⟩
          refine hs₁'.grow_counted cb fun a ha ↦ ?_
          rw [hs₁.arrays_eq_none_iff]
          have hold := hs.stores.arrays_eq_none_iff.1 (hheads a ha)
          rw [HHeap.one_eq_none_iff] at hold ⊢
          exact hold

end LinkedTable.Spells

/-! ## Runs -/

section Run

variable {cb : Callbacks K} {l : LinkedTable K D} {t : HTable K D}

/-- One call. -/
theorem LinkedTable.Refines.step (h : l.Refines t) {op : LinkedOp K D} (hfresh : op.Fresh l) :
    Agree SameResult (linkedStep cb l op) (HashTable.step cb t op.op) := by
  obtain ⟨row, hs, rfl⟩ := h
  cases op with
  | insert key data mallocs =>
      refine (hs.htableInsert cb key data hfresh.1 hfresh.2).bind fun r r' hr ↦ .ok ⟨?_, hr.2⟩
      rw [hr.1]
  | remove key =>
      refine (hs.htableRemove cb key).bind fun r r' hr ↦ .ok ⟨?_, hr.2⟩
      rw [hr.1]
  | freeObj key htfree =>
      refine (hs.htableFreeObj cb key htfree).bind fun r r' hr ↦ .ok ⟨?_, hr.1.2⟩
      rw [show r.1 = r'.1 from hr.1.1]
  | grow malloc =>
      refine (hs.htableGrow cb hfresh).bind fun r r' hr ↦ .ok ⟨?_, hr.2⟩
      rw [hr.1]
  | search key =>
      refine (hs.htableSearch cb key).bind fun d d' hd ↦ .ok ⟨?_, row, hs, rfl⟩
      rw [hd]

/-- A run.  The induction is on the calls. -/
theorem LinkedTable.Refines.run (h : l.Refines t) {ops : List (LinkedOp K D)}
    (hfresh : FreshRun cb l ops) :
    Agree SameResult (linkedRun cb l ops) (HashTable.run cb t (ops.map LinkedOp.op)) := by
  induction ops generalizing l t with
  | nil => exact .ok ⟨rfl, h⟩
  | cons op ops ih =>
      obtain ⟨hop, hrest⟩ := hfresh
      have hstep : Agree SameResult (linkedStep cb l op) (HashTable.step cb t op.op) := h.step hop
      rw [linkedRun, List.map_cons, HashTable.run]
      cases hrun : linkedStep cb l op with
      | error fault =>
          rw [hrun] at hstep
          rw [hstep.error_of_left]
          exact .error fault
      | ok r =>
          rw [hrun] at hstep hrest
          obtain ⟨r', hrun', hanswer, hrefines⟩ := hstep.ok_of_left
          rw [hrun']
          refine (ih hrefines hrest).bind fun rs rs' hrs ↦ .ok ⟨?_, hrs.2⟩
          rw [hanswer, hrs.1]

theorem LinkedTable.htableInit_refines {malloc : Option ℕ} {size factor : ℕ} {r : HtRet}
    (hinit : LinkedTable.htableInit malloc size factor = .ok (r, some l)) :
    malloc.isSome = true ∧ size * sizeofHhead < sizeModulus ∧
      l.Refines (emptyTable size factor) := by
  cases malloc with
  | none => cases hinit
  | some a =>
      obtain ⟨heap, hheap, heq⟩ := Exec.bind_eq_ok.1 hinit
      cases heq
      have hfits : size * sizeofHhead ≤ wrapSize (size * sizeofHhead) := by
        by_contra hnot
        rw [HHeap.initHeads, if_neg hnot] at hheap
        cases hheap
      have hlt : size * sizeofHhead < sizeModulus := hfits.trans_lt (Nat.mod_lt _ (by decide))
      have hempty : HHeap.Stores (⟨fun _ ↦ none, fun _ ↦ none⟩ : HHeap K D) (fun _ ↦ none)
          none := by
        refine ⟨fun _ ↦ [], ⟨⟨fun _ ↦ rfl, fun _ ↦ List.nodup_nil, ?_⟩, fun _ ↦ rfl⟩, ?_, ?_, ?_,
          ?_, fun _ ↦ rfl⟩
        · exact fun _ _ _ ↦ List.disjoint_nil_left _
        · simp
        · simp
        · simp
        · simp
      obtain ⟨h', hrun, hs⟩ := hempty.initHeads (a := a) rfl hfits
      rw [hrun] at hheap
      cases hheap
      refine ⟨rfl, hlt, List.replicate size [], ⟨hs, List.length_replicate, hlt⟩, ?_⟩
      rw [spelling, wrapSize_of_lt hlt]
      rfl

theorem LinkedTable.Refines.htableFree (h : l.Refines t) :
    ∃ heap, l.htableFree = .ok heap ∧ (∀ o, heap.nodes o = none) ∧ ∀ a, heap.arrays a = none := by
  obtain ⟨row, hs, rfl⟩ := h
  obtain ⟨h₁, hrun₁, hs₁⟩ := @HHeap.freeChains_ok _ _ _ _ [] row hs.stores
  obtain ⟨h₂, hrun₂, hs₂⟩ := hs₁.freeHeads HHeap.one_self (by simp)
  rw [HHeap.update_one_none] at hs₂
  refine ⟨h₂, ?_, hs₂.nodes_eq_none, fun a ↦ hs₂.arrays_eq_none_iff.2 rfl⟩
  rw [hs.length] at hrun₁
  rw [LinkedTable.htableFree, show l.heap.freeChains l.htTable l.htSize 0 = .ok h₁ from hrun₁,
    Exec.ok_bind, hrun₂]

/-- The links that the functions keep spell, after any calls, the chains of the table of sequences,
and every call is undefined for both tables or has one answer for both. -/
theorem linkedRun_agrees (cb : Callbacks K) {malloc : Option ℕ} {size factor : ℕ}
    (hinit : LinkedTable.htableInit malloc size factor = .ok (.ok, some l))
    {ops : List (LinkedOp K D)} (hfresh : FreshRun cb l ops) :
    ∃ t, HashTable.htableInit malloc.isSome size factor = .ok (.ok, some t) ∧
      Agree SameResult (linkedRun cb l ops) (HashTable.run cb t (ops.map LinkedOp.op)) := by
  obtain ⟨hmalloc, hfits, hrefines⟩ := LinkedTable.htableInit_refines hinit
  exact ⟨_, htableInit_ok_iff.2 ⟨hmalloc, hfits, rfl⟩, hrefines.run hfresh⟩

/-- Calls on numbers, of which the second one is given the address that the first one was given. -/
theorem linkedRun_agrees_small : ∃ l t,
    LinkedTable.htableInit (K := ℕ) (D := ℕ) (some 5) 1 1 = .ok (.ok, some l) ∧
    HashTable.htableInit true 1 1 = .ok (.ok, some t) ∧
      Agree SameResult
        (linkedRun ⟨id, fun a b ↦ a - b⟩ l
          [.insert 3 (some 9) ⟨some 7, none⟩, .remove 3, .insert 4 none ⟨some 7, none⟩])
        (HashTable.run ⟨id, fun a b ↦ a - b⟩ t
          [.insert 3 (some 9) ⟨true, false⟩, .remove 3, .insert 4 none ⟨true, false⟩]) := by
  obtain ⟨t, ht, hagree⟩ := @linkedRun_agrees ℕ ℕ _ ⟨id, fun a b ↦ a - b⟩ (some 5) 1 1 rfl
    [.insert 3 (some 9) ⟨some 7, none⟩, .remove 3, .insert 4 none ⟨some 7, none⟩]
    ⟨⟨fun o ho ↦ ⟨rfl, by cases ho; decide⟩, fun a ha ↦ by cases ha⟩, trivial,
      ⟨fun o ho ↦ ⟨by cases ho; rfl, by cases ho; decide⟩, fun a ha ↦ by cases ha⟩, trivial⟩
  exact ⟨_, t, rfl, ht, hagree⟩

/-- After any calls `htable_free` gives back every node and every array of heads that was ever
allocated, each of them once. -/
theorem linkedRun_releases (cb : Callbacks K) {malloc : Option ℕ} {size factor : ℕ}
    (hinit : LinkedTable.htableInit malloc size factor = .ok (.ok, some l))
    {ops : List (LinkedOp K D)} (hfresh : FreshRun cb l ops) {answers : List (Answer D)}
    {l' : LinkedTable K D} (hrun : linkedRun cb l ops = .ok (answers, l')) :
    ∃ heap, l'.htableFree = .ok heap ∧ (∀ o, heap.nodes o = none) ∧
      ∀ a, heap.arrays a = none := by
  obtain ⟨_, _, hrefines⟩ := LinkedTable.htableInit_refines hinit
  have hagree := hrefines.run hfresh
  rw [hrun] at hagree
  obtain ⟨_, _, _, hrefines'⟩ := hagree.ok_of_left
  exact hrefines'.htableFree

/-- A table that has grown, with a node on each of its two chains. -/
theorem linkedRun_releases_small : ∃ (l l' : LinkedTable ℕ ℕ) (answers : List (Answer ℕ)),
    LinkedTable.htableInit (some 5) 1 1 = .ok (.ok, some l) ∧
    linkedRun ⟨id, fun a b ↦ a - b⟩ l
      [.insert 3 (some 9) ⟨some 7, none⟩, .insert 4 none ⟨some 8, some 6⟩] = .ok (answers, l') ∧
    ∃ heap, l'.htableFree = .ok heap ∧ (∀ o, heap.nodes o = none) ∧
      ∀ a, heap.arrays a = none := by
  refine ⟨_, _, _, rfl, rfl, @linkedRun_releases ℕ ℕ _ ⟨id, fun a b ↦ a - b⟩ (some 5) 1 1 rfl
    [.insert 3 (some 9) ⟨some 7, none⟩, .insert 4 none ⟨some 8, some 6⟩]
    ⟨⟨fun o ho ↦ ⟨rfl, by cases ho; decide⟩, fun a ha ↦ by cases ha⟩,
      ⟨fun o ho ↦ ⟨by cases ho; rfl, by cases ho; decide⟩, fun a ha ↦ by cases ha; rfl⟩, trivial⟩
    _ _ rfl⟩

end Run

end Experimentation.HashTable
