import Mathlib.Algebra.BigOperators.Group.List.Basic
import Experimentation.Buddy.Coverage

/-!
# The statistics of a pool

The functions of `mstat.c` walk all lists of a pool.  On a tiling they count its blocks, and the
lengths that they add up are those of a cover of the memory; the used part belongs to the live
allocations.  The counters of splits and merges are changed by one in every turn of the loops that
change the number of blocks by one, so that their difference is known whenever the number of blocks
is.
-/

namespace Experimentation.Buddy

open DyadicTiling Semantics

variable {σ : Type}

def Pool.listAt (p : Pool) (pos : ℕ) : Exec (List ℕ) :=
  match p.blktable[pos]? with
  | some list => .ok list
  | none => .error .outOfBounds

/-- `LIST_FOREACH` over a list of nodes. -/
def Pool.forEachNode (p : Pool) (body : σ → BlkNode → Exec σ) (list : List ℕ) (s : σ) : Exec σ :=
  list.foldlM (fun s o ↦ do
    let pnode ← p.load o
    body s pnode) s

/-- The loops over the nodes of all lists. -/
def Pool.forEachList (p : Pool) (body : σ → BlkNode → Exec σ) (s : σ) : Exec σ :=
  (List.range p.nblocks).foldlM (fun s i ↦ do
    let list ← p.listAt i
    p.forEachNode body list s) s

/-- The sums that the first two functions make: what the nodes weigh, first those that are
available, then the others. -/
def tally (p : Pool) (weight : BlkNode → Exec ℕ) : Exec (ℕ × ℕ) :=
  p.forEachList (fun s pnode ↦ do
    let k ← weight pnode
    if pnode.isAvail then
      return (wrapSize (s.1 + k), s.2)
    else
      return (s.1, wrapSize (s.2 + k))) (0, 0)

def mpoolStatGetNodes (p : Pool) : Exec (ℕ × ℕ) := tally p fun _ ↦ return 1

def mpoolStatGetBytes (p : Pool) : Exec (ℕ × ℕ) := tally p fun pnode ↦ shiftOne pnode.logsize

def mpoolStatGetBlockLength (p : Pool) (pos : ℕ) : Exec ℕ :=
  if pos ≥ p.nblocks then
    return 0
  else do
    let list ← p.listAt pos
    p.forEachNode (fun length _ ↦ return wrapSize (length + 1)) list 0

def mpoolStatGetSplits (p : Pool) : ℕ := p.nsplits

def mpoolStatGetMerges (p : Pool) : ℕ := p.nmerges

/-- The sum of the lengths of the lists at the positions below `nblocks`. -/
def blockLengthSum (p : Pool) : Exec ℕ :=
  (List.range p.nblocks).foldlM (fun sum pos ↦ do
    let length ← mpoolStatGetBlockLength p pos
    return sum + length) 0

section Walks

variable {p : Pool}

theorem forEachNode_eq {body : σ → BlkNode → Exec σ} {list : List ℕ}
    (h : ∀ o ∈ list, p.load o = .ok (p.mem o)) (s : σ) :
    p.forEachNode body list s = list.foldlM (fun s o ↦ body s (p.mem o)) s := by
  induction list generalizing s with
  | nil => rfl
  | cons o list ih =>
      rw [Pool.forEachNode, List.foldlM_cons, List.foldlM_cons, h o List.mem_cons_self, Exec.ok_bind]
      exact bind_congr fun s' ↦ ih (fun o' ho' ↦ h o' (List.mem_cons_of_mem _ ho')) s'

theorem listAt_eq {pos : ℕ} {list : List ℕ} (h : p.blktable[pos]? = some list) :
    p.listAt pos = .ok list := by
  rw [Pool.listAt, h]

theorem forEachList_eq {body : σ → BlkNode → Exec σ} (hlength : p.blktable.length = p.nblocks)
    (h : ∀ list ∈ p.blktable, ∀ o ∈ list, p.load o = .ok (p.mem o)) (s : σ) :
    p.forEachList body s = p.blktable.flatten.foldlM (fun s o ↦ body s (p.mem o)) s := by
  have hprefix : ∀ i ≤ p.blktable.length, ∀ s, (List.range i).foldlM (fun s i ↦ do
      let list ← p.listAt i
      p.forEachNode body list s) s =
        (p.blktable.take i).flatten.foldlM (fun s o ↦ body s (p.mem o)) s := by
    intro i hi
    induction i with
    | zero => exact fun s ↦ rfl
    | succ i ih =>
        intro s
        have hget : p.blktable[i]? = some p.blktable[i] := List.getElem?_eq_getElem hi
        rw [List.range_succ, List.foldlM_append, ih (Nat.le_of_succ_le hi), List.take_add_one, hget,
          Option.toList_some, List.flatten_append, List.flatten_singleton, List.foldlM_append]
        refine bind_congr fun s' ↦ ?_
        rw [List.foldlM_cons, listAt_eq hget, Exec.ok_bind,
          forEachNode_eq (h _ (List.getElem_mem hi))]
        exact bind_pure _
  rw [Pool.forEachList, ← hlength, hprefix _ le_rfl, List.take_length]

theorem foldlM_tally {weight : BlkNode → Exec ℕ} {g : ℕ → ℕ} {nodes : List ℕ}
    (h : ∀ o ∈ nodes, weight (p.mem o) = .ok (g o)) (avail used : ℕ) :
    nodes.foldlM (fun (s : ℕ × ℕ) o ↦ do
      let k ← weight (p.mem o)
      if (p.mem o).isAvail then
        return (wrapSize (s.1 + k), s.2)
      else
        return (s.1, wrapSize (s.2 + k))) (wrapSize avail, wrapSize used) =
      .ok (wrapSize (avail + ((nodes.filter fun o ↦ (p.mem o).isAvail).map g).sum),
        wrapSize (used + ((nodes.filter fun o ↦ !(p.mem o).isAvail).map g).sum)) := by
  induction nodes generalizing avail used with
  | nil => rfl
  | cons o nodes ih =>
      have hrest := ih fun o' ho' ↦ h o' (List.mem_cons_of_mem _ ho')
      have hwrap : ∀ a, wrapSize (wrapSize a + g o) = wrapSize (a + g o) := fun a ↦
        Nat.mod_add_mod _ _ _
      rw [List.foldlM_cons, h o List.mem_cons_self, Exec.ok_bind, List.filter_cons, List.filter_cons]
      cases (p.mem o).isAvail with
      | true =>
          rw [if_pos rfl, if_pos rfl, if_neg (by decide), Exec.pure_eq_ok, Exec.ok_bind, hwrap, hrest,
            List.map_cons, List.sum_cons, Nat.add_assoc]
      | false =>
          rw [if_neg (by decide), if_neg (by decide), Bool.not_false, if_pos rfl, Exec.pure_eq_ok,
            Exec.ok_bind, hwrap, hrest, List.map_cons, List.sum_cons, Nat.add_assoc]

end Walks

/-! ## The blocks of a tiling -/

section Described

variable {m n : ℕ} {p : Pool} {A : BuddyTiling m n}

def Pool.nodes (p : Pool) : List ℕ := p.blktable.flatten

theorem Describes.mem_nodes (h : Describes p A) {o : ℕ} :
    o ∈ p.nodes ↔ p.blockAt o ∈ A.used ∪ A.free :=
  List.mem_flatten.trans h.listed_iff

theorem Describes.nodup_nodes (h : Describes p A) : p.nodes.Nodup := by
  have hblock : ∀ (i : ℕ) (hi : i < p.blktable.length), ∀ o ∈ p.blktable[i],
      i ≤ n - m ∧ (⟨o, n - i⟩ : Block) ∈ A.used ∪ A.free := fun i hi o ho ↦
    h.lists.exists_block (List.getElem?_eq_getElem hi) ho
  apply List.nodup_flatten.2
  constructor
  · intro list hlist
    obtain ⟨i, hi, rfl⟩ := List.getElem_of_mem hlist
    have hsub : n - (n - i) = i := by
      have hlen := h.lists.length
      omega
    have hnodup := h.lists.nodup (n - i) (Nat.sub_le _ _)
    rwa [Pool.listOf, h.lists.maxlogsize, hsub, List.getD_eq_getElem?_getD,
      List.getElem?_eq_getElem hi] at hnodup
  · apply List.pairwise_iff_getElem.2
    intro i j hi hj hij o hoi hoj
    obtain ⟨hile, hbi⟩ := hblock i hi o hoi
    obtain ⟨hjle, hbj⟩ := hblock j hj o hoj
    -- one header says what the length of the block is
    have hlog : n - i = n - j := (h.headers _ hbi).logsize.symm.trans (h.headers _ hbj).logsize
    omega

theorem Describes.image_nodes (h : Describes p A) :
    (p.nodes.toFinset.image p.blockAt : Set Block) = A.used ∪ A.free := by
  ext b
  rw [Finset.mem_coe, Finset.mem_image]
  constructor
  · intro hb
    obtain ⟨o, ho, rfl⟩ := hb
    exact h.mem_nodes.1 (List.mem_toFinset.1 ho)
  · intro hb
    have heq := h.blockAt_eq hb
    exact ⟨b.off, List.mem_toFinset.2 (h.mem_nodes.2 (heq.symm ▸ hb)), heq⟩

theorem blockAt_injective (p : Pool) : Function.Injective p.blockAt := fun _ _ heq ↦
  congrArg Block.off heq

theorem Describes.sum_nodes (h : Describes p A) :
    (p.nodes.map fun o ↦ 2 ^ (p.mem o).logsize).sum = 2 ^ n := by
  have htiles : Tiles n (p.nodes.toFinset.image p.blockAt : Set Block) := h.image_nodes ▸ A.tiles
  rw [← htiles.sum_length, Finset.sum_image fun o _ o' _ heq ↦ blockAt_injective p heq,
    ← List.sum_toFinset _ h.nodup_nodes]
  rfl

theorem Describes.length_nodes (h : Describes p A) :
    p.nodes.length = (A.used ∪ A.free).ncard := by
  rw [← h.image_nodes, Set.ncard_coe_finset, Finset.card_image_of_injective _ (blockAt_injective p),
    List.toFinset_card_of_nodup h.nodup_nodes]

theorem Describes.length_nodes_lt (h : Describes p A) : p.nodes.length < sizeModulus := by
  have hle : p.nodes.length ≤ 2 ^ n := by
    have hone : ∀ k ∈ p.nodes.map fun o ↦ 2 ^ (p.mem o).logsize, 1 ≤ k := by
      intro k hk
      obtain ⟨o, _, rfl⟩ := List.mem_map.1 hk
      exact Nat.one_le_two_pow
    have hcount := List.length_le_sum_of_one_le _ hone
    rwa [List.length_map, h.sum_nodes] at hcount
  have hpow : 2 ^ n ≤ 2 ^ 30 := Nat.pow_le_pow_right two_pos h.lists.maxFits
  unfold sizeModulus
  omega

theorem Describes.used_perm (h : Describes p A) {live : List Allocation} (hlive : Owned A live) :
    (p.nodes.filter fun o ↦ !(p.mem o).isAvail).Perm
      (live.map fun a ↦ a.ptr - sizeofBlkNode) := by
  apply (List.perm_ext_iff_of_nodup (h.nodup_nodes.filter _) ?_).2
  · intro o
    rw [List.mem_filter, h.mem_nodes, List.mem_map]
    constructor
    · intro ho
      obtain ⟨hblock, hused⟩ := ho
      rcases hblock with hu | hf
      · obtain ⟨a, ha, hptr⟩ := hlive.owner _ hu
        exact ⟨a, ha, by rw [hptr]; exact Nat.add_sub_cancel ..⟩
      · have havail : (p.mem o).isAvail = true := h.free _ hf
        rw [havail] at hused
        exact absurd hused (by decide)
    · intro ha
      obtain ⟨a, ha, rfl⟩ := ha
      obtain ⟨b, hb, hptr, _⟩ := hlive.block a ha
      rw [hptr, Nat.add_sub_cancel, h.blockAt_eq (.inl hb), h.used b hb]
      exact ⟨.inl hb, rfl⟩
  · apply (List.Nodup.of_map _ hlive.nodup).map_on
    intro a ha a' ha' heq
    obtain ⟨b, _, hptr, _⟩ := hlive.block a ha
    obtain ⟨b', _, hptr', _⟩ := hlive.block a' ha'
    exact List.inj_on_of_nodup_map hlive.nodup ha ha' (by omega)

theorem Describes.tally_eq (h : Describes p A) {weight : BlkNode → Exec ℕ} {g : ℕ → ℕ}
    (hweight : ∀ o ∈ p.nodes, weight (p.mem o) = .ok (g o)) :
    tally p weight =
      .ok (wrapSize ((p.nodes.filter fun o ↦ (p.mem o).isAvail).map g).sum,
        wrapSize ((p.nodes.filter fun o ↦ !(p.mem o).isAvail).map g).sum) := by
  have hlength : p.blktable.length = p.nblocks := h.lists.length.trans h.lists.nblocks.symm
  have hsums := foldlM_tally hweight 0 0
  rw [Nat.zero_add, Nat.zero_add] at hsums
  rw [tally, forEachList_eq hlength (h.lists.searchable A.tiles h.headers).readable]
  exact hsums

theorem sum_filter_add (p : Pool) (g : ℕ → ℕ) :
    ((p.nodes.filter fun o ↦ (p.mem o).isAvail).map g).sum +
      ((p.nodes.filter fun o ↦ !(p.mem o).isAvail).map g).sum = (p.nodes.map g).sum := by
  rw [← List.sum_append, ← List.map_append]
  exact ((List.filter_append_perm _ _).map g).sum_eq

theorem Describes.tally_live (h : Describes p A) {live : List Allocation} (hlive : Owned A live)
    (weight : BlkNode → Exec ℕ) {g : ℕ → ℕ}
    (hweight : ∀ o ∈ p.nodes, weight (p.mem o) = .ok (g o))
    (hsum : (p.nodes.map g).sum < sizeModulus) :
    ∃ avail used, tally p weight = .ok (avail, used) ∧ avail + used = (p.nodes.map g).sum ∧
      used = (live.map fun a ↦ g (a.ptr - sizeofBlkNode)).sum := by
  have hadd := sum_filter_add p g
  have hused := ((h.used_perm hlive).map g).sum_eq
  rw [List.map_map] at hused
  refine ⟨_, _, ?_, hadd, hused⟩
  rw [h.tally_eq hweight, wrapSize_of_lt (by omega), wrapSize_of_lt (by omega)]

/-- `mpool_stat_get_bytes` returns the length of the pool, divided among the free blocks and those
of the live allocations. -/
theorem Describes.bytes_live (h : Describes p A) {live : List Allocation} (hlive : Owned A live) :
    ∃ avail used, mpoolStatGetBytes p = .ok (avail, used) ∧ avail + used = 2 ^ n ∧
      used = (live.map fun a ↦ 2 ^ (p.mem (a.ptr - sizeofBlkNode)).logsize).sum := by
  have hweight : ∀ o ∈ p.nodes, shiftOne (p.mem o).logsize = .ok (2 ^ (p.mem o).logsize) := by
    intro o ho
    obtain ⟨l, hl, hol⟩ := List.mem_flatten.1 ho
    exact shiftOne_of_le ((h.lists.searchable A.tiles h.headers).small l hl o hol)
  have hlt : 2 ^ n < sizeModulus := by
    have hpow : 2 ^ n ≤ 2 ^ 30 := Nat.pow_le_pow_right two_pos h.lists.maxFits
    unfold sizeModulus
    omega
  rw [← h.sum_nodes] at hlt ⊢
  exact h.tally_live hlive (fun pnode ↦ shiftOne pnode.logsize) hweight hlt

theorem Describes.nodes_live (h : Describes p A) {live : List Allocation} (hlive : Owned A live) :
    ∃ avail used, mpoolStatGetNodes p = .ok (avail, used) ∧ avail + used = p.nodes.length ∧
      used = live.length := by
  have hone : ∀ l : List ℕ, (l.map fun _ ↦ 1).sum = l.length := fun l ↦ by simp
  have hlt := h.length_nodes_lt
  rw [← hone] at hlt ⊢
  obtain ⟨avail, used, htally, hall, hused⟩ := h.tally_live hlive (fun _ ↦ return 1) (fun _ _ ↦ rfl) hlt
  refine ⟨avail, used, htally, hall, hused.trans ?_⟩
  simp

/-- A list that a position below `nblocks` leads to has as many nodes as
`mpool_stat_get_block_length` returns. -/
theorem Describes.blockLength_eq (h : Describes p A) {pos : ℕ} {list : List ℕ}
    (hlist : p.blktable[pos]? = some list) : mpoolStatGetBlockLength p pos = .ok list.length := by
  have hlength : p.blktable.length = p.nblocks := h.lists.length.trans h.lists.nblocks.symm
  have hlt : pos < p.blktable.length := (List.getElem?_eq_some_iff.1 hlist).1
  have hmem : list ∈ p.blktable := List.mem_of_getElem? hlist
  have hshort : list.length < sizeModulus :=
    (List.sublist_flatten_of_mem hmem).length_le.trans_lt h.length_nodes_lt
  have hcount := foldl_wrapSize list 0
  rw [Nat.zero_add, wrapSize_of_lt hshort] at hcount
  rw [mpoolStatGetBlockLength, if_neg (Nat.not_le_of_lt (hlength ▸ hlt)), listAt_eq hlist,
    Exec.ok_bind, forEachNode_eq ((h.lists.searchable A.tiles h.headers).readable _ hmem)]
  exact (List.foldlM_pure ..).trans (congrArg Except.ok hcount)

theorem Describes.blockLengthSum_eq (h : Describes p A) :
    blockLengthSum p = .ok p.nodes.length := by
  have hlength : p.blktable.length = p.nblocks := h.lists.length.trans h.lists.nblocks.symm
  have hpos : ∀ pos ∈ List.range p.nblocks,
      mpoolStatGetBlockLength p pos = .ok (p.blktable.getD pos []).length := by
    intro pos hpos
    have hget : p.blktable[pos]? = some (p.blktable.getD pos []) := by
      have hlt : pos < p.blktable.length := hlength ▸ List.mem_range.1 hpos
      rw [List.getD_eq_getElem?_getD, List.getElem?_eq_getElem hlt, Option.getD_some]
    exact h.blockLength_eq hget
  have hlists : ((List.range p.nblocks).map fun pos ↦ (p.blktable.getD pos []).length) =
      p.blktable.map List.length := by
    apply List.ext_getElem
    · rw [List.length_map, List.length_range, List.length_map, hlength]
    · intro pos hlt _
      rw [List.length_map, List.length_range, ← hlength] at hlt
      rw [List.getElem_map, List.getElem_map, List.getElem_range, List.getD_eq_getElem?_getD,
        List.getElem?_eq_getElem hlt, Option.getD_some]
  rw [blockLengthSum, Exec.foldlM_add hpos, hlists, Nat.zero_add, Pool.nodes, List.length_flatten]

end Described

/-! ## Accounting -/

/-- What the statistics of a state say. -/
structure Accounts (maxlogsize : ℕ) (s : PoolState) : Prop where
  bytes : ∃ avail used, mpoolStatGetBytes s.pool = .ok (avail, used) ∧
    avail + used = 2 ^ maxlogsize ∧
    used = (s.live.map fun a ↦ 2 ^ (s.pool.mem (a.ptr - sizeofBlkNode)).logsize).sum
  nodes : ∃ avail used, mpoolStatGetNodes s.pool = .ok (avail, used) ∧ used = s.live.length ∧
    avail + used =
      subSize (wrapSize (1 + mpoolStatGetSplits s.pool)) (mpoolStatGetMerges s.pool) ∧
    blockLengthSum s.pool = .ok (avail + used)
  idle : s.live = [] → mpoolStatGetSplits s.pool = mpoolStatGetMerges s.pool

section Accounting

variable {allow : Pool → ℕ → Prop} {m n : ℕ} {s t : PoolState}

theorem Inv.counted_step (h : Inv m n s) (hcount : Counted s.pool s.pool.nodes.length)
    (hstep : Step allow s t) : Counted t.pool t.pool.nodes.length := by
  obtain ⟨A, hp, hlive⟩ := h
  cases hstep with
  | alloc blksize hsize hallow hrun =>
      rcases mpoolAlloc_spec hp blksize with ⟨hnull, _⟩ | ⟨p', b, A', hsome, hp', _, _, _, hkeep⟩
      · rw [hnull] at hrun
        cases hrun
      · rw [hsome] at hrun
        cases hrun
        exact hp'.length_nodes ▸ hkeep (hp.length_nodes ▸ hcount)
  | refused blksize hsize hallow hrun =>
      rcases mpoolAlloc_spec hp blksize with ⟨hnull, _⟩ | ⟨p', b, A', hsome, _⟩
      · rw [hnull] at hrun
        cases hrun
        exact hcount
      · rw [hsome] at hrun
        cases hrun
  | free a ha hrun =>
      obtain ⟨b, hb, hptr, _⟩ := hlive.block a ha
      obtain ⟨p', A', hfree, hp', _, hkeep⟩ := mpoolFree_spec hp hb
      rw [hptr, hfree] at hrun
      cases hrun
      exact hp'.length_nodes ▸ hkeep (hp.length_nodes ▸ hcount)
  | write mem hmem => exact hcount.of_eq rfl rfl

/-- In every run the counters account for the nodes. -/
theorem Reach.counted (h : Reach allow n m s) : Counted s.pool s.pool.nodes.length := by
  induction h with
  | init mallocs garbage h =>
      obtain ⟨hle, hmax, hfits, rfl⟩ := mpoolInit_ok h
      have hone : (freshPool garbage n m).nodes.length = 1 := by
        rw [(freshPool_describes garbage hle hmax hfits).length_nodes]
        simp [BuddyTiling.fresh]
      rw [hone]
      exact ⟨(by decide : 0 < sizeModulus), (by decide : 0 < sizeModulus), rfl⟩
  | step hs hstep ih => exact hs.inv.counted_step ih hstep

theorem Counted.eq_subSize {p : Pool} {k : ℕ} (h : Counted p k) (hk : k < sizeModulus) :
    k = subSize (wrapSize (1 + p.nsplits)) p.nmerges := by
  have hsplits := h.nsplits
  have hmerges := h.nmerges
  have hbalance := h.balance
  unfold subSize
  unfold wrapSize sizeModulus at *
  split <;> omega

theorem Inv.nsplits_eq (h : Inv m n s) (hcount : Counted s.pool s.pool.nodes.length)
    (hnone : s.live = []) : s.pool.nsplits = s.pool.nmerges := by
  obtain ⟨A, hp, hlive⟩ := h
  obtain ⟨hused, hfree⟩ := (hnone ▸ hlive).free_of_nil
  rw [hp.length_nodes, hused, hfree, Set.empty_union, Set.ncard_singleton] at hcount
  have hsplits := hcount.nsplits
  have hmerges := hcount.nmerges
  have hbalance := hcount.balance
  unfold wrapSize sizeModulus at *
  omega

/-- In every state that a run reaches, the statistics account for the memory, for the live
allocations and for the blocks. -/
theorem reach_accounts {maxlogsize minlogsize : ℕ} (h : Reach anyRequest maxlogsize minlogsize s) :
    Accounts maxlogsize s := by
  have hcount := h.counted
  have hidle := h.inv.nsplits_eq hcount
  obtain ⟨A, hp, hlive⟩ := h.inv
  obtain ⟨avail, used, htally, hall, hused⟩ := hp.nodes_live hlive
  refine ⟨hp.bytes_live hlive, ⟨avail, used, htally, hused, ?_, ?_⟩, hidle⟩
  · rw [hall]
    exact hcount.eq_subSize hp.length_nodes_lt
  · rw [hall, hp.blockLengthSum_eq]

/-- Two requests in a pool of 128 bytes, the first of which splits it. -/
theorem smallPool_accounts : ∃ p q, mpoolAlloc smallPool 20 = .ok (p, some 40) ∧
    mpoolAlloc p 20 = .ok (q, some 104) ∧ Accounts 7 ⟨q, [⟨104, 20⟩, ⟨40, 20⟩]⟩ := by
  have hsize : 20 < sizeModulus := by decide
  have hfirst := (smallPool_reach anyRequest).step (.alloc 20 hsize trivial rfl)
  have hsecond := hfirst.step (.alloc 20 hsize trivial rfl)
  exact ⟨_, _, rfl, rfl, reach_accounts hsecond⟩

end Accounting

end Experimentation.Buddy
