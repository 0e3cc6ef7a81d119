import Experimentation.Buddy.ListRefinement

/-!
# Runs of the linked pool

Every run of the pool whose lists are made of links is a run of the pool whose lists are sequences,
with the same answers; no call follows a stale link, leaves the pool or walks in circles.  What a
call writes lies in headers of blocks that are on the lists before or after it, so the bytes of
every live allocation are as they were.
-/

namespace Experimentation.Buddy

open DyadicTiling Semantics
open TailQueue (Slot)

variable {m n : ℕ} {p : Pool} {l : LinkedPool}

theorem Lists.nodeSet_eq {S : Set Block} (h : Lists m n p S) : p.nodeSet = Block.off '' S := by
  apply Set.Subset.antisymm
  · rintro o ⟨i, ho⟩
    rw [Pool.offsAt, List.getD_eq_getElem?_getD] at ho
    cases hl : p.blktable[i]? with
    | none =>
        rw [hl] at ho
        cases ho
    | some ns =>
        rw [hl] at ho
        exact ⟨_, (h.exists_block hl ho).2, rfl⟩
  · rintro o ⟨b, hb, rfl⟩
    obtain ⟨ns, hl, hmem⟩ := h.exists_list hb
    refine ⟨n - b.log, ?_⟩
    rw [Pool.offsAt, List.getD_eq_getElem?_getD, hl]
    exact hmem

theorem Lists.pos_lt {S : Set Block} (h : Lists m n p S) {k : ℕ} (hk : m ≤ k) :
    n - k < p.blktable.length := by
  have hle := h.le
  rw [h.length]
  omega

namespace LinkedPool.Refines

theorem not_mem_nodeSet_listRemove (h : l.Refines p) (o : ℕ) : o ∉ (p.listRemove o).nodeSet := by
  rintro ⟨i, ho⟩
  rw [offsAt_listRemove] at ho
  exact (h.holds.nodup i).not_mem_erase ho

theorem load_open {O : OpenTiling m n} (h : l.Refines p) (hp : DescribesOpen p O) :
    l.load O.cur.off = .ok (l.mem O.cur.off) := by
  refine LinkedPool.load_eq (h.room ?_)
  exact hp.lists.header_fits hp.le_cur_log (O.tiles.inside _ (Set.mem_insert _ _))

theorem cur_mem_nodeSet {O : OpenTiling m n} (hp : DescribesOpen p O) : O.cur.off ∈ p.nodeSet := by
  rw [hp.lists.nodeSet_eq]
  exact ⟨O.cur, Set.mem_insert _ _, rfl⟩

theorem storeNode (h : l.Refines p) {o : ℕ} (ho : o ∈ p.nodeSet) (x : BlkNode) :
    ∃ l', l.store o x = .ok l' ∧ l'.Refines (p.write o x) ∧
      ∀ i ∉ p.nodeSet, l'.mem i = l.mem i := by
  obtain ⟨l', hrun, hl', hsame⟩ := h.store (h.inside o ho) x
  exact ⟨l', hrun, hl', fun i hi ↦ hsame i fun heq ↦ hi (heq ▸ ho)⟩

/-- Writing a node that is on no list and putting it in front of one. -/
theorem link (h : l.Refines p) {o : ℕ} (pos : ℕ) (ho : o + sizeofBlkNode ≤ p.bytes)
    (hpos : pos < p.blktable.length) (hfresh : o ∉ p.nodeSet) (x : BlkNode) :
    ∃ l₁ l', l.store o x = .ok l₁ ∧ l₁.maxlogsize = p.maxlogsize ∧
      l₁.insertHead pos o = .ok l' ∧ l'.Refines ((p.write o x).push pos o) ∧
      ∀ i ∉ insert o p.nodeSet, l'.mem i = l.mem i := by
  obtain ⟨l₁, hrun₁, h₁, hsame₁⟩ := h.store ho x
  obtain ⟨l', hrun, h', hsame⟩ := h₁.insertHead pos hpos ho hfresh
  refine ⟨l₁, l', hrun₁, h₁.maxlogsize, hrun, h', fun i hi ↦ ?_⟩
  calc l'.mem i = l₁.mem i := hsame i hi
    _ = l.mem i := hsame₁ i fun heq ↦ hi (.inl heq)

/-! ## Allocation -/

section Alloc

variable {O : OpenTiling m n}

theorem right_not_mem_nodeSet (hp : DescribesOpen p O) (hlog : m < O.cur.log) :
    O.cur.right.off ∉ p.nodeSet := by
  rw [hp.lists.nodeSet_eq]
  rintro ⟨c, rfl | hc, hoff⟩
  · exact (Nat.lt_add_of_pos_right (Nat.two_pow_pos _)).ne hoff
  · exact O.off_ne_right hlog hc hoff

theorem nodeSet_halved (hp : DescribesOpen p O) (hlog : m < O.cur.log) :
    (p.halved O.cur).nodeSet = insert O.cur.right.off p.nodeSet := by
  rw [hp.lists.nodeSet_eq, (splitBlock_eq hp hlog).2.nodeSet_eq, Set.image_insert_eq,
    Set.image_insert_eq, Set.image_insert_eq]
  rfl

/-- One turn of the split loop. -/
theorem splitBlock (h : l.Refines p) (hp : DescribesOpen p O) (hlog : m < O.cur.log) :
    ∃ l', l.splitBlock O.cur.off (l.mem O.cur.off) (O.cur.log - 1) = .ok l' ∧
      l'.Refines (p.halved O.cur) ∧ ∀ i ∉ (p.halved O.cur).nodeSet, l'.mem i = l.mem i := by
  have hpos : 0 < O.cur.log := hp.cur_log_pos
  have hlo : m ≤ O.cur.left.log := Nat.le_sub_one_of_lt hlog
  have hhi : O.cur.left.log ≤ n := (Nat.sub_le _ _).trans O.cur_log_le
  have hstop := O.tiles.inside _ (Set.mem_insert _ _)
  have hleftRoom := hp.lists.header_fits (b := O.cur.left) hlo
    ((Block.left_within hpos).2.trans hstop)
  have hrightRoom := hp.lists.header_fits (b := O.cur.right) hlo
    ((Block.right_within hpos).2.trans hstop)
  have hlen : p.maxlogsize - O.cur.left.log < p.blktable.length := by
    rw [hp.lists.maxlogsize]
    exact hp.lists.pos_lt hlo
  have hnewpos : subSize p.maxlogsize O.cur.left.log = p.maxlogsize - O.cur.left.log :=
    subSize_of_le (hp.lists.maxlogsize ▸ hhi)
  let p₀ : Pool := { p with nsplits := wrapSize (p.nsplits + 1) }
  let l₀ : LinkedPool := { l with nsplits := wrapSize (l.nsplits + 1) }
  have h₀ : l₀.Refines p₀ := by
    refine h.of_links ?_ rfl rfl rfl rfl
    rw [show p₀ = { l.toPool p.blktable with nsplits := wrapSize (l.nsplits + 1) } by
      rw [h.toPool, show l.nsplits = p.nsplits from congrArg Pool.nsplits h.toPool]]
    rfl
  have hcur : O.cur.off ∈ p₀.nodeSet := cur_mem_nodeSet (p := p) hp
  obtain ⟨l₁, hrun₁, h₁, hsame₁⟩ := h₀.listRemove hcur
  -- the lower half
  obtain ⟨l₂, l₃, hrun₂, hmax₂, hrun₃, h₃, hsame₃⟩ := h₁.link (o := O.cur.left.off)
    (p.maxlogsize - O.cur.left.log) hleftRoom (by simpa using hlen)
    (h₀.not_mem_nodeSet_listRemove O.cur.off) (shrunkNode (p.mem O.cur.off) O.cur.left.log)
  let p₃ := ((p₀.listRemove O.cur.off).write O.cur.left.off
    (shrunkNode (p.mem O.cur.off) O.cur.left.log)).push (p.maxlogsize - O.cur.left.log)
    O.cur.left.off
  have hlisted₃ : p₃.nodeSet ⊆ p.nodeSet := by
    refine (nodeSet_push (by simpa using hlen)).trans (Set.insert_subset (cur_mem_nodeSet hp) ?_)
    exact nodeSet_listRemove p₀ O.cur.off
  -- the upper half
  obtain ⟨l₄, l₅, hrun₄, _, hrun₅, h₅, hsame₅⟩ := h₃.link (o := O.cur.right.off)
    (p.maxlogsize - O.cur.left.log) hrightRoom (by simpa [p₀] using hlen)
    (fun hmem ↦ right_not_mem_nodeSet hp hlog (hlisted₃ hmem))
    (newNode (p₃.mem O.cur.right.off) O.cur.right.off (p.mem O.cur.off) O.cur.right.log)
  refine ⟨l₅, ?_, h₅, fun i hi ↦ ?_⟩
  · have hold : l₃.load O.cur.right.off = .ok (l₃.mem O.cur.right.off) :=
      LinkedPool.load_eq (h₃.room hrightRoom)
    calc l.splitBlock O.cur.off (l.mem O.cur.off) O.cur.left.log
        = (l₀.listRemove O.cur.off >>= fun k ↦
            k.store O.cur.left.off (shrunkNode (l.mem O.cur.off).toBlkNode O.cur.left.log) >>=
            fun k ↦ k.insertHead (subSize k.maxlogsize O.cur.left.log) O.cur.left.off >>= fun k' ↦
            shiftOne O.cur.left.log >>= fun length ↦ k'.load (O.cur.off + length) >>= fun old ↦
            k'.store (O.cur.off + length) (newNode old.toBlkNode (O.cur.off + length)
              (l.mem O.cur.off).toBlkNode O.cur.left.log) >>= fun k'' ↦
            k''.insertHead (subSize k.maxlogsize O.cur.left.log) (O.cur.off + length)) := rfl
      _ = l₃.load O.cur.right.off >>= fun old ↦
            l₃.store O.cur.right.off (newNode old.toBlkNode O.cur.right.off (p.mem O.cur.off)
              O.cur.right.log) >>= fun k'' ↦
            k''.insertHead (p.maxlogsize - O.cur.left.log) O.cur.right.off := by
          have hmax : l₂.maxlogsize = p.maxlogsize := hmax₂
          rw [hrun₁, Exec.ok_bind, h.mem, hrun₂, Exec.ok_bind, hmax, hnewpos, hrun₃, Exec.ok_bind,
            hp.lists.shift_eq hhi, Exec.ok_bind]
          rfl
      _ = .ok l₅ := by
          rw [hold, Exec.ok_bind, h₃.mem, hrun₄, Exec.ok_bind, hrun₅]
  · rw [nodeSet_halved hp hlog] at hi
    have hi' : i ∉ p.nodeSet := fun hmem ↦ hi (.inr hmem)
    calc l₅.mem i = l₃.mem i := hsame₅ i fun hmem ↦ hi (hmem.imp_right (hlisted₃ ·))
      _ = l₁.mem i := hsame₃ i fun hmem ↦ hi' <| hmem.elim (fun heq ↦ heq ▸ cur_mem_nodeSet hp)
          (nodeSet_listRemove p₀ O.cur.off ·)
      _ = l.mem i := hsame₁ i hi'

theorem markAndReturn (h : l.Refines p) (hp : DescribesOpen p O) :
    ∃ l', l.markAndReturn O.cur.off = .ok (l', O.cur.off + sizeofBlkNode) ∧
      l'.Refines (p.write O.cur.off (p.mem O.cur.off).markUsed) ∧
      ∀ i ∉ p.nodeSet, l'.mem i = l.mem i := by
  obtain ⟨l', hrun, hl', hsame⟩ := h.storeNode (cur_mem_nodeSet hp) (p.mem O.cur.off).markUsed
  refine ⟨l', ?_, hl', hsame⟩
  rw [LinkedPool.markAndReturn, h.load_open hp, Exec.ok_bind, h.mem, hrun, Exec.ok_bind,
    hp.cur_header.ptr]
  rfl

/-- When the split loop stops. -/
def StopsAt (m size k : ℕ) : Prop := size = 2 ^ (k + 1) ∨ 2 ^ k < size ∨ k < m

theorem allocAgain_stop {k size : ℕ} (h : l.Refines p) (hp : DescribesOpen p O)
    (hk : O.cur.log = k + 1) (hstop : StopsAt m size k) :
    LinkedPool.allocAgain size O.cur.off (k + 1) l = l.markAndReturn O.cur.off ∧
      Buddy.allocAgain size O.cur.off (k + 1) p = Buddy.markAndReturn p O.cur.off := by
  have hhi : k + 1 ≤ n := hk ▸ O.cur_log_le
  rw [LinkedPool.allocAgain, Buddy.allocAgain, h.load_open hp, hp.load_cur, Exec.ok_bind,
    Exec.ok_bind,
    hp.lists.shift_eq hhi, Exec.ok_bind, Exec.ok_bind, hp.lists.shift_eq (Nat.le_of_succ_le hhi),
    Exec.ok_bind, Exec.ok_bind, h.minlogsize, hp.lists.minlogsize]
  by_cases hfull : size = 2 ^ (k + 1)
  · rw [if_pos hfull, if_pos hfull]
    exact ⟨rfl, rfl⟩
  · have hrest := hstop.resolve_left hfull
    rw [if_neg hfull, if_neg hfull, if_pos hrest, if_pos hrest]
    exact ⟨rfl, rfl⟩

theorem allocAgain_split {k size : ℕ} (h : l.Refines p) (hp : DescribesOpen p O)
    (hk : O.cur.log = k + 1) (hstop : ¬ StopsAt m size k) :
    LinkedPool.allocAgain size O.cur.off (k + 1) l =
        (l.splitBlock O.cur.off (l.mem O.cur.off) (O.cur.log - 1) >>=
          LinkedPool.allocAgain size O.cur.off k) ∧
      Buddy.allocAgain size O.cur.off (k + 1) p =
        Buddy.allocAgain size O.cur.off k (p.halved O.cur) := by
  have hhi : k + 1 ≤ n := hk ▸ O.cur_log_le
  obtain ⟨hfull, hrest⟩ := not_or.1 hstop
  have hlog : m < O.cur.log := by
    have hle := (not_or.1 hrest).2
    omega
  have hsplit := (splitBlock_eq hp hlog).1
  rw [hk, Nat.add_sub_cancel] at hsplit
  rw [LinkedPool.allocAgain, Buddy.allocAgain, h.load_open hp, hp.load_cur, Exec.ok_bind,
    Exec.ok_bind,
    hp.lists.shift_eq hhi, Exec.ok_bind, Exec.ok_bind, hp.lists.shift_eq (Nat.le_of_succ_le hhi),
    Exec.ok_bind, Exec.ok_bind, h.minlogsize, hp.lists.minlogsize, if_neg hfull, if_neg hfull,
    if_neg hrest, if_neg hrest, hsplit, hk]
  exact ⟨rfl, rfl⟩

/-- The split loop.  The induction is on the length of the open block. -/
theorem allocAgain (size : ℕ) (h : l.Refines p) (hp : DescribesOpen p O) {k : ℕ}
    (hk : O.cur.log = k) :
    ∃ l' p' ptr, LinkedPool.allocAgain size O.cur.off k l = .ok (l', ptr) ∧
      Buddy.allocAgain size O.cur.off k p = .ok (p', ptr) ∧ l'.Refines p' ∧
      p.nodeSet ⊆ p'.nodeSet ∧ ∀ i ∉ p'.nodeSet, l'.mem i = l.mem i := by
  induction k generalizing p l O with
  | zero => exact absurd hp.cur_log_pos (by omega)
  | succ k ih =>
      by_cases hstop : StopsAt m size k
      · obtain ⟨hrun, hrun'⟩ := h.allocAgain_stop hp hk hstop
        obtain ⟨l', hmark, hl', hsame⟩ := h.markAndReturn hp
        exact ⟨l', _, _, hrun.trans hmark, hrun'.trans (markAndReturn_eq hp), hl', subset_rfl,
          hsame⟩
      · obtain ⟨hrun, hrun'⟩ := h.allocAgain_split hp hk hstop
        have hlog : m < O.cur.log := by
          have hle := (not_or.1 (not_or.1 hstop).2).2
          omega
        obtain ⟨l₁, hsplit, h₁, hsame₁⟩ := h.splitBlock hp hlog
        have hcur : (O.split hlog).cur.log = k := by
          change O.cur.log - 1 = k
          omega
        obtain ⟨l', p', ptr, hloop, hloop', hl', hlisted, hsame⟩ :=
          ih h₁ (hp.halved hlog) hcur
        have hhalf : p.nodeSet ⊆ (p.halved O.cur).nodeSet := by
          rw [nodeSet_halved hp hlog]
          exact Set.subset_insert _ _
        refine ⟨l', p', ptr, ?_, hrun'.trans hloop', hl', hhalf.trans hlisted, fun i hi ↦ ?_⟩
        · rw [hrun, hsplit, Exec.ok_bind]
          exact hloop
        · exact (hsame i hi).trans (hsame₁ i fun hmem ↦ hi (hlisted hmem))

/-- `mpool_alloc` returns the same at both levels, and writes only headers of blocks that are on the
lists afterwards. -/
theorem mpoolAlloc {A : BuddyTiling m n} (h : l.Refines p) (hp : Describes p A) (blksize : ℕ) :
    ∃ l' p' r, l.mpoolAlloc blksize = .ok (l', r) ∧ Buddy.mpoolAlloc p blksize = .ok (p', r) ∧
      l'.Refines p' ∧ ∀ i ∉ p'.nodeSet, l'.mem i = l.mem i := by
  rw [LinkedPool.mpoolAlloc, Buddy.mpoolAlloc, h.search]
  rcases hp.search (wrapSize (blksize + sizeofBlkNode)) with ⟨hnone, _⟩ | ⟨b, hb, hfound, _⟩
  · rw [hnone]
    exact ⟨l, p, none, rfl, rfl, h, fun _ _ ↦ rfl⟩
  · have hopen := hp.take hb
    have hlog : (p.mem b.off).logsize = b.log := (hp.headers b (.inr hb)).logsize
    obtain ⟨l', p', ptr, hrun, hrun', hl', _, hsame⟩ :=
      h.allocAgain (wrapSize (blksize + sizeofBlkNode)) hopen (k := b.log) rfl
    have hload : l.load b.off = .ok (l.mem b.off) := h.load_open hopen
    have hload' : p.load b.off = .ok (p.mem b.off) := hopen.load_cur
    have hlog' : (l.mem b.off).logsize = b.log := by
      rw [h.mem]
      exact hlog
    refine ⟨l', p', some ptr, ?_, ?_, hl', hsame⟩
    · rw [hfound, Exec.ok_bind]
      change (l.load b.off >>= fun n ↦ LinkedPool.allocAgain _ b.off n.logsize l >>= fun r ↦
        .ok (r.1, some r.2)) = _
      rw [hload, Exec.ok_bind, hlog']
      change (LinkedPool.allocAgain _ (A.take b hb).cur.off b.log l >>= _) = _
      rw [hrun]
      rfl
    · rw [hfound, Exec.ok_bind]
      change (p.load b.off >>= fun n ↦ Buddy.allocAgain _ b.off n.logsize p >>= fun r ↦
        .ok (r.1, some r.2)) = _
      rw [hload', Exec.ok_bind, hlog]
      change (Buddy.allocAgain _ (A.take b hb).cur.off b.log p >>= _) = _
      rw [hrun']
      rfl

end Alloc

/-! ## Release -/

section Free

variable {O : OpenTiling m n}

theorem parent_off_eq (hal : O.cur.Aligned) :
    O.cur.parent.off = O.cur.off ∨ O.cur.parent.off = O.cur.buddy.off := by
  cases hr : O.cur.isRight with
  | true =>
      exact .inr (show O.cur.parent.left.off = _ from
        congrArg Block.off (hal.halves_parent_of_right hr).2)
  | false =>
      exact .inl (show O.cur.parent.left.off = _ from
        congrArg Block.off (hal.halves_parent_of_left hr).1)

theorem coalesce (h : l.Refines p) (hp : DescribesOpen p O) (hlog : O.cur.log < n)
    (hfree : O.cur.buddy ∈ O.free) :
    ∃ l', l.coalesce O.cur.off (l.mem O.cur.off) O.cur.buddy.off (l.mem O.cur.buddy.off) =
        .ok (l', some O.cur.parent.off) ∧ l'.Refines (p.joined O.cur) ∧
      ∀ i ∉ p.nodeSet, l'.mem i = l.mem i := by
  have hlo : m ≤ O.cur.parent.log := hp.le_cur_log.trans (Nat.le_succ _)
  have hwrap : wrapSize ((l.mem O.cur.off).logsize + 1) = O.cur.parent.log := by
    have hn := hp.lists.maxFits
    rw [h.mem, hp.cur_header.logsize]
    exact wrapSize_of_lt (by unfold sizeModulus; omega)
  have hnewpos : subSize p.maxlogsize O.cur.parent.log = p.maxlogsize - O.cur.parent.log :=
    subSize_of_le (hp.lists.maxlogsize ▸ hlog)
  have hbuddy : O.cur.buddy.off ∈ p.nodeSet := by
    rw [hp.lists.nodeSet_eq]
    exact ⟨O.cur.buddy, .inr (.inr hfree), rfl⟩
  have hne : O.cur.buddy.off ≠ O.cur.off := O.off_ne_cur (.inr hfree)
  have hparent : O.cur.parent.off ∈ p.nodeSet := by
    rcases parent_off_eq O.cur_aligned with heq | heq
    · exact heq ▸ cur_mem_nodeSet hp
    · exact heq ▸ hbuddy
  let p₀ : Pool := { p with nmerges := wrapSize (p.nmerges + 1) }
  let l₀ : LinkedPool := { l with nmerges := wrapSize (l.nmerges + 1) }
  have h₀ : l₀.Refines p₀ := by
    refine h.of_links ?_ rfl rfl rfl rfl
    rw [show p₀ = { l.toPool p.blktable with nmerges := wrapSize (l.nmerges + 1) } by
      rw [h.toPool, show l.nmerges = p.nmerges from congrArg Pool.nmerges h.toPool]]
    rfl
  -- both halves are unlinked
  have hcur : O.cur.off ∈ p₀.nodeSet := cur_mem_nodeSet (p := p) hp
  obtain ⟨l₁, hrun₁, h₁, hsame₁⟩ := h₀.listRemove hcur
  have hbuddy₁ : O.cur.buddy.off ∈ (p₀.listRemove O.cur.off).nodeSet := by
    obtain ⟨i, hi⟩ := hbuddy
    refine ⟨i, ?_⟩
    rw [offsAt_listRemove]
    exact (List.mem_erase_of_ne hne).2 hi
  obtain ⟨l₂, hrun₂, h₂, hsame₂⟩ := h₁.listRemove hbuddy₁
  have hfresh : O.cur.parent.off ∉
      ((p₀.listRemove O.cur.off).listRemove O.cur.buddy.off).nodeSet := by
    rcases parent_off_eq O.cur_aligned with heq | heq
    · rw [heq]
      exact fun hmem ↦ h₀.not_mem_nodeSet_listRemove O.cur.off (nodeSet_listRemove _ _ hmem)
    · rw [heq]
      exact h₁.not_mem_nodeSet_listRemove O.cur.buddy.off
  have hlen : p.maxlogsize - O.cur.parent.log < p.blktable.length := by
    rw [hp.lists.maxlogsize]
    exact hp.lists.pos_lt hlo
  -- and the joined block is linked
  obtain ⟨l₃, l', hrun₃, hmax₃, hrun', h', hsame'⟩ := h₂.link (o := O.cur.parent.off)
    (p.maxlogsize - O.cur.parent.log) (h.inside _ hparent) (by simpa [p₀] using hlen) hfresh
    { mergedNode (p.mem O.cur.parent.left.off) (p.mem O.cur.parent.right.off) with
      logsize := O.cur.parent.log }.markAvail
  refine ⟨l', ?_, h', fun i hi ↦ ?_⟩
  · have hmax : l₃.maxlogsize = p.maxlogsize := hmax₃
    rw [LinkedPool.coalesce, h.mem, h.mem, mergeNodes_eq hp hlog hfree, ← h.mem O.cur.off, hwrap]
    change (l₀.listRemove O.cur.off >>= fun k ↦ k.listRemove O.cur.buddy.off >>= fun k ↦
      k.store O.cur.parent.off _ >>= fun k ↦
      k.insertHead (subSize k.maxlogsize O.cur.parent.log) O.cur.parent.off >>= fun k' ↦
      .ok (k', some O.cur.parent.off)) = _
    rw [hrun₁, Exec.ok_bind, hrun₂, Exec.ok_bind, hrun₃, Exec.ok_bind, hmax, hnewpos, hrun']
    rfl
  · have hi₁ : i ∉ (p₀.listRemove O.cur.off).nodeSet := fun hmem ↦
      hi (nodeSet_listRemove p₀ O.cur.off hmem)
    calc l'.mem i = l₂.mem i := hsame' i fun hmem ↦ hmem.elim (fun heq ↦ hi (heq ▸ hparent))
          fun hmem ↦ hi₁ (nodeSet_listRemove _ _ hmem)
      _ = l₁.mem i := hsame₂ i hi₁
      _ = l.mem i := hsame₁ i hi

theorem nodeSet_joined (hp : DescribesOpen p O) (hlog : O.cur.log < n)
    (hfree : O.cur.buddy ∈ O.free) : (p.joined O.cur).nodeSet ⊆ p.nodeSet := by
  rw [hp.lists.nodeSet_eq, (coalesce_eq hp hlog hfree).2.nodeSet_eq]
  rintro _ ⟨c, rfl | hc, rfl⟩
  · rcases parent_off_eq O.cur_aligned with heq | heq
    · exact ⟨O.cur, Set.mem_insert _ _, heq.symm⟩
    · exact ⟨O.cur.buddy, .inr (.inr hfree), heq.symm⟩
  · exact ⟨c, .inr (hc.imp_right fun hmem ↦ hmem.1), rfl⟩

/-- The merge loop.  The induction is on the turns that are left. -/
theorem chunkFound {fuel : ℕ} (h : l.Refines p) (hp : DescribesOpen p O)
    (hfuel : n - O.cur.log < fuel) :
    ∃ l' p', LinkedPool.chunkFound fuel l O.cur.off = .ok l' ∧
      Buddy.chunkFound fuel p O.cur.off = .ok p' ∧ l'.Refines p' ∧
      ∀ i ∉ p.nodeSet, l'.mem i = l.mem i := by
  induction fuel generalizing p l O with
  | zero => exact absurd hfuel (Nat.not_lt_zero _)
  | succ fuel ih =>
      obtain ⟨lm, hmark, hlm, hsame⟩ := h.storeNode (cur_mem_nodeSet hp) (p.mem O.cur.off).markAvail
      have hmark' := hp.store_cur (p.mem O.cur.off).markAvail
      rw [LinkedPool.chunkFound, Buddy.chunkFound, h.load_open hp, hp.load_cur, Exec.ok_bind,
        Exec.ok_bind, h.mem, h.maxlogsize, hp.cur_header.logsize, hp.lists.maxlogsize]
      by_cases htop : O.cur.log = n
      · rw [if_pos htop, if_pos htop]
        cases havail : (p.mem O.cur.off).isAvail with
        | true => exact ⟨l, p, rfl, rfl, h, fun _ _ ↦ rfl⟩
        | false =>
            rw [if_neg Bool.false_ne_true, if_neg Bool.false_ne_true]
            exact ⟨lm, _, hmark, hmark', hlm, hsame⟩
      · have hlog : O.cur.log < n := lt_of_le_of_ne O.cur_log_le htop
        have hbuddy : possibleBuddy (l.toPool []) O.cur.off (p.mem O.cur.off) =
            .ok (some O.cur.buddy.off) := by
          rw [h.toPool_table]
          calc possibleBuddy { p with blktable := [] } O.cur.off (p.mem O.cur.off)
              = possibleBuddy p O.cur.off (p.mem O.cur.off) := rfl
            _ = .ok (some O.cur.buddy.off) := possibleBuddy_eq hp hlog
        obtain ⟨hload, hiff⟩ := load_buddy hp hlog
        obtain ⟨c, hc, hoff, _⟩ := O.exists_at_buddy hlog
        have hlisted : O.cur.buddy.off ∈ p.nodeSet := by
          rw [hp.lists.nodeSet_eq]
          exact ⟨c, Set.mem_insert_of_mem _ hc, hoff⟩
        rw [hp.cur_header.logsize] at hiff
        rw [if_neg htop, if_neg htop, hbuddy, possibleBuddy_eq hp hlog, Exec.ok_bind, Exec.ok_bind]
        dsimp only
        rw [LinkedPool.load_eq (h.room_of_node hlisted), hload, Exec.ok_bind, Exec.ok_bind, h.mem]
        by_cases hfree : O.cur.buddy ∈ O.free
        · have hnot := fun hor ↦ hiff.1 hor hfree
          obtain ⟨l₁, hrun₁, h₁, hsame₁⟩ := h.coalesce hp hlog hfree
          have hturns : n - (O.join hfree hlog).cur.log < fuel := by
            change n - (O.cur.log + 1) < fuel
            omega
          obtain ⟨l', p', hrun, hrun', hl', hsame'⟩ := ih h₁ (hp.joined hlog hfree) hturns
          rw [if_neg hnot, if_neg hnot, hrun₁, (coalesce_eq hp hlog hfree).1]
          exact ⟨l', p', hrun, hrun', hl', fun i hi ↦
            (hsame' i fun hmem ↦ hi (nodeSet_joined hp hlog hfree hmem)).trans (hsame₁ i hi)⟩
        · rw [if_pos (hiff.2 hfree), if_pos (hiff.2 hfree)]
          exact ⟨lm, _, hmark, hmark', hlm, hsame⟩

/-- `mpool_free` of a block in use writes only headers of blocks that are on the lists before. -/
theorem mpoolFree {A : BuddyTiling m n} (h : l.Refines p) (hp : Describes p A) {b : Block}
    (hb : b ∈ A.used) :
    ∃ l' p', l.mpoolFree (b.off + sizeofBlkNode) = .ok l' ∧
      Buddy.mpoolFree p (b.off + sizeofBlkNode) = .ok p' ∧ l'.Refines p' ∧
      ∀ i ∉ p.nodeSet, l'.mem i = l.mem i := by
  have hnot : ¬ b.off + sizeofBlkNode < sizeofBlkNode := by omega
  rw [LinkedPool.mpoolFree, Buddy.mpoolFree, if_neg hnot, if_neg hnot, Nat.add_sub_cancel,
    h.maxlogsize]
  refine h.chunkFound (hp.release hb) ?_
  rw [hp.lists.maxlogsize]
  exact Nat.lt_succ_of_le (Nat.sub_le _ _)

end Free

end LinkedPool.Refines

/-! ## Simulation -/

theorem emptyPool_refines (garbage : ℕ → LinkedNode) (bytes maxlogsize minlogsize : ℕ) :
    (LinkedPool.empty garbage bytes maxlogsize minlogsize).Refines
      (emptyPool (fun o ↦ (garbage o).toBlkNode) bytes maxlogsize minlogsize) := by
  have hlist : ∀ i, (emptyPool (fun o ↦ (garbage o).toBlkNode) bytes maxlogsize
      minlogsize).offsAt i = [] := fun i ↦ by
    simp only [Pool.offsAt, emptyPool, List.getD_eq_getElem?_getD, List.getElem?_replicate]
    split <;> rfl
  have hfirst : ∀ i, (LinkedPool.empty garbage bytes maxlogsize minlogsize).links.first i =
      none := fun i ↦ by
    simp only [LinkedPool.links, LinkedPool.empty, List.getD_eq_getElem?_getD,
      List.getElem?_replicate]
    split <;> rfl
  refine ⟨rfl, ?_, ⟨fun i ↦ ?_, fun i ↦ ?_, fun i j _ ↦ ?_⟩, ?_⟩
  · simp [LinkedPool.empty, emptyPool]
  · rw [hlist]
    exact hfirst i
  · rw [hlist]
    exact List.nodup_nil
  · rw [hlist]
    exact List.disjoint_nil_left _
  · rintro o ⟨i, ho⟩
    rw [hlist] at ho
    cases ho

theorem mpoolInit_refines (mallocs : InitMallocs) (garbage : ℕ → LinkedNode)
    (maxlogsize minlogsize : ℕ) :
    (∃ l p, LinkedPool.mpoolInit mallocs garbage maxlogsize minlogsize = .ok (.ok, some l) ∧
        mpoolInit mallocs (fun o ↦ (garbage o).toBlkNode) maxlogsize minlogsize =
          .ok (.ok, some p) ∧ l.Refines p) ∨
      ((∀ l, LinkedPool.mpoolInit mallocs garbage maxlogsize minlogsize ≠ .ok (.ok, some l)) ∧
        ∀ p, mpoolInit mallocs (fun o ↦ (garbage o).toBlkNode) maxlogsize minlogsize ≠
          .ok (.ok, some p)) := by
  rcases initChecks_cases mallocs maxlogsize minlogsize with ⟨r, hr, hstop⟩ | ⟨hroom, hfill⟩
  · have hnone : ∀ {P : Type} {p : P}, (r.map fun code ↦ (code, none)) ≠ .ok (.ok, some p) := by
      intro P p heq
      cases r with
      | error fault => cases heq
      | ok code => cases heq
    exact .inr ⟨fun l hrun ↦ hnone ((hstop _).symm.trans hrun),
      fun p hrun ↦ hnone ((hstop _).symm.trans hrun)⟩
  have hempty := emptyPool_refines garbage (2 ^ maxlogsize) maxlogsize minlogsize
  obtain ⟨l₁, l', hrun₁, _, hrun, hl', _⟩ := hempty.link (o := 0) 0 hroom
    (by simp [emptyPool])
    (fun ⟨i, hi⟩ ↦ by
      simp only [Pool.offsAt, emptyPool, List.getD_eq_getElem?_getD,
        List.getElem?_replicate] at hi
      split at hi <;> cases hi)
    (mpoolBlockInit (garbage 0).toBlkNode sizeofBlkNode mpoolBlockAvail mpoolBlockLeft
      mpoolBlockParent maxlogsize)
  refine .inl ⟨l', _, (hfill _).trans ?_, (hfill _).trans ?_, hl'⟩
  · have hload : LinkedPool.load (.empty garbage (2 ^ maxlogsize) maxlogsize minlogsize) 0 =
        .ok (garbage 0) := if_pos hroom
    dsimp only
    rw [hload, Exec.ok_bind]
    change (LinkedPool.store _ 0 _ >>= fun k ↦ k.insertHead 0 0 >>= fun k ↦ .ok _) = _
    rw [hrun₁, Exec.ok_bind, hrun]
    rfl
  · dsimp only
    rw [Pool.load_eq hroom, Exec.ok_bind, Pool.store_eq _ hroom, Exec.ok_bind,
      Pool.insertHead_eq (by simp [emptyPool])]
    rfl

/-- Client writes that meet no header of a block leave the relation alone. -/
theorem LinkedPool.Refines.of_mem (h : l.Refines p) {mem : ℕ → LinkedNode}
    (hmem : ∀ o ∈ p.nodeSet, mem o = l.mem o) :
    LinkedPool.Refines { l with mem := mem } { p with mem := fun o ↦ (mem o).toBlkNode } where
  toPool := by
    rw [show ({ p with mem := fun o ↦ (mem o).toBlkNode } : Pool) =
      { l.toPool p.blktable with mem := fun o ↦ (mem o).toBlkNode } by rw [h.toPool]]
    rfl
  length := h.length
  holds := h.holds.congr rfl
    (fun i o ho ↦ congrArg LinkedNode.leNext (hmem o ⟨i, ho⟩))
    fun i o ho ↦ congrArg LinkedNode.lePrev (hmem o ⟨i, ho⟩)
  inside := h.inside

variable {maxlogsize minlogsize : ℕ}

theorem not_overlaps_node {live : List Allocation} (h : Inv m n ⟨p, live⟩) {a : Allocation}
    (ha : a ∈ live) (hwrap : NoWrap a.size) {o : ℕ} (ho : o ∈ p.nodeSet) : ¬ a.Overlaps o := by
  obtain ⟨A, hp, howned⟩ := h
  rw [hp.lists.nodeSet_eq] at ho
  obtain ⟨c, hc, rfl⟩ := ho
  exact howned.not_overlaps hp ha hwrap hc

theorem LinkedStep.refines {s t : LinkedState} (hstep : LinkedStep s t) {p : Pool}
    (h : s.pool.Refines p) (hinv : Inv m n ⟨p, s.live⟩) :
    ∃ q, t.pool.Refines q ∧ Step anyRequest ⟨p, s.live⟩ ⟨q, t.live⟩ := by
  have hinv' := hinv
  obtain ⟨A, hp, howned⟩ := hinv
  cases hstep with
  | alloc blksize hsize hrun =>
      obtain ⟨l', p', r, hrunl, hrunp, hl', _⟩ := h.mpoolAlloc hp blksize
      rw [hrunl] at hrun
      cases hrun
      exact ⟨p', hl', .alloc blksize hsize trivial hrunp⟩
  | refused blksize hsize hrun =>
      obtain ⟨l', p', r, hrunl, hrunp, hl', _⟩ := h.mpoolAlloc hp blksize
      rw [hrunl] at hrun
      cases hrun
      exact ⟨p', hl', .refused blksize hsize trivial hrunp⟩
  | free a ha hrun =>
      obtain ⟨b, hb, hptr, _⟩ := howned.block a ha
      obtain ⟨l', p', hrunl, hrunp, hl', _⟩ := h.mpoolFree hp hb
      rw [hptr, hrunl] at hrun
      cases hrun
      rw [← hptr] at hrunp
      exact ⟨p', hl', .free a ha hrunp⟩
  | write mem hmem =>
      refine ⟨_, h.of_mem fun o ho ↦ ?_, .write (fun o ↦ (mem o).toBlkNode) fun o ho ↦ ?_⟩
      · by_contra hne
        obtain ⟨a, ha, hwrap, hover⟩ := hmem o hne
        exact not_overlaps_node hinv' ha hwrap ho hover
      · exact hmem o fun heq ↦ ho (by rw [heq]; exact h.mem o)

theorem Step.linked {live : List Allocation} {t : PoolState} (hstep : Step anyRequest ⟨p, live⟩ t)
    (h : l.Refines p) (hinv : Inv m n ⟨p, live⟩) :
    ∃ k : LinkedPool, k.Refines t.pool ∧ LinkedStep ⟨l, live⟩ ⟨k, t.live⟩ := by
  have hinv' := hinv
  obtain ⟨A, hp, howned⟩ := hinv
  cases hstep with
  | alloc blksize hsize _ hrun =>
      obtain ⟨l', p', r, hrunl, hrunp, hl', _⟩ := h.mpoolAlloc hp blksize
      rw [hrunp] at hrun
      cases hrun
      exact ⟨l', hl', .alloc blksize hsize hrunl⟩
  | refused blksize hsize _ hrun =>
      obtain ⟨l', p', r, hrunl, hrunp, hl', _⟩ := h.mpoolAlloc hp blksize
      rw [hrunp] at hrun
      cases hrun
      exact ⟨l', hl', .refused blksize hsize hrunl⟩
  | free a ha hrun =>
      obtain ⟨b, hb, hptr, _⟩ := howned.block a ha
      obtain ⟨l', p', hrunl, hrunp, hl', _⟩ := h.mpoolFree hp hb
      rw [hptr, hrunp] at hrun
      cases hrun
      rw [← hptr] at hrunl
      exact ⟨l', hl', .free a ha hrunl⟩
  | write mem hmem =>
      -- the client leaves the links as they are
      let mem' : ℕ → LinkedNode := fun o ↦ { l.mem o with toBlkNode := mem o }
      have hchange : ∀ o, mem' o ≠ l.mem o → mem o ≠ p.mem o := fun o hne heq ↦ hne (by
        simp only [mem', heq, ← h.mem])
      have hkeep : ∀ o ∈ p.nodeSet, mem' o = l.mem o := fun o ho ↦ by
        by_contra hne
        obtain ⟨a, ha, hwrap, hover⟩ := hmem o (hchange o hne)
        exact not_overlaps_node hinv' ha hwrap ho hover
      exact ⟨_, h.of_mem hkeep, .write mem' fun o ho ↦ hmem o (hchange o ho)⟩

/-- Every run of the linked pool is a run of the pool of sequences. -/
theorem LinkedReach.refines {s : LinkedState} (h : LinkedReach maxlogsize minlogsize s) :
    ∃ p, s.pool.Refines p ∧ Reach anyRequest maxlogsize minlogsize ⟨p, s.live⟩ := by
  induction h with
  | @init l mallocs garbage hrun =>
      rcases mpoolInit_refines mallocs garbage maxlogsize minlogsize with
        ⟨l', p, hrunl, hrunp, hl'⟩ | ⟨hnone, _⟩
      · rw [hrunl] at hrun
        cases hrun
        exact ⟨p, hl', .init mallocs _ hrunp⟩
      · exact absurd hrun (hnone l)
  | step _ hstep ih =>
      obtain ⟨p, hp, hreach⟩ := ih
      obtain ⟨q, hq, hstep'⟩ := hstep.refines hp hreach.inv
      exact ⟨q, hq, hreach.step hstep'⟩

/-- Every run of the pool of sequences is one of a linked pool. -/
theorem Reach.linked {s : PoolState} (h : Reach anyRequest maxlogsize minlogsize s) :
    ∃ l : LinkedPool, l.Refines s.pool ∧ LinkedReach maxlogsize minlogsize ⟨l, s.live⟩ := by
  induction h with
  | @init p mallocs garbage hrun =>
      rcases mpoolInit_refines mallocs (fun o ↦ ⟨garbage o, none, .first 0⟩) maxlogsize minlogsize
        with ⟨l, p', hrunl, hrunp, hl⟩ | ⟨_, hnone⟩
      · have heq : mpoolInit mallocs garbage maxlogsize minlogsize = .ok (.ok, some p') := hrunp
        rw [heq] at hrun
        cases hrun
        exact ⟨l, hl, .init mallocs _ hrunl⟩
      · exact absurd hrun (hnone p)
  | step hs hstep ih =>
      obtain ⟨l, hl, hreach⟩ := ih
      obtain ⟨k, hk, hstep'⟩ := hstep.linked hl hs.inv
      exact ⟨k, hk, hreach.step hstep'⟩

/-- The linked pool and the pool of sequences have the same runs. -/
theorem linkedRuns_agree (maxlogsize minlogsize : ℕ) (live : List Allocation) :
    (∀ l, LinkedReach maxlogsize minlogsize ⟨l, live⟩ →
        ∃ p, l.Refines p ∧ Reach anyRequest maxlogsize minlogsize ⟨p, live⟩) ∧
      ∀ p, Reach anyRequest maxlogsize minlogsize ⟨p, live⟩ →
        ∃ l : LinkedPool, l.Refines p ∧ LinkedReach maxlogsize minlogsize ⟨l, live⟩ :=
  ⟨fun _ h ↦ h.refines, fun _ h ↦ h.linked⟩

/-- The bytes that the clients of `live` hold are the same in both pools. -/
def PayloadsKept (live : List Allocation) (l l' : LinkedPool) : Prop :=
  ∀ a ∈ live, NoWrap a.size → ∀ o, a.Overlaps o → l'.mem o = l.mem o

/-- Every request and every release of a live allocation can be carried out, and neither writes into
a payload. -/
structure CallsSafe (s : LinkedState) : Prop where
  alloc : ∀ blksize, ∃ l r, s.pool.mpoolAlloc blksize = .ok (l, r) ∧ PayloadsKept s.live s.pool l
  free : ∀ a ∈ s.live, ∃ l, s.pool.mpoolFree a.ptr = .ok l ∧ PayloadsKept s.live s.pool l

/-- In every reachable state, whatever the clients have written into their allocations. -/
theorem linkedReach_callsSafe {s : LinkedState} (h : LinkedReach maxlogsize minlogsize s) :
    CallsSafe s := by
  obtain ⟨p, hp, hreach⟩ := h.refines
  have hinv := hreach.inv
  obtain ⟨A, hdesc, howned⟩ := hreach.inv
  constructor
  · intro blksize
    obtain ⟨l', p', r, hrun, hrunp, hl', hsame⟩ := hp.mpoolAlloc hdesc blksize
    refine ⟨l', r, hrun, fun a ha hwrap o hover ↦ hsame o fun ho ↦ ?_⟩
    rcases mpoolAlloc_spec hdesc blksize with ⟨hnull, _⟩ |
      ⟨q, b, A', hsome, hq, hleast, hb, hused, _⟩
    · rw [hnull] at hrunp
      cases hrunp
      exact not_overlaps_node hinv ha hwrap ho hover
    · rw [hsome] at hrunp
      cases hrunp
      have hnew : Inv minlogsize maxlogsize ⟨p', ⟨b.off + sizeofBlkNode, blksize⟩ :: s.live⟩ :=
        ⟨A', hq, howned.alloc hb hused hleast.1.2⟩
      exact not_overlaps_node hnew (List.mem_cons_of_mem _ ha) hwrap ho hover
  · intro a ha
    obtain ⟨b, hb, hptr, _⟩ := howned.block a ha
    obtain ⟨l', p', hrun, _, _, hsame⟩ := hp.mpoolFree hdesc hb
    rw [← hptr] at hrun
    exact ⟨l', hrun, fun c hc hwrap o hover ↦
      hsame o fun ho ↦ not_overlaps_node hinv hc hwrap ho hover⟩

/-- A pool of 128 bytes with one live allocation. -/
theorem linkedReach_callsSafe_small : ∃ l ptr, CallsSafe ⟨l, [⟨ptr, 20⟩]⟩ :=
  ⟨_, _, linkedReach_callsSafe (.step
    (@LinkedReach.init 7 6 _ ⟨true, true, true⟩ (fun _ ↦ ⟨⟨0, 0, 0⟩, none, .first 0⟩) rfl)
    (.alloc 20 (by decide) rfl))⟩

end Experimentation.Buddy
