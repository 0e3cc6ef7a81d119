import Experimentation.Buddy.Layout

/-!
# What `mpool_free` does to the blocks

The address computed for the buddy of a block is always the first byte of some block of the pool,
so the header read there is a current one.  It is the header of the buddy exactly when the lengths
agree, and the buddy is free exactly when it is available besides.  Each turn of the loop that
joins two blocks raises the length of the open block by one, and the loop ends when the buddy is
not free or when the block is the whole pool.  On the tiling this is one step: a block is taken out
of use, and the free blocks follow from the used ones.

The loop returns in five places.  Two of them leave the block as it should be left, available and on
its list; the other three give it up, because a buddy's address is out of the pool or because two
nodes that were just unlinked are both right buddies.  The body of the loop is therefore given a
second form that reports how control leaves it.
-/

namespace Experimentation.Buddy

open DyadicTiling Semantics

variable {m n : ℕ} {p : Pool}

section Buddy

variable {O : OpenTiling m n}

theorem possibleBuddy_eq (h : DescribesOpen p O) (hlog : O.cur.log < n) :
    possibleBuddy p O.cur.off (p.mem O.cur.off) = .ok (some O.cur.buddy.off) := by
  have hright := h.cur_header.isRight_eq hlog
  have hshift := h.lists.shift_eq O.cur_log_le
  have hstop := O.tiles.buddy_stop_le (Set.mem_insert _ _) hlog
  have hlt := O.cur.buddy.off_lt_stop.trans_le hstop
  rw [possibleBuddy, h.cur_header.logsize, hshift, Exec.ok_bind, hright, h.lists.maxlogsize,
    h.lists.shift_eq le_rfl, Exec.ok_bind]
  cases hr : O.cur.isRight with
  | true =>
      have hle := O.cur_aligned.length_le_off hr
      have hoff : O.cur.buddy.off = O.cur.off - 2 ^ O.cur.log := by simp [Block.buddy, hr]
      rw [if_pos rfl, if_neg hle.not_gt, hoff]
      rfl
  | false =>
      have hoff : O.cur.buddy.off = O.cur.off + 2 ^ O.cur.log := by simp [Block.buddy, hr]
      have hin : ¬ O.cur.off + 2 ^ O.cur.log > 2 ^ n - 1 := by omega
      rw [if_neg Bool.false_ne_true, if_neg hin, hoff]
      rfl

/-- The header at the buddy's address is readable, and it is that of a free buddy just when its
length is that of the open block and it is marked available. -/
theorem load_buddy (h : DescribesOpen p O) (hlog : O.cur.log < n) :
    p.load O.cur.buddy.off = .ok (p.mem O.cur.buddy.off) ∧
      (((p.mem O.cur.buddy.off).logsize ≠ (p.mem O.cur.off).logsize ∨
        (p.mem O.cur.buddy.off).isAvail = false) ↔ O.cur.buddy ∉ O.free) := by
  obtain ⟨c, hc, hoff, hle⟩ := O.exists_at_buddy hlog
  have hcur := h.cur_header.logsize
  have hclog := (h.headers c (Set.mem_insert_of_mem _ hc)).logsize
  rw [hoff] at hclog
  have hload := h.lists.load_eq (h.lists.le_log (Set.mem_insert_of_mem _ hc))
    (O.tiles.inside c (Set.mem_insert_of_mem _ hc))
  rw [hoff] at hload
  refine ⟨hload, ?_⟩
  rw [hclog, hcur]
  constructor
  · intro hor hfree
    have hcb : c = O.cur.buddy :=
      O.tiles.eq_of_off_eq (Set.mem_insert_of_mem _ hc) (Set.mem_insert_of_mem _ (.inr hfree)) hoff
    rcases hor with hne | hused
    · exact hne (show c.log = O.cur.buddy.log from congrArg Block.log hcb)
    · rw [h.free _ hfree] at hused
      exact Bool.noConfusion hused
  · intro hnot
    by_cases hlen : c.log = O.cur.log
    · have hcb : c = O.cur.buddy := Block.ext hoff hlen
      rcases hc with hu | hf
      · exact .inr (hoff ▸ h.used c hu)
      · exact absurd (hcb ▸ hf) hnot
    · exact .inl hlen

end Buddy

/-! ## Joining -/

/-- The pool after the block `b` has been joined with its buddy. -/
def Pool.joined (p : Pool) (b : Block) : Pool :=
  let p₁ := (({ p with nmerges := wrapSize (p.nmerges + 1) } : Pool).listRemove b.off).listRemove
    b.buddy.off
  let m := mergedNode (p.mem b.parent.left.off) (p.mem b.parent.right.off)
  (p₁.write b.parent.off { m with logsize := b.parent.log }.markAvail).push
    (p.maxlogsize - b.parent.log) b.parent.off

theorem joined_nsplits (p : Pool) (b : Block) : (p.joined b).nsplits = p.nsplits := rfl

theorem joined_nmerges (p : Pool) (b : Block) :
    (p.joined b).nmerges = wrapSize (p.nmerges + 1) := rfl

theorem joined_mem_other (p : Pool) (b : Block) {o : ℕ} (h : o ≠ b.parent.off) :
    (p.joined b).mem o = p.mem o := by
  simp only [Pool.joined, Pool.push_mem, Pool.write_mem, Function.update_of_ne h,
    Pool.listRemove_mem]

theorem joined_mem_parent (p : Pool) (b : Block) :
    (p.joined b).mem b.parent.off =
      { mergedNode (p.mem b.parent.left.off) (p.mem b.parent.right.off) with
        logsize := b.parent.log }.markAvail :=
  Function.update_self _ _ _

section Join

variable {O : OpenTiling m n}

/-- Whichever half the open block is, the joined node lives in the header of the left half. -/
theorem mergeNodes_eq (h : DescribesOpen p O) (hlog : O.cur.log < n)
    (hfree : O.cur.buddy ∈ O.free) :
    mergeNodes O.cur.off (p.mem O.cur.off) O.cur.buddy.off (p.mem O.cur.buddy.off) =
      some (O.cur.parent.off,
        mergedNode (p.mem O.cur.parent.left.off) (p.mem O.cur.parent.right.off)) := by
  have hal := O.cur_aligned
  have hright := h.cur_header.isRight_eq hlog
  have hright' := (h.headers _ (Set.mem_insert_of_mem _ (.inr hfree))).isRight_eq hlog
  rw [hal.isRight_buddy] at hright'
  rw [mergeNodes, hright, hright']
  cases hr : O.cur.isRight with
  | true =>
      obtain ⟨hrt, hlt⟩ := hal.halves_parent_of_right hr
      have hoff : O.cur.parent.off = O.cur.buddy.off :=
        show O.cur.parent.left.off = O.cur.buddy.off from congrArg Block.off hlt
      rw [hrt, hlt, hoff]
      rfl
  | false =>
      obtain ⟨hlt, hrt⟩ := hal.halves_parent_of_left hr
      have hoff : O.cur.parent.off = O.cur.off :=
        show O.cur.parent.left.off = O.cur.off from congrArg Block.off hlt
      rw [hrt, hlt, hoff]
      rfl

theorem coalesce_eq (h : DescribesOpen p O) (hlog : O.cur.log < n)
    (hfree : O.cur.buddy ∈ O.free) :
    coalesce p O.cur.off (p.mem O.cur.off) O.cur.buddy.off (p.mem O.cur.buddy.off) =
        .ok (p.joined O.cur, some O.cur.parent.off) ∧
      Lists m n (p.joined O.cur) (insert O.cur.parent (O.used ∪ O.free \ {O.cur.buddy})) := by
  let rest := O.used ∪ O.free \ {O.cur.buddy}
  let parent := O.cur.parent
  have hset : O.used ∪ O.free = insert O.cur.buddy rest := by
    rw [← Set.union_insert, Set.insert_sdiff_singleton, Set.insert_eq_of_mem hfree]
  have hcurLog := h.cur_header.logsize
  have hlo : m ≤ parent.log := h.le_cur_log.trans (Nat.le_succ _)
  have hhi : parent.log ≤ n := hlog
  have hstop : parent.stop ≤ 2 ^ n :=
    O.cur_aligned.parent_stop_le hlog (O.tiles.inside _ (Set.mem_insert _ _))
  have hwrap : wrapSize ((p.mem O.cur.off).logsize + 1) = parent.log := by
    have hn := h.lists.maxFits
    rw [hcurLog]
    exact wrapSize_of_lt (by unfold sizeModulus; omega)
  have hbuddyOff : ∀ c ∈ rest, c.off ≠ O.cur.buddy.off := fun c hc heq ↦ by
    have hmem : ∀ d ∈ insert O.cur.buddy rest, d ∈ insert O.cur (O.used ∪ O.free) := fun d hd ↦
      Set.mem_insert_of_mem _ (hset ▸ hd)
    have hcb := O.tiles.eq_of_off_eq (hmem c (Set.mem_insert_of_mem _ hc))
      (hmem _ (Set.mem_insert _ _)) heq
    rcases hc with hu | hf
    · exact Set.disjoint_left.1 O.separate hu (hcb ▸ hfree)
    · exact hf.2 hcb
  -- the pool after the two nodes are unlinked, after the write and after the insertion
  let p₁ := (({ p with nmerges := wrapSize (p.nmerges + 1) } : Pool).listRemove
    O.cur.off).listRemove O.cur.buddy.off
  let x := { mergedNode (p.mem parent.left.off) (p.mem parent.right.off) with
    logsize := parent.log }.markAvail
  let p₂ := (p₁.write parent.off x).push (n - parent.log) parent.off
  have hjoined : p.joined O.cur = p₂ := by
    simp only [Pool.joined, h.lists.maxlogsize, p₂, p₁, x, parent]
  have hcounter : Lists m n { p with nmerges := wrapSize (p.nmerges + 1) }
      (insert O.cur (insert O.cur.buddy rest)) :=
    hset ▸ h.lists.of_eq rfl rfl rfl rfl rfl
  have h₁ : Lists m n p₁ rest :=
    (hcounter.listRemove fun c hc ↦ O.off_ne_cur (hset ▸ hc)).listRemove hbuddyOff
  have h₁' : Lists m n (p₁.write parent.off x) rest := h₁.write parent.off x
  have hfresh : parent ∉ rest := (O.join hfree hlog).fresh
  rw [hjoined]
  refine ⟨?_, h₁'.push hfresh hlo hhi⟩
  have hstore : p₁.store parent.off x = .ok (p₁.write parent.off x) :=
    h₁.store_eq hlo hstop x
  have hpush : (p₁.write parent.off x).insertHead (n - parent.log) parent.off = .ok p₂ :=
    h₁'.insertHead_eq hlo hhi
  rw [coalesce, mergeNodes_eq h hlog hfree, hwrap]
  change (p₁.store parent.off x >>= fun q ↦
    q.insertHead (subSize q.maxlogsize parent.log) parent.off >>= fun q' ↦
    .ok (q', some parent.off)) = _
  rw [hstore, Exec.ok_bind, h₁'.newpos_eq hhi, hpush]
  rfl

/-- One turn of the loop joins the open block with its free buddy. -/
theorem DescribesOpen.joined (h : DescribesOpen p O) (hlog : O.cur.log < n)
    (hfree : O.cur.buddy ∈ O.free) : DescribesOpen (p.joined O.cur) (O.join hfree hlog) := by
  have hal := O.cur_aligned
  have hrest : ∀ c ∈ O.used ∪ O.free \ {O.cur.buddy}, (p.joined O.cur).mem c.off = p.mem c.off :=
    fun c hc ↦ joined_mem_other p O.cur ((O.join hfree hlog).off_ne_cur hc)
  have hheader : HeaderOf n O.cur.buddy (p.mem O.cur.buddy.off) :=
    h.headers _ (Set.mem_insert_of_mem _ (.inr hfree))
  have hparent : HeaderOf n O.cur.parent ((p.joined O.cur).mem O.cur.parent.off) := by
    rw [joined_mem_parent]
    refine (HeaderOf.merged ?_ ?_ hal.parent (Nat.succ_pos _) hlog).setAvail
    all_goals cases hr : O.cur.isRight with
      | true => first
          | rw [(hal.halves_parent_of_right hr).2]; exact hheader
          | rw [(hal.halves_parent_of_right hr).1]; exact h.cur_header
      | false => first
          | rw [(hal.halves_parent_of_left hr).1]; exact h.cur_header
          | rw [(hal.halves_parent_of_left hr).2]; exact hheader
  refine ⟨(coalesce_eq h hlog hfree).2, ?_, ?_, ?_⟩
  · intro c hc
    rcases hc with heq | hc
    · rw [heq]
      exact hparent
    · rw [hrest c hc]
      exact h.headers c (Set.mem_insert_of_mem _
        (Set.union_subset_union_right _ Set.sdiff_subset hc))
  · intro c hc
    rw [hrest c (.inl hc)]
    exact h.used c hc
  · intro c hc
    rw [hrest c (.inr hc)]
    exact h.free c hc.1

end Join

/-! ## The loop -/

/-- How control leaves the body of the loop. -/
inductive Leave
  /-- It returns; the node is available. -/
  | freed
  /-- It returns because the buddy's address is out of the pool. -/
  | buddyOutOfPool
  /-- It returns because neither of the two nodes is a left buddy. -/
  | wrongRelation
  /-- It jumps back to `CHUNK_FOUND` with the merged node. -/
  | merged (pmerged : ℕ)
deriving DecidableEq, Repr

/-- The body of the loop at the label `CHUNK_FOUND` of `mpool_free`. -/
def chunkTurn (p : Pool) (node : ℕ) : Exec (Pool × Leave) := do
  let n ← p.load node
  if n.logsize = p.maxlogsize then
    if n.isAvail then
      return (p, .freed)
    else
      return (← p.store node n.markAvail, .freed)
  else
    match ← possibleBuddy p node n with
    | none => return (p, .buddyOutOfPool)
    | some buddy =>
        let b ← p.load buddy
        if b.logsize ≠ n.logsize ∨ b.isAvail = false then
          return (← p.store node n.markAvail, .freed)
        else
          match ← coalesce p node n buddy b with
          | (p, none) => return (p, .wrongRelation)
          | (p, some pmerged) => return (p, .merged pmerged)

/-- What follows the body of the loop. -/
def afterTurn (fuel : ℕ) : Pool × Leave → Exec Pool
  | (p, .merged pmerged) => chunkFound fuel p pmerged
  | (p, .freed) => return p
  | (p, .buddyOutOfPool) => return p
  | (p, .wrongRelation) => return p

theorem chunkFound_succ (fuel : ℕ) (p : Pool) (node : ℕ) :
    chunkFound (fuel + 1) p node = chunkTurn p node >>= afterTurn fuel := by
  rw [chunkFound, chunkTurn]
  cases p.load node with
  | error fault => rfl
  | ok n =>
      rw [Exec.ok_bind, Exec.ok_bind]
      by_cases htop : n.logsize = p.maxlogsize
      · rw [if_pos htop, if_pos htop]
        cases havail : n.isAvail with
        | true => rfl
        | false =>
            rw [if_neg Bool.false_ne_true, if_neg Bool.false_ne_true]
            cases p.store node n.markAvail <;> rfl
      · rw [if_neg htop, if_neg htop]
        cases possibleBuddy p node n with
        | error fault => rfl
        | ok found =>
            cases found with
            | none => rfl
            | some buddy =>
                rw [Exec.ok_bind, Exec.ok_bind]
                dsimp only
                cases p.load buddy with
                | error fault => rfl
                | ok b =>
                    rw [Exec.ok_bind, Exec.ok_bind]
                    by_cases hnot : b.logsize ≠ n.logsize ∨ b.isAvail = false
                    · rw [if_pos hnot, if_pos hnot]
                      cases p.store node n.markAvail <;> rfl
                    · rw [if_neg hnot, if_neg hnot]
                      cases coalesce p node n buddy b with
                      | error fault => rfl
                      | ok r =>
                          obtain ⟨q, merged⟩ := r
                          cases merged <;> rfl

/-- The body of the loop on the open block: either the buddy is not free and the block is left
available, or the two are joined. -/
theorem chunkTurn_eq {O : OpenTiling m n} (h : DescribesOpen p O) :
    (∃ hfree : O.cur.buddy ∉ O.free, ∃ p', chunkTurn p O.cur.off = .ok (p', .freed) ∧
        Describes p' (O.closeFree hfree) ∧ p'.nsplits = p.nsplits ∧ p'.nmerges = p.nmerges) ∨
      (O.cur.log < n ∧ O.cur.buddy ∈ O.free ∧
        chunkTurn p O.cur.off = .ok (p.joined O.cur, .merged O.cur.parent.off)) := by
  have hmark (hfree : O.cur.buddy ∉ O.free) :=
    h.closeFree hfree h.cur_header.setAvail (by simp)
  rw [chunkTurn, h.load_cur, Exec.ok_bind, h.cur_header.logsize, h.lists.maxlogsize]
  by_cases htop : O.cur.log = n
  · have hbuddy := O.buddy_not_free htop
    rw [if_pos htop]
    cases havail : (p.mem O.cur.off).isAvail with
    | true =>
        have hself : p.write O.cur.off (p.mem O.cur.off) = p := by
          simp only [Pool.write, Function.update_eq_self]
        exact .inl ⟨hbuddy, p, rfl, hself ▸ h.closeFree hbuddy h.cur_header havail, rfl, rfl⟩
    | false =>
        refine .inl ⟨hbuddy, _, ?_, hmark hbuddy, rfl, rfl⟩
        rw [if_neg Bool.false_ne_true, h.store_cur]
        rfl
  · have hlog : O.cur.log < n := lt_of_le_of_ne O.cur_log_le htop
    obtain ⟨hload, hiff⟩ := load_buddy h hlog
    rw [h.cur_header.logsize] at hiff
    rw [if_neg htop, possibleBuddy_eq h hlog, Exec.ok_bind]
    dsimp only
    rw [hload, Exec.ok_bind]
    by_cases hfree : O.cur.buddy ∈ O.free
    · refine .inr ⟨hlog, hfree, ?_⟩
      rw [if_neg fun hor ↦ hiff.1 hor hfree, (coalesce_eq h hlog hfree).1]
      rfl
    · refine .inl ⟨hfree, _, ?_, hmark hfree, rfl, rfl⟩
      rw [if_pos (hiff.2 hfree), h.store_cur]
      rfl

/-- The loop ends with the open block, or the block it has been joined into, among the free ones.
The induction is on the turns that are left, of which there are more than levels above the open
block. -/
theorem chunkFound_spec {fuel : ℕ} {O : OpenTiling m n} (h : DescribesOpen p O)
    (hfuel : n - O.cur.log < fuel) :
    ∃ p', ∃ A : BuddyTiling m n,
      chunkFound fuel p O.cur.off = .ok p' ∧ Describes p' A ∧ A.used = O.used ∧
        (Counted p (insert O.cur (O.used ∪ O.free)).ncard →
          Counted p' (A.used ∪ A.free).ncard) := by
  induction fuel generalizing p O with
  | zero => exact absurd hfuel (Nat.not_lt_zero _)
  | succ fuel ih =>
      rw [chunkFound_succ]
      rcases chunkTurn_eq h with ⟨hfree, p', hturn, hdesc, hsplits, hmerges⟩ | ⟨hlog, hfree, hturn⟩
      · rw [hturn]
        exact ⟨p', O.closeFree hfree, rfl, hdesc, rfl,
          fun hp ↦ (O.closeFree_blocks hfree).symm ▸ hp.of_eq hsplits hmerges⟩
      · have hturns : n - (O.join hfree hlog).cur.log < fuel := by
          change n - (O.cur.log + 1) < fuel
          omega
        obtain ⟨p', A, hrun, hdesc, hused, hcount⟩ := ih (h.joined hlog hfree) hturns
        rw [hturn]
        refine ⟨p', A, hrun, hdesc, hused, fun hp ↦ hcount ?_⟩
        rw [← O.ncard_join hfree hlog] at hp
        exact hp.merge (joined_nsplits p O.cur) (joined_nmerges p O.cur)

/-- `mpool_free` on a described tiling takes the block of the pointer out of use, and the counter of
merges keeps up with the number of blocks. -/
theorem mpoolFree_spec {A : BuddyTiling m n} (h : Describes p A) {b : Block} (hb : b ∈ A.used) :
    ∃ p', ∃ A' : BuddyTiling m n, mpoolFree p (b.off + sizeofBlkNode) = .ok p' ∧
      Describes p' A' ∧ A'.used = A.used \ {b} ∧
      (Counted p (A.used ∪ A.free).ncard → Counted p' (A'.used ∪ A'.free).ncard) := by
  have hnot : ¬ b.off + sizeofBlkNode < sizeofBlkNode := by omega
  rw [mpoolFree, if_neg hnot, Nat.add_sub_cancel, h.lists.maxlogsize, ← A.release_blocks hb]
  exact chunkFound_spec (h.release hb) (Nat.lt_succ_of_le (Nat.sub_le _ _))

end Experimentation.Buddy
