import Experimentation.Buddy.BestFit

/-!
# The turns of `mpool_free`

A call of `mpool_free` follows its block upwards.  At every turn the address computed for the buddy
is that of a block on the lists, no longer than the block at hand, so that the header read there is
a current one.  The loop is never left through a return that gives the block up, and it ends with
the block, or the one it has been merged into, available on its list.
-/

namespace Experimentation.Buddy

open DyadicTiling Semantics

/-- The loop, entered with the pool `p` at `node`, is with the pool `q` at `node'` after `merges`
turns, each of which has joined two blocks. -/
inductive Merges (p : Pool) (node : ℕ) : (merges : ℕ) → (q : Pool) → (node' : ℕ) → Prop
  | start : Merges p node 0 p node
  | turn {merges : ℕ} {q q' : Pool} {node' pmerged : ℕ} (h : Merges p node merges q node')
      (hturn : chunkTurn q node' = .ok (q', .merged pmerged)) :
      Merges p node (merges + 1) q' pmerged

theorem Merges.chunkFound_eq {p q : Pool} {node merges node' : ℕ} (h : Merges p node merges q node')
    (fuel : ℕ) : chunkFound (merges + fuel) p node = chunkFound fuel q node' := by
  induction h generalizing fuel with
  | start => rw [Nat.zero_add]
  | @turn merges q q' node' pmerged _ hturn ih =>
      have hsum : merges + 1 + fuel = merges + (fuel + 1) := by omega
      rw [hsum, ih, chunkFound_succ, hturn, Exec.ok_bind, afterTurn]

variable {m n : ℕ} {p q : Pool}

theorem Merges.describesOpen {O : OpenTiling m n} (h : DescribesOpen p O) {merges node' : ℕ}
    (hmerges : Merges p O.cur.off merges q node') :
    ∃ O' : OpenTiling m n, DescribesOpen q O' ∧ O'.cur.off = node' ∧
      O'.cur.log = O.cur.log + merges ∧ O.cur.Within O'.cur := by
  induction hmerges with
  | start => exact ⟨O, h, rfl, rfl, le_rfl, le_rfl⟩
  | turn _ hturn ih =>
      obtain ⟨O', hopen, rfl, hlog, hin⟩ := ih
      rcases chunkTurn_eq hopen with ⟨_, p', hfreed, _⟩ | ⟨hlt, hfree, hmerged⟩
      · rw [hfreed] at hturn
        cases hturn
      · rw [hmerged] at hturn
        cases hturn
        refine ⟨O'.join hfree hlt, hopen.joined hlt hfree, rfl, ?_, ?_⟩
        · change O'.cur.log + 1 = _
          rw [hlog, Nat.add_assoc]
        · exact hin.trans O'.cur_aligned.within_parent

/-- The loop ends.  The induction is on the levels above the block at hand. -/
theorem Merges.exists_freed {node merges levels : ℕ} {O : OpenTiling m n}
    (hmerges : Merges p node merges q O.cur.off) (hopen : DescribesOpen q O)
    (hlevels : n - O.cur.log = levels) :
    ∃ merges' q' node' p', Merges p node merges' q' node' ∧
      chunkTurn q' node' = .ok (p', .freed) := by
  induction levels generalizing merges q O with
  | zero =>
      rcases chunkTurn_eq hopen with ⟨_, p', hfreed, _⟩ | ⟨hlt, _⟩
      · exact ⟨merges, q, _, p', hmerges, hfreed⟩
      · omega
  | succ levels ih =>
      rcases chunkTurn_eq hopen with ⟨_, p', hfreed, _⟩ | ⟨hlt, hfree, hmerged⟩
      · exact ⟨merges, q, _, p', hmerges, hfreed⟩
      · apply ih (hmerges.turn hmerged) (hopen.joined hlt hfree)
        change n - (O.cur.log + 1) = levels
        omega

/-- The address computed for the buddy of the block of length `2 ^ k` at `node` is that of a block
on the lists that is not longer. -/
def BuddyIsLive (p : Pool) (node k : ℕ) : Prop :=
  ∃ buddy i, possibleBuddy p node (p.mem node) = .ok (some buddy) ∧
    buddy + 2 ^ i ≤ 2 ^ p.maxlogsize ∧ i ≤ k ∧ p.Block buddy i

theorem DescribesOpen.block_cur {O : OpenTiling m n} (h : DescribesOpen p O) :
    p.Block O.cur.off O.cur.log :=
  (h.lists.block_iff h.headers).2 (Set.mem_insert _ _)

theorem DescribesOpen.buddyIsLive {O : OpenTiling m n} (h : DescribesOpen p O)
    (hlog : O.cur.log < n) : BuddyIsLive p O.cur.off O.cur.log := by
  obtain ⟨c, hc, hoff, hle⟩ := O.exists_at_buddy hlog
  have hmem : c ∈ insert O.cur (O.used ∪ O.free) := Set.mem_insert_of_mem _ hc
  have hstop := O.tiles.inside c hmem
  refine ⟨c.off, c.log, hoff ▸ possibleBuddy_eq h hlog, ?_, hle,
    (h.lists.block_iff h.headers).2 hmem⟩
  rw [h.lists.maxlogsize]
  exact hstop

/-- One turn of the loop, on a block of length `2 ^ k`, is as it should be. -/
structure GoodTurn (p : Pool) (node k : ℕ) : Prop where
  block : p.Block node k
  buddy : k < p.maxlogsize → BuddyIsLive p node k
  leave : ∃ p' l, chunkTurn p node = .ok (p', l) ∧ l ≠ .buddyOutOfPool ∧ l ≠ .wrongRelation

theorem DescribesOpen.goodTurn {O : OpenTiling m n} (h : DescribesOpen p O) :
    GoodTurn p O.cur.off O.cur.log where
  block := h.block_cur
  buddy hlog := h.buddyIsLive (h.lists.maxlogsize ▸ hlog)
  leave := by
    rcases chunkTurn_eq h with ⟨_, p', hturn, _⟩ | ⟨_, _, hturn⟩
    · exact ⟨p', _, hturn, by decide, by decide⟩
    · exact ⟨_, _, hturn, Leave.noConfusion, Leave.noConfusion⟩

/-- `mpool_free` of a live pointer, from a block of length `2 ^ k` at `node`. -/
structure FollowsBlock (p : Pool) (ptr node k : ℕ) : Prop where
  ptr_eq : ptr = node + sizeofBlkNode
  inUse : p.InUse node k
  turns : ∀ merges q node', Merges p node merges q node' → GoodTurn q node' (k + merges)
  /-- The loop ends with the block inside one that is available. -/
  ends : ∃ merges q node' p', merges ≤ p.maxlogsize - k ∧ Merges p node merges q node' ∧
    chunkTurn q node' = .ok (p', .freed) ∧ mpoolFree p ptr = .ok p' ∧
    p'.Available node' (k + merges) ∧ node' ≤ node ∧ node + 2 ^ k ≤ node' + 2 ^ (k + merges)

/-- Every call of `mpool_free` for a live pointer follows its block. -/
theorem mpoolFree_follows_block {allow : Pool → ℕ → Prop} {maxlogsize minlogsize : ℕ}
    {s : PoolState} (hs : Reach allow maxlogsize minlogsize s) {a : Allocation} (ha : a ∈ s.live) :
    ∃ node k, FollowsBlock s.pool a.ptr node k := by
  obtain ⟨A, hp, hlive⟩ := hs.inv
  obtain ⟨b, hb, hptr, _⟩ := hlive.block a ha
  have hopen := hp.release hb
  refine ⟨b.off, b.log, hptr, hp.inUse_iff.2 hb, ?_, ?_⟩
  · intro merges q node' hmerges
    obtain ⟨O, hopen', rfl, hlog, _⟩ := Merges.describesOpen hopen hmerges
    exact hlog ▸ hopen'.goodTurn
  · obtain ⟨merges, q, node', p', hmerges, hfreed⟩ := Merges.exists_freed .start hopen rfl
    obtain ⟨O, hopen', rfl, hlog, hin⟩ := Merges.describesOpen hopen hmerges
    have hlog' : O.cur.log = b.log + merges := hlog
    have hle : merges ≤ maxlogsize - b.log := by
      have hmax := O.cur_log_le
      omega
    have hrun : mpoolFree s.pool a.ptr = .ok p' := by
      have hnot : ¬ b.off + sizeofBlkNode < sizeofBlkNode := by omega
      have hturns : maxlogsize + 1 = merges + (maxlogsize - merges + 1) := by
        have hmax := O.cur_log_le
        omega
      have hmerges' : Merges s.pool b.off merges q O.cur.off := hmerges
      rw [mpoolFree, hptr, if_neg hnot, Nat.add_sub_cancel, hp.lists.maxlogsize, hturns,
        hmerges'.chunkFound_eq, chunkFound_succ, hfreed]
      rfl
    rcases chunkTurn_eq hopen' with ⟨hfree, r, hturn, hdesc, _⟩ | ⟨_, _, hturn⟩
    · rw [hfreed] at hturn
      cases hturn
      refine ⟨merges, q, O.cur.off, p', hp.lists.maxlogsize ▸ hle, hmerges, hfreed, hrun, ?_,
        hin.1, ?_⟩
      · rw [hdesc.available_iff, ← hlog']
        exact Set.mem_insert _ _
      · rw [← hlog']
        exact hin.2
    · rw [hfreed] at hturn
      cases hturn

/-- The only block of a pool of 128 bytes that is in use is freed by merging it once. -/
theorem smallPool_follows_block : ∃ p node k, mpoolAlloc smallPool 20 = .ok (p, some 40) ∧
    FollowsBlock p 40 node k := by
  have hreach := (smallPool_reach anyRequest).step (.alloc 20 (by decide) trivial rfl)
  obtain ⟨node, k, hfollows⟩ := mpoolFree_follows_block hreach List.mem_cons_self
  exact ⟨_, node, k, rfl, hfollows⟩

end Experimentation.Buddy
