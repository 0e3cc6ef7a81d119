import Experimentation.Buddy.MergeLoop

/-!
# The history bits of a run

The `LR` and the `PARENT` bit of a header say where its block stands in the tree of halves, and
nothing else: a split writes both of them, a merge recovers those of the whole from those of the
halves.  This is so between the calls, and after each turn of the loops inside the calls, where a
block may be split and joined again that no client ever sees.
-/

namespace Experimentation.Buddy

open DyadicTiling Semantics

/-- The loop at the label `AGAIN`, entered with the pool `p` for a request of `size` bytes in all,
is with the pool `q` after `turns` turns, each of which has halved the block at `node`. -/
inductive Halvings (size node : ℕ) (p : Pool) : (turns : ℕ) → (q : Pool) → Prop
  | start : Halvings size node p 0 p
  | turn {turns k : ℕ} {q q' : Pool} (h : Halvings size node p turns q)
      (hlog : (q.mem node).logsize = k + 1)
      (hgo : ¬ (size = 2 ^ (k + 1) ∨ size > 2 ^ k ∨ q.minlogsize > k))
      (hsplit : splitBlock q node (q.mem node) k = .ok q') : Halvings size node p (turns + 1) q'

/-- The pools that a run meets: between two calls, in the loop of `mpool_alloc` that splits, and in
the loop of `mpool_free` that joins. -/
inductive Moment (allow : Pool → ℕ → Prop) (maxlogsize minlogsize : ℕ) : Pool → Prop
  | between {s : PoolState} (hs : Reach allow maxlogsize minlogsize s) :
      Moment allow maxlogsize minlogsize s.pool
  | splitting {s : PoolState} (hs : Reach allow maxlogsize minlogsize s) {blksize node turns : ℕ}
      {q : Pool} (hallow : allow s.pool blksize)
      (hsearch : searchTable s.pool (wrapSize (blksize + sizeofBlkNode)) s.pool.blktable none =
        .ok (some node))
      (h : Halvings (wrapSize (blksize + sizeofBlkNode)) node s.pool turns q) :
      Moment allow maxlogsize minlogsize q
  | joining {s : PoolState} (hs : Reach allow maxlogsize minlogsize s) {a : Allocation}
      (ha : a ∈ s.live) {merges node : ℕ} {q : Pool}
      (h : Merges s.pool (a.ptr - sizeofBlkNode) merges q node) :
      Moment allow maxlogsize minlogsize q

/-- The bits of the block of length `2 ^ k` at `o` say where it stands in a pool of `2 ^ n`
bytes. -/
structure PositionBits (n : ℕ) (p : Pool) (o k : ℕ) : Prop where
  root : k = n → (p.mem o).has .lr = false ∧ (p.mem o).has .parent = true
  lr : k < n → ((p.mem o).has .lr = true ↔ Odd (o / 2 ^ k))
  parent : (p.mem o).has .parent = parentBit (n - k) ⟨o, k⟩

theorem HeaderOf.positionBits {n : ℕ} {p : Pool} {o k : ℕ} (h : HeaderOf n ⟨o, k⟩ (p.mem o)) :
    PositionBits n p o k where
  root hk := by
    have hdepth : n - k = 0 := Nat.sub_eq_zero_of_le hk.ge
    rw [h.lr, h.parent, hdepth]
    exact ⟨rfl, rfl⟩
  lr hk := by
    obtain ⟨d, hd⟩ := Nat.exists_eq_succ_of_ne_zero (Nat.sub_pos_of_lt hk).ne'
    rw [h.lr, hd, lrBit, Block.isRight, beq_iff_eq, Nat.odd_iff]
  parent := h.parent

/-! ## The pools inside the calls -/

variable {m n : ℕ} {p q : Pool}

/-- The turns of the split loop follow an open block downwards, and the loop goes on from where they
have led. -/
theorem Halvings.describesOpen {O : OpenTiling m n} (h : DescribesOpen p O) {size turns : ℕ}
    (hturns : Halvings size O.cur.off p turns q) :
    ∃ O' : OpenTiling m n, DescribesOpen q O' ∧ O'.cur.off = O.cur.off ∧
      allocAgain size O.cur.off O.cur.log p = allocAgain size O.cur.off O'.cur.log q := by
  induction hturns with
  | start => exact ⟨O, h, rfl, rfl⟩
  | @turn turns k q q' _ hlog hgo hsplit ih =>
      obtain ⟨O', hopen, hoff, hrun⟩ := ih
      rw [← hoff] at hlog hsplit hrun
      have hcur : O'.cur.log = k + 1 := hopen.cur_header.logsize.symm.trans hlog
      have hhi : k + 1 ≤ n := hcur ▸ O'.cur_log_le
      rw [not_or, hopen.lists.minlogsize] at hgo
      have hm : m < O'.cur.log := by omega
      have hhalved : q' = q.halved O'.cur := by
        have hsplit' := (splitBlock_eq hopen hm).1
        rw [hcur, Nat.add_sub_cancel, hsplit] at hsplit'
        exact Except.ok.inj hsplit'
      refine ⟨O'.split hm, hhalved ▸ hopen.halved hm, hoff, ?_⟩
      have hnext : (O'.split hm).cur.log = k := by
        change O'.cur.log - 1 = k
        omega
      rw [← hoff, hnext]
      calc
        _ = allocAgain size O'.cur.off (k + 1) q := by rw [hrun, hcur]
        _ = allocAgain size O'.cur.off k q' := by
          rw [allocAgain, hopen.load_cur, Exec.ok_bind, hopen.lists.shift_eq hhi, Exec.ok_bind,
            if_neg hgo.1, hopen.lists.shift_eq ((Nat.le_succ k).trans hhi), Exec.ok_bind,
            hopen.lists.minlogsize, if_neg hgo.2, hsplit, Exec.ok_bind]

theorem Moment.headerOf {allow : Pool → ℕ → Prop} {maxlogsize minlogsize : ℕ}
    (h : Moment allow maxlogsize minlogsize q) {o k : ℕ} (hb : q.Block o k) :
    HeaderOf maxlogsize ⟨o, k⟩ (q.mem o) := by
  cases h with
  | between hs =>
      obtain ⟨A, hp, _⟩ := hs.inv
      exact hp.headers _ ((hp.lists.block_iff hp.headers).1 hb)
  | splitting hs hallow hsearch hturns =>
      obtain ⟨A, hp, _⟩ := hs.inv
      rcases hp.search _ with ⟨hnone, _⟩ | ⟨f, hf, hfound, _⟩
      · rw [hnone] at hsearch
        cases hsearch
      · rw [hfound] at hsearch
        cases hsearch
        obtain ⟨O, hopen, _⟩ := Halvings.describesOpen (hp.take hf) hturns
        exact hopen.headers _ ((hopen.lists.block_iff hopen.headers).1 hb)
  | joining hs ha hmerges =>
      obtain ⟨A, hp, hlive⟩ := hs.inv
      obtain ⟨b, hused, hptr, _⟩ := hlive.block _ ha
      rw [hptr, Nat.add_sub_cancel] at hmerges
      obtain ⟨O, hopen, _⟩ := Merges.describesOpen (hp.release hused) hmerges
      exact hopen.headers _ ((hopen.lists.block_iff hopen.headers).1 hb)

/-! ## The bits -/

/-- In every pool that a run meets the history bits of a block say where the block stands, so that
they are the same whenever the block is there, before it is split and after its halves have been
joined. -/
theorem moment_positionBits {allow : Pool → ℕ → Prop} {maxlogsize minlogsize : ℕ}
    (h : Moment allow maxlogsize minlogsize q) {o k : ℕ} (hb : q.Block o k) :
    PositionBits maxlogsize q o k ∧
      ∀ q', Moment allow maxlogsize minlogsize q' → q'.Block o k →
        (q'.mem o).has .lr = (q.mem o).has .lr ∧ (q'.mem o).has .parent = (q.mem o).has .parent := by
  have hheader := h.headerOf hb
  refine ⟨hheader.positionBits, fun q' h' hb' ↦ ?_⟩
  have hheader' := h'.headerOf hb'
  exact ⟨hheader'.lr.trans hheader.lr.symm, hheader'.parent.trans hheader.parent.symm⟩

/-- The upper half of a pool of 128 bytes that a request of 20 bytes has split. -/
theorem smallPool_positionBits : ∃ p, mpoolAlloc smallPool 20 = .ok (p, some 40) ∧
    PositionBits 7 p 64 6 := by
  have hreach := (smallPool_reach anyRequest).step (.alloc 20 (by decide) trivial rfl)
  exact ⟨_, rfl, (moment_positionBits (.between hreach)
    ⟨by decide, by decide, by decide, by decide⟩).1⟩

end Experimentation.Buddy
