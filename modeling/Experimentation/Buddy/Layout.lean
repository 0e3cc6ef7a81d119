import Mathlib.Data.List.Nodup
import Experimentation.Buddy.Pool
import Experimentation.Buddy.Tiling

/-!
# Lists and headers that describe a set of blocks

A pool describes a set of blocks when its lists hold the address of every block of the set, and of
nothing else, on the list of the block's length, and when the header at that address says what the
block is.  Two bits of a header tell where the block stands in the tree of halves: whether it is a
right half, and which half one of its ancestors is.

Each elementary edit of the pool is matched with the edit of the described set.
-/

namespace Experimentation.Buddy

open DyadicTiling Semantics

/-- The `MPOOL_NODE_LR` bit of the block `b` that lies `depth` levels below the whole pool. -/
def lrBit : (depth : ℕ) → Block → Bool
  | 0, _ => false
  | _ + 1, b => b.isRight

/-- The `MPOOL_NODE_PARENT` bit of the block `b` that lies `depth` levels below the whole pool.  A
left half keeps the `LR` bit of its parent, a right half the `PARENT` bit of its parent. -/
def parentBit : (depth : ℕ) → Block → Bool
  | 0, _ => true
  | depth + 1, b => if b.isRight then parentBit depth b.parent else lrBit depth b.parent

section HistoryBits

variable {n : ℕ} {b : Block}

theorem sub_half (hpos : 0 < b.log) (hlog : b.log ≤ n) : n - (b.log - 1) = n - b.log + 1 := by
  omega

theorem lrBit_left (hb : b.Aligned) (hpos : 0 < b.log) (hlog : b.log ≤ n) :
    lrBit (n - b.left.log) b.left = false := by
  rw [Block.left_log, sub_half hpos hlog]
  exact hb.isRight_left hpos

theorem lrBit_right (hb : b.Aligned) (hpos : 0 < b.log) (hlog : b.log ≤ n) :
    lrBit (n - b.right.log) b.right = true := by
  rw [Block.right_log, sub_half hpos hlog]
  exact hb.isRight_right hpos

theorem parentBit_left (hb : b.Aligned) (hpos : 0 < b.log) (hlog : b.log ≤ n) :
    parentBit (n - b.left.log) b.left = lrBit (n - b.log) b := by
  rw [Block.left_log, sub_half hpos hlog, parentBit, hb.isRight_left hpos, hb.parent_left hpos]
  rfl

theorem parentBit_right (hb : b.Aligned) (hpos : 0 < b.log) (hlog : b.log ≤ n) :
    parentBit (n - b.right.log) b.right = parentBit (n - b.log) b := by
  rw [Block.right_log, sub_half hpos hlog, parentBit, hb.isRight_right hpos,
    hb.parent_right hpos]
  rfl

end HistoryBits

/-- `h` is the header of the block `b` of a pool of `2 ^ n` bytes. -/
structure HeaderOf (n : ℕ) (b : Block) (h : BlkNode) : Prop where
  logsize : h.logsize = b.log
  ptr : h.ptr = b.off + sizeofBlkNode
  lr : h.has .lr = lrBit (n - b.log) b
  parent : h.has .parent = parentBit (n - b.log) b

namespace HeaderOf

variable {n : ℕ} {b : Block} {h : BlkNode}

theorem setAvail (hb : HeaderOf n b h) : HeaderOf n b h.markAvail :=
  ⟨hb.logsize, hb.ptr, by simpa using hb.lr, by simpa using hb.parent⟩

theorem setUsed (hb : HeaderOf n b h) : HeaderOf n b h.markUsed :=
  ⟨hb.logsize, hb.ptr, by simpa using hb.lr, by simpa using hb.parent⟩

theorem shrunk (hb : HeaderOf n b h) (hal : b.Aligned) (hpos : 0 < b.log) (hlog : b.log ≤ n) :
    HeaderOf n b.left (shrunkNode h b.left.log) where
  logsize := by
    simp only [shrunkNode]
    split <;> rfl
  ptr := by
    simp only [shrunkNode]
    split <;> exact hb.ptr
  lr := by
    rw [lrBit_left hal hpos hlog]
    unfold shrunkNode
    simp
  parent := by
    rw [parentBit_left hal hpos hlog, ← hb.lr]
    unfold shrunkNode
    cases hlr : h.has .lr <;> simp [hlr]

/-- The header of the upper half, made from the header of the whole. -/
theorem new (hb : HeaderOf n b h) (hal : b.Aligned) (hpos : 0 < b.log) (hlog : b.log ≤ n)
    (old : BlkNode) : HeaderOf n b.right (newNode old b.right.off h b.right.log) where
  logsize := by simp [newNode]
  ptr := by simp [newNode]
  lr := by
    rw [lrBit_right hal hpos hlog]
    simp [newNode]
  parent := by
    rw [parentBit_right hal hpos hlog, ← hb.parent]
    cases hparent : h.has .parent <;> simp [newNode, hparent, mpoolBlockParent]

theorem merged {l r : BlkNode} (hl : HeaderOf n b.left l) (hr : HeaderOf n b.right r)
    (hal : b.Aligned) (hpos : 0 < b.log) (hlog : b.log ≤ n) :
    HeaderOf n b { mergedNode l r with logsize := b.log } where
  logsize := rfl
  ptr := by
    have hptr : (mergedNode l r).ptr = l.ptr := by
      simp only [mergedNode]
      split_ifs <;> rfl
    exact hptr.trans hl.ptr
  lr := by
    rw [← parentBit_left hal hpos hlog, ← hl.parent]
    simp only [mergedNode, BlkNode.has_withLogsize]
    cases hpl : l.has .parent <;> cases hpr : r.has .parent <;> simp [hpl, hpr]
  parent := by
    rw [← parentBit_right hal hpos hlog, ← hr.parent]
    simp only [mergedNode, BlkNode.has_withLogsize]
    cases hpl : l.has .parent <;> cases hpr : r.has .parent <;> simp [hpl, hpr]

theorem isRight_eq (hb : HeaderOf n b h) (hlog : b.log < n) : h.isRight = b.isRight := by
  obtain ⟨d, hd⟩ := Nat.exists_eq_succ_of_ne_zero (Nat.sub_pos_of_lt hlog).ne'
  rw [BlkNode.isRight, hb.lr, hd, lrBit]

end HeaderOf

/-! ## Described sets -/

/-- The list of the blocks of length `2 ^ k`. -/
def Pool.listOf (p : Pool) (k : ℕ) : List ℕ := p.blktable.getD (p.maxlogsize - k) []

/-- `p` is a pool of `2 ^ n` bytes for blocks of at least `2 ^ m` bytes, and its lists hold the
blocks of `S`. -/
structure Lists (m n : ℕ) (p : Pool) (S : Set Block) : Prop where
  maxlogsize : p.maxlogsize = n
  minlogsize : p.minlogsize = m
  bytes : p.bytes = 2 ^ n
  nblocks : p.nblocks = n - m + 1
  length : p.blktable.length = n - m + 1
  minFits : sizeofBlkNode < 2 ^ m
  le : m ≤ n
  maxFits : n ≤ 30
  mem_iff : ∀ b : Block, b ∈ S ↔ m ≤ b.log ∧ b.log ≤ n ∧ b.off ∈ p.listOf b.log
  nodup : ∀ k ≤ n, (p.listOf k).Nodup

/-- The headers of the blocks of `S` say what the blocks are. -/
def Headers (n : ℕ) (p : Pool) (S : Set Block) : Prop := ∀ b ∈ S, HeaderOf n b (p.mem b.off)

namespace Lists

variable {m n : ℕ} {p : Pool} {S : Set Block} {b : Block}

theorem log_le (h : Lists m n p S) (hb : b ∈ S) : b.log ≤ n := ((h.mem_iff b).1 hb).2.1

theorem le_log (h : Lists m n p S) (hb : b ∈ S) : m ≤ b.log := ((h.mem_iff b).1 hb).1

theorem header_fits (h : Lists m n p S) (hlog : m ≤ b.log) (hstop : b.stop ≤ 2 ^ n) :
    b.off + sizeofBlkNode ≤ p.bytes := by
  have hpow : 2 ^ m ≤ 2 ^ b.log := Nat.pow_le_pow_right two_pos hlog
  have hfits := h.minFits
  unfold Block.stop at hstop
  rw [h.bytes]
  omega

theorem load_eq (h : Lists m n p S) (hlog : m ≤ b.log) (hstop : b.stop ≤ 2 ^ n) :
    p.load b.off = .ok (p.mem b.off) :=
  Pool.load_eq (h.header_fits hlog hstop)

theorem store_eq (h : Lists m n p S) (hlog : m ≤ b.log) (hstop : b.stop ≤ 2 ^ n) (x : BlkNode) :
    p.store b.off x = .ok (p.write b.off x) :=
  Pool.store_eq x (h.header_fits hlog hstop)

theorem shift_eq (h : Lists m n p S) {k : ℕ} (hk : k ≤ n) : shiftOne k = .ok (2 ^ k) :=
  shiftOne_of_le (hk.trans h.maxFits)

theorem newpos_eq (h : Lists m n p S) {k : ℕ} (hk : k ≤ n) : subSize p.maxlogsize k = n - k := by
  rw [h.maxlogsize, subSize_of_le hk]

/-- The lists do not depend on memory or on counters. -/
theorem of_eq {q : Pool} (h : Lists m n p S) (hmax : q.maxlogsize = p.maxlogsize)
    (hmin : q.minlogsize = p.minlogsize) (hbytes : q.bytes = p.bytes)
    (hnblocks : q.nblocks = p.nblocks) (htable : q.blktable = p.blktable) : Lists m n q S where
  maxlogsize := hmax.trans h.maxlogsize
  minlogsize := hmin.trans h.minlogsize
  bytes := hbytes.trans h.bytes
  nblocks := hnblocks.trans h.nblocks
  length := htable ▸ h.length
  minFits := h.minFits
  le := h.le
  maxFits := h.maxFits
  mem_iff c := by
    rw [h.mem_iff c]
    simp only [Pool.listOf, hmax, htable]
  nodup k hk := by
    have hnodup := h.nodup k hk
    simpa only [Pool.listOf, hmax, htable] using hnodup

theorem write (h : Lists m n p S) (o : ℕ) (x : BlkNode) : Lists m n (p.write o x) S :=
  h.of_eq rfl rfl rfl rfl rfl

theorem listOf_listRemove (p : Pool) (o k : ℕ) :
    (p.listRemove o).listOf k = (p.listOf k).erase o := by
  simp only [Pool.listOf, Pool.listRemove, List.getD_eq_getElem?_getD, List.getElem?_map]
  cases p.blktable[p.maxlogsize - k]? <;> rfl

/-- Unlinking a node takes its block out of the described set. -/
theorem listRemove (h : Lists m n p (insert b S)) (hne : ∀ c ∈ S, c.off ≠ b.off) :
    Lists m n (p.listRemove b.off) S where
  maxlogsize := h.maxlogsize
  minlogsize := h.minlogsize
  bytes := h.bytes
  nblocks := h.nblocks
  length := (Pool.listRemove_length p b.off).trans h.length
  minFits := h.minFits
  le := h.le
  maxFits := h.maxFits
  mem_iff c := by
    rw [listOf_listRemove]
    constructor
    · intro hc
      obtain ⟨hlo, hhi, hmem⟩ := (h.mem_iff c).1 (Set.mem_insert_of_mem _ hc)
      exact ⟨hlo, hhi, ((h.nodup _ hhi).mem_erase_iff).2 ⟨hne c hc, hmem⟩⟩
    · intro hc
      obtain ⟨hlo, hhi, hmem⟩ := hc
      obtain ⟨hoff, hmem⟩ := ((h.nodup _ hhi).mem_erase_iff).1 hmem
      rcases (h.mem_iff c).2 ⟨hlo, hhi, hmem⟩ with heq | hc
      · exact absurd (congrArg Block.off heq) hoff
      · exact hc
  nodup k hk := by
    rw [listOf_listRemove]
    exact (h.nodup k hk).erase _

theorem listOf_push (h : Lists m n p S) {k j : ℕ} (o : ℕ) (hk : m ≤ k) (hkn : k ≤ n)
    (hjn : j ≤ n) :
    (p.push (n - k) o).listOf j = if j = k then o :: p.listOf j else p.listOf j := by
  have hlen := h.length
  simp only [Pool.listOf, Pool.push, List.getD_eq_getElem?_getD, h.maxlogsize]
  rw [List.getElem?_modify]
  have hpos : n - k < p.blktable.length := by omega
  split
  next heq =>
    have hjk : j = k := by omega
    subst hjk
    simp [List.getElem?_eq_getElem hpos]
  next hne =>
    have hjk : j ≠ k := fun heq ↦ hne (by rw [heq])
    rw [if_neg hjk]
    cases p.blktable[n - j]? <;> rfl

/-- Linking a node puts its block into the described set. -/
theorem push (h : Lists m n p S) (hb : b ∉ S) (hlo : m ≤ b.log) (hhi : b.log ≤ n) :
    Lists m n (p.push (n - b.log) b.off) (insert b S) where
  maxlogsize := h.maxlogsize
  minlogsize := h.minlogsize
  bytes := h.bytes
  nblocks := h.nblocks
  length := (Pool.push_length p b.off _).trans h.length
  minFits := h.minFits
  le := h.le
  maxFits := h.maxFits
  mem_iff c := by
    rw [Set.mem_insert_iff, h.mem_iff c]
    constructor
    · intro hc
      rcases hc with heq | ⟨hclo, hchi, hmem⟩
      · subst heq
        refine ⟨hlo, hhi, ?_⟩
        rw [h.listOf_push _ hlo hhi hhi, if_pos rfl]
        exact List.mem_cons_self
      · refine ⟨hclo, hchi, ?_⟩
        rw [h.listOf_push _ hlo hhi hchi]
        split
        · exact List.mem_cons_of_mem _ hmem
        · exact hmem
    · intro hc
      obtain ⟨hclo, hchi, hmem⟩ := hc
      rw [h.listOf_push _ hlo hhi hchi] at hmem
      split at hmem
      next hlog =>
        rcases List.mem_cons.1 hmem with hoff | hmem
        · exact .inl (Block.ext hoff hlog)
        · exact .inr ⟨hclo, hchi, hmem⟩
      next => exact .inr ⟨hclo, hchi, hmem⟩
  nodup k hk := by
    rw [h.listOf_push _ hlo hhi hk]
    split
    next hlog =>
      refine List.nodup_cons.2 ⟨fun hmem ↦ hb ?_, h.nodup k hk⟩
      exact (h.mem_iff b).2 ⟨hlo, hhi, hlog ▸ hmem⟩
    next => exact h.nodup k hk

/-- The call of `LIST_INSERT_HEAD` at the position computed for the block's length. -/
theorem insertHead_eq (h : Lists m n p S) (hlo : m ≤ b.log) (hhi : b.log ≤ n) :
    p.insertHead (n - b.log) b.off = .ok (p.push (n - b.log) b.off) := by
  have hlen := h.length
  exact Pool.insertHead_eq (by omega)

end Lists

/-- The counters account for a pool of `k` blocks that was one block once. -/
structure Counted (p : Pool) (k : ℕ) : Prop where
  nsplits : p.nsplits < sizeModulus
  nmerges : p.nmerges < sizeModulus
  balance : wrapSize (k + p.nmerges) = wrapSize (1 + p.nsplits)

/-- Only the two counters matter. -/
theorem Counted.of_eq {p q : Pool} {k : ℕ} (h : Counted p k) (hsplits : q.nsplits = p.nsplits)
    (hmerges : q.nmerges = p.nmerges) : Counted q k where
  nsplits := hsplits ▸ h.nsplits
  nmerges := hmerges ▸ h.nmerges
  balance := by rw [hsplits, hmerges, h.balance]

/-- One split, one block more. -/
theorem Counted.split {p q : Pool} {k : ℕ} (h : Counted p k)
    (hsplits : q.nsplits = wrapSize (p.nsplits + 1)) (hmerges : q.nmerges = p.nmerges) :
    Counted q (k + 1) where
  nsplits := hsplits ▸ Nat.mod_lt _ (by decide)
  nmerges := hmerges ▸ h.nmerges
  balance := by
    have hbalance := h.balance
    rw [hsplits, hmerges]
    unfold wrapSize sizeModulus at hbalance ⊢
    omega

theorem Counted.merge {p q : Pool} {k : ℕ} (h : Counted p (k + 1))
    (hsplits : q.nsplits = p.nsplits) (hmerges : q.nmerges = wrapSize (p.nmerges + 1)) :
    Counted q k where
  nsplits := hsplits ▸ h.nsplits
  nmerges := hmerges ▸ Nat.mod_lt _ (by decide)
  balance := by
    have hbalance := h.balance
    rw [hsplits, hmerges]
    unfold wrapSize sizeModulus at hbalance ⊢
    omega

/-! ## Described tilings -/

variable {m n : ℕ} {p : Pool}

/-- The pool describes the tiling: its lists and headers are those of the blocks, and the
availability flags tell the free ones from the used ones. -/
structure Describes (p : Pool) (A : BuddyTiling m n) : Prop where
  lists : Lists m n p (A.used ∪ A.free)
  headers : Headers n p (A.used ∪ A.free)
  used : ∀ b ∈ A.used, (p.mem b.off).isAvail = false
  free : ∀ b ∈ A.free, (p.mem b.off).isAvail = true

/-- The same while a block is open.  The availability flag of that block is not constrained. -/
structure DescribesOpen (p : Pool) (O : OpenTiling m n) : Prop where
  lists : Lists m n p (insert O.cur (O.used ∪ O.free))
  headers : Headers n p (insert O.cur (O.used ∪ O.free))
  used : ∀ b ∈ O.used, (p.mem b.off).isAvail = false
  free : ∀ b ∈ O.free, (p.mem b.off).isAvail = true

namespace Describes

variable {A : BuddyTiling m n} {b : Block}

theorem take (h : Describes p A) (hb : b ∈ A.free) : DescribesOpen p (A.take b hb) := by
  have hset : insert b (A.used ∪ A.free \ {b}) = A.used ∪ A.free := A.take_blocks hb
  exact ⟨hset.symm ▸ h.lists, hset.symm ▸ h.headers, h.used, fun c hc ↦ h.free c hc.1⟩

theorem release (h : Describes p A) (hb : b ∈ A.used) : DescribesOpen p (A.release b hb) := by
  have hset : insert b (A.used \ {b} ∪ A.free) = A.used ∪ A.free := A.release_blocks hb
  exact ⟨hset.symm ▸ h.lists, hset.symm ▸ h.headers, fun c hc ↦ h.used c hc.1, h.free⟩

end Describes

namespace DescribesOpen

variable {O : OpenTiling m n}

theorem cur_header (h : DescribesOpen p O) : HeaderOf n O.cur (p.mem O.cur.off) :=
  h.headers _ (Set.mem_insert _ _)

theorem le_cur_log (h : DescribesOpen p O) : m ≤ O.cur.log := h.lists.le_log (Set.mem_insert _ _)

theorem cur_log_pos (h : DescribesOpen p O) : 0 < O.cur.log := by
  have hm : m ≠ 0 := by
    intro hzero
    have hfits := h.lists.minFits
    rw [hzero, sizeofBlkNode] at hfits
    omega
  exact (Nat.pos_of_ne_zero hm).trans_le h.le_cur_log

theorem load_cur (h : DescribesOpen p O) : p.load O.cur.off = .ok (p.mem O.cur.off) :=
  h.lists.load_eq h.le_cur_log (O.tiles.inside _ (Set.mem_insert _ _))

theorem store_cur (h : DescribesOpen p O) (x : BlkNode) :
    p.store O.cur.off x = .ok (p.write O.cur.off x) :=
  h.lists.store_eq h.le_cur_log (O.tiles.inside _ (Set.mem_insert _ _)) x

theorem write_mem_of_mem (p : Pool) (x : BlkNode) {c : Block} (hc : c ∈ O.used ∪ O.free) :
    (p.write O.cur.off x).mem c.off = p.mem c.off :=
  Function.update_of_ne (O.off_ne_cur hc) _ _

theorem write_headers (h : DescribesOpen p O) {x : BlkNode} (hx : HeaderOf n O.cur x) :
    Headers n (p.write O.cur.off x) (insert O.cur (O.used ∪ O.free)) := by
  intro c hc
  rcases hc with heq | hc
  · rw [heq, Pool.write_mem, Function.update_self]
    exact hx
  · rw [write_mem_of_mem p x hc]
    exact h.headers c (Set.mem_insert_of_mem _ hc)

theorem closeUsed (h : DescribesOpen p O) :
    Describes (p.write O.cur.off (p.mem O.cur.off).markUsed) O.closeUsed where
  lists := by
    rw [O.closeUsed_blocks]
    exact h.lists.write _ _
  headers := by
    rw [O.closeUsed_blocks]
    exact h.write_headers h.cur_header.setUsed
  used c hc := by
    rcases hc with heq | hc
    · simp [heq]
    · rw [write_mem_of_mem p _ (.inl hc)]
      exact h.used c hc
  free c hc := by
    rw [write_mem_of_mem p _ (.inr hc)]
    exact h.free c hc

/-- Once the open block's buddy is not free, marking the block available makes it free. -/
theorem closeFree (h : DescribesOpen p O) (hbuddy : O.cur.buddy ∉ O.free) {x : BlkNode}
    (hx : HeaderOf n O.cur x) (havail : x.isAvail = true) :
    Describes (p.write O.cur.off x) (O.closeFree hbuddy) where
  lists := by
    rw [O.closeFree_blocks hbuddy]
    exact h.lists.write _ _
  headers := by
    rw [O.closeFree_blocks hbuddy]
    exact h.write_headers hx
  used c hc := by
    rw [write_mem_of_mem p _ (.inl hc)]
    exact h.used c hc
  free c hc := by
    rcases hc with heq | hc
    · rw [heq, Pool.write_mem, Function.update_self]
      exact havail
    · rw [write_mem_of_mem p _ (.inr hc)]
      exact h.free c hc

end DescribesOpen

end Experimentation.Buddy
