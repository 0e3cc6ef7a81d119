import Experimentation.Semantics.Flags

/-!
# Block headers of the buddy pool

Every block of the pool begins with a `blknode_t`: three flags, the binary logarithm of the
block's length and the address handed to the client.  Addresses are byte offsets from the start of
the pool's memory.  The links of a node's list are not part of the header here; the lists are kept
as sequences of node addresses in the pool itself.
-/

namespace Experimentation.Buddy

open Semantics

/-- The flags of a header. -/
inductive NodeFlag
  /-- If not set, node is reserved, else available. -/
  | avail
  /-- If not set, node is left buddy, else right buddy. -/
  | lr
  /-- If not set, parent is left buddy, else right buddy. -/
  | parent
deriving DecidableEq, Repr

/-- `MPOOL_NODE_AVAIL`, `MPOOL_NODE_LR` and `MPOOL_NODE_PARENT`. -/
def NodeFlag.mask : NodeFlag → FlagByte
  | avail => 1 <<< 0
  | lr => 1 <<< 1
  | parent => 1 <<< 2

theorem NodeFlag.mask_ne_zero (f : NodeFlag) : f.mask ≠ 0 := by
  cases f <;> decide

theorem NodeFlag.mask_disjoint {f g : NodeFlag} (h : f ≠ g) : f.mask &&& g.mask = 0 := by
  cases f <;> cases g <;> first | exact absurd rfl h | decide

/-- A `blknode_t` without its list links. -/
@[ext]
structure BlkNode where
  flags : FlagByte
  logsize : ℕ
  ptr : ℕ
deriving DecidableEq, Repr

/-- `sizeof(blknode_t)` with 64-bit pointers and sizes: one flag byte padded to eight, the
logarithm, the client's pointer and the two links. -/
def sizeofBlkNode : ℕ := 40

namespace BlkNode

/-- The flag test shared by the `MPOOL_IS_*` macros. -/
def has (n : BlkNode) (f : NodeFlag) : Bool := FlagByte.test f.mask n.flags

/-- The bit set by a `MPOOL_MARK_*` macro. -/
def mark (f : NodeFlag) (n : BlkNode) : BlkNode := { n with flags := FlagByte.set f.mask n.flags }

/-- The bit cleared by a `MPOOL_MARK_*` macro. -/
def unmark (f : NodeFlag) (n : BlkNode) : BlkNode :=
  { n with flags := FlagByte.clear f.mask n.flags }

@[simp]
theorem has_mark (n : BlkNode) (f g : NodeFlag) :
    (n.mark f).has g = if f = g then true else n.has g := by
  split
  next heq =>
    subst heq
    exact FlagByte.test_set_self f.mask_ne_zero _
  next hne => exact FlagByte.test_set_other (NodeFlag.mask_disjoint hne) _

@[simp]
theorem has_unmark (n : BlkNode) (f g : NodeFlag) :
    (n.unmark f).has g = if f = g then false else n.has g := by
  split
  next heq =>
    subst heq
    exact FlagByte.test_clear_self _ _
  next hne => exact FlagByte.test_clear_other (NodeFlag.mask_disjoint hne) _

@[simp] theorem mark_logsize (n : BlkNode) (f : NodeFlag) : (n.mark f).logsize = n.logsize := rfl
@[simp] theorem mark_ptr (n : BlkNode) (f : NodeFlag) : (n.mark f).ptr = n.ptr := rfl
@[simp] theorem unmark_logsize (n : BlkNode) (f : NodeFlag) :
    (n.unmark f).logsize = n.logsize := rfl
@[simp] theorem unmark_ptr (n : BlkNode) (f : NodeFlag) : (n.unmark f).ptr = n.ptr := rfl

@[simp]
theorem has_withLogsize (n : BlkNode) (k : ℕ) (f : NodeFlag) :
    ({ n with logsize := k } : BlkNode).has f = n.has f := rfl

/-- `MPOOL_IS_AVAIL`; `MPOOL_IS_USED` is its negation. -/
@[simp] def isAvail (n : BlkNode) : Bool := n.has .avail

/-- `MPOOL_IS_RIGHT`; `MPOOL_IS_LEFT` is its negation. -/
@[simp] def isRight (n : BlkNode) : Bool := n.has .lr

@[simp] def isParent (n : BlkNode) : Bool := n.has .parent

@[simp] def markAvail (n : BlkNode) : BlkNode := n.mark .avail

@[simp] def markUsed (n : BlkNode) : BlkNode := n.unmark .avail

@[simp] def markLeft (n : BlkNode) : BlkNode := n.unmark .lr

@[simp] def markRight (n : BlkNode) : BlkNode := n.mark .lr

@[simp] def markParent (n : BlkNode) : BlkNode := n.mark .parent

@[simp] def markNotParent (n : BlkNode) : BlkNode := n.unmark .parent

end BlkNode

/-! ## The initialisation macro -/

def mpoolBlockAvail : ℤ := 1

def mpoolBlockLeft : ℤ := 2

def mpoolBlockRight : ℤ := 3

def mpoolBlockParent : ℤ := 4

/-- `MPOOL_BLOCK_INIT`, applied to what the memory held at the node's address. -/
def mpoolBlockInit (node : BlkNode) (ptr : ℕ) (avail lr parent : ℤ) (logsize : ℕ) : BlkNode :=
  let node := { node with ptr := ptr, logsize := logsize }
  let node := if avail = mpoolBlockAvail then node.markAvail else node.markUsed
  let node := if lr = mpoolBlockRight then node.markRight else node.markLeft
  if parent = mpoolBlockParent then node.markParent else node.markNotParent

section BlockInit

variable (node : BlkNode) (p k : ℕ) (avail lr parent : ℤ)

@[simp]
theorem mpoolBlockInit_ptr : (mpoolBlockInit node p avail lr parent k).ptr = p := by
  unfold mpoolBlockInit
  split_ifs <;> rfl

@[simp]
theorem mpoolBlockInit_logsize : (mpoolBlockInit node p avail lr parent k).logsize = k := by
  unfold mpoolBlockInit
  split_ifs <;> rfl

@[simp]
theorem mpoolBlockInit_has (f : NodeFlag) :
    (mpoolBlockInit node p avail lr parent k).has f =
      match f with
      | .avail => decide (avail = mpoolBlockAvail)
      | .lr => decide (lr = mpoolBlockRight)
      | .parent => decide (parent = mpoolBlockParent) := by
  unfold mpoolBlockInit
  cases f <;> split_ifs <;> simp_all

end BlockInit

end Experimentation.Buddy
