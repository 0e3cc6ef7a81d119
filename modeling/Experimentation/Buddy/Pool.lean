import Experimentation.Buddy.Node
import Experimentation.Semantics.Exec

/-!
# The buddy pool

The pool of `mpool.c`, function by function.  A pointer into the pool is a byte offset from
`mpool->mem`; the headers that live in that memory are a map from offsets, read and written only
inside the memory that was requested for it, and each entry of `blktable` is the sequence of node
addresses of its list.  What `malloc` left in the memory, and what clients write there, is
arbitrary.  The functions are those compiled without `MPOOL_OPT_FOR_SECURITY` and with
`MPOOL_STATS`.
-/

namespace Experimentation.Buddy

open Semantics

/-- `CHAR_BIT * sizeof(size_t)`. -/
def sizeTBits : ℕ := 64

/-- `mpool_t`, with `bytes` the number of bytes that were requested for `mem`. -/
structure Pool where
  mem : ℕ → BlkNode
  bytes : ℕ
  nblocks : ℕ
  maxlogsize : ℕ
  minlogsize : ℕ
  nsplits : ℕ
  nmerges : ℕ
  blktable : List (List ℕ)

inductive MpRet
  | ok
  | ebadval
  | enomem
  | erange
deriving DecidableEq, Repr

namespace Pool

/-! ## Memory and lists -/

/-- The memory with the header at `o` overwritten. -/
def write (p : Pool) (o : ℕ) (n : BlkNode) : Pool := { p with mem := Function.update p.mem o n }

/-- The lists with `o` in front of list `pos`. -/
def push (p : Pool) (pos o : ℕ) : Pool :=
  { p with blktable := p.blktable.modify pos (o :: ·) }

def load (p : Pool) (o : ℕ) : Exec BlkNode :=
  if o + sizeofBlkNode ≤ p.bytes then .ok (p.mem o) else .error .outOfBounds

def store (p : Pool) (o : ℕ) (n : BlkNode) : Exec Pool :=
  if o + sizeofBlkNode ≤ p.bytes then .ok (p.write o n) else .error .outOfBounds

/-- `LIST_INSERT_HEAD(&mpool->blktable[pos], pnode, next_chunk)`. -/
def insertHead (p : Pool) (pos o : ℕ) : Exec Pool :=
  if pos < p.blktable.length then .ok (p.push pos o) else .error .outOfBounds

/-- `LIST_REMOVE(pnode, next_chunk)`: the node is unlinked from the list it is on. -/
def listRemove (p : Pool) (o : ℕ) : Pool :=
  { p with blktable := p.blktable.map (·.erase o) }

section Fields

variable (p : Pool) (o pos : ℕ) (n : BlkNode)

@[simp] theorem write_mem : (p.write o n).mem = Function.update p.mem o n := rfl
@[simp] theorem write_bytes : (p.write o n).bytes = p.bytes := rfl
@[simp] theorem write_blktable : (p.write o n).blktable = p.blktable := rfl
@[simp] theorem write_maxlogsize : (p.write o n).maxlogsize = p.maxlogsize := rfl
@[simp] theorem write_minlogsize : (p.write o n).minlogsize = p.minlogsize := rfl
@[simp] theorem write_nblocks : (p.write o n).nblocks = p.nblocks := rfl
@[simp] theorem push_mem : (p.push pos o).mem = p.mem := rfl
@[simp] theorem push_bytes : (p.push pos o).bytes = p.bytes := rfl
@[simp] theorem push_maxlogsize : (p.push pos o).maxlogsize = p.maxlogsize := rfl
@[simp] theorem push_minlogsize : (p.push pos o).minlogsize = p.minlogsize := rfl
@[simp] theorem push_nblocks : (p.push pos o).nblocks = p.nblocks := rfl
@[simp] theorem push_length : (p.push pos o).blktable.length = p.blktable.length :=
  List.length_modify _ _ _
@[simp] theorem listRemove_mem : (p.listRemove o).mem = p.mem := rfl
@[simp] theorem listRemove_bytes : (p.listRemove o).bytes = p.bytes := rfl
@[simp] theorem listRemove_maxlogsize : (p.listRemove o).maxlogsize = p.maxlogsize := rfl
@[simp] theorem listRemove_minlogsize : (p.listRemove o).minlogsize = p.minlogsize := rfl
@[simp] theorem listRemove_nblocks : (p.listRemove o).nblocks = p.nblocks := rfl
@[simp] theorem listRemove_length : (p.listRemove o).blktable.length = p.blktable.length :=
  List.length_map _

variable {p o pos}

theorem load_eq (h : o + sizeofBlkNode ≤ p.bytes) : p.load o = .ok (p.mem o) := if_pos h

theorem store_eq (h : o + sizeofBlkNode ≤ p.bytes) : p.store o n = .ok (p.write o n) := if_pos h

theorem insertHead_eq (h : pos < p.blktable.length) : p.insertHead pos o = .ok (p.push pos o) :=
  if_pos h

end Fields

end Pool

/-- Which of the three allocations of `mpool_init` succeed. -/
structure InitMallocs where
  pool : Bool
  mem : Bool
  blktable : Bool

/-- The members that `mpool_init` sets and the empty lists, before the first block is made. -/
def emptyPool (garbage : ℕ → BlkNode) (bytes maxlogsize minlogsize : ℕ) : Pool :=
  let nblocks := maxlogsize - minlogsize + 1
  { mem := garbage, bytes := bytes, nblocks := nblocks, maxlogsize := maxlogsize,
    minlogsize := minlogsize, nsplits := 0, nmerges := 0, blktable := List.replicate nblocks [] }

/-- `mpool_init`.  `garbage` is what the memory of the pool holds when `malloc` returns it. -/
def mpoolInit (mallocs : InitMallocs) (garbage : ℕ → BlkNode) (maxlogsize minlogsize : ℕ) :
    Exec (MpRet × Option Pool) :=
  if maxlogsize > sizeTBits then
    return (.erange, none)
  else if maxlogsize < minlogsize then
    return (.ebadval, none)
  else do
    let minsize ← shiftOne minlogsize
    if minsize ≤ sizeofBlkNode then
      return (.ebadval, none)
    else if !mallocs.pool then
      return (.enomem, none)
    else do
      let bytes ← shiftOne maxlogsize
      if !mallocs.mem || !mallocs.blktable then
        return (.enomem, none)
      else do
        let p := emptyPool garbage bytes maxlogsize minlogsize
        let old ← p.load 0
        let p ← p.store 0 (mpoolBlockInit old sizeofBlkNode mpoolBlockAvail mpoolBlockLeft
          mpoolBlockParent maxlogsize)
        let p ← p.insertHead 0 0
        return (.ok, some p)

/-! ## Allocation -/

/-- The inner search loop: the first available node of a list. -/
def firstAvail (p : Pool) : List ℕ → Exec (Option ℕ)
  | [] => return none
  | o :: rest => do
      let n ← p.load o
      if n.isAvail then
        return some o
      else
        firstAvail p rest

/-- The outer search loop of `mpool_alloc` over the lists that are still to be searched.  The
size test looks at the first node of a list, and a hit replaces the candidate of the lists before
it. -/
def searchTable (p : Pool) (size : ℕ) : List (List ℕ) → Option ℕ → Exec (Option ℕ)
  | [], pavailnode => return pavailnode
  | [] :: table, pavailnode => searchTable p size table pavailnode
  | (o :: rest) :: table, pavailnode => do
      let n ← p.load o
      let length ← shiftOne n.logsize
      if length ≥ size then
        match ← firstAvail p (o :: rest) with
        | some hit => searchTable p size table (some hit)
        | none => searchTable p size table pavailnode
      else
        searchTable p size table pavailnode

/-- The end of `mpool_alloc`: mark the node used and return its `ptr`. -/
def markAndReturn (p : Pool) (node : ℕ) : Exec (Pool × ℕ) := do
  let n ← p.load node
  let p ← p.store node n.markUsed
  return (p, n.ptr)

/-- The header of the chunk that is split, shrunk to its lower half of length `2 ^ k`. -/
def shrunkNode (n : BlkNode) (k : ℕ) : BlkNode :=
  let n := { n with logsize := k }
  let n := if n.isRight then n.markParent else n.markNotParent
  n.markLeft

/-- The header written over `old` at `newnode`, the upper half of a chunk whose flags were those of
`flag`. -/
def newNode (old : BlkNode) (newnode : ℕ) (flag : BlkNode) (k : ℕ) : BlkNode :=
  mpoolBlockInit old (newnode + sizeofBlkNode) mpoolBlockAvail mpoolBlockRight
    (if flag.isParent then mpoolBlockParent else -1) k

/-- One turn of the split loop, from the header `n` of the block at `node`, whose logarithm is
`k + 1`. -/
def splitBlock (p : Pool) (node : ℕ) (n : BlkNode) (k : ℕ) : Exec Pool := do
  let p := { p with nsplits := wrapSize (p.nsplits + 1) }
  let p := p.listRemove node
  let p ← p.store node (shrunkNode n k)
  let newpos := subSize p.maxlogsize k
  let p ← p.insertHead newpos node
  let newnode := node + (← shiftOne k)
  let p ← p.store newnode (newNode (← p.load newnode) newnode n k)
  p.insertHead newpos newnode

/-- The loop at the label `AGAIN` of `mpool_alloc`.  The recursion is on `pavailnode->logsize`,
which every turn lowers by one. -/
def allocAgain (size node : ℕ) : (logsize : ℕ) → Pool → Exec (Pool × ℕ)
  | 0, p => do
      let whole ← shiftOne 0
      if size = whole then
        markAndReturn p node
      else
        -- `1 << (logsize - 1)` shifts by the largest `size_t`
        throw .shift
  | k + 1, p => do
      let n ← p.load node
      let whole ← shiftOne (k + 1)
      if size = whole then
        markAndReturn p node
      else do
        let half ← shiftOne k
        if size > half ∨ p.minlogsize > k then
          markAndReturn p node
        else do
          let p ← splitBlock p node n k
          allocAgain size node k p

/-- `mpool_alloc`; `none` is `NULL`. -/
def mpoolAlloc (p : Pool) (blksize : ℕ) : Exec (Pool × Option ℕ) := do
  let size := wrapSize (blksize + sizeofBlkNode)
  match ← searchTable p size p.blktable none with
  | none => return (p, none)
  | some pavailnode =>
      let n ← p.load pavailnode
      let (p, ptr) ← allocAgain size pavailnode n.logsize p
      return (p, some ptr)

/-! ## Release -/

/-- The address of the possible buddy of the node `n` at `node`, and `none` when it is out of the
pool. -/
def possibleBuddy (p : Pool) (node : ℕ) (n : BlkNode) : Exec (Option ℕ) := do
  let length ← shiftOne n.logsize
  if n.isRight then
    -- `pbuddy < mpool->mem`
    if node < length then
      return none
    else
      return some (node - length)
  else do
    let size ← shiftOne p.maxlogsize
    if node + length > size - 1 then
      return none
    else
      return some (node + length)

/-- The flags of the joined node, kept in the header of the left buddy: its own `PARENT` bit becomes
the `LR` bit, and the `PARENT` bit is taken from the right buddy. -/
def mergedNode (left right : BlkNode) : BlkNode :=
  let m := if left.isParent then left.markRight else left.markLeft
  if right.isParent then m.markParent else m.markNotParent

/-- The node left by joining `n` at `node` and `b` at `buddy`, with its address; `none` when
neither of the two is a left buddy. -/
def mergeNodes (node : ℕ) (n : BlkNode) (buddy : ℕ) (b : BlkNode) : Option (ℕ × BlkNode) :=
  if !n.isRight then
    some (node, mergedNode n b)
  else if !b.isRight then
    some (buddy, mergedNode b n)
  else
    none

/-- The coalescing branch of `mpool_free`: join the node `n` at `node` with the available buddy `b`
at `buddy`.  The result has no node when control returns without reinserting one. -/
def coalesce (p : Pool) (node : ℕ) (n : BlkNode) (buddy : ℕ) (b : BlkNode) :
    Exec (Pool × Option ℕ) := do
  let p := { p with nmerges := wrapSize (p.nmerges + 1) }
  let p := (p.listRemove node).listRemove buddy
  match mergeNodes node n buddy b with
  | none => return (p, none)
  | some (pmerged, m) =>
      let m := { m with logsize := wrapSize (n.logsize + 1) }
      let p ← p.store pmerged m.markAvail
      let newpos := subSize p.maxlogsize m.logsize
      let p ← p.insertHead newpos pmerged
      return (p, some pmerged)

/-- The loop at the label `CHUNK_FOUND` of `mpool_free`.  Every turn but the last joins two blocks
into one of the next length, so the loop is given one turn for each length. -/
def chunkFound : (fuel : ℕ) → Pool → (node : ℕ) → Exec Pool
  | 0, _, _ => throw .outOfFuel
  | fuel + 1, p, node => do
      let n ← p.load node
      if n.logsize = p.maxlogsize then
        if n.isAvail then
          return p
        else
          p.store node n.markAvail
      else
        match ← possibleBuddy p node n with
        | none => return p
        | some buddy =>
            let b ← p.load buddy
            if b.logsize ≠ n.logsize ∨ b.isAvail = false then
              p.store node n.markAvail
            else
              match ← coalesce p node n buddy b with
              | (p, none) => return p
              | (p, some pmerged) => chunkFound fuel p pmerged

/-- `mpool_free`, with the header taken from the bytes before `ptr`. -/
def mpoolFree (p : Pool) (ptr : ℕ) : Exec Pool :=
  if ptr < sizeofBlkNode then
    throw .outOfBounds
  else
    chunkFound (p.maxlogsize + 1) p (ptr - sizeofBlkNode)

end Experimentation.Buddy
