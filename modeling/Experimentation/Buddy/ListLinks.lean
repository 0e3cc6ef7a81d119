import Experimentation.Buddy.Run
import Experimentation.Semantics.LinkedLists

/-!
# The buddy pool with the links of its lists

The functions of `mpool.c` once more, now with the links of `LIST_HEAD` and `LIST_ENTRY` as they are
kept in memory: `lh_first` in the entries of `blktable`, `le_next` and `le_prev` in the headers of
the blocks, inside the pool.  A link leads to an offset from `mpool->mem`.  What `malloc` left in
the link fields, and what clients write there, is arbitrary; `LIST_REMOVE` follows and changes
whatever it finds in them.  A walk along a list is given one turn for each byte of the pool.
-/

namespace Experimentation.Buddy

open LinkedLists Semantics
open TailQueue (Slot)

/-- A `blknode_t` with its `next_chunk`. -/
structure LinkedNode extends BlkNode where
  leNext : Option ℕ
  lePrev : Slot ℕ ℕ

/-- `mpool_t`, with `bytes` the number of bytes that were requested for `mem`, and with `lh_first`
of every head in `blktable`. -/
structure LinkedPool where
  mem : ℕ → LinkedNode
  bytes : ℕ
  nblocks : ℕ
  maxlogsize : ℕ
  minlogsize : ℕ
  nsplits : ℕ
  nmerges : ℕ
  blktable : List (Option ℕ)

namespace LinkedPool

/-- The memory with the node at `o` overwritten. -/
def setMem (p : LinkedPool) (o : ℕ) (n : LinkedNode) : LinkedPool :=
  { p with mem := Function.update p.mem o n }

def load (p : LinkedPool) (o : ℕ) : Exec LinkedNode :=
  if o + sizeofBlkNode ≤ p.bytes then .ok (p.mem o) else .error .outOfBounds

/-- Write the members of the node at `o` other than its links. -/
def store (p : LinkedPool) (o : ℕ) (x : BlkNode) : Exec LinkedPool := do
  let n ← p.load o
  return p.setMem o { n with toBlkNode := x }

/-- Write a link through the place where it is kept. -/
def writeLink (p : LinkedPool) : Slot ℕ ℕ → Option ℕ → Exec LinkedPool
  | .first pos, link =>
      if pos < p.blktable.length then
        .ok { p with blktable := p.blktable.set pos link }
      else
        .error .outOfBounds
  | .next o, link => do
      let n ← p.load o
      return p.setMem o { n with leNext := link }

/-- Write `le_prev` of the node that a link leads to, if there is one. -/
def writePrev (p : LinkedPool) : Option ℕ → Slot ℕ ℕ → Exec LinkedPool
  | none, _ => return p
  | some o, s => do
      let n ← p.load o
      return p.setMem o { n with lePrev := s }

/-! ## List macros -/

/-- `LIST_FIRST(&mpool->blktable[pos])`. -/
def listFirst (p : LinkedPool) (pos : ℕ) : Exec (Option ℕ) :=
  match p.blktable[pos]? with
  | some link => .ok link
  | none => .error .outOfBounds

/-- `LIST_INSERT_HEAD(&mpool->blktable[pos], pnode, next_chunk)`. -/
def insertHead (p : LinkedPool) (pos o : ℕ) : Exec LinkedPool := do
  let first ← p.listFirst pos
  let p ← p.writeLink (.next o) first
  let p ← p.writePrev first (.next o)
  let p ← p.writeLink (.first pos) (some o)
  p.writePrev (some o) (.first pos)

/-- `LIST_REMOVE(pnode, next_chunk)`. -/
def listRemove (p : LinkedPool) (o : ℕ) : Exec LinkedPool := do
  let n ← p.load o
  let p ← p.writePrev n.leNext n.lePrev
  let n ← p.load o
  p.writeLink n.lePrev n.leNext

/-! ## The functions of the pool -/

/-- The members that `mpool_init` sets and the empty lists, before the first block is made. -/
def empty (garbage : ℕ → LinkedNode) (bytes maxlogsize minlogsize : ℕ) : LinkedPool :=
  let nblocks := maxlogsize - minlogsize + 1
  { mem := garbage, bytes := bytes, nblocks := nblocks, maxlogsize := maxlogsize,
    minlogsize := minlogsize, nsplits := 0, nmerges := 0, blktable := List.replicate nblocks none }

/-- `mpool_init`.  `garbage` is what the memory of the pool holds when `malloc` returns it. -/
def mpoolInit (mallocs : InitMallocs) (garbage : ℕ → LinkedNode) (maxlogsize minlogsize : ℕ) :
    Exec (MpRet × Option LinkedPool) :=
  if maxlogsize > sizeTBits then
    return (.erange, none)
  else if maxlogsize < minlogsize then
    return (.ebadval, none)
  else do
    let minsize ← shiftOne minlogsize
    if minsize ≤ sizeofBlkNode then
      return (.ebadval, none)
    else if !mallocs.pool then
      return (.enomem, none)
    else do
      let bytes ← shiftOne maxlogsize
      if !mallocs.mem || !mallocs.blktable then
        return (.enomem, none)
      else do
        let p := empty garbage bytes maxlogsize minlogsize
        let old ← p.load 0
        let p ← p.store 0 (mpoolBlockInit old.toBlkNode sizeofBlkNode mpoolBlockAvail
          mpoolBlockLeft mpoolBlockParent maxlogsize)
        let p ← p.insertHead 0 0
        return (.ok, some p)

/-- The inner search loop: the first available node on the way from a link. -/
def firstAvail (p : LinkedPool) : (fuel : ℕ) → Option ℕ → Exec (Option ℕ)
  | _, none => return none
  | 0, some _ => throw .outOfFuel
  | fuel + 1, some o => do
      let n ← p.load o
      if n.isAvail then
        return some o
      else
        firstAvail p fuel n.leNext

/-- The outer search loop of `mpool_alloc` over the heads that are still to be searched. -/
def searchTable (p : LinkedPool) (size : ℕ) : List (Option ℕ) → Option ℕ → Exec (Option ℕ)
  | [], pavailnode => return pavailnode
  | none :: heads, pavailnode => searchTable p size heads pavailnode
  | some o :: heads, pavailnode => do
      let n ← p.load o
      let length ← shiftOne n.logsize
      if length ≥ size then
        match ← firstAvail p p.bytes (some o) with
        | some hit => searchTable p size heads (some hit)
        | none => searchTable p size heads pavailnode
      else
        searchTable p size heads pavailnode

/-- The end of `mpool_alloc`: mark the node used and return its `ptr`. -/
def markAndReturn (p : LinkedPool) (node : ℕ) : Exec (LinkedPool × ℕ) := do
  let n ← p.load node
  let p ← p.store node n.markUsed
  return (p, n.ptr)

/-- One turn of the split loop, from the node `n` of the block at `node`, whose logarithm is
`k + 1`. -/
def splitBlock (p : LinkedPool) (node : ℕ) (n : LinkedNode) (k : ℕ) : Exec LinkedPool := do
  let p := { p with nsplits := wrapSize (p.nsplits + 1) }
  let p ← p.listRemove node
  let p ← p.store node (shrunkNode n.toBlkNode k)
  let newpos := subSize p.maxlogsize k
  let p ← p.insertHead newpos node
  let newnode := node + (← shiftOne k)
  let old ← p.load newnode
  let p ← p.store newnode (newNode old.toBlkNode newnode n.toBlkNode k)
  p.insertHead newpos newnode

/-- The loop at the label `AGAIN` of `mpool_alloc`. -/
def allocAgain (size node : ℕ) : (logsize : ℕ) → LinkedPool → Exec (LinkedPool × ℕ)
  | 0, p => do
      let whole ← shiftOne 0
      if size = whole then
        markAndReturn p node
      else
        -- `1 << (logsize - 1)` shifts by the largest `size_t`
        throw .shift
  | k + 1, p => do
      let n ← p.load node
      let whole ← shiftOne (k + 1)
      if size = whole then
        markAndReturn p node
      else do
        let half ← shiftOne k
        if size > half ∨ p.minlogsize > k then
          markAndReturn p node
        else do
          let p ← splitBlock p node n k
          allocAgain size node k p

/-- `mpool_alloc`; `none` is `NULL`. -/
def mpoolAlloc (p : LinkedPool) (blksize : ℕ) : Exec (LinkedPool × Option ℕ) := do
  let size := wrapSize (blksize + sizeofBlkNode)
  match ← searchTable p size p.blktable none with
  | none => return (p, none)
  | some pavailnode =>
      let n ← p.load pavailnode
      let (p, ptr) ← allocAgain size pavailnode n.logsize p
      return (p, some ptr)

/-- The pool without its links, its lists being those of `table`. -/
def toPool (p : LinkedPool) (table : List (List ℕ)) : Pool :=
  { mem := fun o ↦ (p.mem o).toBlkNode, bytes := p.bytes, nblocks := p.nblocks,
    maxlogsize := p.maxlogsize, minlogsize := p.minlogsize, nsplits := p.nsplits,
    nmerges := p.nmerges, blktable := table }

/-- The coalescing branch of `mpool_free`: join the node `n` at `node` with the available buddy `b`
at `buddy`.  The result has no node when control returns without reinserting one. -/
def coalesce (p : LinkedPool) (node : ℕ) (n : LinkedNode) (buddy : ℕ) (b : LinkedNode) :
    Exec (LinkedPool × Option ℕ) := do
  let p := { p with nmerges := wrapSize (p.nmerges + 1) }
  let p ← p.listRemove node
  let p ← p.listRemove buddy
  match mergeNodes node n.toBlkNode buddy b.toBlkNode with
  | none => return (p, none)
  | some (pmerged, m) =>
      let m := { m with logsize := wrapSize (n.logsize + 1) }
      let p ← p.store pmerged m.markAvail
      let newpos := subSize p.maxlogsize m.logsize
      let p ← p.insertHead newpos pmerged
      return (p, some pmerged)

/-- The loop at the label `CHUNK_FOUND` of `mpool_free`.  The address of the possible buddy depends
on no list. -/
def chunkFound : (fuel : ℕ) → LinkedPool → (node : ℕ) → Exec LinkedPool
  | 0, _, _ => throw .outOfFuel
  | fuel + 1, p, node => do
      let n ← p.load node
      if n.logsize = p.maxlogsize then
        if n.isAvail then
          return p
        else
          p.store node n.markAvail
      else
        match ← possibleBuddy (p.toPool []) node n.toBlkNode with
        | none => return p
        | some buddy =>
            let b ← p.load buddy
            if b.logsize ≠ n.logsize ∨ b.isAvail = false then
              p.store node n.markAvail
            else
              match ← coalesce p node n buddy b with
              | (p, none) => return p
              | (p, some pmerged) => chunkFound fuel p pmerged

/-- `mpool_free`, with the header taken from the bytes before `ptr`. -/
def mpoolFree (p : LinkedPool) (ptr : ℕ) : Exec LinkedPool :=
  if ptr < sizeofBlkNode then
    throw .outOfBounds
  else
    chunkFound (p.maxlogsize + 1) p (ptr - sizeofBlkNode)

end LinkedPool

/-! ## Runs -/

/-- A pool with the allocations that its clients hold. -/
structure LinkedState where
  pool : LinkedPool
  live : List Allocation

/-- One step of a run.  A client may change everything in the header cells that its payload
overlaps, links included. -/
inductive LinkedStep : LinkedState → LinkedState → Prop
  | alloc {s : LinkedState} {p : LinkedPool} {ptr : ℕ} (blksize : ℕ)
      (hsize : blksize < sizeModulus) (h : s.pool.mpoolAlloc blksize = .ok (p, some ptr)) :
      LinkedStep s ⟨p, ⟨ptr, blksize⟩ :: s.live⟩
  | refused {s : LinkedState} {p : LinkedPool} (blksize : ℕ) (hsize : blksize < sizeModulus)
      (h : s.pool.mpoolAlloc blksize = .ok (p, none)) : LinkedStep s ⟨p, s.live⟩
  | free {s : LinkedState} {p : LinkedPool} (a : Allocation) (ha : a ∈ s.live)
      (h : s.pool.mpoolFree a.ptr = .ok p) : LinkedStep s ⟨p, s.live.erase a⟩
  | write {s : LinkedState} (mem : ℕ → LinkedNode)
      (h : ∀ o, mem o ≠ s.pool.mem o → ∃ a ∈ s.live, NoWrap a.size ∧ a.Overlaps o) :
      LinkedStep s ⟨{ s.pool with mem := mem }, s.live⟩

/-- The states that runs reach from pools initialised with the two logarithms. -/
inductive LinkedReach (maxlogsize minlogsize : ℕ) : LinkedState → Prop
  | init {p : LinkedPool} (mallocs : InitMallocs) (garbage : ℕ → LinkedNode)
      (h : LinkedPool.mpoolInit mallocs garbage maxlogsize minlogsize = .ok (.ok, some p)) :
      LinkedReach maxlogsize minlogsize ⟨p, []⟩
  | step {s t : LinkedState} (hs : LinkedReach maxlogsize minlogsize s) (h : LinkedStep s t) :
      LinkedReach maxlogsize minlogsize t

end Experimentation.Buddy
