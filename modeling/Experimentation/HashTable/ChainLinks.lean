import Experimentation.HashTable.Run
import Experimentation.Semantics.LinkedLists

/-!
# The hash table with the links of its chains

The functions of `htable.c` once more, now with the links of `TAILQ_HEAD` and `TAILQ_ENTRY` as they
are kept in memory: `tqh_first` and `tqh_last` in the arrays of heads, `tqe_next` and `tqe_prev` in
the nodes.  A node and an array of heads are blocks that `malloc` returned and `free` takes back; to
access one that is not allocated, or to free it, is undefined.  While the table grows, nodes hang on
the heads of two arrays.  A walk along a chain is given one turn for each address.

What `malloc` answers is an argument of each function that calls it: an address, or nothing.
-/

namespace Experimentation.HashTable

open LinkedLists Semantics
open TailQueue (Slot)

variable {K D : Type}

/-- A head is named by its array and its index. -/
abbrev Place := Slot (ℕ × ℕ) ℕ

/-- A `hnode_t` with its `hn_next`. -/
structure LinkedHNode (K D : Type) extends HNode K D where
  tqeNext : Option ℕ
  tqePrev : Place

/-- A `hhead_t`. -/
structure HHead where
  tqhFirst : Option ℕ
  tqhLast : Place

/-- The nodes and the arrays of heads that are allocated. -/
structure HHeap (K D : Type) where
  nodes : ℕ → Option (LinkedHNode K D)
  arrays : ℕ → Option (List HHead)

namespace HHeap

def node (h : HHeap K D) (o : ℕ) : Exec (LinkedHNode K D) :=
  match h.nodes o with
  | some n => .ok n
  | none => .error .badPointer

/-- The memory with a node overwritten, or allocated. -/
def setNode (h : HHeap K D) (o : ℕ) (n : LinkedHNode K D) : HHeap K D :=
  { h with nodes := Function.update h.nodes o (some n) }

def head? (h : HHeap K D) (q : ℕ × ℕ) : Option HHead := (h.arrays q.1).bind (·[q.2]?)

def head (h : HHeap K D) (q : ℕ × ℕ) : Exec HHead :=
  match h.arrays q.1 with
  | none => .error .badPointer
  | some heads =>
      match heads[q.2]? with
      | some hd => .ok hd
      | none => .error .outOfBounds

def setHead (h : HHeap K D) (q : ℕ × ℕ) (hd : HHead) : HHeap K D :=
  { h with arrays := Function.update h.arrays q.1 ((h.arrays q.1).map (·.set q.2 hd)) }

/-- Write a link through the place where it is kept. -/
def writeLink (h : HHeap K D) : Place → Option ℕ → Exec (HHeap K D)
  | .first q, link => do
      let hd ← h.head q
      return h.setHead q { hd with tqhFirst := link }
  | .next o, link => do
      let n ← h.node o
      return h.setNode o { n with tqeNext := link }

def freeNode (h : HHeap K D) (o : ℕ) : Exec (HHeap K D) := do
  let _ ← h.node o
  return { h with nodes := Function.update h.nodes o none }

def freeHeads (h : HHeap K D) (a : ℕ) : Exec (HHeap K D) :=
  match h.arrays a with
  | none => .error .badPointer
  | some _ => .ok { h with arrays := Function.update h.arrays a none }

/-- The array at `a`, of `bytes` bytes, after `TAILQ_INIT` of its first `size` heads. -/
def initHeads (h : HHeap K D) (a bytes size : ℕ) : Exec (HHeap K D) :=
  if size * sizeofHhead ≤ bytes then
    let heads := (List.range size).map fun i ↦ ⟨none, .first (a, i)⟩
    .ok { h with arrays := Function.update h.arrays a (some heads) }
  else
    .error .outOfBounds

/-! ## Queue macros -/

/-- `TAILQ_INSERT_TAIL(head, pnode, hn_next)`. -/
def insertTail (h : HHeap K D) (q : ℕ × ℕ) (o : ℕ) : Exec (HHeap K D) := do
  let n ← h.node o
  let h := h.setNode o { n with tqeNext := none }
  let hd ← h.head q
  let n ← h.node o
  let h := h.setNode o { n with tqePrev := hd.tqhLast }
  let h ← h.writeLink hd.tqhLast (some o)
  let hd ← h.head q
  return h.setHead q { hd with tqhLast := .next o }

/-- The first assignment of `TAILQ_REMOVE`: what comes after the node is told where the link to it
will be kept. -/
def relinkNext (h : HHeap K D) (q : ℕ × ℕ) (next : Option ℕ) (prev : Place) :
    Exec (HHeap K D) :=
  match next with
  | some m => do
      let n ← h.node m
      return h.setNode m { n with tqePrev := prev }
  | none => do
      let hd ← h.head q
      return h.setHead q { hd with tqhLast := prev }

/-- `TAILQ_REMOVE(head, pnode, hn_next)`. -/
def remove (h : HHeap K D) (q : ℕ × ℕ) (o : ℕ) : Exec (HHeap K D) := do
  let n ← h.node o
  let h ← h.relinkNext q n.tqeNext n.tqePrev
  let n ← h.node o
  h.writeLink n.tqePrev n.tqeNext

/-- The walk along a chain from a link on, up to the first node with an equal key. -/
def findFrom (cb : Callbacks K) (h : HHeap K D) (key : K) :
    (fuel : ℕ) → Option ℕ → Exec (Option ℕ)
  | _, none => return none
  | 0, some _ => throw .outOfFuel
  | fuel + 1, some o => do
      let n ← h.node o
      if cb.sameKey key n.toHNode then
        return some o
      else
        findFrom cb h key fuel n.tqeNext

/-- The inner loop of `htable_grow`: as long as the head has a first node, that node is hung onto
the head of the array `new` that it belongs to. -/
def moveChain (cb : Callbacks K) (newsize new : ℕ) (q : ℕ × ℕ) :
    (fuel : ℕ) → HHeap K D → Exec (HHeap K D)
  | 0, _ => throw .outOfFuel
  | fuel + 1, h => do
      let hd ← h.head q
      match hd.tqhFirst with
      | none => return h
      | some o => do
          let n ← h.node o
          let h ← h.remove q o
          let h ← h.insertTail (new, bucketIndex newsize (cb.hashf n.hnKey)) o
          moveChain cb newsize new q fuel h

/-- The outer loop of `htable_grow` over the heads of the array `old` that are left. -/
def moveChains (cb : Callbacks K) (newsize new old : ℕ) :
    (turns i : ℕ) → HHeap K D → Exec (HHeap K D)
  | 0, _, h => return h
  | turns + 1, i, h => do
      let h ← h.moveChain cb newsize new (old, i) (sizeModulus + 1)
      moveChains cb newsize new old turns (i + 1) h

/-- The inner loop of `htable_free`. -/
def freeChain (q : ℕ × ℕ) : (fuel : ℕ) → HHeap K D → Exec (HHeap K D)
  | 0, _ => throw .outOfFuel
  | fuel + 1, h => do
      let hd ← h.head q
      match hd.tqhFirst with
      | none => return h
      | some o => do
          let h ← h.remove q o
          let h ← h.freeNode o
          freeChain q fuel h

/-- The outer loop of `htable_free`. -/
def freeChains (a : ℕ) : (turns i : ℕ) → HHeap K D → Exec (HHeap K D)
  | 0, _, h => return h
  | turns + 1, i, h => do
      let h ← h.freeChain (a, i) (sizeModulus + 1)
      freeChains a turns (i + 1) h

end HHeap

/-! ## The functions -/

/-- `htable_t`, with the memory that belongs to it, and with `bytes` the number of bytes that were
requested for `ht_table`. -/
structure LinkedTable (K D : Type) where
  htGrows : ℕ
  htSize : ℕ
  htUsed : ℕ
  htFactor : ℕ
  htLimit : ℕ
  bytes : ℕ
  htTable : ℕ
  heap : HHeap K D

namespace LinkedTable

/-- The head that the key belongs to. -/
def headOf (cb : Callbacks K) (t : LinkedTable K D) (key : K) : ℕ × ℕ :=
  (t.htTable, bucketIndex t.htSize (cb.hashf key))

def htableInit (malloc : Option ℕ) (size factor : ℕ) :
    Exec (HtRet × Option (LinkedTable K D)) :=
  let bytes := wrapSize (size * sizeofHhead)
  match malloc with
  | none => return (.nomem, none)
  | some a => do
      let heap ← HHeap.initHeads ⟨fun _ ↦ none, fun _ ↦ none⟩ a bytes size
      return (.ok, some
        { htGrows := 0, htSize := size, htUsed := 0, htFactor := factor,
          htLimit := wrapSize (factor * size), bytes := bytes, htTable := a, heap := heap })

def htableGrow (cb : Callbacks K) (malloc : Option ℕ) (t : LinkedTable K D) :
    Exec (HtRet × LinkedTable K D) :=
  let newsize := wrapSize (t.htSize <<< 1)
  let bytes := wrapSize (newsize * sizeofHhead)
  match malloc with
  | none => return (.nomem, t)
  | some a => do
      let heap ← t.heap.initHeads a bytes newsize
      let heap ← heap.moveChains cb newsize a t.htTable t.htSize 0
      let heap ← heap.freeHeads t.htTable
      return (.ok, { t with htTable := a, heap := heap, bytes := bytes, htSize := newsize,
                            htLimit := wrapSize (t.htFactor * newsize) })

/-- The walk along the chain that the key belongs to. -/
def findNode (cb : Callbacks K) (t : LinkedTable K D) (key : K) : Exec (Option ℕ) := do
  let hd ← t.heap.head (t.headOf cb key)
  t.heap.findFrom cb key sizeModulus hd.tqhFirst

/-- What `malloc` answers in an insertion: for the node, and for the heads when the table grows. -/
structure Mallocs where
  node : Option ℕ
  heads : Option ℕ

/-- `htable_insert`.  The links of the new node are written before they are read. -/
def htableInsert (cb : Callbacks K) (mallocs : Mallocs) (t : LinkedTable K D) (key : K)
    (data : Option D) : Exec (HtRet × LinkedTable K D) := do
  match ← t.findNode cb key with
  | some _ => return (.existing, t)
  | none =>
      match mallocs.node with
      | none => return (.nomem, t)
      | some o => do
          let heap ← (t.heap.setNode o ⟨⟨key, data⟩, none, .next o⟩).insertTail (t.headOf cb key) o
          let t := { t with heap := heap, htUsed := wrapSize (t.htUsed + 1) }
          if t.htUsed > t.htLimit then do
            -- what `htable_grow` returns is not looked at
            let (_, t) ← htableGrow cb mallocs.heads t
            return (.ok, { t with htGrows := wrapSize (t.htGrows + 1) })
          else
            return (.ok, t)

/-- The table after a node is taken off its chain and freed. -/
def dropNode (cb : Callbacks K) (t : LinkedTable K D) (key : K) (o : ℕ) :
    Exec (LinkedTable K D) := do
  let heap ← t.heap.remove (t.headOf cb key) o
  let heap ← heap.freeNode o
  return { t with heap := heap, htUsed := subSize t.htUsed 1 }

def htableRemove (cb : Callbacks K) (t : LinkedTable K D) (key : K) :
    Exec (HtRet × LinkedTable K D) := do
  match ← t.findNode cb key with
  | some o => do
      let t ← t.dropNode cb key o
      return (.ok, t)
  | none => return (.notfound, t)

/-- `htable_free_obj`, with what it hands to `free` besides the node. -/
def htableFreeObj (cb : Callbacks K) (t : LinkedTable K D) (key : K) (htfree : ℕ) :
    Exec (HtRet × LinkedTable K D × Freed K D) := do
  match ← t.findNode cb key with
  | some o => do
      let n ← t.heap.node o
      let freed : Freed K D :=
        ⟨if htfree &&& htFreekey ≠ 0 then some n.hnKey else none,
          if htfree &&& htFreedata ≠ 0 then n.hnData else none⟩
      let t ← t.dropNode cb key o
      return (.ok, t, freed)
  | none => return (.notfound, t, ⟨none, none⟩)

/-- `htable_search`; `none` is `NULL`. -/
def htableSearch (cb : Callbacks K) (t : LinkedTable K D) (key : K) : Exec (Option D) := do
  match ← t.findNode cb key with
  | some o => do
      let n ← t.heap.node o
      return n.hnData
  | none => return none

/-- `htable_free`: the memory that is left. -/
def htableFree (t : LinkedTable K D) : Exec (HHeap K D) := do
  let heap ← t.heap.freeChains t.htTable t.htSize 0
  heap.freeHeads t.htTable

end LinkedTable

/-- A call on a table, with what `malloc` answers in it. -/
inductive LinkedOp (K D : Type)
  | insert (key : K) (data : Option D) (mallocs : LinkedTable.Mallocs)
  | remove (key : K)
  | freeObj (key : K) (htfree : ℕ)
  | grow (malloc : Option ℕ)
  | search (key : K)

def linkedStep (cb : Callbacks K) (t : LinkedTable K D) :
    LinkedOp K D → Exec (Answer D × LinkedTable K D)
  | .insert key data mallocs => do
      let (r, t) ← t.htableInsert cb mallocs key data
      return (.ret r, t)
  | .remove key => do
      let (r, t) ← t.htableRemove cb key
      return (.ret r, t)
  | .freeObj key htfree => do
      let (r, t, _) ← t.htableFreeObj cb key htfree
      return (.ret r, t)
  | .grow malloc => do
      let (r, t) ← t.htableGrow cb malloc
      return (.ret r, t)
  | .search key => do
      let d ← t.htableSearch cb key
      return (.data d, t)

/-- The calls of a list in turn, with their answers. -/
def linkedRun (cb : Callbacks K) :
    LinkedTable K D → List (LinkedOp K D) → Exec (List (Answer D) × LinkedTable K D)
  | t, [] => return ([], t)
  | t, op :: ops => do
      let (answer, t) ← linkedStep cb t op
      let (answers, t) ← linkedRun cb t ops
      return (answer :: answers, t)

/-- Which of the allocations of a call succeed. -/
def LinkedOp.op : LinkedOp K D → Op K D
  | .insert key data mallocs => .insert key data ⟨mallocs.node.isSome, mallocs.heads.isSome⟩
  | .remove key => .remove key
  | .freeObj key htfree => .freeObj key htfree
  | .grow malloc => .grow malloc.isSome
  | .search key => .search key

/-- `malloc` returns addresses that are not in use; those of freed blocks may come again. -/
def LinkedOp.Fresh (t : LinkedTable K D) : LinkedOp K D → Prop
  | .insert _ _ mallocs =>
      (∀ o, mallocs.node = some o → t.heap.nodes o = none ∧ o < sizeModulus) ∧
        ∀ a, mallocs.heads = some a → t.heap.arrays a = none
  | .grow malloc => ∀ a, malloc = some a → t.heap.arrays a = none
  | .remove _ | .freeObj _ _ | .search _ => True

/-- So it does in every call of a run. -/
def FreshRun (cb : Callbacks K) : LinkedTable K D → List (LinkedOp K D) → Prop
  | _, [] => True
  | t, op :: ops => op.Fresh t ∧
      match linkedStep cb t op with
      | .ok (_, t) => FreshRun cb t ops
      | .error _ => True

end Experimentation.HashTable
