import Experimentation.Semantics.Exec

/-!
# The hash table

The chained hash table of `htable.c`, function by function.  A bucket is the sequence of nodes of
its tail queue, and a pointer to a node is the part of the queue that starts with it, so that `NULL`
is the empty one and `TAILQ_NEXT` drops the first node.  Keys and data are whatever the clients
store; the callbacks may read memory that keys point to, and are therefore given to every call.

What `malloc` answers is an argument of each function that calls it.  A bucket is only accessed
inside the array of heads that was allocated.
-/

namespace Experimentation.HashTable

open Semantics

def sizeofHhead : ℕ := 16

/-- `hnode_t`; absent data is `NULL`. -/
structure HNode (K D : Type) where
  hnKey : K
  hnData : Option D
deriving DecidableEq, Repr

/-- The callbacks `ht_hashf` and `ht_cmpf`. -/
structure Callbacks (K : Type) where
  hashf : K → ℕ
  cmpf : K → K → ℤ

/-- `htable_t`, with `bytes` the number of bytes that were requested for `ht_table`. -/
structure HTable (K D : Type) where
  htGrows : ℕ
  htSize : ℕ
  htUsed : ℕ
  htFactor : ℕ
  htLimit : ℕ
  bytes : ℕ
  htTable : List (List (HNode K D))
deriving DecidableEq, Repr

inductive HtRet
  | ok
  | existing
  | nomem
  | notfound
deriving DecidableEq, Repr

variable {K D σ : Type}

/-- The test that the walks along a chain make on each node. -/
def Callbacks.sameKey (cb : Callbacks K) (key : K) (n : HNode K D) : Bool :=
  cb.cmpf n.hnKey key = 0

/-- `TAILQ_INIT` of the first `size` heads in `bytes` bytes. -/
def initHeads (bytes size : ℕ) : Exec (List (List (HNode K D))) :=
  if size * sizeofHhead ≤ bytes then .ok (List.replicate size []) else .error .outOfBounds

/-- The chain of the head at `pos`. -/
def headAt (table : List (List (HNode K D))) (pos : ℕ) : Exec (List (HNode K D)) :=
  match table[pos]? with
  | some chain => .ok chain
  | none => .error .outOfBounds

/-- `TAILQ_INSERT_TAIL` on the head at `pos`. -/
def insertTail (table : List (List (HNode K D))) (pos : ℕ) (n : HNode K D) :
    Exec (List (List (HNode K D))) :=
  if pos < table.length then .ok (table.modify pos (· ++ [n])) else .error .outOfBounds

/-- `hash & (size - 1)`. -/
def bucketIndex (size hash : ℕ) : ℕ := hash &&& subSize size 1

/-- The head that the key belongs to. -/
def HTable.indexOf (cb : Callbacks K) (t : HTable K D) (key : K) : ℕ :=
  bucketIndex t.htSize (cb.hashf key)

/-- The loops over all nodes: for each `i` below `ht_size`, every node of the chain at `i`.  `turns`
is the number of heads that are left. -/
def HTable.forEachNode (t : HTable K D) (body : σ → HNode K D → Exec σ) :
    (turns i : ℕ) → σ → Exec σ
  | 0, _, s => return s
  | turns + 1, i, s => do
      let chain ← headAt t.htTable i
      let s ← chain.foldlM body s
      t.forEachNode body turns (i + 1) s

def htableInit (malloc : Bool) (size factor : ℕ) : Exec (HtRet × Option (HTable K D)) :=
  let bytes := wrapSize (size * sizeofHhead)
  if !malloc then
    return (.nomem, none)
  else do
    let heads ← initHeads bytes size
    return (.ok, some
      { htGrows := 0, htSize := size, htUsed := 0, htFactor := factor,
        htLimit := wrapSize (factor * size), bytes := bytes, htTable := heads })

/-- Move a node to the array of `newsize` heads. -/
def rehashNode (cb : Callbacks K) (newsize : ℕ) (new : List (List (HNode K D))) (n : HNode K D) :
    Exec (List (List (HNode K D))) :=
  insertTail new (bucketIndex newsize (cb.hashf n.hnKey)) n

def htableGrow (cb : Callbacks K) (malloc : Bool) (t : HTable K D) :
    Exec (HtRet × HTable K D) :=
  let newsize := wrapSize (t.htSize <<< 1)
  let bytes := wrapSize (newsize * sizeofHhead)
  if !malloc then
    return (.nomem, t)
  else do
    let newheads ← initHeads bytes newsize
    let newheads ← t.forEachNode (rehashNode cb newsize) t.htSize 0 newheads
    return (.ok, { t with htTable := newheads, bytes := bytes, htSize := newsize,
                          htLimit := wrapSize (t.htFactor * newsize) })

/-! ## Insertion, removal and search -/

/-- The walk along the chain that the key belongs to, up to the first node with an equal key. -/
def HTable.findNode (cb : Callbacks K) (t : HTable K D) (key : K) :
    Exec (Option (HNode K D)) := do
  let chain ← headAt t.htTable (t.indexOf cb key)
  return chain.find? (cb.sameKey key)

/-- Which of the allocations that an insertion makes succeed: that of the node, and that of the
heads when the table grows. -/
structure InsertMallocs where
  node : Bool
  heads : Bool
deriving DecidableEq, Repr

def htableInsert (cb : Callbacks K) (mallocs : InsertMallocs) (t : HTable K D) (key : K)
    (data : Option D) : Exec (HtRet × HTable K D) := do
  match ← t.findNode cb key with
  | some _ => return (.existing, t)
  | none =>
      if !mallocs.node then
        return (.nomem, t)
      else do
        let heads ← insertTail t.htTable (t.indexOf cb key) ⟨key, data⟩
        let t := { t with htTable := heads, htUsed := wrapSize (t.htUsed + 1) }
        if t.htUsed > t.htLimit then do
          -- what `htable_grow` returns is not looked at
          let (_, t) ← htableGrow cb mallocs.heads t
          return (.ok, { t with htGrows := wrapSize (t.htGrows + 1) })
        else
          return (.ok, t)

/-- The table after the first node with the key is taken off its chain by `TAILQ_REMOVE`. -/
def HTable.dropNode (cb : Callbacks K) (t : HTable K D) (key : K) : HTable K D :=
  { t with htTable := t.htTable.modify (t.indexOf cb key) (List.eraseP (cb.sameKey key)),
           htUsed := subSize t.htUsed 1 }

def htableRemove (cb : Callbacks K) (t : HTable K D) (key : K) : Exec (HtRet × HTable K D) := do
  match ← t.findNode cb key with
  | some _ => return (.ok, t.dropNode cb key)
  | none => return (.notfound, t)

def htFreekey : ℕ := 1

def htFreedata : ℕ := 2

/-- What `htable_free_obj` hands to `free` besides the node. -/
structure Freed (K D : Type) where
  key : Option K
  data : Option D
deriving DecidableEq, Repr

def htableFreeObj (cb : Callbacks K) (t : HTable K D) (key : K) (htfree : ℕ) :
    Exec (HtRet × HTable K D × Freed K D) := do
  match ← t.findNode cb key with
  | some n =>
      let freed : Freed K D :=
        ⟨if htfree &&& htFreekey ≠ 0 then some n.hnKey else none,
          if htfree &&& htFreedata ≠ 0 then n.hnData else none⟩
      return (.ok, t.dropNode cb key, freed)
  | none => return (.notfound, t, ⟨none, none⟩)

/-- `htable_search`; `none` is `NULL`. -/
def htableSearch (cb : Callbacks K) (t : HTable K D) (key : K) : Exec (Option D) := do
  match ← t.findNode cb key with
  | some n => return n.hnData
  | none => return none

def htableGetSize (t : HTable K D) : ℕ := t.htSize

def htableGetUsed (t : HTable K D) : ℕ := t.htUsed

/-! ## Walks over the table -/

def htableTraverse (t : HTable K D) (pfunc : σ → Option D → Exec σ) (s : σ) : Exec σ :=
  t.forEachNode (fun s n ↦ pfunc s n.hnData) t.htSize 0 s

structure HIterator (K D : Type) where
  pos : ℕ
  pnode : List (HNode K D)

def htableIteratorInit : HIterator K D := ⟨0, []⟩

def htableIteratorGetData (it : HIterator K D) : Exec (Option D) :=
  match it.pnode with
  | [] => throw .badPointer
  | n :: _ => return n.hnData

def htableIteratorGetKey (it : HIterator K D) : Exec K :=
  match it.pnode with
  | [] => throw .badPointer
  | n :: _ => return n.hnKey

/-- The two loops of `htable_get_next_elm` that look for a head with a node, from head `pos` on.
`turns` is the number of heads that are left; the result has the new `pos` and the node. -/
def HTable.firstUsable (t : HTable K D) : (turns pos : ℕ) → Exec (ℕ × List (HNode K D))
  | 0, pos => return (pos, [])
  | turns + 1, pos => do
      let chain ← headAt t.htTable pos
      match chain with
      | [] => t.firstUsable turns (pos + 1)
      | n :: rest => return (pos + 1, n :: rest)

/-- `htable_get_next_elm`: the new `pos` of the iterator and the node that is returned. -/
def htableGetNextElm (t : HTable K D) (it : HIterator K D) : Exec (ℕ × List (HNode K D)) :=
  if it.pos > subSize t.htSize 1 then
    return (it.pos, [])
  else
    match it.pnode with
    | [] => t.firstUsable (t.htSize - it.pos) it.pos
    | _ :: next =>
        if it.pos = 0 then
          t.firstUsable (t.htSize - it.pos) it.pos
        else
          match next with
          | [] => t.firstUsable (t.htSize - it.pos) it.pos
          | n :: rest => return (it.pos, n :: rest)

/-- The loops `while ((it.pnode = htable_get_next_elm(table, &it)) != NULL)` of the clients.  The
body is given the iterator. -/
def HTable.iterate (t : HTable K D) (body : σ → HIterator K D → Exec σ) :
    (fuel : ℕ) → HIterator K D → σ → Exec σ
  | 0, _, _ => throw .outOfFuel
  | fuel + 1, it, s => do
      let (pos, pnode) ← htableGetNextElm t it
      match pnode with
      | [] => return s
      | n :: rest => do
          let s ← body s ⟨pos, n :: rest⟩
          t.iterate body fuel ⟨pos, n :: rest⟩ s

/-- The loop from `htable_iterator_init` on, with one turn for each node and one more. -/
def HTable.forEachElm (t : HTable K D) (body : σ → HIterator K D → Exec σ) (s : σ) : Exec σ :=
  t.iterate body (t.htTable.flatten.length + 1) htableIteratorInit s

end Experimentation.HashTable
