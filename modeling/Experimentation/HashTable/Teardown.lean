import Experimentation.HashTable.Iterator
import Experimentation.Semantics.Releases

/-!
# Taking a hash table apart

`htable_free_all_obj` frees keys and data and leaves the nodes, `htable_free` frees the nodes and
the heads.  The blocks of a table are named by the client that it belongs to: the nodes by the index
of their bucket and the index in its chain, the keys and the data by whatever is stored.
-/

namespace Experimentation.HashTable

open Semantics

variable {K D B : Type}

/-- The names of the blocks of a table. -/
structure TableNames (K D B : Type) where
  table : B
  heads : B
  node : ℕ → ℕ → B
  key : ℕ → ℕ → HNode K D → B
  /-- Absent data is `NULL`. -/
  data : ℕ → ℕ → HNode K D → Option B
  /-- Keys and data are not parts of the table. -/
  apart : ∀ i j n b, b = key i j n ∨ data i j n = some b →
    b ≠ table ∧ b ≠ heads ∧ ∀ i' j', b ≠ node i' j'
  node_ne : ∀ i j, node i j ≠ table ∧ node i j ≠ heads

section Functions

variable [DecidableEq B] (names : TableNames K D B) (t : HTable K D)

/-- The loops over the heads and their chains.  The body is given the index of the head, and the
node with its index in the chain. -/
def HTable.forEachSlot (body : ℕ → HNode K D × ℕ → List B → Exec (List B)) (freed : List B) :
    Exec (List B) :=
  (List.range t.htSize).foldlM (fun freed i ↦ do
    let freed ← lookAt names.table freed
    let freed ← lookAt names.heads freed
    let chain ← headAt t.htTable i
    chain.zipIdx.foldlM (fun freed x ↦ body i x freed) freed) freed

/-- `free` of a pointer that may be `NULL`, if the flags ask for it. -/
def freeIf (asked : Prop) [Decidable asked] (p : Option B) (freed : List B) : Exec (List B) :=
  match p with
  | none => .ok freed
  | some b => if asked then freeBlock b freed else .ok freed

/-- The body of the inner loop of `htable_free_all_obj`, on the `j`-th node of the chain at `i`. -/
def freeContent (htfree i : ℕ) (x : HNode K D × ℕ) (freed : List B) : Exec (List B) := do
  let freed ← lookAt (names.node i x.2) freed
  let freed ← freeIf (htfree &&& htFreekey ≠ 0) (some (names.key i x.2 x.1)) freed
  freeIf (htfree &&& htFreedata ≠ 0) (names.data i x.2 x.1) freed

def htableFreeAllObj (htfree : ℕ) (freed : List B) : Exec (List B) :=
  t.forEachSlot names (freeContent names htfree) freed

def htableFree (freed : List B) : Exec (List B) := do
  let freed ← t.forEachSlot names (fun i x freed ↦ freeBlock (names.node i x.2) freed) freed
  let freed ← lookAt names.table freed
  freeBlock names.heads freed

end Functions

/-! ## What is freed -/

section Releases

variable [DecidableEq B] {names : TableNames K D B} {t : HTable K D}

/-- What `htable_free_all_obj` frees for a node. -/
def TableNames.content (names : TableNames K D B) (htfree : ℕ) (x : ℕ × HNode K D × ℕ) : List B :=
  (if htfree &&& htFreekey ≠ 0 then [names.key x.1 x.2.2 x.2.1] else []) ++
    if htfree &&& htFreedata ≠ 0 then (names.data x.1 x.2.2 x.2.1).toList else []

/-- The blocks of the nodes. -/
def TableNames.nodes (names : TableNames K D B) (t : HTable K D) : List B :=
  (slots t.htSize t.htTable).map fun x ↦ names.node x.1 x.2.2

theorem freeIf_releases (asked : Prop) [Decidable asked] (p : Option B) :
    Releases (freeIf asked p) [] (if asked then p.toList else []) := by
  cases p with
  | none =>
      rw [Option.toList_none, ite_self]
      exact .pure
  | some b =>
      by_cases hasked : asked
      · rw [if_pos hasked]
        exact (Releases.freeBlock b).congr fun _ ↦ if_pos hasked
      · rw [if_neg hasked]
        exact Releases.pure.congr fun _ ↦ if_neg hasked

theorem freeContent_releases (names : TableNames K D B) (htfree i : ℕ) (x : HNode K D × ℕ) :
    Releases (freeContent names htfree i x) [names.node i x.2] (names.content htfree (i, x)) :=
  (Releases.lookAt _).bind ((freeIf_releases _ _).bind (freeIf_releases _ _) nofun) nofun

theorem forEachSlot_releases (names : TableNames K D B) (hlength : t.htTable.length = t.htSize)
    {body : ℕ → HNode K D × ℕ → List B → Exec (List B)} {seen bs : ℕ × HNode K D × ℕ → List B}
    (hbody : ∀ i x, Releases (body i x) (seen (i, x)) (bs (i, x)))
    (hkept : ∀ x x' b, b ∈ seen x' → b ∉ bs x)
    (hapart : ∀ x, names.table ∉ bs x ∧ names.heads ∉ bs x) :
    Releases (t.forEachSlot names body)
      ([names.table, names.heads] ++ (slots t.htSize t.htTable).flatMap seen)
      ((slots t.htSize t.htTable).flatMap bs) := by
  apply Releases.foldlM_rows _ hbody hkept
  · intro x b hb
    rcases List.mem_pair.1 hb with rfl | rfl
    · exact (hapart x).1
    · exact (hapart x).2
  · intro i hi ts cs hrow
    have hhead : headAt t.htTable i = .ok (t.htTable.getD i []) := by
      apply headAt_eq
      simp [hlength ▸ hi]
    rw [hhead]
    exact (Releases.lookAt _).bind ((Releases.lookAt _).bind hrow nofun) nofun

omit [DecidableEq B] in
theorem TableNames.apart_of_mem {htfree : ℕ} {x : ℕ × HNode K D × ℕ} {b : B}
    (hb : b ∈ names.content htfree x) :
    b ≠ names.table ∧ b ≠ names.heads ∧ ∀ i j, b ≠ names.node i j := by
  apply names.apart x.1 x.2.2 x.2.1
  rcases List.mem_append.1 hb with hkey | hdata
  · left
    by_cases hasked : htfree &&& htFreekey ≠ 0
    · rw [if_pos hasked] at hkey
      exact List.mem_singleton.1 hkey
    · rw [if_neg hasked] at hkey
      cases hkey
  · right
    by_cases hasked : htfree &&& htFreedata ≠ 0
    · rw [if_pos hasked] at hdata
      exact Option.mem_toList.1 hdata
    · rw [if_neg hasked] at hdata
      cases hdata

omit [DecidableEq B] in
theorem TableNames.nodes_eq_flatMap :
    names.nodes t = (slots t.htSize t.htTable).flatMap fun x ↦ [names.node x.1 x.2.2] :=
  List.map_eq_flatMap

omit [DecidableEq B] in
theorem TableNames.mem_nodes {b : B} : b ∈ names.nodes t ↔
    ∃ i n j, (i, n, j) ∈ slots t.htSize t.htTable ∧ names.node i j = b := by
  simp [TableNames.nodes]

theorem htableFreeAllObj_releases (names : TableNames K D B)
    (hlength : t.htTable.length = t.htSize) (htfree : ℕ) :
    Releases (htableFreeAllObj names t htfree) ([names.table, names.heads] ++ names.nodes t)
      ((slots t.htSize t.htTable).flatMap (names.content htfree)) := by
  rw [TableNames.nodes_eq_flatMap]
  apply forEachSlot_releases names hlength (freeContent_releases names htfree)
  · intro x x' b hb hcontent
    exact (TableNames.apart_of_mem hcontent).2.2 _ _ (List.mem_singleton.1 hb)
  · exact fun x ↦ ⟨fun hb ↦ (TableNames.apart_of_mem hb).1 rfl,
      fun hb ↦ (TableNames.apart_of_mem hb).2.1 rfl⟩

theorem htableFree_releases (names : TableNames K D B) (hlength : t.htTable.length = t.htSize) :
    Releases (htableFree names t) [names.table] (names.nodes t ++ [names.heads]) := by
  have hloop : Releases (t.forEachSlot names fun i x freed ↦ freeBlock (names.node i x.2) freed)
      ([names.table, names.heads] ++ (slots t.htSize t.htTable).flatMap fun _ ↦ [])
      (names.nodes t) := by
    rw [TableNames.nodes_eq_flatMap]
    apply forEachSlot_releases names hlength fun i x ↦ .freeBlock (names.node i x.2)
    · exact fun x x' b hb ↦ by cases hb
    · simpa [eq_comm] using fun x : ℕ × HNode K D × ℕ ↦ names.node_ne x.1 x.2.2
  have hlast := (Releases.lookAt names.table).bind (Releases.freeBlock names.heads) nofun
  have hkept (b : B) (hb : b ∈ [names.table] ++ []) (hnode : b ∈ names.nodes t) :
      b ∈ [] ++ [names.heads] := by
    obtain ⟨x, _, hnode⟩ := List.mem_map.1 hnode
    rw [List.append_nil, List.mem_singleton] at hb
    exact absurd (hnode.trans hb) (names.node_ne _ _).1
  apply (hloop.bind hlast hkept).own
  simp

end Releases

end Experimentation.HashTable
