import Experimentation.Buddy.Coverage

/-!
# The two lookups of `mpool_free`

Compiled with `MPOOL_OPT_FOR_SECURITY`, `mpool_free` does not trust its pointer: it searches the
lists for a node that has it.  On a tiling at most one node has a given pointer, the one whose
header ends there, so for the pointer of a live allocation the search finds the node that the other
build computes.  Any other pointer is found only if it is that of an available block; then the
buddy is not available, since available buddies have been joined, and nothing is changed.

A pointer that a client passes may be any address.  It is an offset from `mpool->mem` that may be
negative, and one of these is `NULL`.
-/

namespace Experimentation.Buddy

open DyadicTiling Semantics

/-- The inner loop of the search: the first node of a list that has the pointer. -/
def searchList (p : Pool) (ptr : ℤ) : List ℕ → Exec (Option ℕ)
  | [] => return none
  | o :: rest => do
      let n ← p.load o
      if (n.ptr : ℤ) = ptr then
        return some o
      else
        searchList p ptr rest

/-- The outer loop of the search over the lists that are still to be searched. -/
def searchPtr (p : Pool) (ptr : ℤ) : List (List ℕ) → Exec (Option ℕ)
  | [] => return none
  | list :: table => do
      match ← searchList p ptr list with
      | some pnode => return some pnode
      | none => searchPtr p ptr table

/-- `mpool_free`, with the node found by a search. -/
def mpoolFreeSecure (p : Pool) (ptr : ℤ) : Exec Pool := do
  match ← searchPtr p ptr p.blktable with
  | none => return p
  | some pnode => chunkFound (p.maxlogsize + 1) p pnode

section Search

variable {p : Pool} {ptr : ℤ}

theorem searchList_eq {list : List ℕ} (h : ∀ o ∈ list, p.load o = .ok (p.mem o)) :
    searchList p ptr list = .ok (list.find? fun o ↦ ((p.mem o).ptr : ℤ) = ptr) := by
  induction list with
  | nil => rfl
  | cons o rest ih =>
      have hrest := ih fun o' ho' ↦ h o' (List.mem_cons_of_mem _ ho')
      rw [searchList, h o List.mem_cons_self, Exec.ok_bind, List.find?_cons]
      by_cases hptr : ((p.mem o).ptr : ℤ) = ptr
      · rw [if_pos hptr, decide_eq_true hptr]
        rfl
      · rw [if_neg hptr, decide_eq_false hptr]
        exact hrest

theorem searchPtr_eq {table : List (List ℕ)}
    (h : ∀ list ∈ table, ∀ o ∈ list, p.load o = .ok (p.mem o)) :
    searchPtr p ptr table = .ok (table.flatten.find? fun o ↦ ((p.mem o).ptr : ℤ) = ptr) := by
  induction table with
  | nil => rfl
  | cons list table ih =>
      have hrest := ih fun list' hlist' ↦ h list' (List.mem_cons_of_mem _ hlist')
      rw [searchPtr, searchList_eq (h list List.mem_cons_self), Exec.ok_bind, List.flatten_cons,
        List.find?_append]
      cases list.find? fun o ↦ decide (((p.mem o).ptr : ℤ) = ptr) with
      | some pnode => rfl
      | none =>
          rw [Option.none_or]
          exact hrest

end Search

section Described

variable {m n : ℕ} {p : Pool} {A : BuddyTiling m n}

theorem Describes.searchPtr_eq (h : Describes p A) (ptr : ℤ) : searchPtr p ptr p.blktable =
    .ok (p.blktable.flatten.find? fun o ↦ ((p.mem o).ptr : ℤ) = ptr) :=
  Buddy.searchPtr_eq (h.lists.searchable A.tiles h.headers).readable

theorem Describes.ptr_of_listed (h : Describes p A) {o : ℕ} (ho : o ∈ p.blktable.flatten) :
    p.blockAt o ∈ A.used ∪ A.free ∧ (p.mem o).ptr = o + sizeofBlkNode := by
  have hblock := h.listed_iff.1 (List.mem_flatten.1 ho)
  exact ⟨hblock, (h.headers _ hblock).ptr⟩

theorem Describes.searchPtr_found (h : Describes p A) {b : Block} (hb : b ∈ A.used ∪ A.free) :
    searchPtr p (b.off + sizeofBlkNode : ℕ) p.blktable = .ok (some b.off) := by
  have hlisted : b.off ∈ p.blktable.flatten :=
    List.mem_flatten.2 (h.listed_iff.2 (h.blockAt_eq hb ▸ hb))
  rw [h.searchPtr_eq]
  cases hfind : p.blktable.flatten.find?
      fun o ↦ decide (((p.mem o).ptr : ℤ) = (b.off + sizeofBlkNode : ℕ)) with
  | none =>
      refine absurd ?_ (List.find?_eq_none.1 hfind b.off hlisted)
      rw [decide_eq_true_iff, (h.headers b hb).ptr]
  | some o =>
      have hptr := List.find?_some hfind
      rw [decide_eq_true_iff, (h.ptr_of_listed (List.mem_of_find?_eq_some hfind)).2,
        Int.natCast_inj] at hptr
      rw [Nat.add_right_cancel hptr]

/-- For the pointer of a block in use the search leads to the same loop from the same node. -/
theorem Describes.mpoolFreeSecure_eq (h : Describes p A) {b : Block} (hb : b ∈ A.used) :
    mpoolFreeSecure p (b.off + sizeofBlkNode : ℕ) = mpoolFree p (b.off + sizeofBlkNode) := by
  have hnot : ¬ b.off + sizeofBlkNode < sizeofBlkNode := by omega
  rw [mpoolFreeSecure, h.searchPtr_found (.inl hb), Exec.ok_bind, mpoolFree, if_neg hnot,
    Nat.add_sub_cancel]

theorem BlkNode.markAvail_of_isAvail {x : BlkNode} (h : x.isAvail = true) : x.markAvail = x :=
  BlkNode.ext (FlagByte.set_of_test (k := 0) h) rfl rfl

/-- From the node of an available block the loop changes nothing: the buddy is not available. -/
theorem Describes.chunkFound_of_free (h : Describes p A) {b : Block} (hb : b ∈ A.free) (fuel : ℕ) :
    chunkFound (fuel + 1) p b.off = .ok p := by
  have hopen := h.take hb
  have havail : (p.mem b.off).isAvail = true := h.free b hb
  have hself : p.write b.off (p.mem b.off) = p := by
    simp only [Pool.write, Function.update_eq_self]
  have hload : p.load b.off = .ok (p.mem b.off) := hopen.load_cur
  have hlogsize : (p.mem b.off).logsize = b.log := (h.headers b (.inr hb)).logsize
  rw [chunkFound, hload, Exec.ok_bind, hlogsize, h.lists.maxlogsize]
  by_cases htop : b.log = n
  · rw [if_pos htop, if_pos havail]
    rfl
  · have hlog : (A.take b hb).cur.log < n := lt_of_le_of_ne (A.take b hb).cur_log_le htop
    obtain ⟨hread, hiff⟩ := load_buddy hopen hlog
    have hbuddy : (A.take b hb).cur.buddy ∉ (A.take b hb).free := fun hmem ↦
      A.coalesced b hb hmem.1
    have hor : (p.mem b.buddy.off).logsize ≠ (p.mem b.off).logsize ∨
        (p.mem b.buddy.off).isAvail = false := hiff.2 hbuddy
    rw [hlogsize] at hor
    have hpossible : possibleBuddy p b.off (p.mem b.off) = .ok (some b.buddy.off) :=
      possibleBuddy_eq hopen hlog
    have hbload : p.load b.buddy.off = .ok (p.mem b.buddy.off) := hread
    have hstore : p.store b.off (p.mem b.off) = .ok (p.write b.off (p.mem b.off)) :=
      hopen.store_cur _
    rw [if_neg htop, hpossible, Exec.ok_bind]
    dsimp only
    rw [hbload, Exec.ok_bind, if_pos hor, BlkNode.markAvail_of_isAvail havail, hstore, hself]

theorem Describes.mpoolFreeSecure_of_not_used (h : Describes p A) {ptr : ℤ}
    (hptr : ∀ b ∈ A.used, ((b.off + sizeofBlkNode : ℕ) : ℤ) ≠ ptr) :
    mpoolFreeSecure p ptr = .ok p := by
  rw [mpoolFreeSecure, h.searchPtr_eq, Exec.ok_bind]
  cases hfind : p.blktable.flatten.find? fun o ↦ decide (((p.mem o).ptr : ℤ) = ptr) with
  | none => rfl
  | some o =>
      obtain ⟨hblock, ho⟩ := h.ptr_of_listed (List.mem_of_find?_eq_some hfind)
      have hsame := List.find?_some hfind
      rw [decide_eq_true_iff, ho] at hsame
      rcases hblock with hu | hf
      · exact absurd hsame (hptr _ hu)
      · exact h.chunkFound_of_free hf p.maxlogsize

end Described

/-! ## The same runs in both builds -/

/-- A call of a client, or a change of the memory by the clients. -/
inductive PoolCall
  | alloc (blksize : ℕ)
  | free (a : Allocation)
  | write (mem : ℕ → BlkNode)

/-- A client asks for a size that a `size_t` can hold, releases what it holds, and writes into
payloads only. -/
def PoolCall.Legal (s : PoolState) : PoolCall → Prop
  | .alloc blksize => blksize < sizeModulus
  | .free a => a ∈ s.live
  | .write mem => ∀ o, mem o ≠ s.pool.mem o → ∃ a ∈ s.live, NoWrap a.size ∧ a.Overlaps o

/-- One call, with the pointer that it returns, in the build whose `mpool_free` is `free`. -/
def performPool (free : Pool → ℕ → Exec Pool) (s : PoolState) :
    PoolCall → Exec (Option ℕ × PoolState)
  | .alloc blksize => do
      let (p, ptr) ← mpoolAlloc s.pool blksize
      match ptr with
      | none => return (none, ⟨p, s.live⟩)
      | some ptr => return (some ptr, ⟨p, ⟨ptr, blksize⟩ :: s.live⟩)
  | .free a => do
      let p ← free s.pool a.ptr
      return (none, ⟨p, s.live.erase a⟩)
  | .write mem => return (none, ⟨{ s.pool with mem := mem }, s.live⟩)

/-- The calls of a list in turn, with the pointers that they return. -/
def performPoolAll (free : Pool → ℕ → Exec Pool) :
    PoolState → List PoolCall → Exec (List (Option ℕ) × PoolState)
  | s, [] => return ([], s)
  | s, c :: cs => do
      let (ptr, s) ← performPool free s c
      let (ptrs, s) ← performPoolAll free s cs
      return (ptr :: ptrs, s)

/-- Every call of the run is legal. -/
def LegalRun (free : Pool → ℕ → Exec Pool) : PoolState → List PoolCall → Prop
  | _, [] => True
  | s, c :: cs => c.Legal s ∧
      match performPool free s c with
      | .ok (_, s) => LegalRun free s cs
      | .error _ => True

/-- The build with `MPOOL_OPT_FOR_SECURITY`, for pointers that `mpool_alloc` returned. -/
def secureBuild : Pool → ℕ → Exec Pool := fun p ptr ↦ mpoolFreeSecure p ptr

section Builds

variable {m n : ℕ} {s : PoolState}

theorem Inv.lookups_agree (h : Inv m n s) {a : Allocation} (ha : a ∈ s.live) :
    searchPtr s.pool a.ptr s.pool.blktable = .ok (some (a.ptr - sizeofBlkNode)) ∧
      ∃ q, mpoolFree s.pool a.ptr = .ok q ∧ mpoolFreeSecure s.pool a.ptr = .ok q := by
  obtain ⟨A, hp, hlive⟩ := h
  obtain ⟨b, hb, hptr, _⟩ := hlive.block a ha
  obtain ⟨q, _, hfree, _⟩ := mpoolFree_spec hp hb
  rw [hptr, hp.searchPtr_found (.inl hb), Nat.add_sub_cancel, hp.mpoolFreeSecure_eq hb]
  exact ⟨rfl, q, hfree, hfree⟩

theorem Inv.performPool (h : Inv m n s) {c : PoolCall} (hc : c.Legal s) :
    ∃ r, performPool mpoolFree s c = .ok r ∧ performPool secureBuild s c = .ok r ∧
      Inv m n r.2 := by
  cases c with
  | alloc blksize =>
      obtain ⟨A, hp, _⟩ := id h
      rcases mpoolAlloc_spec hp blksize with ⟨hnull, _⟩ | ⟨p, b, A', hsome, _⟩
      · have hstep : Step anyRequest s ⟨s.pool, s.live⟩ := .refused blksize hc trivial hnull
        have hrun : ∀ free, Buddy.performPool free s (.alloc blksize) =
            .ok (none, ⟨s.pool, s.live⟩) := fun free ↦ by
          rw [Buddy.performPool, hnull]
          rfl
        exact ⟨_, hrun _, hrun _, h.step hstep⟩
      · have hstep : Step anyRequest s ⟨p, ⟨b.off + sizeofBlkNode, blksize⟩ :: s.live⟩ :=
          .alloc blksize hc trivial hsome
        have hrun : ∀ free, Buddy.performPool free s (.alloc blksize) =
            .ok (some (b.off + sizeofBlkNode), ⟨p, ⟨b.off + sizeofBlkNode, blksize⟩ :: s.live⟩) :=
          fun free ↦ by
            rw [Buddy.performPool, hsome]
            rfl
        exact ⟨_, hrun _, hrun _, h.step hstep⟩
  | free a =>
      obtain ⟨_, q, hdirect, hsecure⟩ := h.lookups_agree hc
      have hstep : Step anyRequest s ⟨q, s.live.erase a⟩ := .free a hc hdirect
      have hrun : ∀ free : Pool → ℕ → Exec Pool, free s.pool a.ptr = .ok q →
          Buddy.performPool free s (.free a) = .ok (none, ⟨q, s.live.erase a⟩) := fun free hfree ↦ by
        rw [Buddy.performPool, hfree]
        rfl
      exact ⟨_, hrun _ hdirect, hrun _ hsecure, h.step hstep⟩
  | write mem =>
      have hstep : Step anyRequest s ⟨{ s.pool with mem := mem }, s.live⟩ := .write mem hc
      exact ⟨_, rfl, rfl, h.step hstep⟩

theorem performPoolAll_cons {free : Pool → ℕ → Exec Pool} {t u : PoolState} {c : PoolCall}
    {cs : List PoolCall} {ptr : Option ℕ} {ptrs : List (Option ℕ)}
    (hcall : Buddy.performPool free s c = .ok (ptr, t))
    (hrest : performPoolAll free t cs = .ok (ptrs, u)) :
    performPoolAll free s (c :: cs) = .ok (ptr :: ptrs, u) := by
  rw [performPoolAll, hcall, Exec.ok_bind]
  change (performPoolAll free t cs >>= fun r ↦ .ok (ptr :: r.1, r.2)) = _
  rw [hrest, Exec.ok_bind]

theorem Inv.performPoolAll (h : Inv m n s) {cs : List PoolCall} (hcs : LegalRun mpoolFree s cs) :
    ∃ r, performPoolAll mpoolFree s cs = .ok r ∧ performPoolAll secureBuild s cs = .ok r := by
  induction cs generalizing s with
  | nil => exact ⟨_, rfl, rfl⟩
  | cons c cs ih =>
      obtain ⟨hc, hrest⟩ := hcs
      obtain ⟨⟨ptr, t⟩, hdirect, hsecure, ht⟩ := h.performPool hc
      rw [hdirect] at hrest
      obtain ⟨⟨ptrs, u⟩, hdirect', hsecure'⟩ := ih ht hrest
      exact ⟨_, performPoolAll_cons hdirect hdirect', performPoolAll_cons hsecure hsecure'⟩

end Builds

/-- In every reachable state the two builds find the same node for the pointer of a live allocation
and leave the same pool, and from there on any run returns the same pointers and leaves the same
state. -/
theorem reach_builds_agree {maxlogsize minlogsize : ℕ} {s : PoolState}
    (h : Reach anyRequest maxlogsize minlogsize s) :
    (∀ a ∈ s.live,
      searchPtr s.pool a.ptr s.pool.blktable = .ok (some (a.ptr - sizeofBlkNode)) ∧
        ∃ q, mpoolFree s.pool a.ptr = .ok q ∧ mpoolFreeSecure s.pool a.ptr = .ok q) ∧
      ∀ cs, LegalRun mpoolFree s cs →
        ∃ ptrs t, performPoolAll mpoolFree s cs = .ok (ptrs, t) ∧
          performPoolAll secureBuild s cs = .ok (ptrs, t) := by
  refine ⟨fun a ha ↦ h.inv.lookups_agree ha, fun cs hcs ↦ ?_⟩
  obtain ⟨⟨ptrs, t⟩, hdirect, hsecure⟩ := h.inv.performPoolAll hcs
  exact ⟨ptrs, t, hdirect, hsecure⟩

/-- Two requests of 20 bytes in a pool of 128 bytes, released in the order of their arrival. -/
theorem smallPool_builds_agree : ∃ ptrs t,
    performPoolAll mpoolFree ⟨smallPool, []⟩ [.alloc 20, .alloc 20, .free ⟨40, 20⟩, .free ⟨104, 20⟩] =
        .ok (ptrs, t) ∧
      performPoolAll secureBuild ⟨smallPool, []⟩
        [.alloc 20, .alloc 20, .free ⟨40, 20⟩, .free ⟨104, 20⟩] = .ok (ptrs, t) := by
  have hsize : 20 < sizeModulus := by decide
  have hlegal : LegalRun mpoolFree ⟨smallPool, []⟩
      [.alloc 20, .alloc 20, .free ⟨40, 20⟩, .free ⟨104, 20⟩] :=
    ⟨hsize, hsize, List.mem_cons_of_mem _ List.mem_cons_self, List.mem_cons_self, trivial⟩
  exact (reach_builds_agree (smallPool_reach anyRequest)).2 _ hlegal

/-! ## Releasing other pointers -/

/-- One step of a run of the build with `MPOOL_OPT_FOR_SECURITY`, in which any pointer may be passed
to `mpool_free`. -/
inductive SecureStep : PoolState → PoolState → Prop
  | alloc {s : PoolState} {p : Pool} {ptr : ℕ} (blksize : ℕ) (hsize : blksize < sizeModulus)
      (h : mpoolAlloc s.pool blksize = .ok (p, some ptr)) :
      SecureStep s ⟨p, ⟨ptr, blksize⟩ :: s.live⟩
  | refused {s : PoolState} {p : Pool} (blksize : ℕ) (hsize : blksize < sizeModulus)
      (h : mpoolAlloc s.pool blksize = .ok (p, none)) : SecureStep s ⟨p, s.live⟩
  | free {s : PoolState} {p : Pool} (ptr : ℤ) (h : mpoolFreeSecure s.pool ptr = .ok p) :
      SecureStep s ⟨p, s.live.filter fun a ↦ (a.ptr : ℤ) ≠ ptr⟩
  | write {s : PoolState} (mem : ℕ → BlkNode)
      (h : ∀ o, mem o ≠ s.pool.mem o → ∃ a ∈ s.live, NoWrap a.size ∧ a.Overlaps o) :
      SecureStep s ⟨{ s.pool with mem := mem }, s.live⟩

/-- The states that runs of that build reach. -/
inductive SecureReach (maxlogsize minlogsize : ℕ) : PoolState → Prop
  | init {p : Pool} (mallocs : InitMallocs) (garbage : ℕ → BlkNode)
      (h : mpoolInit mallocs garbage maxlogsize minlogsize = .ok (.ok, some p)) :
      SecureReach maxlogsize minlogsize ⟨p, []⟩
  | step {s t : PoolState} (hs : SecureReach maxlogsize minlogsize s) (h : SecureStep s t) :
      SecureReach maxlogsize minlogsize t

section Secure

variable {m n : ℕ} {s t : PoolState}

theorem Inv.mpoolFreeSecure_eq (h : Inv m n s) {ptr : ℤ} (hptr : ∀ a ∈ s.live, (a.ptr : ℤ) ≠ ptr) :
    mpoolFreeSecure s.pool ptr = .ok s.pool := by
  obtain ⟨A, hp, hlive⟩ := h
  refine hp.mpoolFreeSecure_of_not_used fun b hb hsame ↦ ?_
  obtain ⟨a, ha, haptr⟩ := hlive.owner b hb
  exact hptr a ha (haptr ▸ hsame)

theorem Inv.filter_eq_erase (h : Inv m n s) {a : Allocation} (ha : a ∈ s.live) :
    s.live.filter (fun a' ↦ ((a'.ptr : ℤ) ≠ a.ptr)) = s.live.erase a := by
  obtain ⟨A, _, hlive⟩ := h
  rw [(List.Nodup.of_map _ hlive.nodup).erase_eq_filter]
  apply List.filter_congr
  intro a' ha'
  by_cases heq : a' = a
  · simp [heq]
  · have hne : a'.ptr ≠ a.ptr := fun hptr ↦
      heq (List.inj_on_of_nodup_map hlive.nodup ha' ha hptr)
    simp [heq, hne]

theorem Inv.secureStep (h : Inv m n s) (hstep : SecureStep s t) : Inv m n t := by
  cases hstep with
  | @alloc p ptr blksize hsize hrun =>
      have hstep : Step anyRequest s ⟨p, ⟨ptr, blksize⟩ :: s.live⟩ := .alloc blksize hsize trivial hrun
      exact h.step hstep
  | @refused p blksize hsize hrun =>
      have hstep : Step anyRequest s ⟨p, s.live⟩ := .refused blksize hsize trivial hrun
      exact h.step hstep
  | free ptr hrun =>
      by_cases hlive : ∃ a ∈ s.live, (a.ptr : ℤ) = ptr
      · obtain ⟨a, ha, rfl⟩ := hlive
        obtain ⟨_, q, hdirect, hsecure⟩ := h.lookups_agree ha
        have hresult : q = _ := Except.ok.inj (hsecure.symm.trans hrun)
        rw [h.filter_eq_erase ha, ← hresult]
        have hfree : Step anyRequest s ⟨q, s.live.erase a⟩ := .free a ha hdirect
        exact h.step hfree
      · have hptr : ∀ a ∈ s.live, (a.ptr : ℤ) ≠ ptr := fun a ha heq ↦ hlive ⟨a, ha, heq⟩
        rw [h.mpoolFreeSecure_eq hptr] at hrun
        cases hrun
        have hsame : s.live.filter (fun a ↦ ((a.ptr : ℤ) ≠ ptr)) = s.live :=
          List.filter_eq_self.2 fun a ha ↦ decide_eq_true (hptr a ha)
        rw [hsame]
        exact h
  | write mem hmem =>
      have hstep : Step anyRequest s ⟨{ s.pool with mem := mem }, s.live⟩ := .write mem hmem
      exact h.step hstep

/-- Every state that a run of that build reaches satisfies the invariant of runs. -/
theorem SecureReach.inv {maxlogsize minlogsize : ℕ} (h : SecureReach maxlogsize minlogsize s) :
    Inv minlogsize maxlogsize s := by
  induction h with
  | init mallocs garbage h =>
      have hreach : Reach anyRequest maxlogsize minlogsize _ := .init mallocs garbage h
      exact hreach.inv
  | step _ hstep ih => exact ih.secureStep hstep

end Secure

/-- Passing a pointer that is not that of a live allocation to `mpool_free` leaves the whole pool as
it was: memory, lists and counters. -/
theorem secureReach_free_unchanged {maxlogsize minlogsize : ℕ} {s : PoolState}
    (h : SecureReach maxlogsize minlogsize s) {ptr : ℤ}
    (hptr : ∀ a ∈ s.live, (a.ptr : ℤ) ≠ ptr) : mpoolFreeSecure s.pool ptr = .ok s.pool :=
  h.inv.mpoolFreeSecure_eq hptr

/-- An allocation is released twice, in a pool whose halves have been joined in between. -/
theorem smallPool_free_twice : ∃ p q, mpoolAlloc smallPool 20 = .ok (p, some 40) ∧
    mpoolFreeSecure p 40 = .ok q ∧ mpoolFreeSecure q 40 = .ok q := by
  have hinit : SecureReach 7 6 ⟨smallPool, []⟩ :=
    .init ⟨true, true, true⟩ (fun _ ↦ ⟨0, 0, 0⟩) (mpoolInit_eq _ _ _ _)
  have hsize : 20 < sizeModulus := by decide
  have halloc := hinit.step (.alloc 20 hsize rfl)
  have hfree := halloc.step (.free 40 rfl)
  exact ⟨_, _, rfl, rfl, secureReach_free_unchanged hfree fun a ha ↦ absurd ha List.not_mem_nil⟩

end Experimentation.Buddy
