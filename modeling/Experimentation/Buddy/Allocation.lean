import Experimentation.Buddy.Layout

/-!
# What `mpool_alloc` does to the blocks

The search loops find a free block that is long enough, if there is one, and among those one of the
least length.  The split loop halves it down to the least length that still holds the request.  On
the tiling this is one step: a vacant block of that length is put in use, and the free blocks
follow from the used ones.
-/

namespace Experimentation.Buddy

open DyadicTiling Semantics

variable {m n : ℕ} {p : Pool}

/-! ## The search -/

/-- A node whose block is available and holds `size` bytes. -/
def Fits (p : Pool) (size o : ℕ) : Prop :=
  (p.mem o).isAvail = true ∧ size ≤ 2 ^ (p.mem o).logsize

/-- The lists that the search can read: every header is readable, the sizes are representable, and
the nodes of a list have the same length. -/
structure Searchable (p : Pool) (table : List (List ℕ)) : Prop where
  readable : ∀ l ∈ table, ∀ o ∈ l, p.load o = .ok (p.mem o)
  small : ∀ l ∈ table, ∀ o ∈ l, (p.mem o).logsize ≤ 30
  uniform : ∀ l ∈ table, ∀ o ∈ l, ∀ o' ∈ l, (p.mem o).logsize = (p.mem o').logsize

theorem Searchable.tail {l : List ℕ} {table : List (List ℕ)} (h : Searchable p (l :: table)) :
    Searchable p table where
  readable l' hl' := h.readable l' (List.mem_cons_of_mem _ hl')
  small l' hl' := h.small l' (List.mem_cons_of_mem _ hl')
  uniform l' hl' := h.uniform l' (List.mem_cons_of_mem _ hl')

theorem firstAvail_eq {l : List ℕ} (h : ∀ o ∈ l, p.load o = .ok (p.mem o)) :
    firstAvail p l = .ok (l.find? fun o ↦ (p.mem o).isAvail) := by
  induction l with
  | nil => rfl
  | cons o rest ih =>
      have hrest := ih fun o' ho' ↦ h o' (List.mem_cons_of_mem _ ho')
      rw [firstAvail, h o List.mem_cons_self, Exec.ok_bind, List.find?_cons]
      cases (p.mem o).isAvail with
      | true => rfl
      | false => exact hrest

/-- What the outer loop has found after the lists of `table`, given the candidate it came with:
the old candidate if no node of `table` fits, and otherwise a node that fits on the last list that
has one. -/
inductive SearchResult (p : Pool) (size : ℕ) (table : List (List ℕ)) (cand : Option ℕ) :
    Option ℕ → Prop
  | kept (h : ∀ l ∈ table, ∀ o ∈ l, ¬ Fits p size o) : SearchResult p size table cand cand
  | found (pre post : List (List ℕ)) (l : List ℕ) (o : ℕ) (hsplit : table = pre ++ l :: post)
      (hmem : o ∈ l) (hfits : Fits p size o) (hlast : ∀ l' ∈ post, ∀ o' ∈ l', ¬ Fits p size o') :
      SearchResult p size table cand (some o)

theorem SearchResult.cons_of_not_fits {size : ℕ} {l : List ℕ} {table : List (List ℕ)}
    {cand r : Option ℕ} (h : SearchResult p size table cand r) (hl : ∀ o ∈ l, ¬ Fits p size o) :
    SearchResult p size (l :: table) cand r := by
  cases h with
  | kept h =>
      refine .kept fun l' hl' ↦ ?_
      rcases List.mem_cons.1 hl' with heq | hl'
      · exact heq ▸ hl
      · exact h l' hl'
  | found pre post l' o hsplit hmem hfits hlast =>
      exact .found (l :: pre) post l' o (by rw [hsplit]; rfl) hmem hfits hlast

theorem SearchResult.cons_of_fits {size : ℕ} {l : List ℕ} {table : List (List ℕ)}
    {cand r : Option ℕ} {hit : ℕ} (h : SearchResult p size table (some hit) r) (hmem : hit ∈ l)
    (hfits : Fits p size hit) : SearchResult p size (l :: table) cand r := by
  cases h with
  | kept h => exact .found [] table l hit rfl hmem hfits h
  | found pre post l' o hsplit hmem' hfits' hlast =>
      exact .found (l :: pre) post l' o (by rw [hsplit]; rfl) hmem' hfits' hlast

theorem searchTable_spec (size : ℕ) {table : List (List ℕ)} (h : Searchable p table)
    (cand : Option ℕ) :
    ∃ r, searchTable p size table cand = .ok r ∧ SearchResult p size table cand r := by
  induction table generalizing cand with
  | nil => exact ⟨cand, rfl, .kept fun l hl ↦ absurd hl List.not_mem_nil⟩
  | cons l table ih =>
      cases l with
      | nil =>
          obtain ⟨r, hr, hres⟩ := ih h.tail cand
          exact ⟨r, hr, hres.cons_of_not_fits fun o ho ↦ absurd ho List.not_mem_nil⟩
      | cons o rest =>
          have hread := h.readable (o :: rest) List.mem_cons_self
          have hshift : shiftOne (p.mem o).logsize = .ok (2 ^ (p.mem o).logsize) :=
            shiftOne_of_le (h.small _ List.mem_cons_self o List.mem_cons_self)
          have hsame : ∀ o' ∈ o :: rest, (p.mem o').logsize = (p.mem o).logsize := fun o' ho' ↦
            h.uniform _ List.mem_cons_self o' ho' o List.mem_cons_self
          by_cases hsize : 2 ^ (p.mem o).logsize ≥ size
          · cases hfind : (o :: rest).find? fun o ↦ (p.mem o).isAvail with
            | some hit =>
                have hstep : searchTable p size ((o :: rest) :: table) cand =
                    searchTable p size table (some hit) := by
                  rw [searchTable, hread o List.mem_cons_self, Exec.ok_bind, hshift, Exec.ok_bind,
                    if_pos hsize, firstAvail_eq hread, hfind]
                  rfl
                obtain ⟨r, hr, hres⟩ := ih h.tail (some hit)
                have hmem := List.mem_of_find?_eq_some hfind
                have havail : (p.mem hit).isAvail = true := by
                  simpa using List.find?_some hfind
                refine ⟨r, hstep.trans hr, hres.cons_of_fits hmem ⟨havail, ?_⟩⟩
                rw [hsame hit hmem]
                exact hsize
            | none =>
                have hstep : searchTable p size ((o :: rest) :: table) cand =
                    searchTable p size table cand := by
                  rw [searchTable, hread o List.mem_cons_self, Exec.ok_bind, hshift, Exec.ok_bind,
                    if_pos hsize, firstAvail_eq hread, hfind]
                  rfl
                obtain ⟨r, hr, hres⟩ := ih h.tail cand
                refine ⟨r, hstep.trans hr, hres.cons_of_not_fits fun o' ho' hfits ↦ ?_⟩
                exact (List.find?_eq_none.1 hfind o' ho') hfits.1
          · have hstep : searchTable p size ((o :: rest) :: table) cand =
                searchTable p size table cand := by
              rw [searchTable, hread o List.mem_cons_self, Exec.ok_bind, hshift, Exec.ok_bind,
                if_neg hsize]
            obtain ⟨r, hr, hres⟩ := ih h.tail cand
            refine ⟨r, hstep.trans hr, hres.cons_of_not_fits fun o' ho' hfits ↦ hsize ?_⟩
            rw [← hsame o' ho']
            exact hfits.2

section Table

variable {S : Set Block}

/-- A node on some list is the first byte of a block of the list's length. -/
theorem Lists.exists_block (h : Lists m n p S) {i : ℕ} {l : List ℕ} (hl : p.blktable[i]? = some l)
    {o : ℕ} (ho : o ∈ l) : i ≤ n - m ∧ (⟨o, n - i⟩ : Block) ∈ S := by
  have hi : i < p.blktable.length := (List.getElem?_eq_some_iff.1 hl).1
  have hlen := h.length
  have hmn := h.le
  have hsub : n - (n - i) = i := by omega
  have hlist : p.listOf (n - i) = l := by
    rw [Pool.listOf, h.maxlogsize, hsub, List.getD_eq_getElem?_getD, hl]
    rfl
  have hlo : m ≤ n - i := by omega
  exact ⟨by omega, (h.mem_iff _).2 ⟨hlo, Nat.sub_le _ _, by rw [hlist]; exact ho⟩⟩

theorem Lists.exists_list (h : Lists m n p S) {b : Block} (hb : b ∈ S) :
    ∃ l, p.blktable[n - b.log]? = some l ∧ b.off ∈ l := by
  obtain ⟨_, _, hmem⟩ := (h.mem_iff b).1 hb
  rw [Pool.listOf, h.maxlogsize, List.getD_eq_getElem?_getD] at hmem
  cases hl : p.blktable[n - b.log]? with
  | none =>
      rw [hl] at hmem
      exact absurd hmem List.not_mem_nil
  | some l =>
      rw [hl] at hmem
      exact ⟨l, rfl, hmem⟩

theorem Lists.searchable (h : Lists m n p S) (htiles : Tiles n S) (hheaders : Headers n p S) :
    Searchable p p.blktable := by
  have hblock : ∀ i l, p.blktable[i]? = some l → ∀ o ∈ l, (p.mem o).logsize = n - i := by
    intro i l hl o ho
    exact (hheaders _ (h.exists_block hl ho).2).logsize
  refine ⟨fun l hl o ho ↦ ?_, fun l hl o ho ↦ ?_, fun l hl o ho o' ho' ↦ ?_⟩
  all_goals obtain ⟨i, hi⟩ := List.getElem?_of_mem hl
  · have hb := (h.exists_block hi ho).2
    exact h.load_eq (b := ⟨o, n - i⟩) (h.le_log hb) (htiles.inside _ hb)
  · rw [hblock i l hi o ho]
    exact (Nat.sub_le _ _).trans h.maxFits
  · rw [hblock i l hi o ho, hblock i l hi o' ho']

end Table

theorem Describes.fits_iff {A : BuddyTiling m n} (h : Describes p A) {size : ℕ} {b : Block}
    (hb : b ∈ A.used ∪ A.free) : Fits p size b.off ↔ b ∈ A.free ∧ size ≤ 2 ^ b.log := by
  have hlog := (h.headers b hb).logsize
  unfold Fits
  rw [hlog]
  constructor
  · intro hfits
    rcases hb with hu | hf
    · rw [h.used b hu] at hfits
      exact absurd hfits.1 Bool.false_ne_true
    · exact ⟨hf, hfits.2⟩
  · intro hfits
    exact ⟨h.free b hfits.1, hfits.2⟩

/-- The search finds a shortest free block that holds `size` bytes, and nothing exactly when there
is none. -/
theorem Describes.search {A : BuddyTiling m n} (h : Describes p A) (size : ℕ) :
    (searchTable p size p.blktable none = .ok none ∧ ∀ b ∈ A.free, ¬ size ≤ 2 ^ b.log) ∨
      ∃ b ∈ A.free, searchTable p size p.blktable none = .ok (some b.off) ∧ size ≤ 2 ^ b.log ∧
        ∀ c ∈ A.free, size ≤ 2 ^ c.log → b.log ≤ c.log := by
  have hsearch := h.lists.searchable A.tiles h.headers
  obtain ⟨r, hr, hres⟩ := searchTable_spec size hsearch none
  cases hres with
  | kept hnone =>
      refine .inl ⟨hr, fun b hb hsize ↦ ?_⟩
      obtain ⟨l, hl, hmem⟩ := h.lists.exists_list (.inr hb)
      exact hnone l (List.mem_of_getElem? hl) b.off hmem ((h.fits_iff (.inr hb)).2 ⟨hb, hsize⟩)
  | found pre post l o hsplit hmem hfits hlast =>
      have hpos : p.blktable[pre.length]? = some l := by
        rw [hsplit, List.getElem?_append_right le_rfl, Nat.sub_self]
        rfl
      obtain ⟨hlen, hb⟩ := h.lists.exists_block hpos hmem
      obtain ⟨hfree, hsize⟩ := (h.fits_iff hb).1 hfits
      refine .inr ⟨⟨o, n - pre.length⟩, hfree, hr, hsize, fun c hc hcsize ↦ ?_⟩
      -- a shorter block that fits would be on a list further down
      by_contra hlt
      obtain ⟨l', hl', hmem'⟩ := h.lists.exists_list (.inr hc)
      have hbelow : pre.length + 1 ≤ n - c.log := by
        have hcn := h.lists.log_le (.inr hc)
        simp only at hlt
        omega
      have hpost : l' ∈ post := by
        obtain ⟨i, hi⟩ := Nat.exists_eq_add_of_le hbelow
        rw [hsplit, hi, List.getElem?_append_right (by omega)] at hl'
        have hidx : pre.length + 1 + i - pre.length = i + 1 := by omega
        rw [hidx, List.getElem?_cons_succ] at hl'
        exact List.mem_of_getElem? hl'
      exact hlast l' hpost c.off hmem' ((h.fits_iff (.inr hc)).2 ⟨hc, hcsize⟩)

/-! ## The split loop -/

section SplitBlock

/-- The pool after one turn of the split loop on the block `b`. -/
def Pool.halved (p : Pool) (b : Block) : Pool :=
  let p₁ := ({ p with nsplits := wrapSize (p.nsplits + 1) } : Pool).listRemove b.off
  let p₂ := (p₁.write b.left.off (shrunkNode (p.mem b.off) b.left.log)).push
    (p.maxlogsize - b.left.log) b.left.off
  (p₂.write b.right.off
    (newNode (p₂.mem b.right.off) b.right.off (p.mem b.off) b.right.log)).push
    (p.maxlogsize - b.right.log) b.right.off

theorem halved_nsplits (p : Pool) (b : Block) :
    (p.halved b).nsplits = wrapSize (p.nsplits + 1) := rfl

theorem halved_nmerges (p : Pool) (b : Block) : (p.halved b).nmerges = p.nmerges := rfl

theorem halved_mem_other (p : Pool) (b : Block) {o : ℕ} (hleft : o ≠ b.off)
    (hright : o ≠ b.right.off) : (p.halved b).mem o = p.mem o := by
  have hleft' : o ≠ b.left.off := hleft
  simp only [Pool.halved, Pool.push_mem, Pool.write_mem, Function.update_of_ne hright,
    Function.update_of_ne hleft', Pool.listRemove_mem]

theorem halved_mem_left (p : Pool) (b : Block) :
    (p.halved b).mem b.left.off = shrunkNode (p.mem b.off) b.left.log := by
  have hne : b.left.off ≠ b.right.off := (Nat.lt_add_of_pos_right (Nat.two_pow_pos _)).ne
  simp only [Pool.halved, Pool.push_mem, Pool.write_mem, Function.update_of_ne hne,
    Function.update_self]

theorem halved_mem_right (p : Pool) (b : Block) :
    ∃ old, (p.halved b).mem b.right.off = newNode old b.right.off (p.mem b.off) b.right.log :=
  ⟨_, Function.update_self _ _ _⟩

variable {O : OpenTiling m n}

theorem splitBlock_eq (h : DescribesOpen p O) (hlog : m < O.cur.log) :
    splitBlock p O.cur.off (p.mem O.cur.off) (O.cur.log - 1) = .ok (p.halved O.cur) ∧
      Lists m n (p.halved O.cur) (insert O.cur.right (insert O.cur.left (O.used ∪ O.free))) := by
  let left := O.cur.left
  let right := O.cur.right
  have hpos : 0 < O.cur.log := h.cur_log_pos
  have hstop := O.tiles.inside _ (Set.mem_insert _ _)
  have hlo : m ≤ left.log := Nat.le_sub_one_of_lt hlog
  have hhi : left.log ≤ n := (Nat.sub_le _ _).trans O.cur_log_le
  have hleftStop : left.stop ≤ 2 ^ n := (Block.left_within hpos).2.trans hstop
  have hrightStop : right.stop ≤ 2 ^ n := (Block.right_within hpos).2.trans hstop
  have hleft : left ∉ O.used ∪ O.free := O.not_mem_of_within (Block.left_within hpos)
  -- the pool after each write and each list operation
  let x := shrunkNode (p.mem O.cur.off) left.log
  let p₁ := ({ p with nsplits := wrapSize (p.nsplits + 1) } : Pool).listRemove O.cur.off
  let p₂ := (p₁.write left.off x).push (n - left.log) left.off
  let y := newNode (p₂.mem right.off) right.off (p.mem O.cur.off) right.log
  let p₃ := (p₂.write right.off y).push (n - right.log) right.off
  have hhalved : p.halved O.cur = p₃ := by
    simp only [Pool.halved, h.lists.maxlogsize, p₃, p₂, p₁, x, y, left, right]
  have hcounter : Lists m n { p with nsplits := wrapSize (p.nsplits + 1) }
      (insert O.cur (O.used ∪ O.free)) := h.lists.of_eq rfl rfl rfl rfl rfl
  have h₁ : Lists m n p₁ (O.used ∪ O.free) := hcounter.listRemove fun c hc ↦ O.off_ne_cur hc
  have h₁' : Lists m n (p₁.write left.off x) (O.used ∪ O.free) := h₁.write left.off x
  have h₂ : Lists m n p₂ (insert left (O.used ∪ O.free)) := h₁'.push hleft hlo hhi
  have h₂' : Lists m n (p₂.write right.off y) (insert left (O.used ∪ O.free)) :=
    h₂.write right.off y
  rw [hhalved]
  refine ⟨?_, h₂'.push (O.right_fresh hlog) hlo hhi⟩
  have hstore : p₁.store O.cur.off x = .ok (p₁.write left.off x) :=
    h₁.store_eq (b := left) hlo hleftStop x
  have hpush : (p₁.write left.off x).insertHead (n - left.log) O.cur.off = .ok p₂ :=
    h₁'.insertHead_eq (b := left) hlo hhi
  have hload : p₂.load right.off = .ok (p₂.mem right.off) :=
    h₂.load_eq (b := right) hlo hrightStop
  have hstore' : p₂.store right.off y = .ok (p₂.write right.off y) :=
    h₂.store_eq (b := right) hlo hrightStop y
  have hpush' : (p₂.write right.off y).insertHead (n - right.log) right.off = .ok p₃ :=
    h₂'.insertHead_eq (b := right) hlo hhi
  change (p₁.store O.cur.off x >>= fun p ↦
    p.insertHead (subSize p.maxlogsize left.log) O.cur.off >>= fun p' ↦
    shiftOne left.log >>= fun length ↦ p'.load (O.cur.off + length) >>= fun old ↦
    p'.store (O.cur.off + length) (newNode old _ _ _) >>= fun p'' ↦
    p''.insertHead (subSize p.maxlogsize left.log) (O.cur.off + length)) = _
  rw [hstore, Exec.ok_bind, h₁'.newpos_eq hhi, hpush, Exec.ok_bind, h₁.shift_eq hhi, Exec.ok_bind]
  change (p₂.load right.off >>= fun old ↦ p₂.store right.off (newNode old _ _ _) >>= fun p ↦
    p.insertHead _ right.off) = _
  rw [hload, Exec.ok_bind]
  change (p₂.store right.off y >>= fun p ↦ p.insertHead _ right.off) = _
  rw [hstore', Exec.ok_bind]
  exact hpush'

theorem DescribesOpen.halved (h : DescribesOpen p O) (hlog : m < O.cur.log) :
    DescribesOpen (p.halved O.cur) (O.split hlog) := by
  have hpos : 0 < O.cur.log := h.cur_log_pos
  have hrest : ∀ c ∈ O.used ∪ O.free, (p.halved O.cur).mem c.off = p.mem c.off := fun c hc ↦
    halved_mem_other p O.cur (O.off_ne_cur hc) (O.off_ne_right hlog hc)
  obtain ⟨old, hold⟩ := halved_mem_right p O.cur
  have hset : insert O.cur.left (O.used ∪ insert O.cur.right O.free) =
      insert O.cur.right (insert O.cur.left (O.used ∪ O.free)) := by
    rw [Set.union_insert, Set.insert_comm]
  refine ⟨hset ▸ (splitBlock_eq h hlog).2, ?_, ?_, ?_⟩
  · intro c hc
    have hc' : c ∈ insert O.cur.right (insert O.cur.left (O.used ∪ O.free)) := hset ▸ hc
    rcases hc' with heq | heq | hc'
    · rw [heq, hold]
      exact h.cur_header.new O.cur_aligned hpos O.cur_log_le old
    · rw [heq, halved_mem_left]
      exact h.cur_header.shrunk O.cur_aligned hpos O.cur_log_le
    · rw [hrest c hc']
      exact h.headers c (Set.mem_insert_of_mem _ hc')
  · intro c hc
    rw [hrest c (.inl hc)]
    exact h.used c hc
  · intro c hc
    rcases hc with heq | hc
    · rw [heq, hold]
      simp [newNode]
    · rw [hrest c (.inr hc)]
      exact h.free c hc

end SplitBlock

/-- The end of `mpool_alloc` puts the open block in use and returns the address after its header. -/
theorem markAndReturn_eq {O : OpenTiling m n} (h : DescribesOpen p O) :
    markAndReturn p O.cur.off =
      .ok (p.write O.cur.off (p.mem O.cur.off).markUsed, O.cur.off + sizeofBlkNode) := by
  rw [markAndReturn, h.load_cur, Exec.ok_bind, h.store_cur, Exec.ok_bind, h.cur_header.ptr]
  rfl

/-- The lengths that a request of `size` bytes may be given. -/
def Holding (m size : ℕ) : Set ℕ := {j | m ≤ j ∧ size ≤ 2 ^ j}

/-- One turn of the loop.  Either the open block has the least length that holds `size` bytes and is
put in use, or the loop goes on with its lower half, which holds them too. -/
theorem allocAgain_turn (size : ℕ) {O : OpenTiling m n} (h : DescribesOpen p O) {k : ℕ}
    (hk : O.cur.log = k + 1) (hsize : size ≤ 2 ^ (k + 1)) :
    (IsLeast (Holding m size) (k + 1) ∧ allocAgain size O.cur.off (k + 1) p =
        .ok (p.write O.cur.off (p.mem O.cur.off).markUsed, O.cur.off + sizeofBlkNode)) ∨
      (m < O.cur.log ∧ size ≤ 2 ^ k ∧
        allocAgain size O.cur.off (k + 1) p = allocAgain size O.cur.off k (p.halved O.cur)) := by
  have hlo : m ≤ k + 1 := hk ▸ h.le_cur_log
  have hhi : k + 1 ≤ n := hk ▸ O.cur_log_le
  have hpow : 2 ^ (k + 1) = 2 * 2 ^ k := by rw [pow_succ, mul_comm]
  have hloop : allocAgain size O.cur.off (k + 1) p =
      if size = 2 ^ (k + 1) ∨ 2 ^ k < size ∨ k < m then markAndReturn p O.cur.off
      else splitBlock p O.cur.off (p.mem O.cur.off) k >>= allocAgain size O.cur.off k := by
    rw [allocAgain, h.load_cur, Exec.ok_bind, h.lists.shift_eq hhi, Exec.ok_bind]
    by_cases hfull : size = 2 ^ (k + 1)
    · rw [if_pos hfull, if_pos (.inl hfull)]
    · rw [if_neg hfull, h.lists.shift_eq ((Nat.le_succ k).trans hhi), Exec.ok_bind,
        h.lists.minlogsize]
      by_cases hrest : 2 ^ k < size ∨ k < m
      · rw [if_pos hrest, if_pos (.inr hrest)]
      · rw [if_neg hrest, if_neg (not_or.2 ⟨hfull, hrest⟩)]
  by_cases hstop : size = 2 ^ (k + 1) ∨ 2 ^ k < size ∨ k < m
  · refine .inl ⟨⟨⟨hlo, hsize⟩, fun j hj ↦ ?_⟩, ?_⟩
    · by_contra hlt
      have hjk : 2 ^ j ≤ 2 ^ k := Nat.pow_le_pow_right two_pos (by omega)
      have hpos := Nat.two_pow_pos k
      have hfit := hj.2
      have hfloor := hj.1
      omega
    · rw [hloop, if_pos hstop, markAndReturn_eq h]
  · have hm : m < O.cur.log := by omega
    have hsplit := (splitBlock_eq h hm).1
    rw [hk, Nat.add_sub_cancel] at hsplit
    refine .inr ⟨hm, by omega, ?_⟩
    rw [hloop, if_neg hstop, hsplit, Exec.ok_bind]

/-- The blocks that stay free when the block of length `2 ^ k` at `o` is halved down to length
`2 ^ j`. -/
def upperHalves (o j k : ℕ) : Set Block := {b | ∃ i, j ≤ i ∧ i < k ∧ b = ⟨o + 2 ^ i, i⟩}

theorem upperHalves_self (o k : ℕ) : upperHalves o k k = ∅ := by
  ext b
  simp only [upperHalves, Set.mem_ofPred_eq, Set.mem_empty_iff_false, iff_false]
  rintro ⟨i, hlo, hhi, _⟩
  omega

theorem upperHalves_succ (o : ℕ) {j k : ℕ} (h : j ≤ k) :
    upperHalves o j (k + 1) = insert ⟨o + 2 ^ k, k⟩ (upperHalves o j k) := by
  ext b
  constructor
  · rintro ⟨i, hlo, hhi, rfl⟩
    rcases (Nat.lt_succ_iff.1 hhi).lt_or_eq with hlt | rfl
    · exact .inr ⟨i, hlo, hlt, rfl⟩
    · exact .inl rfl
  · rintro (rfl | ⟨i, hlo, hhi, rfl⟩)
    · exact ⟨k, h, Nat.lt_succ_self k, rfl⟩
    · exact ⟨i, hlo, hhi.trans (Nat.lt_succ_self k), rfl⟩

/-- What the split loop leaves when it stops at length `2 ^ j`: the blocks, the counters, and the
headers of the blocks that it did not split. -/
structure Splits (p p' : Pool) (O : OpenTiling m n) (A : BuddyTiling m n) (j : ℕ) : Prop where
  le : j ≤ O.cur.log
  used : A.used = insert ⟨O.cur.off, j⟩ O.used
  free : A.free = upperHalves O.cur.off j O.cur.log ∪ O.free
  nsplits : p.nsplits < sizeModulus → p'.nsplits = wrapSize (p.nsplits + (O.cur.log - j))
  counted : Counted p (insert O.cur (O.used ∪ O.free)).ncard → Counted p' (A.used ∪ A.free).ncard
  kept : ∀ c ∈ O.used ∪ O.free, p'.mem c.off = p.mem c.off

theorem splits_stop (p : Pool) (O : OpenTiling m n) (x : BlkNode) :
    Splits p (p.write O.cur.off x) O O.closeUsed O.cur.log where
  le := le_rfl
  used := rfl
  free := by rw [upperHalves_self, Set.empty_union]; rfl
  nsplits hsplits := by
    rw [Nat.sub_self, Nat.add_zero, wrapSize_of_lt hsplits]
    rfl
  counted hcount := by
    rw [O.closeUsed_blocks]
    exact hcount.of_eq rfl rfl
  kept _ hc := DescribesOpen.write_mem_of_mem p x hc

/-- The loop goes on with the lower half. -/
theorem Splits.turn {p' : Pool} {O : OpenTiling m n} {A : BuddyTiling m n} {j : ℕ}
    (hlog : m < O.cur.log) (h : Splits (p.halved O.cur) p' (O.split hlog) A j) :
    Splits p p' O A j := by
  obtain ⟨k, hk⟩ := Nat.exists_eq_succ_of_ne_zero (Nat.zero_lt_of_lt hlog).ne'
  have hcur : (O.split hlog).cur = ⟨O.cur.off, k⟩ := by
    change O.cur.left = _
    rw [Block.left, hk]
    rfl
  have hright : O.cur.right = ⟨O.cur.off + 2 ^ k, k⟩ := by
    rw [Block.right, hk]
    rfl
  obtain ⟨hle, hused, hfree, hsplits, hcount, hkept⟩ := h
  rw [hcur] at hle hused hfree hsplits
  have hjk : j ≤ k := hle
  refine ⟨hk ▸ hjk.trans (Nat.le_succ k), hused, ?_, fun _ ↦ ?_, fun hp ↦ hcount ?_, fun c hc ↦ ?_⟩
  · rw [hfree, hk, upperHalves_succ _ hjk, ← hright]
    change upperHalves O.cur.off j k ∪ insert O.cur.right O.free = _
    rw [Set.union_insert, Set.insert_union]
  · have hturns : k.succ - j = 1 + (k - j) := by omega
    rw [hsplits (Nat.mod_lt _ (by decide)), halved_nsplits, hk, hturns, ← Nat.add_assoc]
    exact Nat.mod_add_mod _ _ _
  · rw [O.ncard_split hlog]
    exact hp.split (halved_nsplits p O.cur) (halved_nmerges p O.cur)
  · have hmem : c ∈ (O.split hlog).used ∪ (O.split hlog).free := by
      rcases hc with hu | hf
      · exact .inl hu
      · exact .inr (Set.mem_insert_of_mem _ hf)
    rw [hkept c hmem, halved_mem_other p O.cur (O.off_ne_cur hc) (O.off_ne_right hlog hc)]

/-- The split loop puts in use a block of the least length that holds `size` bytes, at the address
of the open block.  The induction is on the length of the open block. -/
theorem allocAgain_splits (size : ℕ) {O : OpenTiling m n} (h : DescribesOpen p O)
    (hsize : size ≤ 2 ^ O.cur.log) {k : ℕ} (hk : O.cur.log = k) :
    ∃ p' j, ∃ A : BuddyTiling m n, allocAgain size O.cur.off k p =
        .ok (p', O.cur.off + sizeofBlkNode) ∧ Describes p' A ∧ IsLeast (Holding m size) j ∧
      Splits p p' O A j := by
  induction k generalizing p O with
  | zero => exact absurd h.cur_log_pos (by omega)
  | succ k ih =>
      rcases allocAgain_turn size h hk (hk ▸ hsize) with ⟨hleast, hrun⟩ | ⟨hm, hfit, hturn⟩
      · refine ⟨_, k + 1, O.closeUsed, hrun, h.closeUsed, hleast, ?_⟩
        rw [← hk]
        exact splits_stop p O _
      · have hcur : (O.split hm).cur.log = k := by
          change O.cur.log - 1 = k
          omega
        obtain ⟨p', j, A, hrun, hdesc, hleast, hleaves⟩ := ih (h.halved hm) (hcur ▸ hfit) hcur
        exact ⟨p', j, A, hturn.trans hrun, hdesc, hleast, hleaves.turn hm⟩

/-! ## A request -/

/-- `mpool_alloc` on a described tiling.  Either no free block holds the request and nothing
changes, or a shortest one that does is split. -/
theorem mpoolAlloc_splits {A : BuddyTiling m n} (h : Describes p A) (blksize : ℕ) :
    let size := wrapSize (blksize + sizeofBlkNode)
    (mpoolAlloc p blksize = .ok (p, none) ∧ ∀ b ∈ A.free, ¬ size ≤ 2 ^ b.log) ∨
      ∃ f, ∃ hf : f ∈ A.free, ∃ p' j, ∃ A' : BuddyTiling m n,
        mpoolAlloc p blksize = .ok (p', some (f.off + sizeofBlkNode)) ∧ size ≤ 2 ^ f.log ∧
        (∀ c ∈ A.free, size ≤ 2 ^ c.log → f.log ≤ c.log) ∧ Describes p' A' ∧
        IsLeast (Holding m size) j ∧ Splits p p' (A.take f hf) A' j := by
  intro size
  rcases h.search size with ⟨hsearch, hnone⟩ | ⟨f, hf, hsearch, hsize, hbest⟩
  · refine .inl ⟨?_, hnone⟩
    rw [mpoolAlloc, hsearch, Exec.ok_bind]
    rfl
  · obtain ⟨p', j, A', hrun, hdesc, hleast, hsplits⟩ :=
      allocAgain_splits size (h.take hf) hsize (k := f.log) rfl
    refine .inr ⟨f, hf, p', j, A', ?_, hsize, hbest, hdesc, hleast, hsplits⟩
    have hload : p.load f.off = .ok (p.mem f.off) := (h.take hf).load_cur
    have hlog : (p.mem f.off).logsize = f.log := (h.headers f (.inr hf)).logsize
    change allocAgain size f.off f.log p = _ at hrun
    rw [mpoolAlloc, hsearch, Exec.ok_bind]
    change (p.load f.off >>= fun n ↦ allocAgain size f.off n.logsize p >>= fun r ↦
      .ok (r.1, some r.2)) = _
    rw [hload, Exec.ok_bind, hlog, hrun]
    rfl

/-- On the tiling, a request that is granted puts a vacant block of the least length that holds it
in use, and the counter of splits keeps up with the number of blocks. -/
theorem mpoolAlloc_spec {A : BuddyTiling m n} (h : Describes p A) (blksize : ℕ) :
    let size := wrapSize (blksize + sizeofBlkNode)
    (mpoolAlloc p blksize = .ok (p, none) ∧ ∀ b ∈ A.free, ¬ size ≤ 2 ^ b.log) ∨
      ∃ p' b, ∃ A' : BuddyTiling m n,
        mpoolAlloc p blksize = .ok (p', some (b.off + sizeofBlkNode)) ∧ Describes p' A' ∧
        IsLeast (Holding m size) b.log ∧ b ∈ Vacant n A.used ∧ A'.used = insert b A.used ∧
        (Counted p (A.used ∪ A.free).ncard → Counted p' (A'.used ∪ A'.free).ncard) := by
  intro size
  refine (mpoolAlloc_splits h blksize).imp_right ?_
  rintro ⟨f, hf, p', j, A', hrun, _, _, hdesc, hleast, hsplits⟩
  have hj : j ≤ f.log := hsplits.le
  obtain ⟨hal, hstop, hvac⟩ := A.tiles.free_vacant A.separate hf
  have hin : (⟨f.off, j⟩ : Block).Within f :=
    ⟨le_rfl, Nat.add_le_add_left (Nat.pow_le_pow_right two_pos hj) _⟩
  refine ⟨p', ⟨f.off, j⟩, A', hrun, hdesc, hleast, ⟨(pow_dvd_pow 2 hj).trans hal,
    hin.2.trans hstop, fun u hu ↦ (hvac u hu).of_within hin⟩, hsplits.used, ?_⟩
  rw [← A.take_blocks hf]
  exact hsplits.counted

end Experimentation.Buddy
