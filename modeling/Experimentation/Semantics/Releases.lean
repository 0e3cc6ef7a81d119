import Experimentation.Semantics.Exec
import Mathlib.Data.List.Nodup
import Mathlib.Data.List.Sigma

/-!
# Programs that take a structure apart

The blocks of a structure are named by what they are for, and a program that frees them is followed
by the list of the names that were freed, the latest first.  Such a program is described by two
lists: the blocks that it looks at and the blocks that it frees, in their order.  It is defined
unless it frees a block twice or looks at a block after it was freed, and the rules below say so for
programs that are put together from smaller ones.
-/

namespace Experimentation.Semantics

variable {B α : Type}

/-- Look at a block. -/
def lookAt [DecidableEq B] (b : B) (freed : List B) : Exec (List B) :=
  if b ∈ freed then .error .badPointer else .ok freed

/-- `free`. -/
def freeBlock [DecidableEq B] (b : B) (freed : List B) : Exec (List B) :=
  if b ∈ freed then .error .badPointer else .ok (b :: freed)

/-- The program looks at the blocks `seen` and frees the blocks `bs`.  Where it is defined it frees
nothing that was freed before, and it is defined if that is so and what it looks at was not freed
either. -/
structure Releases (f : List B → Exec (List B)) (seen bs : List B) : Prop where
  sound : ∀ {freed freed'}, freed.Nodup → f freed = .ok freed' →
    freed' = bs.reverse ++ freed ∧ freed'.Nodup
  defined : ∀ {freed}, (bs.reverse ++ freed).Nodup → (∀ b ∈ seen, b ∉ freed) →
    f freed = .ok (bs.reverse ++ freed)

namespace Releases

variable {f g : List B → Exec (List B)} {seen seen' bs cs : List B}

/-- A program that starts where nothing was freed is defined just if it frees no block twice. -/
theorem eq_ok_iff (h : Releases f seen bs) {freed : List B} :
    f [] = .ok freed ↔ bs.Nodup ∧ freed = bs.reverse := by
  constructor
  · intro hrun
    obtain ⟨rfl, hnodup⟩ := h.sound List.nodup_nil hrun
    rw [List.append_nil] at hnodup ⊢
    exact ⟨List.nodup_reverse.1 hnodup, rfl⟩
  · rintro ⟨hnodup, rfl⟩
    have hall : (bs.reverse ++ []).Nodup := by
      rw [List.append_nil]
      exact List.nodup_reverse.2 hnodup
    have hrun := h.defined hall fun _ _ ↦ List.not_mem_nil
    rwa [List.append_nil] at hrun

theorem pure : Releases (.ok : List B → Exec (List B)) [] [] where
  sound hnodup hrun := by
    cases hrun
    exact ⟨rfl, hnodup⟩
  defined _ _ := rfl

theorem lookAt [DecidableEq B] (b : B) : Releases (lookAt b) [b] [] where
  sound {freed freed'} hnodup hrun := by
    rw [Semantics.lookAt] at hrun
    split at hrun
    · cases hrun
    · cases hrun
      exact ⟨rfl, hnodup⟩
  defined _ hseen := if_neg (hseen b List.mem_cons_self)

theorem freeBlock [DecidableEq B] (b : B) : Releases (freeBlock b) [] [b] where
  sound {freed freed'} hnodup hrun := by
    rw [Semantics.freeBlock] at hrun
    split at hrun
    · cases hrun
    · rename_i hb
      cases hrun
      exact ⟨rfl, List.nodup_cons.2 ⟨hb, hnodup⟩⟩
  defined hall _ := if_neg (List.nodup_cons.1 hall).1

/-- One program after another.  What the second one looks at must not be freed by the first one,
unless the second one would free it again. -/
theorem bind (hf : Releases f seen bs) (hg : Releases g seen' cs)
    (hkept : ∀ b ∈ seen', b ∈ bs → b ∈ cs) :
    Releases (fun freed ↦ f freed >>= g) (seen ++ seen') (bs ++ cs) where
  sound {freed freed'} hnodup hrun := by
    obtain ⟨middle, hfirst, hsecond⟩ := Exec.bind_eq_ok.1 hrun
    obtain ⟨rfl, hmiddle⟩ := hf.sound hnodup hfirst
    rw [List.reverse_append, List.append_assoc]
    exact hg.sound hmiddle hsecond
  defined {freed} hall hseen := by
    rw [List.reverse_append, List.append_assoc] at hall ⊢
    obtain ⟨_, hrest, hapart⟩ := List.nodup_append.1 hall
    rw [hf.defined hrest fun b hb ↦ hseen b (List.mem_append_left _ hb)]
    apply hg.defined hall
    intro b hb hmem
    rcases List.mem_append.1 hmem with hbs | hfreed
    · have hcs := hkept b hb (List.mem_reverse.1 hbs)
      exact hapart b (List.mem_reverse.2 hcs) b hmem rfl
    · exact hseen b (List.mem_append_right _ hb) hfreed

/-- What a program frees need not be listed among what it looks at. -/
theorem own (h : Releases f seen bs) (hown : ∀ b ∈ seen, b ∈ seen' ∨ b ∈ bs) :
    Releases f seen' bs where
  sound := h.sound
  defined {freed} hall hseen := by
    apply h.defined hall
    intro b hb hfreed
    rcases hown b hb with hseen' | hbs
    · exact hseen b hseen' hfreed
    · exact (List.nodup_append.1 hall).2.2 b (List.mem_reverse.2 hbs) b hfreed rfl

/-- A loop.  A turn must not free what another one looks at, unless that one would free it again. -/
theorem foldlM {f : α → List B → Exec (List B)} {seen bs : α → List B} {as : List α}
    (h : ∀ a ∈ as, Releases (f a) (seen a) (bs a))
    (hkept : ∀ a ∈ as, ∀ a' ∈ as, ∀ b ∈ seen a', b ∈ bs a → b ∈ bs a') :
    Releases (fun freed ↦ as.foldlM (fun freed a ↦ f a freed) freed) (as.flatMap seen)
      (as.flatMap bs) := by
  induction as with
  | nil => exact pure
  | cons a as ih =>
      simp only [List.foldlM_cons, List.flatMap_cons]
      apply bind (h a List.mem_cons_self)
      · apply ih
        · exact fun a' ha' ↦ h a' (List.mem_cons_of_mem a ha')
        · exact fun a₁ h₁ a₂ h₂ ↦
            hkept a₁ (List.mem_cons_of_mem a h₁) a₂ (List.mem_cons_of_mem a h₂)
      · intro b hb hfirst
        obtain ⟨a', ha', hseen⟩ := List.mem_flatMap.1 hb
        have hagain := hkept a List.mem_cons_self a' (List.mem_cons_of_mem a ha') b hseen hfirst
        exact List.mem_flatMap.2 ⟨a', ha', hagain⟩

/-- The same program, written in another way. -/
theorem congr (h : Releases f seen bs) (hsame : ∀ freed, g freed = f freed) :
    Releases g seen bs := by
  rwa [show g = f from funext hsame]

end Releases

/-! ## Places in rows -/

/-- The elements of the first `size` rows, each with the index of its row and its index there. -/
def slots (size : ℕ) (rows : List (List α)) : List (ℕ × α × ℕ) :=
  (List.range size).flatMap fun i ↦ (rows.getD i []).zipIdx.map (Prod.mk i)

theorem mem_slots {size : ℕ} {rows : List (List α)} {i j : ℕ} {a : α} :
    (i, a, j) ∈ slots size rows ↔ i < size ∧ (rows.getD i [])[j]? = some a := by
  simp [slots, List.mem_zipIdx_iff_getElem?]

theorem flatMap_slots (size : ℕ) (rows : List (List α)) (f : ℕ × α × ℕ → List B) :
    (slots size rows).flatMap f = (List.range size).flatMap fun i ↦
      (rows.getD i []).zipIdx.flatMap fun x ↦ f (i, x) := by
  simp only [slots, List.flatMap_assoc, List.flatMap_map]

theorem slots_map (rows : List (List α)) :
    (slots rows.length rows).map (·.2.1) = rows.flatten := by
  have hrows : (List.range rows.length).map (rows.getD · []) = rows := by
    apply List.ext_getElem
    · rw [List.length_map, List.length_range]
    · intro i _ hi
      simp [hi]
  calc
    (slots rows.length rows).map (·.2.1) = (List.range rows.length).flatMap (rows.getD · []) := by
      simp [slots, List.map_flatMap, Function.comp_def]
    _ = ((List.range rows.length).map (rows.getD · [])).flatten := List.flatMap_def ..
    _ = rows.flatten := by rw [hrows]

theorem slots_pairwise (size : ℕ) (rows : List (List α)) :
    (slots size rows).Pairwise fun x y ↦ (x.1, x.2.2) ≠ (y.1, y.2.2) := by
  have hnodup : ((slots size rows).map fun x ↦ (x.1, x.2.2)).Nodup := by
    rw [slots, List.map_flatMap, List.nodup_flatMap]
    constructor
    · intro i _
      have hrow := (List.nodup_zipIdx_map_snd (rows.getD i [])).map (Prod.mk_right_injective i)
      simpa only [List.map_map, Function.comp_def] using hrow
    · apply List.nodup_range.imp
      intro i i' hne p hp hp'
      simp only [List.map_map, List.mem_map, Function.comp_apply] at hp hp'
      obtain ⟨_, _, rfl⟩ := hp
      obtain ⟨_, _, heq⟩ := hp'
      exact hne (Prod.mk.inj heq).1.symm
  exact List.pairwise_map.1 hnodup

theorem nodup_flatMap_slots {size : ℕ} {rows : List (List α)} {f : ℕ × α × ℕ → List B}
    (place : B → Option (ℕ × ℕ)) (hself : ∀ x, (f x).Nodup)
    (hplace : ∀ x, ∀ b ∈ f x, place b = some (x.1, x.2.2)) :
    ((slots size rows).flatMap f).Nodup := by
  apply List.nodup_flatMap.2
  refine ⟨fun x _ ↦ hself x, (slots_pairwise size rows).imp fun hne b hb hb' ↦ ?_⟩
  exact hne (Option.some.inj ((hplace _ b hb).symm.trans (hplace _ b hb')))

/-- A loop over rows whose turns look at the blocks `first` and then go along the row.  No element
may lead to the release of what the loop looks at for another one. -/
theorem Releases.foldlM_rows {size : ℕ} {rows : List (List α)}
    {turn : ℕ → List B → Exec (List B)} {body : ℕ → α × ℕ → List B → Exec (List B)}
    {first : List B} {seen bs : ℕ × α × ℕ → List B}
    (hturn : ∀ i < size, ∀ {ts cs}, Releases (fun freed ↦
      (rows.getD i []).zipIdx.foldlM (fun freed x ↦ body i x freed) freed) ts cs →
      Releases (turn i) (first ++ ts) cs)
    (hbody : ∀ i x, Releases (body i x) (seen (i, x)) (bs (i, x)))
    (hkept : ∀ x x' b, b ∈ seen x' → b ∉ bs x) (hfirst : ∀ x b, b ∈ first → b ∉ bs x) :
    Releases (fun freed ↦ (List.range size).foldlM (fun freed i ↦ turn i freed) freed)
      (first ++ (slots size rows).flatMap seen) ((slots size rows).flatMap bs) := by
  have hrow (i : ℕ) (hi : i ∈ List.range size) : Releases (turn i)
      (first ++ (rows.getD i []).zipIdx.flatMap fun x ↦ seen (i, x))
      ((rows.getD i []).zipIdx.flatMap fun x ↦ bs (i, x)) := by
    apply hturn i (List.mem_range.1 hi)
    apply Releases.foldlM fun x _ ↦ hbody i x
    exact fun x _ x' _ b hb hmem ↦ absurd hmem (hkept _ _ b hb)
  have hloop := Releases.foldlM hrow fun i _ i' _ b hb hmem ↦ by
    obtain ⟨x, _, hbs⟩ := List.mem_flatMap.1 hmem
    rcases List.mem_append.1 hb with hb | hb
    · exact absurd hbs (hfirst _ b hb)
    · obtain ⟨x', _, hseen⟩ := List.mem_flatMap.1 hb
      exact absurd hbs (hkept _ _ b hseen)
  rw [flatMap_slots, flatMap_slots]
  apply hloop.own
  intro b hb
  obtain ⟨i, hi, hmem⟩ := List.mem_flatMap.1 hb
  left
  exact List.mem_append.2 ((List.mem_append.1 hmem).imp_right fun hmem ↦
    List.mem_flatMap.2 ⟨i, hi, hmem⟩)

end Experimentation.Semantics
