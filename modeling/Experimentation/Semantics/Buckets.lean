import Mathlib.Data.List.Basic
import Mathlib.Data.List.Perm.Basic
import Mathlib.Data.List.Lemmas

/-!
# Stable distribution of a list over buckets

A sequence of entries is distributed over numbered buckets by a function that says where each entry
belongs.  `layout bucket size es` is the distribution in which every bucket keeps its entries in the
order of the sequence.  Adding an entry at the end, erasing one, and distributing the entries again
over buckets that refine the old ones all lead from a layout to a layout, so a program that only
does these keeps the buckets a function of the sequence.
-/

open scoped List

namespace Experimentation.Buckets

variable {α : Type*} {bucket : α → ℕ} {size : ℕ} {es : List α}

/-- The entries that belong to bucket `b`, in the order of the sequence. -/
def chain (bucket : α → ℕ) (es : List α) (b : ℕ) : List α := es.filter fun e ↦ bucket e = b

/-- The chains of the buckets below `size`. -/
def layout (bucket : α → ℕ) (size : ℕ) (es : List α) : List (List α) :=
  (List.range size).map (chain bucket es)

@[simp]
theorem layout_length : (layout bucket size es).length = size := by
  rw [layout, List.length_map, List.length_range]

theorem layout_getElem? {b : ℕ} (h : b < size) :
    (layout bucket size es)[b]? = some (chain bucket es b) := by
  rw [layout, List.getElem?_map, List.getElem?_range h]
  rfl

theorem mem_chain {e : α} {b : ℕ} : e ∈ chain bucket es b ↔ e ∈ es ∧ bucket e = b := by
  rw [chain, List.mem_filter, decide_eq_true_iff]

theorem layout_nil : layout bucket size [] = List.replicate size [] := by
  rw [layout, List.eq_replicate_iff]
  exact ⟨by simp, by simp [chain]⟩

theorem chain_append (es fs : List α) (b : ℕ) :
    chain bucket (es ++ fs) b = chain bucket es b ++ chain bucket fs b :=
  List.filter_append ..

theorem chain_cons_of_eq {e : α} {b : ℕ} (h : bucket e = b) :
    chain bucket (e :: es) b = e :: chain bucket es b :=
  List.filter_cons_of_pos (decide_eq_true h)

theorem chain_cons_of_ne {e : α} {b : ℕ} (h : bucket e ≠ b) :
    chain bucket (e :: es) b = chain bucket es b :=
  List.filter_cons_of_neg (by simpa using h)

theorem layout_congr {bucket' : α → ℕ} {es' : List α}
    (h : ∀ b < size, chain bucket es b = chain bucket' es' b) :
    layout bucket size es = layout bucket' size es' :=
  List.map_congr_left fun b hb ↦ h b (List.mem_range.1 hb)

theorem eq_layout {table : List (List α)} (hlength : table.length = size)
    (h : ∀ b < size, table[b]? = some (chain bucket es b)) : table = layout bucket size es := by
  apply List.ext_getElem?
  intro b
  by_cases hb : b < size
  · rw [h b hb, layout_getElem? hb]
  · rw [List.getElem?_eq_none (by omega), List.getElem?_eq_none (by rw [layout_length]; omega)]

theorem modify_layout {f : List α → List α} {es' : List α} {b : ℕ}
    (hsame : f (chain bucket es b) = chain bucket es' b)
    (hother : ∀ c, c ≠ b → chain bucket es c = chain bucket es' c) :
    (layout bucket size es).modify b f = layout bucket size es' := by
  apply eq_layout
  · rw [List.length_modify, layout_length]
  · intro c hc
    rw [List.getElem?_modify, layout_getElem? hc]
    by_cases hcb : b = c
    · subst hcb
      simp [hsame]
    · simp [hcb, hother c (Ne.symm hcb)]

/-- An entry added at the end of the sequence goes to the end of its bucket. -/
theorem modify_append (e : α) :
    (layout bucket size es).modify (bucket e) (· ++ [e]) = layout bucket size (es ++ [e]) := by
  apply modify_layout
  · rw [chain_append]
    simp [chain]
  · intro c hc
    rw [chain_append]
    simp [chain, Ne.symm hc]

section Select

variable {p : α → Bool} {b : ℕ}

theorem find?_chain (h : ∀ e ∈ es, p e = true → bucket e = b) :
    (chain bucket es b).find? p = es.find? p := by
  induction es with
  | nil => rfl
  | cons e es ih =>
      have hrest := ih fun f hf ↦ h f (List.mem_cons_of_mem _ hf)
      cases hp : p e with
      | true =>
          rw [chain_cons_of_eq (h e List.mem_cons_self hp), List.find?_cons_of_pos hp,
            List.find?_cons_of_pos hp]
      | false =>
          rw [List.find?_cons_of_neg (by simp [hp]), ← hrest]
          by_cases hb : bucket e = b
          · rw [chain_cons_of_eq hb, List.find?_cons_of_neg (by simp [hp])]
          · rw [chain_cons_of_ne hb]

theorem find?_eraseP_of_not {q : α → Bool} (h : ∀ e, q e = true → ¬ p e = true) :
    (es.eraseP p).find? q = es.find? q := by
  induction es with
  | nil => rfl
  | cons e es ih =>
      cases hp : p e with
      | true =>
          rw [List.eraseP_cons_of_pos hp, List.find?_cons_of_neg fun hq ↦ h e hq hp]
      | false =>
          rw [List.eraseP_cons_of_neg (by simp [hp]), List.find?_cons, List.find?_cons, ih]

theorem chain_eraseP (h : ∀ e ∈ es, p e = true → bucket e = b) :
    (chain bucket es b).eraseP p = chain bucket (es.eraseP p) b := by
  induction es with
  | nil => rfl
  | cons e es ih =>
      have hrest := ih fun f hf ↦ h f (List.mem_cons_of_mem _ hf)
      cases hp : p e with
      | true =>
          rw [chain_cons_of_eq (h e List.mem_cons_self hp), List.eraseP_cons_of_pos hp,
            List.eraseP_cons_of_pos hp]
      | false =>
          rw [List.eraseP_cons_of_neg (l := es) (by simp [hp])]
          by_cases hb : bucket e = b
          · rw [chain_cons_of_eq hb, chain_cons_of_eq hb, List.eraseP_cons_of_neg (by simp [hp]),
              hrest]
          · rw [chain_cons_of_ne hb, chain_cons_of_ne hb, hrest]

theorem chain_eraseP_other (h : ∀ e ∈ es, p e = true → bucket e = b) {c : ℕ} (hc : c ≠ b) :
    chain bucket es c = chain bucket (es.eraseP p) c := by
  induction es with
  | nil => rfl
  | cons e es ih =>
      have hrest := ih fun f hf ↦ h f (List.mem_cons_of_mem _ hf)
      cases hp : p e with
      | true =>
          have hb : bucket e ≠ c := fun heq ↦ hc (heq.symm.trans (h e List.mem_cons_self hp))
          rw [chain_cons_of_ne hb, List.eraseP_cons_of_pos hp]
      | false =>
          rw [List.eraseP_cons_of_neg (l := es) (by simp [hp])]
          by_cases hb : bucket e = c
          · rw [chain_cons_of_eq hb, chain_cons_of_eq hb, hrest]
          · rw [chain_cons_of_ne hb, chain_cons_of_ne hb, hrest]

theorem modify_eraseP (h : ∀ e ∈ es, p e = true → bucket e = b) :
    (layout bucket size es).modify b (List.eraseP p) = layout bucket size (es.eraseP p) :=
  modify_layout (chain_eraseP h) fun _ hc ↦ chain_eraseP_other h hc

end Select

theorem flatten_map_range_single {f : ℕ → List α} {c : ℕ} (hc : c < size)
    (h : ∀ d, d ≠ c → f d = []) : ((List.range size).map f).flatten = f c := by
  induction size with
  | zero => exact absurd hc (Nat.not_lt_zero c)
  | succ n ih =>
      rw [List.range_succ, List.map_append, List.flatten_append, List.map_singleton,
        List.flatten_singleton]
      by_cases hcn : c = n
      · have hnil : ((List.range n).map f).flatten = [] := by
          apply List.flatten_eq_nil_iff.2
          intro l hl
          obtain ⟨d, hd, rfl⟩ := List.mem_map.1 hl
          exact h d (by have hlt := List.mem_range.1 hd; omega)
        rw [hnil, hcn, List.nil_append]
      · rw [ih (by omega), h n (Ne.symm hcn), List.append_nil]

/-- The entries of a layout, bucket by bucket, that belong to one chain of a finer distribution. -/
theorem chain_flatten_layout {bucket' : α → ℕ} (hlt : ∀ e ∈ es, bucket e < size)
    (hfiner : ∀ e ∈ es, ∀ f ∈ es, bucket' e = bucket' f → bucket e = bucket f) (b : ℕ) :
    chain bucket' (layout bucket size es).flatten b = chain bucket' es b := by
  have hswap : ∀ c, chain bucket' (chain bucket es c) b = chain bucket (chain bucket' es b) c :=
    fun c ↦ List.filter_comm ..
  have hrow : chain bucket' (layout bucket size es).flatten b =
      ((List.range size).map fun c ↦ chain bucket (chain bucket' es b) c).flatten := by
    rw [chain, List.filter_flatten, layout, List.map_map]
    exact congrArg List.flatten (List.map_congr_left fun c _ ↦ hswap c)
  rw [hrow]
  cases hes : chain bucket' es b with
  | nil => simp [chain]
  | cons e fs =>
      -- all entries of the finer chain come from the bucket of its first one
      have hmem : ∀ f ∈ e :: fs, f ∈ es ∧ bucket' f = b := fun f hf ↦ mem_chain.1 (hes ▸ hf)
      have he := hmem e List.mem_cons_self
      have hsame : ∀ f ∈ e :: fs, bucket f = bucket e := fun f hf ↦
        hfiner f (hmem f hf).1 e he.1 ((hmem f hf).2.trans he.2.symm)
      rw [flatten_map_range_single (hlt e he.1) fun d hd ↦ ?_]
      · exact List.filter_eq_self.2 fun f hf ↦ by simpa using hsame f hf
      · exact List.filter_eq_nil_iff.2 fun f hf ↦ by simpa [hsame f hf] using Ne.symm hd

theorem flatten_layout_perm (hlt : ∀ e ∈ es, bucket e < size) :
    (layout bucket size es).flatten ~ es := by
  induction size generalizing es with
  | zero =>
      have hnil : es = [] :=
      List.eq_nil_iff_forall_not_mem.2 fun e he ↦ Nat.not_lt_zero _ (hlt e he)
      rw [hnil]
      exact List.Perm.refl _
  | succ n ih =>
      let below := es.filter fun e ↦ !decide (bucket e = n)
      have hbelow : ∀ e ∈ below, bucket e < n := fun e he ↦ by
        have hmem := List.mem_filter.1 he
        have hle := hlt e hmem.1
        have hne : bucket e ≠ n := by simpa using hmem.2
        omega
      have hsame : layout bucket n es = layout bucket n below := layout_congr fun b hb ↦ by
        rw [chain, chain, List.filter_filter]
        apply List.filter_congr
        intro e _
        by_cases heb : bucket e = b
        · simp [heb, hb.ne]
        · simp [heb]
      have hsplit : (layout bucket (n + 1) es).flatten =
          (layout bucket n below).flatten ++ chain bucket es n := by
        rw [← hsame, layout, List.range_succ, List.map_append, List.flatten_append,
          List.map_singleton, List.flatten_singleton]
        rfl
      rw [hsplit]
      calc
        (layout bucket n below).flatten ++ chain bucket es n ~ below ++ chain bucket es n :=
          (ih hbelow).append_right _
        _ ~ chain bucket es n ++ below := List.perm_append_comm
        _ ~ es := List.filter_append_perm _ es

theorem layout_flatten_layout (hlt : ∀ e ∈ es, bucket e < size) :
    layout bucket size (layout bucket size es).flatten = layout bucket size es :=
  layout_congr fun b _ ↦ chain_flatten_layout hlt (fun _ _ _ _ heq ↦ heq) b

theorem flatten_modify_append_perm {row : List (List α)} {i : ℕ} (hi : i < row.length) (e : α) :
    (row.modify i (· ++ [e])).flatten ~ row.flatten ++ [e] := by
  induction row generalizing i with
  | nil => exact absurd hi (Nat.not_lt_zero i)
  | cons l row ih =>
      cases i with
      | zero =>
          rw [List.modify_zero_cons, List.flatten_cons, List.flatten_cons, List.append_assoc,
            List.append_assoc]
          exact List.Perm.append_left l List.perm_append_comm
      | succ i =>
          rw [List.modify_succ_cons, List.flatten_cons, List.flatten_cons, List.append_assoc]
          exact (ih (Nat.lt_of_succ_lt_succ hi)).append_left l

theorem perm_cons_eraseP {l : List α} {p : α → Bool} {a : α} (h : l.find? p = some a) :
    l ~ a :: l.eraseP p := by
  obtain ⟨hp, as, bs, rfl, has⟩ := List.find?_eq_some_iff_append.1 h
  have hnot : ∀ b ∈ as, ¬ p b = true := by simpa using has
  rw [List.eraseP_append_right _ hnot, List.eraseP_cons_of_pos hp]
  exact List.perm_middle

theorem flatten_modify_eraseP_perm {row : List (List α)} {i : ℕ} {l : List α} {p : α → Bool} {a : α}
    (hl : row[i]? = some l) (h : l.find? p = some a) :
    row.flatten ~ a :: (row.modify i (List.eraseP p)).flatten := by
  induction row generalizing i with
  | nil => simp at hl
  | cons l' row ih =>
      cases i with
      | zero =>
          rw [List.getElem?_cons_zero, Option.some.injEq] at hl
          rw [hl, List.modify_zero_cons, List.flatten_cons, List.flatten_cons, ← List.cons_append]
          exact (perm_cons_eraseP h).append_right _
      | succ i =>
          rw [List.getElem?_cons_succ] at hl
          rw [List.modify_succ_cons, List.flatten_cons, List.flatten_cons]
          exact ((ih hl).append_left l').trans List.perm_middle

theorem length_flatten_modify {row : List (List α)} {i : ℕ} {l : List α} (f : List α → List α)
    (hl : row[i]? = some l) :
    (row.modify i f).flatten.length + l.length = row.flatten.length + (f l).length := by
  induction row generalizing i with
  | nil => simp at hl
  | cons l' row ih =>
      cases i with
      | zero =>
          rw [List.getElem?_cons_zero, Option.some.injEq] at hl
          rw [hl, List.modify_zero_cons, List.flatten_cons, List.flatten_cons, List.length_append,
            List.length_append]
          ac_rfl
      | succ i =>
          rw [List.getElem?_cons_succ] at hl
          rw [List.modify_succ_cons, List.flatten_cons, List.flatten_cons, List.length_append,
            List.length_append, Nat.add_assoc, ih hl, Nat.add_assoc]

end Experimentation.Buckets
