import Mathlib.Data.List.Chain

/-!
# Comments with delimiters of two characters

A text is scanned from left to right, and the scan is either outside or inside of a comment.  Two
neighbours that open a comment outside, or close one inside, are a delimiter and are passed
together; every other character is passed alone.  Which neighbours are delimiters is a parameter, so
that one text can be scanned with delimiters that see different parts of it.
-/

namespace Experimentation.Semantics

/-- The pairs of neighbours that open a comment, and those that close one. -/
structure Delimiters (α : Type) where
  opens : α → α → Bool
  closes : α → α → Bool

namespace Delimiters

variable {α β : Type} (d : Delimiters α)

/-- The pairs of neighbours by which the scan goes inside, or outside if it is inside. -/
def turns (inside : Bool) : α → α → Bool := if inside then d.closes else d.opens

/-- What the scan keeps of a character that it passes alone. -/
def kept (inside : Bool) (a : α) : List α := if inside then [] else [a]

/-- The text without its comments. -/
def strip : Bool → List α → List α
  | _, [] => []
  | inside, [a] => kept inside a
  | inside, a :: b :: l =>
      if d.turns inside a b then strip (!inside) l else kept inside a ++ strip inside (b :: l)

/-- Whether the scan is inside of a comment at the end of the text. -/
def after : Bool → List α → Bool
  | inside, [] => inside
  | inside, [_] => inside
  | inside, a :: b :: l =>
      if d.turns inside a b then after (!inside) l else after inside (b :: l)

/-- The first characters of the delimiters. -/
def firsts : Bool → List α → List α
  | _, [] => []
  | _, [_] => []
  | inside, a :: b :: l =>
      if d.turns inside a b then a :: firsts (!inside) l else firsts inside (b :: l)

section Scan

variable {inside : Bool} {a b : α} {l : List α}

theorem strip_of_turns (h : d.turns inside a b = true) :
    d.strip inside (a :: b :: l) = d.strip (!inside) l := by
  rw [strip, if_pos h]

theorem strip_of_not_turns (h : d.turns inside a b = false) :
    d.strip inside (a :: b :: l) = kept inside a ++ d.strip inside (b :: l) := by
  rw [strip, if_neg (ne_true_of_eq_false h)]

theorem after_of_turns (h : d.turns inside a b = true) :
    d.after inside (a :: b :: l) = d.after (!inside) l := by
  rw [after, if_pos h]

theorem after_of_not_turns (h : d.turns inside a b = false) :
    d.after inside (a :: b :: l) = d.after inside (b :: l) := by
  rw [after, if_neg (ne_true_of_eq_false h)]

theorem firsts_of_turns (h : d.turns inside a b = true) :
    d.firsts inside (a :: b :: l) = a :: d.firsts (!inside) l := by
  rw [firsts, if_pos h]

theorem firsts_of_not_turns (h : d.turns inside a b = false) :
    d.firsts inside (a :: b :: l) = d.firsts inside (b :: l) := by
  rw [firsts, if_neg (ne_true_of_eq_false h)]

end Scan

/-- A text that ends with no first half of a delimiter is scanned apart from the rest. -/
theorem strip_append {inside : Bool} {l : List α}
    (hlast : ∀ a ∈ l.getLast?, ∀ inside b, d.turns inside a b = false) (r : List α) :
    d.strip inside (l ++ r) = d.strip inside l ++ d.strip (d.after inside l) r := by
  induction inside, l using strip.induct d with
  | case1 inside => rfl
  | case2 inside a =>
      cases r with
      | nil => exact (List.append_nil _).symm
      | cons b r => exact d.strip_of_not_turns (hlast a rfl inside b)
  | case3 inside a b l hturns ih =>
      rw [List.cons_append, List.cons_append, d.strip_of_turns hturns, d.strip_of_turns hturns,
        d.after_of_turns hturns]
      refine ih fun c hc ↦ hlast c ?_
      cases l with
      | nil => cases hc
      | cons c' l => exact hc
  | case4 inside a b l hturns ih =>
      have hstay := eq_false_of_ne_true hturns
      rw [List.cons_append, List.cons_append, d.strip_of_not_turns hstay,
        d.strip_of_not_turns hstay, d.after_of_not_turns hstay, List.append_assoc]
      exact congrArg (kept inside a ++ ·) (ih hlast)

/-- What holds of all neighbours that are a delimiter holds of the delimiters of a text. -/
theorem forall_firsts {P : α → Prop} {inside : Bool} {l : List α}
    (h : l.IsChain fun a b ↦ ∀ inside, d.turns inside a b = true → P a) :
    ∀ a ∈ d.firsts inside l, P a := by
  induction inside, l using strip.induct d with
  | case1 inside => exact fun a ha ↦ absurd ha List.not_mem_nil
  | case2 inside a => exact fun a ha ↦ absurd ha List.not_mem_nil
  | case3 inside a b l hturns ih =>
      obtain ⟨hhead, htail⟩ := List.isChain_cons_cons.1 h
      rw [d.firsts_of_turns hturns]
      exact List.forall_mem_cons.2 ⟨hhead inside hturns, ih htail.tail⟩
  | case4 inside a b l hturns ih =>
      rw [d.firsts_of_not_turns (eq_false_of_ne_true hturns)]
      exact ih (List.isChain_cons_cons.1 h).2

/-- The delimiters that a text has under a reading of its characters. -/
def comap (f : β → α) : Delimiters β where
  opens a b := d.opens (f a) (f b)
  closes a b := d.closes (f a) (f b)

theorem comap_turns (f : β → α) (inside : Bool) (a b : β) :
    (d.comap f).turns inside a b = d.turns inside (f a) (f b) := by
  cases inside with
  | false => rfl
  | true => rfl

theorem map_kept (f : β → α) (inside : Bool) (b : β) : (kept inside b).map f = kept inside (f b) := by
  cases inside with
  | false => rfl
  | true => rfl

theorem map_strip_comap (f : β → α) (inside : Bool) (l : List β) :
    ((d.comap f).strip inside l).map f = d.strip inside (l.map f) := by
  induction inside, l using strip.induct (d.comap f) with
  | case1 inside => rfl
  | case2 inside a => exact map_kept f inside a
  | case3 inside a b l hturns ih =>
      rw [(d.comap f).strip_of_turns hturns, ih]
      exact (d.strip_of_turns ((d.comap_turns f inside a b).symm.trans hturns)).symm
  | case4 inside a b l hturns ih =>
      have hstay := eq_false_of_ne_true hturns
      rw [(d.comap f).strip_of_not_turns hstay, List.map_append, map_kept, ih]
      exact (d.strip_of_not_turns ((d.comap_turns f inside a b).symm.trans hstay)).symm

/-- Two kinds of delimiters keep the same of a text if they agree on its neighbours, given of
delimiters of the first kind what holds of those of the text. -/
theorem strip_congr {d d' : Delimiters α} {P : α → Prop} {inside : Bool} {l : List α}
    (hsame : l.IsChain fun a b ↦ ∀ inside, (d.turns inside a b = true → P a) →
      d'.turns inside a b = d.turns inside a b)
    (hfirsts : ∀ a ∈ d.firsts inside l, P a) : d'.strip inside l = d.strip inside l := by
  induction inside, l using strip.induct d with
  | case1 inside => rfl
  | case2 inside a => rfl
  | case3 inside a b l hturns ih =>
      obtain ⟨hhead, htail⟩ := List.isChain_cons_cons.1 hsame
      rw [d.firsts_of_turns hturns] at hfirsts
      have hturns' := (hhead inside fun _ ↦ hfirsts a List.mem_cons_self).trans hturns
      rw [d.strip_of_turns hturns, d'.strip_of_turns hturns']
      exact ih htail.tail fun c hc ↦ hfirsts c (List.mem_cons_of_mem a hc)
  | case4 inside a b l hturns ih =>
      obtain ⟨hhead, htail⟩ := List.isChain_cons_cons.1 hsame
      have hstay := eq_false_of_ne_true hturns
      rw [d.firsts_of_not_turns hstay] at hfirsts
      have hstay' := (hhead inside fun h ↦ absurd h hturns).trans hstay
      rw [d.strip_of_not_turns hstay, d'.strip_of_not_turns hstay', ih htail hfirsts]

end Delimiters

end Experimentation.Semantics
