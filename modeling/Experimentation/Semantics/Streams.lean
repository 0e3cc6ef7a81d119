import Mathlib.Data.List.Flatten
import Mathlib.Logic.Function.Basic
import Experimentation.Semantics.Exec

/-!
# Streams of bytes

What a program has written so far is a text for each file that it may write to.  The standard output
is one of the files, so a pointer to a file may well point to it.
-/

open scoped List

namespace Experimentation.Semantics

/-- A sequence of characters. -/
abbrev Text := List UInt8

/-- The characters of a literal. -/
def ascii (s : String) : Text := s.toList.map fun c ↦ UInt8.ofNat c.toNat

/-- The conversion `%u`. -/
def decimal (n : UInt32) : Text := ascii (toString n.toNat)

theorem decimal_eq (n : UInt32) :
    decimal n = (Nat.toDigits 10 n.toNat).map fun c ↦ UInt8.ofNat c.toNat := by
  rw [decimal, ascii, Nat.toString_eq_repr, Nat.toList_repr]

theorem toNat_of_isDigit {c : Char} (h : c.isDigit) :
    (UInt8.ofNat c.toNat).toNat = c.toNat ∧ 48 ≤ c.toNat ∧ c.toNat ≤ 57 := by
  rw [Char.isDigit, Bool.and_eq_true, decide_eq_true_eq, decide_eq_true_eq] at h
  have hlow : 48 ≤ c.toNat := UInt32.le_iff_toNat_le.1 h.1
  have hhigh : c.toNat ≤ 57 := UInt32.le_iff_toNat_le.1 h.2
  refine ⟨?_, hlow, hhigh⟩
  rw [UInt8.toNat_ofNat']
  omega

theorem mem_decimal {n : UInt32} {c : UInt8} (h : c ∈ decimal n) : 48 ≤ c.toNat ∧ c.toNat ≤ 57 := by
  rw [decimal_eq] at h
  obtain ⟨d, hd, rfl⟩ := List.mem_map.1 h
  obtain ⟨heq, hbounds⟩ := toNat_of_isDigit (Nat.isDigit_of_mem_toDigits (by decide) (by decide) hd)
  rwa [heq]

theorem decimal_injective : Function.Injective decimal := by
  have hback (n : UInt32) :
      (decimal n).map (fun c ↦ Char.ofNat c.toNat) = Nat.toDigits 10 n.toNat := by
    rw [decimal_eq, List.map_map]
    refine (List.map_congr_left fun c hc ↦ ?_).trans (List.map_id _)
    have hdigit := Nat.isDigit_of_mem_toDigits (by decide) (by decide) hc
    rw [Function.comp_apply, (toNat_of_isDigit hdigit).1, Char.ofNat_toNat, id]
  intro m n heq
  have hvalue := congrArg (fun t ↦ Nat.ofDigitChars 10 (t.map fun c ↦ Char.ofNat c.toNat) 0) heq
  simp only [hback, Nat.ofDigitChars_ten_toDigits] at hvalue
  exact UInt32.toNat_inj.1 hvalue

/-- The conversion `%s` of an array, which is read up to its first NUL byte. -/
def cString (array : List UInt8) : Exec Text :=
  if 0 ∈ array then .ok (array.takeWhile (· ≠ 0)) else .error .outOfBounds

/-- `FILE`: the standard output, or another file. -/
inductive File
  | stdout
  | other (id : ℕ)
deriving DecidableEq, Repr

/-- What was written to each file. -/
abbrev Output := File → Text

namespace Output

variable (out : Output) {fp fp' : File} (t t' : Text)

/-- Write to the end of a file. -/
def write (fp : File) : Output := Function.update out fp (out fp ++ t)

@[simp]
theorem write_self : out.write t fp fp = out fp ++ t := Function.update_self ..

theorem write_of_ne (h : fp' ≠ fp) : out.write t fp fp' = out fp' := Function.update_of_ne h ..

@[simp]
theorem write_nil : out.write [] fp = out := by
  rw [write, List.append_nil, Function.update_eq_self]

theorem write_write : (out.write t fp).write t' fp = out.write (t ++ t') fp := by
  rw [write, write_self, write, write, Function.update_idem, List.append_assoc]

end Output

/-! ## Texts made of pieces -/

section Pieces

variable {α β : Type} {f g : α → List β} {as : List α}

theorem exists_map_perm {f : α → β} {bs : List β} (h : as.map f ~ bs) :
    ∃ as', as' ~ as ∧ as'.map f = bs := by
  generalize hbs : as.map f = cs at h
  induction h generalizing as with
  | nil => exact ⟨as, .refl as, hbs⟩
  | cons b _ ih =>
      obtain ⟨a, as, rfl, rfl, rfl⟩ := List.map_eq_cons_iff.1 hbs
      obtain ⟨as', hperm, rfl⟩ := ih rfl
      exact ⟨a :: as', hperm.cons a, rfl⟩
  | swap b b' bs =>
      obtain ⟨a', rest, rfl, rfl, hrest⟩ := List.map_eq_cons_iff.1 hbs
      obtain ⟨a, as, rfl, rfl, rfl⟩ := List.map_eq_cons_iff.1 hrest
      exact ⟨a :: a' :: as, .swap a' a as, rfl⟩
  | trans _ _ ih ih' =>
      obtain ⟨as', hperm, hbs'⟩ := ih hbs
      obtain ⟨as'', hperm', hbs''⟩ := ih' hbs'
      exact ⟨as'', hperm'.trans hperm, hbs''⟩

theorem forall_eq_of_flatMap_eq (hsub : ∀ a ∈ as, (f a).Sublist (g a))
    (heq : as.flatMap f = as.flatMap g) : ∀ a ∈ as, f a = g a := by
  induction as with
  | nil => exact fun a ha ↦ absurd ha List.not_mem_nil
  | cons a as ih =>
      have hrest : ∀ a' ∈ as, (f a').Sublist (g a') := fun a' ha' ↦
        hsub a' (List.mem_cons_of_mem a ha')
      have hle := (hsub a List.mem_cons_self).length_le
      have hle' := (List.Sublist.flatMap_right as hrest).length_le
      have hlength := congrArg List.length heq
      rw [List.flatMap_cons, List.flatMap_cons, List.length_append, List.length_append] at hlength
      have hfirst : f a = g a := (hsub a List.mem_cons_self).eq_of_length (by omega)
      rw [List.flatMap_cons, List.flatMap_cons, hfirst, List.append_cancel_left_eq] at heq
      exact List.forall_mem_cons.2 ⟨hfirst, ih hrest heq⟩

end Pieces

end Experimentation.Semantics
