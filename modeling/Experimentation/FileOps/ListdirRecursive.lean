import Mathlib.Data.List.Forall2
import Experimentation.Semantics.Lines

/-!
# `listdir_recursive`

The program that lists a directory and, in front of the entries after them, its subdirectories.  The
depth of a call is not an argument: it is the static variable `dirdepth`, which the caller
increments before a nested call, and which the callee decrements where it has come to the end of its
directory.  A call from `main` ends there, too, and a call that fails does not.
-/

namespace Experimentation.FileOps

open Semantics

/-- The entries of a directory in the order of `readdir`.  A directory among them is one that can be
listed, or a blocked one: there is no memory for its path, or `opendir` fails. -/
inductive Entries
  | nil
  | other (name : Text) (rest : Entries)
  | blocked (name : Text) (rest : Entries)
  | dir (name : Text) (contents rest : Entries)

/-- What a call prints, `dirdepth` after it, and whether it returns `-1`. -/
structure Outcome where
  out : Text
  dirdepth : ℕ
  failed : Bool
deriving DecidableEq

/-- Something is printed first. -/
def Outcome.after (r : Outcome) (t : Text) : Outcome := { r with out := t ++ r.out }

/-- `if (listdir(newpath) == -1) return -1;`, and what follows. -/
def Outcome.andThen (r : Outcome) (next : ℕ → Outcome) : Outcome :=
  if r.failed then r else (next r.dirdepth).after r.out

/-- `dirdepth++`. -/
def deeper (dirdepth : ℕ) : ℕ := (dirdepth + 1) % 2 ^ 32

/-- `dirdepth--`. -/
def shallower (dirdepth : ℕ) : ℕ := (dirdepth + (2 ^ 32 - 1)) % 2 ^ 32

/-- The loop that indents an entry. -/
def indent (dirdepth : ℕ) : Text := (List.range dirdepth).flatMap fun _ ↦ ascii "  "

/-- How a directory is printed. -/
def brackets (name : Text) : Text := ascii "[" ++ name ++ ascii "]"

/-- A directory that is listed itself. -/
def isListed (name : Text) : Bool := name != ascii "." && name != ascii ".."

/-- The end of `listdir`, which a call that has failed does not reach. -/
def leave (r : Outcome) : Outcome :=
  if r.failed then r else { r with dirdepth := shallower r.dirdepth }

/-- The loop of `listdir`. -/
def listEntries : Entries → (dirdepth : ℕ) → Outcome
  | .nil, dirdepth => ⟨[], dirdepth, false⟩
  | .other name rest, dirdepth =>
      (listEntries rest dirdepth).after (indent dirdepth ++ name ++ [newline])
  | .blocked name rest, dirdepth =>
      Outcome.after
        -- `dirdepth` has been incremented when `malloc` or the nested `opendir` fails
        (if isListed name then ⟨[], deeper dirdepth, true⟩ else listEntries rest dirdepth)
        (indent dirdepth ++ brackets name ++ [newline])
  | .dir name contents rest, dirdepth =>
      Outcome.after
        (if isListed name then
          (leave (listEntries contents (deeper dirdepth))).andThen (listEntries rest)
        else
          listEntries rest dirdepth)
        (indent dirdepth ++ brackets name ++ [newline])

/-- `listdir`, for a directory that may be one that `opendir` fails on. -/
def listdir : Option Entries → (dirdepth : ℕ) → Outcome
  | none, dirdepth => ⟨[], dirdepth, true⟩
  | some entries, dirdepth => leave (listEntries entries dirdepth)

/-- A sequence of calls in one process: `dirdepth` before each of them, and what it does. -/
def runCalls : (dirdepth : ℕ) → List (Option Entries) → List (ℕ × Outcome)
  | _, [] => []
  | dirdepth, path :: paths =>
      (dirdepth, listdir path dirdepth) :: runCalls (listdir path dirdepth).dirdepth paths

/-! ## Traversals -/

/-- A step of a traversal: an entry with its level, or a directory that cannot be listed. -/
inductive Visit
  | entry (level : ℕ) (label : Text)
  | failure (level : ℕ)

/-- The traversal of a directory at a level, each subdirectory right after its entry. -/
def preorder (level : ℕ) : Entries → List Visit
  | .nil => []
  | .other name rest => .entry level name :: preorder level rest
  | .blocked name rest =>
      .entry level (brackets name) ::
        ((if isListed name then [.failure (level + 1)] else []) ++ preorder level rest)
  | .dir name contents rest =>
      .entry level (brackets name) ::
        ((if isListed name then preorder (level + 1) contents else []) ++ preorder level rest)

/-- The traversal of a call. -/
def traversal : Option Entries → List Visit
  | none => [.failure 0]
  | some entries => preorder 0 entries

/-- The entries of a traversal in front of the first failure, with their levels. -/
def listed : List Visit → List (ℕ × Text)
  | .entry level label :: visits => (level, label) :: listed visits
  | _ => []

/-- The level of the first failure. -/
def firstFailure : List Visit → Option ℕ
  | [] => none
  | .entry _ _ :: visits => firstFailure visits
  | .failure level :: _ => some level

/-- A line that is indented by so many levels. -/
def line (levels : ℕ) (label : Text) : Text := indent levels ++ label ++ [newline]

/-- What a call is for: `dirdepth` is what it was, and each entry up to the first failure is printed
in the order of the traversal, with two blanks for each level below the directory of the call. -/
structure KeepsDepth (path : Option Entries) (dirdepth : ℕ) (r : Outcome) : Prop where
  depth : r.dirdepth = dirdepth
  out : r.out = (listed (traversal path)).flatMap fun entry ↦ line entry.1 entry.2

section Calls

variable {start stop level : ℕ} {visits : List Visit}

/-- The outcome of a traversal, if `dirdepth` counts the levels from `start` upwards and is at the
level `stop` afterwards. -/
def outcome (start stop : ℕ) (visits : List Visit) : Outcome where
  out := (listed visits).flatMap fun entry ↦ line ((start + entry.1) % 2 ^ 32) entry.2
  dirdepth := (start + (firstFailure visits).getD stop) % 2 ^ 32
  failed := (firstFailure visits).isSome

theorem outcome_entry (label : Text) : outcome start stop (.entry level label :: visits) =
    (outcome start stop visits).after (line ((start + level) % 2 ^ 32) label) := rfl

theorem outcome_append (stop' : ℕ) (visits visits' : List Visit) :
    outcome start stop (visits ++ visits') =
      (outcome start stop' visits).andThen fun _ ↦ outcome start stop visits' := by
  induction visits with
  | nil => rfl
  | cons visit visits ih =>
      cases visit with
      | failure level => rfl
      | entry level label =>
          rw [List.cons_append, outcome_entry, outcome_entry, ih]
          unfold Outcome.andThen Outcome.after
          split_ifs with hfailed
          · rfl
          · rw [List.append_assoc]

theorem deeper_mod (depth : ℕ) : deeper (depth % 2 ^ 32) = (depth + 1) % 2 ^ 32 := by
  unfold deeper
  omega

theorem shallower_mod (depth : ℕ) : shallower ((depth + 1) % 2 ^ 32) = depth % 2 ^ 32 := by
  unfold shallower
  omega

theorem leave_outcome (start level : ℕ) (visits : List Visit) :
    leave (outcome start (level + 1) visits) = outcome start level visits := by
  unfold leave outcome
  cases firstFailure visits with
  | none =>
      simp only [Option.isSome_none, Bool.false_eq_true, if_false, Option.getD_none]
      rw [← Nat.add_assoc, shallower_mod]
  | some level => rfl

/-- The loop of a call on a directory at a level does what the traversal says.  The induction is on
the entries; nested calls are at the next level. -/
theorem listEntries_eq (start : ℕ) (entries : Entries) (level : ℕ) :
    listEntries entries ((start + level) % 2 ^ 32) =
      outcome start level (preorder level entries) := by
  induction entries generalizing level with
  | nil => rfl
  | other name rest ih =>
      rw [listEntries, preorder, outcome_entry, ih, line]
  | blocked name rest ih =>
      rw [listEntries, preorder, outcome_entry, line, ih, deeper_mod, Nat.add_assoc]
      by_cases hlisted : isListed name = true
      · rw [if_pos hlisted, if_pos hlisted]
        rfl
      · rw [if_neg hlisted, if_neg hlisted, List.nil_append]
  | dir name contents rest ihContents ih =>
      rw [listEntries, preorder, outcome_entry, line, ih, deeper_mod, Nat.add_assoc]
      by_cases hlisted : isListed name = true
      · rw [if_pos hlisted, if_pos hlisted, ihContents, leave_outcome, outcome_append level,
          Outcome.andThen, Outcome.andThen]
        split_ifs with hfailed
        · rfl
        · have hdepth : (outcome start level (preorder (level + 1) contents)).dirdepth =
              (start + level) % 2 ^ 32 := by
            have hnone : firstFailure (preorder (level + 1) contents) = none :=
              Option.not_isSome_iff_eq_none.1 hfailed
            rw [outcome, hnone, Option.getD_none]
          rw [hdepth, ih]
      · rw [if_neg hlisted, if_neg hlisted, List.nil_append]

theorem listdir_eq (path : Option Entries) {dirdepth : ℕ} (h : dirdepth < 2 ^ 32) :
    listdir path dirdepth = leave (outcome dirdepth 0 (traversal path)) := by
  have hmod : (dirdepth + 0) % 2 ^ 32 = dirdepth := Nat.mod_eq_of_lt h
  cases path with
  | none =>
      have hfailure : outcome dirdepth 0 [.failure 0] = ⟨[], (dirdepth + 0) % 2 ^ 32, true⟩ := rfl
      rw [listdir, traversal, hfailure, hmod]
      rfl
  | some entries =>
      have hloop := listEntries_eq dirdepth entries 0
      rw [hmod] at hloop
      rw [listdir, hloop, traversal]

end Calls

/-! ## The depth -/

/-- The directories for which a call from `main` keeps the depth: one of them cannot be listed, the
first such is at a level at which `dirdepth` has come round to where it was, as it is at the level
of the call itself, and no entry in front of it is deeper than `dirdepth` can count. -/
def ComesRound (path : Option Entries) : Prop :=
  (∃ level, firstFailure (traversal path) = some level ∧ 2 ^ 32 ∣ level) ∧
    ∀ entry ∈ listed (traversal path), entry.1 < 2 ^ 32

theorem indent_eq (levels : ℕ) : indent levels = List.replicate (2 * levels) blank := by
  unfold indent
  induction levels with
  | zero => rfl
  | succ levels ih =>
      rw [List.range_succ, List.flatMap_append, ih, Nat.mul_succ, List.replicate_add]
      rfl

theorem line_sublist {levels levels' : ℕ} (h : levels ≤ levels') (label : Text) :
    (line levels label).Sublist (line levels' label) := by
  rw [line, line, indent_eq, indent_eq]
  apply List.Sublist.append_right
  apply List.Sublist.append_right
  exact List.replicate_sublist_replicate blank |>.2 (Nat.mul_le_mul_left 2 h)

theorem line_inj {levels levels' : ℕ} {label : Text} :
    line levels label = line levels' label ↔ levels = levels' := by
  constructor
  · intro h
    have hlength := congrArg List.length h
    simp only [line, indent_eq, List.length_append, List.length_replicate] at hlength
    omega
  · intro h
    rw [h]

/-- Counting the levels modulo the size of `dirdepth` shows, unless there are few of them. -/
theorem lines_eq_iff (entries : List (ℕ × Text)) :
    (entries.flatMap fun entry ↦ line (entry.1 % 2 ^ 32) entry.2) =
        (entries.flatMap fun entry ↦ line entry.1 entry.2) ↔
      ∀ entry ∈ entries, entry.1 < 2 ^ 32 := by
  constructor
  · intro h entry hentry
    have hline := forall_eq_of_flatMap_eq
      (fun entry _ ↦ line_sublist (Nat.mod_le entry.1 (2 ^ 32)) entry.2) h entry hentry
    rw [← line_inj.1 hline]
    exact Nat.mod_lt _ (by decide)
  · intro h
    have hline : ∀ entry ∈ entries,
        line (entry.1 % 2 ^ 32) entry.2 = line entry.1 entry.2 := by
      intro entry hentry
      rw [Nat.mod_eq_of_lt (h entry hentry)]
    rw [List.flatMap_congr hline]

theorem listdir_keeps_iff (path : Option Entries) :
    KeepsDepth path 0 (listdir path 0) ↔ ComesRound path := by
  have hcall : listdir path 0 = leave (outcome 0 0 (traversal path)) := listdir_eq path (by decide)
  have hout : (listdir path 0).out =
      (listed (traversal path)).flatMap fun entry ↦ line (entry.1 % 2 ^ 32) entry.2 := by
    rw [hcall, leave]
    split_ifs <;> simp [outcome]
  have hdepth : (listdir path 0).dirdepth = 0 ↔
      ∃ level, firstFailure (traversal path) = some level ∧ 2 ^ 32 ∣ level := by
    rw [hcall, leave]
    cases hfailure : firstFailure (traversal path) with
    | none => simp [outcome, hfailure, shallower]
    | some level =>
        simp only [outcome, hfailure, Option.isSome_some, if_true, Option.getD_some, Nat.zero_add,
          Option.some.injEq, exists_eq_left']
        exact (Nat.dvd_iff_mod_eq_zero).symm
  rw [ComesRound, ← hdepth, ← lines_eq_iff, ← hout]
  exact ⟨fun h ↦ ⟨h.depth, h.out⟩, fun h ↦ ⟨h.1, h.2⟩⟩

/-- The calls of a process keep the depth just when it comes round in each of them.  Until one of
them does not, each call starts from the depth zero. -/
theorem runCalls_keepDepth_iff (paths : List (Option Entries)) :
    List.Forall₂ (fun path call ↦ KeepsDepth path call.1 call.2) paths (runCalls 0 paths) ↔
      ∀ path ∈ paths, ComesRound path := by
  induction paths with
  | nil => simp [runCalls]
  | cons path paths ih =>
      rw [runCalls, List.forall₂_cons, listdir_keeps_iff, List.forall_mem_cons]
      apply and_congr_right
      intro hround
      rw [((listdir_keeps_iff path).2 hround).depth, ih]

/-- A directory with nothing in it but itself and its parent, listed once. -/
theorem empty_not_keepsDepth :
    runCalls 0 [some (.dir (ascii ".") .nil (.dir (ascii "..") .nil .nil))] =
        [(0, ⟨ascii "[.]" ++ [newline] ++ ascii "[..]" ++ [newline], 2 ^ 32 - 1, false⟩)] ∧
      ¬ List.Forall₂ (fun path call ↦ KeepsDepth path call.1 call.2)
        [some (.dir (ascii ".") .nil (.dir (ascii "..") .nil .nil))]
        (runCalls 0 [some (.dir (ascii ".") .nil (.dir (ascii "..") .nil .nil))]) := by
  have hrun : runCalls 0 [some (.dir (ascii ".") .nil (.dir (ascii "..") .nil .nil))] =
      [(0, ⟨ascii "[.]" ++ [newline] ++ ascii "[..]" ++ [newline], 2 ^ 32 - 1, false⟩)] := by
    decide
  refine ⟨hrun, fun h ↦ ?_⟩
  rw [hrun, List.forall₂_cons] at h
  exact absurd h.1.depth (by decide)

end Experimentation.FileOps
