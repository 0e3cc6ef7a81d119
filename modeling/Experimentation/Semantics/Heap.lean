import Experimentation.Semantics.Exec

/-!
# Blocks that are obtained and freed

A heap is the record of what a program has asked `malloc` for: the identities of the blocks that it
has obtained, those that it has freed, and how long they are.  Identities are never used again, so a
block is live while it has been obtained and not been freed, and freeing anything else is undefined.
What the blocks hold is left to the program.
-/

namespace Experimentation.Semantics

/-- The identity of a block, which is what a pointer to its start is. -/
abbrev BlockId := ℕ

/-- What has been obtained and freed so far, the latest first. -/
structure Heap where
  requests : ℕ
  obtained : List BlockId
  freed : List BlockId
  size : BlockId → ℕ

namespace Heap

/-- The block may be used and freed. -/
def Live (h : Heap) (b : BlockId) : Prop := b ∈ h.obtained ∧ b ∉ h.freed

instance (h : Heap) (b : BlockId) : Decidable (h.Live b) := inferInstanceAs (Decidable (_ ∧ _))

/-- The block is live and has at least `n` bytes. -/
def Holds (h : Heap) (b : BlockId) (n : ℕ) : Prop := h.Live b ∧ n ≤ h.size b

instance (h : Heap) (b : BlockId) (n : ℕ) : Decidable (h.Holds b n) :=
  inferInstanceAs (Decidable (_ ∧ _))

/-- The heap after some blocks have been freed, the last of them first. -/
def release (h : Heap) (bs : List BlockId) : Heap := { h with freed := bs ++ h.freed }

/-- `free`, which leaves the null pointer alone. -/
def free (h : Heap) : Option BlockId → Exec Heap
  | none => .ok h
  | some b => if h.Live b then .ok (h.release [b]) else .error .badPointer

end Heap

/-- What `malloc` answers, which may depend on all that happened before.  A block that it returns is
a new one. -/
structure Malloc where
  answer : Heap → ℕ → Option BlockId
  fresh : ∀ {h n b}, answer h n = some b → b ∉ h.obtained ∧ b ∉ h.freed

namespace Heap

variable (h : Heap) {b c : BlockId} {n : ℕ}

/-- `malloc(n)`. -/
def malloc (answer : Malloc) (n : ℕ) : Option BlockId × Heap :=
  match answer.answer h n with
  | none => (none, { h with requests := h.requests + 1 })
  | some b => (some b, { h with
      requests := h.requests + 1
      obtained := b :: h.obtained
      size := Function.update h.size b n })

/-- The heap has one more block, `b`, and is otherwise as it was. -/
structure Obtains (h : Heap) (b : BlockId) (n : ℕ) (h' : Heap) : Prop where
  new : b ∉ h.obtained
  requests : h'.requests = h.requests + 1
  obtained : h'.obtained = b :: h.obtained
  freed : h'.freed = h.freed
  holds : h'.Holds b n
  size : ∀ c ≠ b, h'.size c = h.size c

theorem malloc_cases (answer : Malloc) (n : ℕ) :
    h.malloc answer n = (none, { h with requests := h.requests + 1 }) ∨
    ∃ b h', h.malloc answer n = (some b, h') ∧ h.Obtains b n h' := by
  unfold malloc
  cases hanswer : answer.answer h n with
  | none => exact .inl rfl
  | some b =>
      obtain ⟨hnew, hfreed⟩ := answer.fresh hanswer
      refine .inr ⟨b, _, rfl, hnew, rfl, rfl, rfl, ⟨⟨List.mem_cons_self, hfreed⟩, ?_⟩,
        fun c hc ↦ ?_⟩
      · exact (Function.update_self b n h.size).ge
      · exact Function.update_of_ne hc n h.size

variable {h}

theorem free_eq (hb : h.Live b) : h.free (some b) = .ok (h.release [b]) := if_pos hb

@[simp]
theorem release_nil : h.release [] = h := rfl

theorem release_release (bs cs : List BlockId) :
    (h.release bs).release cs = h.release (cs ++ bs) := by
  simp only [release, List.append_assoc]

theorem Live.release (hb : h.Live b) {bs : List BlockId} (hbs : b ∉ bs) : (h.release bs).Live b :=
  ⟨hb.1, fun hmem ↦ (List.mem_append.1 hmem).elim hbs hb.2⟩

theorem Holds.release (hb : h.Holds b n) {bs : List BlockId} (hbs : b ∉ bs) :
    (h.release bs).Holds b n :=
  ⟨hb.1.release hbs, hb.2⟩

theorem Holds.of_obtains {h' : Heap} {m : ℕ} (hc : h.Holds c m) (hnew : h.Obtains b n h') :
    h'.Holds c m := by
  have hne : c ≠ b := fun heq ↦ hnew.new (heq ▸ hc.1.1)
  refine ⟨⟨?_, ?_⟩, ?_⟩
  · rw [hnew.obtained]
    exact List.mem_cons_of_mem b hc.1.1
  · rw [hnew.freed]
    exact hc.1.2
  · rw [hnew.size c hne]
    exact hc.2

end Heap

end Experimentation.Semantics
