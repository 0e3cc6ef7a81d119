import Experimentation.StateMachine.Threads

/-!
# Events between producers and the consumer

Each queue holds the nodes of the events that were queued for it and not yet removed, in the order
of the insertions, and the consumer hands over the first one before it removes it.  This survives
every step but one: an insertion between the two assignments with which the consumer removes the
only node of a queue.  That insertion hangs the new node onto the removed one, and the queue is
empty all the same.
-/

namespace Experimentation.StateMachine

open Semantics TailQueue

variable {D : Type}

/-! ## The place of the consumer -/

namespace Consumer

/-- The queue that is being served, and the node whose event is or was handed over. -/
def current : Consumer → Option (ℕ × ℕ)
  | process i pnode => some (i, pnode)
  | reread i pnode => some (i, pnode)
  | dropFirst i (some pnode) => some (i, pnode)
  | _ => none

/-- The node whose event was handed over and which is still on its queue. -/
def served : Consumer → Option ℕ
  | reread _ pnode => some pnode
  | dropFirst _ pnode => pnode
  | _ => none

/-- The queue that the consumer is at. -/
def index : Consumer → Option ℕ
  | scan i => some i
  | process i _ => some i
  | reread i _ => some i
  | dropFirst i _ => some i
  | resetLast i _ => some i
  | free _ => none

/-- After the first node was read again, there is one. -/
def NotNull : Consumer → Prop
  | dropFirst _ pnode => pnode ≠ none
  | resetLast _ pnode => pnode ≠ none
  | free pnode => pnode ≠ none
  | _ => True

/-- The node that was taken off its queue and is still allocated. -/
def removed : Consumer → Option ℕ
  | resetLast _ pnode => pnode
  | free pnode => pnode
  | _ => none

end Consumer

/-- No node is twice on a queue, or on two queues, and all of them are in memory. -/
structure Apart (nodes : ℕ → Option (QueuedEvent D)) (content : ℕ → List ℕ) : Prop where
  nodup : ∀ q, (content q).Nodup
  disjoint : ∀ q q' pnode, pnode ∈ content q → pnode ∈ content q' → q = q'
  allocated : ∀ q, ∀ pnode ∈ content q, nodes pnode ≠ none

/-- The queues hold the nodes of the given lists. -/
structure Linked (links : Links ℕ ℕ) (nodes : ℕ → Option (QueuedEvent D)) (content : ℕ → List ℕ)
    (c : Consumer) : Prop extends Apart nodes content where
  holds : ∀ q, c.resetting ≠ some q → links.Holds q (content q)
  window : ∀ q, c.resetting = some q → content q = [] ∧ links.first q = none ∧
    ∃ pnode, links.last q = .next pnode ∧ c.removed = some pnode
  current : ∀ i pnode, c.current = some (i, pnode) → (content i).head? = some pnode
  notNull : c.NotNull
  removed : ∀ pnode, c.removed = some pnode → nodes pnode ≠ none ∧ ∀ q, pnode ∉ content q

section Content

variable {nodes : ℕ → Option (QueuedEvent D)} {content : ℕ → List ℕ} {q q' i pnode p : ℕ}
  {rest : List ℕ}

theorem mem_update_append : p ∈ Function.update content q (content q ++ [pnode]) q' ↔
    p ∈ content q' ∨ q' = q ∧ p = pnode := by
  by_cases hq : q' = q
  · subst hq
    rw [Function.update_self, List.mem_append, List.mem_singleton, eq_self, true_and]
  · rw [Function.update_of_ne hq]
    exact (or_iff_left fun h ↦ hq h.1).symm

namespace Apart

variable (h : Apart nodes content)
include h

theorem not_mem (hnew : nodes pnode = none) (q : ℕ) : pnode ∉ content q :=
  fun hmem ↦ h.allocated q pnode hmem hnew

/-- A new node comes to the end of a queue. -/
theorem append (hnew : nodes pnode = none) (e : QueuedEvent D) :
    Apart (Function.update nodes pnode (some e))
      (Function.update content q (content q ++ [pnode])) where
  nodup q' := by
    by_cases hq : q' = q
    · subst hq
      rw [Function.update_self]
      exact (h.nodup q').append (List.nodup_singleton pnode)
        (List.disjoint_singleton.2 (h.not_mem hnew q'))
    · rw [Function.update_of_ne hq]
      exact h.nodup q'
  disjoint q₁ q₂ p h₁ h₂ := by
    rcases mem_update_append.1 h₁ with hold₁ | ⟨hq₁, hp₁⟩
    · rcases mem_update_append.1 h₂ with hold₂ | ⟨_, hp₂⟩
      · exact h.disjoint q₁ q₂ p hold₁ hold₂
      · exact absurd hold₁ (hp₂ ▸ h.not_mem hnew q₁)
    · rcases mem_update_append.1 h₂ with hold₂ | ⟨hq₂, _⟩
      · exact absurd hold₂ (hp₁ ▸ h.not_mem hnew q₂)
      · exact hq₁.trans hq₂.symm
  allocated q' p hp := by
    by_cases heq : p = pnode
    · rw [heq, Function.update_self]
      exact Option.some_ne_none e
    · rw [Function.update_of_ne heq]
      exact h.allocated q' p ((mem_update_append.1 hp).resolve_right fun hor ↦ heq hor.2)

theorem mem_update_rest (hcontent : content i = pnode :: rest) :
    p ∈ Function.update content i rest q ↔ p ∈ content q ∧ p ≠ pnode := by
  have hnodup := h.nodup i
  rw [hcontent, List.nodup_cons] at hnodup
  have hmem : pnode ∈ content i := hcontent ▸ List.mem_cons_self
  by_cases hq : q = i
  · subst hq
    rw [Function.update_self, hcontent, List.mem_cons]
    constructor
    · intro hp
      exact ⟨.inr hp, fun heq ↦ hnodup.1 (heq ▸ hp)⟩
    · intro hp
      exact hp.1.resolve_left hp.2
  · rw [Function.update_of_ne hq]
    constructor
    · intro hp
      exact ⟨hp, fun heq ↦ hq (h.disjoint q i p hp (heq ▸ hmem))⟩
    · exact And.left

theorem tail (hcontent : content i = pnode :: rest) :
    Apart nodes (Function.update content i rest) where
  nodup q := by
    by_cases hq : q = i
    · subst hq
      have hnodup := h.nodup q
      rw [hcontent, List.nodup_cons] at hnodup
      rw [Function.update_self]
      exact hnodup.2
    · rw [Function.update_of_ne hq]
      exact h.nodup q
  disjoint q₁ q₂ p h₁ h₂ := h.disjoint q₁ q₂ p ((h.mem_update_rest hcontent).1 h₁).1
    ((h.mem_update_rest hcontent).1 h₂).1
  allocated q p hp := h.allocated q p ((h.mem_update_rest hcontent).1 hp).1

end Apart

end Content

namespace Linked

variable {links : Links ℕ ℕ} {nodes : ℕ → Option (QueuedEvent D)} {content : ℕ → List ℕ}
  {c : Consumer} {q i pnode : ℕ} {rest : List ℕ}

theorem first_eq (h : Linked links nodes content c) (hc : c.resetting = none) (i : ℕ) :
    links.first i = (content i).head? :=
  (h.holds i (by simp [hc])).first_eq

theorem exists_cons (h : Linked links nodes content c) (hc : c.current = some (i, pnode)) :
    ∃ rest, content i = pnode :: rest :=
  List.head?_eq_some_iff.1 (h.current i pnode hc)

theorem current_allocated (h : Linked links nodes content c) (hc : c.current = some (i, pnode)) :
    nodes pnode ≠ none := by
  obtain ⟨rest, hrest⟩ := h.exists_cons hc
  exact h.allocated i pnode (hrest ▸ List.mem_cons_self)

theorem served_ne (h : Linked links nodes content c) (hnew : nodes pnode = none) :
    c.served ≠ some pnode := by
  intro hserved
  have hcurrent : ∃ i, c.current = some (i, pnode) := by
    cases c with
    | reread i p => exact ⟨i, congrArg (fun p ↦ p.map (i, ·)) hserved⟩
    | dropFirst i p =>
        cases hserved
        exact ⟨i, rfl⟩
    | _ => cases hserved
  obtain ⟨i, hi⟩ := hcurrent
  exact h.current_allocated hi hnew

/-- An insertion into a queue whose end is as it should be. -/
theorem insertTail (h : Linked links nodes content c) (hq : c.resetting ≠ some q)
    (hnew : nodes pnode = none) (e : QueuedEvent D) :
    Linked (links.insertTail q pnode) (Function.update nodes pnode (some e))
      (Function.update content q (content q ++ [pnode])) c := by
  have hend : links.last q = endSlot q (content q) := (h.holds q hq).last
  have hother : ∀ q', q' ≠ q → links.last q ≠ .first q' := fun q' hne ↦
    hend ▸ endSlot_ne_first hne.symm _
  refine ⟨h.append hnew e, fun q' hq' ↦ ?holds, fun q' hq' ↦ ?window, fun i p hcurrent ↦ ?current,
    h.notNull, fun p hp ↦ ?removed⟩
  case holds =>
    by_cases hne : q' = q
    · subst hne
      rw [Function.update_self]
      exact (h.holds q' hq).insertTail (h.nodup q') (h.not_mem hnew q')
    · rw [Function.update_of_ne hne]
      apply (h.holds q' hq').insertTail_other hne (hother q' hne) _ (h.not_mem hnew q')
      intro m hm heq
      exact hne (h.disjoint q' q m hm (mem_of_endSlot (hend.symm.trans heq)))
  case window =>
    have hne : q' ≠ q := fun heq ↦ hq (heq ▸ hq')
    obtain ⟨hempty, hfirst, hlast⟩ := h.window q' hq'
    rw [Function.update_of_ne hne, Links.insertTail_first_of_ne _ (hother q' hne),
      Links.insertTail_last_of_ne _ hne]
    exact ⟨hempty, hfirst, hlast⟩
  case current =>
    have hhead := h.current i p hcurrent
    by_cases hne : i = q
    · subst hne
      rw [Function.update_self, List.head?_append, hhead]
      rfl
    · rw [Function.update_of_ne hne]
      exact hhead
  case removed =>
    obtain ⟨halloc, hnot⟩ := h.removed p hp
    have hne : p ≠ pnode := fun heq ↦ halloc (heq ▸ hnew)
    rw [Function.update_of_ne hne]
    refine ⟨halloc, fun q' hmem ↦ ?_⟩
    exact (mem_update_append.1 hmem).elim (hnot q') fun hor ↦ hne hor.2

/-- The consumer goes on without writing. -/
theorem move (h : Linked links nodes content c) (hc : c.resetting = none) {c' : Consumer}
    (hc' : c'.resetting = none) (hremoved : c'.removed = none)
    (hcurrent : ∀ i p, c'.current = some (i, p) → (content i).head? = some p)
    (hnotNull : c'.NotNull) : Linked links nodes content c' where
  toApart := h.toApart
  holds q _ := h.holds q (by simp [hc])
  window q hq := by simp [hc'] at hq
  current := hcurrent
  notNull := hnotNull
  removed p hp := by simp [hremoved] at hp

theorem rescan {j : ℕ} (h : Linked links nodes content (.scan i)) :
    Linked links nodes content (.scan j) :=
  h.move rfl rfl rfl (fun _ _ hcurrent ↦ by cases hcurrent) trivial

section Removal

variable (h : Linked links nodes content (.dropFirst i (some pnode)))
  (hcontent : content i = pnode :: rest)
include h

theorem dropFirst_other (hq : q ≠ i) :
    (links.dropFirst i).Holds q (Function.update content i rest q) := by
  rw [Function.update_of_ne hq]
  exact (h.holds q (by simp [Consumer.resetting])).dropFirst_other hq

include hcontent

theorem holds_cons : links.Holds i (pnode :: rest) :=
  hcontent ▸ h.holds i (by simp [Consumer.resetting])

theorem dropFirst_removed : nodes pnode ≠ none ∧ ∀ q, pnode ∉ Function.update content i rest q :=
  ⟨h.allocated i pnode (hcontent ▸ List.mem_cons_self),
    fun _ hmem ↦ ((h.mem_update_rest hcontent).1 hmem).2 rfl⟩

theorem dropFirst_only (hfirst : (links.dropFirst i).first i = none) :
    Linked (links.dropFirst i) nodes (Function.update content i rest)
      (.resetLast i (some pnode)) where
  toApart := h.tail hcontent
  holds q hq := h.dropFirst_other fun heq ↦ hq (heq ▸ rfl)
  window q hq := by
    cases hq
    have hholds := h.holds_cons hcontent
    have hrest : rest = [] := List.head?_eq_none_iff.1 (hholds.dropFirst_first.symm.trans hfirst)
    subst hrest
    exact ⟨Function.update_self .., hfirst, pnode, hholds.last, rfl⟩
  current j p hcurrent := by cases hcurrent
  notNull := Option.some_ne_none pnode
  removed p hp := by
    cases hp
    exact h.dropFirst_removed hcontent

theorem dropFirst_more (hfirst : (links.dropFirst i).first i ≠ none) :
    Linked (links.dropFirst i) nodes (Function.update content i rest) (.free (some pnode)) where
  toApart := h.tail hcontent
  holds q _ := by
    by_cases hq : q = i
    · subst hq
      have hholds := h.holds_cons hcontent
      rw [hholds.dropFirst_first] at hfirst
      rw [Function.update_self]
      exact hholds.dropFirst fun hrest ↦ hfirst (hrest ▸ rfl)
    · exact h.dropFirst_other hq
  window q hq := by cases hq
  current j p hcurrent := by cases hcurrent
  notNull := Option.some_ne_none pnode
  removed p hp := by
    cases hp
    exact h.dropFirst_removed hcontent

end Removal

theorem resetLast {pnode : Option ℕ} (h : Linked links nodes content (.resetLast i pnode)) :
    Linked (links.resetLast i) nodes content (.free pnode) where
  toApart := h.toApart
  holds q _ := by
    by_cases hq : q = i
    · subst hq
      obtain ⟨hempty, hfirst, _⟩ := h.window q rfl
      rw [hempty]
      exact Links.resetLast_holds hfirst
    · apply (h.holds q _).resetLast_other hq
      exact fun heq ↦ hq (Option.some.inj heq).symm
  window q hq := by cases hq
  current j p hcurrent := by cases hcurrent
  notNull := h.notNull
  removed := h.removed

/-- The consumer frees the node, and is called again. -/
theorem free (h : Linked links nodes content (.free (some pnode))) (j : ℕ) :
    Linked links (Function.update nodes pnode none) content (.scan j) where
  nodup := h.nodup
  disjoint := h.disjoint
  allocated q p hp := by
    have hne : p ≠ pnode := fun heq ↦ (h.removed pnode rfl).2 q (heq ▸ hp)
    rw [Function.update_of_ne hne]
    exact h.allocated q p hp
  holds q _ := h.holds q (by simp [Consumer.resetting])
  window q hq := by cases hq
  current i p hcurrent := by cases hcurrent
  notNull := trivial
  removed p hp := by cases hp

end Linked

/-- Each event that was queued was handed over or is on its queue; both are true just of the event
that is being served. -/
structure Accounted (queued handed : List (QueuedEvent D)) (nodes : ℕ → Option (QueuedEvent D))
    (content : ℕ → List ℕ) (served : Option ℕ) : Prop where
  ticket_lt : ∀ e ∈ queued, e.ticket < queued.length
  once : handed.Nodup
  was_queued : ∀ e ∈ handed, e ∈ queued
  waiting : ∀ e ∈ queued, e ∉ handed → ∃ pnode ∈ content e.queue, nodes pnode = some e
  stored : ∀ q, ∀ pnode ∈ content q, ∃ e ∈ queued, nodes pnode = some e ∧
    (e ∈ handed ↔ served = some pnode)
  distinct : ∀ q q' pnode pnode', pnode ∈ content q → pnode' ∈ content q' →
    nodes pnode = nodes pnode' → pnode = pnode'

namespace Accounted

variable {queued handed : List (QueuedEvent D)} {nodes : ℕ → Option (QueuedEvent D)}
  {content : ℕ → List ℕ} {served : Option ℕ} {q i pnode : ℕ} {e : QueuedEvent D}

theorem ne_of_stored (h : Accounted queued handed nodes content served) {p : ℕ}
    (hp : p ∈ content q) (hnew : nodes pnode = none) : p ≠ pnode := by
  obtain ⟨e, _, he, _⟩ := h.stored q p hp
  intro heq
  rw [heq, hnew] at he
  cases he

theorem not_handed (h : Accounted queued handed nodes content served)
    (he : e.ticket = queued.length) : e ∉ handed :=
  fun hmem ↦ (h.ticket_lt e (h.was_queued e hmem)).ne he

/-- Another event is queued. -/
theorem append (h : Accounted queued handed nodes content served) (he : e.ticket = queued.length)
    (hnew : nodes pnode = none) (hserved : served ≠ some pnode) :
    Accounted (queued ++ [e]) handed (Function.update nodes pnode (some e))
      (Function.update content e.queue (content e.queue ++ [pnode])) served := by
  have hkept : ∀ {q p}, p ∈ content q → Function.update nodes pnode (some e) p = nodes p :=
    fun hp ↦ Function.update_of_ne (h.ne_of_stored hp hnew) ..
  have hself : Function.update nodes pnode (some e) pnode = some e := Function.update_self ..
  have hother : ∀ {q p}, p ∈ content q → nodes p ≠ some e := by
    intro q p hp hsome
    obtain ⟨e', he', hnode, _⟩ := h.stored q p hp
    rw [hnode, Option.some.injEq] at hsome
    exact (h.ticket_lt e' he').ne (hsome ▸ he)
  refine ⟨fun e' he' ↦ ?ticket_lt, h.once,
    fun e' he' ↦ List.mem_append_left _ (h.was_queued e' he'), fun e' he' hnot ↦ ?waiting,
    fun q p hp ↦ ?stored, fun q q' p p' hp hp' heq ↦ ?distinct⟩
  case ticket_lt =>
    rw [List.length_append]
    rcases List.mem_append.1 he' with hold | hlast
    · exact (h.ticket_lt e' hold).trans (Nat.lt_succ_self _)
    · rw [List.mem_singleton.1 hlast, he]
      exact Nat.lt_succ_self _
  case waiting =>
    rcases List.mem_append.1 he' with hold | hlast
    · obtain ⟨p, hp, hnode⟩ := h.waiting e' hold hnot
      exact ⟨p, mem_update_append.2 (.inl hp), (hkept hp).trans hnode⟩
    · rw [List.mem_singleton.1 hlast]
      exact ⟨pnode, mem_update_append.2 (.inr ⟨rfl, rfl⟩), hself⟩
  case stored =>
    rcases mem_update_append.1 hp with hold | ⟨_, rfl⟩
    · obtain ⟨e', he', hnode, hhanded⟩ := h.stored q p hold
      exact ⟨e', List.mem_append_left _ he', (hkept hold).trans hnode, hhanded⟩
    · exact ⟨e, List.mem_concat_self, hself, iff_of_false (h.not_handed he) hserved⟩
  case distinct =>
    rcases mem_update_append.1 hp with hold | ⟨_, rfl⟩
    · rcases mem_update_append.1 hp' with hold' | ⟨_, rfl⟩
      · rw [hkept hold, hkept hold'] at heq
        exact h.distinct q q' p p' hold hold' heq
      · rw [hkept hold, hself] at heq
        exact absurd heq (hother hold)
    · rcases mem_update_append.1 hp' with hold' | ⟨_, rfl⟩
      · rw [hkept hold', hself] at heq
        exact absurd heq.symm (hother hold')
      · rfl

/-- The event of a node is handed over. -/
theorem hand (h : Accounted queued handed nodes content none) (hp : pnode ∈ content i)
    (hnode : nodes pnode = some e) :
    Accounted queued (handed ++ [e]) nodes content (some pnode) := by
  have hunhanded : ∀ {q p e'}, p ∈ content q → nodes p = some e' → e' ∉ handed := by
    intro q p e' hp he' hmem
    obtain ⟨e'', _, hnode', hhanded⟩ := h.stored q p hp
    rw [he', Option.some.injEq] at hnode'
    cases hhanded.1 (hnode' ▸ hmem)
  have hqueued : e ∈ queued := by
    obtain ⟨e', he', hnode', _⟩ := h.stored i pnode hp
    rw [hnode, Option.some.injEq] at hnode'
    exact hnode' ▸ he'
  refine ⟨h.ticket_lt, ?once, fun e' he' ↦ ?was_queued, fun e' he' hnot ↦ ?waiting,
    fun q p hp' ↦ ?stored, h.distinct⟩
  case once =>
    exact h.once.append (List.nodup_singleton e) (List.disjoint_singleton.2 (hunhanded hp hnode))
  case was_queued =>
    rcases List.mem_append.1 he' with hold | hlast
    · exact h.was_queued e' hold
    · exact List.mem_singleton.1 hlast ▸ hqueued
  case waiting => exact h.waiting e' he' fun hmem ↦ hnot (List.mem_append_left _ hmem)
  case stored =>
    obtain ⟨e', he', hnode', _⟩ := h.stored q p hp'
    refine ⟨e', he', hnode', ?_⟩
    rw [List.mem_append, or_iff_right (hunhanded hp' hnode'), List.mem_singleton,
      Option.some.injEq]
    constructor
    · intro heq
      exact h.distinct i q pnode p hp hp' (hnode.trans (heq ▸ hnode'.symm))
    · intro heq
      rw [← heq, hnode, Option.some.injEq] at hnode'
      exact hnode'.symm

/-- The node of the event that was handed over is taken off its queue. -/
theorem tail (h : Accounted queued handed nodes content (some pnode)) {content' : ℕ → List ℕ}
    (hcontent : ∀ q p, p ∈ content' q ↔ p ∈ content q ∧ p ≠ pnode) :
    Accounted queued handed nodes content' none where
  ticket_lt := h.ticket_lt
  once := h.once
  was_queued := h.was_queued
  waiting e he hnot := by
    obtain ⟨p, hp, hnode⟩ := h.waiting e he hnot
    refine ⟨p, (hcontent e.queue p).2 ⟨hp, fun heq ↦ hnot ?_⟩, hnode⟩
    obtain ⟨e', _, hnode', hhanded⟩ := h.stored e.queue p hp
    rw [hnode, Option.some.injEq] at hnode'
    exact hnode' ▸ hhanded.2 (congrArg some heq.symm)
  stored q p hp := by
    obtain ⟨hold, hne⟩ := (hcontent q p).1 hp
    obtain ⟨e, he, hnode, hhanded⟩ := h.stored q p hold
    refine ⟨e, he, hnode, iff_of_false (fun hmem ↦ hne ?_) (by simp)⟩
    exact (Option.some.inj (hhanded.1 hmem)).symm
  distinct q q' p p' hp hp' :=
    h.distinct q q' p p' ((hcontent q p).1 hp).1 ((hcontent q' p').1 hp').1

/-- A node that is on no queue is freed. -/
theorem free (h : Accounted queued handed nodes content served) (hp : ∀ q, pnode ∉ content q) :
    Accounted queued handed (Function.update nodes pnode none) content served := by
  have hkept : ∀ {q p}, p ∈ content q → Function.update nodes pnode none p = nodes p :=
    fun hmem ↦ Function.update_of_ne (fun heq ↦ hp _ (heq ▸ hmem)) ..
  refine ⟨h.ticket_lt, h.once, h.was_queued, fun e he hnot ↦ ?waiting, fun q p hmem ↦ ?stored,
    fun q q' p p' hmem hmem' heq ↦ ?distinct⟩
  case waiting =>
    obtain ⟨p, hmem, hnode⟩ := h.waiting e he hnot
    exact ⟨p, hmem, (hkept hmem).trans hnode⟩
  case stored =>
    obtain ⟨e, he, hnode, hhanded⟩ := h.stored q p hmem
    exact ⟨e, he, (hkept hmem).trans hnode, hhanded⟩
  case distinct =>
    rw [hkept hmem, hkept hmem'] at heq
    exact h.distinct q q' p p' hmem hmem' heq

end Accounted

/-! ## Steps -/

/-- The queues are in order. -/
def ThreadState.Orderly (s : ThreadState Bytes) : Prop :=
  ∃ content, Linked s.links s.nodes content s.consumer ∧
    Accounted s.queued s.handed s.nodes content s.consumer.served

namespace ThreadState

theorem start_orderly (nqueues : UInt32) : (start nqueues : ThreadState Bytes).Orderly := by
  refine ⟨fun _ ↦ [], ⟨⟨fun _ ↦ List.nodup_nil, ?_, ?_⟩, fun q _ ↦ Links.empty_holds q, ?_, ?_, ?_,
    ?_⟩, ⟨?_, List.nodup_nil, ?_, ?_, ?_, ?_⟩⟩
  all_goals
    simp [start, entry, Consumer.resetting, Consumer.current, Consumer.NotNull, Consumer.removed]

/-- What a step of the consumer does. -/
inductive Dequeues (s : ThreadState D) : ThreadState D → Prop
  | found {i pnode : ℕ} (hc : s.consumer = .scan i) (hfirst : s.links.first i = some pnode) :
      Dequeues s { s with consumer := .process i pnode }
  | lower {i : ℕ} (hc : s.consumer = .scan (i + 1)) :
      Dequeues s { s with consumer := .scan i }
  | empty (hc : s.consumer = .scan 0) : Dequeues s { s with consumer := entry s.nqueues }
  | process {i pnode : ℕ} {e : QueuedEvent D} (hc : s.consumer = .process i pnode)
      (hnode : s.nodes pnode = some e) :
      Dequeues s { s with consumer := .reread i pnode, handed := s.handed ++ [e] }
  | reread (i pnode : ℕ) (hc : s.consumer = .reread i pnode) :
      Dequeues s { s with consumer := .dropFirst i (s.links.first i) }
  | dropOnly (i : ℕ) (pnode : Option ℕ) (hc : s.consumer = .dropFirst i pnode)
      (hfirst : (s.links.dropFirst i).first i = none) :
      Dequeues s { s with links := s.links.dropFirst i, consumer := .resetLast i pnode }
  | dropMore (i : ℕ) (pnode : Option ℕ) (hc : s.consumer = .dropFirst i pnode)
      (hfirst : (s.links.dropFirst i).first i ≠ none) :
      Dequeues s { s with links := s.links.dropFirst i, consumer := .free pnode }
  | resetLast {i : ℕ} {pnode : Option ℕ} (hc : s.consumer = .resetLast i pnode) :
      Dequeues s { s with links := s.links.resetLast i, consumer := .free pnode }
  | free {pnode : ℕ} (hc : s.consumer = .free (some pnode)) :
      Dequeues s { s with
        nodes := Function.update s.nodes pnode none, consumer := entry s.nqueues }

theorem dequeues_of_next {s t : ThreadState D} (h : s.dequeueEvent = .next t) : Dequeues s t := by
  unfold ThreadState.dequeueEvent at h
  split at h
  case h_1 i hc =>
    split at h
    · split at h
      case h_1 pnode hfirst =>
        cases h
        exact .found hc hfirst
      case h_2 hfirst =>
        split at h
        · cases h
          exact .empty hc
        · cases h
          exact .lower hc
    · cases h
  case h_2 i pnode hc =>
    split at h
    case h_1 e hnode =>
      cases h
      exact .process hc hnode
    case h_2 => cases h
  case h_3 i pnode hc =>
    cases h
    exact .reread i pnode hc
  case h_4 i pnode hc =>
    split at h
    · cases h
    · dsimp only at h
      split at h
      case isTrue hfirst =>
        cases h
        exact .dropOnly i pnode hc hfirst
      case isFalse hfirst =>
        cases h
        exact .dropMore i pnode hc hfirst
  case h_5 i pnode hc =>
    cases h
    exact .resetLast hc
  case h_6 hc => cases h
  case h_7 pnode hc =>
    split at h
    · cases h
    · cases h
      exact .free hc

variable {s t : ThreadState Bytes}

theorem Orderly.nothingLost (h : s.Orderly) : s.NothingLost := by
  intro e he
  obtain ⟨content, hlinked, haccounted⟩ := h
  by_cases hhanded : e ∈ s.handed
  · exact .inl (List.count_eq_one_of_mem haccounted.once hhanded)
  · obtain ⟨pnode, hp, hnode⟩ := haccounted.waiting e he hhanded
    refine .inr ⟨List.count_eq_zero_of_not_mem hhanded, pnode, ?_, hnode⟩
    apply (hlinked.holds e.queue _).onQueue hp
    intro hreset
    rw [(hlinked.window e.queue hreset).1] at hp
    cases hp

theorem queueEvent_inv {q : Request} {pnode : ℕ} (h : s.queueEvent q pnode = .next t) :
    ¬ q.Accepted s.nqueues ∧ t = s ∨ q.Accepted s.nqueues ∧ s.nodes pnode = none ∧ ∃ e,
      e.ticket = s.queued.length ∧ e.queue = q.prio.toNat ∧ t = { s with
        links := s.links.insertTail e.queue pnode
        nodes := Function.update s.nodes pnode (some e)
        queued := s.queued ++ [e] } := by
  unfold ThreadState.queueEvent at h
  split at h
  · rename_i hprio
    cases h
    exact .inl ⟨fun haccepted ↦ UInt32.not_le.2 haccepted.1 hprio, rfl⟩
  · rename_i hprio
    split at h
    · rename_i hnode
      cases h
      exact .inl ⟨fun haccepted ↦ by simp [haccepted.2.1] at hnode, rfl⟩
    · rename_i hnode
      split at h
      · rename_i hdata
        cases h
        exact .inl ⟨fun haccepted ↦ by simp [haccepted.2.2] at hdata, rfl⟩
      · rename_i hdata
        have haccepted : q.Accepted s.nqueues :=
          ⟨UInt32.not_le.1 hprio, by simpa using hnode, by simpa using hdata⟩
        split at h
        · cases h
        · rename_i hfree
          split at h
          · cases h
          · cases h
            exact .inr ⟨haccepted, by simpa using hfree,
              ⟨s.queued.length, ⟨memcpy q.pdata q.size, q.evtkey, q.prio⟩⟩, rfl, rfl, rfl⟩

/-- An insertion outside of the window. -/
theorem Orderly.queueEvent {q : Request} {pnode : ℕ} (h : s.Orderly)
    (hstep : s.queueEvent q pnode = .next t)
    (hwindow : q.Accepted s.nqueues → s.consumer.resetting ≠ some q.prio.toNat) : t.Orderly := by
  rcases queueEvent_inv hstep with ⟨_, rfl⟩ | ⟨haccepted, hnew, e, hticket, hqueue, rfl⟩
  · exact h
  · obtain ⟨content, hlinked, haccounted⟩ := h
    have hreset := hwindow haccepted
    rw [← hqueue] at hreset
    exact ⟨_, hlinked.insertTail hreset hnew e,
      haccounted.append hticket hnew (hlinked.served_ne hnew)⟩

theorem Orderly.queueEvent_lost {q : Request} {pnode : ℕ} (h : s.Orderly)
    (hstep : s.queueEvent q pnode = .next t) (haccepted : q.Accepted s.nqueues)
    (hwindow : s.consumer.resetting = some q.prio.toNat) : ¬ t.NothingLost := by
  intro hlost
  rcases queueEvent_inv hstep with ⟨hrefused, _⟩ | ⟨_, _, e, hticket, hqueue, rfl⟩
  · exact hrefused haccepted
  · obtain ⟨content, hlinked, haccounted⟩ := h
    obtain ⟨_, hfirst, p, hlast, _⟩ := hlinked.window e.queue (hqueue ▸ hwindow)
    have hcount : s.handed.count e = 0 :=
      List.count_eq_zero_of_not_mem (haccounted.not_handed hticket)
    rcases hlost e List.mem_concat_self with hone | ⟨_, p', hreach, _⟩
    · rw [hcount] at hone
      cases hone
    · refine Links.not_onQueue ?_ hreach
      exact (Links.insertTail_first_of_ne pnode (by simp [hlast])).trans hfirst

/-- A step of the consumer. -/
theorem Orderly.dequeueEvent (h : s.Orderly) (hstep : s.dequeueEvent = .next t) : t.Orderly := by
  obtain ⟨content, hlinked, haccounted⟩ := h
  cases dequeues_of_next hstep with
  | found hc hfirst =>
      rw [hc] at hlinked haccounted
      refine ⟨content, hlinked.move rfl rfl rfl (fun j p hcurrent ↦ ?_) trivial, haccounted⟩
      cases hcurrent
      exact (hlinked.first_eq rfl _).symm.trans hfirst
  | lower hc =>
      rw [hc] at hlinked haccounted
      exact ⟨content, hlinked.rescan, haccounted⟩
  | empty hc =>
      rw [hc] at hlinked haccounted
      exact ⟨content, hlinked.rescan, haccounted⟩
  | process hc hnode =>
      rw [hc] at hlinked haccounted
      obtain ⟨rest, hrest⟩ := hlinked.exists_cons rfl
      exact ⟨content, hlinked.move rfl rfl rfl hlinked.current trivial,
        haccounted.hand (hrest ▸ List.mem_cons_self) hnode⟩
  | reread i pnode hc =>
      rw [hc] at hlinked haccounted
      -- nothing can be in front of the node that was read before
      have hfirst : s.links.first i = some pnode :=
        (hlinked.first_eq rfl i).trans (hlinked.current i pnode rfl)
      unfold Orderly
      dsimp only
      rw [hfirst]
      exact ⟨content, hlinked.move rfl rfl rfl hlinked.current (Option.some_ne_none pnode),
        haccounted⟩
  | dropOnly i pnode hc hfirst =>
      rw [hc] at hlinked haccounted
      obtain ⟨p, rfl⟩ := Option.ne_none_iff_exists'.1 hlinked.notNull
      obtain ⟨rest, hrest⟩ := hlinked.exists_cons rfl
      exact ⟨_, hlinked.dropFirst_only hrest hfirst,
        haccounted.tail fun _ _ ↦ hlinked.mem_update_rest hrest⟩
  | dropMore i pnode hc hfirst =>
      rw [hc] at hlinked haccounted
      obtain ⟨p, rfl⟩ := Option.ne_none_iff_exists'.1 hlinked.notNull
      obtain ⟨rest, hrest⟩ := hlinked.exists_cons rfl
      exact ⟨_, hlinked.dropFirst_more hrest hfirst,
        haccounted.tail fun _ _ ↦ hlinked.mem_update_rest hrest⟩
  | resetLast hc =>
      rw [hc] at hlinked haccounted
      exact ⟨content, hlinked.resetLast, haccounted⟩
  | free hc =>
      rw [hc] at hlinked haccounted
      exact ⟨content, hlinked.free _, haccounted.free (hlinked.removed _ rfl).2⟩

/-- The consumer stays within the table of queues. -/
def InRange (s : ThreadState Bytes) : Prop :=
  0 < s.nqueues.toNat ∧ ∀ i, s.consumer.index = some i → i < s.nqueues.toNat

theorem entry_inRange {nqueues : UInt32} (h : 0 < nqueues.toNat) (i : ℕ)
    (hi : (entry nqueues).index = some i) : i < nqueues.toNat := by
  have hlast : (nqueues - 1).toNat = nqueues.toNat - 1 :=
    UInt32.toNat_sub_of_le _ _ (UInt32.le_iff_toNat_le.2 h)
  rw [← Option.some.inj hi, hlast]
  exact Nat.sub_lt h Nat.one_pos

theorem InRange.queueEvent {q : Request} {pnode : ℕ} (h : s.InRange)
    (hstep : s.queueEvent q pnode = .next t) : t.InRange := by
  rcases queueEvent_inv hstep with ⟨_, rfl⟩ | ⟨_, _, e, _, _, rfl⟩
  · exact h
  · exact h

theorem InRange.dequeueEvent (h : s.InRange) (hstep : s.dequeueEvent = .next t) : t.InRange := by
  obtain ⟨hpos, hrange⟩ := h
  cases dequeues_of_next hstep with
  | found hc => exact ⟨hpos, fun j hj ↦ hrange j (hc ▸ hj)⟩
  | lower hc =>
      refine ⟨hpos, fun j hj ↦ ?_⟩
      rw [hc] at hrange
      cases hj
      exact (Nat.lt_succ_self _).trans (hrange _ rfl)
  | empty hc => exact ⟨hpos, entry_inRange hpos⟩
  | process hc => exact ⟨hpos, fun j hj ↦ hrange j (hc ▸ hj)⟩
  | reread i pnode hc => exact ⟨hpos, fun j hj ↦ hrange j (hc ▸ hj)⟩
  | dropOnly i pnode hc => exact ⟨hpos, fun j hj ↦ hrange j (hc ▸ hj)⟩
  | dropMore i pnode hc => exact ⟨hpos, fun j hj ↦ by cases hj⟩
  | resetLast hc => exact ⟨hpos, fun j hj ↦ by cases hj⟩
  | free hc => exact ⟨hpos, entry_inRange hpos⟩

theorem Orderly.endExists (h : s.Orderly) (q : ℕ) : s.endExists q = true := by
  obtain ⟨content, hlinked, _⟩ := h
  have halloc : ∀ pnode, s.links.last q = .next pnode → s.nodes pnode ≠ none := by
    intro pnode hlast
    by_cases hreset : s.consumer.resetting = some q
    · obtain ⟨_, _, p, hend, hremoved⟩ := hlinked.window q hreset
      have heq : p = pnode := Slot.next.inj (hend.symm.trans hlast)
      exact heq ▸ (hlinked.removed p hremoved).1
    · have hend := (hlinked.holds q hreset).last
      exact hlinked.allocated q pnode (mem_of_endSlot (hend.symm.trans hlast))
  unfold ThreadState.endExists
  split
  · rfl
  · rename_i pnode hlast
    exact Option.isSome_iff_ne_none.2 (halloc pnode hlast)

theorem Orderly.queueEvent_defined (h : s.Orderly) (q : Request) (pnode : ℕ) :
    s.queueEvent q pnode ≠ .undefined := by
  intro hundefined
  unfold ThreadState.queueEvent at hundefined
  rw [h.endExists] at hundefined
  split at hundefined
  · cases hundefined
  · split at hundefined
    · cases hundefined
    · split at hundefined
      · cases hundefined
      · split at hundefined
        · cases hundefined
        · cases hundefined

theorem Orderly.dequeueEvent_defined (h : s.Orderly) (hrange : s.InRange) :
    s.dequeueEvent ≠ .undefined := by
  intro hundefined
  obtain ⟨nqueues, links, nodes, c, queued, handed⟩ := s
  obtain ⟨content, hlinked, _⟩ := h
  cases c with
  | scan i =>
      unfold ThreadState.dequeueEvent at hundefined
      dsimp only at hundefined
      rw [if_pos (hrange.2 i rfl)] at hundefined
      split at hundefined
      · cases hundefined
      · split at hundefined
        · cases hundefined
        · cases hundefined
  | process i pnode =>
      unfold ThreadState.dequeueEvent at hundefined
      dsimp only at hundefined
      split at hundefined
      · cases hundefined
      · rename_i hnode
        exact hlinked.current_allocated (c := .process i pnode) rfl hnode
  | reread i pnode => cases hundefined
  | dropFirst i pnode =>
      cases pnode with
      | none => exact hlinked.notNull rfl
      | some pnode =>
          have hfirst : links.first i = some pnode :=
            (hlinked.first_eq rfl i).trans (hlinked.current i pnode rfl)
          unfold ThreadState.dequeueEvent at hundefined
          dsimp only at hundefined
          rw [hfirst, Option.bind_some] at hundefined
          split at hundefined
          · rename_i hnode
            exact hlinked.current_allocated (c := .dropFirst i (some pnode)) rfl hnode
          · split at hundefined
            · cases hundefined
            · cases hundefined
  | resetLast i pnode => cases hundefined
  | free pnode =>
      cases pnode with
      | none => exact hlinked.notNull rfl
      | some pnode =>
          unfold ThreadState.dequeueEvent at hundefined
          dsimp only at hundefined
          split at hundefined
          · rename_i hnode
            exact (hlinked.removed pnode rfl).1 hnode
          · cases hundefined

end ThreadState

/-! ## Runs -/

section Runs

variable {ι : Type} {s t : ThreadState Bytes}

/-- A step outside of the window keeps the queues in order. -/
theorem ThreadState.Orderly.step (h : s.Orderly) {a : ThreadStep ι}
    (hstep : (threads ι).step a s = .next t) (hwindow : a.OutsideWindow s) : t.Orderly := by
  cases a with
  | producer thread q pnode => exact h.queueEvent hstep hwindow
  | consumer => exact h.dequeueEvent hstep

theorem ThreadState.InRange.step (h : s.InRange) {a : ThreadStep ι}
    (hstep : (threads ι).step a s = .next t) : t.InRange := by
  cases a with
  | producer thread q pnode => exact h.queueEvent hstep
  | consumer => exact h.dequeueEvent hstep

theorem defined_of_everyStep (hs : (threads ι).init s) (hpos : 0 < s.nqueues)
    {schedule : List (ThreadStep ι)}
    (h : (threads ι).EveryStep ThreadStep.OutsideWindow s schedule) :
    (threads ι).Defined s schedule := by
  obtain ⟨nqueues, rfl⟩ := hs
  have hqueues : 0 < nqueues.toNat := UInt32.lt_iff_toNat_lt.1 hpos
  apply h.defined (fun s ↦ s.Orderly ∧ s.InRange)
    ⟨ThreadState.start_orderly nqueues, hqueues, ThreadState.entry_inRange hqueues⟩
  · intro a s t hs hstep hwindow
    exact ⟨hs.1.step hstep hwindow, hs.2.step hstep⟩
  · intro a s hs
    cases a with
    | producer thread q pnode => exact hs.1.queueEvent_defined q pnode
    | consumer => exact hs.1.dequeueEvent_defined hs.2

/-- In every run, nothing is lost or handed over twice in any state that is passed exactly if no
event is inserted into a queue between the two assignments that empty it. -/
theorem everyState_nothingLost_iff (hs : (threads ι).init s) (schedule : List (ThreadStep ι)) :
    (threads ι).EveryState ThreadState.NothingLost s schedule ↔
      (threads ι).EveryStep ThreadStep.OutsideWindow s schedule := by
  obtain ⟨nqueues, rfl⟩ := hs
  refine System.everyState_iff_everyStep (fun s hs ↦ hs.nothingLost)
    (fun a s t hs hstep hout ↦ hs.step hstep hout) (fun a s t hs hstep hin ↦ ?_)
    (ThreadState.start_orderly nqueues) schedule
  cases a with
  | producer thread q pnode =>
      unfold ThreadStep.OutsideWindow at hin
      push Not at hin
      exact hs.queueEvent_lost hstep hin.1 hin.2
  | consumer => exact absurd trivial hin

end Runs

/-- A request for one byte on the only queue. -/
def oneByte : Request := ⟨7, fun _ ↦ 0, 1, 0, true, true⟩

/-- The second event is queued while the first one is processed. -/
theorem queuedInTime_nothingLost :
    (threads ℕ).EveryState ThreadState.NothingLost (.start 1)
      [.producer 0 oneByte 10, .consumer, .consumer, .producer 1 oneByte 11, .consumer, .consumer,
        .consumer] := by
  apply (everyState_nothingLost_iff ⟨1, rfl⟩ _).2
  have hnever : ∀ i : ℕ, none ≠ some i := fun i heq ↦ by cases heq
  exact ⟨fun _ ↦ hnever 0, trivial, trivial, fun _ ↦ hnever 0, trivial, trivial, trivial, trivial⟩

/-- The second event is queued when the consumer has taken the first one off and has not reset the
end of the queue.  It is still in memory when the consumer is called again, but on no queue. -/
theorem queuedInWindow_lost :
    ¬ (threads ℕ).EveryState ThreadState.NothingLost (.start 1)
      [.producer 0 oneByte 10, .consumer, .consumer, .consumer, .consumer, .producer 1 oneByte 11,
        .consumer, .consumer] := by
  intro hall
  obtain ⟨_, _, _, _, _, _, _, _, hlost⟩ := hall
  rcases hlost ⟨1, ⟨[0], 7, 0⟩⟩ (by decide) with hone | ⟨_, pnode, hreach, _⟩
  · exact absurd hone (by decide)
  · exact Links.not_onQueue rfl hreach

end Experimentation.StateMachine
