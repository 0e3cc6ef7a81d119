import Experimentation.HashTable.ChainLinks
import Experimentation.HashTable.Nodes
import Experimentation.Semantics.Agreement

/-!
# The linked table refines the table of sequences

The memory of a linked table is described by what its chains spell, array by array, and by the one
node that a running call may hold in its hands: it was taken off a chain, or has just come from
`malloc`.  Besides that node, what is allocated is what hangs on a chain.  Each macro and each call
to `malloc` or `free` is matched with what it does to this description; the functions then agree
with those of the table of sequences, call by call, whatever the callbacks compute.
-/

namespace Experimentation.HashTable

open LinkedLists Semantics
open TailQueue (Slot Chain)

variable {K D : Type}

namespace HHeap

variable {h h' h'' : HHeap K D} {q : ℕ × ℕ} {o : ℕ}

/-- The links of the nodes and heads that are allocated. -/
def links (h : HHeap K D) : TailLinks (ℕ × ℕ) ℕ where
  first q := (h.head? q).bind HHead.tqhFirst
  next o := (h.nodes o).bind LinkedHNode.tqeNext
  prev o := ((h.nodes o).map LinkedHNode.tqePrev).getD (.next o)
  last q := ((h.head? q).map HHead.tqhLast).getD (.first q)

/-- The key and the data of a node that is allocated. -/
def contents (h : HHeap K D) (o : ℕ) : Option (HNode K D) := (h.nodes o).map LinkedHNode.toHNode

/-- The place of a link is allocated. -/
def HasPlace (h : HHeap K D) : Place → Prop
  | .first q => (h.head? q).isSome
  | .next o => (h.nodes o).isSome

/-- Only links have changed. -/
structure SameShape (h h' : HHeap K D) : Prop where
  contents : h'.contents = h.contents
  lengths : ∀ a, (h'.arrays a).map List.length = (h.arrays a).map List.length

namespace SameShape

theorem trans (h₁ : SameShape h h') (h₂ : SameShape h' h'') : SameShape h h'' :=
  ⟨h₂.contents.trans h₁.contents, fun a ↦ (h₂.lengths a).trans (h₁.lengths a)⟩

theorem isSome_node (hs : SameShape h h') (o : ℕ) : (h'.nodes o).isSome = (h.nodes o).isSome := by
  have heq := congrArg Option.isSome (congrFun hs.contents o)
  simpa [HHeap.contents] using heq

theorem isSome_head (hs : SameShape h h') (q : ℕ × ℕ) :
    (h'.head? q).isSome = (h.head? q).isSome := by
  have hlen := hs.lengths q.1
  unfold head?
  cases h₁ : h.arrays q.1 with
  | none =>
      have hnone : h'.arrays q.1 = none := by simpa [h₁] using hlen
      rw [hnone]
  | some heads =>
      obtain ⟨heads', hsome, hsame⟩ : ∃ heads', h'.arrays q.1 = some heads' ∧
          heads'.length = heads.length := by simpa [h₁] using hlen
      rw [Bool.eq_iff_iff, hsome]
      simp [hsame]

theorem hasPlace (hs : SameShape h h') {s : Place} (hp : h.HasPlace s) : h'.HasPlace s := by
  cases s with
  | first q => exact (hs.isSome_head q).trans hp
  | next o => exact (hs.isSome_node o).trans hp

end SameShape

theorem node_eq {n : LinkedHNode K D} (hn : h.nodes o = some n) : h.node o = .ok n := by
  rw [node, hn]

theorem head_eq {hd : HHead} (hq : h.head? q = some hd) : h.head q = .ok hd := by
  unfold head? at hq
  unfold head
  cases ha : h.arrays q.1 with
  | none =>
      rw [ha] at hq
      cases hq
  | some heads =>
      rw [ha] at hq
      have hget : heads[q.2]? = some hd := hq
      dsimp only
      rw [hget]

theorem head?_setHead {hd : HHead} (hq : (h.head? q).isSome) (q' : ℕ × ℕ) :
    (h.setHead q hd).head? q' = if q' = q then some hd else h.head? q' := by
  unfold head? setHead at *
  dsimp only
  cases ha : h.arrays q.1 with
  | none =>
      rw [ha] at hq
      cases hq
  | some heads =>
      rw [ha] at hq
      have hlt : q.2 < heads.length := by
        simpa using hq
      by_cases hq' : q' = q
      · rw [if_pos hq', hq', Function.update_self]
        simp [hlt]
      · rw [if_neg hq']
        by_cases harr : q'.1 = q.1
        · have hidx : q.2 ≠ q'.2 := fun heq ↦ hq' (Prod.ext harr heq.symm)
          rw [harr, Function.update_self, ha]
          simp [List.getElem?_set_ne hidx]
        · rw [Function.update_of_ne harr]

theorem links_setNode (h : HHeap K D) (o : ℕ) (n : LinkedHNode K D) :
    (h.setNode o n).links = ⟨⟨h.links.first, Function.update h.links.next o n.tqeNext,
      Function.update h.links.prev o n.tqePrev⟩, h.links.last⟩ := by
  simp only [links, setNode, head?, TailLinks.mk.injEq, Links.mk.injEq, true_and, and_true]
  constructor <;> funext i <;> by_cases hi : i = o <;> simp [hi]

theorem links_setHead (hq : (h.head? q).isSome) (hd : HHead) :
    (h.setHead q hd).links = ⟨⟨Function.update h.links.first q hd.tqhFirst, h.links.next,
      h.links.prev⟩, Function.update h.links.last q hd.tqhLast⟩ := by
  simp only [links, TailLinks.mk.injEq, Links.mk.injEq, head?_setHead hq]
  refine ⟨⟨?_, rfl, rfl⟩, ?_⟩ <;> funext i <;> by_cases hi : i = q <;> simp [hi]

theorem sameShape_setNode {n n' : LinkedHNode K D} (hn : h.nodes o = some n)
    (hsame : n'.toHNode = n.toHNode) : SameShape h (h.setNode o n') where
  contents := by
    funext i
    by_cases hi : i = o
    · simp [contents, setNode, hi, hn, hsame]
    · simp [contents, setNode, hi]
  lengths _ := rfl

theorem sameShape_setHead (h : HHeap K D) (q : ℕ × ℕ) (hd : HHead) :
    SameShape h (h.setHead q hd) where
  contents := rfl
  lengths a := by
    by_cases ha : a = q.1
    · simp [setHead, ha, Function.comp_def]
    · simp [setHead, ha]

theorem writeLink_ok {s : Place} (hs : h.HasPlace s) (link : Option ℕ) :
    ∃ h', h.writeLink s link = .ok h' ∧
      h'.links = ⟨h.links.toLinks.write s link, h.links.last⟩ ∧ SameShape h h' := by
  cases s with
  | first q =>
      obtain ⟨hd, hq⟩ := Option.isSome_iff_exists.1 hs
      refine ⟨h.setHead q { hd with tqhFirst := link }, ?_, ?_, sameShape_setHead ..⟩
      · rw [writeLink, head_eq hq]
        rfl
      · have hlast : h.links.last q = hd.tqhLast := by simp [links, hq]
        rw [links_setHead hs, ← hlast, Function.update_eq_self]
        rfl
  | next o =>
      obtain ⟨n, hn⟩ := Option.isSome_iff_exists.1 hs
      refine ⟨h.setNode o { n with tqeNext := link }, ?_, ?_, sameShape_setNode hn rfl⟩
      · rw [writeLink, node_eq hn]
        rfl
      · have hprev : h.links.prev o = n.tqePrev := by simp [links, hn]
        rw [links_setNode, ← hprev, Function.update_eq_self]
        rfl

theorem setPrev_ok (ho : (h.nodes o).isSome) (s : Place) :
    ∃ n, h.node o = .ok n ∧
      (h.setNode o { n with tqePrev := s }).links = ⟨h.links.toLinks.setPrev o s, h.links.last⟩ ∧
      SameShape h (h.setNode o { n with tqePrev := s }) := by
  obtain ⟨n, hn⟩ := Option.isSome_iff_exists.1 ho
  have hnext : h.links.next o = n.tqeNext := by simp [links, hn]
  refine ⟨n, node_eq hn, ?_, sameShape_setNode hn rfl⟩
  rw [links_setNode, ← hnext, Function.update_eq_self]
  rfl

theorem setLast_ok (hq : (h.head? q).isSome) (s : Place) :
    ∃ hd, h.head q = .ok hd ∧ hd.tqhLast = h.links.last q ∧
      (h.setHead q { hd with tqhLast := s }).links =
        ⟨h.links.toLinks, Function.update h.links.last q s⟩ ∧
      SameShape h (h.setHead q { hd with tqhLast := s }) := by
  obtain ⟨hd, hhd⟩ := Option.isSome_iff_exists.1 hq
  have hfirst : h.links.first q = hd.tqhFirst := by simp [links, hhd]
  refine ⟨hd, head_eq hhd, by simp [links, hhd], ?_, sameShape_setHead ..⟩
  rw [links_setHead hq, ← hfirst, Function.update_eq_self]

/-! ## The macros -/

theorem insertTail_ok (ho : (h.nodes o).isSome) (hq : (h.head? q).isSome)
    (hlast : h.HasPlace (h.links.last q)) :
    ∃ h', h.insertTail q o = .ok h' ∧ h'.links = h.links.insertTail q o ∧ SameShape h h' := by
  obtain ⟨n, hn⟩ := Option.isSome_iff_exists.1 ho
  obtain ⟨h₁, hrun₁, hlinks₁, hs₁⟩ := writeLink_ok (s := .next o) ho none
  have hset₁ : h₁ = h.setNode o { n with tqeNext := none } := by
    rw [writeLink, node_eq hn] at hrun₁
    exact (Except.ok.inj hrun₁).symm
  obtain ⟨hd, hhd, hhdLast, -, -⟩ := setLast_ok ((hs₁.isSome_head q).trans hq) (.next o)
  obtain ⟨n₁, hn₁, hlinks₂, hs₂⟩ := setPrev_ok ((hs₁.isSome_node o).trans ho) hd.tqhLast
  have hl : hd.tqhLast = h.links.last q := by rw [hhdLast, hlinks₁]
  have hs₁₂ := hs₁.trans hs₂
  have hplace : (h₁.setNode o { n₁ with tqePrev := hd.tqhLast }).HasPlace hd.tqhLast := by
    rw [hl] at hs₁₂ ⊢
    exact hs₁₂.hasPlace hlast
  obtain ⟨h₃, hrun₃, hlinks₃, hs₃⟩ := writeLink_ok hplace (some o)
  have hs₁₃ := hs₁₂.trans hs₃
  obtain ⟨hd₃, hhd₃, -, hlinks₄, hs₄⟩ := setLast_ok ((hs₁₃.isSome_head q).trans hq) (.next o)
  refine ⟨_, ?_, ?_, hs₁₃.trans hs₄⟩
  · rw [insertTail, node_eq hn, Exec.ok_bind, ← hset₁]
    dsimp only
    rw [hhd, Exec.ok_bind, hn₁, Exec.ok_bind, hrun₃, Exec.ok_bind, hhd₃]
    rfl
  · rw [hlinks₄, hlinks₃, hlinks₂, hlinks₁, hl]
    rfl

theorem remove_ok (ho : (h.nodes o).isSome) (hq : (h.head? q).isSome)
    (hself : h.links.next o ≠ some o)
    (hnext : ∀ m, h.links.next o = some m → (h.nodes m).isSome)
    (hprev : h.HasPlace (h.links.prev o)) :
    ∃ h', h.remove q o = .ok h' ∧ h'.links = h.links.remove q o ∧ SameShape h h' := by
  obtain ⟨n, hn⟩ := Option.isSome_iff_exists.1 ho
  have hlink : n.tqeNext = h.links.next o := by simp [links, hn]
  have hplace : n.tqePrev = h.links.prev o := by simp [links, hn]
  -- what comes after the node
  have hrelink : ∃ h₁, h.relinkNext q (h.links.next o) (h.links.prev o) = .ok h₁ ∧
      h₁.links = ⟨h.links.toLinks.relink (h.links.next o) (h.links.prev o),
        if h.links.next o = none then Function.update h.links.last q (h.links.prev o)
        else h.links.last⟩ ∧ SameShape h h₁ := by
    cases hm : h.links.next o with
    | none =>
        obtain ⟨hd, hhd, -, hlinks, hs⟩ := setLast_ok hq (h.links.prev o)
        exact ⟨_, by rw [relinkNext, hhd]; rfl, hlinks, hs⟩
    | some m =>
        obtain ⟨k, hk, hlinks, hs⟩ := setPrev_ok (hnext m hm) (h.links.prev o)
        exact ⟨_, by rw [relinkNext, hk]; rfl, hlinks, hs⟩
  obtain ⟨h₁, hrun₁, hlinks₁, hs₁⟩ := hrelink
  obtain ⟨n₁, hn₁⟩ := Option.isSome_iff_exists.1 ((hs₁.isSome_node o).trans ho)
  have hlink₁ : n₁.tqeNext = h.links.next o := by
    calc n₁.tqeNext = h₁.links.next o := by simp [links, hn₁]
      _ = h.links.next o := by
        rw [hlinks₁]
        exact @Links.read_relink _ _ _ h.links.toLinks _ _ (.next o)
  have hplace₁ : n₁.tqePrev = h.links.prev o := by
    calc n₁.tqePrev = h₁.links.prev o := by simp [links, hn₁]
      _ = h.links.prev o := by
        rw [hlinks₁]
        exact Links.relink_prev_of_ne _ _ hself
  obtain ⟨h₂, hrun₂, hlinks₂, hs₂⟩ := writeLink_ok (hs₁.hasPlace hprev) (h.links.next o)
  refine ⟨h₂, ?_, ?_, hs₁.trans hs₂⟩
  · rw [remove, node_eq hn, Exec.ok_bind, hlink, hplace, hrun₁, Exec.ok_bind, node_eq hn₁,
      Exec.ok_bind, hlink₁, hplace₁, hrun₂]
  · rw [hlinks₂, hlinks₁]
    rfl

/-! ## What a memory spells -/

/-- Rows of chains, one for each array of heads that is allocated. -/
abbrev Rows (K D : Type) := ℕ → Option (List (List (HNode K D)))

/-- The chain of the head `q`. -/
def chainAt (rows : Rows K D) (q : ℕ × ℕ) : List (HNode K D) :=
  ((rows q.1).bind (·[q.2]?)).getD []

/-- The arrays of heads are those of `rows`, the nodes in `lists` spell their chains, and besides
these nodes only the loose one is allocated. -/
structure StoresAt (h : HHeap K D) (lists : ℕ × ℕ → List ℕ) (rows : Rows K D)
    (loose : Option ℕ) : Prop where
  holds : h.links.Holds lists
  nodes : ∀ o, (h.nodes o).isSome ↔ (∃ q, o ∈ lists q) ∨ loose = some o
  loose : ∀ o, loose = some o → ∀ q, o ∉ lists q
  small : ∀ o, (h.nodes o).isSome → o < sizeModulus
  lengths : ∀ a, (h.arrays a).map List.length = (rows a).map List.length
  spelled : ∀ q, (lists q).map h.contents = (chainAt rows q).map some

/-- The same for some lists of nodes. -/
def Stores (h : HHeap K D) (rows : Rows K D) (loose : Option ℕ) : Prop :=
  ∃ lists, StoresAt h lists rows loose

section Rows

variable {rows : Rows K D} {row : List (List (HNode K D))} {a i : ℕ}

theorem chainAt_eq (hrow : rows a = some row) : chainAt rows (a, i) = row.getD i [] := by
  simp [chainAt, hrow]

theorem chainAt_modify (hrow : rows a = some row) (hi : i < row.length)
    (f : List (HNode K D) → List (HNode K D)) :
    chainAt (Function.update rows a (some (row.modify i f))) =
      Function.update (chainAt rows) (a, i) (f (chainAt rows (a, i))) := by
  funext q
  obtain ⟨b, j⟩ := q
  by_cases hb : b = a
  · subst hb
    by_cases hj : j = i
    · subst hj
      rw [Function.update_self, chainAt_eq (Function.update_self ..), chainAt_eq hrow]
      simp [hi]
    · have hne : (b, j) ≠ (b, i) := fun heq ↦ hj (Prod.ext_iff.1 heq).2
      rw [Function.update_of_ne hne, chainAt_eq (Function.update_self ..), chainAt_eq hrow,
        List.getD_eq_getElem?_getD, List.getD_eq_getElem?_getD,
        List.getElem?_modify_ne _ _ (Ne.symm hj)]
  · have hne : (b, j) ≠ (a, i) := fun heq ↦ hb (Prod.ext_iff.1 heq).1
    rw [Function.update_of_ne hne]
    simp [chainAt, hb]

theorem chainAt_update (hold : ∀ i, chainAt rows (a, i) = [])
    {new : Option (List (List (HNode K D)))}
    (hnew : ∀ row, new = some row → ∀ chain ∈ row, chain = []) :
    chainAt (Function.update rows a new) = chainAt rows := by
  funext q
  obtain ⟨b, j⟩ := q
  by_cases hb : b = a
  · subst hb
    rw [hold]
    cases new with
    | none => simp [chainAt]
    | some row =>
        rw [chainAt_eq (Function.update_self ..), List.getD_eq_getElem?_getD]
        cases hget : row[j]? with
        | none => rfl
        | some chain => exact hnew row rfl chain (List.mem_of_getElem? hget)
  · simp [chainAt, hb]

end Rows

namespace StoresAt

variable {lists : ℕ × ℕ → List ℕ} {rows : Rows K D} {row : List (List (HNode K D))} {a i : ℕ}
  {loose : Option ℕ} {n : HNode K D}

theorem isSome_of_mem (hs : StoresAt h lists rows loose) (ho : o ∈ lists q) :
    (h.nodes o).isSome := (hs.nodes o).2 (.inl ⟨q, ho⟩)

theorem isSome_head (hs : StoresAt h lists rows loose) (hrow : rows a = some row)
    (hi : i < row.length) : (h.head? (a, i)).isSome := by
  have hlen := hs.lengths a
  rw [hrow] at hlen
  obtain ⟨heads, hheads, hsame⟩ : ∃ heads, h.arrays a = some heads ∧
      heads.length = row.length := by simpa using hlen
  simp [head?, hheads, hsame, hi]

theorem lists_eq_nil (hs : StoresAt h lists rows loose) (hq : chainAt rows q = []) :
    lists q = [] := by
  have hspelled := hs.spelled q
  rw [hq] at hspelled
  exact List.map_eq_nil_iff.1 hspelled

theorem hasPlace_last (hs : StoresAt h lists rows loose) (hq : (h.head? q).isSome) :
    h.HasPlace (h.links.last q) := by
  rcases hs.holds.last_eq_or_mem q with hlast | ⟨m, hm, hlast⟩
  · rw [hlast]
    exact hq
  · rw [hlast]
    exact hs.isSome_of_mem hm

theorem length_le (hs : StoresAt h lists rows loose) (q : ℕ × ℕ) :
    (lists q).length ≤ sizeModulus :=
  Links.length_le_of_lt (hs.holds.links.nodup q) fun _ ho ↦ hs.small _ (hs.isSome_of_mem ho)

theorem lengths_modify (hlen : ∀ b, (h.arrays b).map List.length = (rows b).map List.length)
    (hrow : rows a = some row) (f : List (HNode K D) → List (HNode K D)) (b : ℕ) :
    (h.arrays b).map List.length =
      (Function.update rows a (some (row.modify i f)) b).map List.length := by
  rw [hlen b]
  by_cases hb : b = a
  · rw [hb, Function.update_self, hrow, Option.map_some, Option.map_some, List.length_modify]
  · rw [Function.update_of_ne hb]

/-- Hanging the loose node onto the end of a chain. -/
theorem insertTail (hs : StoresAt h lists rows (some o)) (hn : h.contents o = some n)
    (hrow : rows a = some row) (hi : i < row.length) :
    ∃ h', h.insertTail (a, i) o = .ok h' ∧
      Stores h' (Function.update rows a (some (row.modify i (· ++ [n])))) none := by
  have hq := hs.isSome_head hrow hi
  have hfresh := hs.loose o rfl
  obtain ⟨h', hrun, hlinks, hshape⟩ := insertTail_ok ((hs.nodes o).2 (.inr rfl)) hq
    (hs.hasPlace_last hq)
  refine ⟨h', hrun, _, hlinks ▸ hs.holds.insertTail hfresh, fun o' ↦ ?_, ?_, ?_, ?_, fun q ↦ ?_⟩
  · rw [hshape.isSome_node, hs.nodes]
    constructor
    · rintro (⟨q, ho'⟩ | heq)
      · by_cases hqq : q = (a, i)
        · refine .inl ⟨(a, i), ?_⟩
          rw [Function.update_self]
          exact List.mem_append_left _ (hqq ▸ ho')
        · exact .inl ⟨q, by rwa [Function.update_of_ne hqq]⟩
      · refine .inl ⟨(a, i), ?_⟩
        rw [Function.update_self, Option.some.inj heq]
        exact List.mem_append_right _ (List.mem_singleton_self o')
    · rintro (⟨q, ho'⟩ | heq)
      · by_cases hqq : q = (a, i)
        · rw [hqq, Function.update_self] at ho'
          rcases List.mem_append.1 ho' with ho' | ho'
          · exact .inl ⟨_, ho'⟩
          · exact .inr (congrArg some (List.mem_singleton.1 ho').symm)
        · rw [Function.update_of_ne hqq] at ho'
          exact .inl ⟨q, ho'⟩
      · cases heq
  · exact fun _ heq ↦ by cases heq
  · exact fun o' ho' ↦ hs.small o' ((hshape.isSome_node o').symm.trans ho')
  · exact fun b ↦ (hshape.lengths b).trans (lengths_modify hs.lengths hrow _ b)
  · rw [hshape.contents, chainAt_modify hrow hi]
    by_cases hqq : q = (a, i)
    · rw [hqq, Function.update_self, Function.update_self, List.map_append, List.map_append,
        hs.spelled]
      simp [hn]
    · rw [Function.update_of_ne hqq, Function.update_of_ne hqq]
      exact hs.spelled q

/-- Taking a node off its chain, which becomes what the other nodes spell. -/
theorem remove (hs : StoresAt h lists rows none) (ho : o ∈ lists (a, i)) (hrow : rows a = some row)
    (hi : i < row.length) (f : List (HNode K D) → List (HNode K D))
    (hf : ((lists (a, i)).erase o).map h.contents = (f (chainAt rows (a, i))).map some) :
    ∃ h', h.remove (a, i) o = .ok h' ∧ h'.contents = h.contents ∧
      Stores h' (Function.update rows a (some (row.modify i f))) (some o) := by
  have hlinked := hs.holds.links.linked (a, i)
  have hnodup := hs.holds.links.nodup (a, i)
  have hprev : h.HasPlace (h.links.prev o) := by
    rcases hlinked.prev_mem ho with hp | ⟨m, hm, hp⟩
    · rw [hp]
      exact hs.isSome_head hrow hi
    · rw [hp]
      exact hs.isSome_of_mem hm
  obtain ⟨h', hrun, hlinks, hshape⟩ := remove_ok (hs.isSome_of_mem ho) (hs.isSome_head hrow hi)
    (hlinked.next_ne_self hnodup ho)
    (fun m hm ↦ hs.isSome_of_mem (List.mem_of_mem_tail (hlinked.next_mem ho hm))) hprev
  have hother : ∀ q, q ≠ (a, i) → o ∉ lists q := fun q hqq hmem ↦
    hs.holds.links.apart q (a, i) hqq hmem ho
  refine ⟨h', hrun, hshape.contents, _, hlinks ▸ hs.holds.remove ho, fun o' ↦ ?_, ?_, ?_, ?_,
    fun q ↦ ?_⟩
  · rw [hshape.isSome_node, hs.nodes]
    constructor
    · rintro (⟨q, ho'⟩ | heq)
      · by_cases hoo : o = o'
        · exact .inr (congrArg some hoo)
        · exact .inl ⟨q, (List.mem_erase_of_ne (Ne.symm hoo)).2 ho'⟩
      · cases heq
    · rintro (⟨q, ho'⟩ | heq)
      · exact .inl ⟨q, List.mem_of_mem_erase ho'⟩
      · exact .inl ⟨(a, i), Option.some.inj heq ▸ ho⟩
  · intro o' heq q
    rw [← Option.some.inj heq]
    exact (hs.holds.links.nodup q).not_mem_erase
  · exact fun o' ho' ↦ hs.small o' ((hshape.isSome_node o').symm.trans ho')
  · exact fun b ↦ (hshape.lengths b).trans (lengths_modify hs.lengths hrow _ b)
  · rw [hshape.contents, chainAt_modify hrow hi]
    by_cases hqq : q = (a, i)
    · rw [hqq, Function.update_self]
      exact hf
    · rw [Function.update_of_ne hqq, List.erase_of_not_mem (hother q hqq)]
      exact hs.spelled q

end StoresAt

/-! ## Allocation -/

namespace Stores

variable {rows : Rows K D} {row : List (List (HNode K D))} {a bytes size : ℕ} {loose : Option ℕ}

/-- A new node is loose. -/
theorem mallocNode (hs : Stores h rows none) (hfree : h.nodes o = none) (ho : o < sizeModulus)
    (n : LinkedHNode K D) : Stores (h.setNode o n) rows (some o) := by
  obtain ⟨lists, hs⟩ := hs
  have hfresh : ∀ q, o ∉ lists q := fun q hmem ↦ by
    have hsome := hs.isSome_of_mem hmem
    rw [hfree] at hsome
    cases hsome
  have hother : ∀ q, ∀ o' ∈ lists q, o' ≠ o := fun q o' ho' heq ↦ hfresh q (heq ▸ ho')
  refine ⟨lists, ⟨?_, ?_⟩, fun o' ↦ ?_, fun o' heq q ↦ ?_, fun o' ho' ↦ ?_, hs.lengths,
    fun q ↦ ?_⟩
  · rw [links_setNode]
    exact hs.holds.links.congr rfl
      (fun q o' ho' ↦ Function.update_of_ne (hother q o' ho') ..)
      fun q o' ho' ↦ Function.update_of_ne (hother q o' ho') ..
  · rw [links_setNode]
    exact hs.holds.last
  · by_cases hoo : o' = o
    · simp [setNode, hoo]
    · have hold := hs.nodes o'
      simp only [setNode, Function.update_of_ne hoo, hold, Option.some.injEq, Ne.symm hoo]
      simp
  · exact Option.some.inj heq ▸ hfresh q
  · by_cases hoo : o' = o
    · exact hoo ▸ ho
    · simp only [setNode, Function.update_of_ne hoo] at ho'
      exact hs.small o' ho'
  · rw [← hs.spelled q]
    refine List.map_congr_left fun o' ho' ↦ ?_
    simp [contents, setNode, hother q o' ho']

theorem freeNode (hs : Stores h rows (some o)) :
    ∃ h', h.freeNode o = .ok h' ∧ Stores h' rows none := by
  obtain ⟨lists, hs⟩ := hs
  have hfresh := hs.loose o rfl
  have hother : ∀ q, ∀ o' ∈ lists q, o' ≠ o := fun q o' ho' heq ↦ hfresh q (heq ▸ ho')
  obtain ⟨n, hn⟩ := Option.isSome_iff_exists.1 ((hs.nodes o).2 (.inr rfl))
  refine ⟨{ h with nodes := Function.update h.nodes o none },
    by rw [HHeap.freeNode, node_eq hn]; rfl, lists, ⟨?_, hs.holds.last⟩, fun o' ↦ ?_,
    fun _ heq ↦ (Option.some_ne_none _ heq.symm).elim, fun o' ho' ↦ ?_, hs.lengths, fun q ↦ ?_⟩
  · exact hs.holds.links.congr rfl (fun q o' ho' ↦ by simp [links, hother q o' ho'])
      fun q o' ho' ↦ by simp [links, hother q o' ho']
  · by_cases hoo : o' = o
    · have hnot : ¬ ∃ q, o ∈ lists q := fun ⟨q, hmem⟩ ↦ hfresh q hmem
      simp [hoo, hnot]
    · have hold := hs.nodes o'
      simp only [Function.update_of_ne hoo, hold, Option.some.injEq, Ne.symm hoo]
      simp
  · by_cases hoo : o' = o
    · simp [hoo] at ho'
    · simp only [Function.update_of_ne hoo] at ho'
      exact hs.small o' ho'
  · rw [← hs.spelled q]
    refine List.map_congr_left fun o' ho' ↦ ?_
    simp [contents, hother q o' ho']

/-- A new array of heads without nodes. -/
theorem initHeads (hs : Stores h rows loose) (hfree : h.arrays a = none)
    (hfits : size * sizeofHhead ≤ bytes) :
    ∃ h', h.initHeads a bytes size = .ok h' ∧
      Stores h' (Function.update rows a (some (List.replicate size []))) loose := by
  obtain ⟨lists, hs⟩ := hs
  have hnone : rows a = none := by
    have hlen := hs.lengths a
    rw [hfree] at hlen
    simpa using hlen.symm
  have hrows : chainAt (Function.update rows a (some (List.replicate size []))) = chainAt rows := by
    refine chainAt_update (fun i ↦ by simp [chainAt, hnone]) fun row hrow chain hchain ↦ ?_
    rw [← Option.some.inj hrow] at hchain
    exact List.eq_of_mem_replicate hchain
  refine ⟨_, if_pos hfits, lists, ?_, hs.nodes, hs.loose, hs.small, fun b ↦ ?_, fun q ↦ ?_⟩
  · refine (congrArg (TailLinks.Holds · lists) ?_).mpr hs.holds
    simp only [links, head?, TailLinks.mk.injEq, Links.mk.injEq, and_true]
    constructor
    · funext q
      by_cases hq : q.1 = a
      · by_cases hlt : q.2 < size <;> simp [hq, hfree, hlt]
      · simp [hq]
    · funext q
      by_cases hq : q.1 = a
      · have hq' : q = (a, q.2) := Prod.ext hq rfl
        rw [hq']
        by_cases hlt : q.2 < size <;> simp [hfree, hlt]
      · simp [hq]
  · by_cases hb : b = a
    · simp [hb]
    · simp only [Function.update_of_ne hb]
      exact hs.lengths b
  · rw [hrows]
    exact hs.spelled q

theorem freeHeads (hs : Stores h rows loose) (hrow : rows a = some row)
    (hempty : ∀ chain ∈ row, chain = []) :
    ∃ h', h.freeHeads a = .ok h' ∧ Stores h' (Function.update rows a none) loose := by
  obtain ⟨lists, hs⟩ := hs
  have hchain : ∀ i, chainAt rows (a, i) = [] := fun i ↦ by
    rw [chainAt_eq hrow, List.getD_eq_getElem?_getD]
    cases hget : row[i]? with
    | none => rfl
    | some chain => exact hempty chain (List.mem_of_getElem? hget)
  have hrows : chainAt (Function.update rows a none) = chainAt rows :=
    chainAt_update hchain fun _ hnone ↦ by cases hnone
  have hlist : ∀ i, lists (a, i) = [] := fun i ↦ hs.lists_eq_nil (hchain i)
  obtain ⟨heads, hheads⟩ : ∃ heads, h.arrays a = some heads := by
    have hlen := hs.lengths a
    rw [hrow] at hlen
    obtain ⟨heads, hheads, _⟩ := Option.map_eq_some_iff.1 hlen
    exact ⟨heads, hheads⟩
  have hfirst : ∀ q, q.1 = a → h.links.first q = none := fun q hq ↦ by
    have hread := (hs.holds.links.linked q).read_eq
    rw [show q = (a, q.2) from Prod.ext hq rfl, hlist] at hread
    rw [show q = (a, q.2) from Prod.ext hq rfl]
    exact hread
  have hlast : ∀ q, q.1 = a → h.links.last q = .first q := fun q hq ↦ by
    rw [hs.holds.last q, show q = (a, q.2) from Prod.ext hq rfl, hlist]
    rfl
  refine ⟨{ h with arrays := Function.update h.arrays a none }, by rw [HHeap.freeHeads, hheads],
    lists, ?_, hs.nodes, hs.loose, hs.small, fun b ↦ ?_, fun q ↦ ?_⟩
  · have hlinks : ({ h with arrays := Function.update h.arrays a none } : HHeap K D).links =
        h.links := by
      simp only [links, head?, TailLinks.mk.injEq, Links.mk.injEq, and_true]
      constructor
      · funext q
        by_cases hq : q.1 = a
        · simpa [links, head?, hq] using (hfirst q hq).symm
        · simp [hq]
      · funext q
        by_cases hq : q.1 = a
        · simpa [links, head?, hq] using (hlast q hq).symm
        · simp [hq]
    rw [hlinks]
    exact hs.holds
  · by_cases hb : b = a
    · simp [hb]
    · simp only [Function.update_of_ne hb]
      exact hs.lengths b
  · rw [hrows]
    exact hs.spelled q

end Stores

end HHeap

end Experimentation.HashTable
