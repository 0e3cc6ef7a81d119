import Experimentation.HashTable.Teardown
import Experimentation.StateMachine.Built
import Experimentation.StateMachine.Queue
import Experimentation.StateMachine.Reachability

/-!
# Taking a state machine apart

`fsm_free` frees the states that the iterator yields with all that belongs to them but their keys,
then the keys of all entries of the table of states, the table, the pending events, and the machine.
A state that is registered twice has its key freed twice.  A state that the iterator misses loses
its key and nothing else.
-/

namespace Experimentation.StateMachine

open Semantics HashTable

variable {A D : Type}

/-- The blocks of a hash table, with those of its keys and data. -/
inductive TableBlock
  | table
  | heads
  | node (i j : ℕ)
  | key (i j : ℕ)
  | data (i j : ℕ)
deriving DecidableEq, Repr

/-- The block is one of the table. -/
def TableBlock.Of {K D : Type} (t : HTable K D) : TableBlock → Prop
  | .table | .heads => True
  | .node i j | .key i j => ∃ n, (i, n, j) ∈ slots t.htSize t.htTable
  | .data i j => ∃ n, (i, n, j) ∈ slots t.htSize t.htTable ∧ n.hnData ≠ none

/-- The blocks that a machine and its states are made of. -/
inductive Block
  | fsm
  | mobj
  | sttable (b : TableBlock)
  | pqtable
  | pqnode (i j : ℕ)
  | pqdata (i j : ℕ)
  | state (s : StateId)
  | stKey (s : StateId)
  | evttable (s : StateId) (b : TableBlock)
deriving DecidableEq, Repr

/-- The state that the block is freed with by `state_free`. -/
def Block.owner : Block → Option StateId
  | .state s | .evttable s _ => some s
  | _ => none

/-- The place that the block is named after. -/
def Block.place : Block → Option (ℕ × ℕ)
  | .sttable (.node i j) | .pqnode i j | .pqdata i j | .evttable _ (.node i j)
  | .evttable _ (.key i j) | .evttable _ (.data i j) => some (i, j)
  | _ => none

/-- The blocks of the event table of a state. -/
def eventNames (s : StateId) : TableNames UInt32 (Event A) Block where
  table := .evttable s .table
  heads := .evttable s .heads
  node i j := .evttable s (.node i j)
  key i j _ := .evttable s (.key i j)
  data i j n := n.hnData.map fun _ ↦ .evttable s (.data i j)
  apart := by
    rintro i j n b (rfl | hdata)
    · simp
    · obtain ⟨_, _, rfl⟩ := Option.map_eq_some_iff.1 hdata
      simp
  node_ne := by simp

@[simp]
theorem eventNames_table (s : StateId) :
    (eventNames s : TableNames UInt32 (Event A) Block).table = .evttable s .table := rfl

@[simp]
theorem eventNames_heads (s : StateId) :
    (eventNames s : TableNames UInt32 (Event A) Block).heads = .evttable s .heads := rfl

@[simp]
theorem eventNames_node (s : StateId) (i j : ℕ) :
    (eventNames s : TableNames UInt32 (Event A) Block).node i j = .evttable s (.node i j) := rfl

/-- The blocks of the table of states.  Keys are pointers into the states. -/
def stateNames : TableNames KeyRef StateId Block where
  table := .sttable .table
  heads := .sttable .heads
  node i j := .sttable (.node i j)
  key i j n :=
    match n.hnKey with
    | .stKey s => .stKey s
    | .caller _ => .sttable (.key i j)
  data _ _ n := n.hnData.map .state
  apart := by
    rintro i j n b (rfl | hdata)
    · split <;> simp
    · obtain ⟨_, _, rfl⟩ := Option.map_eq_some_iff.1 hdata
      simp
  node_ne := by simp

@[simp]
theorem stateNames_table : stateNames.table = .sttable .table := rfl

@[simp]
theorem stateNames_heads : stateNames.heads = .sttable .heads := rfl

@[simp]
theorem stateNames_node (i j : ℕ) : stateNames.node i j = .sttable (.node i j) := rfl

def stateFree (mem : StateMem A) (s : StateId) (freed : List Block) : Exec (List Block) := do
  let freed ← lookAt (.state s) freed
  let st ← loadState mem s
  let freed ← htableFreeAllObj (eventNames s) st.evttable (htFreekey ||| htFreedata) freed
  let freed ← htableFree (eventNames s) st.evttable freed
  let freed ← freeBlock (.evttable s .table) freed
  freeBlock (.state s) freed

/-- The body of the loop of `fsm_free` over the states. -/
def freeState (mem : StateMem A) (freed : List Block) (sit : HIterator KeyRef StateId) :
    Exec (List Block) := do
  match ← htableIteratorGetData sit with
  | none => throw .badPointer
  | some s => stateFree mem s freed

/-- The body of the loop of `fsm_free` along the queue at `i`, on its `j`-th node. -/
def freePqnode (i : ℕ) (x : PqNode D × ℕ) (freed : List Block) : Exec (List Block) := do
  let freed ← lookAt (.pqnode i x.2) freed
  let freed ← freeBlock (.pqdata i x.2) freed
  freeBlock (.pqnode i x.2) freed

/-- The loop of `fsm_free` along the queue at `i`. -/
def freeQueue (fsm : Fsm D) (i : ℕ) (freed : List Block) : Exec (List Block) := do
  let freed ← lookAt .pqtable freed
  let queue ← queueAt fsm.pqtable i
  queue.zipIdx.foldlM (fun freed x ↦ freePqnode i x freed) freed

/-- The loop of `fsm_free` over the queues. -/
def freePending (fsm : Fsm D) (freed : List Block) : Exec (List Block) :=
  (List.range fsm.nqueues.toNat).foldlM (fun freed i ↦ freeQueue fsm i freed) freed

/-- What `fsm_free` does.  No block of the table of states is freed by the loop over the states. -/
def freeMachine (w : World A D) (freed : List Block) : Exec (List Block) := do
  let freed ← w.fsm.sttable.forEachElm (freeState w.states) freed
  let freed ← htableFreeAllObj stateNames w.fsm.sttable htFreekey freed
  let freed ← htableFree stateNames w.fsm.sttable freed
  let freed ← freeBlock (.sttable .table) freed
  let freed ← freePending w.fsm freed
  let freed ← freeBlock .pqtable freed
  let freed ← freeBlock .mobj freed
  freeBlock .fsm freed

/-- `fsm_free`, with the blocks that it frees, the last one first. -/
def fsmFree (w : World A D) : Exec (FsmRet × List Block) := do
  let freed ← freeMachine w []
  return (.ok, freed)

/-! ## The blocks that are freed -/

/-- The blocks that are freed with a state. -/
def stateBlocks (mem : StateMem A) (s : StateId) : List Block :=
  match mem s with
  | none => []
  | some st =>
      (slots st.evttable.htSize st.evttable.htTable).flatMap
          ((eventNames s).content (htFreekey ||| htFreedata)) ++
        ((eventNames s).nodes st.evttable ++ [.evttable s .heads] ++
          [.evttable s .table, .state s])

/-- The blocks of the pending events. -/
def pendingBlocks (fsm : Fsm D) : List Block :=
  (slots fsm.nqueues.toNat fsm.pqtable).flatMap fun x ↦ [.pqdata x.1 x.2.2, .pqnode x.1 x.2.2]

/-- The blocks that are freed after the states and their keys. -/
def machineBlocks (fsm : Fsm D) : List Block :=
  stateNames.nodes fsm.sttable ++ [.sttable .heads] ++
    (.sttable .table :: (pendingBlocks fsm ++ [.pqtable, .mobj, .fsm]))

/-- The blocks that `fsm_free` frees, in their order. -/
def World.releasedBlocks (w : World A D) : List Block :=
  w.sweepOrder.flatMap (stateBlocks w.states) ++ (w.registered.map .stKey ++ machineBlocks w.fsm)

theorem stateFree_releases {mem : StateMem A} {s : StateId} {st : StateObj A}
    (hst : mem s = some st) (hlength : st.evttable.htTable.length = st.evttable.htSize) :
    Releases (stateFree mem s) [] (stateBlocks mem s) := by
  have hcontent := htableFreeAllObj_releases (eventNames s) hlength (htFreekey ||| htFreedata)
  have hnodes := htableFree_releases (eventNames s) hlength
  have hlast := (Releases.freeBlock (Block.evttable s .table)).bind (.freeBlock (.state s)) nofun
  have hrest := hcontent.bind (hnodes.bind hlast nofun) fun b hb hmem ↦ by
    obtain ⟨x, _, hx⟩ := List.mem_flatMap.1 hmem
    exact absurd (by simpa using hb) (TableNames.apart_of_mem hx).1
  have hall := (Releases.lookAt (Block.state s)).bind hrest nofun
  have hrun (freed : List Block) : stateFree mem s freed = (do
      let freed ← lookAt (.state s) freed
      let freed ← htableFreeAllObj (eventNames s) st.evttable (htFreekey ||| htFreedata) freed
      let freed ← htableFree (eventNames s) st.evttable freed
      let freed ← freeBlock (.evttable s .table) freed
      freeBlock (.state s) freed) := by
    simp only [stateFree, loadState_eq hst, Exec.ok_bind]
  rw [stateBlocks, hst]
  apply (hall.congr hrun).own
  simp
  tauto

theorem freePqnode_releases (i : ℕ) (x : PqNode D × ℕ) :
    Releases (freePqnode i x) [] [.pqdata i x.2, .pqnode i x.2] := by
  have hfree := (Releases.freeBlock (Block.pqdata i x.2)).bind (.freeBlock (.pqnode i x.2)) nofun
  apply ((Releases.lookAt (Block.pqnode i x.2)).bind hfree nofun).own
  simp

theorem freePending_releases {fsm : Fsm D} (hlength : fsm.pqtable.length = fsm.nqueues.toNat) :
    Releases (freePending fsm) [.pqtable] (pendingBlocks fsm) := by
  have hturn (i : ℕ) (hi : i < fsm.nqueues.toNat) {ts cs : List Block}
      (hrow : Releases (fun freed ↦ (fsm.pqtable.getD i []).zipIdx.foldlM
        (fun freed x ↦ freePqnode i x freed) freed) ts cs) :
      Releases (freeQueue fsm i) ([.pqtable] ++ ts) cs := by
    have hhead : queueAt fsm.pqtable i = .ok (fsm.pqtable.getD i []) := by
      rw [queueAt_eq_ok, List.getD_eq_getElem?_getD, List.getElem?_eq_getElem (hlength ▸ hi),
        Option.getD_some]
    unfold freeQueue
    rw [hhead]
    exact (Releases.lookAt _).bind hrow fun _ _ hb ↦ absurd hb List.not_mem_nil
  have hloop : Releases (freePending fsm)
      ([.pqtable] ++ (slots fsm.nqueues.toNat fsm.pqtable).flatMap fun _ ↦ [])
      (pendingBlocks fsm) := by
    apply Releases.foldlM_rows hturn freePqnode_releases
    · exact fun _ _ _ hb ↦ by cases hb
    · simp
  apply hloop.own
  simp

theorem hasNode_of_mem_yielded {t : HTable KeyRef StateId} {n : HNode KeyRef StateId}
    (hn : n ∈ yielded t.htTable) : t.HasNode n :=
  (yielded_sublist t.htTable).subset hn

theorem freeStates_releases {w : World A D} (haccess : Accessible w) (hentries : w.EntriesLoad) :
    Releases (fun freed ↦ w.fsm.sttable.forEachElm (freeState w.states) freed) []
      (w.sweepOrder.flatMap (stateBlocks w.states)) := by
  have hindexed := haccess.sttable.toIndexed
  have hloop : Releases (fun freed ↦ (yielded w.fsm.sttable.htTable).foldlM (fun freed n ↦
      freeState w.states freed ⟨0, [n]⟩) freed)
      ((yielded w.fsm.sttable.htTable).flatMap fun _ ↦ [])
      ((yielded w.fsm.sttable.htTable).flatMap fun n ↦
        n.hnData.toList.flatMap (stateBlocks w.states)) := by
    apply Releases.foldlM _ fun _ _ _ _ _ hb ↦ by cases hb
    intro n hn
    obtain ⟨s, rfl, hs⟩ := hentries n (hasNode_of_mem_yielded hn)
    obtain ⟨st, hst⟩ := Option.ne_none_iff_exists'.1 hs
    change Releases (stateFree w.states s) [] ([s].flatMap (stateBlocks w.states))
    rw [List.flatMap_singleton]
    exact stateFree_releases hst (haccess.evttable s st hst).length
  have hblocks : (yielded w.fsm.sttable.htTable).flatMap (fun n ↦
      n.hnData.toList.flatMap (stateBlocks w.states)) =
      w.sweepOrder.flatMap (stateBlocks w.states) := by
    rw [World.sweepOrder, List.filterMap_eq_flatMap_toList, List.flatMap_assoc]
  rw [hblocks] at hloop
  apply (hloop.congr fun freed ↦ ?_).own (by simp)
  exact forEachElm_eq hindexed.length hindexed.pos (fun _ _ _ _ ↦ rfl) freed

theorem flatMap_content_stateNames {w : World A D} (haccess : Accessible w)
    (hentries : w.EntriesLoad) :
    (slots w.fsm.sttable.htSize w.fsm.sttable.htTable).flatMap (stateNames.content htFreekey) =
      w.registered.map .stKey := by
  rw [← haccess.sttable.length]
  have hnodes := slots_map w.fsm.sttable.htTable
  have hcontent (x : ℕ × HNode KeyRef StateId × ℕ)
      (hx : x ∈ slots w.fsm.sttable.htTable.length w.fsm.sttable.htTable) :
      stateNames.content htFreekey x = x.2.1.hnData.toList.map .stKey := by
    have hnode : w.fsm.sttable.HasNode x.2.1 := by
      rw [HTable.HasNode, ← hnodes]
      exact List.mem_map_of_mem hx
    obtain ⟨s, heq, _⟩ := hentries x.2.1 hnode
    rw [TableNames.content, stateNames, heq]
    rfl
  rw [List.flatMap_congr hcontent, World.registered, List.filterMap_eq_flatMap_toList,
    List.map_flatMap, ← hnodes, List.flatMap_map]

theorem mem_content_eventNames {s : StateId} {x : ℕ × HNode UInt32 (Event A) × ℕ} {b : Block} :
    b ∈ (eventNames s).content (htFreekey ||| htFreedata) x ↔
      b = .evttable s (.key x.1 x.2.2) ∨
        x.2.1.hnData ≠ none ∧ b = .evttable s (.data x.1 x.2.2) := by
  have hkey : (htFreekey ||| htFreedata) &&& htFreekey ≠ 0 := by decide
  have hdata : (htFreekey ||| htFreedata) &&& htFreedata ≠ 0 := by decide
  rw [TableNames.content, if_pos hkey, if_pos hdata]
  cases hnone : x.2.1.hnData with
  | none => simp [eventNames, hnone]
  | some ev => simp [eventNames, hnone]

/-- The blocks that are freed with a state: its own, and those of its event table. -/
theorem mem_stateBlocks {mem : StateMem A} {s : StateId} {st : StateObj A} (hst : mem s = some st)
    {b : Block} : b ∈ stateBlocks mem s ↔
      b = .state s ∨ ∃ tb : TableBlock, tb.Of st.evttable ∧ b = .evttable s tb := by
  rw [stateBlocks, hst]
  simp only [List.mem_append, List.mem_flatMap, mem_content_eventNames, TableNames.nodes,
    List.mem_map, List.mem_cons, List.not_mem_nil, or_false]
  constructor
  · rintro (⟨x, hx, rfl | ⟨hdata, rfl⟩⟩ | (⟨x, hx, rfl⟩ | rfl) | rfl | rfl)
    · exact .inr ⟨.key _ _, ⟨x.2.1, hx⟩, rfl⟩
    · exact .inr ⟨.data _ _, ⟨x.2.1, hx, hdata⟩, rfl⟩
    · exact .inr ⟨.node _ _, ⟨x.2.1, hx⟩, rfl⟩
    · exact .inr ⟨.heads, trivial, rfl⟩
    · exact .inr ⟨.table, trivial, rfl⟩
    · exact .inl rfl
  · rintro (rfl | ⟨tb, htb, rfl⟩)
    · simp
    · cases tb with
      | table => simp
      | heads => simp
      | node i j =>
          obtain ⟨n, hn⟩ := htb
          exact .inr (.inl (.inl ⟨_, hn, rfl⟩))
      | key i j =>
          obtain ⟨n, hn⟩ := htb
          exact .inl ⟨_, hn, .inl rfl⟩
      | data i j =>
          obtain ⟨n, hn, hdata⟩ := htb
          exact .inl ⟨_, hn, .inr ⟨hdata, rfl⟩⟩

theorem mem_pendingBlocks {fsm : Fsm D} {b : Block} : b ∈ pendingBlocks fsm ↔
    ∃ i n j, (i, n, j) ∈ slots fsm.nqueues.toNat fsm.pqtable ∧
      (b = .pqdata i j ∨ b = .pqnode i j) := by
  simp [pendingBlocks]

theorem owner_of_mem_stateBlocks {mem : StateMem A} {s : StateId} {b : Block}
    (hb : b ∈ stateBlocks mem s) : b.owner = some s := by
  cases hst : mem s with
  | none =>
      rw [stateBlocks, hst] at hb
      cases hb
  | some st =>
      rcases (mem_stateBlocks hst).1 hb with rfl | ⟨tb, _, rfl⟩
      · rfl
      · rfl

theorem owner_of_mem_swept {w : World A D} {b : Block}
    (hb : b ∈ w.sweepOrder.flatMap (stateBlocks w.states)) :
    ∃ s ∈ w.sweepOrder, b.owner = some s := by
  obtain ⟨s, hs, hmem⟩ := List.mem_flatMap.1 hb
  exact ⟨s, hs, owner_of_mem_stateBlocks hmem⟩

theorem freeMachine_releases {w : World A D} (haccess : Accessible w) (hentries : w.EntriesLoad)
    (hqueues : w.fsm.pqtable.length = w.fsm.nqueues.toNat) :
    Releases (freeMachine w) [] w.releasedBlocks := by
  have hlength := haccess.sttable.length
  have hkeys := htableFreeAllObj_releases stateNames hlength htFreekey
  rw [flatMap_content_stateNames haccess hentries] at hkeys
  have hlast := (Releases.freeBlock Block.pqtable).bind
    ((Releases.freeBlock .mobj).bind (.freeBlock .fsm) nofun) nofun
  have hqueue := (freePending_releases hqueues).bind hlast nofun
  have htable := (Releases.freeBlock (Block.sttable .table)).bind hqueue (by simp)
  have hnodes := (htableFree_releases stateNames hlength).bind htable (by simp)
  have hrest : Releases _ [] _ := (hkeys.bind hnodes (by simp)).own (by simp; tauto)
  exact (freeStates_releases haccess hentries).bind hrest nofun

/-! ## No block twice -/

theorem nodup_nodes {K : Type} {names : TableNames K D Block} (t : HTable K D)
    (hplace : ∀ i j, (names.node i j).place = some (i, j)) : (names.nodes t).Nodup := by
  rw [TableNames.nodes_eq_flatMap]
  apply nodup_flatMap_slots Block.place fun x ↦ List.nodup_singleton _
  intro x b hb
  rw [List.mem_singleton.1 hb, hplace]

theorem nodup_stateBlocks (mem : StateMem A) (s : StateId) : (stateBlocks mem s).Nodup := by
  cases hst : mem s with
  | none =>
      rw [stateBlocks, hst]
      exact List.nodup_nil
  | some st =>
      rw [stateBlocks, hst]
      have hcontent : ((slots st.evttable.htSize st.evttable.htTable).flatMap
          ((eventNames s).content (htFreekey ||| htFreedata))).Nodup := by
        apply nodup_flatMap_slots Block.place
        · intro x
          cases hdata : x.2.1.hnData <;>
            simp [TableNames.content, eventNames, hdata, htFreekey, htFreedata]
        · intro x b hb
          rcases mem_content_eventNames.1 hb with rfl | ⟨_, rfl⟩
          · rfl
          · rfl
      have hnodes : ((eventNames s).nodes st.evttable).Nodup := nodup_nodes _ fun _ _ ↦ rfl
      have hfirst : ((eventNames s).nodes st.evttable ++ [Block.evttable s .heads]).Nodup := by
        apply hnodes.append (List.nodup_singleton _)
        intro b hb hlast
        obtain ⟨i, n, j, _, rfl⟩ := TableNames.mem_nodes.1 hb
        simp at hlast
      have hrest : ((eventNames s).nodes st.evttable ++ [Block.evttable s .heads] ++
          [Block.evttable s .table, .state s]).Nodup := by
        apply hfirst.append (by simp)
        intro b hb hlast
        rcases List.mem_append.1 hb with hnode | hheads
        · obtain ⟨i, n, j, _, rfl⟩ := TableNames.mem_nodes.1 hnode
          simp at hlast
        · rw [List.mem_singleton.1 hheads] at hlast
          simp at hlast
      apply hcontent.append hrest
      intro b hb hmem
      obtain ⟨x, _, hx⟩ := List.mem_flatMap.1 hb
      rcases mem_content_eventNames.1 hx with rfl | ⟨_, rfl⟩
      · simp [TableNames.mem_nodes] at hmem
      · simp [TableNames.mem_nodes] at hmem

theorem nodup_pendingBlocks (fsm : Fsm D) : (pendingBlocks fsm).Nodup := by
  apply nodup_flatMap_slots Block.place
  · simp
  · intro x b hb
    rcases List.mem_pair.1 hb with rfl | rfl
    · rfl
    · rfl

theorem nodup_machineBlocks (fsm : Fsm D) : (machineBlocks fsm).Nodup := by
  have hnodes : (stateNames.nodes fsm.sttable).Nodup := nodup_nodes _ fun _ _ ↦ rfl
  have hpending : (pendingBlocks fsm ++ [Block.pqtable, .mobj, .fsm]).Nodup := by
    apply (nodup_pendingBlocks fsm).append (by simp)
    intro b hb hlast
    obtain ⟨i, n, j, _, rfl | rfl⟩ := mem_pendingBlocks.1 hb
    · simp at hlast
    · simp at hlast
  have hfirst : (stateNames.nodes fsm.sttable ++ [Block.sttable .heads]).Nodup := by
    apply hnodes.append (List.nodup_singleton _)
    intro b hb hlast
    obtain ⟨i, n, j, _, rfl⟩ := TableNames.mem_nodes.1 hb
    simp at hlast
  apply hfirst.append
  · apply List.nodup_cons.2 ⟨by simp [mem_pendingBlocks], hpending⟩
  · intro b hb hlast
    rcases List.mem_append.1 hb with hnode | hheads
    · obtain ⟨i, n, j, _, rfl⟩ := TableNames.mem_nodes.1 hnode
      simp [mem_pendingBlocks] at hlast
    · rw [List.mem_singleton.1 hheads] at hlast
      simp [mem_pendingBlocks] at hlast

theorem owner_of_mem_machineBlocks {fsm : Fsm D} {b : Block} (hb : b ∈ machineBlocks fsm) :
    b.owner = none := by
  simp only [machineBlocks, List.mem_append, List.mem_cons, List.not_mem_nil, or_false,
    TableNames.mem_nodes, mem_pendingBlocks] at hb
  rcases hb with (⟨i, n, j, _, rfl⟩ | rfl) | rfl | ⟨i, n, j, _, rfl | rfl⟩ | rfl | rfl | rfl <;> rfl

/-- `fsm_free` frees no block twice just if no state is registered twice. -/
theorem World.nodup_releasedBlocks (w : World A D) :
    w.releasedBlocks.Nodup ↔ w.registered.Nodup := by
  constructor
  · intro h
    have hkeys := (List.nodup_append.1 (List.nodup_append.1 h).2.1).1
    exact hkeys.of_map
  · intro h
    have hinj : Function.Injective Block.stKey := fun s s' heq ↦ by simpa using heq
    have hyielded : (w.sweepOrder.flatMap (stateBlocks w.states)).Nodup := by
      apply List.nodup_flatMap.2
      refine ⟨fun s _ ↦ nodup_stateBlocks w.states s, ?_⟩
      apply (h.sublist w.sweepOrder_sublist).imp
      intro s s' hne b hb hb'
      have howner := owner_of_mem_stateBlocks hb
      rw [owner_of_mem_stateBlocks hb', Option.some.injEq] at howner
      exact hne howner.symm
    have hrest : (w.registered.map Block.stKey ++ machineBlocks w.fsm).Nodup := by
      apply (h.map hinj).append (nodup_machineBlocks w.fsm)
      intro b hb hlast
      obtain ⟨s, _, rfl⟩ := List.mem_map.1 hb
      simp [machineBlocks, TableNames.mem_nodes, mem_pendingBlocks] at hlast
    apply hyielded.append hrest
    intro b hb hlast
    obtain ⟨s, _, howner⟩ := owner_of_mem_swept hb
    rcases List.mem_append.1 hlast with hkey | hmachine
    · obtain ⟨s', _, rfl⟩ := List.mem_map.1 hkey
      cases howner
    · rw [owner_of_mem_machineBlocks hmachine] at howner
      cases howner

end Experimentation.StateMachine
