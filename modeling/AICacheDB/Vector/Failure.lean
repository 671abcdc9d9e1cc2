import AICacheDB.Vector.Intact
import AICacheDB.Vector.Invariants

open CLib RedBlack List Function
open Option hiding or_self

namespace AICacheDB.KvsVector

/-- No slot of `items` refers to an entry that has been freed. -/
def Whole {F : Type} (inst : KvsVector F) : Prop := ∀ id < inst.nextId, inst.entry id ≠ none

structure SameGraph {F : Type} (inst inst' : KvsVector F) : Prop where
  tree : inst'.tree = inst.tree
  items : inst'.items = inst.items
  entryPoint : inst'.entryPoint = inst.entryPoint
  maxLevel : inst'.maxLevel = inst.maxLevel

/-- With memory for an entry and its first list, there is memory for its place in the tree and for every layer that its other
    lists can reach. -/
def Sheltered (alloc : VectorAlloc) : Prop :=
  alloc .vec = true → alloc .copy = true → alloc .entry = true → alloc .question = true → alloc .answer = true →
    alloc (.neighbors 0) = true → (alloc .node = true ∧ alloc .key = true) ∧
      ∀ l < hnswMaxLevel, (∀ j ≤ l, alloc (.neighbors j) = true) → alloc (.candidates l) = true ∧ alloc (.visited l) = true

section Congruence

variable {F : Type} {inst inst' : KvsVector F}

theorem SameGraph.refl : SameGraph inst inst := ⟨rfl, rfl, rfl, rfl⟩

theorem searchResults_congr (items : inst'.items = inst.items) : searchResults inst' = searchResults inst := by
  funext top
  unfold searchResults
  simp only [entry_congr items]

variable [LT F] [LE F] [DecidableLT F] [DecidableLE F] (A : FloatOps F)

omit [LT F] [DecidableLT F] in
theorem idScore_congr (items : inst'.items = inst.items) : idScore A inst' = idScore A inst := by
  funext id q
  unfold idScore
  rw [nextId_congr items, entry_congr items]

theorem greedyScan_congr (items : inst'.items = inst.items) : greedyScan A inst' = greedyScan A inst := by
  funext q nbrs current score
  unfold greedyScan
  rw [idScore_congr A items]

theorem hnswGreedyLoop_congr (items : inst'.items = inst.items) (level : Nat) (q : VectorQuery F) (fuel current : Nat) (score : F) :
    hnswGreedyLoop A inst' level q fuel current score = hnswGreedyLoop A inst level q fuel current score := by
  induction fuel generalizing current score with
  | zero => rfl
  | succ fuel ih =>
    unfold hnswGreedyLoop
    simp only [nextId_congr items, entry_congr items, greedyScan_congr A items, ih]

theorem greedyDescend_congr (items : inst'.items = inst.items) (q : VectorQuery F) (low level ep : Nat) :
    greedyDescend A inst' q low level ep = greedyDescend A inst q low level ep := by
  induction level generalizing ep with
  | zero => rfl
  | succ level ih =>
    unfold greedyDescend hnswGreedy
    simp only [nextId_congr items, idScore_congr A items, hnswGreedyLoop_congr A items, ih]

theorem searchLayerLoop_congr (items : inst'.items = inst.items) (q : VectorQuery F) (ef level fuel cursor : Nat)
    (state : List (Candidate F) × List Nat) :
    searchLayerLoop A inst' q ef level fuel cursor state = searchLayerLoop A inst q ef level fuel cursor state := by
  have scan : layerScan A inst' q ef = layerScan A inst q ef := by
    funext nbrs state
    unfold layerScan
    rw [idScore_congr A items, nextId_congr items]
  induction fuel generalizing cursor state with
  | zero => rfl
  | succ fuel ih =>
    unfold searchLayerLoop
    simp only [entry_congr items, scan, ih]

theorem SameGraph.search (same : SameGraph inst inst') (alloc : VectorAlloc) (dim : Int) (str : CString) (topk : Int) (threshold : F) :
    kvsVectorSearch A alloc inst' dim str topk threshold = kvsVectorSearch A alloc inst dim str topk threshold := by
  have candidates : searchCandidates A alloc inst' = searchCandidates A alloc inst := by
    funext q
    unfold searchCandidates hnswSearchLayer
    simp only [same.entryPoint, same.maxLevel, nextId_congr same.items, idScore_congr A same.items, greedyDescend_congr A same.items,
      searchLayerLoop_congr A same.items]
  have select : selectTop A inst' = selectTop A inst := by
    funext q topk threshold found
    unfold selectTop
    rw [idScore_congr A same.items]
  unfold kvsVectorSearch
  rw [candidates, select, searchResults_congr same.items]

omit [LT F] [LE F] [DecidableLT F] [DecidableLE F] in
theorem SameGraph.whole (same : SameGraph inst inst') (whole : Whole inst) : Whole inst' := by
  intro id small
  rw [entry_congr same.items]
  exact whole id (nextId_congr same.items ▸ small)

end Congruence

section Refused

variable {F : Type} [LT F] [LE F] [DecidableLT F] [DecidableLE F] (A : FloatOps F) {inst inst' : KvsVector F} {alloc : VectorAlloc}
  {e : VectorEntry F}

theorem attachWithLevel_refused {draw : Nat × Nat} (low : draw.1 < hnswMaxLevel)
    (layers : ∀ l < hnswMaxLevel, (∀ j ≤ l, alloc (.neighbors j) = true) → alloc (.candidates l) = true ∧ alloc (.visited l) = true)
    (ran : attachWithLevel A alloc inst e draw = some (inst', false)) : SameGraph inst inst' := by
  have lacking : ¬ LayerMemory alloc inst draw.1 := fun memory => absurd ((attachWithLevel_done A ran).mpr memory) (by decide)
  by_cases lists : ∀ l ≤ draw.1, alloc (.neighbors l) = true
  · refine absurd ⟨lists, fun _ l small => ?_⟩ lacking
    have under : l ≤ draw.1 := small.trans (min_le_left _ _)
    exact layers l (under.trans_lt low) fun j below => lists j (below.trans under)
  · have failed : (range (draw.1 + 1)).all (fun l => alloc (.neighbors l)) = false := by
      rw [Bool.eq_false_iff]
      intro all
      rw [List.all_eq_true] at all
      exact lists fun l small => all l (mem_range.mpr (Nat.lt_succ_of_le small))
    unfold attachWithLevel at ran
    rw [if_pos failed] at ran
    cases ran
    exact ⟨rfl, rfl, rfl, rfl⟩

theorem vectorAttachToHnsw_refused
    (layers : ∀ l < hnswMaxLevel, (∀ j ≤ l, alloc (.neighbors j) = true) → alloc (.candidates l) = true ∧ alloc (.visited l) = true)
    (ran : vectorAttachToHnsw A alloc inst e = some (inst', false)) : SameGraph inst inst' := by
  unfold vectorAttachToHnsw at ran
  cases room : ensureItemCapacity alloc inst with
  | none =>
    rw [room] at ran
    cases ran
    exact .refl
  | some inst1 =>
    have grown : SameGraph inst inst1 := by
      unfold ensureItemCapacity at room
      split at room
      · cases room
        exact .refl
      · split at room
        · cases room
        · cases room
          exact ⟨rfl, rfl, rfl, rfl⟩
    rw [room] at ran
    have same := attachWithLevel_refused A (hnswRandomLevel_lt _) layers ran
    exact ⟨same.tree.trans grown.tree, same.items.trans grown.items, same.entryPoint.trans grown.entryPoint, same.maxLevel.trans grown.maxLevel⟩

variable {question : CString}

omit [LT F] [LE F] [DecidableLT F] [DecidableLE F] in
theorem vectorRegister_accepts {id : Nat} {ret : Int} (node : alloc .node = true) (key : alloc .key = true)
    (ran : vectorRegister alloc inst question id = some (inst', ret)) : ret = 0 := by
  simp only [vectorRegister, node, key, Bool.true_eq_false, or_self, if_false, bind_eq_bind, bind_eq_some_iff] at ran
  obtain ⟨old, _, ran⟩ := ran
  split at ran
  · simp only [bind_eq_some_iff] at ran
    obtain ⟨_, _, _, _, _, _, same⟩ := ran
    cases same
    rfl
  · obtain ⟨_, _, same⟩ := bind_eq_some_iff.mp ran
    cases same
    rfl

theorem Sheltered.refused {answer str : CString} {dim ret : Int} (sheltered : Sheltered alloc)
    (ran : kvsVectorSet A alloc inst question answer dim str = some (inst', ret)) (negative : ret < 0) : SameGraph inst inst' := by
  unfold kvsVectorSet at ran
  split at ran
  · cases ran
    exact .refl
  · cases parsed : parseVector A alloc str dim with
    | none =>
      rw [parsed] at ran
      cases ran
      exact .refl
    | some vec =>
      cases made : vectorEntryCreate A alloc question answer vec with
      | none =>
        simp only [parsed, made] at ran
        cases ran
        exact .refl
      | some e =>
        simp only [parsed, made, bind_eq_bind, bind_eq_some_iff] at ran
        obtain ⟨⟨inst1, attached⟩, attach, ran⟩ := ran
        have texts : alloc .vec = true ∧ alloc .copy = true := by
          unfold parseVector at parsed
          split at parsed
          · cases parsed
          · rename_i given
            simp only [not_or, Bool.not_eq_false] at given
            exact given.2
        obtain ⟨_, entry, questions, answers⟩ := (vectorEntryCreate_iff A alloc question answer vec).mp (by rw [made]; exact some_ne_none e)
        have shelter := sheltered texts.1 texts.2 entry questions answers
        dsimp only at ran
        cases attached with
        | false =>
          rw [if_pos rfl] at ran
          cases ran
          have same : SameGraph inst inst1 := by
            apply vectorAttachToHnsw_refused A (fun l small lists => ?_) attach
            exact (shelter (lists 0 (Nat.zero_le l))).2 l small lists
          -- the entry was not yet in the table, so there is no slot to clear
          refine ⟨same.tree, ?_, same.entryPoint, same.maxLevel⟩
          rw [same.items]
          exact set_eq_of_length_le le_rfl
        | true =>
          rw [if_neg (by decide)] at ran
          have graph := (vectorAttachToHnsw_done A attach).mp rfl
          obtain ⟨node, key⟩ := (shelter (graph.2.1 0 (Nat.zero_le _))).1
          have accepted := vectorRegister_accepts node key ran
          omega

end Refused

section Damage

def waiting {F : Type} (seed : Nat) : KvsVector F :=
  { tree := kvsRbtreeCreate, items := [], itemCap := 128, entryPoint := none, maxLevel := 0, randSeed := seed, count := 0 }

variable {F : Type} [LT F] [LE F] [DecidableLT F] [DecidableLE F] (A : FloatOps F) {inst : KvsVector F} {alloc : VectorAlloc}
  {question answer str : CString} {dim : Int} {vec : List F}

structure Parses (str : CString) (dim : Int) (vec : List F) : Prop where
  range : dim < 2 ^ 31
  parsed : parseVector A .ok str dim = some vec
  norm : ¬ vectorNorm A vec ≤ A.zero

omit [LT F] [DecidableLT F] [DecidableLE F] in
theorem Parses.positive (parses : Parses A str dim vec) : ¬ dim ≤ 0 := by
  intro nonpositive
  have parsed := parses.parsed
  rw [parseVector, if_pos (.inl nonpositive)] at parsed
  cases parsed

def newEntry (question answer : CString) (vec : List F) : VectorEntry F :=
  { question, answer, vector := vec, norm := vectorNorm A vec, hnswId := 0, level := 0, deleted := false, neighbors := [] }

structure Begins (alloc : VectorAlloc) : Prop where
  vec : alloc .vec = true
  copy : alloc .copy = true
  entry : alloc .entry = true
  question : alloc .question = true
  answer : alloc .answer = true

theorem kvsVectorSet_begins {draw : Nat × Nat} (begins : Begins alloc) (parses : Parses A str dim vec)
    (drawn : hnswRandomLevel inst.randSeed = draw) :
    kvsVectorSet A alloc inst question answer dim str = (do
      let (inst', attached) ← vectorAttachDrawn A alloc inst (newEntry A question answer vec) draw
      if attached = false then some ({ inst' with items := inst'.items.set inst.nextId none }, -2)
      else vectorRegister alloc inst' question inst.nextId) := by
  have parsed := parses.parsed
  have same : parseVector A alloc str dim = some vec := by
    unfold parseVector at parsed ⊢
    rw [begins.vec, begins.copy]
    exact parsed
  have made : vectorEntryCreate A alloc question answer vec = some (newEntry A question answer vec) := by
    simp only [vectorEntryCreate, begins.entry, begins.question, begins.answer, Bool.true_eq_false, or_self, if_false, parses.norm]
    rfl
  rw [kvsVectorSet_eq, drawn]
  simp only [kvsVectorSetDrawn, if_neg (parses.positive A), same, made]

variable {seed : Nat}

def noLists : VectorAlloc := fun site => decide (site ≠ .neighbors 0)

theorem noLists_begins : Begins noLists := ⟨rfl, rfl, rfl, rfl, rfl⟩

theorem attachWithLevel_noLists (e : VectorEntry F) (draw : Nat × Nat) :
    attachWithLevel A noLists inst e draw = some ({ inst with randSeed := draw.2 }, false) := by
  have failed : (range (draw.1 + 1)).all (fun l => noLists (.neighbors l)) = false := by
    rw [Bool.eq_false_iff]
    intro all
    rw [List.all_eq_true] at all
    exact absurd (all 0 (mem_range.mpr (Nat.succ_pos _))) (by decide)
  unfold attachWithLevel
  rw [if_pos failed]

theorem Reached.draw {draw : Nat × Nat} (reached : Reached A inst) (parses : Parses A str dim vec) (room : inst.nextId < inst.itemCap)
    (drawn : hnswRandomLevel inst.randSeed = draw) : Reached A { inst with randSeed := draw.2 } := by
  have ran : kvsVectorSet A noLists inst str str dim str = some ({ inst with randSeed := draw.2 }, -2) := by
    rw [kvsVectorSet_begins A noLists_begins parses drawn]
    have same : inst.items.set inst.nextId none = inst.items := set_eq_of_length_le le_rfl
    simp [vectorAttachDrawn, ensureItemCapacity, if_pos room, attachWithLevel_noLists, same]
  exact reached.set parses.range ran

variable {e : VectorEntry F} {threshold : F}

def noNode : VectorAlloc := fun site => decide (site ≠ .node)

end Damage

section History

variable {F : Type} [LT F] [LE F] [DecidableLT F] [DecidableLE F] (A : FloatOps F)

def setStep (inst : KvsVector F) (i : VectorAlloc × VectorSetCall) : Option (KvsVector F × Int) :=
  kvsVectorSet A i.1 inst i.2.question i.2.answer i.2.dim i.2.vectorStr

/-- A call that has not failed answers its question from now on. -/
def remember (answers : CString → Option (CString × List F)) (i : (VectorAlloc × VectorSetCall) × Int) :
    CString → Option (CString × List F) :=
  if i.2 < 0 then answers
  else update answers i.1.2.question ((parseVector A i.1.1 i.1.2.vectorStr i.1.2.dim).map fun vec => (i.1.2.answer, vec))

variable {inst inst' : KvsVector F} {t : ColorTree (Rbtree.Cell CString Nat)}

theorem Listed.remembers (listed : Listed (fun _ => True) inst t) {i : VectorAlloc × VectorSetCall} {ret : Int}
    (ran : setStep A inst i = some (inst', ret)) :
    (∃ t', Listed (fun _ => True) inst' t') ∧ answerOf inst' = remember A (answerOf inst) (i, ret) := by
  obtain ⟨t', listed', _, outcome⟩ := listed.set A (fun _ _ => trivial) ran
  refine ⟨⟨t', listed'⟩, ?_⟩
  rcases outcome with ⟨_, negative, same⟩ | ⟨vec, parsed, ⟨rfl, _, stored⟩ | ⟨negative, _, same⟩⟩
  · rw [same, remember, if_pos negative]
  · rw [stored, remember, if_neg (Int.lt_irrefl 0), parsed]
    rfl
  · rw [same, remember, if_pos negative]

theorem Listed.history (listed : Listed (fun _ => True) inst t) {calls : List (VectorAlloc × VectorSetCall)} {rets : List Int}
    (ran : Machine.run (setStep A) inst calls = some (inst', rets)) :
    (∃ t', Listed (fun _ => True) inst' t') ∧ answerOf inst' = (calls.zip rets).foldl (remember A) (answerOf inst) := by
  induction calls generalizing inst t rets with
  | nil =>
    cases ran
    exact ⟨⟨t, listed⟩, rfl⟩
  | cons i calls ih =>
    obtain ⟨next, ret, rest, stepped, later, rfl⟩ := Machine.run_cons_some ran
    obtain ⟨⟨t', listed'⟩, answers⟩ := listed.remembers A stepped
    rw [zip_cons_cons, foldl_cons, ← answers]
    exact ih listed' later

/-- Whichever allocations fail, `VGET` gives the answer and the vector of the last `VSET` of the question that was accepted. -/
theorem last_accepted_answers {calls : List (VectorAlloc × VectorSetCall)} {rets : List Int}
    (ran : Machine.run (setStep A) kvsVectorCreate calls = some (inst, rets)) :
    (∃ t, Listed (fun _ => True) inst t) ∧ answerOf inst = (calls.zip rets).foldl (remember A) fun _ => none := by
  obtain ⟨t, listed, _⟩ := Reached.listed A (fun _ _ _ _ _ _ => trivial) .created
  exact listed.history A ran

end History

def failingCalls : List (VectorAlloc × VectorSetCall) :=
  [(.ok, ⟨.ofBytes [113], .ofBytes [97], 1, .ofBytes [49]⟩), (noLists, ⟨.ofBytes [113], .ofBytes [98], 1, .ofBytes [49]⟩)]

theorem last_accepted_answers_two : ∃ inst, Machine.run (setStep wholeOps) kvsVectorCreate failingCalls = some (inst, [0, -2]) ∧
    answerOf inst (.ofBytes [113]) = some (.ofBytes [97], [1]) := by
  have ends : (Machine.run (setStep wholeOps) kvsVectorCreate failingCalls).map Prod.snd = some [0, -2] := by decide +kernel
  obtain ⟨⟨inst, _⟩, ran, rfl⟩ := map_eq_some_iff.mp ends
  refine ⟨inst, ran, ?_⟩
  rw [(last_accepted_answers wholeOps ran).2]
  decide +kernel

end AICacheDB.KvsVector
