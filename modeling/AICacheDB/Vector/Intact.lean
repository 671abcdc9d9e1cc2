import AICacheDB.Vector.Store

open CLib RedBlack List Option Function

namespace AICacheDB

def VectorEntry.SameBody {F : Type} (e e' : VectorEntry F) : Prop :=
  e'.question = e.question ∧ e'.answer = e.answer ∧ e'.vector = e.vector

def answerOf {F : Type} (inst : KvsVector F) (question : CString) : Option (CString × List F) :=
  (kvsVectorGetByKey inst question).join.map fun e => (e.answer, e.vector)

namespace KvsVector

section Regraphed

variable {F : Type} {inst inst' inst'' : KvsVector F}

structure Regraphed (inst inst' : KvsVector F) : Prop where
  tree : inst'.tree = inst.tree
  body : ∀ {id e}, inst.entry id = some e → ∃ e', inst'.entry id = some e' ∧ e.SameBody e'
  live : ∀ {id}, Live inst' id → Live inst id

theorem Regraphed.refl : Regraphed inst inst := ⟨rfl, fun found => ⟨_, found, rfl, rfl, rfl⟩, fun live => live⟩

theorem Regraphed.trans (first : Regraphed inst inst') (second : Regraphed inst' inst'') : Regraphed inst inst'' := by
  refine ⟨second.tree.trans first.tree, fun found => ?_, fun live => first.live (second.live live)⟩
  obtain ⟨e1, found1, question1, answer1, vector1⟩ := first.body found
  obtain ⟨e2, found2, question2, answer2, vector2⟩ := second.body found1
  exact ⟨e2, found2, question2.trans question1, answer2.trans answer1, vector2.trans vector1⟩

theorem Regraphed.congr (tree : inst'.tree = inst.tree) (items : inst'.items = inst.items) : Regraphed inst inst' := by
  refine ⟨tree, fun {id e} found => ⟨e, by rw [entry_congr items, found], rfl, rfl, rfl⟩, fun {id} live => ?_⟩
  obtain ⟨e, found, alive⟩ := live
  exact ⟨e, (entry_congr items id).symm.trans found, alive⟩

variable {e : VectorEntry F} {alloc : VectorAlloc} {id level : Nat} {done : Bool}

theorem regraphed_setEntry {e' : VectorEntry F} (found : inst.entry id = some e) (same : e.SameBody e')
    (flag : e'.deleted = false → e.deleted = false) : Regraphed inst (inst.setEntry id e') := by
  refine ⟨rfl, fun {id' f} found' => ?_, fun {id'} live => ?_⟩
  · by_cases here : id' = id
    · subst here
      rw [found] at found'
      cases found'
      exact ⟨e', entry_setEntry_self (entry_lt found) e', same⟩
    · exact ⟨f, by rw [entry_setEntry_of_ne _ here, found'], rfl, rfl, rfl⟩
  · obtain ⟨f, found', alive⟩ := live
    rcases entry_setEntry found' with ⟨rfl, rfl⟩ | ⟨_, old⟩
    · exact ⟨e, found, flag alive⟩
    · exact ⟨f, old, alive⟩

structure Joined (inst inst' : KvsVector F) : Prop where
  tree : inst'.tree = inst.tree
  body : ∀ {id e}, inst.entry id = some e → ∃ e', inst'.entry id = some e' ∧ e.SameBody e'
  live : ∀ {id}, Live inst' id → Live inst id ∨ id = inst.nextId

theorem Regraphed.joined (same : Regraphed inst inst') : Joined inst inst' := ⟨same.tree, same.body, fun live => .inl (same.live live)⟩

theorem Regraphed.push (same : Regraphed (inst.push e) inst') : Joined inst inst' := by
  refine ⟨same.tree, fun found => same.body (entry_push_old e found), fun {id} live => ?_⟩
  obtain ⟨f, found, alive⟩ := same.live live
  rcases entry_push found with old | ⟨rfl, _⟩
  · exact .inl ⟨f, old, alive⟩
  · exact .inr rfl

variable [LT F] [LE F] [DecidableLT F] [DecidableLE F] (A : FloatOps F)

theorem hnswPruneNeighbors_regraphed (ran : hnswPruneNeighbors A inst id level = some inst') : Regraphed inst inst' := by
  simp only [hnswPruneNeighbors, bind_eq_bind, bind_eq_some_iff] at ran
  obtain ⟨e, found, ran⟩ := ran
  split at ran
  · cases ran
    exact .refl
  · simp only [bind_eq_some_iff, some.injEq] at ran
    obtain ⟨tmp, _, rfl⟩ := ran
    exact regraphed_setEntry found ⟨rfl, rfl, rfl⟩ fun alive => alive

theorem hnswAddNeighbor_regraphed {src dst : Nat} (ran : hnswAddNeighbor A inst src dst level = some inst') :
    Regraphed inst inst' := by
  unfold hnswAddNeighbor at ran
  by_cases outside : src = dst ∨ inst.nextId ≤ src ∨ inst.nextId ≤ dst ∨ hnswMaxLevel ≤ level
  · rw [if_pos outside] at ran
    cases ran
    exact .refl
  rw [if_neg outside] at ran
  simp only [bind_eq_bind, bind_eq_some_iff] at ran
  obtain ⟨e, found, ran⟩ := ran
  have rewrite : ∀ nbrs, hnswPruneNeighbors A (inst.setEntry src { e with neighbors := nbrs }) src level = some inst' →
      Regraphed inst inst' := fun nbrs pruned =>
    (regraphed_setEntry found (show e.SameBody { e with neighbors := nbrs } from ⟨rfl, rfl, rfl⟩) fun alive => alive).trans
      (hnswPruneNeighbors_regraphed A pruned)
  split at ran
  · cases ran
    exact .refl
  · split at ran
    · cases ran
      exact .refl
    · split at ran
      · exact rewrite _ ran
      · simp only [bind_eq_some_iff] at ran
        obtain ⟨toScore, _, ⟨worstIdx, worstScore⟩, _, ran⟩ := ran
        cases worstIdx with
        | none =>
          cases ran
          exact .refl
        | some i =>
          dsimp only at ran
          split at ran
          · exact rewrite _ ran
          · cases ran
            exact .refl

theorem linkFound_regraphed {found : List (Candidate F)} (ran : linkFound A inst id level found = some inst') :
    Regraphed inst inst' := by
  refine Machine.foldlM_keeps (Regraphed inst) (fun inst1 c inst3 _ linked same => ?_) ran .refl
  rw [bind_eq_bind, bind_eq_some_iff] at linked
  obtain ⟨inst2, there, back⟩ := linked
  exact same.trans ((hnswAddNeighbor_regraphed A there).trans (hnswAddNeighbor_regraphed A back))

theorem insertLayers_regraphed {q : VectorQuery F} {ep : Nat}
    (ran : insertLayers A alloc id q level ep inst = some (inst', done)) : Regraphed inst inst' := by
  induction level generalizing inst ep with
  | zero =>
    rw [insertLayers] at ran
    simp only [bind_eq_bind, bind_eq_some_iff] at ran
    obtain ⟨found, _, ran⟩ := ran
    cases found with
    | none =>
      cases ran
      exact .refl
    | some found =>
      simp only [bind_eq_some_iff] at ran
      obtain ⟨inst1, linked, ran⟩ := ran
      cases ran
      exact linkFound_regraphed A linked
  | succ level ih =>
    rw [insertLayers] at ran
    simp only [bind_eq_bind, bind_eq_some_iff] at ran
    obtain ⟨found, _, ran⟩ := ran
    cases found with
    | none =>
      cases ran
      exact .refl
    | some found =>
      simp only [bind_eq_some_iff] at ran
      obtain ⟨inst1, linked, ran⟩ := ran
      exact (linkFound_regraphed A linked).trans (ih ran)

theorem hnswInsert_regraphed (ran : hnswInsert A alloc inst e = some (inst', done)) : Regraphed inst inst' := by
  unfold hnswInsert at ran
  cases start : inst.entryPoint with
  | none =>
    rw [start] at ran
    cases ran
    exact .congr rfl rfl
  | some ep =>
    rw [start] at ran
    simp only [bind_eq_bind, bind_eq_some_iff] at ran
    obtain ⟨ep', _, ⟨inst1, linked⟩, layers, ran⟩ := ran
    have inserted := insertLayers_regraphed A layers
    dsimp only at ran
    split at ran
    · cases ran
      exact inserted
    · split at ran
      · cases ran
        exact inserted.trans (.congr rfl rfl)
      · cases ran
        exact inserted

theorem attachWithLevel_regraphed {draw : Nat × Nat} (ran : attachWithLevel A alloc inst e draw = some (inst', done)) :
    Joined inst inst' ∧ (done = true → ∃ e', inst'.entry inst.nextId = some e' ∧ e.SameBody e') := by
  unfold attachWithLevel at ran
  split at ran
  · cases ran
    have same : Regraphed inst { inst with randSeed := draw.2 } := .congr rfl rfl
    exact ⟨same.joined, nofun⟩
  · let inst1 : KvsVector F := { inst with randSeed := draw.2 }
    let e1 : VectorEntry F := { e with hnswId := inst1.nextId, level := draw.1, neighbors := replicate (draw.1 + 1) [] }
    have inserted : Regraphed (inst1.push e1) inst' := hnswInsert_regraphed A ran
    have joined : Joined inst1 inst' := inserted.push
    obtain ⟨e', found, question, answer, vector⟩ := inserted.body (entry_push_self inst1 e1)
    exact ⟨⟨joined.tree, joined.body, joined.live⟩, fun _ => ⟨e', found, question, answer, vector⟩⟩

theorem vectorAttachToHnsw_regraphed (ran : vectorAttachToHnsw A alloc inst e = some (inst', done)) :
    Joined inst inst' ∧ (done = true → ∃ e', inst'.entry inst.nextId = some e' ∧ e.SameBody e') := by
  unfold vectorAttachToHnsw at ran
  cases room : ensureItemCapacity alloc inst with
  | none =>
    rw [room] at ran
    cases ran
    exact ⟨Regraphed.refl.joined, nofun⟩
  | some inst1 =>
    have same : inst1.tree = inst.tree ∧ inst1.items = inst.items := by
      unfold ensureItemCapacity at room
      split at room
      · cases room
        exact ⟨rfl, rfl⟩
      · split at room
        · cases room
        · cases room
          exact ⟨rfl, rfl⟩
    rw [room] at ran
    obtain ⟨joined, new⟩ := attachWithLevel_regraphed A ran
    have grown := Regraphed.congr same.1 same.2
    rw [nextId_congr same.2] at new
    refine ⟨⟨joined.tree.trans same.1, fun found => ?_, fun live => ?_⟩, new⟩
    · exact joined.body ((entry_congr same.2 _).trans found)
    · rcases joined.live live with old | last
      · exact .inl (grown.live old)
      · exact .inr (last.trans (nextId_congr same.2))

end Regraphed

section GraphMemory

variable {F : Type} {inst inst' : KvsVector F}

/-- The allocations of an entry that joins the graph at a level: its neighbour lists, and the buffers of the layers searched. -/
def LayerMemory (alloc : VectorAlloc) (inst : KvsVector F) (level : Nat) : Prop :=
  (∀ l ≤ level, alloc (.neighbors l) = true) ∧
    (inst.entryPoint ≠ none → ∀ l ≤ min level inst.maxLevel, alloc (.candidates l) = true ∧ alloc (.visited l) = true)

def GraphMemory (alloc : VectorAlloc) (inst : KvsVector F) : Prop :=
  (inst.nextId < inst.itemCap ∨ alloc .items = true) ∧ LayerMemory alloc inst (hnswRandomLevel inst.randSeed).1

variable [LT F] [LE F] [DecidableLT F] [DecidableLE F] (A : FloatOps F) {alloc : VectorAlloc} {e : VectorEntry F} {done : Bool}
  {level : Nat} {q : VectorQuery F}

theorem hnswSearchLayer_failed {ep : Nat} {found : Option (List (Candidate F))}
    (ran : hnswSearchLayer A alloc inst q ep hnswEfConstruction level = some found) :
    found ≠ none ↔ alloc (.candidates level) = true ∧ alloc (.visited level) = true := by
  unfold hnswSearchLayer at ran
  split at ran
  · rename_i failed
    cases ran
    rcases failed with zero | noCandidates | noVisited
    · cases zero
    · simp [noCandidates]
    · simp [noVisited]
  · rename_i given
    simp only [not_or, Bool.not_eq_false] at given
    split at ran
    · simp only [bind_eq_bind, bind_eq_some_iff] at ran
      obtain ⟨_, _, _, _, same⟩ := ran
      cases same
      simp [given]
    · cases ran

theorem insertLayers_done {id : Nat} {ep : Nat} (ran : insertLayers A alloc id q level ep inst = some (inst', done)) :
    done = true ↔ ∀ l ≤ level, alloc (.candidates l) = true ∧ alloc (.visited l) = true := by
  induction level generalizing inst ep with
  | zero =>
    rw [insertLayers] at ran
    simp only [bind_eq_bind, bind_eq_some_iff] at ran
    obtain ⟨found, search, ran⟩ := ran
    have memory := hnswSearchLayer_failed A search
    simp only [Nat.le_zero_eq, forall_eq, ← memory]
    cases found with
    | none =>
      cases ran
      simp
    | some found =>
      simp only [bind_eq_some_iff] at ran
      obtain ⟨_, _, same⟩ := ran
      cases same
      simp
  | succ level ih =>
    rw [insertLayers] at ran
    simp only [bind_eq_bind, bind_eq_some_iff] at ran
    obtain ⟨found, search, ran⟩ := ran
    have memory := hnswSearchLayer_failed A search
    have split : (∀ l ≤ level + 1, alloc (.candidates l) = true ∧ alloc (.visited l) = true) ↔
        (∀ l ≤ level, alloc (.candidates l) = true ∧ alloc (.visited l) = true) ∧ found ≠ none := by
      simp only [Nat.le_succ_iff, or_imp, forall_and, forall_eq, memory, Nat.succ_eq_add_one]
      tauto
    rw [split]
    cases found with
    | none =>
      cases ran
      simp
    | some found =>
      simp only [bind_eq_some_iff] at ran
      obtain ⟨inst1, linked, ran⟩ := ran
      rw [ih ran]
      simp

theorem hnswInsert_done (ran : hnswInsert A alloc inst e = some (inst', done)) :
    done = true ↔ (inst.entryPoint ≠ none → ∀ l ≤ min e.level inst.maxLevel, alloc (.candidates l) = true ∧ alloc (.visited l) = true) := by
  unfold hnswInsert at ran
  cases start : inst.entryPoint with
  | none =>
    rw [start] at ran
    cases ran
    simp
  | some ep =>
    rw [start] at ran
    simp only [bind_eq_bind, bind_eq_some_iff] at ran
    obtain ⟨ep', _, ⟨inst1, linked⟩, layers, ran⟩ := ran
    have memory := insertLayers_done A layers
    simp only [ne_eq, reduceCtorEq, not_false_eq_true, true_imp_iff, ← memory]
    dsimp only at ran
    split at ran
    · rename_i failed
      cases ran
      rw [failed]
    · rename_i joined
      rw [Bool.not_eq_false] at joined
      split at ran <;>
        (cases ran
         simp only [joined])

theorem attachWithLevel_done {draw : Nat × Nat} (ran : attachWithLevel A alloc inst e draw = some (inst', done)) :
    done = true ↔ LayerMemory alloc inst draw.1 := by
  have lists : (range (draw.1 + 1)).all (fun l => alloc (.neighbors l)) = true ↔ ∀ l ≤ draw.1, alloc (.neighbors l) = true := by
    simp [Nat.lt_succ_iff]
  unfold attachWithLevel at ran
  dsimp only at ran
  split at ran
  · rename_i failed
    cases ran
    simp [LayerMemory, ← lists, failed]
  · rename_i given
    rw [Bool.not_eq_false] at given
    rw [hnswInsert_done A ran, LayerMemory, ← lists, given]
    simp

theorem vectorAttachToHnsw_done (ran : vectorAttachToHnsw A alloc inst e = some (inst', done)) :
    done = true ↔ GraphMemory alloc inst := by
  unfold vectorAttachToHnsw ensureItemCapacity at ran
  split at ran
  · rename_i full
    split at full
    · cases full
    · rename_i noRoom
      split at full
      · rename_i failed
        cases ran
        simp [GraphMemory, noRoom, failed]
      · cases full
  · rename_i inst1 room
    split at room
    · rename_i free
      cases room
      rw [attachWithLevel_done A ran, GraphMemory]
      simp [free]
    · split at room
      · cases room
      · rename_i given
        cases room
        rw [attachWithLevel_done A ran, GraphMemory]
        simp only [given, or_true, true_and]
        rfl

end GraphMemory

section Listed

variable {F : Type} {inst inst' : KvsVector F} {P : List F → Prop} {t : ColorTree (Rbtree.Cell CString Nat)}

/-- Every question of the tree has an entry of its own, whose vector has the property. It may be marked as deleted. -/
structure Listed (P : List F → Prop) (inst : KvsVector F) (t : ColorTree (Rbtree.Cell CString Nat)) : Prop where
  valid : Rbtree.Valid inst.tree t
  stored : ∀ x ∈ t.inorder, ∃ e, inst.entry x.value = some e ∧ e.question = x.key ∧ P e.vector

variable {question : CString} {e : VectorEntry F} {alloc : VectorAlloc}

section

variable (listed : Listed P inst t)

include listed

theorem Listed.getByKey_iff :
    kvsVectorGetByKey inst question = some (some e) ↔ ∃ x ∈ t.inorder, x.key = question ∧ inst.entry x.value = some e := by
  unfold kvsVectorGetByKey
  rcases Rbtree.rbtreeSearch_spec listed.valid question with ⟨x, member, rfl, search⟩ | ⟨absent, search⟩
  · obtain ⟨n, live, _, value, _⟩ := listed.valid.rep.cell member
    obtain ⟨f, found, key, _⟩ := listed.stored x member
    have real : x.addr ≠ Rbtree.nil := ne_of_mem_of_not_mem (mem_map_of_mem member) listed.valid.rep.notNil
    simp only [search, real, live, value, found, if_false, bind_eq_bind, bind_some, some.injEq]
    constructor
    · rintro rfl
      exact ⟨x, member, rfl, found⟩
    · rintro ⟨y, inY, keyY, foundY⟩
      rw [Rbtree.cell_unique listed.valid inY member keyY, found] at foundY
      exact some.inj foundY
  · simp only [search, if_true, bind_eq_bind, bind_some, some.injEq, reduceCtorEq, false_iff]
    rintro ⟨y, inY, keyY, _⟩
    exact absent y inY keyY

theorem Listed.answerOf_cell {x : Rbtree.Cell CString Nat} (member : x ∈ t.inorder)
    (found : inst.entry x.value = some e) : answerOf inst x.key = some (e.answer, e.vector) := by
  rw [answerOf, listed.getByKey_iff.mpr ⟨x, member, rfl, found⟩]
  rfl

theorem Listed.answerOf_absent (absent : ∀ x ∈ t.inorder, x.key ≠ question) : answerOf inst question = none := by
  rw [answerOf, map_eq_none_iff, eq_none_iff_forall_ne_some]
  intro e found
  obtain ⟨x, member, key, _⟩ := listed.getByKey_iff.mp (join_eq_some_iff.mp found)
  exact absent x member key

theorem Listed.answerOf_congr {t' : ColorTree (Rbtree.Cell CString Nat)} (listed' : Listed P inst' t')
    (cells : ∀ x, x.key = question → (x ∈ t'.inorder ↔ x ∈ t.inorder))
    (body : ∀ {id e}, inst.entry id = some e → ∃ e', inst'.entry id = some e' ∧ e.SameBody e') :
    answerOf inst' question = answerOf inst question := by
  by_cases present : ∃ x ∈ t.inorder, x.key = question
  · obtain ⟨x, member, rfl⟩ := present
    obtain ⟨e, found, _⟩ := listed.stored x member
    obtain ⟨e', found', _, answer, vector⟩ := body found
    rw [listed.answerOf_cell member found, listed'.answerOf_cell ((cells x rfl).mpr member) found', answer, vector]
  · have absent : ∀ x ∈ t.inorder, x.key ≠ question := fun x member key => present ⟨x, member, key⟩
    rw [listed.answerOf_absent absent, listed'.answerOf_absent fun x member key => absent x ((cells x key).mp member) key]

theorem Listed.joined (same : Joined inst inst') : Listed P inst' t := by
  refine ⟨same.tree ▸ listed.valid, fun x member => ?_⟩
  obtain ⟨e, found, key, good⟩ := listed.stored x member
  obtain ⟨e', found', question, _, vector⟩ := same.body found
  exact ⟨e', found', question.trans key, vector ▸ good⟩

theorem Listed.answerOf_joined (same : Joined inst inst') : answerOf inst' = answerOf inst :=
  funext fun _ => listed.answerOf_congr (listed.joined same) (fun _ _ => .rfl) same.body

def Covered (inst : KvsVector F) (t : ColorTree (Rbtree.Cell CString Nat)) : Prop := ∀ {id}, Live inst id → ∃ x ∈ t.inorder, x.value = id

def Registers (alloc : VectorAlloc) (inst : KvsVector F) (question : CString) : Prop :=
  answerOf inst question ≠ none ∨ alloc .node = true ∧ alloc .key = true

/-- What a call of `kvs_vector_set` may do: answer the question from now on, or fail and leave every answer as it was. -/
def Outcome (inst inst' : KvsVector F) (question : CString) (stored : CString × List F) (accepted : Prop) (ret : Int) : Prop :=
  ret = 0 ∧ accepted ∧ answerOf inst' = Function.update (answerOf inst) question (some stored) ∨
    ret < 0 ∧ ¬ accepted ∧ answerOf inst' = answerOf inst

theorem Listed.register {id : Nat} {ret : Int}
    (found : inst.entry id = some e) (good : P e.vector) (ran : vectorRegister alloc inst e.question id = some (inst', ret)) :
    ∃ t', Listed P inst' t' ∧ Outcome inst inst' e.question (e.answer, e.vector) (Registers alloc inst e.question) ret ∧
      ((∀ {i}, Live inst i → (∃ x ∈ t.inorder, x.value = i) ∨ i = id) → Covered inst' t') := by
  unfold vectorRegister at ran
  rcases Rbtree.rbtreeSearch_spec listed.valid e.question with ⟨x, member, key, search⟩ | ⟨absent, search⟩
  · have real : x.addr ≠ Rbtree.nil := ne_of_mem_of_not_mem (mem_map_of_mem member) listed.valid.rep.notNil
    obtain ⟨n, live, _, value, _⟩ := listed.valid.rep.cell member
    obtain ⟨old, foundOld, _⟩ := listed.stored x member
    obtain ⟨T', t', xs, ys, modified, valid', before, after⟩ := Rbtree.modify_valid listed.valid member id x.expireMs
      (fun node => { node with value := id }) fun n _ _ same => by rw [← same]
    simp only [search, bind_eq_bind, bind_some, ne_eq, real, not_false_eq_true, if_true, live, value, foundOld,
      modified, some.injEq, Prod.mk.injEq] at ran
    have marked : Regraphed inst (inst.setEntry x.value { old with deleted := true }) := regraphed_setEntry foundOld ⟨rfl, rfl, rfl⟩ nofun
    obtain ⟨e', found', question, answer, vector⟩ := marked.body found
    have listed' : Listed P inst' t' := by
      rw [← ran.1]
      refine ⟨valid', fun y inside => ?_⟩
      rw [after, mem_append, mem_cons] at inside
      have kept : y ∈ xs ∨ y ∈ ys → ∃ f, (inst.setEntry x.value { old with deleted := true }).entry y.value = some f ∧
          f.question = y.key ∧ P f.vector :=
        fun old => (listed.joined marked.joined).stored y (by rw [before, mem_append, mem_cons]; tauto)
      rcases inside with inXs | rfl | inYs
      · exact kept (.inl inXs)
      · exact ⟨e', found', question.trans key.symm, vector ▸ good⟩
      · exact kept (.inr inYs)
    have body : ∀ {id f}, inst.entry id = some f → ∃ f', inst'.entry id = some f' ∧ f.SameBody f' := ran.1 ▸ marked.body
    refine ⟨t', listed', .inl ⟨ran.2.symm, .inl ?_, funext fun q => ?_⟩, fun covers {i} live => ?_⟩
    · rw [← key, listed.answerOf_cell member foundOld]
      exact some_ne_none _
    · by_cases same : q = e.question
      · obtain ⟨f, foundF, _, answerF, vectorF⟩ := body found
        have own := listed'.answerOf_cell (x := { x with value := id }) (by rw [after]; simp) foundF
        rw [same, update_self, ← answerF, ← vectorF, ← own, key]
      · rw [update_of_ne same]
        refine listed.answerOf_congr listed' (fun y keyY => ?_) body
        have other : y.key ≠ x.key := fun here => same (keyY.symm.trans (here.trans key))
        rw [after, before, mem_append, mem_cons, mem_append, mem_cons]
        have notOld : y ≠ x := fun here => other (congrArg _ here)
        have notNew : y ≠ { x with value := id } := fun here => other (by rw [here])
        simp [notOld, notNew]
    · rw [← ran.1] at live
      obtain ⟨f, foundF, alive⟩ := live
      rw [after]
      rcases entry_setEntry foundF with ⟨_, rfl⟩ | ⟨other, foundF⟩
      · cases alive
      · rcases covers ⟨f, foundF, alive⟩ with ⟨y, inY, value⟩ | rfl
        · rw [before, mem_append, mem_cons] at inY
          have notX : y ≠ x := fun here => other (by rw [← value, here])
          exact ⟨y, by rw [mem_append, mem_cons]; tauto, value⟩
        · exact ⟨{ x with value := i }, by simp, rfl⟩
  · simp only [search, bind_eq_bind, bind_some, ne_eq, not_true_eq_false, if_false] at ran
    have fresh : answerOf inst e.question = none := listed.answerOf_absent absent
    split at ran
    · rename_i failed
      simp only [found, bind_some, some.injEq, Prod.mk.injEq] at ran
      have marked : Regraphed inst inst' := ran.1 ▸ regraphed_setEntry found ⟨rfl, rfl, rfl⟩ nofun
      refine ⟨t, listed.joined marked.joined, .inr ⟨by omega, ?_, listed.answerOf_joined marked.joined⟩, fun covers {i} live => ?_⟩
      · rintro (known | ⟨node, key⟩)
        · exact known fresh
        · rcases failed with noNode | noKey
          · rw [node] at noNode
            cases noNode
          · rw [key] at noKey
            cases noKey
      · rcases covers (marked.live live) with inTree | rfl
        · exact inTree
        · obtain ⟨f, foundF, alive⟩ := live
          rw [← ran.1, entry_setEntry_self (entry_lt found)] at foundF
          cases foundF
          cases alive
    · rename_i given
      rw [not_or, Bool.not_eq_false, Bool.not_eq_false] at given
      let node : RbtreeNode CString Nat := ⟨.black, Rbtree.nil, Rbtree.nil, Rbtree.nil, e.question, id, -1⟩
      obtain ⟨valid1, place, live, own, _⟩ := Rbtree.malloc_spec listed.valid node
      obtain ⟨T', t', xs, ys, inserted, valid', before, after, _⟩ :=
        Rbtree.rbtreeInsert_spec (x := ⟨inst.tree.brk, e.question, id, -1⟩) valid1 live own ⟨rfl, rfl, rfl⟩ absent
      have insert : (inst.tree.malloc node).1.rbtreeInsert (inst.tree.malloc node).2 = some T' := by
        rw [place]
        exact inserted
      simp only [node] at insert
      simp only [insert, bind_some, some.injEq, Prod.mk.injEq] at ran
      have entries : inst'.entry = inst.entry := by
        rw [← ran.1]
        rfl
      have listed' : Listed P inst' t' := by
        refine ⟨ran.1 ▸ valid', fun y inside => ?_⟩
        rw [after, mem_append, mem_cons] at inside
        rw [entries]
        rcases inside with inXs | rfl | inYs
        · exact listed.stored y (by rw [before, mem_append]; exact .inl inXs)
        · exact ⟨e, found, rfl, good⟩
        · exact listed.stored y (by rw [before, mem_append]; exact .inr inYs)
      refine ⟨t', listed', .inl ⟨ran.2.symm, .inr given, funext fun q => ?_⟩, fun covers {i} live => ?_⟩
      · by_cases same : q = e.question
        · have new := listed'.answerOf_cell (x := ⟨inst.tree.brk, e.question, id, -1⟩) (by rw [after]; simp) (by rw [entries, found])
          rw [same, update_self, ← new]
        · rw [update_of_ne same]
          refine listed.answerOf_congr listed' (fun y keyY => ?_) fun foundF => ⟨_, by rw [entries, foundF], rfl, rfl, rfl⟩
          rw [after, before, mem_append, mem_cons, mem_append]
          have notNew : y ≠ ⟨inst.tree.brk, e.question, id, -1⟩ := fun here => same (keyY.symm.trans (congrArg Rbtree.Cell.key here))
          simp [notNew]
      · rw [Live, entries] at live
        rw [after]
        rcases covers live with ⟨y, inY, value⟩ | rfl
        · rw [before, mem_append] at inY
          exact ⟨y, by rw [mem_append, mem_cons]; tauto, value⟩
        · exact ⟨⟨inst.tree.brk, e.question, i, -1⟩, by simp, rfl⟩

end

variable [LT F] [LE F] [DecidableLT F] [DecidableLE F] (A : FloatOps F)

/-- The stores that calls of `kvs_vector_set` lead to, whatever their allocations give. `dim` is an `int`. -/
inductive Reached : KvsVector F → Prop where
  | created : Reached kvsVectorCreate
  | set {inst inst' : KvsVector F} {alloc : VectorAlloc} {question answer str : CString} {dim ret : Int} (reached : Reached inst)
      (range : dim < 2^31) (ran : kvsVectorSet A alloc inst question answer dim str = some (inst', ret)) : Reached inst'

/-- A parsed vector is stored if it is not zero and there is memory for its entry, its place in the graph and its question. -/
def Accepts (alloc : VectorAlloc) (inst : KvsVector F) (question : CString) (vec : List F) : Prop :=
  ¬ vectorNorm A vec ≤ A.zero ∧ (alloc .entry = true ∧ alloc .question = true ∧ alloc .answer = true) ∧ GraphMemory alloc inst ∧
    Registers alloc inst question

omit [LT F] [DecidableLT F] in
theorem vectorEntryCreate_iff (alloc : VectorAlloc) (question answer : CString) (vec : List F) :
    vectorEntryCreate A alloc question answer vec ≠ none ↔
      ¬ vectorNorm A vec ≤ A.zero ∧ alloc .entry = true ∧ alloc .question = true ∧ alloc .answer = true := by
  unfold vectorEntryCreate
  split
  · rename_i failed
    rcases failed with failed | failed | failed <;> simp [failed]
  · rename_i given
    simp only [not_or, Bool.not_eq_false] at given
    split
    · rename_i zero
      simp [zero]
    · rename_i norm
      simp [norm, given]

theorem Listed.set (listed : Listed P inst t) {answer str : CString} {dim ret : Int}
    (parses : ∀ vec, parseVector A alloc str dim = some vec → P vec)
    (ran : kvsVectorSet A alloc inst question answer dim str = some (inst', ret)) :
    ∃ t', Listed P inst' t' ∧ (Covered inst t → Covered inst' t') ∧
      (parseVector A alloc str dim = none ∧ ret < 0 ∧ answerOf inst' = answerOf inst ∨
        ∃ vec, parseVector A alloc str dim = some vec ∧
          Outcome inst inst' question (answer, vec) (Accepts A alloc inst question vec) ret) := by
  unfold kvsVectorSet at ran
  by_cases noDim : dim ≤ 0
  · rw [if_pos noDim] at ran
    cases ran
    exact ⟨t, listed, fun covered => covered, .inl ⟨if_pos (.inl noDim), by decide, rfl⟩⟩
  rw [if_neg noDim] at ran
  cases parsed : parseVector A alloc str dim with
  | none =>
    rw [parsed] at ran
    cases ran
    exact ⟨t, listed, fun covered => covered, .inl ⟨rfl, by decide, rfl⟩⟩
  | some vec =>
    rw [parsed] at ran
    dsimp only at ran
    have memory := vectorEntryCreate_iff A alloc question answer vec
    cases made : vectorEntryCreate A alloc question answer vec with
    | none =>
      rw [made] at ran
      cases ran
      exact ⟨t, listed, fun covered => covered, .inr ⟨vec, rfl, .inr ⟨by decide, fun accepts => memory.mpr ⟨accepts.1, accepts.2.1⟩ made, rfl⟩⟩⟩
    | some e =>
      obtain ⟨norm, given⟩ := memory.mp (by rw [made]; exact some_ne_none e)
      have own : e.question = question ∧ e.answer = answer ∧ e.vector = vec := by
        unfold vectorEntryCreate at made
        split at made
        · cases made
        · cases made
          exact ⟨rfl, rfl, rfl⟩
      rw [made] at ran
      simp only [bind_eq_bind, bind_eq_some_iff] at ran
      obtain ⟨⟨inst1, attached⟩, attach, ran⟩ := ran
      obtain ⟨joined, new⟩ := vectorAttachToHnsw_regraphed A attach
      have graph := vectorAttachToHnsw_done A attach
      dsimp only at ran
      cases attached with
      | false =>
        rw [if_pos rfl] at ran
        cases ran
        -- the freed entry is the one behind those of the store before
        have freed : Regraphed inst { inst1 with items := inst1.items.set inst.nextId none } := by
          refine ⟨joined.tree, fun {id f} found => ?_, fun {id} live => ?_⟩
          · obtain ⟨f', found', same⟩ := joined.body found
            refine ⟨f', ?_, same⟩
            rw [entry_eq_some] at found' ⊢
            rw [getElem?_set_ne (entry_lt found).ne', found']
          · obtain ⟨f, found, alive⟩ := live
            rw [entry_eq_some] at found
            have other : inst.nextId ≠ id := by
              rintro rfl
              rw [getElem?_set_self' ] at found
              cases here : inst1.items[inst.nextId]? with
              | none =>
                rw [here] at found
                cases found
              | some slot =>
                rw [here] at found
                cases found
            rw [getElem?_set_ne other] at found
            exact (joined.live ⟨f, entry_eq_some.mpr found, alive⟩).resolve_right other.symm
        refine ⟨t, listed.joined freed.joined, fun covered {i} live => covered (freed.live live),
          .inr ⟨vec, rfl, .inr ⟨by decide, fun accepts => ?_, listed.answerOf_joined freed.joined⟩⟩⟩
        exact absurd (graph.mpr accepts.2.2.1) (by decide)
      | true =>
        rw [if_neg (by decide)] at ran
        obtain ⟨e', found, question', answer', vector'⟩ := new rfl
        rw [own.1] at question'
        rw [own.2.1] at answer'
        rw [own.2.2] at vector'
        subst question' answer' vector'
        obtain ⟨t', listed', outcome, covers⟩ := (listed.joined joined).register found (parses _ parsed) ran
        refine ⟨t', listed', fun covered => covers fun live => ?_, .inr ⟨_, rfl, ?_⟩⟩
        · rcases joined.live live with old | last
          · exact .inl (covered old)
          · exact .inr last
        · have accepts : Accepts A alloc inst e'.question e'.vector ↔ Registers alloc inst1 e'.question := by
            rw [Registers, listed.answerOf_joined joined]
            exact ⟨fun accepts => accepts.2.2.2, fun registers => ⟨norm, given, graph.mp rfl, registers⟩⟩
          rw [Outcome, accepts, ← listed.answerOf_joined joined]
          exact outcome

theorem Reached.listed (parses : ∀ alloc str dim vec, dim < 2^31 → parseVector A alloc str dim = some vec → P vec)
    (reached : Reached A inst) : ∃ t, Listed P inst t ∧ Covered inst t := by
  induction reached with
  | created =>
    refine ⟨.leaf, ⟨Rbtree.valid_create, fun x member => by cases member⟩, fun {id} live => ?_⟩
    obtain ⟨e, found, _⟩ := live
    exact absurd (entry_lt found) (Nat.not_lt_zero id)
  | set _ range ran ih =>
    obtain ⟨t, listed, covered⟩ := ih
    obtain ⟨t', listed', covers, _⟩ := listed.set A (fun vec => parses _ _ _ vec range) ran
    exact ⟨t', listed', covers covered⟩

end Listed

end KvsVector

end AICacheDB
