import AICacheDB.Vector.Lookup

open CLib RedBlack List Machine

namespace AICacheDB.KvsVector

open Rbtree

section Consistency

variable {F : Type} [LT F] [LE F] [DecidableLT F] [DecidableLE F] [FloatOrder F] (A : FloatOps F) {inst : KvsVector F}

theorem vectorStep_spec (ok : StoreOk inst) (c : VectorSetCall) :
    ∃ inst' ret, vectorStep A inst c = some (inst', ret) ∧ StoreOk inst' ∧
      ((ret < 0 ∧ inst' = inst) ∨ ret = 0 ∧ inst'.nextId = inst.nextId + 1) := by
  rw [vectorStep, kvsVectorSet_eq]
  obtain ⟨inst', ret, ran, ok', _, outcome⟩ :=
    kvsVectorSetDrawn_spec A ok c.question c.answer c.dim c.vectorStr (hnswRandomLevel inst.randSeed)
  refine ⟨inst', ret, ran, ok', ?_⟩
  rcases outcome with refused | ⟨rfl, vec, _, stored⟩
  · exact .inl refused
  · exact .inr ⟨rfl, stored.size⟩

theorem vectorStep_run (ok : StoreOk inst) (calls : List VectorSetCall) :
    ∃ inst' rets, run (vectorStep A) inst calls = some (inst', rets) ∧ StoreOk inst' ∧
      inst'.nextId = inst.nextId + rets.count 0 := by
  induction calls generalizing inst with
  | nil => exact ⟨inst, [], rfl, ok, rfl⟩
  | cons c calls ih =>
    obtain ⟨inst1, ret, ran1, ok1, outcome⟩ := vectorStep_spec A ok c
    obtain ⟨inst2, rets, ran2, ok2, size⟩ := ih ok1
    refine ⟨inst2, ret :: rets, by rw [run_cons_of_step calls ran1, ran2]; rfl, ok2, ?_⟩
    rcases outcome with ⟨negative, rfl⟩ | ⟨rfl, grown⟩
    · rw [size, count_cons_of_ne (by omega)]
    · rw [size, grown, count_cons_self]
      omega

/-- The question tree and the table of items describe the same entries, and the table has one item for each of so many calls. -/
structure Consistent (inst : KvsVector F) (calls : Nat) : Prop where
  tree : ∃ t : ColorTree (Rbtree.Cell CString Nat), Rbtree.Valid inst.tree t ∧ (t.inorder.map Rbtree.Cell.value).Nodup ∧
    (∀ id, id ∈ t.inorder.map Rbtree.Cell.value ↔ Live inst id) ∧
    (∀ x ∈ t.inorder, ∃ e, inst.entry x.value = some e ∧ e.question = x.key) ∧ inst.count = t.inorder.length
  ids : ∀ i < inst.nextId, ∃ e, inst.entry i = some e ∧ e.hnswId = i
  size : inst.nextId = calls

omit [LT F] [LE F] [DecidableLT F] [DecidableLE F] [FloatOrder F] in
theorem Registered.values_nodup {t : ColorTree (Cell CString Nat)} (registered : Registered inst t) :
    (t.inorder.map Cell.value).Nodup := by
  refine List.Nodup.map_on (fun x inX y inY same => ?_) ?_
  · exact cell_unique registered.valid inX inY (registered.unique inX inY same)
  · exact registered.valid.sorted.imp fun less same => absurd (congrArg Cell.key same) less.ne

omit [LT F] [LE F] [DecidableLT F] [DecidableLE F] [FloatOrder F] in
theorem StoreOk.consistent (ok : StoreOk inst) : Consistent inst inst.nextId := by
  obtain ⟨t, registered⟩ := ok.tree
  refine ⟨⟨t, registered.valid, registered.values_nodup, fun id => ⟨fun member => ?_, fun live => ?_⟩, fun x member => ?_,
    registered.count⟩, fun i small => ?_, rfl⟩
  · obtain ⟨x, inside, rfl⟩ := mem_map.mp member
    obtain ⟨e, found, alive, _⟩ := registered.stored x inside
    exact ⟨e, found, alive⟩
  · obtain ⟨e, found, alive⟩ := live
    obtain ⟨x, inside, value⟩ := registered.covered found alive
    exact mem_map.mpr ⟨x, inside, value⟩
  · obtain ⟨e, found, _, question⟩ := registered.stored x member
    exact ⟨e, found, question⟩
  · obtain ⟨e, found⟩ := ok.shape.live i small
    exact ⟨e, found, ok.shape.ids found⟩

/-- After any calls of `kvs_vector_set` the two indexes agree. -/
theorem vector_store_consistent (calls : List VectorSetCall) :
    ∃ inst rets, Machine.run (vectorStep A) kvsVectorCreate calls = some (inst, rets) ∧ Consistent inst (rets.count 0) := by
  obtain ⟨inst, rets, ran, ok, size⟩ := vectorStep_run A storeOk_create calls
  have total : inst.nextId = rets.count 0 := size.trans (Nat.zero_add _)
  exact ⟨inst, rets, ran, total ▸ ok.consistent⟩

theorem vector_store_consistent_thrice :
    ∃ inst rets, Machine.run (vectorStep wholeOps) kvsVectorCreate thriceCalls = some (inst, rets) ∧ Consistent inst (rets.count 0) :=
  vector_store_consistent wholeOps thriceCalls

end Consistency

section Graph

variable {F : Type} [LT F] [LE F] [DecidableLT F] [DecidableLE F] (A : FloatOps F) {inst : KvsVector F}

theorem hnswRandomLevelLoop_le (n level seed : Nat) : (hnswRandomLevelLoop n level seed).1 ≤ level + n := by
  induction n generalizing level seed with
  | zero => exact le_rfl
  | succ n ih =>
    rw [hnswRandomLevelLoop]
    split
    · exact Nat.le_add_right _ _
    · have rest := ih (level + 1) (hnswRand seed)
      omega

theorem hnswRandomLevel_lt (seed : Nat) : (hnswRandomLevel seed).1 < hnswMaxLevel := by
  have le : (hnswRandomLevel seed).1 ≤ 0 + (hnswMaxLevel - 1) := hnswRandomLevelLoop_le _ 0 seed
  have positive : 0 < hnswMaxLevel := by decide
  omega

structure WellFormed (inst : KvsVector F) : Prop where
  lists : ∀ ⦃id e⦄, inst.entry id = some e → ∀ level ≤ e.level, ∃ nbrs, e.neighbors[level]? = some nbrs ∧
    nbrs.length ≤ hnswM ∧ nbrs.Nodup ∧ id ∉ nbrs ∧
    ∀ n ∈ nbrs, n < inst.nextId ∧ ∃ f, inst.entry n = some f ∧ level ≤ f.level ∧ f.vector.length = e.vector.length
  items : ∀ id < inst.nextId, ∃ e, inst.entry id = some e ∧ e.level ≤ inst.maxLevel
  entry : 0 < inst.nextId → ∃ ep e, inst.entryPoint = some ep ∧ inst.entry ep = some e ∧ e.level = inst.maxLevel

omit [LT F] [LE F] [DecidableLT F] [DecidableLE F] in
theorem StoreOk.wellFormed (ok : StoreOk inst) (layered : Layered inst) : WellFormed inst := by
  refine ⟨fun id e found level fits => ?_, fun id small => ?_, fun some' => ?_⟩
  · have inside : level < e.neighbors.length := by
      have size := ok.shape.levels found
      omega
    have list := getElem?_eq_getElem inside
    have neighbors := layered.linked found list
    refine ⟨_, list, neighbors.few, neighbors.distinct, neighbors.notSelf, fun n member => ?_⟩
    obtain ⟨f, entry, reaches⟩ := neighbors.linked n member
    exact ⟨entry_lt entry, f, entry, reaches⟩
  · obtain ⟨e, found⟩ := ok.shape.live id small
    exact ⟨e, found, layered.top found⟩
  · have entryOk := ok.entry
    unfold EntryOk at entryOk
    cases start : inst.entryPoint with
    | none =>
      rw [start] at entryOk
      exact absurd entryOk (Nat.ne_of_gt some')
    | some ep =>
      rw [start] at entryOk
      obtain ⟨e, found, level⟩ := entryOk
      exact ⟨ep, e, rfl, found, level⟩

end Graph

end AICacheDB.KvsVector
