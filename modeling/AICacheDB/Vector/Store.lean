import AICacheDB.Vector.Search
import AICacheDB.Engine.Rbtree.Tree

open CLib RedBlack List
open Option hiding or_self

namespace AICacheDB.KvsVector

section Tokens

variable {F : Type} (A : FloatOps F) {vec : List F}

theorem parseTokens_length {tokens : List Bytes} {n : Nat} (parsed : parseTokens A tokens n = some vec) : vec.length = n := by
  induction tokens generalizing n vec with
  | nil =>
    cases n with
    | zero =>
      cases parsed
      rfl
    | succ n => cases parsed
  | cons token tokens ih =>
    cases n with
    | zero => cases parsed
    | succ n =>
      simp only [parseTokens, bind_eq_bind, bind_eq_some_iff] at parsed
      obtain ⟨v, _, vs, rest, done⟩ := parsed
      cases done
      rw [length_cons, ih rest]

theorem parseVector_length {alloc : VectorAlloc} {str : CString} {dim : Int}
    (parsed : parseVector A alloc str dim = some vec) : (vec.length : Int) = dim := by
  unfold parseVector at parsed
  split at parsed
  · cases parsed
  · rename_i good
    simp only [not_or] at good
    have length := parseTokens_length A parsed
    omega

end Tokens

section Register

variable {F : Type} {inst : KvsVector F}

/-- The entry point is an entry of the highest level; only an empty store has none. -/
def EntryOk (inst : KvsVector F) : Prop :=
  match inst.entryPoint with
  | none => inst.nextId = 0
  | some ep => ∃ e, inst.entry ep = some e ∧ e.level = inst.maxLevel

structure Layered (inst : KvsVector F) : Prop where
  linked : Linked inst
  top : ∀ ⦃id e⦄, inst.entry id = some e → e.level ≤ inst.maxLevel

structure Registered (inst : KvsVector F) (t : ColorTree (Rbtree.Cell CString Nat)) : Prop where
  valid : Rbtree.Valid inst.tree t
  stored : ∀ x ∈ t.inorder, ∃ e, inst.entry x.value = some e ∧ e.deleted = false ∧ e.question = x.key
  covered : ∀ {id e}, inst.entry id = some e → e.deleted = false → ∃ x ∈ t.inorder, x.value = id
  count : inst.count = t.inorder.length

variable {e : VectorEntry F} {t : ColorTree (Rbtree.Cell CString Nat)} {inst1 : KvsVector F}
  {e' : VectorEntry F} {id : Nat} {x : Rbtree.Cell CString Nat}

theorem GraphShape.setEntry (shape : GraphShape inst) (found : inst.entry id = some e)
    (own : e'.hnswId = e.hnswId) (level : e'.level = e.level) (lists : e'.neighbors = e.neighbors) :
    GraphShape (inst.setEntry id e') := by
  refine ⟨fun id' small => ?_, fun {id' f} found' => ?_, fun {id' f} found' => ?_, fun {id' f} found' {l nbrs} list n member => ?_⟩
  · by_cases same : id' = id
    · subst same
      exact ⟨e', entry_setEntry_self (entry_lt found) e'⟩
    · rw [nextId_setEntry] at small
      rw [entry_setEntry_of_ne _ same]
      exact shape.live id' small
  · rcases entry_setEntry found' with ⟨rfl, rfl⟩ | ⟨_, old⟩
    · exact own.trans (shape.ids found)
    · exact shape.ids old
  · rcases entry_setEntry found' with ⟨rfl, rfl⟩ | ⟨_, old⟩
    · rw [lists, level]
      exact shape.levels found
    · exact shape.levels old
  · rw [nextId_setEntry]
    rcases entry_setEntry found' with ⟨rfl, rfl⟩ | ⟨_, old⟩
    · rw [lists] at list
      exact shape.inRange found list n member
    · exact shape.inRange old list n member

theorem EntryOk.setEntry (entryOk : EntryOk inst) (found : inst.entry id = some e)
    (level : e'.level = e.level) : EntryOk (inst.setEntry id e') := by
  unfold EntryOk at entryOk ⊢
  have point : (inst.setEntry id e').entryPoint = inst.entryPoint := rfl
  rw [point]
  cases start : inst.entryPoint with
  | none =>
    rw [start] at entryOk
    exact (nextId_setEntry inst id e').trans entryOk
  | some ep =>
    rw [start] at entryOk
    obtain ⟨f, foundEp, top⟩ := entryOk
    by_cases same : ep = id
    · subst same
      rw [found] at foundEp
      cases foundEp
      exact ⟨e', entry_setEntry_self (entry_lt found) e', level.trans top⟩
    · exact ⟨f, (entry_setEntry_of_ne _ same).trans foundEp, top⟩

variable {inst' : KvsVector F}

theorem EntryOk.congr (entryOk : EntryOk inst) (items : inst'.items = inst.items)
    (point : inst'.entryPoint = inst.entryPoint) (top : inst'.maxLevel = inst.maxLevel) : EntryOk inst' := by
  unfold EntryOk at entryOk ⊢
  rw [point]
  cases start : inst.entryPoint with
  | none =>
    rw [start] at entryOk
    exact (nextId_congr items).trans entryOk
  | some ep =>
    rw [start] at entryOk
    obtain ⟨e, found, level⟩ := entryOk
    exact ⟨e, (entry_congr items ep).trans found, level.trans top.symm⟩

theorem Layered.congr (layered : Layered inst) (items : inst'.items = inst.items)
    (top : inst'.maxLevel = inst.maxLevel) : Layered inst' := by
  refine ⟨fun id e found l nbrs list => ?_, fun id e found => ?_⟩
  · have old := (entry_congr items id).symm.trans found
    exact (layered.linked old list).kept (fun i g entry => ⟨g, (entry_congr items i).trans entry, rfl, rfl⟩) rfl
  · rw [top]
    exact layered.top ((entry_congr items id).symm.trans found)

theorem Layered.setEntry (layered : Layered inst) (found : inst.entry id = some e)
    (level : e'.level = e.level) (vector : e'.vector = e.vector) (lists : e'.neighbors = e.neighbors) :
    Layered (inst.setEntry id e') := by
  have same : SameNodes inst (inst.setEntry id e') := by
    intro i g entry
    by_cases here : i = id
    · subst here
      rw [found] at entry
      cases entry
      exact ⟨e', entry_setEntry_self (entry_lt found) e', level, vector⟩
    · exact ⟨g, (entry_setEntry_of_ne _ here).trans entry, rfl, rfl⟩
  refine ⟨fun i g entry l nbrs list => ?_, fun i g entry => ?_⟩
  · rcases entry_setEntry entry with ⟨rfl, rfl⟩ | ⟨_, old⟩
    · rw [lists] at list
      exact (layered.linked found list).kept same vector
    · exact (layered.linked old list).kept same rfl
  · rcases entry_setEntry entry with ⟨rfl, rfl⟩ | ⟨_, old⟩
    · rw [level]
      exact layered.top found
    · exact layered.top old

/-- The new entry comes last and the old ones with its question become tombstones. -/
structure Stored (inst : KvsVector F) (question answer : CString) (vec : List F) (inst' : KvsVector F) : Prop where
  size : inst'.nextId = inst.nextId + 1
  new : ∃ e, inst'.entry inst.nextId = some e ∧ e.question = question ∧ e.answer = answer ∧ e.vector = vec ∧ e.deleted = false
  old : ∀ {id e}, inst.entry id = some e → ∃ e', inst'.entry id = some e' ∧ e'.question = e.question ∧ e'.answer = e.answer ∧
    e'.vector = e.vector ∧ (e'.deleted = true ↔ e.deleted = true ∨ e.question = question)

theorem Registered.live_cell (registered : Registered inst t)
    (found : inst.entry id = some e) (live : e.deleted = false) : ∃ x ∈ t.inorder, x.key = e.question ∧ x.value = id := by
  obtain ⟨x, member, value⟩ := registered.covered found live
  obtain ⟨f, found', _, key⟩ := registered.stored x member
  rw [value, found] at found'
  cases found'
  exact ⟨x, member, key.symm, value⟩

theorem Registered.unique (registered : Registered inst t) {y : Rbtree.Cell CString Nat}
    (inX : x ∈ t.inorder) (inY : y ∈ t.inorder) (same : x.value = y.value) : x.key = y.key := by
  obtain ⟨e, found, _, key⟩ := registered.stored x inX
  obtain ⟨f, found', _, key'⟩ := registered.stored y inY
  rw [same, found'] at found
  cases found
  rw [← key, ← key']

structure Attached (inst : KvsVector F) (e : VectorEntry F) (inst' : KvsVector F) : Prop where
  shape : GraphShape inst'
  entry : EntryOk inst'
  size : inst'.nextId = inst.nextId + 1
  tree : inst'.tree = inst.tree
  count : inst'.count = inst.count
  old : ∀ {id e0}, inst.entry id = some e0 → ∃ nbrs, inst'.entry id = some { e0 with neighbors := nbrs }
  new : ∃ level nbrs, inst'.entry inst.nextId = some { e with hnswId := inst.nextId, level := level, neighbors := nbrs }
  layered : Layered inst → Layered inst'

theorem Attached.cases {f : VectorEntry F} (attached : Attached inst e inst1) (shape : GraphShape inst)
    (found : inst1.entry id = some f) :
    (∃ f0, inst.entry id = some f0 ∧ f.deleted = f0.deleted ∧ f.vector = f0.vector ∧ f.norm = f0.norm) ∨
      id = inst.nextId ∧ f.deleted = e.deleted ∧ f.vector = e.vector ∧ f.norm = e.norm := by
  have small := entry_lt found
  rw [attached.size] at small
  rcases Nat.lt_or_ge id inst.nextId with inside | beyond
  · obtain ⟨f0, found0⟩ := shape.live id inside
    obtain ⟨nbrs, found1⟩ := attached.old found0
    rw [found] at found1
    cases found1
    exact .inl ⟨f0, found0, rfl, rfl, rfl⟩
  · have here : id = inst.nextId := by omega
    obtain ⟨level, nbrs, foundNew⟩ := attached.new
    rw [here, foundNew] at found
    cases found
    exact .inr ⟨here, rfl, rfl, rfl⟩

theorem register_new
    (shape : GraphShape inst) (registered : Registered inst t) (attached : Attached inst e inst1) (fresh : e.deleted = false)
    (absent : ∀ x ∈ t.inorder, x.key ≠ e.question) (search : inst1.tree.rbtreeSearch e.question = some Rbtree.nil) :
    ∃ inst' t', vectorRegister .ok inst1 e.question inst.nextId = some (inst', 0) ∧ Registered inst' t' ∧
      inst'.items = inst1.items ∧ inst'.entryPoint = inst1.entryPoint ∧ inst'.maxLevel = inst1.maxLevel := by
  let node : RbtreeNode CString Nat := ⟨.black, Rbtree.nil, Rbtree.nil, Rbtree.nil, e.question, inst.nextId, -1⟩
  let x : Rbtree.Cell CString Nat := ⟨inst1.tree.brk, e.question, inst.nextId, -1⟩
  have valid : Rbtree.Valid inst1.tree t := by
    rw [attached.tree]
    exact registered.valid
  obtain ⟨valid1, place, live, own, _⟩ := Rbtree.malloc_spec valid node
  obtain ⟨T', t', xs, ys, ran, valid', before, after, _⟩ :=
    Rbtree.rbtreeInsert_spec (x := x) valid1 live own ⟨rfl, rfl, rfl⟩ absent
  obtain ⟨level, nbrs, foundNew⟩ := attached.new
  refine ⟨{ inst1 with tree := T', count := inst1.count + 1 }, t', ?_, ⟨valid', fun y member => ?_, fun {id f} found live => ?_, ?_⟩, rfl,
    rfl, rfl⟩
  · have insert : (inst1.tree.malloc node).1.rbtreeInsert (inst1.tree.malloc node).2 = some T' := by
      rw [place]
      exact ran
    simp only [vectorRegister, search, bind_eq_bind, bind_some, ne_eq, not_true_eq_false, if_false,
      VectorAlloc.ok_apply, Bool.true_eq_false, or_self]
    show ((inst1.tree.malloc node).1.rbtreeInsert (inst1.tree.malloc node).2).bind _ = _
    rw [insert]
    rfl
  · rw [after, mem_append, mem_cons] at member
    have old : ∀ y, y ∈ xs ∨ y ∈ ys → ∃ f, inst1.entry y.value = some f ∧ f.deleted = false ∧ f.question = y.key := by
      intro y inside
      obtain ⟨f, found, flag, key⟩ := registered.stored y (by rw [before, mem_append]; exact inside)
      obtain ⟨nbrs, found'⟩ := attached.old found
      exact ⟨_, found', flag, key⟩
    rcases member with inXs | rfl | inYs
    · exact old y (.inl inXs)
    · exact ⟨_, foundNew, fresh, rfl⟩
    · exact old y (.inr inYs)
  · rw [after]
    rcases attached.cases shape found with ⟨f0, found0, flag, _⟩ | ⟨rfl, _⟩
    · obtain ⟨y, member, value⟩ := registered.covered found0 (flag ▸ live)
      rw [before, mem_append] at member
      exact ⟨y, by rw [mem_append, mem_cons]; tauto, value⟩
    · exact ⟨x, by simp, rfl⟩
  · have size : inst1.count = t.inorder.length := attached.count.trans registered.count
    rw [after, length_append, length_cons]
    rw [before, length_append] at size
    simp only [size]
    omega

theorem register_again
    (shape : GraphShape inst) (registered : Registered inst t) (attached : Attached inst e inst1) (fresh : e.deleted = false)
    (member : x ∈ t.inorder) (key : x.key = e.question) (search : inst1.tree.rbtreeSearch e.question = some x.addr) :
    ∃ inst' t' old, vectorRegister .ok inst1 e.question inst.nextId = some (inst', 0) ∧ Registered inst' t' ∧
      inst1.entry x.value = some old ∧ old.question = e.question ∧
      inst'.items = (inst1.setEntry x.value { old with deleted := true }).items ∧
      inst'.entryPoint = inst1.entryPoint ∧ inst'.maxLevel = inst1.maxLevel := by
  have valid : Rbtree.Valid inst1.tree t := by
    rw [attached.tree]
    exact registered.valid
  have real : x.addr ≠ Rbtree.nil := ne_of_mem_of_not_mem (mem_map_of_mem member) valid.rep.notNil
  obtain ⟨n, live, _, value, _⟩ := valid.rep.cell member
  obtain ⟨old0, found0, flag0, question⟩ := registered.stored x member
  obtain ⟨nbrs0, foundOld⟩ := attached.old found0
  obtain ⟨level, nbrs, foundNew⟩ := attached.new
  obtain ⟨T', t', xs, ys, ran, valid', before, after⟩ := Rbtree.modify_valid valid member inst.nextId x.expireMs
    (fun node => { node with value := inst.nextId }) fun n _ _ same => by rw [← same]
  have apart : ∀ y, y ∈ xs ∨ y ∈ ys → y.value ≠ x.value := by
    intro y inside equal
    have sorted := registered.valid.sorted
    rw [before] at sorted
    have inT : y ∈ t.inorder := by
      rw [before, mem_append, mem_cons]
      tauto
    have keys := registered.unique inT member equal
    obtain ⟨_, right, across⟩ := pairwise_append.mp sorted
    rcases inside with inXs | inYs
    · exact absurd keys (across y inXs x (by simp)).ne
    · exact absurd keys ((pairwise_cons.mp right).1 y inYs).ne'
  have newer : inst.nextId ≠ x.value := (entry_lt found0).ne'
  let marked := inst1.setEntry x.value { old0 with neighbors := nbrs0, deleted := true }
  refine ⟨{ marked with tree := T' }, t', _, ?_, ⟨valid', fun y inside => ?_, fun {id f} found alive => ?_, ?_⟩, foundOld,
    question.trans key, rfl, rfl, rfl⟩
  · simp only [vectorRegister, search, bind_eq_bind, bind_some, ne_eq, real, not_false_eq_true, if_true, live,
      value, foundOld, ran]
    rfl
  · rw [after, mem_append, mem_cons] at inside
    have kept : ∀ y, y ∈ xs ∨ y ∈ ys → ∃ f, marked.entry y.value = some f ∧ f.deleted = false ∧ f.question = y.key := by
      intro y inside
      obtain ⟨f, found, flag, key⟩ := registered.stored y (by rw [before, mem_append, mem_cons]; tauto)
      obtain ⟨nbrs, found'⟩ := attached.old found
      exact ⟨_, (entry_setEntry_of_ne _ (apart y inside)).trans found', flag, key⟩
    rcases inside with inXs | rfl | inYs
    · exact kept y (.inl inXs)
    · exact ⟨_, (entry_setEntry_of_ne _ newer).trans foundNew, fresh, key.symm⟩
    · exact kept y (.inr inYs)
  · rw [after]
    rcases entry_setEntry found with ⟨_, rfl⟩ | ⟨other, found1⟩
    · cases alive
    · rcases attached.cases shape found1 with ⟨f0, found0', flag, _⟩ | ⟨rfl, _⟩
      · obtain ⟨y, inside, value⟩ := registered.covered found0' (flag ▸ alive)
        rw [before, mem_append, mem_cons] at inside
        have notX : y ≠ x := fun same => other (by rw [← value, same])
        exact ⟨y, by rw [mem_append, mem_cons]; tauto, value⟩
      · exact ⟨{ x with value := inst.nextId }, by simp, rfl⟩
  · have size : inst1.count = t.inorder.length := attached.count.trans registered.count
    rw [before] at size
    rw [after]
    show inst1.count = _
    simpa using size

end Register

structure StoreOk {F : Type} (inst : KvsVector F) : Prop where
  shape : GraphShape inst
  entry : EntryOk inst
  tree : ∃ t, Registered inst t

variable {F : Type} [LT F] [LE F] [DecidableLT F] [DecidableLE F] (A : FloatOps F) {inst : KvsVector F}

structure VectorValid (inst : KvsVector F) : Prop where
  shape : GraphShape inst
  entry : EntryOk inst
  norms : ∀ {id e}, inst.entry id = some e → e.norm = vectorNorm A e.vector ∧ A.zero < e.norm
  tree : ∃ t, Registered inst t

omit [LE F] [DecidableLT F] [DecidableLE F] in
theorem VectorValid.ok (valid : VectorValid A inst) : StoreOk inst := ⟨valid.shape, valid.entry, valid.tree⟩

omit [LT F] [LE F] [DecidableLT F] [DecidableLE F] in
theorem storeOk_create : StoreOk (kvsVectorCreate : KvsVector F) := by
  have empty : ∀ {id : Nat} {e : VectorEntry F}, (kvsVectorCreate : KvsVector F).entry id ≠ some e := by
    intro id e found
    exact absurd (entry_lt found) (Nat.not_lt_zero id)
  refine ⟨⟨fun id small => absurd small (Nat.not_lt_zero id), fun found => absurd found empty, fun found => absurd found empty,
    fun found => absurd found empty⟩, rfl, .leaf, Rbtree.valid_create, ?_, ?_, rfl⟩
  · intro x member
    cases member
  · exact fun found => absurd found empty

omit [LE F] [DecidableLT F] [DecidableLE F] in
theorem vectorValid_create : VectorValid A (kvsVectorCreate : KvsVector F) := by
  obtain ⟨shape, entry, tree⟩ := storeOk_create (F := F)
  refine ⟨shape, entry, fun {id e} found => ?_, tree⟩
  exact absurd (entry_lt found) (Nat.not_lt_zero id)

section Drawn

/-- `vector_attach_to_hnsw` with what `hnsw_random_level` draws: the level and the new seed. -/
def vectorAttachDrawn (alloc : VectorAlloc) (inst : KvsVector F) (e : VectorEntry F) (draw : Nat × Nat) : Option (KvsVector F × Bool) :=
  match ensureItemCapacity alloc inst with
  | none => some (inst, false)
  | some inst => attachWithLevel A alloc inst e draw

def kvsVectorSetDrawn (alloc : VectorAlloc) (inst : KvsVector F) (question answer : CString) (dim : Int) (str : CString) (draw : Nat × Nat) :
    Option (KvsVector F × Int) :=
  if dim ≤ 0 then some (inst, -1)
  else
    match parseVector A alloc str dim with
    | none => some (inst, -2)
    | some vec =>
      match vectorEntryCreate A alloc question answer vec with
      | none => some (inst, -2)
      | some e => do
        let id := inst.nextId
        let (inst, attached) ← vectorAttachDrawn A alloc inst e draw
        if attached = false then some ({ inst with items := inst.items.set id none }, -2)
        else vectorRegister alloc inst question id

theorem vectorAttachToHnsw_eq (alloc : VectorAlloc) (inst : KvsVector F) (e : VectorEntry F) :
    vectorAttachToHnsw A alloc inst e = vectorAttachDrawn A alloc inst e (hnswRandomLevel inst.randSeed) := by
  unfold vectorAttachToHnsw vectorAttachDrawn ensureItemCapacity
  by_cases room : inst.nextId < inst.itemCap
  · simp [room]
  · cases memory : alloc .items with
    | false => simp [room]
    | true => simp [room]

theorem kvsVectorSet_eq (alloc : VectorAlloc) (inst : KvsVector F) (question answer : CString) (dim : Int) (str : CString) :
    kvsVectorSet A alloc inst question answer dim str =
      kvsVectorSetDrawn A alloc inst question answer dim str (hnswRandomLevel inst.randSeed) := by
  unfold kvsVectorSet kvsVectorSetDrawn
  by_cases noDim : dim ≤ 0
  · rw [if_pos noDim, if_pos noDim]
  · rw [if_neg noDim, if_neg noDim]
    cases parseVector A alloc str dim with
    | none => rfl
    | some vec =>
      cases made : vectorEntryCreate A alloc question answer vec with
      | none => simp only [made]
      | some e => simp only [made, vectorAttachToHnsw_eq]

end Drawn

section Insert

variable [FloatOrder F]

theorem insertLayers_spec (shape : GraphShape inst) (id : Nat) (q : VectorQuery F) (level : Nat) {ep : Nat}
    (small : ep < inst.nextId) : ∃ inst', insertLayers A .ok id q level ep inst = some (inst', true) ∧ Relinked inst inst' ∧
      (Linked inst → OnLevel inst level id → OnLevel inst level ep → Linked inst') := by
  induction level generalizing inst ep with
  | zero =>
    obtain ⟨found, search, _, _, _, _, path⟩ := hnswSearchLayer_spec A (q := q) shape (show 0 < hnswEfConstruction by decide) 0 small
    obtain ⟨inst1, link, relinked, links⟩ := linkFound_spec A shape id 0 found
    refine ⟨inst1, ?_, relinked, fun linked own start => links linked own (path _ linked.leads start)⟩
    simp [insertLayers, search, link]
  | succ level ih =>
    obtain ⟨found, search, items, _, _, _, path⟩ :=
      hnswSearchLayer_spec A (q := q) shape (show 0 < hnswEfConstruction by decide) (level + 1) small
    obtain ⟨inst1, link, relinked, links⟩ := linkFound_spec A shape id (level + 1) found
    have next : (found.head?.map Candidate.id).getD ep < inst1.nextId := by
      rw [relinked.size]
      cases found with
      | nil => exact small
      | cons c rest => exact (items.own c (by simp)).1
    obtain ⟨inst2, rest, relinked2, links2⟩ := ih relinked.shape next
    refine ⟨inst2, ?_, relinked.trans relinked2, fun linked own start => ?_⟩
    · rw [insertLayers]
      simp [search, link, rest]
    · have others := path _ linked.leads start
      have same := relinked.sameNodes
      apply links2 (links linked own others) ((own.mono (Nat.le_succ level)).kept same)
      refine OnLevel.kept (OnLevel.mono ?_ (Nat.le_succ level)) same
      cases found with
      | nil => exact start
      | cons c rest => exact others c mem_cons_self

theorem hnswInsert_spec {e : VectorEntry F} (shape : GraphShape (inst.push e)) (entryOk : EntryOk inst)
    (own : e.hnswId = inst.nextId) :
    ∃ inst' nbrs, hnswInsert A .ok (inst.push e) e = some (inst', true) ∧ GraphShape inst' ∧ EntryOk inst' ∧
      inst'.nextId = inst.nextId + 1 ∧ inst'.tree = inst.tree ∧ inst'.count = inst.count ∧
      (∀ {id e0}, inst.entry id = some e0 → ∃ nbrs, inst'.entry id = some { e0 with neighbors := nbrs }) ∧
      inst'.entry inst.nextId = some { e with neighbors := nbrs } ∧ (Layered inst → Linked (inst.push e) → Layered inst') := by
  unfold EntryOk at entryOk
  cases start : inst.entryPoint with
  | none =>
    rw [start] at entryOk
    have none' : (inst.push e).entryPoint = none := start
    refine ⟨{ inst.push e with entryPoint := some e.hnswId, maxLevel := e.level }, e.neighbors, ?_, ?_, ?_, nextId_push inst e, rfl,
      rfl, fun found => ⟨_, entry_push_old e found⟩, entry_push_self inst e, fun layered linked => ?_⟩
    · simp only [hnswInsert, none']
    · exact ⟨shape.live, shape.ids, shape.levels, shape.inRange⟩
    · exact ⟨e, own ▸ entry_push_self inst e, rfl⟩
    · refine ⟨fun id f found l nbrs list => ?_, fun id f found => ?_⟩
      · exact (linked found list).kept (fun _ g found => ⟨g, found, rfl, rfl⟩) rfl
      · rcases entry_push found with old | ⟨_, rfl⟩
        · have impossible := entry_lt old
          omega
        · exact le_rfl
  | some ep =>
    rw [start] at entryOk
    obtain ⟨top, foundTop, level⟩ := entryOk
    have some' : (inst.push e).entryPoint = some ep := start
    have smallEp : ep < (inst.push e).nextId := entry_lt (entry_push_old e foundTop)
    obtain ⟨r, descend, smallR, _, _, on⟩ :=
      greedyDescend_spec A (q := e.query) shape e.level (inst.push e).maxLevel smallEp
    obtain ⟨inst1, layers, relinked, links⟩ :=
      insertLayers_spec A shape e.hnswId e.query (min e.level (inst.push e).maxLevel) smallR
    obtain ⟨nbrs, foundNew⟩ := relinked.body (entry_push_self inst e)
    have old : ∀ {id e0}, inst.entry id = some e0 → ∃ nbrs, inst1.entry id = some { e0 with neighbors := nbrs } :=
      fun found => relinked.body (entry_push_old e found)
    have size : inst1.nextId = inst.nextId + 1 := relinked.size.trans (nextId_push inst e)
    have sameTree : inst1.tree = inst.tree := by rw [relinked.rest]; rfl
    have sameCount : inst1.count = inst.count := by rw [relinked.rest]; rfl
    have samePoint : inst1.entryPoint = some ep := by rw [relinked.rest]; exact start
    have sameLevel : inst1.maxLevel = inst.maxLevel := by rw [relinked.rest]; rfl
    have linked1 : Linked (inst.push e) → Linked inst1 := by
      intro linked
      apply links linked ⟨e, own ▸ entry_push_self inst e, Nat.min_le_left _ _⟩
      exact on linked ⟨top, entry_push_old e foundTop, level.ge⟩
    have levels : ∀ {id f}, inst1.entry id = some f → (∃ f0, inst.entry id = some f0 ∧ f.level = f0.level) ∨ f.level = e.level := by
      intro id f found
      obtain ⟨_, f0, found0, rfl⟩ := relinked.origin shape found
      rcases entry_push found0 with old | ⟨_, rfl⟩
      · exact .inl ⟨f0, old, rfl⟩
      · exact .inr rfl
    by_cases higher : inst1.maxLevel < e.level
    · refine ⟨{ inst1 with maxLevel := e.level, entryPoint := some e.hnswId }, nbrs, ?_, ?_, ?_, size, sameTree, sameCount, old,
        foundNew, fun layered linked => ⟨fun id f found l nbrs list => ?_, fun id f found => ?_⟩⟩
      · simp [hnswInsert, some', descend, layers, higher]
      · exact ⟨relinked.shape.live, relinked.shape.ids, relinked.shape.levels, relinked.shape.inRange⟩
      · have atOwn := foundNew
        rw [← own] at atOwn
        exact ⟨{ e with neighbors := nbrs }, atOwn, rfl⟩
      · exact (linked1 linked found list).kept (fun _ g found => ⟨g, found, rfl, rfl⟩) rfl
      · show f.level ≤ e.level
        rcases levels found with ⟨f0, old0, same⟩ | same
        · have below := layered.top old0
          omega
        · exact same.le
    · refine ⟨inst1, nbrs, ?_, relinked.shape, ?_, size, sameTree, sameCount, old, foundNew,
        fun layered linked => ⟨linked1 linked, fun id f found => ?_⟩⟩
      · simp [hnswInsert, some', descend, layers, higher]
      · unfold EntryOk
        rw [samePoint]
        obtain ⟨nbrs', foundTop'⟩ := old foundTop
        exact ⟨_, foundTop', level.trans sameLevel.symm⟩
      · rcases levels found with ⟨f0, old0, same⟩ | same
        · have below := layered.top old0
          omega
        · omega

omit [LT F] [LE F] [DecidableLT F] [DecidableLE F] [FloatOrder F] in
theorem ensureItemCapacity_ok (inst : KvsVector F) :
    ∃ cap, ensureItemCapacity .ok inst = some { inst with itemCap := cap } := by
  by_cases room : inst.nextId < inst.itemCap
  · exact ⟨inst.itemCap, by simp [ensureItemCapacity, room]⟩
  · exact ⟨_, by simp [ensureItemCapacity, room]; rfl⟩

theorem attachWithLevel_spec (shape : GraphShape inst) (entryOk : EntryOk inst) (e : VectorEntry F) (draw : Nat × Nat) :
    ∃ inst', attachWithLevel A .ok inst e draw = some (inst', true) ∧ Attached inst e inst' := by
  let inst1 : KvsVector F := { inst with randSeed := draw.2 }
  let e1 : VectorEntry F := { e with hnswId := inst.nextId, level := draw.1, neighbors := replicate (draw.1 + 1) [] }
  have shape1 : GraphShape inst1 := ⟨shape.live, shape.ids, shape.levels, shape.inRange⟩
  have pushed : GraphShape (inst1.push e1) := shape1.push rfl rfl
  obtain ⟨inst', nbrs, ran, shape', entry, size, tree, count, old, new, layers⟩ :=
    hnswInsert_spec A pushed entryOk rfl
  have lists : (range (draw.1 + 1)).all (fun l => VectorAlloc.ok (.neighbors l)) = true := by simp
  refine ⟨inst', ?_, shape', entry, size, tree, count, old, ⟨draw.1, nbrs, new⟩, fun layered => ?_⟩
  · rw [← ran]
    simp only [attachWithLevel, lists, Bool.true_eq_false, if_false]
    rfl
  · have layered1 : Layered inst1 := layered.congr rfl rfl
    exact layers layered1 (layered1.linked.push rfl)

theorem vectorAttachDrawn_spec (ok : StoreOk inst) (e : VectorEntry F) (draw : Nat × Nat) :
    ∃ inst', vectorAttachDrawn A .ok inst e draw = some (inst', true) ∧ Attached inst e inst' := by
  obtain ⟨cap, ensured⟩ := ensureItemCapacity_ok inst
  let inst1 : KvsVector F := { inst with itemCap := cap }
  have shape1 : GraphShape inst1 := ⟨ok.shape.live, ok.shape.ids, ok.shape.levels, ok.shape.inRange⟩
  obtain ⟨inst', ran, attached⟩ := attachWithLevel_spec A shape1 ok.entry e draw
  refine ⟨inst', by simp only [vectorAttachDrawn, ensured]; exact ran, ?_⟩
  exact ⟨attached.shape, attached.entry, attached.size, attached.tree, attached.count, attached.old, attached.new,
    fun layered => attached.layered (layered.congr rfl rfl)⟩

end Insert

section Set

omit [LT F] [DecidableLT F] in
theorem vectorEntryCreate_cases (question answer : CString) (vec : List F) :
    (vectorEntryCreate A .ok question answer vec = none ∧ vectorNorm A vec ≤ A.zero) ∨
      vectorEntryCreate A .ok question answer vec = some ⟨question, answer, vec, vectorNorm A vec, 0, 0, false, []⟩ ∧
        ¬ vectorNorm A vec ≤ A.zero := by
  by_cases flat : vectorNorm A vec ≤ A.zero
  · exact .inl ⟨by simp [vectorEntryCreate, flat], flat⟩
  · exact .inr ⟨by simp [vectorEntryCreate, flat], flat⟩

def Bodies (inst : KvsVector F) (e : VectorEntry F) (inst' : KvsVector F) : Prop :=
  ∀ {id f}, inst'.entry id = some f →
    (∃ f0, inst.entry id = some f0 ∧ f.vector = f0.vector ∧ f.norm = f0.norm) ∨ f.vector = e.vector ∧ f.norm = e.norm

omit [LT F] [LE F] [DecidableLT F] [DecidableLE F] in
theorem vectorRegister_spec {e : VectorEntry F} {inst1 : KvsVector F} (ok : StoreOk inst) (attached : Attached inst e inst1)
    (fresh : e.deleted = false) : ∃ inst', vectorRegister .ok inst1 e.question inst.nextId = some (inst', 0) ∧ StoreOk inst' ∧
      Stored inst e.question e.answer e.vector inst' ∧ Bodies inst e inst' ∧ (Layered inst → Layered inst') := by
  obtain ⟨t, registered⟩ := ok.tree
  have bodies1 : Bodies inst e inst1 := by
    intro id f found
    rcases attached.cases ok.shape found with ⟨f0, found0, _, vector, norm⟩ | ⟨_, _, vector, norm⟩
    · exact .inl ⟨f0, found0, vector, norm⟩
    · exact .inr ⟨vector, norm⟩
  obtain ⟨level, nbrs, foundNew⟩ := attached.new
  have valid1 : Rbtree.Valid inst1.tree t := by
    rw [attached.tree]
    exact registered.valid
  rcases Rbtree.rbtreeSearch_spec valid1 e.question with ⟨x, member, key, search⟩ | ⟨absent, search⟩
  · obtain ⟨inst', t', old, ran, registered', foundOld, question, items, point, top⟩ :=
      register_again ok.shape registered attached fresh member key search
    have shape' : GraphShape (inst1.setEntry x.value { old with deleted := true }) :=
      attached.shape.setEntry foundOld rfl rfl rfl
    have entry' : EntryOk (inst1.setEntry x.value { old with deleted := true }) := attached.entry.setEntry foundOld rfl
    have layers : Layered inst → Layered (inst1.setEntry x.value { old with deleted := true }) :=
      fun layered => (attached.layered layered).setEntry foundOld rfl rfl rfl
    have newer : inst.nextId ≠ x.value := by
      obtain ⟨f, found, _⟩ := registered.stored x member
      exact (entry_lt found).ne'
    refine ⟨inst', ran, ⟨shape'.congr items, entry'.congr items point top, t', registered'⟩, ⟨?_, ?_, fun {id f} found => ?_⟩,
      fun {id f} found => ?_, fun layered => (layers layered).congr items top⟩
    · rw [nextId_congr items, nextId_setEntry, attached.size]
    · exact ⟨_, (entry_congr items _).trans ((entry_setEntry_of_ne _ newer).trans foundNew), rfl, rfl, rfl, fresh⟩
    · obtain ⟨nbrs', found1⟩ := attached.old found
      by_cases here : id = x.value
      · subst here
        rw [found1] at foundOld
        cases foundOld
        refine ⟨_, (entry_congr items _).trans (entry_setEntry_self (entry_lt found1) _), rfl, rfl, rfl, ?_⟩
        exact ⟨fun _ => .inr question, fun _ => rfl⟩
      · refine ⟨_, (entry_congr items _).trans ((entry_setEntry_of_ne _ here).trans found1), rfl, rfl, rfl, .inl, ?_⟩
        rintro (gone | same)
        · exact gone
        · by_contra live
          obtain ⟨y, inY, keyY, value⟩ := registered.live_cell found (by simpa using live)
          have equal := Rbtree.cell_unique registered.valid inY member (by rw [keyY, key, same])
          exact here (by rw [← value, equal])
    · rw [entry_congr items] at found
      rcases entry_setEntry found with ⟨rfl, rfl⟩ | ⟨_, found1⟩
      · have body := bodies1 foundOld
        exact body
      · exact bodies1 found1
  · obtain ⟨inst', t', ran, registered', items, point, top⟩ :=
      register_new ok.shape registered attached fresh absent search
    refine ⟨inst', ran, ⟨attached.shape.congr items, attached.entry.congr items point top, t', registered'⟩,
      ⟨?_, ?_, fun {id f} found => ?_⟩, fun {id f} found => bodies1 ((entry_congr items id).symm.trans found),
      fun layered => (attached.layered layered).congr items top⟩
    · rw [nextId_congr items, attached.size]
    · exact ⟨_, (entry_congr items _).trans foundNew, rfl, rfl, rfl, fresh⟩
    · obtain ⟨nbrs', found1⟩ := attached.old found
      refine ⟨_, (entry_congr items _).trans found1, rfl, rfl, rfl, .inl, ?_⟩
      rintro (gone | same)
      · exact gone
      · by_contra live
        obtain ⟨y, inY, keyY, _⟩ := registered.live_cell found (by simpa using live)
        exact absent y inY (keyY.trans same)

def Takes (dim : Int) (str : CString) (vec : List F) : Prop := parseVector A .ok str dim = some vec ∧ ¬ vectorNorm A vec ≤ A.zero

variable [FloatOrder F] {str : CString}

theorem kvsVectorSetDrawn_accepted (ok : StoreOk inst) (question answer : CString) {dim : Int} {vec : List F}
    (takes : Takes A dim str vec) (draw : Nat × Nat) :
    ∃ inst', kvsVectorSetDrawn A .ok inst question answer dim str draw = some (inst', 0) ∧ StoreOk inst' ∧
      Stored inst question answer vec inst' ∧ Bodies inst ⟨question, answer, vec, vectorNorm A vec, 0, 0, false, []⟩ inst' ∧
      (Layered inst → Layered inst') := by
  obtain ⟨parsed, norm⟩ := takes
  have positive : ¬ dim ≤ 0 := by
    intro noDim
    rw [parseVector, if_pos (.inl noDim)] at parsed
    cases parsed
  obtain ⟨inst1, attach, attached⟩ := vectorAttachDrawn_spec A ok ⟨question, answer, vec, vectorNorm A vec, 0, 0, false, []⟩ draw
  obtain ⟨inst', register, ok', stored, bodies, layers⟩ := vectorRegister_spec ok attached rfl
  rcases vectorEntryCreate_cases A question answer vec with ⟨_, flat⟩ | ⟨made, _⟩
  · exact absurd flat norm
  · refine ⟨inst', ?_, ok', stored, bodies, layers⟩
    unfold kvsVectorSetDrawn
    simp only [positive, if_false, parsed, made, attach, bind_eq_bind, bind_some, Bool.true_eq_false]
    exact register

omit [FloatOrder F] in
theorem kvsVectorSetDrawn_refused (question answer : CString) {dim : Int} (bad : ∀ vec, ¬ Takes A dim str vec)
    (draw : Nat × Nat) : ∃ ret, kvsVectorSetDrawn A .ok inst question answer dim str draw = some (inst, ret) ∧ ret < 0 := by
  unfold kvsVectorSetDrawn
  by_cases noDim : dim ≤ 0
  · rw [if_pos noDim]
    exact ⟨-1, rfl, by decide⟩
  · rw [if_neg noDim]
    cases parsed : parseVector A .ok str dim with
    | none => exact ⟨-2, rfl, by decide⟩
    | some vec =>
      rcases vectorEntryCreate_cases A question answer vec with ⟨failed, _⟩ | ⟨_, norm⟩
      · simp only [failed]
        exact ⟨-2, rfl, by decide⟩
      · exact absurd ⟨parsed, norm⟩ (bad vec)

theorem kvsVectorSetDrawn_spec (ok : StoreOk inst) (question answer : CString) (dim : Int) (str : CString) (draw : Nat × Nat) :
    ∃ inst' ret, kvsVectorSetDrawn A .ok inst question answer dim str draw = some (inst', ret) ∧ StoreOk inst' ∧
      (Layered inst → Layered inst') ∧ ((ret < 0 ∧ inst' = inst) ∨ ret = 0 ∧ ∃ vec, Takes A dim str vec ∧ Stored inst question answer vec inst') := by
  by_cases good : ∃ vec, Takes A dim str vec
  · obtain ⟨vec, takes⟩ := good
    obtain ⟨inst', ran, ok', stored, _, layers⟩ := kvsVectorSetDrawn_accepted A ok question answer takes draw
    exact ⟨inst', 0, ran, ok', layers, .inr ⟨rfl, vec, takes, stored⟩⟩
  · obtain ⟨ret, ran, negative⟩ := kvsVectorSetDrawn_refused A question answer (fun vec takes => good ⟨vec, takes⟩) draw
    exact ⟨inst, ret, ran, ok, id, .inl ⟨negative, rfl⟩⟩

structure VectorSetCall where
  question : CString
  answer : CString
  dim : Int
  vectorStr : CString

def vectorStep (inst : KvsVector F) (c : VectorSetCall) : Option (KvsVector F × Int) :=
  kvsVectorSet A .ok inst c.question c.answer c.dim c.vectorStr

end Set

section Linear

variable {F : Type} [LinearOrder F] (A : FloatOps F) {inst : KvsVector F} {str : CString}

theorem kvsVectorSet_accepted (valid : VectorValid A inst) (question answer : CString) {dim : Int} {vec : List F}
    (parsed : parseVector A .ok str dim = some vec) (norm : A.zero < vectorNorm A vec) :
    ∃ inst', kvsVectorSet A .ok inst question answer dim str = some (inst', 0) ∧ VectorValid A inst' ∧
      Stored inst question answer vec inst' := by
  rw [kvsVectorSet_eq]
  obtain ⟨inst', ran, ok', stored, bodies, _⟩ :=
    kvsVectorSetDrawn_accepted A valid.ok question answer ⟨parsed, not_le.mpr norm⟩ (hnswRandomLevel inst.randSeed)
  refine ⟨inst', ran, ⟨ok'.shape, ok'.entry, fun {id f} found => ?_, ok'.tree⟩, stored⟩
  rcases bodies found with ⟨f0, found0, vector, same⟩ | ⟨vector, same⟩
  · rw [same, vector]
    exact valid.norms found0
  · rw [same, vector]
    exact ⟨rfl, norm⟩

theorem kvsVectorSet_refused (question answer : CString) {dim : Int}
    (bad : ∀ vec, parseVector A .ok str dim = some vec → ¬ A.zero < vectorNorm A vec) :
    ∃ ret, kvsVectorSet A .ok inst question answer dim str = some (inst, ret) ∧ ret < 0 := by
  rw [kvsVectorSet_eq]
  exact kvsVectorSetDrawn_refused A question answer (fun vec takes => bad vec takes.1 (not_le.mp takes.2)) _

theorem kvsVectorSet_spec (valid : VectorValid A inst) (question answer : CString) (dim : Int) (str : CString) :
    ∃ inst' ret, kvsVectorSet A .ok inst question answer dim str = some (inst', ret) ∧ VectorValid A inst' ∧
      ((ret < 0 ∧ inst' = inst) ∨
        ret = 0 ∧ ∃ vec, parseVector A .ok str dim = some vec ∧ A.zero < vectorNorm A vec ∧ Stored inst question answer vec inst') := by
  by_cases good : ∃ vec, parseVector A .ok str dim = some vec ∧ A.zero < vectorNorm A vec
  · obtain ⟨vec, parsed, norm⟩ := good
    obtain ⟨inst', ran, valid', stored⟩ := kvsVectorSet_accepted A valid question answer parsed norm
    exact ⟨inst', 0, ran, valid', .inr ⟨rfl, vec, parsed, norm, stored⟩⟩
  · obtain ⟨ret, ran, negative⟩ := kvsVectorSet_refused A question answer fun vec parsed norm => good ⟨vec, parsed, norm⟩
    exact ⟨inst, ret, ran, valid, .inl ⟨negative, rfl⟩⟩

end Linear

end AICacheDB.KvsVector
