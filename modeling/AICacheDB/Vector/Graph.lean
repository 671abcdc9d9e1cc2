import AICacheDB.Vector.Model
import AICacheDB.Library.FloatOrder
import Mathlib.Order.Interval.Finset.Nat

open CLib Option Machine
open List hiding getElem?_eq_some_iff

namespace AICacheDB.KvsVector

variable {F : Type} {inst inst' : KvsVector F} {id : Nat} {e : VectorEntry F}

theorem entry_eq_some : inst.entry id = some e ↔ inst.items[id]? = some (some e) := by
  rw [entry, join_eq_some_iff]

theorem entry_lt (found : inst.entry id = some e) : id < inst.nextId :=
  (getElem?_eq_some_iff.mp (entry_eq_some.mp found)).1

def Live (inst : KvsVector F) (id : Nat) : Prop := ∃ e, inst.entry id = some e ∧ e.deleted = false

structure GraphShape (inst : KvsVector F) : Prop where
  live : ∀ id < inst.nextId, ∃ e, inst.entry id = some e
  ids : ∀ {id e}, inst.entry id = some e → e.hnswId = id
  levels : ∀ {id e}, inst.entry id = some e → e.neighbors.length = e.level + 1
  inRange : ∀ {id e}, inst.entry id = some e → ∀ {l : Nat} {nbrs : List Nat}, e.neighbors[l]? = some nbrs →
    ∀ n ∈ nbrs, n < inst.nextId

variable {nbrs : List Nat} {level : Nat}

theorem GraphShape.level_le (shape : GraphShape inst)
    (found : inst.entry id = some e) {l : Nat} (list : e.neighbors[l]? = some nbrs) : l ≤ e.level := by
  have small := (getElem?_eq_some_iff.mp list).1
  have size := shape.levels found
  omega

theorem entry_congr (same : inst'.items = inst.items) (id : Nat) : inst'.entry id = inst.entry id := by
  rw [entry, same, entry]

theorem nextId_congr (same : inst'.items = inst.items) : inst'.nextId = inst.nextId :=
  congrArg length same

theorem GraphShape.congr (shape : GraphShape inst) (same : inst'.items = inst.items) : GraphShape inst' := by
  have size := nextId_congr same
  refine ⟨fun id small => ?_, fun found => ?_, fun found => ?_, fun found l nbrs list n member => ?_⟩
  · rw [entry_congr same]
    exact shape.live id (size ▸ small)
  · exact shape.ids ((entry_congr same _).symm.trans found)
  · exact shape.levels ((entry_congr same _).symm.trans found)
  · rw [size]
    exact shape.inRange ((entry_congr same _).symm.trans found) list n member

structure Relinked (inst inst' : KvsVector F) : Prop where
  rest : inst' = { inst with items := inst'.items }
  size : inst'.nextId = inst.nextId
  body : ∀ {id e}, inst.entry id = some e → ∃ nbrs, inst'.entry id = some { e with neighbors := nbrs }
  shape : GraphShape inst'

theorem Relinked.refl (shape : GraphShape inst) : Relinked inst inst :=
  ⟨rfl, rfl, fun found => ⟨_, found⟩, shape⟩

theorem Relinked.trans {inst'' : KvsVector F} (first : Relinked inst inst') (second : Relinked inst' inst'') :
    Relinked inst inst'' := by
  refine ⟨?_, second.size.trans first.size, fun found => ?_, second.shape⟩
  · rw [second.rest, first.rest]
  · obtain ⟨nbrs, found1⟩ := first.body found
    obtain ⟨nbrs', found2⟩ := second.body found1
    exact ⟨nbrs', found2⟩

def OnLevel (inst : KvsVector F) (level id : Nat) : Prop := ∃ e, inst.entry id = some e ∧ level ≤ e.level

/-- A neighbour list of the entry `e` at `id`: a few different other entries of its dimension, all of them on the level. -/
structure Neighbors (inst : KvsVector F) (id : Nat) (e : VectorEntry F) (level : Nat) (nbrs : List Nat) : Prop where
  few : nbrs.length ≤ hnswM
  distinct : nbrs.Nodup
  notSelf : id ∉ nbrs
  linked : ∀ n ∈ nbrs, ∃ f, inst.entry n = some f ∧ level ≤ f.level ∧ f.vector.length = e.vector.length

def Linked (inst : KvsVector F) : Prop :=
  ∀ ⦃id e⦄, inst.entry id = some e → ∀ ⦃l : Nat⦄ ⦃nbrs : List Nat⦄, e.neighbors[l]? = some nbrs → Neighbors inst id e l nbrs

theorem OnLevel.mono {level' : Nat} (on : OnLevel inst level id) (le : level' ≤ level) : OnLevel inst level' id := by
  obtain ⟨e, found, reaches⟩ := on
  exact ⟨e, found, le.trans reaches⟩

def SameNodes (inst inst' : KvsVector F) : Prop :=
  ∀ ⦃id e⦄, inst.entry id = some e → ∃ e', inst'.entry id = some e' ∧ e'.level = e.level ∧ e'.vector = e.vector

theorem Relinked.sameNodes (relinked : Relinked inst inst') : SameNodes inst inst' := by
  intro id e found
  obtain ⟨nbrs, found'⟩ := relinked.body found
  exact ⟨_, found', rfl, rfl⟩

theorem Relinked.origin (relinked : Relinked inst inst') (shape : GraphShape inst) {f : VectorEntry F}
    (found : inst'.entry id = some f) : ∃ nbrs e, inst.entry id = some e ∧ f = { e with neighbors := nbrs } := by
  have small := entry_lt found
  rw [relinked.size] at small
  obtain ⟨e, old⟩ := shape.live id small
  obtain ⟨nbrs, found'⟩ := relinked.body old
  rw [found] at found'
  exact ⟨nbrs, e, old, some.inj found'⟩

theorem OnLevel.kept (on : OnLevel inst level id) (same : SameNodes inst inst') : OnLevel inst' level id := by
  obtain ⟨e, found, reaches⟩ := on
  obtain ⟨e', found', level', _⟩ := same found
  exact ⟨e', found', level' ▸ reaches⟩

theorem Neighbors.kept {e' : VectorEntry F}
    (neighbors : Neighbors inst id e level nbrs) (same : SameNodes inst inst') (vector : e'.vector = e.vector) :
    Neighbors inst' id e' level nbrs := by
  refine ⟨neighbors.few, neighbors.distinct, neighbors.notSelf, fun n member => ?_⟩
  obtain ⟨f, found, reaches, dim⟩ := neighbors.linked n member
  obtain ⟨f', found', level', vector'⟩ := same found
  exact ⟨f', found', level' ▸ reaches, by rw [vector', vector, dim]⟩

section SetEntry

variable {inst : KvsVector F} {id : Nat}

theorem nextId_setEntry (inst : KvsVector F) (id : Nat) (e : VectorEntry F) : (inst.setEntry id e).nextId = inst.nextId :=
  length_set

theorem entry_setEntry_self (small : id < inst.nextId) (e : VectorEntry F) : (inst.setEntry id e).entry id = some e := by
  rw [entry_eq_some, setEntry, getElem?_set_self small]

theorem entry_setEntry_of_ne (e : VectorEntry F) {id' : Nat} (other : id' ≠ id) :
    (inst.setEntry id e).entry id' = inst.entry id' := by
  rw [entry, setEntry, getElem?_set_ne (Ne.symm other), entry]

theorem entry_setEntry {e e' : VectorEntry F} {id' : Nat} (found : (inst.setEntry id e).entry id' = some e') :
    id' = id ∧ e' = e ∨ id' ≠ id ∧ inst.entry id' = some e' := by
  by_cases same : id' = id
  · subst same
    have small : id' < inst.nextId := nextId_setEntry inst id' e ▸ entry_lt found
    rw [entry_setEntry_self small] at found
    exact .inl ⟨rfl, (some.inj found).symm⟩
  · rw [entry_setEntry_of_ne e same] at found
    exact .inr ⟨same, found⟩

variable {level : Nat} {nbrs : List Nat}

theorem relink (shape : GraphShape inst) {e : VectorEntry F} (found : inst.entry id = some e)
    (range : ∀ n ∈ nbrs, n < inst.nextId) :
    Relinked inst (inst.setEntry id { e with neighbors := e.neighbors.set level nbrs }) := by
  have small := entry_lt found
  refine ⟨rfl, nextId_setEntry inst id _, fun {id' e'} found' => ?_, fun id' small' => ?_, fun {id' e'} found' => ?_,
    fun {id' e'} found' => ?_, fun {id' e'} found' {l ns} list n member => ?_⟩
  · by_cases same : id' = id
    · subst same
      rw [found] at found'
      cases found'
      exact ⟨_, entry_setEntry_self small _⟩
    · exact ⟨e'.neighbors, by rw [entry_setEntry_of_ne _ same, found']⟩
  · by_cases same : id' = id
    · subst same
      exact ⟨_, entry_setEntry_self small _⟩
    · rw [nextId_setEntry] at small'
      rw [entry_setEntry_of_ne _ same]
      exact shape.live id' small'
  · rcases entry_setEntry found' with ⟨rfl, rfl⟩ | ⟨_, old⟩
    · have own : e.hnswId = id' := shape.ids found
      exact own
    · exact shape.ids old
  · rcases entry_setEntry found' with ⟨rfl, rfl⟩ | ⟨_, old⟩
    · rw [length_set]
      exact shape.levels found
    · exact shape.levels old
  · rw [nextId_setEntry]
    rcases entry_setEntry found' with ⟨rfl, rfl⟩ | ⟨_, old⟩
    · by_cases here : l = level
      · subst here
        have inside : l < e.neighbors.length := by
          simpa using (getElem?_eq_some_iff.mp list).1
        rw [getElem?_set_self inside] at list
        cases list
        exact range n member
      · rw [getElem?_set_ne (Ne.symm here)] at list
        exact shape.inRange found list n member
    · exact shape.inRange old list n member

theorem Linked.relink (linked : Linked inst) (shape : GraphShape inst) {e : VectorEntry F} (found : inst.entry id = some e)
    (neighbors : Neighbors inst id e level nbrs) :
    Linked (inst.setEntry id { e with neighbors := e.neighbors.set level nbrs }) := by
  have range : ∀ n ∈ nbrs, n < inst.nextId := fun n member => by
    obtain ⟨f, entry, _⟩ := neighbors.linked n member
    exact entry_lt entry
  have relinked : Relinked inst (inst.setEntry id { e with neighbors := e.neighbors.set level nbrs }) := KvsVector.relink shape found range
  have same := relinked.sameNodes
  intro id' e' found' l nbrs' list
  rcases entry_setEntry found' with ⟨rfl, rfl⟩ | ⟨_, old⟩
  · by_cases here : l = level
    · subst here
      have inside : l < e.neighbors.length := by
        simpa using (getElem?_eq_some_iff.mp list).1
      rw [getElem?_set_self inside] at list
      cases list
      exact neighbors.kept same rfl
    · rw [getElem?_set_ne (Ne.symm here)] at list
      exact (linked found list).kept same rfl
  · exact (linked old list).kept same rfl

end SetEntry

section Push

variable {inst : KvsVector F}

def push (inst : KvsVector F) (e : VectorEntry F) : KvsVector F := { inst with items := inst.items ++ [some e] }

theorem nextId_push (inst : KvsVector F) (e : VectorEntry F) : (inst.push e).nextId = inst.nextId + 1 := by
  rw [nextId, push, length_append, length_singleton, nextId]

theorem entry_push_self (inst : KvsVector F) (e : VectorEntry F) : (inst.push e).entry inst.nextId = some e := by
  rw [entry_eq_some, push, nextId, getElem?_concat_length]

theorem entry_push_old {id : Nat} {e0 : VectorEntry F} (e : VectorEntry F) (found : inst.entry id = some e0) :
    (inst.push e).entry id = some e0 := by
  have small : id < inst.items.length := entry_lt found
  rw [entry_eq_some] at found ⊢
  rw [push, getElem?_append_left small]
  exact found

theorem entry_push {id : Nat} {e e' : VectorEntry F} (found : (inst.push e).entry id = some e') :
    inst.entry id = some e' ∨ id = inst.nextId ∧ e' = e := by
  have small := entry_lt found
  rw [nextId_push] at small
  rcases Nat.lt_or_ge id inst.nextId with old | new
  · have inside : id < inst.items.length := old
    rw [entry_eq_some, push, getElem?_append_left inside] at found
    exact .inl (entry_eq_some.mpr found)
  · have here : id = inst.nextId := by omega
    subst here
    rw [entry_push_self] at found
    exact .inr ⟨rfl, (some.inj found).symm⟩

theorem GraphShape.push (shape : GraphShape inst) {e : VectorEntry F} (own : e.hnswId = inst.nextId)
    (lists : e.neighbors = replicate (e.level + 1) []) : GraphShape (inst.push e) := by
  refine ⟨fun id small => ?_, fun found => ?_, fun found => ?_, fun found l nbrs list n member => ?_⟩
  · rw [nextId_push] at small
    rcases Nat.lt_or_ge id inst.nextId with old | new
    · obtain ⟨e0, found⟩ := shape.live id old
      exact ⟨e0, entry_push_old e found⟩
    · have here : id = inst.nextId := by omega
      exact ⟨e, here ▸ entry_push_self inst e⟩
  · rcases entry_push found with old | ⟨rfl, rfl⟩
    · exact shape.ids old
    · exact own
  · rcases entry_push found with old | ⟨rfl, rfl⟩
    · exact shape.levels old
    · rw [lists, length_replicate]
  · rcases entry_push found with old | ⟨rfl, rfl⟩
    · rw [nextId_push]
      exact Nat.lt_succ_of_lt (shape.inRange old list n member)
    · rw [lists] at list
      have empty := eq_of_mem_replicate (mem_of_getElem? list)
      rw [empty] at member
      cases member

theorem sameNodes_push (e : VectorEntry F) : SameNodes inst (inst.push e) := fun _ e0 found => ⟨e0, entry_push_old e found, rfl, rfl⟩

theorem Linked.push (linked : Linked inst) {e : VectorEntry F} (lists : e.neighbors = replicate (e.level + 1) []) :
    Linked (inst.push e) := by
  intro id e' found l nbrs list
  rcases entry_push found with old | ⟨rfl, rfl⟩
  · exact (linked old list).kept (sameNodes_push e) rfl
  · rw [lists] at list
    obtain rfl := eq_of_mem_replicate (mem_of_getElem? list)
    exact ⟨Nat.zero_le _, nodup_nil, not_mem_nil, fun n member => by cases member⟩

end Push

section Score

variable [LE F] [DecidableLE F] (A : FloatOps F)

def score (inst : KvsVector F) (q : VectorQuery F) (id : Nat) : F :=
  ((inst.entry id).map fun e => entryScore A e q).getD A.sentinel

theorem idScore_eq {inst : KvsVector F} (live : ∀ id < inst.nextId, ∃ e, inst.entry id = some e) (q : VectorQuery F) (id : Nat) :
    idScore A inst id q = some (score A inst q id) := by
  by_cases small : id < inst.nextId
  · obtain ⟨e, found⟩ := live id small
    simp [idScore, score, small, found]
  · have outside : inst.entry id = none := by
      rw [entry, getElem?_eq_none (Nat.le_of_not_lt small)]
      rfl
    simp [idScore, score, small, outside]

end Score

section Candidates

variable [LT F] [LE F] [DecidableLT F] [DecidableLE F]

structure Placed (items : List (Candidate F)) (cap id : Nat) (s : F) (front back : List (Candidate F)) : Prop where
  kept : items.take (cap - 1) = front ++ back
  fresh : ∀ c ∈ items, c.id ≠ id
  evicts : cap ≤ items.length → ∀ last ∈ items.getLast?, ¬ s ≤ last.score
  before : ∀ c ∈ front.getLast?, ¬ c.score < s
  behind : ∀ c ∈ back, c.score < s

variable {cap : Nat} {items : List (Candidate F)}

theorem candidateAddSorted_cases (items : List (Candidate F)) (room : 0 < cap) (id : Nat) (s : F) :
    (candidateAddSorted items cap id s = items ∧
      ((∃ c ∈ items, c.id = id) ∨ cap ≤ items.length ∧ ∃ last ∈ items.getLast?, s ≤ last.score)) ∨
    ∃ front back, candidateAddSorted items cap id s = front ++ ⟨id, s⟩ :: back ∧ Placed items cap id s front back := by
  unfold candidateAddSorted
  by_cases known : items.any (fun c => c.id = id) = true
  · rw [if_pos (.inr known)]
    obtain ⟨c, member, same⟩ := any_eq_true.mp known
    exact .inl ⟨rfl, .inl ⟨c, member, of_decide_eq_true same⟩⟩
  · rw [if_neg (by simp only [not_or]; exact ⟨by omega, known⟩)]
    by_cases full : cap ≤ items.length ∧ ∃ last ∈ items.getLast?, s ≤ last.score
    · rw [if_pos full]
      exact .inl ⟨rfl, .inr full⟩
    · rw [if_neg full]
      refine .inr ⟨_, _, rfl, rdropWhile_append_rtakeWhile.symm, fun c member same => known ?_,
        fun long last isLast above => full ⟨long, last, isLast, above⟩, fun c isLast => ?_, fun c member => ?_⟩
      · exact any_eq_true.mpr ⟨c, member, decide_eq_true same⟩
      · obtain ⟨nonempty, rfl⟩ := mem_getLast?_eq_getLast isLast
        simpa using rdropWhile_last_not _ _ nonempty
      · simpa using mem_rtakeWhile_imp member

variable {c : Candidate F} {s : F}

theorem candidateAddSorted_mem {id : Nat} (member : c ∈ candidateAddSorted items cap id s) : c ∈ items ∨ c = ⟨id, s⟩ := by
  by_cases room : 0 < cap
  · rcases candidateAddSorted_cases items room id s with ⟨same, _⟩ | ⟨front, back, added, placed⟩
    · rw [same] at member
      exact .inl member
    · rw [added, mem_append, mem_cons] at member
      have old : ∀ d, d ∈ front ∨ d ∈ back → d ∈ items := by
        intro d inside
        apply mem_of_mem_take (i := cap - 1)
        rw [placed.kept]
        exact mem_append.mpr inside
      rcases member with inFront | new | inBack
      · exact .inl (old c (.inl inFront))
      · exact .inr new
      · exact .inl (old c (.inr inBack))
  · rw [candidateAddSorted, if_pos (.inl (by omega))] at member
    exact .inl member

theorem candidateAddSorted_length (fits : items.length ≤ cap) (id : Nat) (s : F) :
    (candidateAddSorted items cap id s).length ≤ cap := by
  by_cases room : 0 < cap
  · rcases candidateAddSorted_cases items room id s with ⟨same, _⟩ | ⟨front, back, added, placed⟩
    · rw [same]
      exact fits
    · have size := congrArg length placed.kept
      rw [length_take, length_append] at size
      rw [added, length_append, length_cons]
      omega
  · rw [candidateAddSorted, if_pos (.inl (by omega))]
    exact fits

theorem candidateAddSorted_nodup (distinct : (items.map Candidate.id).Nodup) (cap id : Nat) (s : F) :
    ((candidateAddSorted items cap id s).map Candidate.id).Nodup := by
  by_cases room : 0 < cap
  · rcases candidateAddSorted_cases items room id s with ⟨same, _⟩ | ⟨front, back, added, placed⟩
    · rw [same]
      exact distinct
    · have kept : ((front ++ back).map Candidate.id).Nodup := by
        rw [← placed.kept]
        exact distinct.sublist ((take_sublist _ _).map _)
      have absent : id ∉ (front ++ back).map Candidate.id := by
        rw [← placed.kept]
        intro member
        obtain ⟨c, inside, same⟩ := mem_map.mp member
        exact placed.fresh c (mem_of_mem_take inside) same
      rw [added, map_append, map_cons]
      rw [map_append] at kept absent
      exact nodup_middle.mpr (nodup_cons.mpr ⟨absent, kept⟩)
  · rw [candidateAddSorted, if_pos (.inl (by omega))]
    exact distinct

theorem candidateAddSorted_nil (room : 0 < cap) (id : Nat) (s : F) : candidateAddSorted [] cap id s = [⟨id, s⟩] := by
  have real : cap ≠ 0 := by omega
  simp [candidateAddSorted, real]

def HasAbove (x : F) (items : List (Candidate F)) : Prop := ∃ c ∈ items, x < c.score

variable [FloatOrder F]

theorem HasAbove.add {x : F} (above : HasAbove x items) (fits : items.length ≤ cap)
    (id : Nat) (ordered : s ≤ s) : HasAbove x (candidateAddSorted items cap id s) := by
  by_cases room : 0 < cap
  · rcases candidateAddSorted_cases items room id s with ⟨same, _⟩ | ⟨front, back, added, placed⟩
    · rwa [same]
    · obtain ⟨c, member, high⟩ := above
      rw [added]
      by_cases kept : c ∈ items.take (cap - 1)
      · rw [placed.kept, mem_append] at kept
        exact ⟨c, by rw [mem_append, mem_cons]; tauto, high⟩
      · -- only the last candidate of a full list is given up, and it scored less
        have full : cap ≤ items.length := by
          by_contra short
          rw [take_of_length_le (by omega)] at kept
          exact kept member
        have isLast : c ∈ items.getLast? := by
          obtain ⟨init, last, rfl⟩ := (eq_nil_or_concat' items).resolve_left (ne_nil_of_mem member)
          rw [length_append, length_singleton] at full fits
          rw [take_left' (by omega)] at kept
          rw [mem_append, mem_singleton] at member
          rw [getLast?_concat, member.resolve_left kept]
          rfl
        have lower : c.score < s := FloatOrder.lt_of_not_le ordered (FloatOrder.ordered_of_lt high) (placed.evicts full c isLast)
        exact ⟨⟨id, s⟩, by simp, FloatOrder.trans high lower⟩
  · rwa [candidateAddSorted, if_pos (.inl (by omega))]

theorem hasAbove_new {x : F} {id : Nat} (room : 0 < cap) (high : x < s)
    (consistent : ∀ c ∈ items, c.id = id → c.score = s) : HasAbove x (candidateAddSorted items cap id s) := by
  rcases candidateAddSorted_cases items room id s with ⟨same, known | ⟨_, last, isLast, less⟩⟩ | ⟨front, back, added, _⟩
  · obtain ⟨c, member, own⟩ := known
    rw [same]
    exact ⟨c, member, by rw [consistent c member own]; exact high⟩
  · rw [same]
    exact ⟨last, mem_of_getLast? isLast, FloatOrder.lt_of_lt_of_le high less⟩
  · rw [added]
    exact ⟨⟨id, s⟩, by simp, high⟩

def Falling (items : List (Candidate F)) : Prop := items.Pairwise fun c d => d.score ≤ d.score ∧ ¬ c.score < d.score

omit [DecidableLT F] [DecidableLE F] [FloatOrder F] in
theorem Falling.last (falling : Falling items) {last : Candidate F} (isLast : last ∈ items.getLast?) (member : c ∈ items) :
    c = last ∨ last.score ≤ last.score ∧ ¬ c.score < last.score := by
  obtain ⟨init, rfl⟩ := getLast?_eq_some_iff.mp isLast
  rcases mem_append.mp member with earlier | isLast
  · exact .inr ((pairwise_append.mp falling).2.2 c earlier last (mem_singleton_self _))
  · exact .inl (mem_singleton.mp isLast)

omit [DecidableLT F] [DecidableLE F] in
theorem Placed.above {id : Nat} {front back : List (Candidate F)} (placed : Placed items cap id s front back)
    (falling : Falling (front ++ back)) : ∀ c ∈ front, ¬ c.score < s := by
  intro c member less
  have isLast := getLast?_eq_getLast_of_ne_nil (ne_nil_of_mem member)
  have stop := placed.before _ isLast
  rcases Falling.last (pairwise_append.mp falling).1 isLast member with same | ⟨orderedLast, notLess⟩
  · exact stop (same ▸ less)
  · have orderedC := (FloatOrder.ordered (FloatOrder.lt_iff.mp less).1).1
    exact stop (FloatOrder.lt_of_le_of_lt (FloatOrder.le_of_not_lt orderedC orderedLast notLess) less)

theorem Falling.add (falling : Falling items) (cap id : Nat) (ordered : s ≤ s) :
    Falling (candidateAddSorted items cap id s) := by
  by_cases room : 0 < cap
  · rcases candidateAddSorted_cases items room id s with ⟨same, _⟩ | ⟨front, back, added, placed⟩
    · rwa [same]
    · have kept : Falling (front ++ back) := by
        rw [← placed.kept]
        exact falling.sublist (take_sublist _ _)
      obtain ⟨fallingFront, fallingBack, across⟩ := pairwise_append.mp kept
      rw [added, Falling, pairwise_append]
      refine ⟨fallingFront, pairwise_cons.mpr ⟨fun d member => ?_, fallingBack⟩, fun c member d later => ?_⟩
      · have less := placed.behind d member
        exact ⟨(FloatOrder.ordered (FloatOrder.lt_iff.mp less).1).1, FloatOrder.not_lt_of_le (FloatOrder.lt_iff.mp less).1⟩
      · rcases mem_cons.mp later with rfl | inBack
        · exact ⟨ordered, placed.above kept c member⟩
        · exact across c member d inBack
  · rwa [candidateAddSorted, if_pos (.inl (by omega))]

end Candidates

section Links

variable [LT F] [LE F] [DecidableLT F] [DecidableLE F] [FloatOrder F] (A : FloatOps F) {inst : KvsVector F}

structure Pruned (inst : KvsVector F) (e : VectorEntry F) (nbrs kept : List Nat) : Prop where
  few : kept.length ≤ hnswM
  distinct : kept.Nodup
  among : ∀ n ∈ kept, n ∈ nbrs
  similar : ∀ n ∈ kept, ∃ f, inst.entry n = some f ∧ f.vector.length = e.vector.length

omit [DecidableLT F] in
theorem similar_of_score {q : VectorQuery F} {n : Nat} (high : A.sentinel < score A inst q n) :
    ∃ f, inst.entry n = some f ∧ f.deleted = false ∧ f.vector.length = q.vector.length := by
  unfold score at high
  cases found : inst.entry n with
  | none =>
    rw [found] at high
    exact absurd high (FloatOrder.irrefl _)
  | some f =>
    rw [found, map_some, getD_some, entryScore] at high
    by_cases out : f.deleted = true ∨ f.vector.length ≠ q.vector.length
    · rw [if_pos out] at high
      exact absurd high (FloatOrder.irrefl _)
    · simp only [not_or, Bool.not_eq_true, ne_eq, not_not] at out
      exact ⟨f, rfl, out⟩

omit [FloatOrder F] in
theorem pruneScan_spec (shape : GraphShape inst) (q : VectorQuery F) (nbrs : List Nat) :
    ∃ tmp, pruneScan A inst q nbrs = some tmp ∧ (tmp.map Candidate.id).Nodup ∧
      ∀ c ∈ tmp, c.id ∈ nbrs ∧ A.sentinel < score A inst q c.id := by
  apply foldlM_invariant
    (fun tmp : List (Candidate F) => (tmp.map Candidate.id).Nodup ∧ ∀ c ∈ tmp, c.id ∈ nbrs ∧ A.sentinel < score A inst q c.id)
  · rintro tmp nid member ⟨distinct, inside⟩
    refine ⟨_, by rw [idScore_eq A shape.live]; rfl, ?_⟩
    by_cases high : A.sentinel < score A inst q nid
    · rw [if_pos high]
      refine ⟨candidateAddSorted_nodup distinct _ _ _, fun c added => ?_⟩
      rcases candidateAddSorted_mem added with old | rfl
      · exact inside c old
      · exact ⟨member, high⟩
    · rw [if_neg high]
      exact ⟨distinct, inside⟩
  · simp

theorem hnswPruneNeighbors_eq (shape : GraphShape inst) {id level : Nat} {e : VectorEntry F} (found : inst.entry id = some e)
    {nbrs : List Nat} (list : e.neighbors[level]? = some nbrs) :
    ∃ kept, hnswPruneNeighbors A inst id level = some (inst.setEntry id { e with neighbors := e.neighbors.set level kept }) ∧
      Pruned inst e nbrs kept := by
  obtain ⟨tmp, scan, distinct, inside⟩ := pruneScan_spec A shape e.query nbrs
  refine ⟨(tmp.take hnswM).map Candidate.id, ?_, ?_, ?_, fun n member => ?_, fun n member => ?_⟩
  · simp [hnswPruneNeighbors, found, list, scan]
  · rw [length_map, length_take]
    exact Nat.min_le_left _ _
  · exact distinct.sublist ((take_sublist _ _).map _)
  · obtain ⟨c, kept, rfl⟩ := mem_map.mp member
    exact (inside c (mem_of_mem_take kept)).1
  · obtain ⟨c, kept, rfl⟩ := mem_map.mp member
    obtain ⟨f, entry, _, dim⟩ := similar_of_score A (inside c (mem_of_mem_take kept)).2
    exact ⟨f, entry, dim⟩

omit [FloatOrder F] in
theorem worstScan_spec (shape : GraphShape inst) (q : VectorQuery F) (nbrs : List Nat) :
    ∃ worst, worstScan A inst q nbrs = some worst := by
  have total : ∃ worst, worstScan A inst q nbrs = some worst ∧ True := by
    apply foldlM_invariant (fun _ => True)
    · intro worst p _ _
      exact ⟨_, by rw [idScore_eq A shape.live]; rfl, trivial⟩
    · trivial
  obtain ⟨worst, scan, _⟩ := total
  exact ⟨worst, scan⟩

theorem hnswAddNeighbor_cases (shape : GraphShape inst) (src dst level : Nat) :
    hnswAddNeighbor A inst src dst level = some inst ∨
      ∃ e nbrs kept, inst.entry src = some e ∧ e.neighbors[level]? = some nbrs ∧ src ≠ dst ∧
        hnswAddNeighbor A inst src dst level = some (inst.setEntry src { e with neighbors := e.neighbors.set level kept }) ∧
        Pruned inst e (dst :: nbrs) kept := by
  unfold hnswAddNeighbor
  by_cases outside : src = dst ∨ inst.nextId ≤ src ∨ inst.nextId ≤ dst ∨ hnswMaxLevel ≤ level
  · rw [if_pos outside]
    exact .inl rfl
  · rw [if_neg outside]
    simp only [not_or, not_le] at outside
    obtain ⟨apart, smallSrc, smallDst, _⟩ := outside
    obtain ⟨e, found⟩ := shape.live src smallSrc
    simp only [found, bind_eq_bind, bind_some]
    cases list : e.neighbors[level]? with
    | none => exact .inl rfl
    | some nbrs =>
      have range := shape.inRange found list
      -- writing the changed list and pruning it
      have rewrite : ∀ nbrs' : List Nat, (∀ n ∈ nbrs', n ∈ dst :: nbrs) →
          ∃ kept, hnswPruneNeighbors A (inst.setEntry src { e with neighbors := e.neighbors.set level nbrs' }) src level =
            some (inst.setEntry src { e with neighbors := e.neighbors.set level kept }) ∧ Pruned inst e (dst :: nbrs) kept := by
        intro nbrs' among
        have inside : level < e.neighbors.length := (getElem?_eq_some_iff.mp list).1
        have first : Relinked inst (inst.setEntry src { e with neighbors := e.neighbors.set level nbrs' }) := by
          refine relink shape found fun n member => ?_
          rcases mem_cons.mp (among n member) with rfl | old
          · exact smallDst
          · exact range n old
        have list' : (e.neighbors.set level nbrs')[level]? = some nbrs' := getElem?_set_self inside
        obtain ⟨kept, ran, pruned⟩ := hnswPruneNeighbors_eq A first.shape (entry_setEntry_self smallSrc _) list'
        refine ⟨kept, ?_, pruned.few, pruned.distinct, fun n member => among n (pruned.among n member), fun n member => ?_⟩
        · rw [ran]
          simp [setEntry]
        · obtain ⟨f, entry, dim⟩ := pruned.similar n member
          rcases entry_setEntry entry with ⟨rfl, rfl⟩ | ⟨_, old⟩
          · exact ⟨e, found, rfl⟩
          · exact ⟨f, old, dim⟩
      dsimp only
      by_cases skip : e.deleted = true ∨ e.level < level ∨ dst ∈ nbrs
      · rw [if_pos skip]
        exact .inl rfl
      · rw [if_neg skip]
        by_cases fits : nbrs.length < hnswNeighborCap
        · rw [if_pos fits]
          obtain ⟨kept, ran, pruned⟩ := rewrite (nbrs ++ [dst]) fun n member => by
            rw [mem_append, mem_singleton] at member
            exact mem_cons.mpr member.symm
          exact .inr ⟨e, nbrs, kept, rfl, list, apart, ran, pruned⟩
        · rw [if_neg fits]
          obtain ⟨⟨worstIdx, worstScore⟩, scan⟩ := worstScan_spec A shape e.query nbrs
          simp only [idScore_eq A shape.live, scan, bind_some]
          cases worstIdx with
          | none => exact .inl rfl
          | some i =>
            dsimp only
            by_cases better : worstScore < score A inst e.query dst
            · rw [if_pos better]
              obtain ⟨kept, ran, pruned⟩ := rewrite (nbrs.set i dst) fun n member => by
                rcases mem_or_eq_of_mem_set member with old | rfl
                · exact mem_cons_of_mem _ old
                · exact mem_cons_self
              exact .inr ⟨e, nbrs, kept, rfl, list, apart, ran, pruned⟩
            · rw [if_neg better]
              exact .inl rfl

theorem hnswAddNeighbor_spec (shape : GraphShape inst) (src dst level : Nat) :
    ∃ inst', hnswAddNeighbor A inst src dst level = some inst' ∧ Relinked inst inst' ∧
      (Linked inst → OnLevel inst level dst → Linked inst') := by
  rcases hnswAddNeighbor_cases A shape src dst level with same | ⟨e, nbrs, kept, found, list, apart, ran, pruned⟩
  · exact ⟨inst, same, .refl shape, fun linked _ => linked⟩
  · refine ⟨_, ran, relink shape found fun n member => ?_, fun linked on => linked.relink shape found ?_⟩
    · obtain ⟨f, entry, _⟩ := pruned.similar n member
      exact entry_lt entry
    · have old := linked found list
      refine ⟨pruned.few, pruned.distinct, fun member => ?_, fun n member => ?_⟩
      · rcases mem_cons.mp (pruned.among src member) with same | inside
        · exact apart same
        · exact old.notSelf inside
      · obtain ⟨f, entry, dim⟩ := pruned.similar n member
        refine ⟨f, entry, ?_, dim⟩
        rcases mem_cons.mp (pruned.among n member) with rfl | inside
        · obtain ⟨f', entry', reaches⟩ := on
          rw [entry] at entry'
          cases entry'
          exact reaches
        · obtain ⟨f', entry', reaches, _⟩ := old.linked n inside
          rw [entry] at entry'
          cases entry'
          exact reaches

theorem linkFound_spec (shape : GraphShape inst) (id level : Nat) (found : List (Candidate F)) :
    ∃ inst', linkFound A inst id level found = some inst' ∧ Relinked inst inst' ∧
      (Linked inst → OnLevel inst level id → (∀ c ∈ found, OnLevel inst level c.id) → Linked inst') := by
  apply foldlM_invariant (fun inst' => Relinked inst inst' ∧
    (Linked inst → OnLevel inst level id → (∀ c ∈ found, OnLevel inst level c.id) → Linked inst'))
  · rintro inst1 c member ⟨relinked, links⟩
    obtain ⟨inst2, ran2, relinked2, links2⟩ := hnswAddNeighbor_spec A relinked.shape id c.id level
    obtain ⟨inst3, ran3, relinked3, links3⟩ := hnswAddNeighbor_spec A relinked2.shape c.id id level
    have same1 := relinked.sameNodes
    have same2 := (relinked.trans relinked2).sameNodes
    refine ⟨inst3, by rw [ran2]; exact ran3, (relinked.trans relinked2).trans relinked3, fun linked own others => ?_⟩
    apply links3 (links2 (links linked own others) ((others c (mem_of_mem_take member)).kept same1))
    exact own.kept same2
  · exact ⟨.refl shape, fun linked _ _ => linked⟩

end Links

end AICacheDB.KvsVector
