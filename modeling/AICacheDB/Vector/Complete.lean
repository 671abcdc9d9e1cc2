import AICacheDB.Vector.Invariants
import Mathlib.Data.Set.Card

open CLib Option
open List hiding getElem?_eq_some_iff

namespace AICacheDB.KvsVector

section Reachable

variable {F : Type} [LT F] [LE F] [DecidableLE F] (A : FloatOps F) {inst : KvsVector F} {q : VectorQuery F} {level ep : Nat}

def Neighbor (inst : KvsVector F) (level u v : Nat) : Prop := ∃ e nbrs, inst.entry u = some e ∧ e.neighbors[level]? = some nbrs ∧ v ∈ nbrs

/-- The nodes that edges of a level lead to from an entry node, through nodes of a similarity above the sentinel. -/
inductive Reachable (inst : KvsVector F) (q : VectorQuery F) (level ep : Nat) : Nat → Prop where
  | entry : Reachable inst q level ep ep
  | step {u v : Nat} (reached : Reachable inst q level ep u) (edge : Neighbor inst level u v) (similar : A.sentinel < score A inst q v) :
      Reachable inst q level ep v

theorem Reachable.small (shape : GraphShape inst) (small : ep < inst.nextId) {v : Nat} (reached : Reachable A inst q level ep v) :
    v < inst.nextId := by
  cases reached with
  | entry => exact small
  | step _ edge _ =>
    obtain ⟨e, nbrs, found, list, member⟩ := edge
    exact shape.inRange found list v member

theorem length_le_ncard (shape : GraphShape inst) (small : ep < inst.nextId) {ids : List Nat} (distinct : ids.Nodup)
    (reached : ∀ id ∈ ids, Reachable A inst q level ep id) : ids.length ≤ {v | Reachable A inst q level ep v}.ncard := by
  have finite : {v | Reachable A inst q level ep v}.Finite :=
    (Set.finite_lt_nat inst.nextId).subset fun v member => Reachable.small A shape small member
  rw [← toFinset_card_of_nodup distinct, ← Set.ncard_coe_finset]
  exact Set.ncard_le_ncard (fun v member => reached v (mem_toFinset.mp member)) finite

end Reachable

variable {F : Type} [LT F] [LE F] [DecidableLT F] [DecidableLE F] (A : FloatOps F) {inst : KvsVector F} {q : VectorQuery F}
  {ef level ep : Nat} {state : List (Candidate F) × List Nat}

def layerPass (inst : KvsVector F) (q : VectorQuery F) (ef level : Nat) (c : Candidate F) (state : List (Candidate F) × List Nat) :
    Option (List (Candidate F) × List Nat) := do
  let e ← inst.entry c.id
  match e.neighbors[level]? with
  | none => some state
  | some nbrs => if e.level < level then some state else layerScan A inst q ef nbrs state

variable {c : Candidate F} {post pre : List (Candidate F)}

inductive Passes (inst : KvsVector F) (q : VectorQuery F) (ef level ep : Nat) : Nat → List (Candidate F) × List Nat → Prop where
  | start : Passes inst q ef level ep 0 (candidateAddSorted [] ef ep (score A inst q ep), [ep])
  | next {cursor : Nat} {state state' : List (Candidate F) × List Nat} {c : Candidate F} (passes : Passes inst q ef level ep cursor state)
      (here : state.1[cursor]? = some c) (ran : layerPass A inst q ef level c state = some state') :
      Passes inst q ef level ep (cursor + 1) state'

/-- What `c` finds in front of itself, where the cursor does not come again, leads to nothing else. -/
def NoneSkipped (inst : KvsVector F) (q : VectorQuery F) (level : Nat) (c : Candidate F) (visited : List Nat) : Prop :=
  ∀ n m, Neighbor inst level c.id n → n ∉ visited → A.sentinel < score A inst q n → c.score < score A inst q n →
    Neighbor inst level n m → A.sentinel < score A inst q m → m ∈ visited ∨ Neighbor inst level c.id m

structure Gathered (inst : KvsVector F) (q : VectorQuery F) (ef level ep : Nat) (state : List (Candidate F) × List Nat) : Prop where
  found : Found A inst q ef state.1
  falling : Falling state.1
  distinct : (state.1.map Candidate.id).Nodup
  reached : ∀ c ∈ state.1, Reachable A inst q level ep c.id
  start : ep ∈ state.1.map Candidate.id
  visited : ∀ v ∈ state.2, A.sentinel < score A inst q v → v ∈ state.1.map Candidate.id

def Expanded (inst : KvsVector F) (q : VectorQuery F) (level cursor : Nat) (items : List (Candidate F)) : Prop :=
  ∀ c ∈ items.take cursor, ∀ n, Neighbor inst level c.id n → A.sentinel < score A inst q n → n ∈ items.map Candidate.id

theorem candidateAddSorted_around {id : Nat} {s : F}
    (room : (pre ++ c :: post).length < ef) (fresh : ∀ d ∈ pre ++ c :: post, d.id ≠ id) :
    ∃ pre' post', candidateAddSorted (pre ++ c :: post) ef id s = pre' ++ c :: post' ∧ pre.length ≤ pre'.length ∧
      (∀ d ∈ pre', d ∈ pre ∨ d = ⟨id, s⟩ ∧ c.score < s) ∧ (∀ d, d ∈ pre' ++ c :: post' ↔ d ∈ pre ++ c :: post ∨ d = ⟨id, s⟩) := by
  rcases candidateAddSorted_cases (pre ++ c :: post) (Nat.zero_lt_of_lt room) id s with ⟨_, ⟨d, member, same⟩ | ⟨full, _⟩⟩ |
    ⟨front, back, added, placed⟩
  · exact absurd same (fresh d member)
  · omega
  · have kept := placed.kept
    rw [take_of_length_le (by omega)] at kept
    rcases append_eq_append_iff.mp kept with ⟨mid, rfl, split⟩ | ⟨mid, rfl, rfl⟩
    · cases mid with
      | nil =>
        rw [nil_append] at split
        subst split
        rw [append_nil] at added
        refine ⟨pre ++ [⟨id, s⟩], post, by rw [added, append_assoc]; rfl, by simp, fun d member => ?_, fun d => by simp; tauto⟩
        rcases mem_append.mp member with old | new
        · exact .inl old
        · exact .inr ⟨mem_singleton.mp new, placed.behind c mem_cons_self⟩
      | cons c' mid =>
        obtain ⟨rfl, rfl⟩ := cons.inj split
        exact ⟨pre, mid ++ ⟨id, s⟩ :: back, by rw [added, append_assoc]; rfl, le_rfl, fun d member => .inl member,
          fun d => by simp; tauto⟩
    · refine ⟨front ++ ⟨id, s⟩ :: mid, post, by rw [added, append_assoc]; rfl, by simp, fun d member => ?_, fun d => by simp; tauto⟩
      rcases mem_append.mp member with old | new
      · exact .inl (mem_append_left _ old)
      · rcases mem_cons.mp new with rfl | old
        · exact .inr ⟨rfl, placed.behind c (by simp)⟩
        · exact .inl (mem_append_right _ old)

variable [FloatOrder F]

omit [FloatOrder F] [DecidableLT F] in
theorem Gathered.room (gathered : Gathered A inst q ef level ep state) (shape : GraphShape inst) (small : ep < inst.nextId)
    (few : {v | Reachable A inst q level ep v}.ncard ≤ ef) {n : Nat} (reached : Reachable A inst q level ep n)
    (fresh : ∀ d ∈ state.1, d.id ≠ n) : state.1.length < ef := by
  have more : (n :: state.1.map Candidate.id).length ≤ {v | Reachable A inst q level ep v}.ncard := by
    refine length_le_ncard A shape small (nodup_cons.mpr ⟨fun member => ?_, gathered.distinct⟩) fun id member => ?_
    · obtain ⟨d, inside, same⟩ := mem_map.mp member
      exact fresh d inside same
    · rcases mem_cons.mp member with rfl | old
      · exact reached
      · obtain ⟨d, inside, rfl⟩ := mem_map.mp old
        exact gathered.reached d inside
  rw [length_cons, length_map] at more
  omega

structure Scanned (inst : KvsVector F) (q : VectorQuery F) (ef level ep : Nat) (pre : List (Candidate F)) (c : Candidate F)
    (post : List (Candidate F)) (visited : List Nat) (state : List (Candidate F) × List Nat) : Prop where
  gathered : Gathered A inst q ef level ep state
  around : ∃ pre' post', state.1 = pre' ++ c :: post' ∧ pre.length ≤ pre'.length ∧ ∀ d ∈ pre', d ∈ pre ∨
    Neighbor inst level c.id d.id ∧ d.id ∉ visited ∧ A.sentinel < score A inst q d.id ∧ c.score < score A inst q d.id
  kept : ∀ d ∈ pre ++ c :: post, d ∈ state.1
  older : ∀ v ∈ visited, v ∈ state.2

omit [FloatOrder F] [DecidableLT F] in
theorem Scanned.mark {visited : List Nat} (scanned : Scanned A inst q ef level ep pre c post visited state) {n : Nat}
    (listed : A.sentinel < score A inst q n → n ∈ state.1.map Candidate.id) :
    Scanned A inst q ef level ep pre c post visited (state.1, n :: state.2) := by
  refine ⟨{ scanned.gathered with visited := fun v member high => ?_ }, scanned.around, scanned.kept,
    fun v member => mem_cons_of_mem n (scanned.older v member)⟩
  rcases mem_cons.mp member with rfl | old
  · exact listed high
  · exact scanned.gathered.visited v old high

section Loop

variable (shape : GraphShape inst) (small : ep < inst.nextId) (few : {v | Reachable A inst q level ep v}.ncard ≤ ef)

include shape small few

variable {c : Candidate F} {post pre : List (Candidate F)} {visited : List Nat} {cursor : Nat}

theorem layerVisit_scanned
    (scanned : Scanned A inst q ef level ep pre c post visited state) {n : Nat} (edge : Neighbor inst level c.id n) :
    Scanned A inst q ef level ep pre c post visited (layerVisit A inst q ef state n) ∧
      (∀ d ∈ state.1, d ∈ (layerVisit A inst q ef state n).1) ∧
      (A.sentinel < score A inst q n → n ∈ (layerVisit A inst q ef state n).1.map Candidate.id) := by
  have inside : n < inst.nextId := by
    obtain ⟨e, nbrs, found, list, member⟩ := edge
    exact shape.inRange found list n member
  have gathered := scanned.gathered
  unfold layerVisit
  by_cases skip : inst.nextId ≤ n ∨ n ∈ state.2
  · rw [if_pos skip]
    exact ⟨scanned, fun _ member => member, gathered.visited n (skip.resolve_left (by omega))⟩
  rw [if_neg skip]
  by_cases similar : A.sentinel < score A inst q n
  · rw [if_pos similar]
    have reachedC : Reachable A inst q level ep c.id := gathered.reached c (scanned.kept c (by simp))
    have reached : Reachable A inst q level ep n := reachedC.step edge similar
    by_cases known : ∃ d ∈ state.1, d.id = n
    · -- a node that is a candidate already stays where it is
      have same : candidateAddSorted state.1 ef n (score A inst q n) = state.1 := by
        obtain ⟨d, member, rfl⟩ := known
        exact if_pos (.inr (any_eq_true.mpr ⟨d, member, by simp⟩))
      rw [same]
      have listed : n ∈ state.1.map Candidate.id := mem_map.mpr known
      exact ⟨scanned.mark A fun _ => listed, fun _ member => member, fun _ => listed⟩
    · have fresh : ∀ d ∈ state.1, d.id ≠ n := fun d member same => known ⟨d, member, same⟩
      obtain ⟨pre', post', shape', longer, front⟩ := scanned.around
      have room := gathered.room A shape small few reached fresh
      rw [shape'] at room fresh
      obtain ⟨pre2, post2, added, longer2, front2, members⟩ := candidateAddSorted_around (s := score A inst q n) room fresh
      rw [← shape'] at added members
      have listed : n ∈ (candidateAddSorted state.1 ef n (score A inst q n)).map Candidate.id := by
        rw [added]
        exact mem_map.mpr ⟨⟨n, score A inst q n⟩, (members _).mpr (.inr rfl), rfl⟩
      have grows : ∀ d ∈ state.1, d ∈ candidateAddSorted state.1 ef n (score A inst q n) := by
        intro d member
        rw [added]
        exact (members d).mpr (.inl member)
      have growsIds : ∀ v ∈ state.1.map Candidate.id, v ∈ (candidateAddSorted state.1 ef n (score A inst q n)).map Candidate.id := by
        intro v member
        obtain ⟨d, inside, rfl⟩ := mem_map.mp member
        exact mem_map_of_mem (grows d inside)
      refine ⟨⟨⟨gathered.found.add A inside, gathered.falling.add _ _ (FloatOrder.ordered_of_lt similar),
        candidateAddSorted_nodup gathered.distinct _ _ _, fun d member => ?_, growsIds _ gathered.start, fun v member high => ?_⟩,
        ⟨pre2, post2, added, longer.trans longer2, fun d member => ?_⟩, fun d member => grows d (scanned.kept d member),
        fun v member => mem_cons_of_mem n (scanned.older v member)⟩, grows, fun _ => listed⟩
      · rcases candidateAddSorted_mem member with old | rfl
        · exact gathered.reached d old
        · exact reached
      · rcases mem_cons.mp member with rfl | old
        · exact listed
        · exact growsIds v (gathered.visited v old high)
      · rcases front2 d member with old | ⟨rfl, above⟩
        · exact front d old
        · exact .inr ⟨edge, fun before => skip (.inr (scanned.older n before)), similar, above⟩
  · rw [if_neg similar]
    exact ⟨scanned.mark A fun high => absurd high similar, fun _ member => member, fun high => absurd high similar⟩

theorem layerFold_scanned {nbrs : List Nat}
    (edges : ∀ n ∈ nbrs, Neighbor inst level c.id n) (scanned : Scanned A inst q ef level ep pre c post visited state) :
    Scanned A inst q ef level ep pre c post visited (nbrs.foldl (layerVisit A inst q ef) state) ∧
      (∀ d ∈ state.1, d ∈ (nbrs.foldl (layerVisit A inst q ef) state).1) ∧
      ∀ n ∈ nbrs, A.sentinel < score A inst q n → n ∈ (nbrs.foldl (layerVisit A inst q ef) state).1.map Candidate.id := by
  induction nbrs generalizing state with
  | nil => exact ⟨scanned, fun _ member => member, fun n member => by cases member⟩
  | cons n nbrs ih =>
    obtain ⟨scanned1, grows1, listed1⟩ := layerVisit_scanned A shape small few scanned (edges n mem_cons_self)
    obtain ⟨scanned2, grows2, listed2⟩ := ih (fun m member => edges m (mem_cons_of_mem n member)) scanned1
    refine ⟨scanned2, fun d member => grows2 d (grows1 d member), fun m member similar => ?_⟩
    rcases mem_cons.mp member with rfl | later
    · obtain ⟨d, inside, same⟩ := mem_map.mp (listed1 similar)
      exact mem_map.mpr ⟨d, grows2 d inside, same⟩
    · exact listed2 m later similar

theorem layerPass_spec (gathered : Gathered A inst q ef level ep state) (here : state.1[cursor]? = some c) :
    ∃ state', layerPass A inst q ef level c state = some state' ∧ Gathered A inst q ef level ep state' ∧
      (NoneSkipped A inst q level c state.2 → Expanded A inst q level cursor state.1 → Expanded A inst q level (cursor + 1) state'.1) := by
  obtain ⟨inside, isC⟩ := getElem?_eq_some_iff.mp here
  obtain ⟨e, entry⟩ := shape.live c.id (gathered.found.own c (mem_of_getElem? here)).1
  have size : (state.1.take cursor).length = cursor := by
    rw [length_take]
    omega
  have split : state.1 = state.1.take cursor ++ c :: state.1.drop (cursor + 1) := by
    rw [← isC, cons_getElem_drop_succ, take_append_drop]
  have last : state.1.take (cursor + 1) = state.1.take cursor ++ [c] := by
    rw [take_add_one, here]
    rfl
  unfold layerPass
  rw [entry]
  cases list : e.neighbors[level]? with
  | none =>
    refine ⟨state, by simp [list], gathered, fun _ expanded d member n edge => ?_⟩
    rw [last] at member
    rcases mem_append.mp member with old | isLast
    · exact expanded d old n edge
    · obtain ⟨e', nbrs, found, list', _⟩ := edge
      rw [mem_singleton.mp isLast, entry] at found
      cases found
      rw [list] at list'
      cases list'
  | some nbrs =>
    have low : ¬ e.level < level := Nat.not_lt.mpr (shape.level_le entry list)
    have edges : ∀ n, Neighbor inst level c.id n ↔ n ∈ nbrs := by
      intro n
      constructor
      · rintro ⟨e', nbrs', found, list', member⟩
        rw [entry] at found
        cases found
        rw [list] at list'
        cases list'
        exact member
      · exact fun member => ⟨e, nbrs, entry, list, member⟩
    have scanned : Scanned A inst q ef level ep (state.1.take cursor) c (state.1.drop (cursor + 1)) state.2 state :=
      ⟨gathered, ⟨_, _, split, le_rfl, fun d member => .inl member⟩, fun d member => split ▸ member, fun v member => member⟩
    obtain ⟨scanned', grows, listed⟩ := layerFold_scanned A shape small few (fun n => (edges n).mpr) scanned
    refine ⟨_, by simp [list, low, layerScan_eq A shape], scanned'.gathered, fun clear expanded d member n edge similar => ?_⟩
    have growsIds : ∀ v ∈ state.1.map Candidate.id, v ∈ (nbrs.foldl (layerVisit A inst q ef) state).1.map Candidate.id := by
      intro v member
      obtain ⟨d, inside, rfl⟩ := mem_map.mp member
      exact mem_map_of_mem (grows d inside)
    -- `c` has not moved to the left, so what stands before the cursor now is `c` or stands in front of it
    obtain ⟨pre', post', after, longer, front⟩ := scanned'.around
    have near : d ∈ pre' ++ [c] := by
      rw [after, append_cons] at member
      have enough : cursor + 1 ≤ (pre' ++ [c]).length := by
        rw [length_append, length_singleton]
        omega
      rw [take_append_of_le_length enough] at member
      exact mem_of_mem_take member
    rcases mem_append.mp near with inFront | isLast
    · rcases front d inFront with old | ⟨found, fresh, similarD, above⟩
      · exact growsIds n (expanded d old n edge similar)
      · rcases clear d.id n found fresh similarD above edge similar with before | direct
        · exact growsIds n (gathered.visited n before similar)
        · exact listed n ((edges n).mp direct) similar
    · rw [mem_singleton.mp isLast] at edge
      exact listed n ((edges n).mp edge) similar

omit [DecidableLT F] [FloatOrder F] in
theorem room_of_few : 0 < ef := by
  have one : [ep].length ≤ {v | Reachable A inst q level ep v}.ncard := by
    refine length_le_ncard A shape small (nodup_singleton ep) fun id member => ?_
    rw [mem_singleton.mp member]
    exact .entry
  exact Nat.lt_of_lt_of_le Nat.one_pos (one.trans few)

omit [FloatOrder F] in
theorem gathered_start : Gathered A inst q ef level ep (candidateAddSorted [] ef ep (score A inst q ep), [ep]) := by
  have room := room_of_few A shape small few
  rw [candidateAddSorted_nil room]
  refine ⟨⟨room, fun c member => ?_⟩, pairwise_singleton _ _, nodup_singleton _, fun c member => ?_,
    mem_singleton_self ep, fun v member _ => member⟩
  · rw [mem_singleton.mp member]
    exact ⟨small, rfl⟩
  · rw [mem_singleton.mp member]
    exact .entry

theorem Passes.gathered (passes : Passes A inst q ef level ep cursor state) : Gathered A inst q ef level ep state := by
  induction passes with
  | start => exact gathered_start A shape small few
  | next _ here ran ih =>
    obtain ⟨state', pass, gathered, _⟩ := layerPass_spec A shape small few ih here
    rw [ran] at pass
    cases pass
    exact gathered

end Loop

def chainNode (id : Nat) (vector : List Int) (nbrs : List Nat) : VectorEntry Int :=
  ⟨.ofBytes [], .ofBytes [], vector, 1, id, 0, false, [nbrs]⟩

def chain : KvsVector Int :=
  { (kvsVectorCreate : KvsVector Int) with
    items := [some (chainNode 0 [0, 1] [1]), some (chainNode 1 [1, 0] [0, 2]), some (chainNode 2 [1, 0] [1])], entryPoint := some 0 }

theorem chain_entry {id : Nat} {e : VectorEntry Int} (found : chain.entry id = some e) :
    (id = 0 ∧ e = chainNode 0 [0, 1] [1]) ∨ (id = 1 ∧ e = chainNode 1 [1, 0] [0, 2]) ∨ (id = 2 ∧ e = chainNode 2 [1, 0] [1]) := by
  have small : id < 3 := entry_lt found
  rw [entry_eq_some] at found
  rcases (show id = 0 ∨ id = 1 ∨ id = 2 by omega) with rfl | rfl | rfl
  · cases found
    exact .inl ⟨rfl, rfl⟩
  · cases found
    exact .inr (.inl ⟨rfl, rfl⟩)
  · cases found
    exact .inr (.inr ⟨rfl, rfl⟩)

theorem chain_wellFormed : WellFormed chain := by
  refine ⟨fun id e found level fits => ?_, fun id small => ?_, fun _ => ⟨0, _, rfl, rfl, rfl⟩⟩
  · have zero : level = 0 := by
      rcases chain_entry found with ⟨_, rfl⟩ | ⟨_, rfl⟩ | ⟨_, rfl⟩ <;> exact Nat.le_zero.mp fits
    subst zero
    rcases chain_entry found with ⟨rfl, rfl⟩ | ⟨rfl, rfl⟩ | ⟨rfl, rfl⟩
    · refine ⟨[1], rfl, by decide, by decide, by decide, fun n member => ?_⟩
      rw [mem_singleton.mp member]
      exact ⟨by decide, _, rfl, by decide, by decide⟩
    · refine ⟨[0, 2], rfl, by decide, by decide, by decide, fun n member => ?_⟩
      rcases mem_pair.mp member with rfl | rfl
      · exact ⟨by decide, _, rfl, by decide, by decide⟩
      · exact ⟨by decide, _, rfl, by decide, by decide⟩
    · refine ⟨[1], rfl, by decide, by decide, by decide, fun n member => ?_⟩
      rw [mem_singleton.mp member]
      exact ⟨by decide, _, rfl, by decide, by decide⟩
  · have bound : id < 3 := small
    rcases (show id = 0 ∨ id = 1 ∨ id = 2 by omega) with rfl | rfl | rfl <;> exact ⟨_, rfl, le_rfl⟩

theorem chain_shape : GraphShape chain where
  live id small := by
    obtain ⟨e, found, _⟩ := chain_wellFormed.items id small
    exact ⟨e, found⟩
  ids found := by rcases chain_entry found with ⟨rfl, rfl⟩ | ⟨rfl, rfl⟩ | ⟨rfl, rfl⟩ <;> rfl
  levels found := by rcases chain_entry found with ⟨rfl, rfl⟩ | ⟨rfl, rfl⟩ | ⟨rfl, rfl⟩ <;> rfl
  inRange {id e} found {l nbrs} list n member := by
    have level : l ≤ e.level := by
      have inside := (getElem?_eq_some_iff.mp list).1
      rcases chain_entry found with ⟨rfl, rfl⟩ | ⟨rfl, rfl⟩ | ⟨rfl, rfl⟩ <;> exact Nat.le_of_lt_succ inside
    obtain ⟨nbrs', list', _, _, _, linked⟩ := chain_wellFormed.lists found l level
    rw [list] at list'
    cases list'
    exact (linked n member).1

/-- The greedy walk ends, at a node at least as similar as the start that no neighbour beats. -/
theorem hnswGreedy_local_optimum {F : Type} [LinearOrder F] (A : FloatOps F) {inst : KvsVector F} (shape : GraphShape inst) (q : VectorQuery F)
    (ep level : Nat) : ∃ r s s', hnswGreedy A inst ep level q = some r ∧ idScore A inst ep q = some s ∧ idScore A inst r q = some s' ∧ s ≤ s' ∧
      ∀ n, Neighbor inst level r n → ∃ t, idScore A inst n q = some t ∧ t ≤ s' := by
  have scores := idScore_eq A shape.live q
  by_cases small : ep < inst.nextId
  · obtain ⟨r, ran, _, origin, optimum, _⟩ := hnswGreedy_spec A (q := q) shape level small
    refine ⟨r, _, _, ran, scores ep, scores r, ?_, fun n edge => ⟨_, scores n, ?_⟩⟩
    · rcases origin with rfl | climbs
      · exact le_rfl
      · exact climbs.le
    · obtain ⟨e, nbrs, found, list, member⟩ := edge
      exact not_lt.mp (optimum e nbrs found list n member)
  · -- a start that is no id is returned, and has no neighbours
    refine ⟨ep, _, _, ?_, scores ep, scores ep, le_rfl, fun n edge => ?_⟩
    · simp [hnswGreedy, scores, hnswGreedyLoop, not_lt.mp small]
    · obtain ⟨e, _, found, _⟩ := edge
      exact absurd (entry_lt found) small

theorem hnswGreedy_local_optimum_chain : GraphShape chain ∧ ∃ r s s', hnswGreedy wholeOps chain 0 0 ⟨[1, 0], 1⟩ = some r ∧
    idScore wholeOps chain 0 ⟨[1, 0], 1⟩ = some s ∧ idScore wholeOps chain r ⟨[1, 0], 1⟩ = some s' ∧ s ≤ s' ∧
    ∀ n, Neighbor chain 0 r n → ∃ t, idScore wholeOps chain n ⟨[1, 0], 1⟩ = some t ∧ t ≤ s' :=
  ⟨chain_shape, hnswGreedy_local_optimum wholeOps chain_shape ⟨[1, 0], 1⟩ 0 0⟩

end AICacheDB.KvsVector
