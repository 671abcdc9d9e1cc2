import AICacheDB.Vector.Intact
import AICacheDB.Vector.Invariants

open CLib RedBlack List Option

namespace AICacheDB.KvsVector

variable {F : Type} [LT F] [LE F] [DecidableLT F] [DecidableLE F] (A : FloatOps F) {inst : KvsVector F} {q : VectorQuery F}

/-- Live entries of the query's dimension, at least as similar as the threshold, best first, no question twice, and no more than
    asked for. -/
structure Sound (inst : KvsVector F) (q : VectorQuery F) (topk : Int) (threshold : F) (results : List (VectorSearchResult F)) : Prop where
  entries : ∀ r ∈ results, ∃ id e, inst.entry id = some e ∧ r.question = e.question ∧ r.answer = e.answer ∧ e.deleted = false ∧
    e.vector.length = q.vector.length ∧ r.score = cosineSimilarity A q.vector e.vector q.norm e.norm ∧ threshold ≤ r.score
  falling : results.Pairwise fun r r' => r'.score ≤ r.score
  distinct : (results.map VectorSearchResult.question).Nodup
  few : (results.length : Int) ≤ min topk 128

structure Chosen (inst : KvsVector F) (q : VectorQuery F) (topk : Nat) (threshold : F) (top : List (Candidate F)) : Prop where
  own : ∀ c ∈ top, idScore A inst c.id q = some c.score ∧ threshold ≤ c.score
  falling : Falling top
  distinct : (top.map Candidate.id).Nodup
  few : top.length ≤ topk

variable {threshold : F} {top : List (Candidate F)} {results : List (VectorSearchResult F)}

omit [LT F] [DecidableLT F] in
theorem idScore_similar {id : Nat} {s : F} (scored : idScore A inst id q = some s) (good : threshold ≤ s)
    (above : ¬ threshold ≤ A.sentinel) : ∃ e, inst.entry id = some e ∧ e.deleted = false ∧ e.vector.length = q.vector.length ∧
      s = cosineSimilarity A q.vector e.vector q.norm e.norm := by
  have real : s ≠ A.sentinel := fun same => above (same ▸ good)
  unfold idScore at scored
  split at scored
  · obtain ⟨e, found, rfl⟩ := map_eq_some_iff.mp scored
    unfold entryScore at real ⊢
    split at real
    · exact absurd rfl real
    · rename_i fits
      rw [not_or, Bool.not_eq_true, ne_eq, not_not] at fits
      exact ⟨e, found, fits.1, fits.2, if_neg (by simp [fits])⟩
  · cases scored
    exact absurd rfl real

omit [LT F] [LE F] [DecidableLT F] [DecidableLE F] in
theorem searchResults_eq (ran : searchResults inst top = some results) :
    results = top.filterMap fun c => (inst.entry c.id).map fun e => ⟨e.question, e.answer, c.score⟩ := by
  unfold searchResults at ran
  induction top generalizing results with
  | nil =>
    cases ran
    rfl
  | cons c top ih =>
    simp only [mapM_cons, bind_eq_bind, bind_eq_some_iff] at ran
    obtain ⟨r, first, rest, ran, same⟩ := ran
    cases same
    rw [filterMap_cons, first, ih ran]

variable {P : List F → Prop} {t : ColorTree (Rbtree.Cell CString Nat)} {str : CString}

omit [LT F] [LE F] [DecidableLT F] [DecidableLE F] in
theorem Listed.live_unique (listed : Listed P inst t) (covered : Covered inst t)
    {id id' : Nat} {e e' : VectorEntry F} (found : inst.entry id = some e) (alive : e.deleted = false)
    (found' : inst.entry id' = some e') (alive' : e'.deleted = false) (same : e.question = e'.question) : id = id' := by
  obtain ⟨x, inX, rfl⟩ := covered ⟨e, found, alive⟩
  obtain ⟨y, inY, rfl⟩ := covered ⟨e', found', alive'⟩
  obtain ⟨f, foundX, questionX, _⟩ := listed.stored x inX
  obtain ⟨f', foundY, questionY, _⟩ := listed.stored y inY
  rw [found] at foundX
  rw [found'] at foundY
  cases foundX
  cases foundY
  have key : x.key = y.key := by rw [← questionX, ← questionY, same]
  rw [Rbtree.cell_unique listed.valid inX inY key]

omit [DecidableLT F] in
theorem Chosen.sound [FloatOrder F] (listed : Listed P inst t) (covered : Covered inst t) {topk : Int}
    (positive : 1 ≤ topk) (chosen : Chosen A inst q (min topk 128).toNat threshold top) (ran : searchResults inst top = some results)
    (above : ¬ threshold ≤ A.sentinel) : Sound A inst q topk threshold results := by
  rw [searchResults_eq ran]
  refine ⟨fun r member => ?_, ?_, ?_, ?_⟩
  · obtain ⟨c, inTop, made⟩ := mem_filterMap.mp member
    obtain ⟨scored, good⟩ := chosen.own c inTop
    obtain ⟨e, found, alive, dim, similar⟩ := idScore_similar A scored good above
    rw [found] at made
    cases made
    exact ⟨c.id, e, found, rfl, rfl, alive, dim, similar, good⟩
  · rw [pairwise_filterMap]
    refine Pairwise.imp_of_mem (fun {c d} inC inD => ?_) chosen.falling
    rintro ⟨ordered, notLess⟩ r madeC r' madeD
    obtain ⟨e, _, rfl⟩ := map_eq_some_iff.mp madeC
    obtain ⟨e', _, rfl⟩ := map_eq_some_iff.mp madeD
    exact FloatOrder.le_of_not_lt (FloatOrder.ordered (chosen.own c inC).2).2 ordered notLess
  · rw [Nodup, pairwise_map, pairwise_filterMap]
    refine Pairwise.imp_of_mem (fun {c d} inC inD => ?_) (pairwise_map.mp chosen.distinct)
    rintro apart r madeC r' madeD same
    obtain ⟨e, found, alive, _⟩ := idScore_similar A (chosen.own c inC).1 (chosen.own c inC).2 above
    obtain ⟨e', found', alive', _⟩ := idScore_similar A (chosen.own d inD).1 (chosen.own d inD).2 above
    rw [found] at madeC
    rw [found'] at madeD
    cases madeC
    cases madeD
    exact apart (listed.live_unique covered found alive found' alive' same)
  · have bound := length_filterMap_le (fun c : Candidate F =>
      (inst.entry c.id).map fun e => (⟨e.question, e.answer, c.score⟩ : VectorSearchResult F)) top
    have few := chosen.few
    omega

variable [FloatOrder F]

end AICacheDB.KvsVector
