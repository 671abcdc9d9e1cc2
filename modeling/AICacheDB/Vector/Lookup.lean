import AICacheDB.Vector.Store

open CLib List Option Machine

namespace AICacheDB.KvsVector

section Select

variable {F : Type} [LT F] [LE F] [DecidableLT F] [DecidableLE F] (A : FloatOps F) {inst : KvsVector F} {q : VectorQuery F}

theorem selectTop_spec (shape : GraphShape inst) {topk : Nat} (room : 0 < topk) (threshold : F) (found : List (Candidate F)) :
    ∃ top, selectTop A inst q topk threshold found = some top ∧ (∀ c ∈ top, ∃ d ∈ found, d.id = c.id) ∧
      (top ≠ [] ↔ ∃ c ∈ found, threshold ≤ score A inst q c.id) := by
  have fold : ∀ (found : List (Candidate F)) (top : List (Candidate F)), ∃ top', found.foldlM (fun top c => do
        let score ← idScore A inst c.id q
        some (if threshold ≤ score then candidateAddSorted top topk c.id score else top)) top = some top' ∧
      (∀ c ∈ top', c ∈ top ∨ ∃ d ∈ found, d.id = c.id) ∧
      (top' ≠ [] ↔ top ≠ [] ∨ ∃ c ∈ found, threshold ≤ score A inst q c.id) := by
    intro found
    induction found with
    | nil => exact fun top => ⟨top, rfl, fun c member => .inl member, by simp⟩
    | cons c found ih =>
      intro top
      by_cases good : threshold ≤ score A inst q c.id
      · obtain ⟨top', ran, members, filled⟩ := ih (candidateAddSorted top topk c.id (score A inst q c.id))
        refine ⟨top', ?_, fun d member => ?_, ?_⟩
        · rw [foldlM_cons, idScore_eq A shape.live]
          simpa [good] using ran
        · rcases members d member with added | ⟨d', later, same⟩
          · rcases candidateAddSorted_mem added with old | rfl
            · exact .inl old
            · exact .inr ⟨c, by simp, rfl⟩
          · exact .inr ⟨d', by simp [later], same⟩
        · have real : candidateAddSorted top topk c.id (score A inst q c.id) ≠ [] := by
            intro empty
            rcases candidateAddSorted_cases top room c.id (score A inst q c.id) with ⟨same, known | ⟨_, last, isLast, _⟩⟩ |
              ⟨front, back, added, _⟩
            · obtain ⟨d, inside, _⟩ := known
              rw [same] at empty
              exact ne_nil_of_mem inside empty
            · rw [same] at empty
              exact ne_nil_of_mem (mem_of_getLast? isLast) empty
            · rw [added] at empty
              simp at empty
          rw [filled]
          exact ⟨fun _ => .inr ⟨c, by simp, good⟩, fun _ => .inl real⟩
      · obtain ⟨top', ran, members, filled⟩ := ih top
        refine ⟨top', ?_, fun d member => ?_, ?_⟩
        · rw [foldlM_cons, idScore_eq A shape.live]
          simpa [good] using ran
        · rcases members d member with old | ⟨d', later, same⟩
          · exact .inl old
          · exact .inr ⟨d', by simp [later], same⟩
        · rw [filled]
          simp [good]
  obtain ⟨top, ran, members, filled⟩ := fold found []
  refine ⟨top, ran, fun c member => ?_, by simpa using filled⟩
  exact (members c member).resolve_left (by simp)

omit [LT F] [LE F] [DecidableLT F] [DecidableLE F] in
theorem searchResults_spec (shape : GraphShape inst) {top : List (Candidate F)} (inside : ∀ c ∈ top, c.id < inst.nextId) :
    ∃ results, searchResults inst top = some results ∧ results.length = top.length := by
  unfold searchResults
  induction top with
  | nil => exact ⟨[], rfl, rfl⟩
  | cons c top ih =>
    obtain ⟨e, found⟩ := shape.live c.id (inside c (by simp))
    obtain ⟨results, rest, size⟩ := ih fun d member => inside d (by simp [member])
    refine ⟨⟨e.question, e.answer, c.score⟩ :: results, ?_, by simp [size]⟩
    rw [mapM_cons, rest, found]
    rfl

end Select

section Ends

variable {F : Type} [LT F] [LE F] [DecidableLT F] [DecidableLE F] [FloatOrder F] (A : FloatOps F) {inst : KvsVector F}
  (valid : StoreOk inst)

include valid

theorem searchCandidates_ends (q : VectorQuery F) :
    ∃ found, searchCandidates A .ok inst q = some found ∧ ∀ c ∈ found, c.id < inst.nextId := by
  have entryOk := valid.entry
  unfold EntryOk at entryOk
  cases start : inst.entryPoint with
  | none => exact ⟨[], by simp [searchCandidates, start], by simp⟩
  | some ep =>
    rw [start] at entryOk
    obtain ⟨e, foundEp, _⟩ := entryOk
    have small := entry_lt foundEp
    have real : inst.nextId ≠ 0 := Nat.ne_of_gt (Nat.zero_lt_of_lt small)
    obtain ⟨r, descend, smallR, _⟩ := greedyDescend_spec A (q := q) valid.shape 0 inst.maxLevel small
    obtain ⟨items, layer, own, _⟩ := hnswSearchLayer_spec A (q := q) valid.shape (show 0 < hnswEfSearch by decide) 0 smallR
    exact ⟨items, by simp [searchCandidates, start, real, descend, layer], fun c member => (own.own c member).1⟩

theorem kvsVectorSearch_ends (dim : Int) (str : CString) (topk : Int) (threshold : F) :
    ∃ n results, kvsVectorSearch A .ok inst dim str topk threshold = some (n, results) := by
  unfold kvsVectorSearch
  by_cases args : dim ≤ 0 ∨ topk ≤ 0
  · exact ⟨_, _, if_pos args⟩
  rw [if_neg args]
  cases parsed : parseVector A .ok str dim with
  | none => exact ⟨_, _, rfl⟩
  | some vec =>
    by_cases norm : vectorNorm A vec ≤ A.zero
    · exact ⟨_, _, if_pos norm⟩
    obtain ⟨found, search, small⟩ := searchCandidates_ends A valid ⟨vec, vectorNorm A vec⟩
    obtain ⟨top, select, members, _⟩ := selectTop_spec A (q := ⟨vec, vectorNorm A vec⟩) valid.shape
      (show 0 < (min topk 128).toNat by omega) threshold found
    have inside : ∀ c ∈ top, c.id < inst.nextId := by
      intro c member
      obtain ⟨c', member', same⟩ := members c member
      exact same ▸ small c' member'
    obtain ⟨results, collect, _⟩ := searchResults_spec valid.shape inside
    by_cases empty : top = []
    · exact ⟨0, [], by simp [norm, search, select, empty]⟩
    · exact ⟨top.length, results, by simp [norm, search, select, empty, collect]⟩

theorem kvsVectorGetByVector_ends (dim : Int) (str : CString) (threshold : F) :
    ∃ ret result, kvsVectorGetByVector A .ok inst dim str threshold = some (ret, result) := by
  obtain ⟨n, results, search⟩ := kvsVectorSearch_ends A valid dim str 1 threshold
  simp only [kvsVectorGetByVector, search, bind_eq_bind, bind_some]
  by_cases failed : n < 0
  · exact ⟨_, _, if_pos failed⟩
  · rw [if_neg failed]
    cases results with
    | nil => exact ⟨_, _, rfl⟩
    | cons r rest => exact ⟨_, _, rfl⟩

omit [LT F] [LE F] [DecidableLT F] [DecidableLE F] [FloatOrder F] in
theorem kvsVectorGetByKey_ends (question : CString) : ∃ entry, kvsVectorGetByKey inst question = some entry := by
  obtain ⟨t, registered⟩ := valid.tree
  unfold kvsVectorGetByKey
  rcases Rbtree.rbtreeSearch_spec registered.valid question with ⟨x, member, _, search⟩ | ⟨_, search⟩
  · obtain ⟨n, live, _, value, _⟩ := registered.valid.rep.cell member
    obtain ⟨e, found, _⟩ := registered.stored x member
    have real : x.addr ≠ Rbtree.nil := ne_of_mem_of_not_mem (mem_map_of_mem member) registered.valid.rep.notNil
    exact ⟨some e, by simp [search, real, live, value, found]⟩
  · exact ⟨none, by simp [search]⟩

end Ends

variable {F : Type} [LinearOrder F] (A : FloatOps F) {inst : KvsVector F}

def NoneAbove (inst : KvsVector F) (q : VectorQuery F) (level id : Nat) (s : F) : Prop :=
  ∀ e nbrs, inst.entry id = some e → e.neighbors[level]? = some nbrs → ∀ n ∈ nbrs, score A inst q n ≤ s

theorem noneBeats_iff {q : VectorQuery F} {level id : Nat} {s : F} : NoneBeats A inst q level id s ↔ NoneAbove A inst q level id s := by
  simp only [NoneBeats, NoneAbove, not_lt]

def EntryReaches (inst : KvsVector F) : Prop :=
  ∃ ep e, inst.entryPoint = some ep ∧ inst.entry ep = some e ∧
    (e.deleted = false ∨ ∃ nbrs ∈ e.neighbors, ∃ n ∈ nbrs, Live inst n)

/-- A threshold between the sentinel and every similarity of two vectors of dimension `d`. -/
structure Separates (d : Nat) (threshold : F) : Prop where
  above : A.sentinel < threshold
  below : ∀ a b : List F, a.length = d → b.length = d → A.zero < vectorNorm A a → A.zero < vectorNorm A b →
    threshold ≤ cosineSimilarity A a b (vectorNorm A a) (vectorNorm A b)

section Reach

variable {d : Nat} {vec : List F} {threshold : F}

theorem score_tombstone {id : Nat} {e : VectorEntry F} (q : VectorQuery F) (found : inst.entry id = some e)
    (gone : e.deleted = true) : score A inst q id = A.sentinel := by
  simp [score, found, entryScore, gone]

variable (valid : VectorValid A inst) (dims : ∀ {id e}, inst.entry id = some e → e.vector.length = d)

include valid dims

theorem le_score_iff_live
    (size : vec.length = d) (norm : A.zero < vectorNorm A vec) (separates : Separates A d threshold) {id : Nat}
    (small : id < inst.nextId) : threshold ≤ score A inst ⟨vec, vectorNorm A vec⟩ id ↔ Live inst id := by
  obtain ⟨e, found⟩ := valid.shape.live id small
  obtain ⟨own, positive⟩ := valid.norms found
  cases gone : e.deleted with
  | true =>
    rw [score_tombstone A _ found gone]
    refine ⟨fun low => absurd separates.above (not_lt.mpr low), fun ⟨f, found', live⟩ => ?_⟩
    rw [found] at found'
    cases found'
    rw [gone] at live
    cases live
  | false =>
    have similar : score A inst ⟨vec, vectorNorm A vec⟩ id = cosineSimilarity A vec e.vector (vectorNorm A vec) (vectorNorm A e.vector) := by
      simp [score, found, entryScore, gone, dims found, size, own]
    rw [similar]
    exact ⟨fun _ => ⟨e, found, gone⟩, fun _ => separates.below vec e.vector size (dims found) norm (own ▸ positive)⟩

theorem sentinel_lt_iff_live
    (size : vec.length = d) (norm : A.zero < vectorNorm A vec) (separates : Separates A d threshold) {id : Nat}
    (small : id < inst.nextId) : A.sentinel < score A inst ⟨vec, vectorNorm A vec⟩ id ↔ Live inst id := by
  have iff := le_score_iff_live A valid dims size norm separates small
  refine ⟨fun high => ?_, fun live => separates.above.trans_le (iff.mpr live)⟩
  obtain ⟨e, found⟩ := valid.shape.live id small
  cases gone : e.deleted with
  | true =>
    rw [score_tombstone A _ found gone] at high
    exact absurd high (lt_irrefl _)
  | false => exact ⟨e, found, gone⟩

theorem searchCandidates_spec
    (size : vec.length = d) (norm : A.zero < vectorNorm A vec) (separates : Separates A d threshold) (real : 0 < inst.nextId) :
    ∃ found, searchCandidates A .ok inst ⟨vec, vectorNorm A vec⟩ = some found ∧
      Found A inst ⟨vec, vectorNorm A vec⟩ hnswEfSearch found ∧
      ((∃ c ∈ found, threshold ≤ score A inst ⟨vec, vectorNorm A vec⟩ c.id) ↔ EntryReaches inst) := by
  have entryOk := valid.entry
  unfold EntryOk at entryOk
  cases start : inst.entryPoint with
  | none =>
    rw [start] at entryOk
    exact absurd entryOk (Nat.ne_of_gt real)
  | some ep =>
    rw [start] at entryOk
    obtain ⟨e, foundEp, level⟩ := entryOk
    have smallEp := entry_lt foundEp
    have isLive : ∀ {id}, id < inst.nextId → (A.sentinel < score A inst ⟨vec, vectorNorm A vec⟩ id ↔ Live inst id) :=
      fun small => sentinel_lt_iff_live A valid dims size norm separates small
    obtain ⟨r, descend, smallR, moved, stays, _⟩ :=
      greedyDescend_spec A (q := ⟨vec, vectorNorm A vec⟩) valid.shape 0 inst.maxLevel smallEp
    obtain ⟨items, layer, own, direct, near, alone, _⟩ :=
      hnswSearchLayer_spec A (q := ⟨vec, vectorNorm A vec⟩) valid.shape (show 0 < hnswEfSearch by decide) 0 smallR
    have ran : searchCandidates A .ok inst ⟨vec, vectorNorm A vec⟩ = some items := by
      have nonempty : inst.nextId ≠ 0 := Nat.ne_of_gt real
      simp [searchCandidates, start, nonempty, descend, layer]
    have finds : HasAbove A.sentinel items → ∃ c ∈ items, threshold ≤ score A inst ⟨vec, vectorNorm A vec⟩ c.id := by
      rintro ⟨c, member, high⟩
      obtain ⟨small, same⟩ := own.own c member
      rw [same] at high
      exact ⟨c, member, (le_score_iff_live A valid dims size norm separates small).mpr ((isLive small).mp high)⟩
    refine ⟨items, ran, own, ?_, ?_⟩
    · rintro ⟨c, member, high⟩
      by_contra stuck
      have gone : e.deleted = true := by
        by_contra live
        exact stuck ⟨ep, e, start, foundEp, .inl (by simpa using live)⟩
      have low := score_tombstone A ⟨vec, vectorNorm A vec⟩ foundEp gone
      have noneLive : ∀ l, NoneAbove A inst ⟨vec, vectorNorm A vec⟩ l ep A.sentinel := by
        intro l f nbrs foundF list n inside
        rw [foundEp] at foundF
        cases foundF
        by_contra high
        have live := (isLive (valid.shape.inRange foundEp list n inside)).mp (not_le.mp high)
        exact stuck ⟨ep, e, start, foundEp, .inr ⟨nbrs, mem_of_getElem? list, n, inside, live⟩⟩
      obtain rfl := stays fun l _ _ => by
        rw [low]
        exact (noneBeats_iff A).mpr (noneLive l)
      rw [alone ((noneBeats_iff A).mpr (noneLive 0)), mem_singleton] at member
      rw [member] at high
      simp only [low] at high
      exact absurd separates.above (not_lt.mpr high)
    · rintro ⟨ep', e', start', foundEp', reach⟩
      apply finds
      cases start.symm.trans start'
      cases foundEp.symm.trans foundEp'
      rcases moved with ⟨rfl, optima⟩ | climbs
      · rcases reach with live | ⟨nbrs, listed, n, inside, liveN⟩
        · exact direct ((isLive smallR).mpr ⟨e, foundEp, live⟩)
        · by_cases epLive : Live inst r
          · exact direct ((isLive smallR).mpr epLive)
          · have gone : e.deleted = true := by
              by_contra live
              exact epLive ⟨e, foundEp, by simpa using live⟩
            have low := score_tombstone A ⟨vec, vectorNorm A vec⟩ foundEp gone
            obtain ⟨l, list⟩ := mem_iff_getElem?.mp listed
            have high := (isLive (valid.shape.inRange foundEp list n inside)).mpr liveN
            apply near
            intro none'
            by_cases bottom : l = 0
            · subst bottom
              exact none' e nbrs foundEp list n inside high
            · have fits := valid.shape.level_le foundEp list
              have optimum := optima l (by omega) (by omega) e nbrs foundEp list n inside
              rw [low] at optimum
              exact optimum high
      · apply direct
        have floor : A.sentinel ≤ score A inst ⟨vec, vectorNorm A vec⟩ ep := by
          by_cases live : Live inst ep
          · exact ((isLive smallEp).mpr live).le
          · have gone : e.deleted = true := by
              by_contra alive
              exact live ⟨e, foundEp, by simpa using alive⟩
            exact (score_tombstone A _ foundEp gone).ge
        exact floor.trans_lt climbs

theorem kvsVectorSearch_spec
    (real : 0 < inst.nextId) {str : CString} (parsed : parseVector A .ok str d = some vec) (norm : A.zero < vectorNorm A vec)
    {topk : Int} (some' : 1 ≤ topk) (separates : Separates A d threshold) :
    ∃ n results, kvsVectorSearch A .ok inst d str topk threshold = some (n, results) ∧ n = results.length ∧
      (1 ≤ n ↔ EntryReaches inst) := by
  have size : vec.length = d := by
    have length := parseVector_length A parsed
    omega
  have positive : ¬ (d : Int) ≤ 0 := by
    intro none'
    rw [parseVector, if_pos (.inl none')] at parsed
    cases parsed
  obtain ⟨found, search, own, reaches⟩ := searchCandidates_spec A valid dims size norm separates real
  obtain ⟨top, select, members, filled⟩ := selectTop_spec A (q := ⟨vec, vectorNorm A vec⟩) valid.shape
    (show 0 < (min topk 128).toNat by omega) threshold found
  rw [reaches] at filled
  have args : ¬ ((d : Int) ≤ 0 ∨ topk ≤ 0) := by omega
  by_cases empty : top = []
  · refine ⟨0, [], ?_, rfl, fun more => by omega, fun reach => absurd empty (filled.mpr reach)⟩
    rw [kvsVectorSearch, if_neg args, parsed]
    simp [not_le.mpr norm, search, select, empty]
  · have inside : ∀ c ∈ top, c.id < inst.nextId := by
      intro c member
      obtain ⟨c', member', same⟩ := members c member
      exact same ▸ (own.own c' member').1
    obtain ⟨results, collect, length⟩ := searchResults_spec valid.shape inside
    refine ⟨top.length, results, ?_, by rw [length], fun _ => filled.mp empty, fun _ => ?_⟩
    · rw [kvsVectorSearch, if_neg args, parsed]
      simp [not_le.mpr norm, search, select, empty, collect]
    · have some'' := length_pos_of_ne_nil empty
      omega

end Reach

theorem vectorStep_dims {d : Nat} {inst' : KvsVector F} {ret : Int} {c : VectorSetCall} (valid : VectorValid A inst)
    (dims : ∀ {id e}, inst.entry id = some e → e.vector.length = d) (common : c.dim = d)
    (ran : vectorStep A inst c = some (inst', ret)) {id : Nat} {e : VectorEntry F} (found : inst'.entry id = some e) :
    e.vector.length = d := by
  obtain ⟨inst1, ret1, ran1, _, ⟨_, same⟩ | ⟨_, vec, parsed, _, after⟩⟩ :=
    kvsVectorSet_spec A valid c.question c.answer c.dim c.vectorStr
  · rw [vectorStep, ran1] at ran
    cases ran
    rw [same] at found
    exact dims found
  · rw [vectorStep, ran1] at ran
    cases ran
    have small := entry_lt found
    rw [after.size] at small
    rcases Nat.lt_or_ge id inst.nextId with old | new
    · obtain ⟨e0, found0⟩ := valid.shape.live id old
      obtain ⟨e', found', _, _, vector, _⟩ := after.old found0
      rw [found] at found'
      cases found'
      rw [vector]
      exact dims found0
    · have here : id = inst.nextId := by omega
      obtain ⟨e', found', _, _, vector, _⟩ := after.new
      rw [here, found'] at found
      cases found
      have length := parseVector_length A parsed
      rw [vector]
      omega

/-- After `kvs_vector_set` calls of one dimension that leave an entry, a search whose threshold is always met finds something
    exactly if the entry point or a neighbour of it is live. -/
theorem vector_search_finds_iff (d : Nat) (calls : List VectorSetCall) (common : ∀ c ∈ calls, c.dim = d) :
    ∃ inst rets, Machine.run (vectorStep A) kvsVectorCreate calls = some (inst, rets) ∧
      (0 < inst.count → ∀ str vec topk threshold, parseVector A .ok str d = some vec → A.zero < vectorNorm A vec → 1 ≤ topk →
        Separates A d threshold →
        ∃ n results, kvsVectorSearch A .ok inst d str topk threshold = some (n, results) ∧ n = results.length ∧
          (1 ≤ n ↔ EntryReaches inst)) := by
  have admitted : Meets (vectorStep A) (fun _ c => c.dim = d) kvsVectorCreate calls :=
    .of_forall fun _ c member => common c member
  obtain ⟨inst, rets, ran, valid, dims⟩ := run_invariant
    (fun inst : KvsVector F => VectorValid A inst ∧ ∀ id e, inst.entry id = some e → e.vector.length = d)
    (fun inst c inv same => by
      obtain ⟨valid, dims⟩ := inv
      obtain ⟨inst', ret, ran, valid', _⟩ := kvsVectorSet_spec A valid c.question c.answer c.dim c.vectorStr
      exact ⟨inst', ret, ran, valid', fun id e found => vectorStep_dims A valid (fun {id e} => dims id e) same ran found⟩)
    ⟨vectorValid_create A, fun id e found => absurd (entry_lt found) (Nat.not_lt_zero id)⟩ admitted
  refine ⟨inst, rets, ran, fun stored str vec topk threshold parsed norm some' separates => ?_⟩
  have real : 0 < inst.nextId := by
    obtain ⟨t, registered⟩ := valid.tree
    have count := registered.count
    obtain ⟨x, member⟩ := exists_mem_of_length_pos (l := t.inorder) (by omega)
    obtain ⟨e, found, _⟩ := registered.stored x member
    exact Nat.zero_lt_of_lt (entry_lt found)
  exact kvsVectorSearch_spec A valid (fun {id e} => dims id e) real parsed norm some' separates

def wholeOps : FloatOps Int where
  zero := 0
  sentinel := -2
  fltMax := 2^127
  add := (· + ·)
  mul := (· * ·)
  div := (· / ·)
  sqrtf x := Nat.sqrt x.toNat
  isFinite _ := true
  strtof token :=
    let digits := token.takeWhile fun b => 48 ≤ b ∧ b ≤ 57
    (digits.foldl (fun v b => v * 10 + (b.toNat - 48)) 0, digits.length, false)

theorem wholeOps_separates : Separates wholeOps 1 (-1) := by
  refine ⟨by decide, fun a b sizeA sizeB normA normB => ?_⟩
  obtain ⟨x, rfl⟩ := length_eq_one_iff.mp sizeA
  obtain ⟨y, rfl⟩ := length_eq_one_iff.mp sizeB
  have norm : ∀ z : Int, vectorNorm wholeOps [z] = z.natAbs := by
    intro z
    have square : (z * z).toNat = z.natAbs * z.natAbs := by
      rw [← Int.natAbs_mul_self, Int.toNat_natCast]
    simp [vectorNorm, wholeOps, square, Nat.sqrt_eq]
  rw [norm] at normA normB
  rw [norm, norm]
  have posA : ¬ (x.natAbs : Int) ≤ wholeOps.zero := not_le.mpr normA
  have posB : ¬ (y.natAbs : Int) ≤ wholeOps.zero := not_le.mpr normB
  have similar : cosineSimilarity wholeOps [x] [y] x.natAbs y.natAbs = x * y / (x.natAbs * y.natAbs) := by
    unfold cosineSimilarity
    rw [if_neg (not_or.mpr ⟨posA, posB⟩)]
    simp [wholeOps]
  rw [similar]
  apply Int.le_ediv_of_mul_le (mul_pos (not_le.mp posA) (not_le.mp posB))
  rw [← Int.natCast_mul, ← Int.natAbs_mul]
  omega

def thriceCalls : List VectorSetCall := List.replicate 3 ⟨.ofBytes [113], .ofBytes [97], 1, .ofBytes [49]⟩

/-- The first entry stays the entry point when it is replaced; its only neighbour is a tombstone when the third is stored. -/
theorem overwritten_question_not_found : (Machine.run (vectorStep wholeOps) kvsVectorCreate thriceCalls).map (fun r =>
      (r.2, r.1.count, kvsVectorSearch wholeOps .ok r.1 1 (.ofBytes [49]) 1 (-1))) = some ([0, 0, 0], 1, some (0, [])) := by
  decide +kernel

theorem vector_search_finds_iff_thrice :
    Separates wholeOps 1 (-1) ∧ ∃ inst rets, Machine.run (vectorStep wholeOps) kvsVectorCreate thriceCalls = some (inst, rets) ∧
      0 < inst.count ∧ ∃ n results, kvsVectorSearch wholeOps .ok inst 1 (.ofBytes [49]) 1 (-1) = some (n, results) ∧
        (1 ≤ n ↔ EntryReaches inst) := by
  obtain ⟨inst, rets, ran, search⟩ := vector_search_finds_iff wholeOps 1 thriceCalls (by decide)
  have count : (run (vectorStep wholeOps) kvsVectorCreate thriceCalls).map (fun r => r.1.count) = some 1 := by
    decide +kernel
  rw [ran] at count
  have one : inst.count = 1 := some.inj count
  have stored : 0 < inst.count := by omega
  obtain ⟨n, results, found, _, iff⟩ :=
    search stored (.ofBytes [49]) [1] 1 (-1) (by decide) (by decide) le_rfl wholeOps_separates
  exact ⟨wholeOps_separates, inst, rets, ran, stored, n, results, found, iff⟩

section Text

variable {F : Type} (A : FloatOps F)

def Reads (field : Bytes) (v : F) : Prop := field ≠ [] ∧ A.strtof field = (v, field.length, false) ∧ A.isFinite v = true

/-- `parse_vector` accepts exactly the texts that have a number in each of `dim` fields, and gives these numbers. -/
def ReadsFields (s : CString) (dim : Int) : Prop :=
  ∀ vec, parseVector A .ok s dim = some vec ↔ ((s.bytes.splitOn 44).length : Int) = dim ∧ List.Forall₂ (Reads A) (s.bytes.splitOn 44) vec

theorem parseToken_eq_some {token : Bytes} (real : token ≠ []) (v : F) : parseToken A token = some v ↔ Reads A token v := by
  have long : token.length ≠ 0 := fun zero => real (length_eq_zero_iff.mp zero)
  obtain ⟨v', used, errno, result⟩ : ∃ v' used errno, A.strtof token = (v', used, errno) := ⟨_, _, _, rfl⟩
  simp only [parseToken, Reads, result, ite_none_left_eq_some, not_or, not_not, some.injEq, Prod.mk.injEq,
    Bool.not_eq_true, Bool.not_eq_false]
  constructor
  · rintro ⟨⟨noError, _, all, finite⟩, rfl⟩
    exact ⟨real, ⟨rfl, all, noError⟩, finite⟩
  · rintro ⟨_, ⟨rfl, rfl, noError⟩, finite⟩
    exact ⟨⟨noError, long, rfl, finite⟩, rfl⟩

theorem parseTokens_eq_some {tokens : List Bytes} (real : ∀ token ∈ tokens, token ≠ []) (n : Nat) (vec : List F) :
    parseTokens A tokens n = some vec ↔ tokens.length = n ∧ Forall₂ (Reads A) tokens vec := by
  induction tokens generalizing n vec with
  | nil => cases n <;> simp [parseTokens, eq_comm]
  | cons token tokens ih =>
    cases n with
    | zero => simp [parseTokens]
    | succ n =>
      have head := parseToken_eq_some A (real token mem_cons_self)
      have tail := ih (fun t member => real t (mem_cons_of_mem token member)) n
      simp only [parseTokens, bind_eq_bind, bind_eq_some_iff, head, tail, some.injEq, length_cons,
        Nat.succ_inj, forall₂_cons_left_iff]
      constructor
      · rintro ⟨v, reads, vs, ⟨size, rest⟩, rfl⟩
        exact ⟨size, v, vs, reads, rest, rfl⟩
      · rintro ⟨size, v, vs, reads, rest, rfl⟩
        exact ⟨v, reads, vs, ⟨size, rest⟩, rfl⟩

/-- Empty fields are passed over: the grammar is kept as long as there are none, or what is left of the text is refused anyway. -/
theorem parseVector_fields_iff (s : CString) {dim : Int} (positive : 0 < dim) :
    ReadsFields A s dim ↔ [] ∉ s.bytes.splitOn 44 ∨
      ¬ ∃ vec, ((strtok s.bytes).length : Int) = dim ∧ List.Forall₂ (Reads A) (strtok s.bytes) vec := by
  have parses (vec : List F) : parseVector A .ok s dim = some vec ↔
      ((strtok s.bytes).length : Int) = dim ∧ Forall₂ (Reads A) (strtok s.bytes) vec := by
    have real : ∀ token ∈ strtok s.bytes, token ≠ [] := fun token member => of_decide_eq_true (mem_filter.mp member).2
    have size : (strtok s.bytes).length = dim.toNat ↔ ((strtok s.bytes).length : Int) = dim := by omega
    rw [parseVector, if_neg (by simpa using positive), parseTokens_eq_some A real, size]
  by_cases gap : [] ∈ s.bytes.splitOn 44
  · have unread (vec : List F) : ¬ Forall₂ (Reads A) (s.bytes.splitOn 44) vec := by
      intro all
      generalize s.bytes.splitOn 44 = fields at all gap
      induction all with
      | nil => cases gap
      | cons reads _ ih =>
        rcases mem_cons.mp gap with rfl | later
        · exact reads.1 rfl
        · exact ih later
    simp only [ReadsFields, parses, unread, and_false, iff_false, gap, not_true_eq_false, false_or, not_exists]
  · have same : strtok s.bytes = s.bytes.splitOn 44 :=
      filter_eq_self.mpr fun field member => decide_eq_true fun empty => gap (empty ▸ member)
    exact iff_of_true (fun vec => same ▸ parses vec) (.inl gap)

end Text

theorem parseVector_fields_pair : ReadsFields wholeOps (.ofBytes [49, 44, 50]) 2 :=
  (parseVector_fields_iff wholeOps _ (by decide)).mpr (.inl (by decide))

/-- A text of three fields, the second one empty, is taken for two numbers. -/
theorem empty_field_accepted : parseVector wholeOps .ok (.ofBytes [49, 44, 44, 50]) 2 = some [1, 2] ∧
    ¬ ReadsFields wholeOps (.ofBytes [49, 44, 44, 50]) 2 := by
  have accepted : parseVector wholeOps .ok (.ofBytes [49, 44, 44, 50]) 2 = some [1, 2] := by decide
  refine ⟨accepted, fun grammar => ?_⟩
  exact absurd ((grammar [1, 2]).mp accepted).1 (by decide)

end AICacheDB.KvsVector
