import AICacheDB.Persistence.RdbRoundTrip
import AICacheDB.Persistence.VectorText
import AICacheDB.Vector.Answers

open CLib RedBlack List Option

namespace AICacheDB

open RdbRecord KvsVector Rbtree

section Load

variable {F : Type} [LinearOrder F] (A : FloatText F)

def Accepts (r : RdbRecord) (question answer : CString) (vec : List F) : Prop :=
  ∃ q a dim text, r = .vector q a dim text ∧ question = .ofBytes q ∧ answer = .ofBytes a ∧
    parseVector A.toFloatOps .ok (.ofBytes text) dim = some vec ∧ A.zero < vectorNorm A.toFloatOps vec

def RdbRecord.question : RdbRecord → CString
  | .vector question _ _ _ => .ofBytes question
  | .kv _ _ key _ => .ofBytes key

variable {A} {env : RdbEnv} {st : RdbLoad F}

theorem loadVector_spec (ample : env.Ample) (valid : VectorValid A.toFloatOps st.server.vector) (q a : Bytes) (dim : Int) (text : Bytes) :
    ∃ st', rdbLoadRecord A env st (.vector q a dim text) = some (st', true) ∧ VectorValid A.toFloatOps st'.server.vector ∧
      ∀ question answer vec, Answers st'.server.vector question answer vec ↔
        Accepts A (.vector q a dim text) question answer vec ∨ Answers st.server.vector question answer vec ∧
            ¬ ∃ answer' vec', Accepts A (.vector q a dim text) question answer' vec' := by
  rw [rdbLoadRecord, if_neg (by rw [ample.textBufs]; decide), ample.vector]
  by_cases good : ∃ vec, parseVector A.toFloatOps .ok (.ofBytes text) dim = some vec ∧ A.zero < vectorNorm A.toFloatOps vec
  · obtain ⟨vec, parsed, norm⟩ := good
    have positive : 0 < dim := by
      by_contra noDim
      rw [parseVector, if_pos (.inl (not_lt.mp noDim))] at parsed
      cases parsed
    obtain ⟨inst, ran, valid', stored⟩ := kvsVectorSet_accepted A.toFloatOps valid (.ofBytes q) (.ofBytes a) parsed norm
    have accepts : ∀ question answer vec', Accepts A (.vector q a dim text) question answer vec' ↔
        question = .ofBytes q ∧ answer = .ofBytes a ∧ vec' = vec := by
      intro question answer vec'
      constructor
      · rintro ⟨_, _, _, _, same, isQ, isA, parsed', _⟩
        cases same
        rw [parsed] at parsed'
        exact ⟨isQ, isA, (some.inj parsed').symm⟩
      · rintro ⟨isQ, isA, rfl⟩
        exact ⟨q, a, dim, text, rfl, isQ, isA, parsed, norm⟩
    rw [if_pos positive, ran]
    refine ⟨_, rfl, valid', fun question answer vec' => ?_⟩
    simp only [accepts]
    refine (stored.answers valid.shape).trans (or_congr Iff.rfl ?_)
    constructor
    · rintro ⟨other, held⟩
      refine ⟨held, ?_⟩
      rintro ⟨_, _, same, _⟩
      exact other same
    · rintro ⟨held, none_⟩
      exact ⟨fun same => none_ ⟨_, _, same, rfl, rfl⟩, held⟩
  · have refuses : ∀ question answer vec, ¬ Accepts A (.vector q a dim text) question answer vec := by
      rintro question answer vec ⟨_, _, _, _, same, _, _, parsed, norm⟩
      cases same
      exact good ⟨vec, parsed, norm⟩
    have same : ∀ question answer vec, Answers st.server.vector question answer vec ↔
        Accepts A (.vector q a dim text) question answer vec ∨
          Answers st.server.vector question answer vec ∧
            ¬ ∃ answer' vec', Accepts A (.vector q a dim text) question answer' vec' := by
      intro question answer vec
      simp [refuses]
    by_cases positive : 0 < dim
    · obtain ⟨ret, ran, _⟩ := kvsVectorSet_refused A.toFloatOps (.ofBytes q) (.ofBytes a)
        fun vec parsed norm => good ⟨vec, parsed, norm⟩
      rw [if_pos positive, ran]
      exact ⟨_, rfl, valid, same⟩
    · rw [if_neg positive]
      exact ⟨st, rfl, valid, same⟩

theorem loadVectors_spec {envs : Nat → RdbEnv} (ample : ∀ i, (envs i).Ample) {records : List RdbRecord}
    (vectors : ∀ r ∈ records, ∃ q a dim text, r = .vector q a dim text) (valid : VectorValid A.toFloatOps st.server.vector) (i : Nat) :
    ∃ s', loadRecords A envs i st records = some s' ∧ VectorValid A.toFloatOps s'.vector ∧
      (∀ question answer vec, Answers s'.vector question answer vec →
        Answers st.server.vector question answer vec ∨ ∃ r ∈ records, Accepts A r question answer vec) ∧
      ((records.map RdbRecord.question).Nodup → ∀ question answer vec, (∃ r ∈ records, Accepts A r question answer vec) ∨
          Answers st.server.vector question answer vec ∧ question ∉ records.map RdbRecord.question →
        Answers s'.vector question answer vec) := by
  induction records generalizing st i with
  | nil =>
    refine ⟨st.server, rfl, valid, fun _ _ _ held => .inl held, ?_⟩
    rintro _ question answer vec (⟨_, member, _⟩ | ⟨held, _⟩)
    · cases member
    · exact held
  | cons r records ih =>
    obtain ⟨q, a, dim, text, rfl⟩ := vectors r (by simp)
    obtain ⟨st', ran, valid', first⟩ := loadVector_spec (ample i) valid q a dim text
    obtain ⟨s', rest, final, sound, complete⟩ := ih (fun r' member => vectors r' (by simp [member])) valid' (i + 1)
    refine ⟨s', ?_, final, ?_, ?_⟩
    · simp [loadRecords, ran, rest]
    · intro question answer vec held
      rcases sound question answer vec held with before | ⟨r, member, accepts⟩
      · rcases (first question answer vec).mp before with accepts | ⟨old, _⟩
        · exact .inr ⟨_, by simp, accepts⟩
        · exact .inl old
      · exact .inr ⟨r, by simp [member], accepts⟩
    · intro distinct question answer vec which
      rw [map_cons, nodup_cons] at distinct
      refine complete distinct.2 question answer vec ?_
      rcases which with ⟨r, member, accepts⟩ | ⟨held, absent⟩
      · rcases mem_cons.mp member with rfl | later
        · obtain ⟨_, _, _, _, same, isQ, _⟩ := id accepts
          cases same
          exact .inr ⟨(first question answer vec).mpr (.inl accepts), isQ ▸ distinct.1⟩
        · exact .inl ⟨r, later, accepts⟩
      · rw [map_cons, mem_cons, not_or] at absent
        refine .inr ⟨(first question answer vec).mpr (.inr ⟨held, ?_⟩), absent.2⟩
        rintro ⟨_, _, _, _, _, _, same, isQ, _⟩
        cases same
        exact absent.1 isQ

end Load

section Parsed

variable {F : Type} (A : FloatOps F)

theorem parseTokens_finite {tokens : List Bytes} {n : Nat} {vec : List F} (parsed : parseTokens A tokens n = some vec) :
    ∀ x ∈ vec, A.isFinite x = true := by
  induction tokens generalizing n vec with
  | nil =>
    cases n with
    | zero =>
      cases parsed
      exact fun x member => by cases member
    | succ n => cases parsed
  | cons token tokens ih =>
    cases n with
    | zero => cases parsed
    | succ n =>
      simp only [parseTokens, bind_eq_bind, bind_eq_some_iff] at parsed
      obtain ⟨v, first, vs, rest, done⟩ := parsed
      cases done
      intro x member
      rcases mem_cons.mp member with rfl | later
      · unfold parseToken at first
        dsimp only at first
        split at first
        · cases first
        · rename_i good
          cases first
          simp only [not_or, Bool.not_eq_false] at good
          exact good.2.2.2
      · exact ih rest x later

structure Parsed (vec : List F) : Prop where
  finite : ∀ x ∈ vec, A.isFinite x = true
  real : vec ≠ []
  small : vec.length < 2^31

theorem parseVector_parsed {alloc : VectorAlloc} {str : CString} {dim : Int} {vec : List F} (range : dim < 2^31)
    (parsed : parseVector A alloc str dim = some vec) : Parsed A vec := by
  have length := parseVector_length A parsed
  unfold parseVector at parsed
  split at parsed
  · cases parsed
  · rename_i good
    rw [not_or, not_le] at good
    refine ⟨parseTokens_finite A parsed, ?_, by omega⟩
    rintro rfl
    rw [length_nil] at length
    omega

end Parsed

section Vectors

variable {A : FloatText ℚ} {inst : KvsVector ℚ} {t : ColorTree (Rbtree.Cell CString Nat)}

/-- The lengths fit, a component has its 32 bytes of text, and some component is not rounded to zero. -/
structure Storable (e : VectorEntry ℚ) : Prop where
  question : e.question.bytes.length < 2^31
  answer : e.answer.bytes.length < 2^31
  room : (vectorText e.vector).length ≤ 32 * e.vector.length
  text : (vectorText e.vector).length < 2^31
  visible : ∃ x ∈ e.vector, 1 / 2 < |x| * 10^6

def entryRecord (e : VectorEntry ℚ) : RdbRecord :=
  vectorRecord e.question e.answer e.vector.length (.ofBytes (vectorText e.vector))

def KeepsQuestions (inst inst' : KvsVector ℚ) : Prop :=
  ∀ question e, kvsVectorGetByKey inst question = some (some e) →
    ∃ e', kvsVectorGetByKey inst' question = some (some e') ∧ e'.answer = e.answer ∧ e'.vector.length = e.vector.length

theorem visible_iff {vec : List ℚ} : (∃ x ∈ vec.map round6, x ≠ 0) ↔ ∃ x ∈ vec, 1 / 2 < |x| * 10^6 := by
  constructor
  · rintro ⟨_, member, nonzero⟩
    obtain ⟨x, inside, rfl⟩ := mem_map.mp member
    exact ⟨x, inside, not_le.mp fun small => nonzero (round6_eq_zero_iff.mpr small)⟩
  · rintro ⟨x, inside, large⟩
    exact ⟨round6 x, mem_map_of_mem inside, fun zero => absurd (round6_eq_zero_iff.mp zero) (not_le.mpr large)⟩

variable (exact : ExactText A)

include exact

variable {e : VectorEntry ℚ}

theorem Storable.accepts (storable : Storable e) (parsed : Parsed A.toFloatOps e.vector) :
    Accepts A (entryRecord e) e.question e.answer (e.vector.map round6) := by
  have short : (CString.ofBytes (vectorText e.vector)).bytes.length < 2^31 := by
    rw [vectorText_bytes]
    exact storable.text
  refine ⟨_, _, _, _, rfl, ?_, ?_, ?_, (norm_pos_iff exact _).mpr (visible_iff.mpr storable.visible)⟩
  · rw [cut_of_short storable.question, CString.ofBytes_bytes]
  · rw [cut_of_short storable.answer, CString.ofBytes_bytes]
  · rw [cut_of_short short, CString.ofBytes_bytes, wrap32_of_range (by omega) (by have := parsed.small; omega)]
    exact parseVector_text exact parsed.finite parsed.real

theorem storable_of_accepts (parsed : Parsed A.toFloatOps e.vector)
    (shortQ : e.question.bytes.length < 2^31) (shortA : e.answer.bytes.length < 2^31) {text question answer : CString} {vec : List ℚ}
    (rendered : rdbVectorToString A true e.vector = some text) (positive : 0 ≤ wrap32 text.bytes.length)
    (accepts : Accepts A (vectorRecord e.question e.answer e.vector.length text) question answer vec) : Storable e := by
  rw [rdbVectorToString_eq exact] at rendered
  split at rendered
  · rename_i fits
    cases rendered
    obtain ⟨_, _, _, _, same, _, _, read, norm⟩ := accepts
    simp only [vectorRecord, RdbRecord.vector.injEq] at same
    obtain ⟨_, _, rfl, rfl⟩ := same
    have small := parsed.small
    rw [vectorText_bytes] at positive
    rw [cut, vectorText_bytes, wrap32_of_range (x := e.vector.length) (by omega) (by omega)] at read
    have short : (vectorText e.vector).length < 2^31 := by
      by_contra long
      -- the length is taken modulo 2^32, so that 4 GiB of the text are missing
      have missing : (wrap32 (vectorText e.vector).length).toNat + 2^32 ≤ (vectorText e.vector).length := by
        unfold wrap32 at positive ⊢
        omega
      rw [parseVector_cut exact parsed.finite parsed.real missing] at read
      cases read
    rw [wrap32_of_range (x := (vectorText e.vector).length) (by omega) (by omega), Int.toNat_natCast, take_length,
      parseVector_text exact parsed.finite parsed.real] at read
    cases read
    exact ⟨shortQ, shortA, fits.2, short, visible_iff.mp ((norm_pos_iff exact _).mp norm)⟩
  · cases rendered

omit exact in
theorem rdbSaveVectorNode_inorder {P : List ℚ → Prop} (listed : Listed P inst t) (memory : CString → Bool) :
    rdbSaveVectorNode A memory inst inst.tree.root = rdbSaveItems (fun x : Cell CString Nat =>
        rdbSaveVectorEntry A memory inst ⟨.black, nil, nil, nil, x.key, x.value, x.expireMs⟩) t.inorder := by
  have small := listed.valid.rep.size_le
  rw [rdbSaveVectorNode, listed.valid.rep.root]
  exact rdbSaveTree_inorder (fun key id expireMs =>
    rdbSaveVectorEntry A memory inst ⟨.black, nil, nil, nil, key, id, expireMs⟩)
    listed.valid.rep.stored listed.valid.rep.notNil (by omega)

theorem Storable.written (storable : Storable e) (parsed : Parsed A.toFloatOps e.vector)
    {n : RbtreeNode CString Nat} (found : inst.entry n.value = some e) :
    rdbSaveVectorEntry A (fun _ => true) inst n = some (entryRecord e).encode := by
  have short : (CString.ofBytes (vectorText e.vector)).bytes.length < 2^31 := by
    rw [vectorText_bytes]
    exact storable.text
  rw [rdbSaveVectorEntry, found, bind_eq_bind, bind_some, rdbVectorToString_eq exact,
    if_pos ⟨parsed.real, storable.room⟩]
  simp only [rdbWriteVectorEntry, rdbWriteString_short storable.question, rdbWriteString_short storable.answer,
    rdbWriteString_short short, bind_eq_bind, bind_some]
  rw [entryRecord, vectorRecord, encode, intBytes_wrap32, cut_of_short storable.question, cut_of_short storable.answer,
    cut_of_short short]

omit exact in
theorem loadVectors_fresh {envs : Nat → RdbEnv} (ample : ∀ i, (envs i).Ample) {s : Server ℚ} (fresh : s.Fresh)
    {records : List RdbRecord} (vectors : ∀ r ∈ records, IsVectorRecord r) :
    ∃ s', rdbLoadFromMemory A envs s (records.flatMap encode) = some s' ∧ VectorValid A.toFloatOps s'.vector ∧
      (∀ question answer vec, Answers s'.vector question answer vec → ∃ r ∈ records, Accepts A r question answer vec) ∧
      ((records.map RdbRecord.question).Nodup → ∀ r ∈ records, ∀ question answer vec, Accepts A r question answer vec →
        Answers s'.vector question answer vec) := by
  have valid : VectorValid A.toFloatOps (⟨0, 0, s⟩ : RdbLoad ℚ).server.vector := by
    rw [fresh.vector]
    exact vectorValid_create A.toFloatOps
  obtain ⟨s', ran, valid', sound, complete⟩ := loadVectors_spec ample (fun r member => (vectors r member).2) valid 0
  refine ⟨s', ?_, valid', fun question answer vec held => ?_, fun distinct r member question answer vec accepts => ?_⟩
  · rw [rdbLoadFromMemory, rdbLoadLoop_records A envs (fun r member => (vectors r member).1)
      (Nat.lt_succ_of_le (length_le_encoded records)), ran]
  · refine (sound question answer vec held).resolve_left ?_
    rintro ⟨id, e, found, _⟩
    rw [fresh.vector] at found
    exact absurd (entry_lt found) (Nat.not_lt_zero id)
  · exact complete distinct question answer vec (.inl ⟨r, member, accepts⟩)

section Trip

variable {envs : Nat → RdbEnv} (ample : ∀ i, (envs i).Ample) {s : Server ℚ} (fresh : s.Fresh)
  (listed : Listed (Parsed A.toFloatOps) inst t)

include ample fresh listed

theorem keeps_of_storable (all : ∀ question e, kvsVectorGetByKey inst question = some (some e) → Storable e) :
    ∃ bytes s', rdbSaveVectorNode A (fun _ => true) inst inst.tree.root = some bytes ∧ rdbLoadFromMemory A envs s bytes = some s' ∧
      KeepsQuestions inst s'.vector := by
  have inhabited : Nonempty (VectorEntry ℚ) := ⟨⟨.ofBytes [], .ofBytes [], [], 0, 0, 0, false, []⟩⟩
  choose! entry found key parsed using listed.stored
  have storable : ∀ x ∈ t.inorder, Storable (entry x) := fun x member =>
    all x.key (entry x) (listed.getByKey_iff.mpr ⟨x, member, rfl, found x member⟩)
  have saved : rdbSaveVectorNode A (fun _ => true) inst inst.tree.root =
      some ((t.inorder.map fun x => entryRecord (entry x)).flatMap encode) := by
    rw [rdbSaveVectorNode_inorder listed]
    exact rdbSaveItems_encode fun x member => (storable x member).written exact (parsed x member) (found x member)
  have questions : (t.inorder.map fun x => entryRecord (entry x)).map RdbRecord.question = t.inorder.map Cell.key := by
    rw [List.map_map]
    refine map_congr_left fun x member => ?_
    show CString.ofBytes (cut (entry x).question) = x.key
    rw [cut_of_short (storable x member).question, CString.ofBytes_bytes, key x member]
  have vectors : ∀ r ∈ t.inorder.map fun x => entryRecord (entry x), IsVectorRecord r := by
    intro r member
    obtain ⟨x, _, rfl⟩ := mem_map.mp member
    exact vectorRecord_isVector _ _ _ _
  obtain ⟨s', ran, valid, _, complete⟩ := loadVectors_fresh (A := A) ample fresh vectors
  refine ⟨_, s', saved, ran, fun question e get => ?_⟩
  obtain ⟨x, member, rfl, foundE⟩ := listed.getByKey_iff.mp get
  rw [found x member] at foundE
  cases foundE
  obtain ⟨_, registered⟩ := valid.tree
  have accepts := (storable x member).accepts exact (parsed x member)
  have held := complete (questions ▸ keys_nodup listed.valid.sorted) _ (mem_map_of_mem member) _ _ _ accepts
  obtain ⟨e', get', answer, vector⟩ := (answers_iff_getByKey registered).mp held
  rw [key x member] at get'
  exact ⟨e', get', answer, by rw [vector, length_map]⟩

theorem storable_of_keeps {bytes : Bytes} {s' : Server ℚ} (saved : rdbSaveVectorNode A (fun _ => true) inst inst.tree.root = some bytes)
    (ran : rdbLoadFromMemory A envs s bytes = some s') (keeps : KeepsQuestions inst s'.vector) {question : CString}
    {e : VectorEntry ℚ} (get : kvsVectorGetByKey inst question = some (some e)) : Storable e := by
  -- the records come from entries of the store
  rw [rdbSaveVectorNode_inorder listed] at saved
  obtain ⟨records, rfl, good⟩ := rdbSaveItems_records (P := fun r => ∃ x ∈ t.inorder, ∃ e text, inst.entry x.value = some e ∧
      rdbVectorToString A true e.vector = some text ∧ 0 ≤ wrap32 text.bytes.length ∧
        r = vectorRecord e.question e.answer e.vector.length text)
    (fun x member own => rdbSaveVectorEntry_records A fun e text found rendered positive =>
      ⟨x, member, e, text, found, rendered, positive, rfl⟩) saved
  have vectors : ∀ r ∈ records, IsVectorRecord r := by
    intro r member
    obtain ⟨_, _, e, text, _, _, _, rfl⟩ := good r member
    exact vectorRecord_isVector _ _ _ _
  obtain ⟨s1, ran1, valid, sound, _⟩ := loadVectors_fresh (A := A) ample fresh vectors
  rw [ran] at ran1
  cases ran1
  obtain ⟨_, registered⟩ := valid.tree
  -- and so every question that is kept is accepted from the record of some entry, and is short
  have origin : ∀ x ∈ t.inorder, ∀ e, inst.entry x.value = some e → ∃ y ∈ t.inorder, ∃ f text vec, inst.entry y.value = some f ∧
      rdbVectorToString A true f.vector = some text ∧ 0 ≤ wrap32 text.bytes.length ∧
      Accepts A (vectorRecord f.question f.answer f.vector.length text) x.key e.answer vec := by
    intro x member e found
    obtain ⟨e', get', answer, _⟩ := keeps x.key e (listed.getByKey_iff.mpr ⟨x, member, rfl, found⟩)
    obtain ⟨r, inside, accepts⟩ := sound _ _ _ ((answers_iff_getByKey registered).mpr ⟨e', get', answer, rfl⟩)
    obtain ⟨y, inY, f, text, foundY, rendered, positive, rfl⟩ := good r inside
    exact ⟨y, inY, f, text, _, foundY, rendered, positive, accepts⟩
  have short : ∀ x ∈ t.inorder, ∀ e, inst.entry x.value = some e → x.key.bytes.length < 2^31 ∧ e.answer.bytes.length < 2^31 := by
    intro x member e found
    obtain ⟨_, _, f, _, _, _, _, _, _, _, _, _, same, isQ, isA, _⟩ := origin x member e found
    simp only [vectorRecord, RdbRecord.vector.injEq] at same
    obtain ⟨rfl, rfl, _, _⟩ := same
    have ends : ∀ s : CString, (CString.ofBytes (cut s)).bytes.length < 2^31 := fun s =>
      Nat.lt_of_le_of_lt (CString.ofBytes_length_le (cut s)) (cut_length s)
    rw [isQ, isA]
    exact ⟨ends f.question, ends f.answer⟩
  obtain ⟨x, member, rfl, found⟩ := listed.getByKey_iff.mp get
  obtain ⟨y, inY, f, text, vec, foundY, rendered, positive, accepts⟩ := origin x member e found
  -- that entry is the one that was kept, since questions that are written in full are different
  have same : y = x := by
    obtain ⟨f', foundF, keyF, _⟩ := listed.stored y inY
    rw [foundY] at foundF
    cases foundF
    obtain ⟨_, _, _, _, same, isQ, _⟩ := accepts
    simp only [vectorRecord, RdbRecord.vector.injEq] at same
    rw [← same.1, keyF, cut_of_short (short y inY f foundY).1, CString.ofBytes_bytes] at isQ
    exact cell_unique listed.valid inY member isQ.symm
  subst same
  rw [found] at foundY
  cases foundY
  obtain ⟨e', found', key, parsed⟩ := listed.stored y member
  rw [found] at found'
  cases found'
  exact storable_of_accepts exact parsed (key ▸ (short y member e found).1) (short y member e found).2 rendered positive accepts

end Trip

/-- Saving and loading keep every question with answer and dimension exactly if the file can hold every entry. -/
theorem vector_round_trip_iff (reached : Reached A.toFloatOps inst) {s : Server ℚ} (fresh : s.Fresh) {envs : Nat → RdbEnv}
    (ample : ∀ i, (envs i).Ample) :
    (∃ bytes s', rdbSaveVectorNode A (fun _ => true) inst inst.tree.root = some bytes ∧ rdbLoadFromMemory A envs s bytes = some s' ∧
      KeepsQuestions inst s'.vector) ↔ ∀ question e, kvsVectorGetByKey inst question = some (some e) → Storable e := by
  obtain ⟨t, listed, _⟩ := reached.listed A.toFloatOps fun _ _ _ _ range parsed => parseVector_parsed A.toFloatOps range parsed
  constructor
  · rintro ⟨bytes, s', saved, ran, keeps⟩ question e get
    exact storable_of_keeps exact ample fresh listed saved ran keeps get
  · exact keeps_of_storable exact ample fresh listed

end Vectors

section Tiny

def exactText : FloatText ℚ where
  zero := 0
  sentinel := -2
  fltMax := 340282346638528859811704183484516925440
  add := (· + ·)
  mul := (· * ·)
  div := (· / ·)
  sqrtf x := x
  isFinite x := |x| ≤ 340282346638528859811704183484516925440
  strtof token :=
    let (x, used) := readDecimal token
    (x, used, 340282346638528859811704183484516925440 < |x|)
  atof token := (readDecimal token).1
  format6 := format6

theorem exactText_exact : ExactText exactText := by
  refine ⟨rfl, fun _ _ => rfl, fun _ _ => rfl, fun _ _ => Iff.rfl, fun _ => rfl, fun x finite => ?_, fun x finite => ?_⟩
  · have bound : |x| ≤ (340282346638528859811704183484516925440 : ℕ) := by exact_mod_cast of_decide_eq_true finite
    have small : |round6 x| ≤ 340282346638528859811704183484516925440 := by exact_mod_cast abs_round6_le bound
    refine ⟨?_, decide_eq_true small⟩
    simp [exactText, readDecimal_format6, not_lt.mpr small]
  · exact (of_decide_eq_true finite).trans (by norm_num)

theorem half_component_kept : ∃ inst bytes s', Reached exactText.toFloatOps inst ∧
    (∃ e, kvsVectorGetByKey inst (.ofBytes [113]) = some (some e) ∧ e.answer = .ofBytes [97]) ∧
    rdbSaveVectorNode exactText (fun _ => true) inst inst.tree.root = some bytes ∧
    rdbLoadFromMemory exactText (fun _ => ⟨ampleEnv 0, true, true, true⟩) freshServer bytes = some s' ∧
    KeepsQuestions inst s'.vector := by
  have parsed : parseVector exactText.toFloatOps .ok (.ofBytes (ascii "0.5")) 1 = some [1 / 2] := by decide +kernel
  obtain ⟨inst, ran, valid, stored⟩ := kvsVectorSet_accepted exactText.toFloatOps (vectorValid_create exactText.toFloatOps)
    (.ofBytes [113]) (.ofBytes [97]) parsed (by decide +kernel)
  have reached : Reached exactText.toFloatOps inst := .set .created (by decide) ran
  obtain ⟨_, registered⟩ := valid.tree
  have storable : ∀ question e, kvsVectorGetByKey inst question = some (some e) → Storable e := by
    intro question e get
    obtain ⟨_, _, _, rfl⟩ := (getByKey_iff registered).mp get
    have held := (answers_iff_getByKey registered).mpr ⟨e, get, rfl, rfl⟩
    rcases (stored.answers (vectorValid_create exactText.toFloatOps).shape).mp held with ⟨isQ, isA, isV⟩ | ⟨_, id, f, found, _⟩
    · refine ⟨by rw [isQ]; decide, by rw [isA]; decide, by rw [isV]; decide +kernel, by rw [isV]; decide +kernel, 1 / 2, ?_, ?_⟩
      · rw [isV]
        exact mem_singleton_self _
      · norm_num
    · exact absurd (entry_lt found) (Nat.not_lt_zero id)
  have ample : ∀ i : Nat, ((fun _ => ⟨ampleEnv 0, true, true, true⟩ : Nat → RdbEnv) i).Ample := fun _ =>
    ⟨rfl, rfl, show 1 ≤ skiplistMaxLevel by decide, rfl, rfl, rfl⟩
  obtain ⟨bytes, s', saved, loaded, keeps⟩ := (vector_round_trip_iff exactText_exact reached freshServer_fresh ample).mpr storable
  have held := (stored.answers (vectorValid_create exactText.toFloatOps).shape).mpr (.inl ⟨rfl, rfl, rfl⟩)
  obtain ⟨e, get, answer, _⟩ := (answers_iff_getByKey registered).mp held
  exact ⟨inst, bytes, s', reached, ⟨e, get, answer⟩, saved, loaded, keeps⟩

/-- `VSET q a 1 0.0000001`, the file of the store, and what loading it gives. -/
theorem tiny_component_lost : ∃ inst bytes s' e, kvsVectorSet exactText.toFloatOps .ok kvsVectorCreate (.ofBytes [113]) (.ofBytes [97]) 1
      (.ofBytes (ascii "0.0000001")) = some (inst, 0) ∧
    rdbSaveVectorNode exactText (fun _ => true) inst inst.tree.root = some bytes ∧
    rdbLoadFromMemory exactText (fun _ => ⟨ampleEnv 0, true, true, true⟩) freshServer bytes = some s' ∧
    kvsVectorGetByKey inst (.ofBytes [113]) = some (some e) ∧ e.answer = .ofBytes [97] ∧
    kvsVectorGetByKey s'.vector (.ofBytes [113]) = some none := by
  have trip : (do
      let (inst, ret) ← kvsVectorSet exactText.toFloatOps .ok kvsVectorCreate (.ofBytes [113]) (.ofBytes [97]) 1
        (.ofBytes (ascii "0.0000001"))
      let bytes ← rdbSaveVectorNode exactText (fun _ => true) inst inst.tree.root
      let s' ← rdbLoadFromMemory exactText (fun _ => ⟨ampleEnv 0, true, true, true⟩) freshServer bytes
      let e ← kvsVectorGetByKey inst (.ofBytes [113])
      let e' ← kvsVectorGetByKey s'.vector (.ofBytes [113])
      some (ret, e.map fun e => e.answer, e'.isNone)) = some (0, some (.ofBytes [97]), true) := by decide +kernel
  simp only [bind_eq_bind, bind_eq_some_iff, some.injEq, Prod.mk.injEq] at trip
  obtain ⟨⟨inst, ret⟩, set, bytes, saved, s', ran, e, get, e', get', rfl, answer, gone⟩ := trip
  obtain ⟨f, rfl, own⟩ := map_eq_some_iff.mp answer
  exact ⟨inst, bytes, s', f, set, saved, ran, get, own, by rw [get', isNone_iff_eq_none.mp gone]⟩

end Tiny

end AICacheDB
