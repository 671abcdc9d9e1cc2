import AICacheDB.Command.Reached
import AICacheDB.Persistence.RdbRecords

open CLib RedBlack List Option Function

namespace AICacheDB

open KvMap Rbtree KvsSkiplist

open RdbRecord

section NewKey

variable {F : Type} {family : Family} {k v : CString} {level : Nat} {s : Server F}

theorem admits_new (valid : s.Valid) {e now : Int}
    (absent : s.contents family k = none) (room : family = .array → s.array.length < kvsArraySize)
    (indexed : family = .hash → (hashIndex k).isSome = true) (limit : level ≤ skiplistMaxLevel) :
    s.Admits family ⟨.set k v e, now, level⟩ := by
  cases family with
  | array => exact room rfl
  | rbtree =>
    obtain ⟨t, tree⟩ := valid.rbtree
    have missing : rbtreeLookup s.rbtree k = none := absent
    rw [rbtreeLookup_eq tree] at missing
    rcases find_cases tree k with ⟨z, n, _, rfl, _, _, _, _, _, entry⟩ | ⟨found, _⟩
    · rw [missing] at entry
      cases entry
    · rintro z ⟨search, real⟩
      rw [found] at search
      exact absurd (some.inj search).symm real
  | hash =>
    intro k' own
    cases own
    exact indexed rfl
  | skiplist => exact limit

theorem call_array_length {s' : Server F} {env : Env} {e now : Int} {ret : KvRet}
    (ran : s.call env family ⟨.set k v e, now, level⟩ = some (s', ret)) :
    s'.array.length ≤ s.array.length + (if family = .array then 1 else 0) := by
  cases family with
  | array =>
    simp only [Server.call, Engine.call, arrayEngine, map_some, some.injEq, Prod.mk.injEq] at ran
    have size := kvsArraySet_length env.engine s.array k v e
    rw [← ran.1, if_pos rfl]
    show (kvsArraySet env.engine s.array k v e).1.length ≤ _
    omega
  | rbtree | hash | skiplist =>
    simp only [Server.call, map_eq_some_iff, Prod.mk.injEq] at ran
    obtain ⟨_, _, rfl, _⟩ := ran
    exact Nat.le_add_right _ _

end NewKey

section Save

def CharPtr.text : CharPtr → CString
  | .str s => s
  | _ => .ofBytes []

def KvMap.Short (m : KvMap) : Prop := ∀ k x, m k = some x → ∃ v, x.value = .str v ∧ KvTriple.Short (k, v, x.expireMs)

def KvMap.SavedAs (m : KvMap) (type : UInt8) (saved : Option Bytes) (l : List KvTriple) : Prop :=
  KvTriple.map l = m ∧ (l.map Prod.fst).Nodup ∧ (∀ p ∈ l, p.Short) ∧ saved = some ((l.map (KvTriple.record type)).flatMap encode)

theorem KvMap.savedAs_items {β : Type} (key : β → CString) (value : β → CharPtr) (expireMs : β → Int) {xs : List β}
    (nodup : (xs.map key).Nodup) {m : KvMap} (contents : m = ofList key (fun x => ⟨value x, expireMs x⟩) xs)
    (short : m.Short) (type : UInt8) :
    m.SavedAs type (rdbSaveItems (fun x => rdbWriteKvPair type (key x) (value x) (expireMs x)) xs)
      (xs.map fun x => (key x, (value x).text, expireMs x)) := by
  have each : ∀ x ∈ xs, ∃ v, value x = .str v ∧ KvTriple.Short (key x, v, expireMs x) := by
    intro x member
    have found : m (key x) = some ⟨value x, expireMs x⟩ := by
      rw [contents]
      exact ofList_of_mem nodup member
    exact short (key x) _ found
  refine ⟨?_, ?_, ?_, ?_⟩
  · rw [contents]
    refine ofList_map (fun x _ => rfl) fun x member => ?_
    obtain ⟨v, isStr, _⟩ := each x member
    simp only [KvTriple.entry, isStr, CharPtr.text]
  · rw [List.map_map]
    exact nodup
  · intro p member
    obtain ⟨x, inside, rfl⟩ := mem_map.mp member
    obtain ⟨v, isStr, fits⟩ := each x inside
    rw [isStr]
    exact fits
  · rw [List.map_map]
    apply rdbSaveItems_encode
    intro x member
    obtain ⟨v, isStr, fits⟩ := each x member
    rw [comp_apply, isStr]
    exact rdbWriteKvPair_triple fits type

theorem hashEntries_nodes {hash : KvsHash} (valid : HashValid hash) :
    hashEntries hash = ofList HashNode.key HashNode.entry (hashNodes hash) := by
  have inside : ∀ {i node}, i < maxTableSize → node ∈ hash.nodes i → node ∈ hashNodes hash := fun small member =>
    mem_flatMap.mpr ⟨_, mem_range.mpr small, member⟩
  funext k
  cases index : hashIndex k with
  | none =>
    rw [hashEntries, index, bind_none, eq_comm, ofList_eq_none_iff]
    rintro node member rfl
    obtain ⟨i, small, here⟩ := mem_flatMap.mp member
    rw [valid.placed i (mem_range.mp small) node here] at index
    cases index
  | some i =>
    have small := hashIndex_lt index
    rcases hashFind_cases valid index with ⟨xs, x, ys, shape, rfl, _, _, entry⟩ | ⟨absent, _, entry⟩
    · rw [entry, ofList_of_mem valid.nodup (inside small (by simp [shape]))]
    · rw [entry, eq_comm, ofList_eq_none_iff]
      rintro node member rfl
      obtain ⟨j, inRange, here⟩ := mem_flatMap.mp member
      rw [valid.placed j (mem_range.mp inRange) node here] at index
      cases index
      exact absent node here rfl

variable {F : Type} {s : Server F}

def Family.rdbType : Family → UInt8
  | .array => typeArray
  | .rbtree => typeRbtree
  | .hash => typeHash
  | .skiplist => typeSkiplist

theorem rdbFamily_rdbType (family : Family) : rdbFamily family.rdbType = some family := by cases family <;> rfl

def rdbFile (l : Family → List KvTriple) (vector : List RdbRecord) : List RdbRecord :=
  (l .array).map (KvTriple.record typeArray) ++ ((l .rbtree).map (KvTriple.record typeRbtree) ++ (vector ++
    ((l .hash).map (KvTriple.record typeHash) ++ (l .skiplist).map (KvTriple.record typeSkiplist))))

theorem rdbSaveToFp_records (A : FloatText F) {memory : CString → Bool} (intact : s.Intact) (short : ∀ family, (s.contents family).Short)
    {vector : Bytes} (saved : rdbSaveVectorNode A memory s.vector s.vector.tree.root = some vector) :
    ∃ l vectors, rdbSaveToFp A memory s = some ((rdbFile l vectors).flatMap encode) ∧
      (∀ family, KvTriple.map (l family) = s.contents family ∧ ((l family).map Prod.fst).Nodup ∧ ∀ p ∈ l family, p.Short) ∧
      (l .array).length ≤ kvsArraySize ∧ (∀ p ∈ l .hash, (hashIndex p.1).isSome = true) ∧
      ∀ r ∈ vectors, r.Fits ∧ ∃ question answer dim text, r = .vector question answer dim text := by
  obtain ⟨t, tree⟩ := intact.rbtree
  obtain ⟨L, skip⟩ := intact.skiplist
  obtain ⟨vectors, rfl, good⟩ := rdbSaveVectorNode_records A saved
  obtain ⟨mapA, nodupA, shortA, savedA⟩ := savedAs_items ArrayItem.key ArrayItem.value ArrayItem.expireMs
    intact.array.keys rfl (short .array) typeArray
  obtain ⟨mapR, nodupR, shortR, savedR⟩ := savedAs_items Cell.key Cell.value Cell.expireMs
    (keys_nodup tree.sorted) (rbtreeLookup_eq tree) (short .rbtree) typeRbtree
  obtain ⟨mapH, nodupH, shortH, savedH⟩ := savedAs_items HashNode.key HashNode.value HashNode.expireMs
    intact.hash.nodup (hashEntries_nodes intact.hash) (short .hash) typeHash
  obtain ⟨mapS, nodupS, shortS, savedS⟩ := savedAs_items SkipCell.key SkipCell.value
    SkipCell.expireMs skip.keys_nodup (skiplistLookup_eq skip) (short .skiplist) typeSkiplist
  have rbtree := rdbSaveRbtreeNode_inorder tree typeRbtree
  have skiplist := rdbSaveSkiplistLoop_cells (B := []) skip.linked (Nat.lt_succ_of_le skip.linked.length_le)
  rw [savedR] at rbtree
  rw [savedS] at skiplist
  have first := skip.linked.links [] L rfl 0 (Nat.zero_le _)
  rw [cursorOf_nil] at first
  refine ⟨fun family => match family with
    | .array => s.array.map fun x => (x.key, x.value.text, x.expireMs)
    | .rbtree => t.inorder.map fun x => (x.key, x.value.text, x.expireMs)
    | .hash => (hashNodes s.hash).map fun x => (x.key, x.value.text, x.expireMs)
    | .skiplist => L.map fun x => (x.key, x.value.text, x.expireMs), vectors, ?_, ?_, ?_, ?_, good⟩
  · rw [hashNodes] at savedH
    simp [rdbSaveToFp, savedA, rbtree, saved, savedH, first, skiplist, rdbFile, flatMap_append, hashNodes]
  · rintro (_ | _ | _ | _)
    · exact ⟨mapA, nodupA, shortA⟩
    · exact ⟨mapR, nodupR, shortR⟩
    · exact ⟨mapH, nodupH, shortH⟩
    · exact ⟨mapS, nodupS, shortS⟩
  · rw [length_map]
    exact intact.array.small
  · intro p member
    obtain ⟨node, inside, rfl⟩ := List.mem_map.mp member
    obtain ⟨i, inRange, here⟩ := mem_flatMap.mp inside
    rw [intact.hash.placed i (mem_range.mp inRange) node here]
    rfl

end Save

section Load

def RdbRecord.entryFor (family : Family) : RdbRecord → Option KvTriple
  | .kv type expireMs key value => if rdbFamily type = some family then some (.ofBytes key, .ofBytes value, expireMs) else none
  | .vector _ _ _ _ => none

/-- No key comes twice for one engine, the array has room and the hash table a bucket for each of its keys. -/
structure Loadable (records : List RdbRecord) : Prop where
  distinct : ∀ family, ((records.filterMap (entryFor family)).map Prod.fst).Nodup
  room : (records.filterMap (entryFor .array)).length ≤ kvsArraySize
  indexed : ∀ p ∈ records.filterMap (entryFor .hash), (hashIndex p.1).isSome = true

structure RdbEnv.Ample (env : RdbEnv) : Prop where
  engine : env.engine = Alloc.ok
  vector : env.vector = VectorAlloc.ok
  level : env.level ≤ skiplistMaxLevel
  keyBuf : env.keyBuf = true
  valBuf : env.valBuf = true
  textBufs : env.textBufs = true

variable {F : Type} [LinearOrder F] (A : FloatText F)

def loadRecords (envs : Nat → RdbEnv) : Nat → RdbLoad F → List RdbRecord → Option (Server F)
  | _, st, [] => some st.server
  | i, st, r :: records => do
    let (st, more) ← rdbLoadRecord A (envs i) st r
    if more = true then loadRecords envs (i + 1) st records else some st.server

theorem rdbLoadLoop_records (envs : Nat → RdbEnv) {records : List RdbRecord} (fits : ∀ r ∈ records, r.Fits) {fuel : Nat}
    (enough : records.length < fuel) (i : Nat) (st : RdbLoad F) :
    rdbLoadLoop A envs fuel i st (records.flatMap encode) = loadRecords A envs i st records := by
  induction records generalizing fuel i st with
  | nil =>
    obtain ⟨fuel, rfl⟩ := Nat.exists_eq_add_one_of_ne_zero (Nat.ne_zero_of_lt enough)
    rw [rdbLoadLoop, flatMap_nil, if_pos rfl, loadRecords]
  | cons r records ih =>
    obtain ⟨fuel, rfl⟩ := Nat.exists_eq_add_one_of_ne_zero (Nat.ne_zero_of_lt enough)
    have real : r.encode ++ records.flatMap encode ≠ [] := fun empty => r.encode_ne_nil (append_eq_nil_iff.mp empty).1
    have rest : ∀ i st, rdbLoadLoop A envs fuel i st (records.flatMap encode) = loadRecords A envs i st records :=
      ih (fun r' member => fits r' (by simp [member])) (Nat.lt_of_succ_lt_succ enough)
    rw [rdbLoadLoop, flatMap_cons, if_neg real, read_encode (fits r (by simp)), loadRecords]
    simp only [rest]

structure Loaded (done : List RdbRecord) (s : Server F) : Prop where
  valid : s.Valid
  vector : KvsVector.VectorValid A.toFloatOps s.vector
  contents : ∀ family, s.contents family = KvTriple.map (done.filterMap (entryFor family))
  room : s.array.length ≤ (done.filterMap (entryFor .array)).length

theorem KvTriple.map_append {l : List KvTriple} {p : KvTriple} (distinct : ((l ++ [p]).map Prod.fst).Nodup) :
    KvTriple.map (l ++ [p]) = (KvTriple.map l).put p.1 p.entry ∧ KvTriple.map l p.1 = none := by
  constructor
  · have put : KvTriple.map (l ++ [p]) = (KvTriple.map (l ++ [])).put p.1 p.entry := ofList_put distinct
    rwa [append_nil] at put
  · rw [List.map_append, List.map_singleton, List.nodup_append] at distinct
    refine ofList_eq_none_iff.mpr fun x member same => ?_
    exact distinct.2.2 x.1 (mem_map_of_mem member) p.1 (by simp) same

variable {A} {done : List RdbRecord} {env : RdbEnv} {st : RdbLoad F}

theorem Loaded.fresh {s : Server F} (fresh : s.Fresh) : Loaded A [] s := by
  refine ⟨fresh.valid, ?_, fun family => ?_, ?_⟩
  · rw [fresh.vector]
    exact KvsVector.vectorValid_create A.toFloatOps
  · rw [fresh.contents]
    rfl
  · rw [fresh.array]
    exact Nat.zero_le _

theorem Loaded.vectorRecord (loaded : Loaded A done st.server) (ample : env.Ample) (question answer : Bytes) (dim : Int) (text : Bytes) :
    ∃ st', rdbLoadRecord A env st (.vector question answer dim text) = some (st', true) ∧
      Loaded A (done ++ [.vector question answer dim text]) st'.server := by
  have same : ∀ family, (done ++ [RdbRecord.vector question answer dim text]).filterMap (entryFor family) =
      done.filterMap (entryFor family) := by
    intro family
    rw [filterMap_append]
    exact append_nil _
  rw [rdbLoadRecord, if_neg (by rw [ample.textBufs]; decide), ample.vector]
  by_cases positive : 0 < dim
  · obtain ⟨inst, ret, ran, valid, _⟩ := KvsVector.kvsVectorSet_spec A.toFloatOps loaded.vector (.ofBytes question) (.ofBytes answer)
      dim (.ofBytes text)
    rw [if_pos positive, ran]
    refine ⟨_, rfl, ⟨?_, valid, fun family => ?_, ?_⟩⟩
    · obtain ⟨array, rbtree, hash, skiplist, textual⟩ := loaded.valid
      refine ⟨array, rbtree, hash, skiplist, fun family => ?_⟩
      have old := textual family
      cases family <;> exact old
    · rw [same, ← loaded.contents family]
      cases family <;> rfl
    · rw [same]
      exact loaded.room
  · rw [if_neg positive]
    refine ⟨st, rfl, ⟨loaded.valid, loaded.vector, fun family => ?_, ?_⟩⟩
    · rw [same, loaded.contents]
    · rw [same]
      exact loaded.room

theorem Loaded.kvRecord (loaded : Loaded A done st.server) (ample : env.Ample) {type : UInt8} {expireMs : Int} {key value : Bytes}
    (loadable : Loadable (done ++ [.kv type expireMs key value])) :
    ∃ st', rdbLoadRecord A env st (.kv type expireMs key value) = some (st', true) ∧
      Loaded A (done ++ [.kv type expireMs key value]) st'.server := by
  have keyMemory : ¬ (st.keyCap < key.length + 1 ∧ env.keyBuf = false) := by simp [ample.keyBuf]
  have valMemory : ¬ (st.valCap < value.length + 1 ∧ env.valBuf = false) := by simp [ample.valBuf]
  have added : ∀ g, (done ++ [RdbRecord.kv type expireMs key value]).filterMap (entryFor g) =
      done.filterMap (entryFor g) ++
        if rdbFamily type = some g then [(CString.ofBytes key, CString.ofBytes value, expireMs)] else [] := by
    intro g
    rw [filterMap_append]
    by_cases own : rdbFamily type = some g <;> simp [entryFor, own]
  obtain ⟨distinct, room, indexed⟩ := loadable
  simp only [added] at distinct room indexed
  rw [rdbLoadRecord, if_neg keyMemory, if_neg valMemory]
  cases family : rdbFamily type with
  | none =>
    refine ⟨_, rfl, ⟨loaded.valid, loaded.vector, fun g => ?_, ?_⟩⟩
    · rw [added, family, if_neg nofun, append_nil, loaded.contents]
    · rw [added, family, if_neg nofun, append_nil]
      exact loaded.room
  | some f =>
    have own := distinct f
    rw [family, if_pos rfl] at own
    obtain ⟨put, absent⟩ := KvTriple.map_append own
    rw [← loaded.contents f] at put absent
    have admits : st.server.Admits f ⟨.set (.ofBytes key) (.ofBytes value) expireMs, env.now, env.level⟩ := by
      refine admits_new loaded.valid absent (fun array => ?_) (fun hash => ?_) ample.level
      · subst array
        have before := loaded.room
        rw [family, if_pos rfl, length_append, length_singleton] at room
        omega
      · subst hash
        refine indexed (.ofBytes key, .ofBytes value, expireMs) ?_
        rw [family, if_pos rfl]
        exact mem_append_right _ (mem_singleton_self _)
    obtain ⟨s', ret, ran, valid, only, contents, _⟩ := Server.call_spec loaded.valid ample.engine f
      (fun scan => by cases scan) admits
    have size := call_array_length ran
    refine ⟨⟨max st.keyCap (key.length + 1), max st.valCap (value.length + 1), s'⟩, by simp [ran],
      ⟨valid, ?_, fun g => ?_, ?_⟩⟩
    · have rest := only.rest.1
      rw [rest]
      exact loaded.vector
    · rw [added, family, contents]
      by_cases here : f = g
      · subst here
        rw [update_self, if_pos rfl, put]
        rfl
      · rw [update_of_ne (Ne.symm here), if_neg (fun same => here (some.inj same)), append_nil, loaded.contents]
    · rw [added, family]
      have before := loaded.room
      by_cases array : f = .array
      · subst array
        rw [if_pos rfl] at size
        rw [if_pos rfl, length_append, length_singleton]
        exact size.trans (Nat.add_le_add_right before 1)
      · rw [if_neg array] at size
        rw [if_neg (fun same => array (some.inj same)), append_nil]
        exact size.trans before

variable {todo vectors : List RdbRecord} {l : Family → List KvTriple}

theorem Loadable.left {done : List RdbRecord} (loadable : Loadable (done ++ todo)) : Loadable done := by
  obtain ⟨distinct, room, indexed⟩ := loadable
  simp only [filterMap_append, map_append, length_append] at distinct room indexed
  exact ⟨fun family => (nodup_append.mp (distinct family)).1, by omega, fun p member => indexed p (mem_append_left _ member)⟩

theorem Loaded.records {envs : Nat → RdbEnv} (ample : ∀ i, (envs i).Ample) (loaded : Loaded A done st.server)
    (loadable : Loadable (done ++ todo)) (i : Nat) :
    ∃ s', loadRecords A envs i st todo = some s' ∧ Loaded A (done ++ todo) s' := by
  induction todo generalizing done st i with
  | nil => exact ⟨st.server, rfl, by rwa [append_nil]⟩
  | cons r todo ih =>
    rw [append_cons] at loadable ⊢
    have step : ∃ st', rdbLoadRecord A (envs i) st r = some (st', true) ∧ Loaded A (done ++ [r]) st'.server := by
      cases r with
      | kv type expireMs key value => exact loaded.kvRecord (ample i) loadable.left
      | vector question answer dim text => exact loaded.vectorRecord (ample i) question answer dim text
    obtain ⟨st', ran, loaded'⟩ := step
    obtain ⟨s', rest, final⟩ := ih loaded' loadable (i + 1)
    exact ⟨s', by simp [loadRecords, ran, rest], final⟩

theorem rdbFile_entries
    (vector : ∀ r ∈ vectors, ∃ question answer dim text, r = .vector question answer dim text) (family : Family) :
    (rdbFile l vectors).filterMap (entryFor family) = l family := by
  have own : ∀ g, ((l g).map (KvTriple.record g.rdbType)).filterMap (entryFor family) = if g = family then l g else [] := by
    intro g
    rw [filterMap_map]
    by_cases here : g = family
    · subst here
      have all : entryFor g ∘ KvTriple.record g.rdbType = some := by
        funext p
        simp [KvTriple.record, entryFor, rdbFamily_rdbType, CString.ofBytes_bytes]
      rw [if_pos rfl, all, filterMap_some]
    · rw [if_neg here, filterMap_eq_nil_iff]
      intro p _
      simp [KvTriple.record, entryFor, rdbFamily_rdbType, here]
  have none_ : vectors.filterMap (entryFor family) = [] := by
    rw [filterMap_eq_nil_iff]
    intro r member
    obtain ⟨question, answer, dim, text, rfl⟩ := vector r member
    rfl
  have array := own .array
  have rbtree := own .rbtree
  have hash := own .hash
  have skiplist := own .skiplist
  simp only [Family.rdbType] at array rbtree hash skiplist
  simp only [rdbFile, filterMap_append, array, rbtree, none_, hash, skiplist]
  cases family <;> simp

theorem rdbFile_fits (short : ∀ family, ∀ p ∈ l family, p.Short)
    (vector : ∀ r ∈ vectors, r.Fits) : ∀ r ∈ rdbFile l vectors, r.Fits := by
  have kv : ∀ family : Family, ∀ r ∈ (l family).map (KvTriple.record family.rdbType), r.Fits := by
    intro family r member
    obtain ⟨p, inside, rfl⟩ := mem_map.mp member
    exact (short family p inside).fits (by cases family <;> decide)
  intro r member
  simp only [rdbFile, mem_append] at member
  rcases member with array | rbtree | inVectors | hash | skiplist
  · exact kv .array r array
  · exact kv .rbtree r rbtree
  · exact vector r inVectors
  · exact kv .hash r hash
  · exact kv .skiplist r skiplist

theorem length_le_encoded (records : List RdbRecord) : records.length ≤ (records.flatMap encode).length := by
  induction records with
  | nil => exact Nat.zero_le _
  | cons r records ih =>
    have real := length_pos_of_ne_nil r.encode_ne_nil
    rw [flatMap_cons, length_append, length_cons]
    omega

variable (A)

/-- Loading what was saved into empty engines restores their contents, whatever vector records stand between theirs. -/
theorem rdb_round_trip {s : Server F} (reached : s.Reached) (short : ∀ family, (s.contents family).Short) {memory : CString → Bool}
    {vector : Bytes} (saved : rdbSaveVectorNode A memory s.vector s.vector.tree.root = some vector) {t : Server F} (fresh : t.Fresh)
    {envs : Nat → RdbEnv} (ample : ∀ i, (envs i).Ample) :
    ∃ bytes t', rdbSaveToFp A memory s = some bytes ∧ rdbLoadFromMemory A envs t bytes = some t' ∧
      ∀ family, t'.contents family = s.contents family := by
  obtain ⟨l, vectors, file, entries, room, indexed, good⟩ := rdbSaveToFp_records A reached.intact short saved
  have own := fun family => rdbFile_entries (l := l) (fun r member => (good r member).2) family
  have fits := rdbFile_fits (fun family => (entries family).2.2) fun r member => (good r member).1
  have loadable : Loadable ([] ++ rdbFile l vectors) := by
    refine ⟨fun family => ?_, ?_, ?_⟩
    · rw [nil_append, own]
      exact (entries family).2.1
    · rw [nil_append, own]
      exact room
    · rw [nil_append, own]
      exact indexed
  have enough := Nat.lt_succ_of_le (length_le_encoded (rdbFile l vectors))
  obtain ⟨t', ran, loaded⟩ := Loaded.records ample (show Loaded A [] (⟨0, 0, t⟩ : RdbLoad F).server from .fresh fresh) loadable 0
  refine ⟨_, t', file, ?_, fun family => ?_⟩
  · rw [rdbLoadFromMemory, rdbLoadLoop_records A envs fits enough, ran]
  · rw [loaded.contents, nil_append, own, (entries family).1]

section Filled

theorem Server.Reached.set {F : Type} {s : Server F} (reached : s.Reached) (valid : s.Valid) (family : Family) (k v : CString) (e : Int)
    (absent : s.contents family k = none) (room : s.array.length < kvsArraySize) (indexed : (hashIndex k).isSome = true) :
    ∃ s' : Server F, s'.Reached ∧ s'.Valid ∧ s'.vector = s.vector ∧ s'.array.length ≤ s.array.length + 1 ∧
      s'.contents = update s.contents family ((s.contents family).put k ⟨.str v, e⟩) := by
  have admits : s.Admits family ⟨.set k v e, 0, 1⟩ := admits_new valid absent (fun _ => room) (fun _ => indexed) (by decide)
  obtain ⟨s', ret, ran, valid', only, contents, _⟩ :=
    Server.call_spec valid (show (ampleEnv 0).engine = Alloc.ok from rfl) family (fun scan => by cases scan) admits
  refine ⟨s', reached.call (show 1 ≤ skiplistMaxLevel by decide) ran, valid', only.rest.1, ?_, contents⟩
  refine (call_array_length ran).trans (Nat.add_le_add_left ?_ _)
  split <;> decide

theorem filled_server : ∃ s : Server Int, s.Reached ∧ s.vector = kvsVectorCreate ∧
    ∀ family : Family, s.contents family = empty.put (.ofBytes [97]) ⟨.str (.ofBytes [family.rdbType]), family.rdbType.toNat⟩ := by
  have fresh : (freshServer : Server Int).Fresh := freshServer_fresh
  have bucket : (hashIndex (.ofBytes [97])).isSome = true := by decide
  have none_ : ∀ family, (freshServer : Server Int).contents family (.ofBytes [97]) = none := fun family => by rw [fresh.contents]; rfl
  obtain ⟨s1, reached1, valid1, vector1, size1, contents1⟩ := (Server.Reached.created fresh).set fresh.valid .array (.ofBytes [97])
    (.ofBytes [1]) 1 (none_ .array) (by decide) bucket
  obtain ⟨s2, reached2, valid2, vector2, size2, contents2⟩ := reached1.set valid1 .rbtree (.ofBytes [97]) (.ofBytes [2]) 2
    (by rw [contents1]; exact none_ .rbtree) (size1.trans_lt (by decide)) bucket
  obtain ⟨s3, reached3, valid3, vector3, size3, contents3⟩ := reached2.set valid2 .hash (.ofBytes [97]) (.ofBytes [3]) 3
    (by rw [contents2, contents1]; exact none_ .hash) ((size2.trans (Nat.add_le_add_right size1 1)).trans_lt (by decide)) bucket
  obtain ⟨s4, reached4, _, vector4, _, contents4⟩ := reached3.set valid3 .skiplist (.ofBytes [97]) (.ofBytes [4]) 4
    (by rw [contents3, contents2, contents1]; exact none_ .skiplist)
    ((size3.trans (Nat.add_le_add_right (size2.trans (Nat.add_le_add_right size1 1)) 1)).trans_lt (by decide)) bucket
  refine ⟨s4, reached4, by rw [vector4, vector3, vector2, vector1]; rfl, fun family => ?_⟩
  rw [contents4, contents3, contents2, contents1]
  cases family <;> simp [fresh.contents, Family.rdbType, typeArray, typeRbtree, typeHash, typeSkiplist]

theorem rdb_round_trip_filled : ∃ (s t' : Server Int) (bytes : Bytes), s.Reached ∧
    (∀ family : Family, s.contents family (.ofBytes [97]) = some ⟨.str (.ofBytes [family.rdbType]), family.rdbType.toNat⟩) ∧
    rdbSaveToFp wholeText (fun _ => true) s = some bytes ∧
    rdbLoadFromMemory wholeText (fun _ => ⟨ampleEnv 0, true, true, true⟩) freshServer bytes = some t' ∧
    ∀ family, t'.contents family = s.contents family := by
  obtain ⟨s, reached, vector, contents⟩ := filled_server
  have short : ∀ family, (s.contents family).Short := by
    intro family k x found
    rw [contents] at found
    by_cases same : k = .ofBytes [97]
    · subst same
      rw [put_self] at found
      cases found
      refine ⟨_, rfl, ?_⟩
      cases family <;> exact ⟨by decide, by decide, by decide, by decide⟩
    · rw [put_of_ne _ _ same] at found
      cases found
  have saved : rdbSaveVectorNode wholeText (fun _ => true) s.vector s.vector.tree.root = some [] := by
    rw [vector]
    rfl
  have ample : ∀ i : Nat, ((fun _ => ⟨ampleEnv 0, true, true, true⟩ : Nat → RdbEnv) i).Ample := fun _ =>
    ⟨rfl, rfl, show 1 ≤ skiplistMaxLevel by decide, rfl, rfl, rfl⟩
  obtain ⟨bytes, t', file, loaded, same⟩ := rdb_round_trip wholeText reached short saved freshServer_fresh ample
  refine ⟨s, t', bytes, reached, fun family => ?_, file, loaded, same⟩
  rw [contents, put_self]

end Filled

end Load

end AICacheDB
