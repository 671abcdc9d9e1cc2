import AICacheDB.Engine.ArrayTable
import AICacheDB.Persistence.RdbRoundTrip

open CLib RedBlack List Option

namespace AICacheDB

section Model

/-- The words of a bucket table read as pointers: nothing for NULL, the nodes of a chain, or `none` where that is undefined. -/
abbrev Buckets := Nat → Option (List HashNode)

/-- Whether there is memory, and what the block for the bucket table held before. -/
structure EngineMemory where
  array : Bool
  rbtree : Bool
  hash : Bool
  header : Bool
  forward : Bool
  vector : Bool
  buckets : Buckets

structure Engines (F : Type) where
  array : KvsArray
  rbtree : KvsRbtree
  buckets : Buckets
  count : Int
  skiplist : KvsSkiplist
  vector : KvsVector F

variable {F : Type}

/-- The engines when every `create` has succeeded. `kvs_hash_create` does not write to the table. -/
def Engines.created (m : EngineMemory) : Engines F :=
  ⟨kvsArrayCreate, kvsRbtreeCreate, m.buckets, 0, kvsSkiplistCreate, kvsVectorCreate⟩

/-- `none` is the result -1. -/
def initKvengine (m : EngineMemory) : Option (Engines F) :=
  if m.array = false ∨ m.rbtree = false ∨ m.hash = false ∨ m.header = false ∨ m.forward = false ∨ m.vector = false then none
  else some (.created m)

def freeValue (value : CharPtr) : Option Unit := (kvsFree value).map fun _ => ()

/-- `none` in the functions that destroy an engine is a fault. -/
def kvsArrayDestory (inst : KvsArray) : Option Unit := inst.forM fun item => freeValue item.value

/-- `while (root != nil)`: the node with the least key is unlinked and freed. -/
def destoryLoop {κ ν : Type} (release : ν → Option Unit) : Nat → Rbtree κ ν → Option Unit
  | 0, _ => none
  | fuel + 1, T =>
    if T.root = Rbtree.nil then some ()
    else do
      let mini ← T.rbtreeMini T.root
      let (T, cur) ← T.rbtreeDelete mini
      let n ← T.mem cur
      release n.value
      destoryLoop release fuel (T.free cur)

def kvsRbtreeDestory (inst : KvsRbtree) : Option Unit := destoryLoop freeValue (inst.brk + 1) inst

def kvsHashDestory (buckets : Buckets) : Option Unit :=
  (List.range maxTableSize).forM fun i => do
    let chain ← buckets i
    chain.forM fun node => freeValue node.value

def skiplistDestroyLoop (s : KvsSkiplist) : Nat → Option Addr → Option Unit
  | 0, _ => none
  | _ + 1, none => some ()
  | fuel + 1, some a => do
    let node ← s.mem a
    let next ← node.forward[0]?
    freeValue node.value
    skiplistDestroyLoop s fuel next

def kvsSkiplistDestroy (s : KvsSkiplist) : Option Unit := do
  let first ← s.forward none 0
  skiplistDestroyLoop s (s.brk + 1) first

def kvsVectorDestroy (inst : KvsVector F) : Option Unit := do
  destoryLoop (fun _ => some ()) (inst.tree.brk + 1) inst.tree
  inst.items.forM fun slot => slot.map fun _ => ()

/-- The inner `none` is the result -1. -/
def kvsResetDataEngines (m : EngineMemory) (e : Engines F) : Option (Option (Engines F)) := do
  kvsArrayDestory e.array
  if m.array = false then some none
  else do
    kvsRbtreeDestory e.rbtree
    if m.rbtree = false then some none
    else do
      kvsHashDestory e.buckets
      if m.hash = false then some none
      else do
        kvsSkiplistDestroy e.skiplist
        if m.header = false ∨ m.forward = false then some none
        else do
          kvsVectorDestroy e.vector
          if m.vector = false then some none else some (some (.created m))

def Engines.hash (e : Engines F) : KvsHash := ⟨fun i => (e.buckets i).getD [], e.count⟩

def Engines.hget (e : Engines F) (now : Int) (key : CString) : Option CharPtr := do
  let idx ← hashIndex key
  let _ ← e.buckets idx
  let (_, value) ← kvsHashGet now e.hash key
  some value

variable (A : FloatText F)

def Engines.save (e : Engines F) (memory : CString → Bool) : Option Bytes := do
  (List.range maxTableSize).forM fun i => (e.buckets i).map fun _ => ()
  rdbSaveToFp A memory
    { (freshServer : Server F) with array := e.array, rbtree := e.rbtree, hash := e.hash, skiplist := e.skiplist, vector := e.vector }

end Model

section Blank

variable {F : Type} (A : FloatText F)

structure Blank (memory : CString → Bool) (now : Int) (key : CString) (e : Engines F) : Prop where
  array : (kvsArrayGet now e.array key).map Prod.snd = some .null
  rbtree : (kvsRbtreeGet now e.rbtree key).map Prod.snd = some .null
  hash : e.hget now key = some .null
  skiplist : (kvsSkiplistGet now e.skiplist key).map Prod.snd = some .null
  vector : kvsVectorGetByKey e.vector key = some none
  file : e.save A memory = some []

theorem rdbWriteKvPair_ne_nil {type : UInt8} {key : CString} {value : CharPtr} {expireMs : Int} {bytes : Bytes}
    (written : rdbWriteKvPair type key value expireMs = some bytes) : bytes ≠ [] := by
  unfold rdbWriteKvPair at written
  split at written
  · simp only [bind_eq_bind, bind_eq_some_iff] at written
    obtain ⟨_, _, _, _, same⟩ := written
    cases same
    simp
  · cases written

theorem rdbSaveItems_nil {β : Type} {write : β → Option Bytes} (real : ∀ x bytes, write x = some bytes → bytes ≠ []) {l : List β}
    (saved : rdbSaveItems write l = some []) : l = [] := by
  cases l with
  | nil => rfl
  | cons x l =>
    simp only [rdbSaveItems, bind_eq_bind, bind_eq_some_iff, some.injEq] at saved
    obtain ⟨own, written, rest, _, nothing⟩ := saved
    exact absurd (append_eq_nil_iff.mp nothing).1 (real x own written)

theorem readable_iff (buckets : Buckets) : (range maxTableSize).forM (fun i => (buckets i).map fun _ => ()) = some () ↔
    ∀ i < maxTableSize, buckets i ≠ none := by
  have loop : ∀ l : List Nat, l.forM (fun i => (buckets i).map fun _ => ()) = some () ↔ ∀ i ∈ l, buckets i ≠ none := by
    intro l
    induction l with
    | nil => simp
    | cons i l ih =>
      rw [List.forM_eq_forM, List.forM_cons, List.forall_mem_cons, ← ih]
      cases buckets i <;> simp
  simpa using loop (range maxTableSize)

theorem created_save_iff (m : EngineMemory) (memory : CString → Bool) :
    (Engines.created m : Engines F).save A memory = some [] ↔ ∀ i < maxTableSize, m.buckets i = some [] := by
  have rbtree : rdbSaveRbtreeNode kvsRbtreeCreate typeRbtree Rbtree.nil = some [] := rfl
  have vector : rdbSaveVectorNode A memory kvsVectorCreate Rbtree.nil = some [] := rfl
  have first : kvsSkiplistCreate.forward none 0 = some none := rfl
  have skiplist : rdbSaveSkiplistLoop kvsSkiplistCreate (kvsSkiplistCreate.brk + 1) none = some [] := rfl
  have root : (kvsRbtreeCreate : KvsRbtree).root = Rbtree.nil ∧ (kvsVectorCreate : KvsVector F).tree.root = Rbtree.nil := ⟨rfl, rfl⟩
  constructor
  · intro saved
    simp only [Engines.save, Engines.created, bind_eq_bind, bind_eq_some_iff] at saved
    obtain ⟨_, readable, saved⟩ := saved
    simp only [rdbSaveToFp, kvsArrayCreate, rdbSaveItems, root.1, root.2, rbtree, vector, first, skiplist, bind_eq_bind,
      bind_some, nil_append, append_nil] at saved
    obtain ⟨bytes, items, same⟩ := bind_eq_some_iff.mp saved
    cases same
    have none' := rdbSaveItems_nil (fun node _ written => rdbWriteKvPair_ne_nil written) items
    intro i small
    have chain : (m.buckets i).getD [] = [] := flatMap_eq_nil_iff.mp none' i (mem_range.mpr small)
    cases word : m.buckets i with
    | none => exact absurd word ((readable_iff _).mp readable i small)
    | some nodes =>
      rw [word] at chain
      exact congrArg some chain
  · intro null
    have readable := (readable_iff m.buckets).mpr fun i small => by simp [null i small]
    have chains : (range maxTableSize).flatMap (fun i => (m.buckets i).getD []) = [] := by
      rw [flatMap_eq_nil_iff]
      intro i member
      rw [null i (mem_range.mp member)]
      rfl
    simp [Engines.save, Engines.created, Engines.hash, readable, rdbSaveToFp, kvsArrayCreate, rdbSaveItems, root.1, root.2, rbtree, vector, chains, first, skiplist]

/-- New engines are empty for a key exactly if the block for the bucket table is all NULL and the key has an index. -/
theorem created_blank_iff (m : EngineMemory) (memory : CString → Bool) (now : Int) (key : CString) :
    Blank A memory now key (.created m) ↔ (∀ i < maxTableSize, m.buckets i = some []) ∧ (hashIndex key).isSome = true := by
  constructor
  · intro blank
    refine ⟨(created_save_iff A m memory).mp blank.file, ?_⟩
    have got := blank.hash
    unfold Engines.hget at got
    cases index : hashIndex key with
    | none =>
      rw [index] at got
      cases got
    | some idx => rfl
  · rintro ⟨null, indexed⟩
    obtain ⟨idx, index⟩ := isSome_iff_exists.mp indexed
    have empty : m.buckets idx = some [] := null idx (hashIndex_lt index)
    refine ⟨rfl, rfl, ?_, rfl, rfl, (created_save_iff A m memory).mpr null⟩
    simp [Engines.hget, Engines.created, Engines.hash, index, empty, kvsHashGet, hashGetLoop]

end Blank

section Ends

variable {F : Type} {m : EngineMemory} {e : Engines F}

open Rbtree in
theorem destoryLoop_ends {κ ν : Type} [LinearOrder κ] {release : ν → Option Unit} {T : Rbtree κ ν} {t : ColorTree (Cell κ ν)} {fuel : Nat}
    (valid : Valid T t) (owned : ∀ x ∈ t.inorder, release x.value = some ()) (enough : t.inorder.length < fuel) :
    destoryLoop release fuel T = some () := by
  induction fuel generalizing T t with
  | zero => omega
  | succ fuel ih =>
    unfold destoryLoop
    by_cases empty : t = .leaf
    · rw [if_pos (by rw [valid.rep.root, empty]; rfl)]
    · have onTop : Represents T (plug [] t) := valid.rep
      rw [if_neg (by rw [valid.rep.root]; exact onTop.rootAddr_ne_nil empty)]
      have small := valid.rep.size_le
      obtain ⟨ρ, c, y, v, mini, shape, _⟩ := miniLoop_spec T.brk onTop empty (by omega)
      have member : y ∈ t.inorder := by
        rw [shape, inorder_plug]
        simp [ColorTree.inorder]
      obtain ⟨T', t', a, n, xs, ys, ran, valid', split, deleted, node, _, value, _, outside, _⟩ := rbtreeDelete_spec valid member
      have freed : Valid (T'.free a) t' := ⟨valid'.rep.free outside, valid'.height, valid'.sorted⟩
      have left : t'.inorder.length < fuel ∧ ∀ x ∈ t'.inorder, release x.value = some () := by
        rw [split] at enough owned
        rcases deleted with ⟨_, list⟩ | ⟨s, rest, _, _, rfl, list⟩
        · rw [list]
          refine ⟨by simp only [length_append, length_cons] at enough ⊢; omega, fun x inside => owned x ?_⟩
          rcases mem_append.mp inside with before | after
          · exact mem_append_left _ before
          · exact mem_append_right _ (mem_cons_of_mem _ after)
        · rw [list]
          refine ⟨by simp only [length_append, length_cons] at enough ⊢; omega, fun x inside => ?_⟩
          rcases mem_append.mp inside with before | after
          · exact owned x (mem_append_left _ before)
          · rcases mem_cons.mp after with rfl | later
            · exact owned s (by simp)
            · exact owned x (by simp [later])
      rw [valid.rep.root, rbtreeMini, mini]
      simp only [bind_eq_bind, bind_some, ran, node, value, owned y member]
      exact ih freed left.2 left.1

open KvsSkiplist in
theorem skiplistDestroyLoop_ends {s : KvsSkiplist} {B L : List SkipCell} (linked : Linked s (B ++ L))
    (owned : ∀ c ∈ L, freeValue c.value = some ()) {fuel : Nat} (enough : L.length < fuel) :
    skiplistDestroyLoop s fuel (nextAt 0 L) = some () := by
  induction L generalizing fuel B with
  | nil =>
    obtain ⟨fuel, rfl⟩ := Nat.exists_eq_add_one_of_ne_zero (Nat.ne_zero_of_lt enough)
    rfl
  | cons c L ih =>
    obtain ⟨fuel, rfl⟩ := Nat.exists_eq_add_one_of_ne_zero (Nat.ne_zero_of_lt enough)
    obtain ⟨node, live, _, value, _⟩ := linked.cells c (by simp)
    have next : node.forward[0]? = some (nextAt 0 L) := by
      have read := linked.links (B ++ [c]) L (by simp) 0 (Nat.zero_le _)
      simpa [forward, live] using read
    rw [append_cons] at linked
    have rest := ih linked (fun d member => owned d (mem_cons_of_mem c member)) (Nat.lt_of_succ_lt_succ enough)
    rw [nextAt_cons_of_le (Nat.zero_le _)]
    simp [skiplistDestroyLoop, live, next, value, owned c mem_cons_self, rest]

theorem forM_some {α : Type} {f : α → Option Unit} {l : List α} (each : ∀ x ∈ l, f x = some ()) : l.forM f = some () := by
  induction l with
  | nil => rfl
  | cons x l ih =>
    rw [List.forM_eq_forM, List.forM_cons, each x List.mem_cons_self]
    exact ih fun y member => each y (mem_cons_of_mem x member)

theorem freeValue_some {value : CharPtr} (owned : value ≠ .freed) : freeValue value = some () := by
  cases value with
  | freed => exact absurd rfl owned
  | null => rfl
  | str _ => rfl

structure Engines.Whole (e : Engines F) : Prop where
  array : ∀ item ∈ e.array, item.value ≠ .freed
  rbtree : ∃ t, Rbtree.Valid e.rbtree t ∧ ∀ x ∈ t.inorder, x.value ≠ .freed
  buckets : ∀ i < maxTableSize, ∃ chain, e.buckets i = some chain ∧ ∀ node ∈ chain, node.value ≠ .freed
  skiplist : ∃ L, KvsSkiplist.SkipValid e.skiplist L ∧ ∀ c ∈ L, c.value ≠ .freed
  vector : KvsVector.StoreOk e.vector

structure EngineMemory.Ample (m : EngineMemory) : Prop where
  array : m.array = true
  rbtree : m.rbtree = true
  hash : m.hash = true
  header : m.header = true
  forward : m.forward = true
  vector : m.vector = true

theorem kvsResetDataEngines_ends (whole : e.Whole) (ample : m.Ample) : kvsResetDataEngines m e = some (some (.created m)) := by
  have array : kvsArrayDestory e.array = some () := forM_some fun item member => freeValue_some (whole.array item member)
  have rbtree : kvsRbtreeDestory e.rbtree = some () := by
    obtain ⟨t, valid, owned⟩ := whole.rbtree
    have small := valid.rep.size_le
    exact destoryLoop_ends valid (fun x member => freeValue_some (owned x member)) (by omega)
  have hash : kvsHashDestory e.buckets = some () := by
    refine forM_some fun i member => ?_
    obtain ⟨chain, word, owned⟩ := whole.buckets i (mem_range.mp member)
    rw [word]
    exact forM_some fun node inside => freeValue_some (owned node inside)
  have skiplist : kvsSkiplistDestroy e.skiplist = some () := by
    obtain ⟨L, valid, owned⟩ := whole.skiplist
    have first := valid.linked.links [] L rfl 0 (Nat.zero_le _)
    rw [KvsSkiplist.cursorOf_nil] at first
    rw [kvsSkiplistDestroy, first]
    exact skiplistDestroyLoop_ends (B := []) valid.linked (fun c member => freeValue_some (owned c member))
      (Nat.lt_succ_of_le valid.linked.length_le)
  have vector : kvsVectorDestroy e.vector = some () := by
    obtain ⟨t, registered⟩ := whole.vector.tree
    have small := registered.valid.rep.size_le
    have tree : destoryLoop (fun _ => some ()) (e.vector.tree.brk + 1) e.vector.tree = some () :=
      destoryLoop_ends registered.valid (fun _ _ => rfl) (by omega)
    rw [kvsVectorDestroy, tree]
    refine forM_some fun slot member => ?_
    obtain ⟨i, small, rfl⟩ := mem_iff_getElem.mp member
    obtain ⟨entry, found⟩ := whole.vector.shape.live i small
    rw [KvsVector.entry_eq_some, getElem?_eq_getElem small] at found
    rw [some.inj found]
    rfl
  simp [kvsResetDataEngines, array, rbtree, hash, skiplist, vector, ample.array, ample.rbtree, ample.hash, ample.header, ample.forward,
    ample.vector]

theorem initKvengine_eq {e' : Engines F} (made : initKvengine m = some e') : e' = .created m := by
  unfold initKvengine at made
  split at made
  · cases made
  · exact (some.inj made).symm

theorem kvsResetDataEngines_eq {e' : Engines F} (made : kvsResetDataEngines m e = some (some e')) : e' = .created m := by
  simp only [kvsResetDataEngines, bind_eq_bind, bind_eq_some_iff] at made
  obtain ⟨_, _, made⟩ := made
  split at made
  · cases made
  simp only [bind_eq_some_iff] at made
  obtain ⟨_, _, made⟩ := made
  split at made
  · cases made
  simp only [bind_eq_some_iff] at made
  obtain ⟨_, _, made⟩ := made
  split at made
  · cases made
  simp only [bind_eq_some_iff] at made
  obtain ⟨_, _, made⟩ := made
  split at made
  · cases made
  simp only [bind_eq_some_iff] at made
  obtain ⟨_, _, made⟩ := made
  split at made
  · cases made
  · exact (some.inj (some.inj made)).symm

/-- Engines made by `init_kvengine` or `kvs_reset_data_engines` are empty for a key exactly if the block for the bucket table was
    all NULL and the key has an index. -/
theorem reset_blank_iff (A : FloatText F) (m : EngineMemory) (memory : CString → Bool) (now : Int) (key : CString) :
    (∀ e' : Engines F, (initKvengine m = some e' ∨ ∃ e, kvsResetDataEngines m e = some (some e')) →
      (Blank A memory now key e' ↔ (∀ i < maxTableSize, m.buckets i = some []) ∧ (hashIndex key).isSome = true)) ∧
    ∀ e : Engines F, e.Whole → m.Ample → ∃ e', kvsResetDataEngines m e = some (some e') := by
  refine ⟨fun e' made => ?_, fun e whole ample => ⟨_, kvsResetDataEngines_ends whole ample⟩⟩
  have same : e' = .created m := by
    rcases made with init | ⟨e, reset⟩
    · exact initKvengine_eq init
    · exact kvsResetDataEngines_eq reset
  rw [same]
  exact created_blank_iff A m memory now key

end Ends

def zeroMemory : EngineMemory := ⟨true, true, true, true, true, true, fun _ => some []⟩

/-- Memory in which a word of that block still points to the node of an entry `a` with value `v`. -/
def staleMemory : EngineMemory :=
  { zeroMemory with buckets := fun i => if i = 97 then some [⟨.ofBytes [97], .str (.ofBytes [118]), -1⟩] else some [] }

theorem created_whole : (Engines.created zeroMemory : Engines Int).Whole where
  array item member := by cases member
  rbtree := ⟨.leaf, Rbtree.valid_create, fun x member => by cases member⟩
  buckets i _ := ⟨[], rfl, fun node member => by cases member⟩
  skiplist := ⟨[], KvsSkiplist.holds_create.valid, fun x member => by cases member⟩
  vector := KvsVector.storeOk_create

theorem reset_blank_iff_zero : ∃ e' : Engines Int, kvsResetDataEngines zeroMemory (.created zeroMemory) = some (some e') ∧
    Blank wholeText (fun _ => true) 0 (.ofBytes [97]) e' := by
  obtain ⟨iff, ends⟩ := reset_blank_iff (F := Int) wholeText zeroMemory (fun _ => true) 0 (.ofBytes [97])
  obtain ⟨e', made⟩ := ends _ created_whole ⟨rfl, rfl, rfl, rfl, rfl, rfl⟩
  exact ⟨e', made, (iff e' (.inr ⟨_, made⟩)).mpr ⟨fun _ _ => rfl, by decide⟩⟩

/-- After a reset the hash engine has an entry that nobody has stored in it, and saves it. -/
theorem reset_not_blank : (kvsResetDataEngines staleMemory (.created zeroMemory : Engines Int)).map (Option.map fun e =>
      (e.hget 0 (.ofBytes [97]), e.save wholeText fun _ => true)) =
    some (some (some (.str (.ofBytes [118])), some (3 :: (List.replicate 8 255 ++ [1, 0, 0, 0, 97, 1, 0, 0, 0, 118])))) := by
  decide +kernel

end AICacheDB
