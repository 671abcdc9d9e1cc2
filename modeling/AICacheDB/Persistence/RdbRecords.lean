import AICacheDB.Engine.Intact
import AICacheDB.Persistence.Rdb

open CLib RedBlack List
open Option hiding min_eq_left

namespace AICacheDB

open KvsSkiplist

namespace RdbRecord

def encodeString (b : Bytes) : Bytes := intBytes b.length ++ b

def encode : RdbRecord → Bytes
  | .kv type expireMs key value => type :: longLongBytes expireMs ++ (encodeString key ++ encodeString value)
  | .vector question answer dim text =>
    typeVector :: (encodeString question ++ (encodeString answer ++ (intBytes dim ++ encodeString text)))

def Fits : RdbRecord → Prop
  | .kv type expireMs key value =>
    type ≠ typeVector ∧ (-2^63 ≤ expireMs ∧ expireMs < 2^63) ∧ key.length < 2^31 ∧ value.length < 2^31
  | .vector question answer dim text =>
    question.length < 2^31 ∧ answer.length < 2^31 ∧ (-2^31 ≤ dim ∧ dim < 2^31) ∧ text.length < 2^31

theorem readInt_append {x : Int} (low : -2^31 ≤ x) (high : x < 2^31) (rest : Bytes) :
    rdbReadInt (intBytes x ++ rest) = some (x, rest) := by
  have long : ¬ (intBytes x ++ rest).length < 4 := by
    rw [length_append, intBytes_length]
    omega
  rw [rdbReadInt, if_neg long, take_left' (intBytes_length x), drop_left' (intBytes_length x), intOf_intBytes,
    wrap32_of_range low high]

theorem readLongLong_append {x : Int} (low : -2^63 ≤ x) (high : x < 2^63) (rest : Bytes) :
    rdbReadLongLong (longLongBytes x ++ rest) = some (x, rest) := by
  have long : ¬ (longLongBytes x ++ rest).length < 8 := by
    rw [length_append, longLongBytes_length]
    omega
  rw [rdbReadLongLong, if_neg long, take_left' (longLongBytes_length x), drop_left' (longLongBytes_length x),
    longLongOf_longLongBytes, wrap64_of_range low high]

theorem readString_append {b : Bytes} (short : b.length < 2^31) (rest : Bytes) :
    rdbReadString (encodeString b ++ rest) = some (b, rest) := by
  have inside : ¬ ((b.length : Int) < 0 ∨ (((b ++ rest).length : Nat) : Int) < (b.length : Int)) := by
    rw [length_append]
    omega
  rw [rdbReadString, encodeString, append_assoc, readInt_append (by omega) (by omega)]
  simp only [bind_eq_bind, bind_some, inside, if_false, Int.toNat_natCast, take_left, drop_left]

theorem read_encode {r : RdbRecord} (fits : r.Fits) (rest : Bytes) : rdbReadRecord (r.encode ++ rest) = some (r, rest) := by
  cases r with
  | kv type expireMs key value =>
    obtain ⟨other, ⟨low, high⟩, shortKey, shortValue⟩ := fits
    rw [encode, cons_append, cons_append, rdbReadRecord, if_neg other, append_assoc, append_assoc,
      readLongLong_append low high, bind_eq_bind, bind_some]
    dsimp only
    rw [readString_append shortKey, bind_eq_bind, bind_some]
    dsimp only
    rw [readString_append shortValue, bind_some]
  | vector question answer dim text =>
    obtain ⟨shortQuestion, shortAnswer, ⟨low, high⟩, shortText⟩ := fits
    rw [encode, cons_append, rdbReadRecord, if_pos rfl, append_assoc, append_assoc, append_assoc,
      readString_append shortQuestion, bind_eq_bind, bind_some]
    dsimp only
    rw [readString_append shortAnswer, bind_eq_bind, bind_some]
    dsimp only
    rw [readInt_append low high, bind_some]
    dsimp only
    rw [readString_append shortText, bind_some]

theorem encode_ne_nil (r : RdbRecord) : r.encode ≠ [] := by
  cases r <;> exact cons_ne_nil _ _

end RdbRecord

open RdbRecord

abbrev KvTriple := CString × CString × Int

namespace KvTriple

def entry (p : KvTriple) : Entry := ⟨.str p.2.1, p.2.2⟩

def record (type : UInt8) (p : KvTriple) : RdbRecord := .kv type p.2.2 p.1.bytes p.2.1.bytes

def map (l : List KvTriple) : KvMap := KvMap.ofList Prod.fst entry l

def Short (p : KvTriple) : Prop := p.1.bytes.length < 2^31 ∧ p.2.1.bytes.length < 2^31 ∧ -2^63 ≤ p.2.2 ∧ p.2.2 < 2^63

theorem Short.fits {p : KvTriple} (short : p.Short) {type : UInt8} (other : type ≠ typeVector) : (p.record type).Fits :=
  ⟨other, short.2.2, short.1, short.2.1⟩

end KvTriple

section Write

/-- What is written of a string: as many bytes as its length says, taken as an `int`. -/
def cut (s : CString) : Bytes := s.bytes.take (wrap32 s.bytes.length).toNat

variable {s : CString}

theorem cut_of_short (short : s.bytes.length < 2^31) : cut s = s.bytes := by
  rw [cut, wrap32_of_range (by omega) (by omega), Int.toNat_natCast, take_length]

theorem cut_length (s : CString) : (cut s).length < 2^31 := by
  have high := (wrap32_range s.bytes.length).2
  rw [cut, length_take]
  omega

theorem rdbWriteString_eq (s : CString) :
    rdbWriteString s = if wrap32 s.bytes.length < 0 then none else some (encodeString (cut s)) := by
  unfold rdbWriteString
  by_cases negative : wrap32 s.bytes.length < 0
  · simp [negative]
  · have size : (cut s).length = (wrap32 s.bytes.length).toNat := by
      rw [cut, length_take, min_eq_left]
      unfold wrap32 at negative ⊢
      omega
    rw [if_neg negative, if_neg negative, encodeString, size, Int.toNat_of_nonneg (not_lt.mp negative), cut]

theorem rdbWriteString_short (short : s.bytes.length < 2^31) : rdbWriteString s = some (encodeString s.bytes) := by
  have same : wrap32 s.bytes.length = s.bytes.length := wrap32_of_range (by omega) (by omega)
  rw [rdbWriteString_eq, if_neg (by omega), cut_of_short short]

theorem rdbWriteString_some {bytes : Bytes} (written : rdbWriteString s = some bytes) :
    bytes = encodeString (cut s) ∧ 0 ≤ wrap32 s.bytes.length := by
  rw [rdbWriteString_eq] at written
  split at written
  · cases written
  · exact ⟨(some.inj written).symm, by omega⟩

theorem rdbWriteKvPair_triple {p : KvTriple} (short : p.Short) (type : UInt8) :
    rdbWriteKvPair type p.1 (.str p.2.1) p.2.2 = some (p.record type).encode := by
  simp [rdbWriteKvPair, rdbWriteString_short short.1, rdbWriteString_short short.2.1, KvTriple.record, encode]

theorem rdbSaveItems_append {β : Type} (write : β → Option Bytes) (xs ys : List β) : rdbSaveItems write (xs ++ ys) =
      (rdbSaveItems write xs).bind fun left => (rdbSaveItems write ys).map fun right => left ++ right := by
  induction xs with
  | nil => simp [rdbSaveItems]
  | cons x xs ih =>
    simp only [cons_append, rdbSaveItems, ih, bind_eq_bind]
    cases write x with
    | none => rfl
    | some own => cases rdbSaveItems write xs <;> cases rdbSaveItems write ys <;> simp

theorem rdbSaveItems_encode {β : Type} {write : β → Option Bytes} {record : β → RdbRecord} {l : List β}
    (each : ∀ x ∈ l, write x = some (record x).encode) : rdbSaveItems write l = some ((l.map record).flatMap encode) := by
  induction l with
  | nil => rfl
  | cons x l ih =>
    simp only [rdbSaveItems, each x (by simp), ih fun y member => each y (by simp [member]), bind_eq_bind,
      bind_some, map_cons, flatMap_cons]

theorem rdbSaveTree_inorder {κ ν : Type} {T : Rbtree κ ν} (write : κ → ν → Int → Option Bytes) {p : Addr}
    {sub : ColorTree (Rbtree.Cell κ ν)} (stored : Rbtree.Stored T.mem p sub) (notNil : Rbtree.nil ∉ Rbtree.addrs sub) {fuel : Nat}
    (enough : sub.inorder.length < fuel) :
    rdbSaveTree T (fun n => write n.key n.value n.expireMs) fuel (Rbtree.rootAddr sub) =
      rdbSaveItems (fun x : Rbtree.Cell κ ν => write x.key x.value x.expireMs) sub.inorder := by
  induction fuel generalizing sub p with
  | zero => exact absurd enough (Nat.not_lt_zero _)
  | succ fuel ih =>
    cases sub with
    | leaf => rw [rdbSaveTree, Rbtree.rootAddr_leaf, if_pos rfl]; rfl
    | node c l x r =>
      simp only [Rbtree.addrs, ColorTree.inorder, map_append, map_cons, mem_append, mem_cons, not_or] at notNil
      rw [ColorTree.inorder, length_append, length_cons] at enough
      have real : x.addr ≠ Rbtree.nil := Ne.symm notNil.2.1
      have left := ih stored.2.1 notNil.1 (by omega)
      have right := ih stored.2.2 notNil.2.2 (by omega)
      rw [rdbSaveTree, Rbtree.rootAddr_node, if_neg real, stored.1, ColorTree.inorder, rdbSaveItems_append, rdbSaveItems,
        ← left, ← right]
      simp only [Rbtree.cellNode, bind_eq_bind, bind_some]
      cases rdbSaveTree T (fun n => write n.key n.value n.expireMs) fuel (Rbtree.rootAddr l) with
      | none => rfl
      | some before =>
        cases write x.key x.value x.expireMs with
        | none => rfl
        | some own =>
          cases rdbSaveTree T (fun n => write n.key n.value n.expireMs) fuel (Rbtree.rootAddr r) with
          | none => rfl
          | some after => rfl

theorem rdbSaveRbtreeNode_inorder {T : KvsRbtree} {t : ColorTree (Rbtree.Cell CString CharPtr)} (valid : Rbtree.Valid T t)
    (type : UInt8) : rdbSaveRbtreeNode T type T.root =
      rdbSaveItems (fun x : Rbtree.Cell CString CharPtr => rdbWriteKvPair type x.key x.value x.expireMs) t.inorder := by
  have small := valid.rep.size_le
  rw [rdbSaveRbtreeNode, valid.rep.root]
  exact rdbSaveTree_inorder (fun key value expireMs => rdbWriteKvPair type key value expireMs) valid.rep.stored valid.rep.notNil
    (by omega)

theorem rdbSaveSkiplistLoop_cells {s : KvsSkiplist} {B A : List SkipCell} (linked : Linked s (B ++ A)) {fuel : Nat}
    (enough : A.length < fuel) : rdbSaveSkiplistLoop s fuel (nextAt 0 A) =
      rdbSaveItems (fun c : SkipCell => rdbWriteKvPair typeSkiplist c.key c.value c.expireMs) A := by
  induction A generalizing fuel B with
  | nil =>
    obtain ⟨fuel, rfl⟩ := Nat.exists_eq_add_one_of_ne_zero (Nat.ne_zero_of_lt enough)
    rfl
  | cons c A ih =>
    obtain ⟨fuel, rfl⟩ := Nat.exists_eq_add_one_of_ne_zero (Nat.ne_zero_of_lt enough)
    rw [length_cons] at enough
    obtain ⟨node, live, key, value, expire, _⟩ := linked.cells c (by simp)
    have next : node.forward[0]? = some (nextAt 0 A) := by
      have read := linked.links (B ++ [c]) A (by simp) 0 (Nat.zero_le _)
      simpa [forward, live] using read
    rw [append_cons] at linked
    have rest := ih linked (Nat.lt_of_succ_lt_succ enough)
    rw [nextAt_cons_of_le (Nat.zero_le _)]
    simp [rdbSaveSkiplistLoop, live, next, key, value, expire, rest, rdbSaveItems]

end Write

section Vector

def RecordsOf (P : RdbRecord → Prop) (bytes : Bytes) : Prop := ∃ l : List RdbRecord, bytes = l.flatMap encode ∧ ∀ r ∈ l, P r

variable {P : RdbRecord → Prop}

theorem RecordsOf.nil : RecordsOf P [] := ⟨[], rfl, by simp⟩

theorem RecordsOf.one {r : RdbRecord} (good : P r) : RecordsOf P r.encode :=
  ⟨[r], (flatMap_singleton encode r).symm, fun _ member => mem_singleton.mp member ▸ good⟩

theorem RecordsOf.append {a b : Bytes} (left : RecordsOf P a) (right : RecordsOf P b) : RecordsOf P (a ++ b) := by
  obtain ⟨l, rfl, goodL⟩ := left
  obtain ⟨r, rfl, goodR⟩ := right
  refine ⟨l ++ r, by rw [flatMap_append], fun x member => ?_⟩
  rcases mem_append.mp member with inL | inR
  · exact goodL x inL
  · exact goodR x inR

variable {bytes : Bytes}

theorem rdbSaveItems_records {β : Type} {write : β → Option Bytes} {l : List β}
    (each : ∀ x ∈ l, ∀ own, write x = some own → RecordsOf P own) (saved : rdbSaveItems write l = some bytes) : RecordsOf P bytes := by
  induction l generalizing bytes with
  | nil =>
    cases saved
    exact .nil
  | cons x l ih =>
    simp only [rdbSaveItems, bind_eq_bind, bind_eq_some_iff, some.injEq] at saved
    obtain ⟨own, written, rest, savedRest, rfl⟩ := saved
    exact (each x (by simp) own written).append (ih (fun y member => each y (by simp [member])) savedRest)

def IsVectorRecord (r : RdbRecord) : Prop := r.Fits ∧ ∃ question answer dim text, r = .vector question answer dim text

def vectorRecord (question answer : CString) (dim : Int) (text : CString) : RdbRecord :=
  .vector (cut question) (cut answer) (wrap32 dim) (cut text)

theorem vectorRecord_isVector (question answer : CString) (dim : Int) (text : CString) :
    IsVectorRecord (vectorRecord question answer dim text) :=
  ⟨⟨cut_length question, cut_length answer, wrap32_range dim, cut_length text⟩, _, _, _, _, rfl⟩

theorem rdbWriteVectorEntry_eq {question answer text : CString} {dim : Int}
    (written : rdbWriteVectorEntry question answer dim text = some bytes) :
    bytes = (vectorRecord question answer dim text).encode ∧ 0 ≤ wrap32 text.bytes.length := by
  simp only [rdbWriteVectorEntry, bind_eq_bind, bind_eq_some_iff, some.injEq] at written
  obtain ⟨q, writtenQ, a, writtenA, t, writtenT, rfl⟩ := written
  obtain ⟨rfl, _⟩ := rdbWriteString_some writtenQ
  obtain ⟨rfl, _⟩ := rdbWriteString_some writtenA
  obtain ⟨rfl, positive⟩ := rdbWriteString_some writtenT
  exact ⟨by rw [vectorRecord, encode, intBytes_wrap32], positive⟩

theorem rdbSaveTree_records {κ ν : Type} {T : Rbtree κ ν} {write : RbtreeNode κ ν → Option Bytes}
    (each : ∀ n bytes, write n = some bytes → RecordsOf P bytes) {fuel : Nat} {node : Addr}
    (saved : rdbSaveTree T write fuel node = some bytes) : RecordsOf P bytes := by
  induction fuel generalizing node bytes with
  | zero => cases saved
  | succ fuel ih =>
    rw [rdbSaveTree] at saved
    by_cases end_ : node = Rbtree.nil
    · rw [if_pos end_] at saved
      cases saved
      exact .nil
    · rw [if_neg end_] at saved
      simp only [bind_eq_bind, bind_eq_some_iff, some.injEq] at saved
      obtain ⟨n, _, left, savedLeft, own, written, right, savedRight, rfl⟩ := saved
      exact (ih savedLeft).append ((each n own written).append (ih savedRight))

section Entries

variable {F : Type} (A : FloatText F) {memory : CString → Bool} {inst : KvsVector F} {bytes : Bytes}

theorem rdbSaveVectorEntry_records {P : RdbRecord → Prop} {n : RbtreeNode CString Nat}
    (each : ∀ e text, inst.entry n.value = some e → rdbVectorToString A (memory e.question) e.vector = some text →
      0 ≤ wrap32 text.bytes.length → P (vectorRecord e.question e.answer e.vector.length text))
    (written : rdbSaveVectorEntry A memory inst n = some bytes) : RecordsOf P bytes := by
  simp only [rdbSaveVectorEntry, bind_eq_bind, bind_eq_some_iff] at written
  obtain ⟨e, found, written⟩ := written
  cases text : rdbVectorToString A (memory e.question) e.vector with
  | none =>
    simp only [text, some.injEq] at written
    rw [← written]
    exact .nil
  | some str =>
    simp only [text] at written
    obtain ⟨rfl, positive⟩ := rdbWriteVectorEntry_eq written
    exact .one (each e str found text positive)

theorem rdbSaveVectorNode_records {node : Addr} (saved : rdbSaveVectorNode A memory inst node = some bytes) :
    RecordsOf IsVectorRecord bytes :=
  rdbSaveTree_records (fun _ _ => rdbSaveVectorEntry_records A fun _ _ _ _ _ => vectorRecord_isVector _ _ _ _) saved

end Entries

end Vector

end AICacheDB
