import AICacheDB.Command.Lasting
import AICacheDB.Library.Edit
import AICacheDB.Vector.Answers

open CLib List Option Function Machine

namespace AICacheDB

open KvMap

section Meaning

def KvOp.edit : KvOp → CString → Edit Entry
  | .set k v _, k' => if k' = k then .force (some ⟨.str v, -1⟩) else .keep
  | .del k, k' => if k' = k then .force none else .keep
  | .mod k v, k' => if k' = k then .change ⟨.str v, -1⟩ else .keep
  | _, _ => .keep

theorem KvMap.plainStep_edit (m : KvMap) (op : KvOp) (k : CString) : (m.plainStep op).1 k = (op.edit k).apply (m k) := by
  cases op with
  | set k' v e =>
    by_cases same : k = k'
    · subst same
      simp [plainStep, KvOp.edit, put_self, Edit.apply]
    · simp only [plainStep, KvOp.edit, if_neg same, put_of_ne m _ same, Edit.apply]
  | del k' =>
    by_cases same : k = k'
    · subst same
      by_cases absent : m k = none
      · simp [plainStep, KvOp.edit, absent, Edit.apply]
      · simp [plainStep, KvOp.edit, if_neg absent, drop_self, Edit.apply]
    · by_cases absent : m k' = none
      · simp only [plainStep, KvOp.edit, if_pos absent, if_neg same, Edit.apply]
      · simp only [plainStep, KvOp.edit, if_neg absent, if_neg same, drop_of_ne m same, Edit.apply]
  | mod k' v =>
    by_cases same : k = k'
    · subst same
      cases found : m k with
      | none => simp [plainStep, KvOp.edit, found, Edit.apply]
      | some x => simp [plainStep, KvOp.edit, found, put_self, Edit.apply]
    · by_cases absent : m k' = none
      · simp only [plainStep, KvOp.edit, if_pos absent, if_neg same, Edit.apply]
      · simp only [plainStep, KvOp.edit, if_neg absent, if_neg same, put_of_ne m _ same, Edit.apply]
  | _ => rfl

theorem KvOp.edit_elsewhere {op : KvOp} {k : CString} (other : op.key ≠ some k) : op.edit k = .keep := by
  cases op with
  | set k' v e | del k' | mod k' v => exact if_neg fun same => other (congrArg some same.symm)
  | _ => rfl

def entryEdit (readonly : Bool) (argv : List CString) (cell : Family × CString) : Edit Entry :=
  match checkCommand readonly argv with
  | .ok (.kv family verb) => if family = cell.1 then ((verb.op 0 argv).elim .keep fun op => op.edit cell.2) else .keep
  | _ => .keep

variable {F : Type} [LinearOrder F] (A : FloatText F)

def answerEdit (readonly : Bool) (argv : List CString) (question : CString) : Edit (CString × List F) :=
  match checkCommand readonly argv, argv with
  | .ok .vset, [_, vkey, text, dim, vectorStr] =>
    match parseVector A.toFloatOps .ok vectorStr (atoi dim) with
    | some vec => if question = vkey ∧ A.zero < vectorNorm A.toFloatOps vec then .force (some (text, vec)) else .keep
    | none => .keep
  | _, _ => .keep

end Meaning

section Vectors

variable {F : Type} [LinearOrder F] {A : FloatText F} {inst inst' : KvsVector F}

theorem answerOf_eq_some (valid : KvsVector.VectorValid A.toFloatOps inst) {question answer : CString} {vec : List F} :
    answerOf inst question = some (answer, vec) ↔ inst.Answers question answer vec := by
  obtain ⟨t, registered⟩ := valid.tree
  rw [KvsVector.answers_iff_getByKey registered, answerOf, map_eq_some_iff]
  simp [join_eq_some_iff]

theorem answerOf_stored (valid : KvsVector.VectorValid A.toFloatOps inst) (valid' : KvsVector.VectorValid A.toFloatOps inst')
    {vkey text : CString} {vec : List F} (stored : inst.Stored vkey text vec inst') (question : CString) :
    answerOf inst' question = if question = vkey then some (text, vec) else answerOf inst question := by
  have answers : ∀ answer vec', inst'.Answers question answer vec' ↔
      (question = vkey ∧ answer = text ∧ vec' = vec) ∨ question ≠ vkey ∧ inst.Answers question answer vec' :=
    fun _ _ => stored.answers valid.shape
  by_cases same : question = vkey
  · rw [if_pos same, answerOf_eq_some valid', answers]
    exact .inl ⟨same, rfl, rfl⟩
  · rw [if_neg same]
    apply Option.ext
    rintro ⟨answer, vec'⟩
    rw [answerOf_eq_some valid', answerOf_eq_some valid, answers]
    constructor
    · rintro (⟨here, _⟩ | ⟨_, old⟩)
      · exact absurd here same
      · exact old
    · exact fun old => .inr ⟨same, old⟩

theorem executeVset_edit {readonly : Bool} {argv : List CString} (check : checkCommand readonly argv = .ok .vset)
    (valid : KvsVector.VectorValid A.toFloatOps inst) {ret : Int} {out : Reply}
    (ran : executeVset A .ok inst argv = some (inst', ret, out)) (question : CString) :
    answerOf inst' question = (answerEdit A readonly argv question).apply (answerOf inst question) := by
  unfold executeVset at ran
  split at ran
  · rename_i name vkey text dim vectorStr
    simp only [answerEdit, check]
    by_cases good : ∃ vec, parseVector A.toFloatOps .ok vectorStr (atoi dim) = some vec ∧ A.zero < vectorNorm A.toFloatOps vec
    · obtain ⟨vec, parsed, norm⟩ := good
      have positive : ¬ atoi dim ≤ 0 := fun noDim => by
        rw [parseVector, if_pos (.inl noDim)] at parsed
        cases parsed
      obtain ⟨inst1, set, valid1, stored⟩ := KvsVector.kvsVectorSet_accepted A.toFloatOps valid vkey text parsed norm
      simp only [positive, if_false, set, bind_eq_bind, bind_some, lt_irrefl] at ran
      cases ran
      rw [answerOf_stored valid valid1 stored, parsed]
      by_cases same : question = vkey
      · simp [same, norm, Edit.apply]
      · simp [same, Edit.apply]
    · have same : inst' = inst := by
        by_cases noDim : atoi dim ≤ 0
        · rw [if_pos noDim] at ran
          cases ran
          rfl
        · obtain ⟨ret', set, negative⟩ : ∃ ret', kvsVectorSet A.toFloatOps .ok inst vkey text (atoi dim) vectorStr = some (inst, ret') ∧
              ret' < 0 :=
            KvsVector.kvsVectorSet_refused A.toFloatOps vkey text fun vec parsed norm => good ⟨vec, parsed, norm⟩
          simp only [noDim, if_false, set, bind_eq_bind, bind_some, negative, if_true] at ran
          cases ran
          rfl
      rw [same]
      cases parsed : parseVector A.toFloatOps .ok vectorStr (atoi dim) with
      | none => rfl
      | some vec =>
        have flat : ¬ (question = vkey ∧ A.zero < vectorNorm A.toFloatOps vec) := fun both => good ⟨vec, parsed, both.2⟩
        simp only [if_neg flat, Edit.apply]
  · rename_i wrong
    cases ran
    unfold answerEdit
    split
    · exact absurd rfl (wrong _ _ _ _ _)
    · rfl

end Vectors

section Commands

variable {F : Type} [LinearOrder F] {A : FloatText F} {d d' : Db F} {env : Env} {argv : List CString} {readonly changed : Bool} {out : Reply}

omit [LinearOrder F] in
theorem Db.call_edit {family : Family} {op : KvOp} {cell : Family × CString} (noScan : op ≠ .scanExpired)
    (own : family = cell.1 → op.key = some cell.2 → op.Plain ∧ (op.IsSet ∨ ∀ x, d.kv cell.1 cell.2 = some x → x.expireMs = -1))
    (now : Int) (level : Nat) (room : family = .array → op.IsSet → ¬ d.Full) :
    (d.call family ⟨op, now, level⟩).1.kv cell.1 cell.2 =
      (if family = cell.1 then op.edit cell.2 else .keep : Edit Entry).apply (d.kv cell.1 cell.2) := by
  rw [Db.call, if_neg fun full => room full.1 full.2.1 full.2.2]
  dsimp only
  by_cases same : family = cell.1
  · subst same
    rw [if_pos rfl, update_self]
    by_cases named : op.key = some cell.2
    · obtain ⟨plain, isSet | lasts⟩ := own rfl named
      · cases op with
        | set k v e =>
          rw [show e = -1 from plain, ← plainStep_edit]
          rfl
        | _ => exact isSet.elim
      · rw [step_plain _ plain, plainStep_edit]
        intro k x isKey found
        rw [named] at isKey
        cases isKey
        exact lasts x found
    · rw [step_elsewhere _ _ named noScan, KvOp.edit_elsewhere named, Edit.apply]
  · rw [if_neg same, update_of_ne (Ne.symm same), Edit.apply]

theorem Db.execute_edit (lasting : d.Lasting) (valid : KvsVector.VectorValid A.toFloatOps d.vector) (plain : Plain argv)
    (room : checkCommand readonly argv = .ok (.kv .array .set) → ¬ d.Full)
    (ran : d.execute A readonly env argv = some (d', out, changed)) :
    (∀ cell : Family × CString, d'.kv cell.1 cell.2 = (entryEdit readonly argv cell).apply (d.kv cell.1 cell.2)) ∧
      ∀ question, answerOf d'.vector question = (answerEdit A readonly argv question).apply (answerOf d.vector question) := by
  cases check : checkCommand readonly argv with
  | error e =>
    rw [Db.execute, check] at ran
    cases ran
    simp [entryEdit, answerEdit, check, Edit.apply, implies_true]
  | ok cmd =>
    cases cmd with
    | kv family verb =>
      obtain ⟨op, own, _, rfl, _⟩ := Db.execute_kv check ran
      have plainOp := Verb.op_plain own (plain.verb check)
      have own0 : verb.op 0 argv = some op := (Verb.op_now (plain.verb check) 0 env.now argv).trans own
      have noRoom : family = .array → op.IsSet → ¬ d.Full := by
        rintro rfl isSet
        apply room
        rw [check]
        unfold Verb.op at own
        split at own <;> cases own
        case h_1 => rfl
        case h_8 => exact absurd rfl (plain.verb check).2
        all_goals exact isSet.elim
      constructor
      · intro cell
        rw [Db.call_edit (Verb.op_ne_scan own) (fun _ _ => ⟨plainOp, .inr (lasting cell.1 cell.2)⟩) _ _ noRoom]
        simp [entryEdit, check, own0]
      · intro question
        rw [Db.call_vector]
        simp only [answerEdit, check, Edit.apply]
    | vset =>
      rw [Db.execute, check] at ran
      cases set : executeVset A .ok d.vector argv with
      | none =>
        simp only [set] at ran
        cases ran
      | some r =>
        obtain ⟨vector, ret, out'⟩ := r
        simp only [set, bind_eq_bind, bind_some] at ran
        cases ran
        exact ⟨fun cell => by simp only [entryEdit, check, Edit.apply], executeVset_edit check valid set⟩
    | vget | vsearch =>
      rw [Db.execute, check] at ran
      obtain ⟨out', _, same⟩ := map_eq_some_iff.mp ran
      cases same
      simp [entryEdit, answerEdit, check, Edit.apply, implies_true]
    | _ =>
      rw [Db.execute, check] at ran
      cases ran
      simp [entryEdit, answerEdit, check, Edit.apply, implies_true]

structure Invocation where
  env : Env
  argv : List CString
  raw : Bytes

def invoke (A : FloatText F) (s : Server F) (i : Invocation) : Option (Server F × Reply) := kvsExecuteCommand A i.env s i.argv i.raw

/-- A command that gives no expiry time and finds what the engines rely on; above all, a `SET` finds the array below its capacity. -/
structure Replayable (s : Server F) (i : Invocation) : Prop where
  ample : i.env.Ample
  plain : Plain i.argv
  indexed : Indexed i.argv
  room : checkCommand s.readonly i.argv = .ok (.kv .array .set) → s.array.length < kvsArraySize

omit [LinearOrder F] in
theorem Server.readonly_congr {s s' : Server F} (same : s'.flags = s.flags) : s'.readonly = s.readonly := by
  simp only [flags, Prod.mk.injEq] at same
  rw [readonly, same.2.2.2.1, same.2.2.2.2, readonly]

structure Unexpiring (A : FloatText F) (readonly : Bool) (s : Server F) : Prop where
  sound : s.Sound A
  lasting : s.db.Lasting
  mode : s.readonly = readonly

theorem invoke_edits {s : Server F} {i : Invocation} (unexpiring : Unexpiring A readonly s) (ok : Replayable s i) :
    ∃ s' out, invoke A s i = some (s', out) ∧ Unexpiring A readonly s' ∧
      (∀ cell : Family × CString, s'.contents cell.1 cell.2 = (entryEdit readonly i.argv cell).apply (s.contents cell.1 cell.2)) ∧
      ∀ question, answerOf s'.vector question = (answerEdit A readonly i.argv question).apply (answerOf s.vector question) := by
  obtain ⟨sound, lasting, rfl⟩ := unexpiring
  obtain ⟨s', d, out, changed, ran, means, sound', rfl, flags, _⟩ :=
    execute_refines sound ok.ample (reaches_of_lasting sound.valid lasting ok.ample ok.indexed) i.raw
  have room : checkCommand s.readonly i.argv = .ok (.kv .array .set) → ¬ s.db.Full := fun sets full =>
    absurd ((Server.full_iff sound.valid).mp full) (not_le.mpr (ok.room sets))
  obtain ⟨lasting', _⟩ := Db.execute_keeps lasting sound.vector ok.plain means
  obtain ⟨entries, answers⟩ := Db.execute_edit lasting sound.vector ok.plain room means
  exact ⟨s', out, ran, ⟨sound', lasting', Server.readonly_congr flags⟩, entries, answers⟩

/-- Executing a list of commands a second time changes no key and no question. -/
theorem replay_idempotent {s : Server F} (sound : s.Sound A) (lasting : s.db.Lasting) {first second : List Invocation}
    (same : second.map Invocation.argv = first.map Invocation.argv)
    (meets : Machine.Meets (invoke A) Replayable s (first ++ second)) :
    ∃ s1 outs1 s2 outs2, Machine.run (invoke A) s first = some (s1, outs1) ∧ Machine.run (invoke A) s1 second = some (s2, outs2) ∧
      s2.contents = s1.contents ∧ answerOf s2.vector = answerOf s1.vector := by
  have start : Unexpiring A s.readonly s := ⟨sound, lasting, rfl⟩
  have sameEdits : ∀ {V κ : Type} (edit : List CString → κ → Edit V),
      second.map (fun i => edit i.argv) = first.map fun i => edit i.argv := by
    intro V κ edit
    have mapped := congrArg (map edit) same
    rwa [List.map_map, List.map_map] at mapped
  obtain ⟨s1, outs1, s2, outs2, ran1, ran2, entries⟩ := Edit.run_again
    (fun (s : Server F) (cell : Family × CString) => s.contents cell.1 cell.2) (fun i => entryEdit s.readonly i.argv)
    (fun s i unexpiring ok => by
      obtain ⟨s', out, ran, next, entries, _⟩ := invoke_edits unexpiring ok
      exact ⟨s', out, ran, next, entries⟩)
    (sameEdits (entryEdit s.readonly)) start meets
  obtain ⟨t1, _, t2, _, again1, again2, answers⟩ := Edit.run_again
    (fun (s : Server F) question => answerOf s.vector question) (fun i => answerEdit A s.readonly i.argv)
    (fun s i unexpiring ok => by
      obtain ⟨s', out, ran, next, _, answers⟩ := invoke_edits unexpiring ok
      exact ⟨s', out, ran, next, answers⟩)
    (sameEdits (answerEdit A s.readonly)) start meets
  rw [ran1] at again1
  cases again1
  rw [ran2] at again2
  cases again2
  refine ⟨s1, outs1, s2, outs2, ran1, ran2, ?_, answers⟩
  funext family k
  exact congrFun entries (family, k)

end Commands

section SetAndMod

def setAndMod (now : Int) : List Invocation :=
  [⟨ampleEnv now, [.ofBytes (ascii "SET"), .ofBytes [107], .ofBytes [118]], []⟩,
    ⟨ampleEnv now, [.ofBytes (ascii "MOD"), .ofBytes [107], .ofBytes [119]], []⟩]

theorem setAndMod_replayable {s : Server Int} (room : s.array.length < kvsArraySize) {now : Int} {i : Invocation}
    (member : i ∈ setAndMod now) : Replayable s i := by
  have mod : findCommand (.ofBytes (ascii "MOD")) = some (.kv .array .mod) := by decide +kernel
  simp only [setAndMod, mem_cons, not_mem_nil, or_false] at member
  rcases member with rfl | rfl
  · exact ⟨ampleEnv_ample now, plain_of_verb findCommand_set (by decide), indexed_of_array findCommand_set, fun _ => room⟩
  · exact ⟨ampleEnv_ample now, plain_of_verb mod (by decide), indexed_of_array mod, fun _ => room⟩

theorem setAndMod_meets : Meets (invoke wholeText) Replayable freshServer (setAndMod 0 ++ setAndMod 5) := by
  have lengths : ∀ js ∈ (setAndMod 0 ++ setAndMod 5).inits,
      (run (invoke wholeText) freshServer js).all (fun r => decide (r.1.array.length < kvsArraySize)) = true := by
    decide +kernel
  apply Meets.of_runs
  intro js i ks t os split ran
  have begun := lengths js (by rw [mem_inits, split]; exact prefix_append js _)
  rw [ran] at begun
  have room : t.array.length < kvsArraySize := of_decide_eq_true begun
  have member : i ∈ setAndMod 0 ++ setAndMod 5 := by
    rw [split]
    simp
  rcases mem_append.mp member with early | late
  · exact setAndMod_replayable room early
  · exact setAndMod_replayable room late

theorem replay_idempotent_set_mod :
    ∃ s1 outs1 s2 outs2, Machine.run (invoke wholeText) freshServer (setAndMod 0) = some (s1, outs1) ∧
      Machine.run (invoke wholeText) s1 (setAndMod 5) = some (s2, outs2) ∧
      s2.contents = s1.contents ∧ answerOf s2.vector = answerOf s1.vector :=
  replay_idempotent (freshServer_fresh.sound wholeText) freshServer_fresh.lasting rfl setAndMod_meets

end SetAndMod

section Capacity

def setOf (k : Bytes) : Invocation := ⟨ampleEnv 0, [.ofBytes (ascii "SET"), .ofBytes k, .ofBytes [118]], []⟩

def delOf (k : Bytes) : Invocation := ⟨ampleEnv 0, [.ofBytes (ascii "DEL"), .ofBytes k], []⟩

def arrayServer (inst : KvsArray) : Server Int := { freshServer with array := inst }

def setSlot (inst : KvsArray) (k : Bytes) : KvsArray := (kvsArraySet .ok inst (.ofBytes k) (.ofBytes [118]) (-1)).1

theorem persisted_nil (env : Env) (s : Server Int) (cmd : Cmd) (ret : Int) : Server.persisted env s cmd ret [] = [] :=
  if_neg fun long => absurd long.1.2.2 (by decide)

theorem invoke_setOf (inst : KvsArray) (k : Bytes) : ∃ out, invoke wholeText (arrayServer inst) (setOf k) =
      some (arrayServer (setSlot inst k), out) := by
  have check : checkCommand (arrayServer inst).readonly (setOf k).argv = .ok (.kv .array .set) := by
    simp only [checkCommand, setOf, findCommand_set]
    rfl
  unfold invoke kvsExecuteCommand
  rw [check]
  simp only [executeKv, setOf, Verb.op, Server.call, Engine.call, arrayEngine, map_some, Verb.reply, bind_eq_bind,
    bind_some, finish, Server.persist_eq, persisted_nil, append_nil, ite_self]
  exact ⟨_, rfl⟩

theorem invoke_delOf (inst : KvsArray) (k : Bytes) :
    ∃ out, invoke wholeText (arrayServer inst) (delOf k) = some (arrayServer (kvsArrayDel inst (.ofBytes k)).1, out) := by
  have del : findCommand (.ofBytes (ascii "DEL")) = some (.kv .array .del) := by decide +kernel
  have check : checkCommand (arrayServer inst).readonly (delOf k).argv = .ok (.kv .array .del) := by
    simp only [checkCommand, delOf, del]
    rfl
  unfold invoke kvsExecuteCommand
  rw [check]
  simp only [executeKv, delOf, Verb.op, Server.call, Engine.call, arrayEngine, map_some, Verb.reply, bind_eq_bind,
    bind_some, finish, Server.persist_eq, persisted_nil, append_nil, ite_self]
  exact ⟨_, rfl⟩

def filler (n : Nat) : KvsArray := (List.range n).map fun i => ⟨.ofBytes (List.replicate (i + 2) 98), .str (.ofBytes [118]), -1⟩

theorem cstr_replicate (n : Nat) : cstr (replicate n 98) = replicate n 98 := by
  apply cstr_of_nulFree
  intro zero
  exact absurd (eq_of_mem_replicate zero) (by decide)

theorem filler_key {n : Nat} {x : ArrayItem} (member : x ∈ filler n) : 2 ≤ x.key.bytes.length := by
  obtain ⟨i, _, rfl⟩ := mem_map.mp member
  show 2 ≤ (cstr (replicate (i + 2) 98)).length
  rw [cstr_replicate, length_replicate]
  omega

theorem filler_valid (n : Nat) : ArrayValid (filler n) := by
  rw [ArrayValid, filler, List.map_map]
  apply List.Nodup.map _ List.nodup_range
  intro i j same
  have lengths := congrArg (fun k : CString => k.bytes.length) same
  simp only [comp, CString.ofBytes, cstr_replicate, List.length_replicate] at lengths
  omega

def slot (k : Bytes) : ArrayItem := ⟨.ofBytes k, .str (.ofBytes [118]), -1⟩

variable {inst : KvsArray}

theorem arrayFind_none {k : CString} (absent : ∀ x ∈ inst, x.key ≠ k) : arrayFind inst k = none := by
  rw [arrayFind, findIdx?_eq_none_iff]
  intro x member
  exact decide_eq_false (absent x member)

theorem arrayFind_head (k : Bytes) (inst : KvsArray) : arrayFind (slot k :: inst) (.ofBytes k) = some 0 := by
  rw [arrayFind, findIdx?_cons, slot, decide_eq_true rfl]
  rfl

theorem setSlot_new {k : Bytes} (room : inst.length < kvsArraySize) (absent : ∀ x ∈ inst, x.key ≠ .ofBytes k) :
    setSlot inst k = inst ++ [slot k] := by
  rw [setSlot, kvsArraySet, if_neg (not_le.mpr room), arrayFind_none absent]
  rfl

theorem setSlot_head {k : Bytes} (room : (slot k :: inst).length < kvsArraySize) :
    setSlot (slot k :: inst) k = slot k :: inst := by
  rw [setSlot, kvsArraySet, if_neg (not_le.mpr room), arrayFind_head]
  rfl

theorem del_head (k k' : Bytes) (inst : KvsArray) : (kvsArrayDel (slot k :: (inst ++ [slot k'])) (.ofBytes k)).1 = slot k' :: inst := by
  have last : (slot k :: (inst ++ [slot k'])).getLast? = some (slot k') := by
    rw [← cons_append, getLast?_concat]
  rw [kvsArrayDel, arrayFind_head]
  simp only [KeyedList.swapRemove, last, set_cons_zero]
  rw [← cons_append, dropLast_concat]

theorem absent_cons {n : Nat} {k k' : Bytes} (other : CString.ofBytes k ≠ .ofBytes k') (short : k'.length < 2) :
    ∀ x ∈ slot k :: filler n, x.key ≠ .ofBytes k' := by
  intro x member
  rcases mem_cons.mp member with rfl | member
  · exact other
  · intro same
    have long := filler_key member
    have limit := CString.ofBytes_length_le k'
    rw [same] at long
    omega

def fillAndFree : List Invocation := [setOf [97], setOf [99], delOf [98]]

theorem fillAndFree_run (inst : KvsArray) : ∃ outs, run (invoke wholeText) (arrayServer inst) fillAndFree =
      some (arrayServer (kvsArrayDel (setSlot (setSlot inst [97]) [99]) (.ofBytes [98])).1, outs) := by
  obtain ⟨out1, first⟩ := invoke_setOf inst [97]
  obtain ⟨out2, second⟩ := invoke_setOf (setSlot inst [97]) [99]
  obtain ⟨out3, third⟩ := invoke_delOf (setSlot (setSlot inst [97]) [99]) [98]
  refine ⟨[out1, out2, out3], ?_⟩
  rw [fillAndFree, run_cons_of_step _ first, run_cons_of_step _ second, run_cons_of_step _ third]
  rfl

section Passes

variable {n : Nat} (size : n + 2 = kvsArraySize)

include size

theorem fillAndFree_first :
    (kvsArrayDel (setSlot (setSlot (slot [98] :: filler n) [97]) [99]) (.ofBytes [98])).1 = slot [97] :: filler n := by
  have length : (slot [98] :: filler n).length = n + 1 := by rw [length_cons, filler, length_map, length_range]
  have full : kvsArraySize ≤ (slot [98] :: filler n ++ [slot [97]]).length := by
    rw [length_append, length, length_singleton]
    omega
  have refused : setSlot (slot [98] :: filler n ++ [slot [97]]) [99] = slot [98] :: filler n ++ [slot [97]] := by
    rw [setSlot, kvsArraySet, if_pos full]
  rw [setSlot_new (by omega) (absent_cons (by decide) (by decide)), refused, cons_append, del_head]

theorem fillAndFree_second :
    (kvsArrayDel (setSlot (setSlot (slot [97] :: filler n) [97]) [99]) (.ofBytes [98])).1 = slot [97] :: filler n ++ [slot [99]] := by
  have length : (slot [97] :: filler n).length = n + 1 := by rw [length_cons, filler, length_map, length_range]
  have gone : ∀ x ∈ slot [97] :: filler n ++ [slot [99]], x.key ≠ .ofBytes [98] := by
    intro x member
    rcases mem_append.mp member with old | new
    · exact absent_cons (by decide) (by decide) x old
    · rw [mem_singleton.mp new]
      decide
  rw [setSlot_head (by omega), setSlot_new (by omega) (absent_cons (by decide) (by decide)), kvsArrayDel, arrayFind_none gone]

end Passes

theorem arrayEntries_mem {k : CString} {e : Entry} (found : arrayEntries inst k = some e) : ∃ x ∈ inst, x.entry = e := by
  obtain ⟨x, isX, rfl⟩ := map_eq_some_iff.mp found
  exact ⟨x, (KeyedList.lookup_some_mem isX).1, rfl⟩

theorem arrayServer_sound (valid : ArrayValid inst) (items : ∀ x ∈ inst, x.entry = (slot []).entry) :
    (arrayServer inst).Sound wholeText ∧ (arrayServer inst).db.Lasting := by
  have fresh : (freshServer : Server Int).Fresh := freshServer_fresh
  have old := fresh.valid
  have same : ∀ family, family ≠ .array → (arrayServer inst).contents family = empty := by
    intro family other
    rw [arrayServer, Server.contents_array, update_of_ne other, fresh.contents]
  have stored : ∀ k e, arrayEntries inst k = some e → e = (slot []).entry := by
    intro k e found
    obtain ⟨x, member, rfl⟩ := arrayEntries_mem found
    exact items x member
  refine ⟨⟨⟨valid, old.rbtree, old.hash, old.skiplist, fun family => ?_⟩, (fresh.sound wholeText).vector⟩, fun family => ?_⟩
  · by_cases isArray : family = .array
    · subst isArray
      intro k e found
      exact ⟨_, congrArg Entry.value (stored k e found)⟩
    · rw [same family isArray]
      exact textual_empty
  · show ((arrayServer inst).contents family).Lasting
    by_cases isArray : family = .array
    · subst isArray
      intro k e found
      exact congrArg Entry.expireMs (stored k e found)
    · rw [same family isArray]
      exact lasting_empty

/-- The array reaches its capacity in between: the second pass has room for a key that the first refused. -/
theorem replay_differs_at_capacity : ∃ s : Server Int, s.Sound wholeText ∧ s.db.Lasting ∧ s.array.length < kvsArraySize ∧
      (∀ i ∈ fillAndFree, i.env.Ample ∧ Plain i.argv ∧ Indexed i.argv) ∧
      ∃ s1 outs1 s2 outs2, Machine.run (invoke wholeText) s fillAndFree = some (s1, outs1) ∧
        Machine.run (invoke wholeText) s1 fillAndFree = some (s2, outs2) ∧ s2.contents .array ≠ s1.contents .array := by
  obtain ⟨n, size⟩ : ∃ n, n + 2 = kvsArraySize := ⟨kvsArraySize - 2, by decide⟩
  have absentB : ∀ x ∈ filler n, x.key ≠ .ofBytes [98] := fun x member =>
    absent_cons (k := [97]) (by decide) (by decide) x (mem_cons_of_mem _ member)
  have valid : ArrayValid (slot [98] :: filler n) := by
    rw [ArrayValid, map_cons, nodup_cons]
    refine ⟨fun inside => ?_, filler_valid n⟩
    obtain ⟨x, member, same⟩ := mem_map.mp inside
    exact absentB x member same
  have items : ∀ x ∈ slot [98] :: filler n, x.entry = (slot []).entry := by
    intro x member
    rcases mem_cons.mp member with rfl | member
    · rfl
    · obtain ⟨i, _, rfl⟩ := mem_map.mp member
      rfl
  obtain ⟨sound, lasting⟩ := arrayServer_sound valid items
  obtain ⟨outs1, first⟩ := fillAndFree_run (slot [98] :: filler n)
  obtain ⟨outs2, second⟩ := fillAndFree_run (slot [97] :: filler n)
  rw [fillAndFree_first size] at first
  rw [fillAndFree_second size] at second
  refine ⟨arrayServer (slot [98] :: filler n), sound, lasting, ?_, ?_, _, outs1, _, outs2, first, second, fun same => ?_⟩
  · show (slot [98] :: filler n).length < kvsArraySize
    rw [length_cons, filler, length_map, length_range]
    omega
  · have del : findCommand (.ofBytes (ascii "DEL")) = some (.kv .array .del) := by decide +kernel
    intro i member
    simp only [fillAndFree, mem_cons, not_mem_nil, or_false] at member
    rcases member with rfl | rfl | rfl
    · exact ⟨ampleEnv_ample 0, plain_of_verb findCommand_set (by decide), indexed_of_array findCommand_set⟩
    · exact ⟨ampleEnv_ample 0, plain_of_verb findCommand_set (by decide), indexed_of_array findCommand_set⟩
    · exact ⟨ampleEnv_ample 0, plain_of_verb del (by decide), indexed_of_array del⟩
  · have missing : arrayEntries (slot [97] :: filler n) (.ofBytes [99]) = none :=
      ofList_eq_none_iff.mpr (absent_cons (by decide) (by decide))
    have present : arrayEntries (slot [97] :: filler n ++ [slot [99]]) (.ofBytes [99]) ≠ none := by
      intro gone
      exact ofList_eq_none_iff.mp gone (slot [99]) (by simp) rfl
    exact present ((congrFun same (.ofBytes [99])).trans missing)

end Capacity

end AICacheDB
