import AICacheDB.Command.Edits
import AICacheDB.Persistence.Replay

open CLib List Option Machine

namespace AICacheDB

open Resp Rbtree

def target (msg : Bytes) : Option (Verb × Family × CString) :=
  match Resp.respParseArguments .ok msg with
  | some (some args) =>
    match checkCommand false (args.map CString.ofBytes), args with
    | .ok (.kv family verb), _ :: key :: _ => some (verb, family, .ofBytes key)
    | _, _ => none
  | _ => none

def messageEdit (msg : Bytes) (cell : Family × CString) : Edit Entry :=
  match Resp.respParseArguments .ok msg with
  | some (some args) => entryEdit false (args.map CString.ofBytes) cell
  | _ => .keep

def Sets (cell : Family × CString) (msg : Bytes) : Prop := target msg = some (.set, cell)

def Times (cell : Family × CString) (msg : Bytes) : Prop := target msg = some (.expire, cell) ∨ target msg = some (.setex, cell)

def Settled (cell : Family × CString) (msgs : List Bytes) : Prop :=
  ∀ before msg after, msgs = before ++ msg :: after → Times cell msg → ∃ later ∈ after, Sets cell later

theorem Settled.tail {cell : Family × CString} {msg : Bytes} {msgs : List Bytes} (settled : Settled cell (msg :: msgs)) :
    Settled cell msgs := by
  intro before m after split times
  exact settled (msg :: before) m after (by rw [split, cons_append]) times

section Cell

variable {F : Type} [LinearOrder F] {A : FloatText F} {d d' e e' : Db F} {env env' : Env} {msg : Bytes} {changed changed' : Bool}
  {out out' : Reply} {cell : Family × CString}

def Db.LastsAt (d : Db F) (cell : Family × CString) : Prop := ∀ x, d.kv cell.1 cell.2 = some x → x.expireMs = -1

def Db.Roomy (d : Db F) (env : Env) (msg : Bytes) : Prop :=
  Carries (fun argv => ∀ verb op, checkCommand false argv = .ok (.kv .array verb) → verb.op env.now argv = some op →
    op.IsSet → ¬ d.Full) msg

variable {argv : List CString}

theorem Db.execute_other (other : ∀ family verb, checkCommand false argv ≠ .ok (.kv family verb))
    (ran : d.execute A false env argv = some (d', out, changed)) : d'.kv = d.kv := by
  unfold Db.execute at ran
  split at ran
  case h_2 check => exact absurd check (other _ _)
  case h_6 =>
    cases set : executeVset A .ok d.vector argv with
    | none =>
      simp only [set] at ran
      cases ran
    | some r =>
      simp only [set, bind_eq_bind, bind_some] at ran
      cases ran
      rfl
  case h_7 | h_8 =>
    obtain ⟨_, _, same⟩ := map_eq_some_iff.mp ran
    cases same
    rfl
  all_goals
    cases ran
    rfl

theorem Db.protocol_cases (ran : d.protocol A false env msg = some (d', out, changed)) :
    (target msg = none ∧ (∀ cell, messageEdit msg cell = .keep) ∧ d'.kv = d.kv) ∨
      ∃ args verb family key op, respParseArguments .ok msg = some (some args) ∧
        checkCommand false (args.map CString.ofBytes) = .ok (.kv family verb) ∧ target msg = some (verb, family, key) ∧
        verb.op env.now (args.map CString.ofBytes) = some op ∧
        (∀ now op, verb.op now (args.map CString.ofBytes) = some op → op.key = some key) ∧
        d' = (d.call family ⟨op, env.now, env.level⟩).1 ∧
        changed = commandResultChangedData (.kv family verb) (d.call family ⟨op, env.now, env.level⟩).2.toCode := by
  unfold Db.protocol at ran
  unfold target messageEdit
  cases parse : respParseArguments .ok msg with
  | none =>
    rw [parse] at ran
    cases ran
  | some parsed =>
    rw [parse] at ran
    cases parsed with
    | none =>
      cases ran
      exact .inl ⟨rfl, fun _ => rfl, rfl⟩
    | some args =>
      have ran : d.execute A false env (args.map CString.ofBytes) = some (d', out, changed) := ran
      cases check : checkCommand false (args.map CString.ofBytes) with
      | error text =>
        refine .inl ⟨by simp only [check], fun cell => by simp only [entryEdit, check], Db.execute_other (fun _ _ => ?_) ran⟩
        rw [check]
        simp
      | ok cmd =>
        cases cmd with
        | kv family verb =>
          obtain ⟨op, own, _, result, flag⟩ := Db.execute_kv check ran
          obtain ⟨name, rest, split, _⟩ := checkCommand_ok check
          rw [split] at own
          obtain ⟨key, rest', rfl, isKey⟩ := Verb.op_key own
          obtain ⟨name', args, rfl, rfl, tail⟩ := map_eq_cons_iff.mp split
          obtain ⟨key', args', rfl, rfl, _⟩ := map_eq_cons_iff.mp tail
          refine .inr ⟨_, verb, family, .ofBytes key', op, rfl, check, by simp only [check], ?_, fun now op' own' => ?_, result, flag⟩
          · rw [split]
            exact own
          · obtain ⟨_, _, same, isKey'⟩ := Verb.op_key own'
            cases same
            exact isKey'
        | _ =>
          refine .inl ⟨by simp only [check], fun cell => by simp only [entryEdit, check], Db.execute_other (fun _ _ => ?_) ran⟩
          rw [check]
          simp

variable {op : KvOp} {family : Family} {verb : Verb} {msgs : List Bytes}

theorem KvOp.edit_lasts {k : CString} {o : Option Entry} (lasts : op.IsSet ∧ op.key = some k ∨ ∀ x, o = some x → x.expireMs = -1) :
    ∀ x, (op.edit k).apply o = some x → x.expireMs = -1 := by
  intro x found
  cases op with
  | set k' v e =>
    simp only [KvOp.edit] at found
    split at found
    · cases found
      rfl
    · rename_i other
      exact (lasts.resolve_left fun own => other (some.inj own.2).symm) x found
  | mod k' v =>
    simp only [KvOp.edit] at found
    split at found
    · obtain ⟨_, _, rfl⟩ := map_eq_some_iff.mp found
      rfl
    · exact (lasts.resolve_left fun own => own.1) x found
  | del k' =>
    simp only [KvOp.edit] at found
    split at found
    · cases found
    · exact (lasts.resolve_left fun own => own.1) x found
  | _ => exact (lasts.resolve_left fun own => own.1) x found

theorem messageEdit_eq {args : List Bytes} (parse : respParseArguments .ok msg = some (some args))
    (check : checkCommand false (args.map CString.ofBytes) = .ok (.kv family verb)) (cell : Family × CString) :
    messageEdit msg cell =
      if family = cell.1 then (verb.op 0 (args.map CString.ofBytes)).elim .keep fun op => op.edit cell.2 else .keep := by
  simp only [messageEdit, parse, entryEdit, check]

omit [LinearOrder F] in
theorem Db.call_set_changed {now : Int} (own : verb.op now argv = some op)
    (isSet : op.IsSet) (room : family = .array → op.IsSet → ¬ d.Full) (now' : Int) (level : Nat) :
    commandResultChangedData (.kv family verb) (d.call family ⟨op, now', level⟩).2.toCode = true := by
  rw [Db.call, if_neg fun full => room full.1 full.2.1 full.2.2]
  unfold Verb.op at own
  split at own <;> cases own <;> first | rfl | exact isSet.elim

theorem Sets.isSet {key : CString} {now : Int}
    (sets : Sets cell msg) (names : target msg = some (verb, family, key)) (own : verb.op now argv = some op) : op.IsSet := by
  rw [Sets, names] at sets
  cases sets
  unfold Verb.op at own
  split at own <;> cases own <;> trivial

theorem Db.protocol_edit (ran : d.protocol A false env msg = some (d', out, changed)) (room : d.Roomy env msg)
    (untimed : ¬ Times cell msg) (lasts : Sets cell msg ∨ d.LastsAt cell) :
    d'.kv cell.1 cell.2 = (messageEdit msg cell).apply (d.kv cell.1 cell.2) ∧ d'.LastsAt cell ∧
      (changed = false → ¬ Sets cell msg ∧ d'.kv cell.1 cell.2 = d.kv cell.1 cell.2) := by
  rcases Db.protocol_cases ran with ⟨none_, keeps, same⟩ | ⟨args, verb, family, key, op, parse, check, names, own, isKey, rfl, rfl⟩
  · have notSet : ¬ Sets cell msg := fun sets => by
      rw [Sets, none_] at sets
      cases sets
    rw [keeps, same]
    refine ⟨rfl, ?_, fun _ => ⟨notSet, rfl⟩⟩
    intro x found
    rw [same] at found
    exact lasts.resolve_left notSet x found
  · have noRoom : family = .array → op.IsSet → ¬ d.Full := by
      rintro rfl
      exact room args parse verb op check own
    by_cases mine : cell = (family, key)
    · subst mine
      have plainVerb : verb ≠ .expire ∧ verb ≠ .setex :=
        ⟨fun isExpire => untimed (.inl (isExpire ▸ names)), fun isSetex => untimed (.inr (isSetex ▸ names))⟩
      have plain := Verb.op_plain own plainVerb
      have sets : op.IsSet ∨ d.LastsAt (family, key) := lasts.imp_left fun sets => Sets.isSet sets names own
      have edited : (d.call family ⟨op, env.now, env.level⟩).1.kv family key = (op.edit key).apply (d.kv family key) := by
        have edited := Db.call_edit (Verb.op_ne_scan own) (fun _ _ => ⟨plain, sets⟩) env.now env.level noRoom
        rwa [if_pos rfl] at edited
      refine ⟨?_, ?_, fun kept => ?_⟩
      · rw [edited, messageEdit_eq parse check, if_pos rfl, Verb.op_now plainVerb 0 env.now, own, elim_some]
      · intro x found
        rw [edited] at found
        exact KvOp.edit_lasts (sets.imp (fun isSet => ⟨isSet, isKey env.now op own⟩) id) x found
      · have notSet : ¬ op.IsSet := fun isSet => by
          rw [Db.call_set_changed own isSet noRoom] at kept
          cases kept
        refine ⟨fun sets => notSet (Sets.isSet sets names own), ?_⟩
        rw [Db.call_unchanged _ plain own kept]
        intro k x named found
        rw [isKey env.now op own] at named
        cases named
        exact sets.resolve_left notSet x found
    · have other {now : Int} {op' : KvOp} (own' : verb.op now (args.map CString.ofBytes) = some op') (same : family = cell.1) :
          op'.key ≠ some cell.2 := by
        intro named
        rw [isKey now op' own'] at named
        cases named
        exact mine (Prod.ext same.symm rfl)
      have notSet : ¬ Sets cell msg := fun sets => by
        rw [Sets, names] at sets
        cases sets
        exact mine rfl
      have keeps : (d.call family ⟨op, env.now, env.level⟩).1.kv cell.1 cell.2 = d.kv cell.1 cell.2 := by
        have edited := Db.call_edit (Verb.op_ne_scan own) (fun same named => absurd named (other own same)) env.now env.level noRoom
        rw [edited]
        by_cases same : family = cell.1
        · rw [if_pos same, KvOp.edit_elsewhere (other own same), Edit.apply]
        · rw [if_neg same, Edit.apply]
      refine ⟨?_, ?_, fun _ => ⟨notSet, keeps⟩⟩
      · rw [keeps, messageEdit_eq parse check]
        by_cases same : family = cell.1
        · rw [if_pos same]
          cases own' : verb.op 0 (args.map CString.ofBytes) with
          | none => rfl
          | some op' => rw [elim_some, KvOp.edit_elsewhere (other own' same), Edit.apply]
        · rw [if_neg same, Edit.apply]
      · intro x found
        rw [keeps] at found
        exact lasts.resolve_left notSet x found

theorem Sets.force (sets : Sets cell msg) (ran : d.protocol A false env msg = some (d', out, changed)) :
    ∃ o, messageEdit msg cell = .force o := by
  rcases Db.protocol_cases ran with ⟨none_, _⟩ | ⟨args, verb, family, key, op, parse, check, names, own, isKey, _⟩
  · rw [Sets, none_] at sets
    cases sets
  · have isSet := Sets.isSet sets names own
    rw [Sets, names] at sets
    cases sets
    have own0 : Verb.op 0 .set (args.map CString.ofBytes) = some op := (Verb.op_now (by decide) 0 env.now _).trans own
    have named := isKey env.now op own
    rw [messageEdit_eq parse check, if_pos rfl, own0, elim_some]
    cases op with
    | set k v e =>
      cases named
      exact ⟨_, if_pos rfl⟩
    | _ => exact isSet.elim

structure Agree (cell : Family × CString) (d e : Db F) : Prop where
  lasts : d.LastsAt cell
  same : e.kv cell.1 cell.2 = d.kv cell.1 cell.2

def AgreeSoon (cell : Family × CString) (d e : Db F) (msgs : List Bytes) : Prop := Agree cell d e ∨ ∃ msg ∈ msgs, Sets cell msg

theorem AgreeSoon.step (soon : AgreeSoon cell d e (msg :: msgs)) (settled : Settled cell (msg :: msgs))
    (ran : d.protocol A false env msg = some (d', out, changed)) (room : d.Roomy env msg)
    (ran' : e.protocol A false env' msg = some (e', out', changed')) (room' : e.Roomy env' msg) : AgreeSoon cell d' e' msgs := by
  by_cases later : ∃ m ∈ msgs, Sets cell m
  · exact .inr later
  have untimed : ¬ Times cell msg := fun times => later (settled [] msg msgs rfl times)
  have start : Sets cell msg ∨ Agree cell d e := by
    rcases soon with agree | ⟨m, member, sets⟩
    · exact .inr agree
    · rcases mem_cons.mp member with rfl | member
      · exact .inl sets
      · exact absurd ⟨m, member, sets⟩ later
  obtain ⟨value, lasts, _⟩ := Db.protocol_edit ran room untimed (start.imp_right Agree.lasts)
  obtain ⟨value', _, _⟩ := Db.protocol_edit ran' room' untimed (start.imp_right fun agree x found => agree.lasts x (agree.same ▸ found))
  refine .inl ⟨lasts, ?_⟩
  rw [value, value']
  rcases start with sets | agree
  · obtain ⟨o, force⟩ := sets.force ran
    rw [force, Edit.apply, Edit.apply]
  · rw [agree.same]

theorem AgreeSoon.skip (soon : AgreeSoon cell d e (msg :: msgs)) (settled : Settled cell (msg :: msgs))
    (ran : d.protocol A false env msg = some (d', out, false)) (room : d.Roomy env msg) : AgreeSoon cell d' e msgs := by
  by_cases later : ∃ m ∈ msgs, Sets cell m
  · exact .inr later
  have untimed : ¬ Times cell msg := fun times => later (settled [] msg msgs rfl times)
  rcases soon with agree | ⟨m, member, sets⟩
  · obtain ⟨_, lasts, kept⟩ := Db.protocol_edit ran room untimed (.inr agree.lasts)
    exact .inl ⟨lasts, agree.same.trans (kept rfl).2.symm⟩
  · rcases mem_cons.mp member with rfl | member
    · obtain ⟨_, _, kept⟩ := Db.protocol_edit ran room untimed (.inl sets)
      exact absurd sets (kept rfl).1
    · exact absurd ⟨m, member, sets⟩ later

end Cell

section Run

variable {F : Type} [LinearOrder F] (A : FloatText F)

def Server.Finds (s : Server F) (env : Env) (msg : Bytes) : Prop :=
  Carries (fun argv => ∀ family verb op, checkCommand s.readonly argv = .ok (.kv family verb) → verb.op env.now argv = some op →
    s.Admits family ⟨op, env.now, env.level⟩) msg

def reload (envs : Nat → Env) (t : Nat × Server F) (cmd : Bytes) : Option ((Nat × Server F) × Unit) :=
  (loadCommand A envs t cmd).map (·, ())

variable {A} {s : Server F} {env : Env} {msg : Bytes}

omit [LinearOrder F] in
theorem Server.Finds.roomy (finds : s.Finds env msg) (valid : s.Valid) (master : s.slaveMode = false) : s.db.Roomy env msg := by
  intro args parse verb op check own isSet full
  have room := finds args parse .array verb op (by rw [Server.readonly_master master]; exact check) own
  have size := (Server.full_iff valid).mp full
  cases op with
  | set k v e => exact absurd size (not_le_of_gt room)
  | _ => exact isSet.elim

theorem Server.Finds.step (finds : s.Finds env msg) (sound : s.Sound A) (master : s.slaveMode = false) (ample : env.Ample)
    (whole : Exact msg) :
    ∃ s' out changed, kvsProtocol A env s msg = some (s', out) ∧ s.db.protocol A false env msg = some (s'.db, out, changed) ∧
      s'.Sound A ∧ s'.flags = s.flags ∧ s'.log = s.log ++ s.logged changed msg := by
  have reaches : Carries (s.Reaches env) msg := fun args parse family verb op check own _ => finds args parse family verb op check own
  obtain ⟨s', d, out, changed, ran, means, sound', rfl, flags, log⟩ := protocol_executes sound ample whole reaches
  rw [Server.readonly_master master] at means
  exact ⟨s', out, changed, ran, means, sound', flags, log⟩

theorem run_agrees {envs : Nat → Env} (ample' : ∀ n, (envs n).Ample) {inputs : List (Env × Bytes)} (sound : s.Sound A)
    (recording : s.Recording) (ample : ∀ input ∈ inputs, input.1.Ample)
    (messages : ∀ input ∈ inputs, Exact input.2 ∧ input.2.length < 2 ^ 31)
    (finds : Meets (serve A) (fun s input => s.Finds input.1 input.2) s inputs) :
    ∃ s' replies added, run (serve A) s inputs = some (s', replies) ∧ s'.Sound A ∧ s'.log = s.log ++ added ∧
      (∀ c ∈ added, Exact c) ∧ ∀ n t, t.Sound A → t.slaveMode = false →
        Meets (reload A envs) (fun t msg => t.2.Finds (envs t.1) msg) (n, t) added →
        ∃ n' t', added.foldlM (loadCommand A envs) (n, t) = some (n', t') ∧ t'.Sound A ∧
          ∀ cell, Settled cell (inputs.map Prod.snd) → AgreeSoon cell s.db t.db (inputs.map Prod.snd) → Agree cell s'.db t'.db := by
  induction inputs generalizing s with
  | nil =>
    refine ⟨s, [], [], rfl, sound, (append_nil _).symm, by simp, fun n t soundT _ _ => ⟨n, t, rfl, soundT, ?_⟩⟩
    intro cell _ soon
    exact soon.resolve_right fun ⟨m, member, _⟩ => absurd member (by simp)
  | cons input inputs ih =>
    obtain ⟨env, msg⟩ := input
    obtain ⟨whole, short⟩ := messages (env, msg) mem_cons_self
    have enough := ample (env, msg) mem_cons_self
    obtain ⟨s1, out, changed, ran, means, sound1, flags, log⟩ := finds.1.step sound recording.slaveMode enough whole
    have served : serve A s (env, msg) = some (s1, out) := ran
    have room := finds.1.roomy sound.valid recording.slaveMode
    obtain ⟨s', replies, added, later, sound', log', wholes, agrees⟩ := ih sound1 (recording.of_flags flags)
      (fun i member => ample i (mem_cons_of_mem _ member)) (fun i member => messages i (mem_cons_of_mem _ member))
      (finds.2 s1 out served)
    have whole_run : run (serve A) s ((env, msg) :: inputs) = some (s', out :: replies) := by
      rw [run_cons_of_step _ served, later]
      rfl
    cases changed with
    | false =>
      rw [Server.logged_false, append_nil] at log
      refine ⟨s', out :: replies, added, whole_run, sound', by rw [log', log], wholes, fun n t soundT master meets => ?_⟩
      obtain ⟨n', t', folded, soundT', agree⟩ := agrees n t soundT master meets
      refine ⟨n', t', folded, soundT', fun cell settled soon => agree cell settled.tail ?_⟩
      exact soon.skip settled means room
    | true =>
      rw [recording.logged whole.ne_nil short] at log
      refine ⟨s', out :: replies, msg :: added, whole_run, sound', by rw [log', log, append_assoc]; rfl, ?_, ?_⟩
      · intro c member
        rcases mem_cons.mp member with rfl | member
        · exact whole
        · exact wholes c member
      · intro n t soundT master meets
        obtain ⟨t1, out', changed', ran', means', sound1', flags', _⟩ := meets.1.step soundT master (ample' n) whole
        have loaded : loadCommand A envs (n, t) msg = some (n + 1, t1) := by
          simp [loadCommand, ran']
        have master1 : t1.slaveMode = false := (congrArg (fun f => f.2.2.2.1) flags').trans master
        obtain ⟨n', t', folded, soundT', agree⟩ := agrees (n + 1) t1 sound1' master1
          (meets.2 (n + 1, t1) () (by rw [reload, loaded, map_some]))
        refine ⟨n', t', ?_, soundT', fun cell settled soon => agree cell settled.tail ?_⟩
        · rw [foldlM_cons, loaded]
          exact folded
        · exact soon.step settled means room means' (meets.1.roomy soundT.valid master)

end Run

section Get

variable {F : Type}

def Server.get (s : Server F) (family : Family) (k : CString) (now : Int) : Option KvRet :=
  (s.call (ampleEnv now) family ⟨.get k, now, 1⟩).map Prod.snd

variable {s : Server F} {family : Family} {k : CString}

theorem Rbtree.slipFree_get {T : KvsRbtree} {t : RedBlack.ColorTree (Cell CString CharPtr)} (valid : Valid T t)
    (lasts : ∀ x, rbtreeLookup T k = some x → x.expireMs = -1) (now : Int) (level : Nat) : SlipFree T ⟨.get k, now, level⟩ := by
  rintro a ⟨search, real, n, live, expired⟩
  rw [rbtreeLookup_eq valid] at lasts
  rcases find_cases valid k with ⟨z, n', _, rfl, found, _, live', _, expire, entry⟩ | ⟨found, _⟩
  · rw [search] at found
    cases found
    rw [live] at live'
    cases live'
    rw [expire, show z.expireMs = -1 from lasts _ entry] at expired
    exact absurd expired (KvMap.not_expired_forever now)
  · rw [search] at found
    exact absurd (some.inj found) real

theorem Server.get_of_admits (valid : s.Valid) (lasts : s.db.LastsAt (family, k)) {now : Int}
    (admits : s.Admits family ⟨.get k, now, 1⟩) : s.get family k now = some (.value ((s.contents family k).elim .null Entry.value)) := by
  obtain ⟨s', ret, ran, _, _, _, agree⟩ :=
    call_spec valid (ampleEnv_ample now).engine family (c := ⟨.get k, now, 1⟩) nofun admits
  have result : ret = .value ((s.contents family k).elim .null Entry.value) := by
    have step : (s.contents family).step family.policy ⟨.get k, now, 1⟩ = (s.contents family).plainStep (.get k) := by
      apply KvMap.step_plain
      · intro k' x named found
        cases named
        exact lasts x found
      · trivial
    rw [step] at agree
    exact agree
  rw [get, ran, result, map_some]

theorem Server.get_congr {t : Server F} (valid : s.Valid) (valid' : t.Valid) (agree : Agree (family, k) s.db t.db) (now : Int) :
    t.get family k now = s.get family k now := by
  have lasts' : t.db.LastsAt (family, k) := fun x found => agree.lasts x (agree.same ▸ found)
  have same : t.contents family k = s.contents family k := agree.same
  have level : 1 ≤ skiplistMaxLevel := by decide
  cases family with
  | array => rw [get_of_admits valid agree.lasts trivial, get_of_admits valid' lasts' trivial, same]
  | rbtree =>
    obtain ⟨_, tree⟩ := valid.rbtree
    obtain ⟨_, tree'⟩ := valid'.rbtree
    rw [get_of_admits valid agree.lasts (slipFree_get tree agree.lasts now 1),
      get_of_admits valid' lasts' (slipFree_get tree' lasts' now 1), same]
  | hash =>
    cases index : hashIndex k with
    | none => simp [get, call, Engine.call, hashEngine, kvsHashGet, index]
    | some idx =>
      have indexed : HashIndexed ⟨.get k, now, 1⟩ := fun k' named => by
        cases named
        rw [index]
        rfl
      rw [get_of_admits valid agree.lasts indexed, get_of_admits valid' lasts' indexed, same]
  | skiplist => rw [get_of_admits valid agree.lasts level, get_of_admits valid' lasts' level, same]

end Get

section Restart

variable {F : Type} [LinearOrder F] {A : FloatText F}

/-- After a replay every key reads, at every time, as without the restart if each of its `EXPIRE` and `SETEX` was followed by a
    `SET`. -/
theorem replay_keeps_get {s s' : Server F} (fresh : s.Fresh) (recording : s.Recording) (clean : s.log = [])
    {inputs : List (Env × Bytes)} (ample : ∀ input ∈ inputs, input.1.Ample)
    (messages : ∀ input ∈ inputs, Resp.Exact input.2 ∧ input.2.length < 2 ^ 31)
    (finds : Machine.Meets (serve A) (fun s input => s.Finds input.1 input.2) s inputs) {replies : List Reply}
    (ran : Machine.run (serve A) s inputs = some (s', replies)) {t : Server F} (freshT : t.Fresh) (master : t.slaveMode = false)
    {envs : Nat → Env} (ample' : ∀ n, (envs n).Ample)
    (finds' : Machine.Meets (reload A envs) (fun t msg => t.2.Finds (envs t.1) msg) (0, { t with loading := true }) s'.log) :
    ∃ t', aofLoadFile A envs true t s'.log.flatten = some (t', 0) ∧
      ∀ family k, Settled (family, k) (inputs.map Prod.snd) → ∀ now, t'.get family k now = s'.get family k now := by
  obtain ⟨s1, replies1, added, ran1, sound, log, wholes, agrees⟩ := run_agrees ample' (fresh.sound A) recording ample messages finds
  rw [ran] at ran1
  cases ran1
  rw [clean, nil_append] at log
  subst log
  have empty : Server.Fresh { t with loading := true } :=
    ⟨freshT.array, freshT.rbtree, freshT.hash, freshT.skiplist, freshT.vector⟩
  obtain ⟨n, t1, folded, sound1, agree⟩ := agrees 0 { t with loading := true } (empty.sound A) master finds'
  obtain ⟨flag, loaded⟩ := aofLoadFile_log A wholes folded
  have valid : Server.Valid { t1 with loading := flag } :=
    ⟨sound1.valid.array, sound1.valid.rbtree, sound1.valid.hash, sound1.valid.skiplist, sound1.valid.textual⟩
  refine ⟨_, loaded, fun family k settled now => Server.get_congr sound.valid valid ?_ now⟩
  apply agree _ settled
  have same : Server.db { t with loading := true } = s.db := fresh.db empty
  refine .inl ⟨fun x found => fresh.lasting family k x found, ?_⟩
  rw [same]

def setexShort : Bytes := Resp.encode [ascii "SETEX", [97], [118], [49]]

/-- The key is given one second at time 0, and another second by the replay at time 500: at time 1200 it is still there. -/
theorem replay_prolongs_expiry :
    ∃ s' replies t', Machine.run (serve wholeText) freshServer [(ampleEnv 0, setexShort)] = some (s', replies) ∧
      aofLoadFile wholeText (fun _ => ampleEnv 500) true freshServer s'.log.flatten = some (t', 0) ∧
      s'.get .array (.ofBytes [97]) 1200 = some (.value .null) ∧
      t'.get .array (.ofBytes [97]) 1200 = some (.value (.str (.ofBytes [118]))) := by
  have live : ((run (serve wholeText) freshServer [(ampleEnv 0, setexShort)]).map fun r =>
      (r.1.get .array (.ofBytes [97]) 1200, r.1.log)) = some (some (.value .null), [setexShort]) := by
    decide +kernel
  have replay : ((aofLoadFile wholeText (fun _ => ampleEnv 500) true freshServer [setexShort].flatten).map fun r =>
      (r.1.get .array (.ofBytes [97]) 1200, r.2)) = some (some (.value (.str (.ofBytes [118]))), 0) := by
    decide +kernel
  obtain ⟨⟨s', replies⟩, ran, same⟩ := map_eq_some_iff.mp live
  obtain ⟨⟨t', ret⟩, loaded, same'⟩ := map_eq_some_iff.mp replay
  obtain ⟨gone, log⟩ := Prod.mk.inj same
  obtain ⟨found, rfl⟩ := Prod.mk.inj same'
  exact ⟨s', replies, t', ran, by rw [show s'.log = [setexShort] from log]; exact loaded, gone, found⟩

def setLater : Bytes := Resp.encode [ascii "SET", [97], [119]]

variable {msg : Bytes}

omit [LinearOrder F] in
theorem Server.Finds.of_array {s : Server F} {env : Env} {verb : Verb} {key : CString}
    (names : target msg = some (verb, .array, key)) (master : s.slaveMode = false) (room : s.array.length < kvsArraySize) :
    s.Finds env msg := by
  intro args parse family verb' op check own
  rw [Server.readonly_master master] at check
  simp only [target, parse, check] at names
  split at names
  · rename_i same
    cases names
    cases same
    show ArrayRoom s.array ⟨op, env.now, env.level⟩
    cases op <;> first | exact room | trivial
  · cases names

theorem setexShort_target : target setexShort = some (.setex, .array, .ofBytes [97]) := by decide +kernel

theorem setLater_target : target setLater = some (.set, .array, .ofBytes [97]) := by decide +kernel

theorem settled_set_later : Settled (.array, .ofBytes [97]) [setexShort, setLater] := by
  intro before msg after split times
  rcases before with _ | ⟨first, _ | ⟨second, rest⟩⟩
  · cases split
    exact ⟨setLater, by simp, setLater_target⟩
  · cases split
    rcases times with isExpire | isSetex
    · rw [setLater_target] at isExpire
      cases isExpire
    · rw [setLater_target] at isSetex
      cases isSetex
  · have size := congrArg List.length split
    simp at size

def setexThenSet : List (Env × Bytes) := [(ampleEnv 0, setexShort), (ampleEnv 10, setLater)]

theorem setexThenSet_exact : ∀ msg ∈ [setexShort, setLater], Exact msg ∧ msg.length < 2 ^ 31 := by
  intro msg member
  simp only [mem_cons, not_mem_nil, or_false] at member
  rcases member with rfl | rfl
  · exact ⟨exact_encode (by decide) (by decide), by decide +kernel⟩
  · exact ⟨exact_encode (by decide) (by decide), by decide +kernel⟩

theorem setexThenSet_finds (member : msg ∈ [setexShort, setLater]) {t : Server Int} {env : Env}
    (room : (decide (t.array.length < kvsArraySize) && !t.slaveMode) = true) : t.Finds env msg := by
  simp only [Bool.and_eq_true, decide_eq_true_eq, Bool.not_eq_true'] at room
  simp only [mem_cons, not_mem_nil, or_false] at member
  rcases member with rfl | rfl
  · exact .of_array setexShort_target room.2 room.1
  · exact .of_array setLater_target room.2 room.1

theorem setexThenSet_meets : Meets (serve wholeText) (fun s input => s.Finds input.1 input.2) freshServer setexThenSet := by
  have rooms : ∀ js ∈ setexThenSet.inits, (run (serve wholeText) freshServer js).all (fun r =>
      decide (r.1.array.length < kvsArraySize) && !r.1.slaveMode) = true := by
    decide +kernel
  apply Meets.of_runs
  intro js i ks t os split ran
  have room := rooms js (by rw [mem_inits, split]; exact prefix_append js _)
  rw [ran] at room
  have member : i ∈ setexThenSet := by simp [split]
  exact setexThenSet_finds (mem_map_of_mem (f := Prod.snd) member) room

theorem setexThenSet_reload_meets :
    Meets (reload wholeText fun _ => ampleEnv 500) (fun t msg => t.2.Finds (ampleEnv 500) msg)
      (0, { freshServer with loading := true }) [setexShort, setLater] := by
  have rooms : ∀ js ∈ [setexShort, setLater].inits,
      (run (reload wholeText fun _ => ampleEnv 500) (0, { freshServer with loading := true }) js).all (fun r =>
        decide (r.1.2.array.length < kvsArraySize) && !r.1.2.slaveMode) = true := by
    decide +kernel
  apply Meets.of_runs
  intro js i ks t os split ran
  have room := rooms js (by rw [mem_inits, split]; exact prefix_append js _)
  rw [ran] at room
  exact setexThenSet_finds (by simp [split]) room

theorem replay_keeps_get_set_later :
    ∃ s' replies t', Machine.run (serve wholeText) freshServer setexThenSet = some (s', replies) ∧
      aofLoadFile wholeText (fun _ => ampleEnv 500) true freshServer s'.log.flatten = some (t', 0) ∧
      Settled (.array, .ofBytes [97]) (setexThenSet.map Prod.snd) ∧
      ∀ now, t'.get .array (.ofBytes [97]) now = s'.get .array (.ofBytes [97]) now := by
  have live : ((run (serve wholeText) freshServer setexThenSet).map fun r => r.1.log) = some [setexShort, setLater] := by
    decide +kernel
  obtain ⟨⟨s', replies⟩, ran, log⟩ := map_eq_some_iff.mp live
  have log : s'.log = [setexShort, setLater] := log
  have ample : ∀ input ∈ setexThenSet, input.1.Ample := by
    intro input member
    simp only [setexThenSet, mem_cons, not_mem_nil, or_false] at member
    rcases member with rfl | rfl
    · exact ampleEnv_ample 0
    · exact ampleEnv_ample 10
  have finds' : Meets (reload wholeText fun _ => ampleEnv 500) (fun t msg => t.2.Finds (ampleEnv 500) msg)
      (0, { freshServer with loading := true }) s'.log := by
    rw [log]
    exact setexThenSet_reload_meets
  obtain ⟨t', loaded, gets⟩ := replay_keeps_get freshServer_fresh ⟨rfl, rfl, rfl, rfl⟩ rfl ample
    (fun input member => setexThenSet_exact _ (mem_map_of_mem member)) setexThenSet_meets ran freshServer_fresh rfl
    (fun _ => ampleEnv_ample 500) finds'
  exact ⟨s', replies, t', ran, loaded, settled_set_later, gets .array _ settled_set_later⟩

end Restart

end AICacheDB
