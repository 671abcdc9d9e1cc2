import AICacheDB.Command.Lasting
import AICacheDB.Resp.Reply

open CLib List Option

namespace AICacheDB

open Resp

section Sizes

theorem snprintfLength_short {text : Bytes} (short : text.length < 2 ^ 31) : snprintfLength text = text.length := if_pos short

variable {first : Bytes} {pieces : List Bytes}

theorem addedLength_short (short : (first ++ pieces.flatten).length < 2 ^ 31) :
    addedLength first pieces = (first ++ pieces.flatten).length := by
  have added : ∀ (pieces : List Bytes) (n : Nat), n + pieces.flatten.length < 2 ^ 31 →
      pieces.foldl (fun length piece => wrap32 (length + snprintfLength piece)) (n : Int) = (n + pieces.flatten.length : Nat) := by
    intro pieces
    induction pieces with
    | nil => exact fun n _ => rfl
    | cons piece pieces ih =>
      intro n small
      rw [flatten_cons, length_append] at small
      rw [foldl_cons, snprintfLength_short (by omega), wrap32_of_range (by omega) (by omega), ← Nat.cast_add, ih _ (by omega),
        flatten_cons, length_append, Nat.add_assoc]
  rw [length_append] at short
  rw [addedLength, snprintfLength_short (by omega), added pieces first.length short, length_append]

theorem requested_short {n : Nat} (short : n + 1 < 2 ^ 31) : requested n = n + 1 := by
  unfold requested
  rw [wrap32_of_range (by omega) (by omega)]
  omega

theorem requested_lt {length : Int} (given : requested length < 2 ^ 63) : requested length < 2 ^ 31 := by
  unfold requested at given ⊢
  have range := wrap32_range (length + 1)
  omega

theorem measured_fits_iff (given : requested (addedLength first pieces) < 2 ^ 63) :
    (first ++ pieces.flatten).length < requested (addedLength first pieces) ↔ (first ++ pieces.flatten).length + 1 < 2 ^ 31 := by
  constructor
  · intro fits
    have small := requested_lt given
    omega
  · intro short
    rw [addedLength_short (by omega), requested_short short]
    exact Nat.lt_succ_self _

end Sizes

structure Safe (size : Nat) (bytes : Bytes) : Prop where
  fits : bytes.length < size
  short : bytes.length + 1 < 2 ^ 31
  reply : Resp.IsReply bytes

def Reply.Safe : Reply → Prop
  | .text size bytes => AICacheDB.Safe size bytes
  | _ => False

theorem fitted_safe {text : Bytes} (short : text.length + 1 < 2 ^ 31) (reply : IsReply text) : (fitted text).Safe := by
  refine ⟨?_, short, reply⟩
  rw [snprintfLength_short (by omega), requested_short short]
  exact Nat.lt_succ_self _

section Constant

theorem internalError_safe : internalError.Safe := ⟨by decide, by decide, .error (ascii "ERR internal error") (by decide)⟩

theorem okReply_safe : okReply.Safe := ⟨by decide, by decide, .simple (ascii "OK") (by decide)⟩

theorem wrongNumber_safe : (wrongNumber 36).Safe := ⟨by decide, by decide, .error (ascii "ERR wrong number of arguments") (by decide)⟩

theorem number_safe {i : Int} (small : i.natAbs < 10 ^ 20) : (fitted (ascii ":" ++ decimalInt i ++ ascii "\r\n")).Safe := by
  have digits : (decimalInt i).length ≤ 21 := by
    have size := decimal_length_le small (by decide)
    unfold decimalInt
    split
    · rw [length_cons]
      omega
    · omega
  apply fitted_safe _ (.integer i)
  rw [length_append, length_append]
  have mark : (ascii ":").length = 1 := rfl
  have ends : (ascii "\r\n").length = 2 := rfl
  omega

theorem Verb.reply_safe {verb : Verb} {ret : KvRet} {out : Reply} (replied : verb.reply ret = some out) :
    out.Safe ∨ verb = .get ∧ ∃ v, ret = .value (.str v) ∧ out = fitted (bulk v.bytes) := by
  have one : (Reply.text 6 (ascii ":1\r\n")).Safe := ⟨by decide, by decide, .integer 1⟩
  have zero : (Reply.text 6 (ascii ":0\r\n")).Safe := ⟨by decide, by decide, .integer 0⟩
  have never : (Reply.text 6 (ascii ":-1\r\n")).Safe := by
    have text : ascii ":" ++ decimalInt (-1) ++ ascii "\r\n" = ascii ":-1\r\n" := by decide +kernel
    exact ⟨by decide, by decide, text ▸ .integer (-1)⟩
  have missing : (Reply.text 6 (ascii ":-2\r\n")).Safe := by
    have text : ascii ":" ++ decimalInt (-2) ++ ascii "\r\n" = ascii ":-2\r\n" := by decide +kernel
    exact ⟨by decide, by decide, text ▸ .integer (-2)⟩
  have absent : (Reply.text 20 (ascii "-ERR no such key\r\n")).Safe := ⟨by decide, by decide, .error (ascii "ERR no such key") (by decide)⟩
  have null : (Reply.text 6 (ascii "$-1\r\n")).Safe := ⟨by decide, by decide, .null⟩
  have seconds : ∀ left : Int, (fitted (ascii ":" ++ decimalInt (Int.tdiv (wrap64 (left + 999)) 1000) ++ ascii "\r\n")).Safe := by
    intro left
    have range : (wrap64 (left + 999)).natAbs < 10 ^ 20 := by
      unfold wrap64
      omega
    apply number_safe
    rw [Int.natAbs_tdiv]
    exact (Nat.div_le_self _ _).trans_lt range
  unfold Verb.reply at replied
  split at replied
  · cases replied
    left
    split
    · exact internalError_safe
    · exact okReply_safe
  · cases replied
    left
    split
    · exact internalError_safe
    · exact okReply_safe
  · cases replied
    exact .inl null
  · rename_i v
    cases replied
    exact .inr ⟨rfl, v, rfl, rfl⟩
  all_goals try cases replied
  all_goals left
  · split_ifs
    · exact internalError_safe
    · exact one
    · exact zero
  · split_ifs
    · exact internalError_safe
    · exact okReply_safe
    · exact absent
  · split_ifs
    · exact one
    · exact zero
  · split_ifs
    · exact one
    · exact zero
    · exact internalError_safe
  · split_ifs
    · exact missing
    · exact never
    · exact seconds _

end Constant

section Quotes

variable {F : Type} [LT F] [LE F] [DecidableLT F] [DecidableLE F] (A : FloatText F)

inductive Quotes (env : Env) (s : Server F) : List CString → List Bytes → Prop where
  | name {name : CString} {args : List CString} (unknown : findCommand name = none) : Quotes env s (name :: args) [unknownCommand name]
  | value {name key : CString} {family : Family} {s' : Server F} {v : CString} (found : findCommand name = some (.kv family .get))
      (read : s.call env family ⟨.get key, env.now, env.level⟩ = some (s', .value (.str v))) : Quotes env s [name, key] [Resp.bulk v.bytes]
  | entry {name key : CString} {e : VectorEntry F} (found : findCommand name = some .vget)
      (read : kvsVectorGetByKey s.vector key = some (some e)) :
      Quotes env s [name, key] [ascii "*2\r\n" ++ Resp.bulk e.question.bytes ++ Resp.bulk e.answer.bytes]
  | nearest {name dim str threshold : CString} {r : VectorSearchResult F} (found : findCommand name = some .vget) (positive : ¬ atoi dim ≤ 0)
      (read : kvsVectorGetByVector A.toFloatOps env.vector s.vector (atoi dim) str (A.atof threshold.bytes) = some (1, some r)) :
      Quotes env s [name, dim, str, threshold] [triple A r]
  | results {name dim str topk threshold : CString} {ret : Int} {results : List (VectorSearchResult F)}
      (found : findCommand name = some .vsearch) (positive : ¬ (atoi dim ≤ 0 ∨ atoi topk ≤ 0))
      (read : kvsVectorSearch A.toFloatOps env.vector s.vector (atoi dim) str (atoi topk) (A.atof threshold.bytes) = some (ret, results))
      (done : ¬ ret < 0) :
      Quotes env s [name, dim, str, topk, threshold] (searchHeader results :: results.map (triple A))

def Formed (env : Env) (s : Server F) (argv : List CString) (out : Reply) : Prop :=
  out.Safe ∨ (∃ name, argv = [name] ∧ findCommand name = some .ping ∧ out = pong) ∨
    ∃ first pieces, Quotes A env s argv (first :: pieces) ∧ out = .text (requested (addedLength first pieces)) (first ++ pieces.flatten)

variable {A} {env : Env} {s s' : Server F} {argv : List CString} {raw : Bytes} {out : Reply}

theorem formed_of_one {text : Bytes} (quotes : Quotes A env s argv [text]) : Formed A env s argv (fitted text) := by
  refine .inr (.inr ⟨text, [], quotes, ?_⟩)
  rw [flatten_nil, append_nil]
  rfl

variable {readonly : Bool} {pieces : List Bytes}

theorem checkCommand_formed (check : checkCommand readonly argv = .error out) : Formed A env s argv out := by
  have wrong : (fitted (ascii "-ERR wrong number of arguments\r\n")).Safe :=
    fitted_safe (by decide) (.error (ascii "ERR wrong number of arguments") (by decide))
  unfold checkCommand at check
  split at check
  · cases check
    exact .inl wrong
  · rename_i name args
    split at check
    · rename_i unknown
      cases check
      exact formed_of_one (.name unknown)
    · rename_i cmd found
      by_cases count : commandArgcOk cmd (name :: args).length
      · rw [if_neg (not_not_intro count)] at check
        split_ifs at check
        cases check
        exact .inl (fitted_safe (by decide) (.error (ascii "READONLY") (by decide)))
      · rw [if_pos count] at check
        cases check
        exact .inl wrong

theorem executeVset_safe {alloc : VectorAlloc} {vector vector' : KvsVector F} {ret : Int}
    (ran : executeVset A alloc vector argv = some (vector', ret, out)) : out.Safe := by
  unfold executeVset at ran
  split at ran
  · split_ifs at ran
    · cases ran
      exact ⟨by decide, by decide, .error (ascii "ERR invalid dim") (by decide)⟩
    · simp only [bind_eq_bind, bind_eq_some_iff] at ran
      obtain ⟨⟨vector1, ret1⟩, _, ran⟩ := ran
      dsimp only at ran
      split_ifs at ran
      · cases ran
        exact ⟨by decide, by decide, .error (ascii "ERR vector set failed") (by decide)⟩
      · cases ran
        exact okReply_safe
  · cases ran
    exact wrongNumber_safe

variable {name : CString} {args : List CString}

theorem executeVget_formed (found : findCommand name = some .vget)
    (ran : executeVget A env.vector s.vector (name :: args) = some out) : Formed A env s (name :: args) out := by
  have empty : (Reply.text 5 (ascii "*0\r\n")).Safe := ⟨by decide, by decide, .array [] (fun _ member => nomatch member)⟩
  unfold executeVget at ran
  split at ran
  · rename_i same
    cases same
    simp only [bind_eq_bind, bind_eq_some_iff] at ran
    obtain ⟨entry, read, ran⟩ := ran
    cases entry with
    | none =>
      cases ran
      exact .inl empty
    | some e =>
      cases ran
      exact formed_of_one (.entry found read)
  · rename_i dim str threshold same
    cases same
    split_ifs at ran with negative
    · cases ran
      exact .inl ⟨by decide, by decide, .error (ascii "ERR invalid dim") (by decide)⟩
    · simp only [bind_eq_bind, bind_eq_some_iff] at ran
      obtain ⟨⟨ret, result⟩, read, ran⟩ := ran
      dsimp only at ran
      split at ran
      · cases ran
        exact formed_of_one (.nearest found negative read)
      · cases ran
        exact .inl empty
      · cases ran
        exact .inl ⟨by decide, by decide, .error (ascii "ERR vector get failed") (by decide)⟩
  · cases ran
    exact .inl wrongNumber_safe

theorem executeVsearch_formed (found : findCommand name = some .vsearch)
    (ran : executeVsearch A env.vector s.vector (name :: args) = some out) : Formed A env s (name :: args) out := by
  unfold executeVsearch at ran
  split at ran
  · rename_i dim str topk threshold same
    cases same
    split_ifs at ran with negative
    · cases ran
      exact .inl (fitted_safe (by decide) (.error (ascii "ERR invalid vector search args") (by decide)))
    · simp only [bind_eq_bind, bind_eq_some_iff] at ran
      obtain ⟨⟨ret, results⟩, read, ran⟩ := ran
      dsimp only at ran
      split_ifs at ran with failed
      · cases ran
        exact .inl ⟨by decide, by decide, .error (ascii "ERR vector search failed") (by decide)⟩
      · cases ran
        refine .inr (.inr ⟨_, _, .results found negative read failed, ?_⟩)
        rw [flatMap_def]
  · cases ran

omit [LT F] [LE F] [DecidableLT F] [DecidableLE F] in
theorem answer_given (memory : env.reply = true) (out : Reply) : answer env s out = (s, out) := by
  rw [answer, if_pos memory]

theorem executeKv_formed {family : Family} {verb : Verb} (memory : env.reply = true)
    (found : findCommand name = some (.kv family verb)) (ran : executeKv env s family verb (name :: args) raw = some (s', out)) :
    Formed A env s (name :: args) out := by
  unfold executeKv at ran
  simp only [bind_eq_bind, bind_eq_some_iff, finish, answer_given memory, some.injEq, Prod.mk.injEq] at ran
  obtain ⟨op, own, ⟨s1, ret⟩, call, reply, replied, _, rfl⟩ := ran
  rcases Verb.reply_safe replied with safe | ⟨rfl, v, rfl, rfl⟩
  · exact .inl safe
  · match args, own with
    | [key], own =>
      cases own
      exact formed_of_one (.value found call)

theorem execute_formed (memory : env.reply = true) (ran : kvsExecuteCommand A env s argv raw = some (s', out)) :
    out = .none ∧ (checkCommand s.readonly argv = .ok .sync ∨ checkCommand s.readonly argv = .ok .finsync) ∨ Formed A env s argv out := by
  unfold kvsExecuteCommand at ran
  cases check : checkCommand s.readonly argv with
  | error out =>
    simp only [check, answer_given memory, some.injEq, Prod.mk.injEq] at ran
    obtain ⟨_, rfl⟩ := ran
    exact .inr (checkCommand_formed check)
  | ok cmd =>
    obtain ⟨name, args, rfl, found, count, _⟩ := checkCommand_ok check
    simp only [check, finish, answer_given memory] at ran
    cases cmd with
    | kv family verb => exact .inr (executeKv_formed memory found ran)
    | bgsave =>
      cases ran
      right
      unfold bgsaveReply
      split_ifs
      · exact .inl ⟨by decide, by decide, .error (ascii "ERR bgsave failed") (by decide)⟩
      · exact .inl okReply_safe
    | sync =>
      cases ran
      exact .inl ⟨rfl, .inl rfl⟩
    | finsync =>
      cases ran
      exact .inl ⟨rfl, .inr rfl⟩
    | vset =>
      simp only [bind_eq_bind, bind_eq_some_iff, some.injEq, Prod.mk.injEq] at ran
      obtain ⟨⟨vector, ret, reply⟩, set, _, rfl⟩ := ran
      exact .inr (.inl (executeVset_safe set))
    | vget =>
      simp only [map_eq_some_iff, answer_given memory, Prod.mk.injEq] at ran
      obtain ⟨reply, get, _, rfl⟩ := ran
      exact .inr (executeVget_formed found get)
    | vsearch =>
      simp only [map_eq_some_iff, answer_given memory, Prod.mk.injEq] at ran
      obtain ⟨reply, search, _, rfl⟩ := ran
      exact .inr (executeVsearch_formed found search)
    | ping =>
      cases ran
      have alone : args = [] := eq_nil_of_length_eq_zero (Nat.le_zero.mp (Nat.le_of_succ_le_succ count.2))
      rw [alone]
      exact .inr (.inr (.inl ⟨name, rfl, found, rfl⟩))

theorem checkCommand_read {cmd : Cmd} (found : findCommand name = some cmd)
    (count : commandArgcOk cmd (args.length + 1)) (read : cmd.meta.isWrite = false) : checkCommand readonly (name :: args) = .ok cmd := by
  unfold checkCommand
  simp only [found, length_cons, count, read, not_true, if_false, Bool.false_eq_true, and_false]

theorem Quotes.executes {first : Bytes} (quotes : Quotes A env s argv (first :: pieces)) (memory : env.reply = true)
    (raw : Bytes) :
    ∃ s', kvsExecuteCommand A env s argv raw = some (s', .text (requested (addedLength first pieces)) (first ++ pieces.flatten)) := by
  have one : ∀ text : Bytes, Reply.text (requested (addedLength text [])) (text ++ [].flatten) = fitted text := by
    intro text
    rw [flatten_nil, append_nil]
    rfl
  cases quotes with
  | @name name args unknown =>
    rw [one]
    refine ⟨s, ?_⟩
    unfold kvsExecuteCommand checkCommand
    simp only [unknown, answer_given memory]
  | @value name key family s1 v found read =>
    rw [one]
    have check : checkCommand s.readonly [name, key] = .ok (.kv family .get) := checkCommand_read found ⟨le_rfl, le_rfl⟩ rfl
    refine ⟨(finish env s1 (.kv family .get) (-1) (fitted (bulk v.bytes)) raw).1, ?_⟩
    unfold kvsExecuteCommand
    simp only [check, executeKv, Verb.op, read, Verb.reply, bind_eq_bind, bind_some, finish, answer_given memory]
    rfl
  | @entry name key e found read =>
    rw [one]
    have check : checkCommand s.readonly [name, key] = .ok .vget := checkCommand_read found ⟨le_rfl, Nat.le_of_ble_eq_true rfl⟩ rfl
    refine ⟨s, ?_⟩
    unfold kvsExecuteCommand
    simp [check, executeVget, read, answer_given memory]
  | @nearest name dim str threshold r found positive read =>
    rw [one]
    have check : checkCommand s.readonly [name, dim, str, threshold] = .ok .vget := checkCommand_read found ⟨Nat.le_of_ble_eq_true rfl, le_rfl⟩ rfl
    refine ⟨s, ?_⟩
    unfold kvsExecuteCommand
    simp [check, executeVget, positive, read, answer_given memory]
  | @results name dim str topk threshold ret results found positive read done =>
    have check : checkCommand s.readonly [name, dim, str, topk, threshold] = .ok .vsearch :=
      checkCommand_read found ⟨le_rfl, le_rfl⟩ rfl
    refine ⟨s, ?_⟩
    unfold kvsExecuteCommand
    simp [check, executeVsearch, positive, read, done, answer_given memory, flatMap_def]

theorem execute_ping (found : findCommand name = some .ping) (memory : env.reply = true) (raw : Bytes) :
    kvsExecuteCommand A env s [name] raw = some (s, pong) := by
  have check : checkCommand s.readonly [name] = .ok .ping := checkCommand_read found ⟨le_rfl, le_rfl⟩ rfl
  unfold kvsExecuteCommand
  simp only [check, answer_given memory]

/-- A reply has its room in the requested buffer, but for `PING` and one so long that an `int` leaves no room for the NUL. -/
theorem replies_fit_iff {size : Nat} {bytes : Bytes} (memory : env.reply = true) (given : size < 2 ^ 63)
    (ran : kvsExecuteCommand A env s argv raw = some (s', .text size bytes)) :
    bytes.length + 1 ≤ size ↔ (∀ name, argv = [name] → findCommand name ≠ some .ping) ∧
      ∀ pieces, Quotes A env s argv pieces → pieces.flatten.length + 1 < 2 ^ 31 := by
  constructor
  · intro fits
    constructor
    · rintro name rfl found
      rw [execute_ping found memory, pong] at ran
      cases ran
      exact absurd fits (by decide)
    · intro pieces quotes
      cases pieces with
      | nil => cases quotes
      | cons first pieces =>
        obtain ⟨s1, same⟩ := quotes.executes memory raw
        rw [ran] at same
        cases same
        exact (measured_fits_iff given).mp fits
  · rintro ⟨other, short⟩
    rcases execute_formed memory ran with ⟨none_, _⟩ | safe | ⟨name, alone, found, _⟩ | ⟨first, pieces, quotes, same⟩
    · cases none_
    · exact safe.fits
    · exact absurd found (other name alone)
    · cases same
      exact (measured_fits_iff given).mpr (short _ quotes)

omit [LT F] [LE F] [DecidableLT F] [DecidableLE F] in
theorem triple_isReply (r : VectorSearchResult F) : IsReply (triple A r) := by
  have each : ∀ part ∈ [bulk r.question.bytes, bulk r.answer.bytes, bulk (scoreText A r.score)], IsReply part := by
    simp only [mem_cons, not_mem_nil, or_false]
    rintro part (rfl | rfl | rfl) <;> exact .bulk _
  have reply := IsReply.array _ each
  have header : ascii "*" ++ decimal 3 ++ ascii "\r\n" = ascii "*3\r\n" := rfl
  simp only [length_cons, length_nil, Nat.zero_add, Nat.reduceAdd, header, flatten_cons, flatten_nil, append_nil,
    ← append_assoc] at reply
  exact reply

def unknownLine (name : CString) : Bytes := ascii "ERR unknown command '" ++ name.bytes ++ ascii "'"

theorem unknownCommand_eq (name : CString) : unknownCommand name = ascii "-" ++ unknownLine name ++ ascii "\r\n" := by
  have head : ascii "-ERR unknown command '" = ascii "-" ++ ascii "ERR unknown command '" := rfl
  have tail : ascii "'\r\n" = ascii "'" ++ ascii "\r\n" := rfl
  rw [unknownCommand, unknownLine, head, tail]
  simp

theorem unknownLine_plain_iff (name : CString) : Resp.Plain (unknownLine name) ↔ Resp.Plain name.bytes := by
  have head : Resp.Plain (ascii "ERR unknown command '") := by decide
  have tail : Resp.Plain (ascii "'") := by decide
  simp [Resp.Plain, unknownLine, head.1, head.2, tail.1, tail.2]

theorem known_plain {cmd : Cmd} (found : findCommand name = some cmd) :
    ∀ name' args', name :: args = name' :: args' → findCommand name' = none → Resp.Plain name'.bytes := by
  rintro _ _ ⟨rfl, rfl⟩ unknown
  rw [found] at unknown
  cases unknown

theorem Quotes.isReply_iff (quotes : Quotes A env s argv pieces) :
    Resp.IsReply pieces.flatten ↔ ∀ name args, argv = name :: args → findCommand name = none → Resp.Plain name.bytes := by
  cases quotes with
  | @name name args unknown =>
    rw [flatten_cons, flatten_nil, append_nil, unknownCommand_eq]
    constructor
    · rintro reply _ _ ⟨rfl, rfl⟩ _
      exact (unknownLine_plain_iff name).mp reply.plain_of_error
    · intro plain
      exact .error _ ((unknownLine_plain_iff name).mpr (plain name args rfl unknown))
  | @value name key family s1 v found read =>
    rw [flatten_cons, flatten_nil, append_nil]
    exact iff_of_true (.bulk _) (known_plain found)
  | @entry name key e found read =>
    have each : ∀ part ∈ [bulk e.question.bytes, bulk e.answer.bytes], IsReply part := by
      simp only [mem_cons, not_mem_nil, or_false]
      rintro part (rfl | rfl) <;> exact .bulk _
    have reply := IsReply.array _ each
    have header : ascii "*" ++ decimal 2 ++ ascii "\r\n" = ascii "*2\r\n" := rfl
    simp only [length_cons, length_nil, Nat.zero_add, Nat.reduceAdd, header, flatten_cons, flatten_nil, append_nil,
      ← append_assoc] at reply
    rw [flatten_cons, flatten_nil, append_nil]
    exact iff_of_true reply (known_plain found)
  | @nearest name dim str threshold r found positive read =>
    rw [flatten_cons, flatten_nil, append_nil]
    exact iff_of_true (triple_isReply r) (known_plain found)
  | @results name dim str topk threshold ret results found positive read done =>
    have each : ∀ part ∈ results.map (triple A), IsReply part := by
      intro part member
      obtain ⟨r, _, rfl⟩ := mem_map.mp member
      exact triple_isReply r
    have reply := IsReply.array _ each
    rw [length_map] at reply
    exact iff_of_true reply (known_plain found)

end Quotes

section Returns

variable {F : Type} {s : Server F} {env : Env} {argv : List CString} {family : Family} {verb : Verb} {op : KvOp}

def Server.Indexes (s : Server F) (env : Env) (argv : List CString) : Prop :=
  ∀ verb op, checkCommand s.readonly argv = .ok (.kv .hash verb) → verb.op env.now argv = some op → HashIndexed ⟨op, env.now, env.level⟩

theorem Server.call_replies (valid : s.Valid) (ample : env.Ample) (check : checkCommand s.readonly argv = .ok (.kv family verb))
    (own : verb.op env.now argv = some op) (indexed : s.Indexes env argv) :
    ∃ s' ret out, s.call env family ⟨op, env.now, env.level⟩ = some (s', ret) ∧ verb.reply ret = some out := by
  have noScan := Verb.op_ne_scan own
  have general : (family ≠ .array → s.Admits family ⟨op, env.now, env.level⟩) →
      ∃ s' ret out, s.call env family ⟨op, env.now, env.level⟩ = some (s', ret) ∧ verb.reply ret = some out := by
    intro admits
    obtain ⟨s', ret, ran, _, _, _, _, agree⟩ := Server.call_db valid ample.engine noScan admits
    obtain ⟨out, reply⟩ := Db.reply_isSome (d := s.db) valid.textual own family
    exact ⟨s', ret, out, ran, (Verb.reply_congr own agree).trans reply⟩
  cases family with
  | array => exact general fun other => absurd rfl other
  | rbtree =>
    obtain ⟨t, tree⟩ := valid.rbtree
    obtain ⟨rbtree, ret, t', ran, _, result, _⟩ := Rbtree.call_spec tree ⟨op, env.now, env.level⟩ noScan
    rw [← Rbtree.rbtreeLookup_eq tree] at result
    obtain ⟨out, reply⟩ := Verb.reply_isSome own (valid.textual .rbtree) rbtreePolicy
    exact ⟨{ s with rbtree := rbtree }, ret, out, by simp [Server.call, ample.engine, ran], result ▸ reply⟩
  | hash =>
    exact general fun _ => indexed verb op check own
  | skiplist => exact general fun _ => ample.level

variable [LT F] [LE F] [DecidableLT F] [DecidableLE F] {A : FloatText F} {raw : Bytes}

theorem execute_unindexed (outside : ¬ s.Indexes env argv) : kvsExecuteCommand A env s argv raw = none := by
  unfold Server.Indexes HashIndexed at outside
  push Not at outside
  obtain ⟨verb, op, check, own, key, isKey, absent⟩ := outside
  have none_ : s.call env .hash ⟨op, env.now, env.level⟩ = none := by
    rw [Server.call, hash_call_unindexed isKey (not_isSome_iff_eq_none.mp absent), map_none]
  unfold kvsExecuteCommand executeKv
  simp [check, own, none_]

theorem execute_returns [FloatOrder F] (valid : s.Valid) (store : KvsVector.StoreOk s.vector) (ample : env.Ample)
    (indexed : s.Indexes env argv) (raw : Bytes) : ∃ s' out, kvsExecuteCommand A env s argv raw = some (s', out) := by
  unfold kvsExecuteCommand
  cases check : checkCommand s.readonly argv with
  | error out => exact ⟨_, _, rfl⟩
  | ok cmd =>
    obtain ⟨name, args, rfl, _, count, _⟩ := checkCommand_ok check
    cases cmd with
    | kv family verb =>
      obtain ⟨op, own⟩ := Verb.op_isSome env.now count
      obtain ⟨s', ret, out, ran, reply⟩ := Server.call_replies valid ample check (own name) indexed
      simp only [executeKv, own name, ran, reply, bind_eq_bind, bind_some]
      exact ⟨_, _, rfl⟩
    | bgsave | sync | finsync | ping => exact ⟨_, _, rfl⟩
    | vset =>
      obtain ⟨vector, ret, out, ran⟩ := executeVset_ends A store (name :: args)
      simp only [ample.vector, ran, bind_eq_bind, bind_some]
      exact ⟨_, _, rfl⟩
    | vget =>
      obtain ⟨out, ran⟩ := executeVget_ends A store (name :: args)
      simp only [ample.vector, ran, map_some]
      exact ⟨_, _, rfl⟩
    | vsearch =>
      have five : (name :: args).length = 5 := Nat.le_antisymm count.2 count.1
      obtain ⟨out, ran⟩ := executeVsearch_ends A store five
      simp only [ample.vector, ran, map_some]
      exact ⟨_, _, rfl⟩

/-- Every command but `SYNC` and `FINSYNC` gives one reply of the protocol exactly if its key has a bucket, an unknown name stays
    within its line, and an `int` holds the length of what is quoted. -/
theorem replies_one_value_iff [FloatOrder F] (valid : s.Valid) (store : KvsVector.StoreOk s.vector) (ample : env.Ample)
    (sync : checkCommand s.readonly argv ≠ .ok .sync) (finsync : checkCommand s.readonly argv ≠ .ok .finsync) :
    (∃ s' size bytes, kvsExecuteCommand A env s argv raw = some (s', .text size bytes) ∧ bytes.length < 2 ^ 31 ∧ Resp.OneReply bytes) ↔
      s.Indexes env argv ∧ (∀ name args, argv = name :: args → findCommand name = none → Resp.Plain name.bytes) ∧
        ∀ pieces, Quotes A env s argv pieces → pieces.flatten.length < 2 ^ 31 := by
  constructor
  · rintro ⟨s', size, bytes, ran, short, one⟩
    have indexed : s.Indexes env argv := by
      by_contra absent
      rw [execute_unindexed absent] at ran
      cases ran
    have quoted : ∀ pieces, Quotes A env s argv pieces → bytes = pieces.flatten := by
      intro pieces quotes
      cases pieces with
      | nil => cases quotes
      | cons first pieces =>
        obtain ⟨_, same⟩ := quotes.executes ample.reply raw
        rw [ran] at same
        cases same
        rfl
    refine ⟨indexed, ?_, fun pieces quotes => quoted pieces quotes ▸ short⟩
    rintro name args rfl unknown
    have quotes : Quotes A env s (name :: args) [unknownCommand name] := .name unknown
    exact quotes.isReply_iff.mp (quoted _ quotes ▸ one.reply) name args rfl unknown
  · rintro ⟨indexed, plain, short⟩
    obtain ⟨s', out, ran⟩ := execute_returns (A := A) valid store ample indexed raw
    rcases execute_formed ample.reply ran with ⟨_, isSync | isFinsync⟩ | safe | ⟨name, _, _, rfl⟩ | ⟨first, pieces, quotes, rfl⟩
    · exact absurd isSync sync
    · exact absurd isFinsync finsync
    · cases out with
      | text size bytes =>
        have small : bytes.length < 2 ^ 31 := Nat.lt_of_succ_lt safe.short
        exact ⟨s', size, bytes, ran, small, safe.reply.one⟩
      | outOfMemory | none => cases safe
    · exact ⟨s', 7, ascii "+PONG\r\n", ran, by decide, (Resp.IsReply.simple (ascii "PONG") (by decide)).one⟩
    · exact ⟨s', _, _, ran, short _ quotes, (quotes.isReply_iff.mpr plain).one⟩

end Returns

def oneStored : Server Int := { freshServer with array := [⟨.ofBytes [107], .str (.ofBytes [118]), -1⟩] }

theorem replies_fit_stored : kvsExecuteCommand wholeText (ampleEnv 0) oneStored [.ofBytes (ascii "GET"), .ofBytes [107]] [] =
        some (oneStored, .text 8 (ascii "$1\r\nv\r\n")) ∧ (ascii "$1\r\nv\r\n").length + 1 ≤ 8 := by
  have ran : kvsExecuteCommand wholeText (ampleEnv 0) oneStored [.ofBytes (ascii "GET"), .ofBytes [107]] [] =
      some (oneStored, .text 8 (ascii "$1\r\nv\r\n")) := rfl
  refine ⟨ran, (replies_fit_iff rfl (by decide) ran).mpr ⟨fun name alone => ?_, fun pieces quotes => ?_⟩⟩
  · cases alone
  · cases pieces with
    | nil => cases quotes
    | cons first pieces =>
      obtain ⟨_, same⟩ := quotes.executes rfl []
      rw [ran, some.injEq, Prod.mk.injEq, Reply.text.injEq] at same
      rw [flatten_cons, ← same.2.2]
      decide

/-- The reply to `PING` has seven bytes, and its NUL an eighth. -/
theorem pong_overflows : kvsExecuteCommand wholeText (ampleEnv 0) freshServer [.ofBytes (ascii "PING")] [] =
        some (freshServer, .text 7 (ascii "+PONG\r\n")) ∧ ¬ (ascii "+PONG\r\n").length + 1 ≤ 7 :=
  ⟨rfl, by decide⟩

theorem replies_one_value_unknown :
    ∃ s' size bytes, kvsExecuteCommand wholeText (ampleEnv 0) freshServer [.ofBytes (ascii "get")] [] = some (s', .text size bytes) ∧
      bytes.length < 2 ^ 31 ∧ Resp.OneReply bytes := by
  have ran : kvsExecuteCommand wholeText (ampleEnv 0) freshServer [.ofBytes (ascii "get")] [] =
      some (freshServer, .text 29 (ascii "-ERR unknown command 'get'\r\n")) := rfl
  refine (replies_one_value_iff freshServer_fresh.valid KvsVector.storeOk_create (ampleEnv_ample 0) ?_ ?_).mpr ⟨?_, ?_, fun pieces quotes => ?_⟩
  · decide
  · decide
  · intro verb op check
    cases check
  · rintro name args ⟨rfl, rfl⟩ _
    decide
  · cases pieces with
    | nil => cases quotes
    | cons first pieces =>
      obtain ⟨_, same⟩ := quotes.executes rfl []
      rw [ran, some.injEq, Prod.mk.injEq, Reply.text.injEq] at same
      rw [flatten_cons, ← same.2.2]
      decide

/-- A line end in the name of an unknown command ends the error there. -/
theorem broken_name_not_one_reply : kvsExecuteCommand wholeText (ampleEnv 0) freshServer [.ofBytes [97, 13, 10, 98]] [] =
        some (freshServer, .text 30 (ascii "-ERR unknown command 'a\r\nb'\r\n")) ∧
      ¬ Resp.OneReply (ascii "-ERR unknown command 'a\r\nb'\r\n") := by
  refine ⟨rfl, fun one => ?_⟩
  have plain : Resp.Plain (ascii "ERR unknown command 'a\r\nb'") := Resp.IsReply.plain_of_error one.reply
  exact absurd plain (by decide)

end AICacheDB
