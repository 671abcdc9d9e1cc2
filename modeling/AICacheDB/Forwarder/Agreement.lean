import AICacheDB.Command.Families
import AICacheDB.Forwarder.Wal

open CLib List

namespace AICacheDB.Forwarder

open Resp

section Master

variable {msg count buf tail : Bytes} {bulks : List (Bytes × Bytes)} {p : Nat}

theorem splitBulks_wire (spelled : ∀ b ∈ bulks, Spells b.1 b.2.length) (fits : ∀ b ∈ bulks, b.2.length ≤ flowBufMax)
    (at_ : buf.drop p = bulks.flatMap wireBulk ++ tail) (i : Nat) :
    splitBulks .ok buf bulks.length i p = some (some (bulks.map Prod.snd)) := by
  induction bulks generalizing p i with
  | nil => rfl
  | cons b bulks ih =>
    rw [flatMap_cons, append_assoc] at at_
    obtain ⟨dollar, two, three, ends, inside⟩ := wireBulk_parts at_
    have size := wireBulk_length b
    have short := fits b (by simp)
    unfold flowBufMax at short
    have header := (field_of_readNumber (readNumberCrlf_spells (spelled b (by simp)) short two)).1
    have rest := ih (fun b member => spelled b (by simp [member])) (fun b member => fits b (by simp [member])) (drop_add at_) (i + 1)
    rw [length_cons, splitBulks_succ, if_neg (not_not_intro dollar), header]
    dsimp only
    rw [if_neg (by omega), if_neg, if_neg (by omega), Int.toNat_natCast, ends]
    · dsimp only
      rw [rest, three, take_left]
      rfl
    · rw [wrap32_of_range (by omega) (by omega), ParseAlloc.ok_apply]
      exact not_or.mpr ⟨by omega, by decide⟩

theorem flatMap_bulks_length (bulks : List (Bytes × Bytes)) : bulks.length ≤ (bulks.flatMap wireBulk).length := by
  induction bulks with
  | nil => exact Nat.le_refl 0
  | cons b bulks ih =>
    have size := wireBulk_length b
    rw [flatMap_cons, length_append, length_cons]
    omega

theorem Spelled.few (spelled : Spelled msg count bulks) (size : msg.length ≤ maxCmdLen) : bulks.length ≤ flowBufMax := by
  have bound := flatMap_bulks_length bulks
  rw [spelled.text, (wire_parts count bulks).2.2.2] at size
  have same : maxCmdLen = flowBufMax := rfl
  omega

theorem Spelled.arguments (spelled : Spelled msg count bulks) (size : msg.length ≤ maxCmdLen) :
    respParseArguments .ok msg = some (if bulks = [] then none else some (bulks.map Prod.snd)) := by
  obtain ⟨star, two, three, _⟩ := wire_parts count bulks
  rw [← spelled.text] at star two three
  have header := (field_of_readNumber (readNumberCrlf_spells spelled.count (spelled.few size) two)).1
  rw [respParseArguments_eq, if_neg (not_not_intro star), header]
  dsimp only
  by_cases empty : bulks = []
  · rw [if_pos empty, if_pos (.inl (by simp [empty]))]
  · have positive := length_pos_of_ne_nil empty
    rw [if_neg empty, if_neg, Int.toNat_natCast, splitBulks_wire spelled.lengths (spelled.fits size) three]
    rw [ParseAlloc.ok_apply]
    exact not_or.mpr ⟨by omega, by decide⟩

end Master

section Agreement

variable {F : Type} {s : Server F} {env : Env} {cenv : CommandEnv} {r : Relay} {msg : Bytes}

def DispatchesWrite (env : Env) (s : Server F) (msg : Bytes) : Prop :=
  ∃ args cmd, respParseArguments env.parse msg = some (some args) ∧ checkCommand s.readonly (args.map CString.ofBytes) = .ok cmd ∧
    cmd.meta.isWrite = true

/-- The forwarder finds the message complete and `process_full_command` pushes it to the queue. -/
def Pushes (cenv : CommandEnv) (r : Relay) (msg : Bytes) : Prop :=
  respCommandLen msg = .complete msg.length ∧ (processFullCommand cenv r msg).2.1 = some (msg, true)

/-- A command that is spelled as a write of the table: with its name, in capitals, and with as many arguments as it takes. -/
def Proper (msg : Bytes) : Prop :=
  ∃ count bulks cmd, Spelled msg count bulks ∧ cmd.meta.isWrite = true ∧ commandArgcOk cmd bulks.length ∧
    (bulks.head?.map fun b => (CString.ofBytes b.2).bytes) = some cmd.name

variable {cmd : Cmd}

theorem mem_writeCmds (write : cmd.meta.isWrite = true) : cmd.name ∈ writeCmds := by
  cases cmd with
  | kv family verb =>
    cases verb with
    | set | del | mod | expire | setex => cases family <;> decide
    | get | exist | ttl => cases write
  | vset => decide
  | _ => cases write

theorem argc_le {argc : Nat} (count : commandArgcOk cmd argc) : argc ≤ 1024 := by
  refine count.2.trans ?_
  cases cmd with
  | kv family verb => cases verb <;> simp [Cmd.meta]
  | _ => decide

theorem isWriteCommand_name (write : cmd.meta.isWrite = true) {name : CString} (same : name.bytes = cmd.name) :
    isWriteCommand name = true := by
  rw [isWriteCommand, any_eq_true]
  refine ⟨cmd.name, mem_writeCmds write, decide_eq_true ?_⟩
  rw [same, strcasecmp, strcmp_self]

theorem dispatches_inv {args : List Bytes} {readonly : Bool} (check : checkCommand readonly (args.map CString.ofBytes) = .ok cmd) :
    ∃ name rest, args = name :: rest ∧ (CString.ofBytes name).bytes = cmd.name ∧ commandArgcOk cmd args.length := by
  obtain ⟨name', rest', same, found, count, _⟩ := checkCommand_ok check
  obtain ⟨name, rest, rfl, rfl, rfl⟩ := map_eq_cons_iff.mp same
  rw [length_map] at count
  exact ⟨name, rest, rfl, findCommand_eq_some.mp found, count⟩

theorem pushes_of_spelled {count : Bytes} {bulks : List (Bytes × Bytes)} (spelled : Spelled msg count bulks) (size : msg.length ≤ maxCmdLen)
    (memory : cenv.malloc = true) (room : r.wal.Room msg.length) (argv : env.parse = .ok) (dispatches : DispatchesWrite env s msg) :
    Pushes cenv r msg := by
  obtain ⟨args, cmd, parsed, check, write⟩ := dispatches
  rw [argv, spelled.arguments size] at parsed
  by_cases empty : bulks = []
  · rw [if_pos empty] at parsed
    cases parsed
  rw [if_neg empty] at parsed
  cases parsed
  obtain ⟨name, rest, same, exact_, argc⟩ := dispatches_inv check
  rw [length_map] at argc
  obtain ⟨⟨ds, data⟩, bulks, rfl, rfl, rfl⟩ := map_eq_cons_iff.mp same
  have few := spelled.few size
  have named := spelled.commandName few (spelled.fits size (ds, data) (by simp))
  refine ⟨spelled.complete size empty (argc_le argc), ?_⟩
  rw [processFullCommand_push named, if_pos (isWriteCommand_name write exact_), memory, room.accepts size]

/-- A write that the server runs is pushed exactly when its numbers are spelled, and a pushed command is run as a write exactly
    when name and number of arguments make it one. -/
theorem forwarder_master_agree (size : msg.length ≤ maxCmdLen) (argv : env.parse = .ok) (master : s.readonly = false)
    (memory : cenv.malloc = true) (room : r.wal.Room msg.length) :
    (DispatchesWrite env s msg → (Pushes cenv r msg ↔ ∃ count bulks, Spelled msg count bulks)) ∧
      (Pushes cenv r msg → (DispatchesWrite env s msg ↔ Proper msg)) := by
  constructor
  · intro dispatches
    constructor
    · rintro ⟨complete, _⟩
      obtain ⟨count, bulks, spelled, _⟩ := spelled_of_respCommandLen complete
      exact ⟨count, bulks, spelled⟩
    · rintro ⟨count, bulks, spelled⟩
      exact pushes_of_spelled spelled size memory room argv dispatches
  · rintro ⟨complete, _⟩
    obtain ⟨count, bulks, spelled, some_, _⟩ := spelled_of_respCommandLen complete
    constructor
    · rintro ⟨args, cmd, parsed, check, write⟩
      rw [argv, spelled.arguments size, if_neg some_] at parsed
      cases parsed
      obtain ⟨name, rest, same, exact_, argc⟩ := dispatches_inv check
      rw [length_map] at argc
      obtain ⟨b, bulks, rfl, rfl, rfl⟩ := map_eq_cons_iff.mp same
      exact ⟨count, _, cmd, spelled, write, argc, congrArg some exact_⟩
    · rintro ⟨count', bulks', cmd, spelled', write, argc, named⟩
      cases bulks' with
      | nil => cases named
      | cons b rest =>
        have found : findCommand (.ofBytes b.2) = some cmd := findCommand_eq_some.mpr (Option.some.inj named)
        refine ⟨(b :: rest).map Prod.snd, cmd, ?_, ?_, write⟩
        · rw [argv, spelled'.arguments size, if_neg (cons_ne_nil _ _)]
        · rw [map_cons, map_cons, checkCommand, found]
          dsimp only
          rw [if_neg, if_neg (by rw [master]; simp)]
          rw [not_not, length_cons, length_map, length_map]
          exact argc

/-- The master stores the empty value of a `SET` whose last length has no digit, and refuses a `set` in small letters, which is
    pushed. -/
theorem forwarder_master_disagree : (Exact (ascii "*3\r\n$3\r\nSET\r\n$1\r\nk\r\n$\r\n\r\n") ∧
      ((kvsProtocol wholeText (ampleEnv 0) freshServer (ascii "*3\r\n$3\r\nSET\r\n$1\r\nk\r\n$\r\n\r\n")).map fun r =>
        (r.1.array.map ArrayItem.key, r.2)) = some ([.ofBytes (ascii "k")], okReply) ∧
      respCommandLen (ascii "*3\r\n$3\r\nSET\r\n$1\r\nk\r\n$\r\n\r\n") = .malformed) ∧
    Pushes openCommand startRelay (encode [ascii "set", ascii "k", ascii "v"]) ∧
      ((kvsProtocol wholeText (ampleEnv 0) freshServer (encode [ascii "set", ascii "k", ascii "v"])).map fun r => r.2) =
        some (fitted (ascii "-ERR unknown command 'set'\r\n")) :=
  ⟨⟨by decide, by decide +kernel, by decide⟩, ⟨by decide, by decide⟩, by decide +kernel⟩

theorem forwarder_master_agree_set :
    DispatchesWrite (ampleEnv 0) (freshServer : Server Int) (encode [ascii "SET", ascii "k", ascii "v"]) ∧
      Pushes openCommand startRelay (encode [ascii "SET", ascii "k", ascii "v"]) ∧
      Proper (encode [ascii "SET", ascii "k", ascii "v"]) := by
  have dispatches : DispatchesWrite (ampleEnv 0) (freshServer : Server Int) (encode [ascii "SET", ascii "k", ascii "v"]) :=
    ⟨[ascii "SET", ascii "k", ascii "v"], .kv .array .set, by decide, rfl, rfl⟩
  have agree : (_ → (Pushes openCommand startRelay (encode [ascii "SET", ascii "k", ascii "v"]) ↔ _)) ∧ _ :=
    forwarder_master_agree (s := (freshServer : Server Int)) (by decide) (show (ampleEnv 0).parse = .ok from rfl) rfl rfl
      ⟨by decide, by decide⟩
  obtain ⟨forward, back⟩ := agree
  have pushes := (forward dispatches).mpr ⟨_, _, spelled_encode _⟩
  exact ⟨dispatches, pushes, (back pushes).mp dispatches⟩

end Agreement

end AICacheDB.Forwarder
