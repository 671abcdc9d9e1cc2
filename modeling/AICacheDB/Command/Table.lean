import AICacheDB.Library.Text

open CLib List

namespace AICacheDB

inductive Family where
  | array
  | rbtree
  | hash
  | skiplist
  deriving DecidableEq

inductive Verb where
  | set
  | get
  | del
  | mod
  | exist
  | expire
  | ttl
  | setex
  deriving DecidableEq

inductive Cmd where
  | kv (family : Family) (verb : Verb)
  | bgsave
  | sync
  | finsync
  | vset
  | vget
  | vsearch
  | ping
  deriving DecidableEq

def Family.letters : Family → String
  | .array => ""
  | .rbtree => "R"
  | .hash => "H"
  | .skiplist => "SK"

def Verb.word : Verb → String
  | .set => "SET"
  | .get => "GET"
  | .del => "DEL"
  | .mod => "MOD"
  | .exist => "EXIST"
  | .expire => "EXPIRE"
  | .ttl => "TTL"
  | .setex => "SETEX"

def Cmd.name : Cmd → Bytes
  | .kv family verb => ascii family.letters ++ ascii verb.word
  | .bgsave => ascii "BGSAVE"
  | .sync => ascii "SYNC"
  | .finsync => ascii "FINSYNC"
  | .vset => ascii "VSET"
  | .vget => ascii "VGET"
  | .vsearch => ascii "VSEARCH"
  | .ping => ascii "PING"

def dataVerbs (family : Family) : List Cmd := [.set, .get, .del, .mod, .exist].map (.kv family)

def expiryVerbs (family : Family) : List Cmd := [.expire, .ttl, .setex].map (.kv family)

def command : List Cmd :=
  dataVerbs .array ++ dataVerbs .rbtree ++ dataVerbs .hash ++ dataVerbs .skiplist ++ [.bgsave, .sync, .finsync] ++
    expiryVerbs .array ++ expiryVerbs .rbtree ++ expiryVerbs .hash ++ expiryVerbs .skiplist ++ [.vset, .vget, .vsearch, .ping]

structure CmdMeta where
  minArgc : Nat
  maxArgc : Nat
  isWrite : Bool
  persistOnSuccess : Bool

def Cmd.meta : Cmd → CmdMeta
  | .kv _ .set => ⟨3, 3, true, true⟩
  | .kv _ .get => ⟨2, 2, false, false⟩
  | .kv _ .del => ⟨2, 2, true, true⟩
  | .kv _ .mod => ⟨3, 3, true, true⟩
  | .kv _ .exist => ⟨2, 2, false, false⟩
  | .kv _ .expire => ⟨3, 3, true, true⟩
  | .kv _ .ttl => ⟨2, 2, false, false⟩
  | .kv _ .setex => ⟨4, 4, true, true⟩
  | .bgsave => ⟨1, 1, false, false⟩
  | .sync => ⟨1, 1, false, false⟩
  | .finsync => ⟨1, 1, false, false⟩
  | .vset => ⟨5, 5, true, true⟩
  | .vget => ⟨2, 4, false, false⟩
  | .vsearch => ⟨5, 5, false, false⟩
  | .ping => ⟨1, 1, false, false⟩

def findCommand (name : CString) : Option Cmd := command.find? fun c => strcmp name.bytes c.name = 0

def commandArgcOk (cmd : Cmd) (argc : Nat) : Prop := cmd.meta.minArgc ≤ argc ∧ argc ≤ cmd.meta.maxArgc

instance (cmd : Cmd) (argc : Nat) : Decidable (commandArgcOk cmd argc) := inferInstanceAs (Decidable (_ ∧ _))

def commandResultChangedData (cmd : Cmd) (ret : Int) : Bool :=
  if ret < 0 then false
  else
    match cmd with
    | .kv _ .set | .kv _ .setex | .vset => true
    | .kv _ .del | .kv _ .mod | .kv _ .expire => ret = 0
    | _ => false

theorem Cmd.name_nulFree (cmd : Cmd) : 0 ∉ cmd.name := by
  cases cmd with
  | kv family verb => cases family <;> cases verb <;> decide
  | _ => decide

theorem mem_command (cmd : Cmd) : cmd ∈ command := by
  cases cmd with
  | kv family verb => cases family <;> cases verb <;> decide
  | _ => decide

theorem Cmd.name_injective : Function.Injective Cmd.name := by
  have distinct : (command.map Cmd.name).Nodup := by decide +kernel
  intro a b same
  exact inj_on_of_nodup_map distinct (mem_command a) (mem_command b) same

theorem findCommand_eq_some {name : CString} {cmd : Cmd} : findCommand name = some cmd ↔ name.bytes = cmd.name := by
  have equal : ∀ c : Cmd, strcmp name.bytes c.name = 0 ↔ name.bytes = c.name := by
    intro c
    constructor
    · exact strcmp_eq_zero name.nulFree c.name_nulFree
    · intro same
      rw [same, strcmp_self]
  have hit : ∀ c, findCommand name = some c → name.bytes = c.name := by
    intro c found
    unfold findCommand at found
    have zero := find?_some found
    exact (equal c).mp (of_decide_eq_true zero)
  constructor
  · exact hit cmd
  · intro same
    cases found : findCommand name with
    | none =>
      have missing := find?_eq_none.mp found cmd (mem_command cmd)
      exact absurd (decide_eq_true ((equal cmd).mpr same)) missing
    | some c => rw [Cmd.name_injective ((hit c found).symm.trans same)]

end AICacheDB
