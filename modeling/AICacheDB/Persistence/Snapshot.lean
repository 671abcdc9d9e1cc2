import AICacheDB.Library.SparseFile
import AICacheDB.Persistence.RdbRoundTrip

open CLib List Option Function Machine

namespace AICacheDB.Snapshot

/-- A child of `kvs_persistence_bgsave`: before `fopen`, with so many bytes in the file, or behind `fclose`. -/
inductive Phase where
  | waiting
  | writing (off : Nat)
  | done
  deriving DecidableEq

/-- The file `FULL_RDB_FILE`, which all children open under its one name, and the children. -/
structure Disk where
  file : Bytes
  child : Nat → Phase

/-- `write` is one flush of the buffer of the stream, of any size. -/
inductive Act where
  | open (i : Nat)
  | write (i n : Nat)
  | close (i : Nat)
  deriving DecidableEq

def Act.child : Act → Nat
  | .open i | .write i _ | .close i => i

section Model

variable {F : Type} (A : FloatText F) (memory : CString → Bool) (frozen : Nat → Server F)

/-- The steps of the children, each with its own copy of the server. `fopen` with `"wb"` empties the file for all of them. -/
def saveStep (d : Disk) : Act → Option (Disk × Unit)
  | .open i =>
    match d.child i with
    | .waiting => some (⟨[], Function.update d.child i (.writing 0)⟩, ())
    | _ => none
  | .write i n =>
    match d.child i, rdbSaveToFp A memory (frozen i) with
    | .writing off, some data =>
      if off + n ≤ data.length then
        some (⟨SparseFile.pwrite 0 d.file off ((data.drop off).take n), Function.update d.child i (.writing (off + n))⟩, ())
      else none
    | _, _ => none
  | .close i =>
    match d.child i, rdbSaveToFp A memory (frozen i) with
    | .writing off, some data => if off = data.length then some ({ d with child := Function.update d.child i .done }, ()) else none
    | _, _ => none

variable [LT F] [LE F] [DecidableLT F] [DecidableLE F]

/-- `rdb_load_files` with the engines that `kvs_reset_data_engines` leaves and whether it succeeds. -/
def rdbLoadFiles (malloc : Bool) (reset : Server F → Server F × Bool) (envs : Nat → RdbEnv) (s : Server F) (file : Bytes) :
    Option (Server F × Int) :=
  if file = [] then some (s, 0)
  else if malloc = false then some (s, -1)
  else
    match reset s with
    | (s, false) => some (s, -1)
    | (s, true) => (rdbLoadFromMemory A envs s file).map fun s => (s, 0)

end Model

def Alone (d : Disk) : Act → Prop
  | .open _ => ∀ j off, d.child j ≠ .writing off
  | _ => True

def Quiet (d : Disk) : Prop := ∀ j off, d.child j ≠ .writing off

section Runs

variable {F : Type} {A : FloatText F} {memory : CString → Bool} {frozen : Nat → Server F} {old : Bytes} {d d' : Disk}

/-- Children that do not meet: the file is the old one, or the snapshot of a child, or what the one child at work has written. -/
inductive Orderly (A : FloatText F) (memory : CString → Bool) (frozen : Nat → Server F) (old : Bytes) (d : Disk) : Prop where
  | untouched (quiet : Quiet d) (file : d.file = old) : Orderly A memory frozen old d
  | whole {i : Nat} {data : Bytes} (quiet : Quiet d) (own : d.child i = .done) (saved : rdbSaveToFp A memory (frozen i) = some data)
      (file : d.file = data) : Orderly A memory frozen old d
  | part {i off : Nat} (own : d.child i = .writing off) (alone : ∀ j, j ≠ i → ∀ off, d.child j ≠ .writing off)
      (file : ∀ data, rdbSaveToFp A memory (frozen i) = some data → off ≤ data.length ∧ d.file = data.take off) :
      Orderly A memory frozen old d

theorem Orderly.writing (orderly : Orderly A memory frozen old d) {i off : Nat} (own : d.child i = .writing off) :
    (∀ j, j ≠ i → ∀ off, d.child j ≠ .writing off) ∧
      ∀ data, rdbSaveToFp A memory (frozen i) = some data → off ≤ data.length ∧ d.file = data.take off := by
  cases orderly with
  | untouched quiet file => exact absurd own (quiet i off)
  | whole quiet _ _ _ => exact absurd own (quiet i off)
  | @part i' off' own' alone file =>
    by_cases same : i = i'
    · subst same
      obtain rfl := Phase.writing.inj (own.symm.trans own')
      exact ⟨alone, file⟩
    · exact absurd own (alone i same off)

theorem pwrite_take (data : Bytes) {off n : Nat} (fits : off + n ≤ data.length) :
    SparseFile.pwrite 0 (data.take off) off ((data.drop off).take n) = data.take (off + n) := by
  have length : (data.take off).length = off := by
    rw [length_take]
    omega
  unfold SparseFile.pwrite
  split
  · rename_i empty
    rw [take_add, empty, append_nil]
  · have past : (data.take off).drop (off + ((data.drop off).take n).length) = [] := drop_of_length_le (by omega)
    rw [take_of_length_le length.le, length, Nat.sub_self, replicate_zero, append_nil, past, append_nil, take_add]

theorem saveStep_other {a : Act} {u : Unit} (stepped : saveStep A memory frozen d a = some (d', u)) {j : Nat} (other : j ≠ a.child) :
    d'.child j = d.child j := by
  cases a <;> rw [saveStep] at stepped <;> repeat' split at stepped
  all_goals cases stepped
  all_goals exact update_of_ne other _ _

theorem Orderly.step (orderly : Orderly A memory frozen old d) {a : Act} (alone : Alone d a) {u : Unit}
    (stepped : saveStep A memory frozen d a = some (d', u)) : Orderly A memory frozen old d' := by
  cases a with
  | «open» i =>
    rw [saveStep] at stepped
    split at stepped
    · cases stepped
      refine .part (update_self i _ _) (fun j other off => ?_) fun data _ => ⟨Nat.zero_le _, rfl⟩
      dsimp only
      rw [update_of_ne other]
      exact alone j off
    · cases stepped
  | write i n =>
    rw [saveStep] at stepped
    split at stepped
    · rename_i off data own saved
      obtain ⟨others, file⟩ := orderly.writing own
      split at stepped
      · rename_i fits
        cases stepped
        refine .part (update_self i _ _) (fun j other off => ?_) fun data' saved' => ?_
        · dsimp only
          rw [update_of_ne other]
          exact others j other off
        · obtain rfl := some.inj (saved.symm.trans saved')
          refine ⟨fits, ?_⟩
          dsimp only
          rw [(file data saved).2, pwrite_take data fits]
      · cases stepped
    · cases stepped
  | close i =>
    rw [saveStep] at stepped
    split at stepped
    · rename_i off data own saved
      obtain ⟨others, file⟩ := orderly.writing own
      split at stepped
      · rename_i whole
        cases stepped
        refine .whole (fun j off => ?_) (update_self i _ _) saved ?_
        · dsimp only
          by_cases same : j = i
          · subst same
            rw [update_self]
            exact Phase.noConfusion
          · rw [update_of_ne same]
            exact others j same off
        · rw [(file data saved).2, whole, take_length]
      · cases stepped
    · cases stepped

variable [LT F] [LE F] [DecidableLT F] [DecidableLE F]

/-- What `rdb_load_files` makes of the file is what it would have made of the old one, or of the snapshot of one of the children. -/
def AllOrNothing (A : FloatText F) (memory : CString → Bool) (frozen : Nat → Server F) (load : Bytes → Option (Server F × Int)) (old : Bytes)
    (d : Disk) : Prop :=
  load d.file = load old ∨ ∃ i data, d.child i ≠ .waiting ∧ rdbSaveToFp A memory (frozen i) = some data ∧ load d.file = load data

/-- In every run whose children do not overlap, a crash while none is at work leaves the old file or one child's snapshot. -/
theorem snapshot_all_or_nothing {acts : List Act} {us : List Unit}
    (ran : Machine.run (saveStep A memory frozen) ⟨old, fun _ => .waiting⟩ acts = some (d, us))
    (alone : Machine.Meets (saveStep A memory frozen) Alone ⟨old, fun _ => .waiting⟩ acts) (quiet : Quiet d) (malloc : Bool)
    (reset : Server F → Server F × Bool) (envs : Nat → RdbEnv) (s : Server F) :
    AllOrNothing A memory frozen (rdbLoadFiles A malloc reset envs s) old d := by
  have start : Orderly A memory frozen old ⟨old, fun _ => .waiting⟩ := .untouched (fun _ _ => Phase.noConfusion) rfl
  have orderly : Orderly A memory frozen old d :=
    run_keeps (fun d a d' u orderly alone stepped => orderly.step alone stepped) start alone ran
  cases orderly with
  | untouched _ file => exact .inl (by rw [file])
  | @whole i data _ own saved file => exact .inr ⟨i, data, by rw [own]; exact Phase.noConfusion, saved, by rw [file]⟩
  | @part i off own _ _ => exact absurd own (quiet i off)

end Runs

def holding (keys : Bytes) : Server Int := { freshServer with array := keys.map fun k => ⟨.ofBytes [k], .str (.ofBytes [118]), -1⟩ }

def amply : Nat → RdbEnv := fun _ => ⟨ampleEnv 0, true, true, true⟩

def saved (keys : Bytes) : Bytes := (rdbSaveToFp wholeText (fun _ => true) (holding keys)).getD []

def twoChildren (i : Nat) : Server Int := if i = 0 then holding [100, 101] else holding [102]

def loadInto (file : Bytes) : Option (Server Int × Int) :=
  rdbLoadFiles wholeText true (fun _ => (freshServer, true)) amply freshServer file

def loadedKeys (file : Bytes) : Option (List Bytes) := (loadInto file).map fun r => r.1.array.map fun item => item.key.bytes

theorem not_all_or_nothing {d : Disk} {keys : List Bytes} (loaded : loadedKeys d.file = some keys)
    (strange : some keys ≠ loadedKeys (saved [97, 98, 99]) ∧ some keys ≠ loadedKeys (saved [100, 101]) ∧ some keys ≠ loadedKeys (saved [102])) :
    ¬ AllOrNothing wholeText (fun _ => true) twoChildren loadInto (saved [97, 98, 99]) d := by
  have keysOf : ∀ {file : Bytes}, loadInto d.file = loadInto file → some keys = loadedKeys file := by
    intro file same
    rw [← loaded, loadedKeys, same]
    rfl
  rintro (same | ⟨i, data, _, bytes, same⟩)
  · exact strange.1 (keysOf same)
  · unfold twoChildren at bytes
    split at bytes
    · refine strange.2.1 ?_
      rw [saved, bytes]
      exact keysOf same
    · refine strange.2.2 ?_
      rw [saved, bytes]
      exact keysOf same

/-- A crash behind the first of two records leaves one key; two children that overlap leave one record of each. -/
theorem torn_and_mixed :
    (∃ d us, Machine.run (saveStep wholeText (fun _ => true) twoChildren) ⟨saved [97, 98, 99], fun _ => .waiting⟩ [.open 0, .write 0 19] =
        some (d, us) ∧ ¬ AllOrNothing wholeText (fun _ => true) twoChildren loadInto (saved [97, 98, 99]) d) ∧
      ∃ d us, Machine.run (saveStep wholeText (fun _ => true) twoChildren) ⟨saved [97, 98, 99], fun _ => .waiting⟩
          [.open 0, .write 0 19, .open 1, .write 1 19, .close 1, .write 0 19, .close 0] = some (d, us) ∧ d.child 0 = .done ∧
        d.child 1 = .done ∧ ¬ AllOrNothing wholeText (fun _ => true) twoChildren loadInto (saved [97, 98, 99]) d := by
  constructor
  · have loaded : (run (saveStep wholeText (fun _ => true) twoChildren) ⟨saved [97, 98, 99], fun _ => .waiting⟩
        [.open 0, .write 0 19]).bind (fun r => loadedKeys r.1.file) = some [[100]] := by decide +kernel
    obtain ⟨⟨d, us⟩, ran, keys⟩ := bind_eq_some_iff.mp loaded
    exact ⟨d, us, ran, not_all_or_nothing keys ⟨by decide +kernel, by decide +kernel, by decide +kernel⟩⟩
  · have loaded : (run (saveStep wholeText (fun _ => true) twoChildren) ⟨saved [97, 98, 99], fun _ => .waiting⟩
        [.open 0, .write 0 19, .open 1, .write 1 19, .close 1, .write 0 19, .close 0]).bind
          (fun r => (loadedKeys r.1.file).map fun keys => (r.1.child 0, r.1.child 1, keys)) = some (.done, .done, [[102], [101]]) := by
      decide +kernel
    obtain ⟨⟨d, us⟩, ran, ended⟩ := bind_eq_some_iff.mp loaded
    obtain ⟨keys, found, same⟩ := map_eq_some_iff.mp ended
    simp only [Prod.mk.injEq] at same
    obtain ⟨first, second, rfl⟩ := same
    exact ⟨d, us, ran, first, second, not_all_or_nothing found ⟨by decide +kernel, by decide +kernel, by decide +kernel⟩⟩

theorem snapshot_all_or_nothing_once : ∃ d us,
    Machine.run (saveStep wholeText (fun _ => true) twoChildren) ⟨saved [97, 98, 99], fun _ => .waiting⟩ [.open 0, .write 0 38, .close 0] =
      some (d, us) ∧ AllOrNothing wholeText (fun _ => true) twoChildren loadInto (saved [97, 98, 99]) d := by
  have done : (run (saveStep wholeText (fun _ => true) twoChildren) ⟨saved [97, 98, 99], fun _ => .waiting⟩
      [.open 0, .write 0 38, .close 0]).map (fun r => r.1.child 0) = some .done := by decide +kernel
  obtain ⟨⟨d, us⟩, ran, ended⟩ := map_eq_some_iff.mp done
  have alone : Meets (saveStep wholeText (fun _ => true) twoChildren) Alone ⟨saved [97, 98, 99], fun _ => .waiting⟩
      [.open 0, .write 0 38, .close 0] :=
    ⟨fun _ _ => Phase.noConfusion, fun _ _ _ => ⟨trivial, fun _ _ _ => ⟨trivial, fun _ _ _ => trivial⟩⟩⟩
  have own : Meets (saveStep wholeText (fun _ => true) twoChildren) (fun _ a => a.child = 0) ⟨saved [97, 98, 99], fun _ => .waiting⟩
      [.open 0, .write 0 38, .close 0] := ⟨rfl, fun _ _ _ => ⟨rfl, fun _ _ _ => ⟨rfl, fun _ _ _ => trivial⟩⟩⟩
  have keeps : ∀ (d : Disk) (a : Act) (d' : Disk) (u : Unit), (∀ j, j ≠ 0 → d.child j = .waiting) → a.child = 0 →
      saveStep wholeText (fun _ => true) twoChildren d a = some (d', u) → ∀ j, j ≠ 0 → d'.child j = .waiting :=
    fun d a d' u waits first stepped j other => (saveStep_other stepped (first.symm ▸ other)).trans (waits j other)
  have others : ∀ j, j ≠ 0 → d.child j = .waiting := run_keeps keeps (fun _ _ => rfl) own ran
  refine ⟨d, us, ran, snapshot_all_or_nothing ran alone (fun j off => ?_) true _ amply freshServer⟩
  by_cases first : j = 0
  · rw [first, ended]
    exact Phase.noConfusion
  · rw [others j first]
    exact Phase.noConfusion

end AICacheDB.Snapshot
