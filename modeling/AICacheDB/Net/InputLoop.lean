import AICacheDB.Command.Execute
import AICacheDB.Library.Segments

open CLib List Option

namespace AICacheDB

open Resp

abbrev MessageCallback (σ : Type) := σ → Bytes → Option (σ × Reply)

def silentCallback : MessageCallback Nat := fun n _ => some (n + 1, .none)

def Reply.len : Reply → Int
  | .text _ bytes => bytes.length
  | .outOfMemory => -2
  | .none => 0

section Loop

variable {σ : Type}

inductive LoopEnd where
  | drained
  | incomplete
  | malformed
  | refused
  deriving DecidableEq

structure ParseEnd (σ : Type) where
  offset : Nat
  state : σ
  calls : List Bytes
  ending : LoopEnd

/-- The loop of the reactor, the coroutines and the replication threads over the complete commands from `offset` on. `execute`
    gets the position of the command, and says whether to go on. -/
def parseLoop (execute : Nat → σ → Bytes → Option (σ × Bool)) (buf : Bytes) : Nat → Nat → σ → Option (ParseEnd σ)
  | 0, _, _ => none
  | fuel + 1, offset, s =>
    if buf.length ≤ offset then some ⟨offset, s, [], .drained⟩
    else do
      let frame ← Resp.respParseOneCommand (buf.drop offset)
      match frame with
      | .complete cmdLen =>
        let cmd := (buf.drop offset).take cmdLen
        let (s, more) ← execute offset s cmd
        if more = true then
          (parseLoop execute buf fuel (offset + cmdLen) s).map fun r => { r with calls := cmd :: r.calls }
        else some ⟨offset, s, [cmd], .refused⟩
      | .incomplete => some ⟨offset, s, [], .incomplete⟩
      | .malformed => some ⟨offset, s, [], .malformed⟩

/-- All commands are executed, from the position `offset` on, and none of them ends the loop. -/
def executeAll (execute : Nat → σ → Bytes → Option (σ × Bool)) : Nat → σ → List Bytes → Option σ
  | _, s, [] => some s
  | offset, s, cmd :: cmds => do
    let (s, more) ← execute offset s cmd
    if more = true then executeAll execute (offset + cmd.length) s cmds else none

def endOf (u : Bytes) : LoopEnd :=
  if u = [] then .drained else if Resp.respParseOneCommand u = some .malformed then .malformed else .incomplete

variable {execute : Nat → σ → Bytes → Option (σ × Bool)} {buf u : Bytes} {offset : Nat}

theorem parseLoop_rest (tail : u = [] ∨ Stopped (respParseOneCommand u)) (at_ : buf.drop offset = u) (fuel : Nat)
    (s : σ) : parseLoop execute buf (fuel + 1) offset s = some ⟨offset, s, [], endOf u⟩ := by
  rw [parseLoop, endOf]
  by_cases empty : u = []
  · have none_ : buf.length ≤ offset := drop_eq_nil_iff.mp (at_.trans empty)
    rw [if_pos none_, if_pos empty]
  · have left : ¬ buf.length ≤ offset := fun none_ => empty (at_ ▸ drop_eq_nil_iff.mpr none_)
    rw [if_neg left, if_neg empty, at_]
    rcases tail.resolve_left empty with malformed | incomplete
    · rw [malformed]
      rfl
    · rw [incomplete]
      rfl

/-- `b` begins with the commands `cmds`, as `resp_parse_one_command` finds them, and `u` is left. -/
inductive Splits : Bytes → List Bytes → Bytes → Prop where
  | rest (u : Bytes) : Splits u [] u
  | next {b u : Bytes} {cmds : List Bytes} {n : Nat} (complete : Resp.respParseOneCommand b = some (.complete n))
      (later : Splits (b.drop n) cmds u) : Splits b (b.take n :: cmds) u

variable {frames cmds : List Bytes} {fuel : Nat} {s : σ}

theorem splits_of_exact (whole : ∀ c ∈ frames, Exact c) (u : Bytes) : Splits (frames.flatten ++ u) frames u := by
  induction frames with
  | nil => exact .rest u
  | cons c frames ih =>
    have complete := (whole c (by simp)).append (frames.flatten ++ u)
    have later : Splits ((c ++ (frames.flatten ++ u)).drop c.length) frames u := by
      rw [drop_left]
      exact ih fun d member => whole d (by simp [member])
    have split := Splits.next complete later
    rwa [take_left, ← append_assoc] at split

theorem Splits.length_le {b u : Bytes} (splits : Splits b cmds u) : cmds.length ≤ b.length := by
  induction splits with
  | rest u => exact Nat.zero_le _
  | next complete _ ih =>
    have bound := respParseOneCommand_le complete
    rw [length_drop] at ih
    rw [length_cons]
    omega

theorem parseLoop_splits {s' : σ} (splits : Splits (buf.drop offset) cmds u)
    (tail : u = [] ∨ Stopped (respParseOneCommand u)) (ran : executeAll execute offset s cmds = some s')
    (enough : cmds.length < fuel) : parseLoop execute buf fuel offset s = some ⟨offset + cmds.flatten.length, s', cmds, endOf u⟩ := by
  obtain ⟨fuel, rfl⟩ := Nat.exists_eq_add_one_of_ne_zero (Nat.ne_zero_of_lt enough)
  generalize at_ : buf.drop offset = b at splits
  induction splits generalizing offset s fuel with
  | rest u =>
    cases ran
    exact parseLoop_rest tail at_ fuel _
  | @next b u cmds n complete later ih =>
    have bound := respParseOneCommand_le complete
    have size : (b.take n).length = n := length_take_of_le bound.2
    have left : ¬ buf.length ≤ offset := by
      rw [← drop_eq_nil_iff, at_]
      exact ne_nil_of_length_pos (by omega)
    rw [executeAll, bind_eq_bind, bind_eq_some_iff] at ran
    obtain ⟨⟨s1, more⟩, first, ran⟩ := ran
    dsimp only at ran
    cases more with
    | false =>
      rw [if_neg (by decide)] at ran
      cases ran
    | true =>
      rw [if_pos rfl, size] at ran
      obtain ⟨fuel, rfl⟩ := Nat.exists_eq_add_one_of_ne_zero (show fuel ≠ 0 by rw [length_cons] at enough; omega)
      have after := ih tail ran fuel (by rw [length_cons] at enough; omega) (by rw [← at_, drop_drop])
      rw [parseLoop, if_neg left, at_, complete, bind_eq_bind, bind_some]
      dsimp only
      rw [first, bind_eq_bind, bind_some]
      dsimp only
      rw [if_pos rfl, after, map_some, flatten_cons, length_append, size, Nat.add_assoc]

theorem parseLoop_frames (whole : ∀ c ∈ frames, Exact c) (tail : u = [] ∨ Stopped (respParseOneCommand u)) {s' : σ}
    (at_ : buf.drop offset = frames.flatten ++ u) (ran : executeAll execute offset s frames = some s') (enough : frames.length < fuel) :
    parseLoop execute buf fuel offset s = some ⟨offset + frames.flatten.length, s', frames, endOf u⟩ :=
  parseLoop_splits (at_ ▸ splits_of_exact whole u) tail ran enough

end Loop

section Frames

theorem partial_stopped {rest : List Bytes} (whole : ∀ c ∈ rest, Exact c) {u : Bytes} (part : Segments.Partial rest u) :
    u = [] ∨ Stopped (respParseOneCommand u) := by
  rcases part with empty | ⟨c, later, rfl, ⟨v, rfl⟩, proper⟩
  · exact .inl empty
  · have framed : Exact (u ++ v) := whole _ (by simp)
    exact .inr (framed.stopped_of_proper fun none_ => proper (by rw [none_, append_nil]))

theorem length_le_flatten {frames : List Bytes} (real : ∀ c ∈ frames, c ≠ []) : frames.length ≤ frames.flatten.length := by
  induction frames with
  | nil => exact Nat.le_refl _
  | cons c frames ih =>
    have first := length_pos_of_ne_nil (real c (by simp))
    have later := ih fun d member => real d (by simp [member])
    rw [length_cons, flatten_cons, length_append]
    omega

end Frames

end AICacheDB
