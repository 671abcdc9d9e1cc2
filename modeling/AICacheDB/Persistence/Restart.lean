import AICacheDB.Persistence.Replay
import AICacheDB.Persistence.UringRuns

open CLib List Option

namespace AICacheDB

open Resp

variable {file : Bytes} {cmds : List Bytes}

theorem aofLoadLoop_partition {fuel : Nat} {done all : List Bytes}
    (ran : aofLoadLoop (fun done cmd => some (done ++ [cmd])) fuel done file = some all) :
    ∃ cmds tail, all = done ++ cmds ∧ file = cmds.flatten ++ tail ∧ Stops tail := by
  induction fuel generalizing done file with
  | zero => cases ran
  | succ fuel ih =>
    rw [aofLoadLoop] at ran
    by_cases empty : file = []
    · rw [if_pos empty] at ran
      cases ran
      exact ⟨[], file, (append_nil _).symm, rfl, Or.inl empty⟩
    · rw [if_neg empty] at ran
      cases frame : respParseOneCommand file with
      | none =>
        rw [frame] at ran
        cases ran
      | some found =>
        rw [frame, bind_eq_bind, bind_some] at ran
        cases found with
        | malformed =>
          cases ran
          exact ⟨[], file, (append_nil _).symm, rfl, Or.inr (Or.inl frame)⟩
        | incomplete =>
          cases ran
          exact ⟨[], file, (append_nil _).symm, rfl, Or.inr (Or.inr frame)⟩
        | complete cmdLen =>
          simp only at ran
          obtain ⟨cmds, tail, shape, split, stops⟩ := ih ran
          refine ⟨file.take cmdLen :: cmds, tail, by rw [shape, append_assoc]; rfl, ?_, stops⟩
          rw [flatten_cons, append_assoc, ← split, take_append_drop]

theorem aofCommands_partition (ran : aofCommands file = some cmds) : ∃ tail, file = cmds.flatten ++ tail ∧ Stops tail := by
  obtain ⟨cmds', tail, rfl, split, stops⟩ := aofLoadLoop_partition ran
  exact ⟨tail, split, stops⟩

theorem take_flatten (whole : ∀ c ∈ cmds, Exact c) (k : Nat) :
    ∃ n tail, cmds.flatten.take k = (cmds.take n).flatten ++ tail ∧ Stops tail := by
  rcases Nat.lt_or_ge k cmds.flatten.length with cut | all
  · apply torn_commands whole cut
    · intro j early
      rw [getElem?_take_of_lt early]
    · intro j late _ b there
      rw [getElem?_take_eq_none late] at there
      cases there
  · exact ⟨cmds.length, [], by rw [take_of_length_le all, take_length, append_nil], Or.inl rfl⟩

/-- The second restart finds the old and the appended commands exactly if the torn bytes and the new commands behind them begin
    with the new commands. -/
theorem restart_replays_iff {cmds : List Bytes} (whole : ∀ c ∈ cmds, Resp.Exact c) (k : Nat) :
    ∃ n torn, cmds.flatten.take k = (cmds.take n).flatten ++ torn ∧ aofCommands (cmds.flatten.take k) = some (cmds.take n) ∧
      ∀ (steps : List Aof.Step) (s : Aof), (∀ action ∈ steps, action.Whole) →
        steps.foldlM Aof.step (kvsPersistenceInit (cmds.flatten.take k)) = some s → s.Drained →
        (aofCommands s.disk.file = some (cmds.take n ++ s.queued) ↔
          ∃ rest, torn ++ s.queued.flatten = s.queued.flatten ++ rest ∧ Stops rest) := by
  obtain ⟨n, torn, left, stops⟩ := take_flatten whole k
  have complete : ∀ c ∈ cmds.take n, Exact c := fun c member => whole c (mem_of_mem_take member)
  refine ⟨n, torn, left, by rw [left]; exact aofCommands_flatten complete stops, ?_⟩
  intro steps s valid ran drained
  have start : (kvsPersistenceInit (cmds.flatten.take k)).Consistent (cmds.flatten.take k) := ⟨[], [], id, Aof.inv_init _⟩
  have consistent := start.run valid ran
  have file := consistent.file_drained drained
  rw [left, append_assoc] at file
  have queued : ∀ c ∈ cmds.take n ++ s.queued, Exact c := by
    obtain ⟨_, _, _, inv⟩ := consistent
    intro c member
    rcases mem_append.mp member with old | new
    · exact complete c old
    · exact inv.ordered.whole c new
  constructor
  · intro replayed
    obtain ⟨rest, split, stop⟩ := aofCommands_partition replayed
    rw [file, flatten_append, append_assoc] at split
    exact ⟨rest, append_cancel_left split, stop⟩
  · rintro ⟨rest, again, stop⟩
    have all := aofCommands_flatten queued stop
    rwa [flatten_append, append_assoc, ← again, ← file] at all

section Lost

def setMessage : Bytes := Resp.encode [ascii "SET", [107], [118]]

def setSteps : List Aof.Step :=
  [.append setMessage true, .appendStore, .appendPublish] ++ List.replicate 10 (.work true) ++
    [.kernel 0 .consume, .kernel 0 (.write setMessage.length), .kernel 0 .complete, .work true, .reap 0]

theorem setSteps_whole : ∀ action ∈ setSteps, action.Whole := by decide +kernel

theorem setSteps_end : ∃ s, setSteps.foldlM Aof.step (kvsPersistenceInit ([setMessage].flatten.take 5)) = some s ∧ s.Drained ∧
      s.queued = [setMessage] ∧ aofCommands s.disk.file = some [] := by
  have ends : ((setSteps.foldlM Aof.step (kvsPersistenceInit ([setMessage].flatten.take 5))).map fun s =>
      decide (s.ring.readIdx = s.ring.writeIdx ∧ s.disk.inflight = 0 ∧ s.disk.failed = false ∧ s.queued = [setMessage] ∧
        aofCommands s.disk.file = some [])) = some true := by decide +kernel
  obtain ⟨s, ran, drained⟩ := map_eq_some_iff.mp ends
  obtain ⟨read, idle, clean, queued, replayed⟩ := of_decide_eq_true drained
  exact ⟨s, ran, ⟨read, idle, clean⟩, queued, replayed⟩

/-- The file was cut in the first command; the command that is appended after the restart is not found by the next one. -/
theorem torn_tail_hides_commands :
    Resp.Exact setMessage ∧ aofCommands ([setMessage].flatten.take 5) = some [] ∧ (∀ action ∈ setSteps, action.Whole) ∧
      ∃ s, setSteps.foldlM Aof.step (kvsPersistenceInit ([setMessage].flatten.take 5)) = some s ∧ s.Drained ∧
        s.queued = [setMessage] ∧ aofCommands s.disk.file = some [] :=
  ⟨by decide +kernel, by decide +kernel, setSteps_whole, setSteps_end⟩

theorem restart_replays_iff_set : ∃ n torn, [setMessage].flatten.take 5 = ([setMessage].take n).flatten ++ torn ∧
      aofCommands ([setMessage].flatten.take 5) = some ([setMessage].take n) ∧
      ∃ s, setSteps.foldlM Aof.step (kvsPersistenceInit ([setMessage].flatten.take 5)) = some s ∧ s.Drained ∧
        (aofCommands s.disk.file = some ([setMessage].take n ++ s.queued) ↔
          ∃ rest, torn ++ s.queued.flatten = s.queued.flatten ++ rest ∧ Stops rest) := by
  obtain ⟨n, torn, left, loaded, again⟩ := restart_replays_iff (show ∀ c ∈ [setMessage], Exact c by decide +kernel) 5
  obtain ⟨s, ran, drained, _⟩ := setSteps_end
  exact ⟨n, torn, left, loaded, s, ran, drained, again setSteps s setSteps_whole ran drained⟩

end Lost

section Recovery

variable {F : Type} [LinearOrder F] (A : FloatText F) {envs : Nat → Env} {s s' t : Server F}

variable {inputs : List (Env × Bytes)} (ample : ∀ input ∈ inputs, input.1.Ample) (messages : ∀ input ∈ inputs, Recordable input.2)
  (ample' : ∀ n, (envs n).Ample)

include ample messages ample'

end Recovery

end AICacheDB
