import AICacheDB.Command.Execute

open CLib List Option

namespace AICacheDB

open Resp

def aofLoadLoop {σ : Type} (execute : σ → Bytes → Option σ) : Nat → σ → Bytes → Option σ
  | 0, _, _ => none
  | fuel + 1, s, buf =>
    if buf = [] then some s
    else do
      let frame ← Resp.respParseOneCommand buf
      match frame with
      | .complete cmdLen => do
        let s ← execute s (buf.take cmdLen)
        aofLoadLoop execute fuel s (buf.drop cmdLen)
      | _ => some s

def aofLoad {σ : Type} (execute : σ → Bytes → Option σ) (s : σ) (file : Bytes) : Option σ :=
  aofLoadLoop execute (file.length + 1) s file

def aofCommands (file : Bytes) : Option (List Bytes) := aofLoad (fun done cmd => some (done ++ [cmd])) [] file

section Loop

variable {σ : Type} (execute : σ → Bytes → Option σ)

theorem aofLoadLoop_cons (fuel : Nat) (s : σ) {c : Bytes} (whole : Exact c) (rest : Bytes) :
    aofLoadLoop execute (fuel + 1) s (c ++ rest) = (execute s c).bind fun s => aofLoadLoop execute fuel s rest := by
  have real : c ++ rest ≠ [] := fun empty => whole.ne_nil (append_eq_nil_iff.mp empty).1
  rw [aofLoadLoop, if_neg real]
  simp only [whole.append rest, take_left, drop_left, bind_eq_bind, bind_some]

variable {tail : Bytes} {cmds : List Bytes}

theorem aofLoadLoop_stop (fuel : Nat) (s : σ) (stop : tail = [] ∨ Stopped (respParseOneCommand tail)) :
    aofLoadLoop execute (fuel + 1) s tail = some s := by
  by_cases empty : tail = []
  · rw [aofLoadLoop, if_pos empty]
  · rw [aofLoadLoop, if_neg empty]
    rcases stop.resolve_left empty with bad | short
    · rw [bad]
      rfl
    · rw [short]
      rfl

theorem aofLoad_flatten (whole : ∀ c ∈ cmds, Exact c) (stop : tail = [] ∨ Stopped (respParseOneCommand tail)) (s : σ) :
    aofLoad execute s (cmds.flatten ++ tail) = cmds.foldlM execute s := by
  have loop : ∀ (fuel : Nat) (s : σ), (cmds.flatten ++ tail).length < fuel →
      aofLoadLoop execute fuel s (cmds.flatten ++ tail) = cmds.foldlM execute s := by
    induction cmds with
    | nil =>
      intro fuel s enough
      obtain ⟨fuel, rfl⟩ := Nat.exists_eq_add_one_of_ne_zero (Nat.ne_of_gt (Nat.zero_lt_of_lt enough))
      exact aofLoadLoop_stop execute fuel s stop
    | cons c cmds ih =>
      intro fuel s enough
      have first := whole c (by simp)
      have longer := length_pos_of_ne_nil first.ne_nil
      obtain ⟨fuel, rfl⟩ := Nat.exists_eq_add_one_of_ne_zero (Nat.ne_of_gt (Nat.zero_lt_of_lt enough))
      rw [flatten_cons, append_assoc] at enough ⊢
      rw [aofLoadLoop_cons execute fuel s first, foldlM_cons]
      apply Option.bind_congr
      intro s' _
      apply ih (fun c member => whole c (mem_cons_of_mem _ member))
      rw [length_append] at enough
      omega
  exact loop _ s (Nat.lt_succ_self _)

theorem aofCommands_flatten (whole : ∀ c ∈ cmds, Exact c)
    (stop : tail = [] ∨ Stopped (respParseOneCommand tail)) : aofCommands (cmds.flatten ++ tail) = some cmds := by
  have collect : ∀ (l done : List Bytes), l.foldlM (fun done cmd => some (done ++ [cmd])) done = some (done ++ l) := by
    intro l
    induction l with
    | nil => exact fun done => by rw [append_nil]; rfl
    | cons c l ih => exact fun done => by rw [foldlM_cons, bind_eq_bind, bind_some, ih, append_assoc]; rfl
  rw [aofCommands, aofLoad_flatten _ whole stop, collect, nil_append]

end Loop

section File

variable {F : Type} [LT F] [LE F] [DecidableLT F] [DecidableLE F] (A : FloatText F)

def loadCommand (envs : Nat → Env) : Nat × Server F → Bytes → Option (Nat × Server F) :=
  fun (i, s) cmd => (kvsProtocol A (envs i) s cmd).map fun r => (i + 1, r.1)

def aofLoadFile (envs : Nat → Env) (memory : Bool) (s : Server F) (file : Bytes) : Option (Server F × Int) :=
  if file = [] then some (s, 0)
  else if memory = false then some (s, -1)
  else do
    let (_, s) ← aofLoad (loadCommand A envs) (0, { s with loading := true }) file
    some ({ s with loading := false }, 0)

end File

end AICacheDB
