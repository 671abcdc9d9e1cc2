import AICacheDB.Library.Run
import Mathlib.Data.List.Infix

open List Machine

namespace Segments

variable {α : Type*}

/-- All that has come of the frames `rest`: the first bytes of the first one, which is not complete. -/
def Partial (rest : List (List α)) (u : List α) : Prop := u = [] ∨ ∃ c later, rest = c :: later ∧ u <+: c ∧ u ≠ c

theorem split {frames : List (List α)} {b : List α} (begins : b <+: frames.flatten) :
    ∃ done rest u, frames = done ++ rest ∧ b = done.flatten ++ u ∧ Partial rest u := by
  induction frames generalizing b with
  | nil => exact ⟨[], [], [], rfl, prefix_nil.mp begins, .inl rfl⟩
  | cons c frames ih =>
    rw [flatten_cons] at begins
    rcases prefix_or_prefix_of_prefix begins (prefix_append c frames.flatten) with inside | ⟨b', rfl⟩
    · by_cases whole : b = c
      · exact ⟨[c], frames, [], rfl, by simp [whole], .inl rfl⟩
      · exact ⟨[], c :: frames, b, rfl, rfl, .inr ⟨c, frames, rfl, inside, whole⟩⟩
    · obtain ⟨done, rest, u, rfl, rfl, part⟩ := ih ((prefix_append_right_inj c).mp begins)
      exact ⟨c :: done, rest, u, rfl, by simp, part⟩

theorem Partial.eq_nil {rest : List (List α)} {u : List α} (part : Partial rest u) (real : ∀ c ∈ rest, c ≠ [])
    (all : u = rest.flatten) : rest = [] := by
  cases rest with
  | nil => rfl
  | cons c rest =>
    rw [flatten_cons] at all
    rcases part with rfl | ⟨_, _, same, begins, proper⟩
    · exact absurd (append_eq_nil_iff.mp all.symm).1 (real c (by simp))
    · cases same
      have short := begins.length_le
      rw [all, length_append] at short
      refine absurd ?_ proper
      rw [all, length_eq_zero_iff.mp (show rest.flatten.length = 0 by omega), append_nil]

section Reader

variable {σ ι : Type*} {step : σ → ι → Option (σ × List (List α))} {fits : σ → ι → Prop} {chunk : ι → List α} {pending : σ → List α}
  {awaits : σ → List (List α) → Prop}

/-- A machine that gets a stream in pieces and gives out its frames: those that it `awaits` begin with the bytes `pending`. -/
structure Reads (step : σ → ι → Option (σ × List (List α))) (fits : σ → ι → Prop) (chunk : ι → List α) (pending : σ → List α)
    (awaits : σ → List (List α) → Prop) : Prop where
  real : ∀ {s rest}, awaits s rest → ∀ c ∈ rest, c ≠ []
  part : ∀ {s rest}, awaits s rest → Partial rest (pending s)
  step : ∀ {s rest i}, awaits s rest → fits s i → pending s ++ chunk i <+: rest.flatten →
    ∃ s' more later, step s i = some (s', more) ∧ rest = more ++ later ∧ pending s ++ chunk i = more.flatten ++ pending s' ∧
      awaits s' later

variable {is : List ι} {rest : List (List α)}

theorem Reads.run (reads : Reads step fits chunk pending awaits) {s : σ} (start : awaits s rest)
    (meets : Meets step fits s is) (begins : pending s ++ (is.map chunk).flatten <+: rest.flatten) :
    ∃ s' outs later, run step s is = some (s', outs) ∧ rest = outs.flatten ++ later ∧
      pending s ++ (is.map chunk).flatten = outs.flatten.flatten ++ pending s' ∧ awaits s' later := by
  induction is generalizing s rest with
  | nil => exact ⟨s, [], rest, rfl, rfl, by simp, start⟩
  | cons i is ih =>
    rw [map_cons, flatten_cons, ← append_assoc] at begins ⊢
    obtain ⟨s1, more, later, stepped, rfl, bytes, awaits1⟩ := reads.step start meets.1 ((prefix_append _ _).trans begins)
    rw [bytes, append_assoc, flatten_append] at begins
    obtain ⟨s2, outs, later2, ran, rfl, bytes2, awaits2⟩ :=
      ih awaits1 (meets.2 _ _ stepped) ((prefix_append_right_inj _).mp begins)
    refine ⟨s2, more :: outs, later2, ?_, by simp, ?_, awaits2⟩
    · rw [run_cons_of_step is stepped, ran]
      rfl
    · rw [bytes, append_assoc, bytes2]
      simp

theorem Reads.run_all (reads : Reads step fits chunk pending awaits) {s : σ} (start : awaits s rest)
    (meets : Machine.Meets step fits s is) (all : pending s ++ (is.map chunk).flatten = rest.flatten) :
    ∃ s' outs, Machine.run step s is = some (s', outs) ∧ outs.flatten = rest ∧ awaits s' [] := by
  obtain ⟨s', outs, later, ran, rfl, bytes, last⟩ := reads.run start meets (all ▸ prefix_rfl)
  have left : pending s' = later.flatten := by
    rw [all, flatten_append] at bytes
    exact (append_cancel_left bytes).symm
  have none_ := (reads.part last).eq_nil (reads.real last) left
  subst none_
  exact ⟨s', outs, ran, (append_nil _).symm, last⟩

end Reader

end Segments
