import Mathlib.Data.List.Forall2
import Mathlib.Logic.Relation

open List Option

namespace Machine

variable {σ ι ο α ω : Type*}

/-- Runs of a state machine whose steps can fail; a failed step ends the run in `none`. -/
def run (step : σ → ι → Option (σ × ο)) : σ → List ι → Option (σ × List ο)
  | s, [] => some (s, [])
  | s, i :: is => do
    let (s', o) ← step s i
    let (s'', os) ← run step s' is
    some (s'', o :: os)

def runTotal (step : α → ι → α × ω) : α → List ι → α × List ω
  | a, [] => (a, [])
  | a, i :: is =>
    let (a', o) := step a i
    let (a'', os) := runTotal step a' is
    (a'', o :: os)

def Meets (step : σ → ι → Option (σ × ο)) (condition : σ → ι → Prop) : σ → List ι → Prop
  | _, [] => True
  | s, i :: is => condition s i ∧ ∀ s' o, step s i = some (s', o) → Meets step condition s' is

@[simp] theorem run_nil (step : σ → ι → Option (σ × ο)) (s : σ) : run step s [] = some (s, []) := rfl

@[simp] theorem runTotal_nil (step : α → ι → α × ω) (a : α) : runTotal step a [] = (a, []) := rfl

@[simp] theorem runTotal_cons (step : α → ι → α × ω) (a : α) (i : ι) (is : List ι) : runTotal step a (i :: is) =
      ((runTotal step (step a i).1 is).1, (step a i).2 :: (runTotal step (step a i).1 is).2) := rfl

variable {step : σ → ι → Option (σ × ο)} {s : σ} {is : List ι} {os : List ο} {condition : σ → ι → Prop}
  {s' : σ} {js l : List ι} {f : σ → ι → Option σ}

theorem run_cons_of_step {i : ι} {o : ο} (is : List ι) (stepped : step s i = some (s', o)) :
    run step s (i :: is) = (run step s' is).map (fun r => (r.1, o :: r.2)) := by
  simp only [run, stepped, bind, Option.bind]
  cases run step s' is <;> rfl

theorem run_cons_some {s'' : σ} {i : ι} (ran : run step s (i :: is) = some (s'', os)) :
    ∃ s' o rest, step s i = some (s', o) ∧ run step s' is = some (s'', rest) ∧ os = o :: rest := by
  cases stepped : step s i with
  | none => simp [run, stepped] at ran
  | some next =>
    obtain ⟨s', o⟩ := next
    rw [run_cons_of_step is stepped] at ran
    cases later : run step s' is with
    | none => simp [later] at ran
    | some result =>
      obtain ⟨t, rest⟩ := result
      rw [later] at ran
      cases ran
      exact ⟨s', o, rest, rfl, later, rfl⟩

theorem run_append (step : σ → ι → Option (σ × ο)) (s : σ) (is js : List ι) :
    run step s (is ++ js) = (run step s is).bind fun r => (run step r.1 js).map fun q => (q.1, r.2 ++ q.2) := by
  induction is generalizing s with
  | nil => simp
  | cons i is ih =>
    cases stepped : step s i with
    | none => simp [run, stepped]
    | some next =>
      obtain ⟨s', o⟩ := next
      rw [cons_append, run_cons_of_step _ stepped, run_cons_of_step _ stepped, ih s']
      cases run step s' is <;> simp [Function.comp_def]

theorem run_append_some (ran : run step s (is ++ js) = some (s', os)) :
    ∃ t first later, run step s is = some (t, first) ∧ run step t js = some (s', later) ∧ os = first ++ later := by
  rw [run_append, bind_eq_some_iff] at ran
  obtain ⟨⟨t, first⟩, ran1, ran⟩ := ran
  rw [map_eq_some_iff] at ran
  obtain ⟨⟨s1, later⟩, ran2, same⟩ := ran
  cases same
  exact ⟨t, first, later, ran1, ran2, rfl⟩

theorem run_invariant (inv : σ → Prop) (keeps : ∀ s i, inv s → condition s i → ∃ s' o, step s i = some (s', o) ∧ inv s')
    (start : inv s) (meets : Meets step condition s is) : ∃ s' os, run step s is = some (s', os) ∧ inv s' := by
  induction is generalizing s with
  | nil => exact ⟨s, [], rfl, start⟩
  | cons i is ih =>
    obtain ⟨s', o, stepped, next⟩ := keeps s i start meets.1
    obtain ⟨s'', os, ran, last⟩ := ih next (meets.2 s' o stepped)
    exact ⟨s'', o :: os, by rw [run_cons_of_step is stepped, ran]; rfl, last⟩

theorem run_keeps {inv : σ → Prop} (keeps : ∀ s i s' o, inv s → condition s i → step s i = some (s', o) → inv s') {s' : σ}
    (start : inv s) (meets : Meets step condition s is) (ran : run step s is = some (s', os)) : inv s' := by
  induction is generalizing s os with
  | nil =>
    cases ran
    exact start
  | cons i is ih =>
    obtain ⟨s1, o, rest, stepped, later, _⟩ := run_cons_some ran
    exact ih (keeps s i s1 o start meets.1 stepped) (meets.2 s1 o stepped) later

/-- A simulation of a total machine extends to runs: they succeed, end related, and the outputs match. -/
theorem run_simulation {spec : α → ι → α × ω} (related : σ → α → Prop) (match_ : ο → ω → Prop)
    (simulates : ∀ s a i, related s a → condition s i →
      ∃ s' o, step s i = some (s', o) ∧ related s' (spec a i).1 ∧ match_ o (spec a i).2)
    {a : α} (start : related s a) (meets : Meets step condition s is) :
    ∃ s' os, run step s is = some (s', os) ∧ related s' (runTotal spec a is).1 ∧
      Forall₂ match_ os (runTotal spec a is).2 := by
  induction is generalizing s a with
  | nil => exact ⟨s, [], rfl, start, .nil⟩
  | cons i is ih =>
    obtain ⟨s', o, stepped, next, matched⟩ := simulates s a i start meets.1
    obtain ⟨s'', os, ran, last, outputs⟩ := ih next (meets.2 s' o stepped)
    exact ⟨s'', o :: os, by rw [run_cons_of_step is stepped, ran]; rfl, last, .cons matched outputs⟩

inductive Steps (allowed : α → ι → ω → α → Prop) : α → List ι → List ω → α → Prop where
  | nil {a : α} : Steps allowed a [] [] a
  | cons {a a' a'' : α} {i : ι} {o : ω} {is : List ι} {os : List ω} (first : allowed a i o a') (rest : Steps allowed a' is os a'') :
      Steps allowed a (i :: is) (o :: os) a''

theorem runTotal_refines {step : σ → ι → σ × ω} {allowed : α → ι → ω → α → Prop} {related : σ → α → Prop}
    (refines : ∀ s a i, related s a → ∃ a', allowed a i (step s i).2 a' ∧ related (step s i).1 a') {a : α} (start : related s a)
    (is : List ι) : ∃ a', Steps allowed a is (runTotal step s is).2 a' ∧ related (runTotal step s is).1 a' := by
  induction is generalizing s a with
  | nil => exact ⟨a, .nil, start⟩
  | cons i is ih =>
    obtain ⟨a1, first, related1⟩ := refines s a i start
    obtain ⟨a2, rest, related2⟩ := ih related1
    exact ⟨a2, .cons first rest, related2⟩

theorem Meets.left (meets : Meets step condition s (is ++ js)) : Meets step condition s is := by
  induction is generalizing s with
  | nil => trivial
  | cons i is ih => exact ⟨meets.1, fun s' o stepped => ih (meets.2 s' o stepped)⟩

theorem Meets.right {t : σ}
    (meets : Meets step condition s (is ++ js)) (ran : run step s is = some (t, os)) : Meets step condition t js := by
  induction is generalizing s os with
  | nil =>
    cases ran
    exact meets
  | cons i is ih =>
    obtain ⟨s', o, rest, stepped, ran, _⟩ := run_cons_some ran
    exact ih (meets.2 s' o stepped) ran

theorem Meets.of_runs
    (all : ∀ js i ks t os, is = js ++ i :: ks → run step s js = some (t, os) → condition t i) : Meets step condition s is := by
  induction is generalizing s with
  | nil => trivial
  | cons i is ih =>
    refine ⟨all [] i is s [] rfl rfl, fun s' o stepped => ih fun js j ks t os split ran => ?_⟩
    apply all (i :: js) j ks t (o :: os) (by rw [split]; rfl)
    rw [run_cons_of_step js stepped, ran]
    rfl

theorem Meets.of_check [∀ s i, Decidable (condition s i)]
    (check : ∀ n ∈ range is.length, ∀ i ∈ is[n]?, (run step s (is.take n)).all (fun r => decide (condition r.1 i)) = true) :
    Meets step condition s is := by
  apply Meets.of_runs
  rintro js i ks t os rfl ran
  have here := check js.length (by simp) i (by simp)
  rw [take_left, ran] at here
  exact of_decide_eq_true here

theorem Meets.of_forall (all : ∀ s, ∀ i ∈ is, condition s i) : Meets step condition s is := by
  induction is generalizing s with
  | nil => trivial
  | cons i is ih =>
    exact ⟨all s i (by simp), fun s' o _ => ih (fun t j member => all t j (by simp [member]))⟩

theorem foldlM_invariant (inv : σ → Prop) (keeps : ∀ s, ∀ a ∈ l, inv s → ∃ s', f s a = some s' ∧ inv s') (start : inv s) :
    ∃ s', l.foldlM f s = some s' ∧ inv s' := by
  induction l generalizing s with
  | nil => exact ⟨s, rfl, start⟩
  | cons a l ih =>
    obtain ⟨s1, first, inv1⟩ := keeps s a (by simp) start
    obtain ⟨s2, rest, inv2⟩ := ih (fun s b member => keeps s b (by simp [member])) inv1
    exact ⟨s2, by rw [foldlM_cons, first]; exact rest, inv2⟩

theorem foldlM_keeps (inv : σ → Prop) (keeps : ∀ s a s', a ∈ l → f s a = some s' → inv s → inv s')
    (ran : l.foldlM f s = some s') (start : inv s) : inv s' := by
  induction l generalizing s with
  | nil =>
    cases ran
    exact start
  | cons a l ih =>
    rw [foldlM_cons, bind_eq_bind, bind_eq_some_iff] at ran
    obtain ⟨s1, first, rest⟩ := ran
    exact ih (fun s b s' member => keeps s b s' (mem_cons_of_mem a member)) rest (keeps s a s1 mem_cons_self first start)

end Machine
