import AICacheDB.Library.Run

open List Machine

inductive Edit (V : Type*) where
  | keep
  | force (stored : Option V)
  | change (value : V)

namespace Edit

variable {V : Type*}

def apply : Edit V → Option V → Option V
  | keep, stored => stored
  | force stored, _ => stored
  | change value, stored => stored.map fun _ => value

def andThen : Edit V → Edit V → Edit V
  | e, keep => e
  | _, force stored => force stored
  | keep, change value => change value
  | force stored, change value => force (stored.map fun _ => value)
  | change _, change value => change value

theorem apply_andThen (e e' : Edit V) (stored : Option V) : (e.andThen e').apply stored = e'.apply (e.apply stored) := by
  cases e' with
  | keep => cases e <;> rfl
  | force stored' => cases e <;> rfl
  | change value =>
    cases e with
    | keep => rfl
    | force stored' => rfl
    | change value' => cases stored <;> rfl

theorem apply_apply (e : Edit V) (stored : Option V) : e.apply (e.apply stored) = e.apply stored := by
  cases e with
  | keep => rfl
  | force stored' => rfl
  | change value => cases stored <;> rfl

def all (es : List (Edit V)) : Edit V := es.foldr andThen keep

theorem apply_all_cons (e : Edit V) (es : List (Edit V)) (stored : Option V) :
    (all (e :: es)).apply stored = (all es).apply (e.apply stored) := apply_andThen e (all es) stored

variable {σ ι ο κ : Type*} {step : σ → ι → Option (σ × ο)} {condition : σ → ι → Prop} (view : σ → κ → Option V)
  (edit : ι → κ → Edit V)

theorem run_edits {inv : σ → Prop}
    (edits : ∀ s i, inv s → condition s i → ∃ s' o, step s i = some (s', o) ∧ inv s' ∧ ∀ k, view s' k = (edit i k).apply (view s k))
    {s : σ} {is : List ι} (start : inv s) (meets : Meets step condition s is) :
    ∃ s' os, run step s is = some (s', os) ∧ inv s' ∧ ∀ k, view s' k = (all (is.map (edit · k))).apply (view s k) := by
  induction is generalizing s with
  | nil => exact ⟨s, [], rfl, start, fun _ => rfl⟩
  | cons i is ih =>
    obtain ⟨s1, o, stepped, inv1, view1⟩ := edits s i start meets.1
    obtain ⟨s2, os, ran, inv2, view2⟩ := ih inv1 (meets.2 s1 o stepped)
    refine ⟨s2, o :: os, by rw [run_cons_of_step is stepped, ran]; rfl, inv2, fun k => ?_⟩
    rw [view2, view1, map_cons, apply_all_cons]

theorem run_again {inv : σ → Prop}
    (edits : ∀ s i, inv s → condition s i → ∃ s' o, step s i = some (s', o) ∧ inv s' ∧ ∀ k, view s' k = (edit i k).apply (view s k))
    {s : σ} {is is' : List ι} (same : is'.map edit = is.map edit) (start : inv s) (meets : Meets step condition s (is ++ is')) :
    ∃ s1 os1 s2 os2, run step s is = some (s1, os1) ∧ run step s1 is' = some (s2, os2) ∧ view s2 = view s1 := by
  obtain ⟨s1, os1, ran1, inv1, view1⟩ := run_edits view edit edits start meets.left
  obtain ⟨s2, os2, ran2, _, view2⟩ := run_edits view edit edits inv1 (meets.right ran1)
  refine ⟨s1, os1, s2, os2, ran1, ran2, funext fun k => ?_⟩
  have sameAt : is'.map (edit · k) = is.map (edit · k) := by
    have at_ := congrArg (map fun e : κ → Edit V => e k) same
    rwa [map_map, map_map] at at_
  rw [view2, sameAt, view1, apply_apply]

end Edit
