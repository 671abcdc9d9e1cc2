import Mathlib.Data.List.Count

open List

namespace Extents

/-- A range of addresses, as its start and its size. -/
abbrev Extent := Nat × Nat

def Apart (r r' : Extent) : Prop := r.1 + r.2 ≤ r'.1 ∨ r'.1 + r'.2 ≤ r.1

instance (r r' : Extent) : Decidable (Apart r r') := inferInstanceAs (Decidable (_ ∨ _))

def hits (a : Nat) (r : Extent) : Nat := if r.1 ≤ a ∧ a < r.1 + r.2 then 1 else 0

def cover (a : Nat) (l : List Extent) : Nat := l.countP fun r => r.1 ≤ a ∧ a < r.1 + r.2

variable {a : Nat} {r r' : Extent} {l l' : List Extent}

@[simp] theorem cover_nil : cover a [] = 0 := rfl

@[simp] theorem cover_cons : cover a (r :: l) = hits a r + cover a l := by
  simp [cover, hits, countP_cons, Nat.add_comm]

@[simp] theorem cover_append : cover a (l ++ l') = cover a l + cover a l' := countP_append

theorem cover_perm (perm : l.Perm l') : cover a l = cover a l' := perm.countP_eq _

theorem hits_split (a start first second : Nat) :
    hits a (start, first + second) = hits a (start, first) + hits a (start + first, second) := by
  grind [hits]

theorem hits_le_cover (member : r ∈ l) (a : Nat) : hits a r ≤ cover a l := by
  obtain ⟨xs, ys, rfl⟩ := append_of_mem member
  rw [cover_append, cover_cons]
  omega

theorem apart_of_hits (full : 0 < r.2) (full' : 0 < r'.2) (once : ∀ a, hits a r + hits a r' ≤ 1) : Apart r r' := by
  have first := once r.1
  have second := once r'.1
  grind [hits, Apart]

theorem pairwise_apart (once : ∀ a, cover a l ≤ 1) (full : ∀ r ∈ l, 0 < r.2) : l.Pairwise Apart := by
  induction l with
  | nil => exact .nil
  | cons r l ih =>
    simp only [cover_cons] at once
    refine .cons (fun r' member => apart_of_hits (full r (by simp)) (full r' (by simp [member])) fun a => ?_)
      (ih (fun a => by have := once a; omega) fun r' member => full r' (by simp [member]))
    have := once a
    have := hits_le_cover member a
    omega

theorem cover_cons_le (fresh : ∀ b ∈ l, Apart r b) (once : ∀ a, cover a l ≤ 1) (a : Nat) : cover a (r :: l) ≤ 1 := by
  by_cases hit : r.1 ≤ a ∧ a < r.1 + r.2
  · have missed : cover a l = 0 := countP_eq_zero.mpr fun b member => by grind [fresh b member, Apart]
    simp [hits, hit, missed]
  · rw [cover_cons, hits, if_neg hit, Nat.zero_add]
    exact once a

end Extents
