import Mathlib.Data.List.Nodup
import Mathlib.Data.List.Perm.Basic

open List hiding getElem?_eq_some_iff

namespace KeyedList

variable {κ β : Type*} [DecidableEq κ] {key : β → κ}

def lookup (key : β → κ) (l : List β) (k : κ) : Option β := l.find? (fun x => key x = k)

@[simp] theorem lookup_nil (k : κ) : lookup key [] k = none := rfl

theorem lookup_cons (x : β) (l : List β) (k : κ) :
    lookup key (x :: l) k = if key x = k then some x else lookup key l k := by
  by_cases same : key x = k <;> simp [lookup, same]

theorem lookup_append (xs ys : List β) (k : κ) : lookup key (xs ++ ys) k = (lookup key xs k).or (lookup key ys k) := by
  simp [lookup, find?_append]

variable {l : List β} {k : κ} {x : β} {l' xs ys : List β}

theorem lookup_eq_none_iff : lookup key l k = none ↔ k ∉ l.map key := by
  simp [lookup, find?_eq_none, not_exists, not_and]

theorem lookup_some_mem (found : lookup key l k = some x) : x ∈ l ∧ key x = k := by
  have same := find?_some found
  exact ⟨mem_of_find?_eq_some found, by simpa using same⟩

theorem lookup_of_mem (nodup : (l.map key).Nodup) (member : x ∈ l) : lookup key l (key x) = some x := by
  induction l with
  | nil => simp at member
  | cons y ys ih =>
    simp only [map_cons, nodup_cons] at nodup
    rw [lookup_cons]
    rcases mem_cons.mp member with rfl | later
    · simp
    · have other : key y ≠ key x := fun same => nodup.1 (same ▸ mem_map_of_mem later)
      rw [if_neg other, ih nodup.2 later]

theorem lookup_eq_some_iff (nodup : (l.map key).Nodup) : lookup key l k = some x ↔ x ∈ l ∧ key x = k := by
  constructor
  · exact lookup_some_mem
  · rintro ⟨member, rfl⟩
    exact lookup_of_mem nodup member

theorem lookup_congr (nodup : (l.map key).Nodup) (nodup' : (l'.map key).Nodup)
    (same : ∀ x, key x = k → (x ∈ l ↔ x ∈ l')) : lookup key l k = lookup key l' k := by
  apply Option.ext
  intro x
  rw [lookup_eq_some_iff nodup, lookup_eq_some_iff nodup']
  constructor
  · rintro ⟨member, is⟩
    exact ⟨(same x is).mp member, is⟩
  · rintro ⟨member, is⟩
    exact ⟨(same x is).mpr member, is⟩

theorem lookup_perm (nodup : (l.map key).Nodup) (perm : l.Perm l') (k : κ) : lookup key l k = lookup key l' k :=
  lookup_congr nodup ((perm.map key).nodup_iff.mp nodup) (fun _ _ => perm.mem_iff)

theorem lookup_middle (nodup : ((xs ++ x :: ys).map key).Nodup) (k : κ) :
    lookup key (xs ++ x :: ys) k = if key x = k then some x else lookup key (xs ++ ys) k := by
  by_cases same : key x = k
  · rw [if_pos same, ← same]
    exact lookup_of_mem nodup (by simp)
  · rw [if_neg same, lookup_append, lookup_append, lookup_cons, if_neg same]

theorem lookup_removed (nodup : ((xs ++ x :: ys).map key).Nodup) : lookup key (xs ++ ys) (key x) = none := by
  rw [lookup_eq_none_iff]
  simp only [map_append, map_cons, nodup_middle, nodup_cons, mem_append] at nodup ⊢
  exact nodup.1

theorem lookup_filter (nodup : (l.map key).Nodup) (p : β → Bool) (k : κ) :
    lookup key (l.filter p) k = (lookup key l k).filter p := by
  have kept : ((l.filter p).map key).Nodup := nodup.sublist (filter_sublist.map key)
  apply Option.ext
  intro x
  rw [lookup_eq_some_iff kept, Option.filter_eq_some_iff, lookup_eq_some_iff nodup, mem_filter]
  tauto

section Position

variable {α : Type*}

theorem findIdx_cases (key : β → κ) (l : List β) (k : κ) :
    (∃ xs x ys, l = xs ++ x :: ys ∧ key x = k ∧ l.findIdx? (fun x => key x = k) = some xs.length) ∨
      (∀ x ∈ l, key x ≠ k) ∧ l.findIdx? (fun x => key x = k) = none := by
  induction l with
  | nil => exact .inr ⟨by simp, rfl⟩
  | cons y ys ih =>
    rw [findIdx?_cons]
    by_cases same : key y = k
    · exact .inl ⟨[], y, ys, rfl, same, by simp [same]⟩
    · rcases ih with ⟨xs, x, zs, shape, is, found⟩ | ⟨absent, found⟩
      · exact .inl ⟨y :: xs, x, zs, by rw [shape]; rfl, is, by simp [same, found]⟩
      · refine .inr ⟨fun x member => ?_, by simp [same, found]⟩
        rcases mem_cons.mp member with rfl | later
        · exact same
        · exact absent x later

def swapRemove (l : List α) (i : Nat) : List α :=
  match l.getLast? with
  | none => l
  | some last => (l.set i last).dropLast

theorem swapRemove_split (xs : List α) (x : α) (ys : List α) :
    ∃ ys', swapRemove (xs ++ x :: ys) xs.length = xs ++ ys' ∧ ys'.Perm ys := by
  rcases eq_nil_or_concat' ys with rfl | ⟨zs, last, rfl⟩
  · exact ⟨[], by simp [swapRemove], .nil⟩
  · refine ⟨last :: zs, ?_, (perm_append_singleton last zs).symm⟩
    have tail : (xs ++ x :: (zs ++ [last])).getLast? = some last := by
      rw [← cons_append, ← append_assoc, getLast?_concat]
    rw [swapRemove, tail]
    simp only [set_append_right _ _ (Nat.le_refl _), Nat.sub_self, set_cons_zero]
    rw [← cons_append, ← append_assoc, dropLast_concat]

variable {i : Nat}

theorem length_swapRemove {l : List α} (inside : i < l.length) : (swapRemove l i).length = l.length - 1 := by
  have full : l ≠ [] := ne_nil_of_length_pos (Nat.zero_lt_of_lt inside)
  rw [swapRemove, getLast?_eq_some_getLast full]
  simp

theorem getElem?_swapRemove {l : List α} {j : Nat} (inside : i < l.length) (kept : j < l.length - 1) :
    (swapRemove l i)[j]? = if j = i then l[l.length - 1]? else l[j]? := by
  have full : l ≠ [] := ne_nil_of_length_pos (Nat.zero_lt_of_lt inside)
  have short : j < (l.set i (l.getLast full)).length - 1 := by rwa [length_set]
  rw [swapRemove, getLast?_eq_some_getLast full]
  rw [getElem?_dropLast, if_pos short, getElem?_set]
  by_cases here : j = i
  · rw [if_pos here, if_pos here.symm, if_pos inside, ← getLast?_eq_getElem?, getLast?_eq_some_getLast full]
  · rw [if_neg here, if_neg (Ne.symm here)]

theorem split_of_getElem? {l : List α} {x : α} (here : l[i]? = some x) : ∃ xs ys, l = xs ++ x :: ys ∧ xs.length = i := by
  obtain ⟨inside, rfl⟩ := List.getElem?_eq_some_iff.mp here
  refine ⟨l.take i, l.drop (i + 1), ?_, length_take_of_le (Nat.le_of_lt inside)⟩
  rw [← drop_eq_getElem_cons inside, take_append_drop]

theorem modify_split (xs : List α) (x : α) (ys : List α) (f : α → α) :
    (xs ++ x :: ys).modify xs.length f = xs ++ f x :: ys := by
  induction xs with
  | nil => rfl
  | cons z zs ih => simpa using ih

end Position

end KeyedList
