import AICacheDB.Library.Decimal
import AICacheDB.Persistence.Rdb
import AICacheDB.Vector.Store

open CLib List
open Option hiding or_assoc

namespace AICacheDB

/-- `%.6f` rounds a component to six decimals and `strtof` reads it back. A finite component is at most `FLT_MAX`. -/
structure ExactText (A : FloatText ℚ) : Prop where
  zero : A.zero = 0
  add : ∀ x y, A.add x y = x + y
  mul : ∀ x y, A.mul x y = x * y
  sqrtf : ∀ x, 0 ≤ x → (0 < A.sqrtf x ↔ 0 < x)
  format6 : ∀ x, A.format6 x = format6 x
  strtof : ∀ x, A.isFinite x = true →
    A.strtof (CLib.format6 x) = (round6 x, (CLib.format6 x).length, false) ∧ A.isFinite (round6 x) = true
  finite : ∀ x, A.isFinite x = true → |x| ≤ 10^39

def vectorText (vec : List ℚ) : Bytes := [44].intercalate (vec.map format6)

section Text

def pieces : Nat → List ℚ → Bytes
  | _, [] => []
  | i, x :: vec => (if i = 0 then [] else [44]) ++ format6 x ++ pieces (i + 1) vec

theorem pieces_succ (i : Nat) (vec : List ℚ) : pieces (i + 1) vec = vec.flatMap fun x => 44 :: format6 x := by
  induction vec generalizing i with
  | nil => rfl
  | cons x vec ih => rw [pieces, if_neg (Nat.succ_ne_zero i), ih, flatMap_cons]; rfl

theorem vectorText_cons (x : ℚ) (vec : List ℚ) : vectorText (x :: vec) = format6 x ++ vec.flatMap fun y => 44 :: format6 y := by
  induction vec generalizing x with
  | nil => simp [vectorText, intercalate]
  | cons y vec ih =>
    have step : vectorText (x :: y :: vec) = format6 x ++ 44 :: vectorText (y :: vec) := by
      simp [vectorText, intercalate]
    rw [step, ih, flatMap_cons]
    rfl

theorem pieces_zero (vec : List ℚ) : pieces 0 vec = vectorText vec := by
  cases vec with
  | nil => rfl
  | cons x vec => rw [pieces, if_pos rfl, pieces_succ, vectorText_cons, nil_append]

variable {A : FloatText ℚ} (exact : ExactText A)

include exact

theorem vectorTextLoop_eq (cap i : Nat) (vec : List ℚ) {text : Bytes} (room : text.length < cap) :
    vectorTextLoop A cap i vec text = if (text ++ pieces i vec).length < cap then some (text ++ pieces i vec) else none := by
  induction vec generalizing i text with
  | nil => rw [vectorTextLoop, pieces, append_nil, if_pos room]
  | cons x vec ih =>
    rw [vectorTextLoop, exact.format6]
    have total : text ++ pieces i (x :: vec) = text ++ ((if i = 0 then [] else [44]) ++ format6 x) ++ pieces (i + 1) vec := by
      rw [pieces, append_assoc, append_assoc, append_assoc]
    by_cases full : cap - text.length ≤ ((if i = 0 then [] else [44]) ++ format6 x).length
    · rw [if_pos full, if_neg]
      rw [total, length_append, length_append]
      omega
    · rw [if_neg full, ih (i + 1) (by rw [length_append]; omega), total]

theorem rdbVectorToString_eq (vec : List ℚ) :
    rdbVectorToString A true vec =
      if vec ≠ [] ∧ (vectorText vec).length ≤ 32 * vec.length then some (.ofBytes (vectorText vec)) else none := by
  unfold rdbVectorToString
  cases vec with
  | nil => rfl
  | cons x vec =>
    have real : ¬ ((x :: vec).length = 0 ∨ true = false) := by simp
    rw [if_neg real, vectorTextLoop_eq exact _ _ _ (by simp), nil_append, pieces_zero]
    by_cases fits : (vectorText (x :: vec)).length ≤ 32 * (x :: vec).length
    · rw [if_pos (by omega), if_pos ⟨cons_ne_nil x vec, fits⟩, map_some]
    · rw [if_neg (by omega), if_neg (fun both => fits both.2), map_none]

omit exact

theorem vectorText_plain (vec : List ℚ) : 0 ∉ vectorText vec := by
  cases vec with
  | nil => exact not_mem_nil
  | cons x vec =>
    rw [vectorText_cons, mem_append, mem_flatMap]
    rintro (first | ⟨y, _, later⟩)
    · exact (format6_plain x first).1 rfl
    · rcases mem_cons.mp later with comma | inside
      · cases comma
      · exact (format6_plain y inside).1 rfl

theorem vectorText_bytes (vec : List ℚ) : (CString.ofBytes (vectorText vec)).bytes = vectorText vec :=
  cstr_of_nulFree _ (vectorText_plain vec)

theorem strtok_vectorText (vec : List ℚ) : strtok (vectorText vec) = vec.map format6 := by
  cases vec with
  | nil => decide
  | cons x vec =>
    have split : (vectorText (x :: vec)).splitOn 44 = (x :: vec).map format6 := by
      refine splitOn_intercalate 44 (fun piece member comma => ?_) (by simp)
      obtain ⟨y, _, rfl⟩ := mem_map.mp member
      exact (format6_plain y comma).2 rfl
    rw [strtok, split, filter_eq_self]
    intro piece member
    obtain ⟨y, _, rfl⟩ := mem_map.mp member
    exact decide_eq_true (format6_ne_nil y)

include exact

theorem parseVector_text {vec : List ℚ} (finite : ∀ x ∈ vec, A.isFinite x = true) (real : vec ≠ []) :
    parseVector A.toFloatOps .ok (.ofBytes (vectorText vec)) vec.length = some (vec.map round6) := by
  have tokens : ∀ l : List ℚ, (∀ x ∈ l, A.isFinite x = true) →
      parseTokens A.toFloatOps (l.map format6) l.length = some (l.map round6) := by
    intro l finite
    induction l with
    | nil => rfl
    | cons x l ih =>
      obtain ⟨read, kept⟩ := exact.strtof x (finite x (by simp))
      have first : parseToken A.toFloatOps (format6 x) = some (round6 x) := by
        have some_ : (format6 x).length ≠ 0 := fun empty => format6_ne_nil x (eq_nil_of_length_eq_zero empty)
        simp [parseToken, read, kept, some_]
      rw [map_cons, length_cons, parseTokens, first, ih fun y member => finite y (by simp [member])]
      rfl
  rw [parseVector, if_neg (by simp; omega), vectorText_bytes, strtok_vectorText, Int.toNat_natCast, tokens vec finite]

theorem norm_pos_iff (vec : List ℚ) : A.zero < vectorNorm A.toFloatOps vec ↔ ∃ x ∈ vec, x ≠ 0 := by
  have sum : ∀ (l : List ℚ) (s : ℚ), 0 ≤ s → 0 ≤ l.foldl (fun sum x => A.add sum (A.mul x x)) s ∧
      (0 < l.foldl (fun sum x => A.add sum (A.mul x x)) s ↔ 0 < s ∨ ∃ x ∈ l, x ≠ 0) := by
    intro l
    induction l with
    | nil => exact fun s nonneg => ⟨nonneg, by simp⟩
    | cons x l ih =>
      intro s nonneg
      rw [foldl_cons, exact.add, exact.mul]
      have square := mul_self_nonneg x
      obtain ⟨next, iff⟩ := ih (s + x * x) (by linarith)
      refine ⟨next, iff.trans ?_⟩
      have more : 0 < s + x * x ↔ 0 < s ∨ x ≠ 0 := by
        constructor
        · intro positive
          by_contra none_
          simp only [not_or, not_not, not_lt] at none_
          rw [none_.2] at positive
          linarith
        · rintro (positive | nonzero)
          · linarith
          · have strict := mul_self_pos.mpr nonzero
            linarith
      rw [more, exists_mem_cons_iff, or_assoc]
  obtain ⟨nonneg, iff⟩ := sum vec 0 le_rfl
  rw [vectorNorm, exact.zero, exact.sqrtf _ nonneg, iff]
  simp

end Text

section Cut

theorem parseTokens_count {F : Type} (A : FloatOps F) {tokens : List Bytes} {n : Nat} {vec : List F}
    (parsed : parseTokens A tokens n = some vec) : tokens.length = n := by
  induction tokens generalizing n vec with
  | nil =>
    cases n with
    | zero => rfl
    | succ n => cases parsed
  | cons token tokens ih =>
    cases n with
    | zero => cases parsed
    | succ n =>
      simp only [parseTokens, bind_eq_bind, bind_eq_some_iff] at parsed
      obtain ⟨_, _, _, rest, _⟩ := parsed
      rw [length_cons, ih rest]

theorem length_le_commas (ls : List Bytes) : ls.length ≤ ([44].intercalate ls).count 44 + 1 := by
  induction ls with
  | nil => exact Nat.zero_le _
  | cons a ls ih =>
    cases ls with
    | nil => exact Nat.le_add_left 1 _
    | cons b ls =>
      have step : [44].intercalate (a :: b :: ls) = a ++ 44 :: [44].intercalate (b :: ls) := by
        simp [intercalate]
      rw [step, count_append, count_cons_self, length_cons]
      omega

theorem strtok_length (text : Bytes) : (strtok text).length ≤ text.count 44 + 1 := by
  have all := length_le_commas (text.splitOn 44)
  rw [intercalate_splitOn] at all
  exact (length_filter_le _ _).trans all

theorem vectorText_commas {vec : List ℚ} (real : vec ≠ []) : (vectorText vec).count 44 + 1 = vec.length := by
  have plain : ∀ x, (format6 x).count 44 = 0 := fun x => count_eq_zero.mpr fun comma => (format6_plain x comma).2 rfl
  have rest : ∀ l : List ℚ, (l.flatMap fun y => 44 :: format6 y).count 44 = l.length := by
    intro l
    induction l with
    | nil => rfl
    | cons y l ih => rw [flatMap_cons, count_append, count_cons_self, plain, ih, length_cons]; omega
  cases vec with
  | nil => exact absurd rfl real
  | cons x vec => rw [vectorText_cons, count_append, plain, rest, length_cons, Nat.zero_add]

theorem tail_short {b k : Nat} {l : List ℚ} {x : ℚ} (short : ∀ y ∈ x :: l, (format6 y).length ≤ b)
    (noComma : 44 ∉ (format6 x ++ l.flatMap fun y => 44 :: format6 y).drop k) :
    ((format6 x ++ l.flatMap fun y => 44 :: format6 y).drop k).length ≤ b := by
  induction l generalizing x k with
  | nil =>
    rw [flatMap_nil, append_nil, length_drop]
    exact (Nat.sub_le _ _).trans (short x (by simp))
  | cons y l ih =>
    rcases Nat.lt_or_ge (format6 x).length k with beyond | inside
    · obtain ⟨j, rfl⟩ : ∃ j, k = (format6 x).length + (1 + j) := ⟨k - (format6 x).length - 1, by omega⟩
      have next : (format6 x ++ (y :: l).flatMap fun y => 44 :: format6 y).drop ((format6 x).length + (1 + j)) =
          (format6 y ++ l.flatMap fun y => 44 :: format6 y).drop j := by
        rw [← drop_drop, drop_left, flatMap_cons, cons_append, Nat.add_comm 1 j, drop_succ_cons]
      rw [next] at noComma ⊢
      exact ih (fun z member => short z (mem_cons_of_mem _ member)) noComma
    · exfalso
      apply noComma
      rw [drop_append_of_le_length inside]
      simp

theorem parseVector_cut {A : FloatText ℚ} (exact : ExactText A) {vec : List ℚ} (finite : ∀ x ∈ vec, A.isFinite x = true) (real : vec ≠ [])
    {k : Nat} (missing : k + 2^32 ≤ (vectorText vec).length) :
    parseVector A.toFloatOps .ok (.ofBytes ((vectorText vec).take k)) vec.length = none := by
  cases parsed : parseVector A.toFloatOps .ok (.ofBytes ((vectorText vec).take k)) vec.length with
  | none => rfl
  | some read =>
    exfalso
    have bytes : (CString.ofBytes ((vectorText vec).take k)).bytes = (vectorText vec).take k :=
      cstr_of_nulFree _ fun zero => vectorText_plain vec (mem_of_mem_take zero)
    have positive : 0 < vec.length := length_pos_of_ne_nil real
    rw [parseVector, if_neg (by simp; omega), bytes, Int.toNat_natCast] at parsed
    have tokens := parseTokens_count A.toFloatOps parsed
    have count := strtok_length ((vectorText vec).take k)
    have all := vectorText_commas real
    have split : ((vectorText vec).take k).count 44 + ((vectorText vec).drop k).count 44 = (vectorText vec).count 44 := by
      rw [← count_append, take_append_drop]
    have noComma : 44 ∉ (vectorText vec).drop k := count_eq_zero.mp (by omega)
    obtain ⟨x, l, rfl⟩ := exists_cons_of_ne_nil real
    rw [vectorText_cons] at noComma missing
    have short := tail_short (fun y member => format6_length_le (exact.finite y (finite y member))) noComma
    rw [length_drop] at short
    omega

end Cut

end AICacheDB
