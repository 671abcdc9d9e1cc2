import AICacheDB.Library.Text
import Mathlib.Data.Rat.Floor

open List

namespace CLib

def nearest (q : ℚ) : ℤ :=
  if q - ⌊q⌋ < 1 / 2 then ⌊q⌋
  else if 1 / 2 < q - ⌊q⌋ then ⌊q⌋ + 1
  else if ⌊q⌋ % 2 = 0 then ⌊q⌋ else ⌊q⌋ + 1

variable {q x : ℚ} {n : Nat} {l : List Nat}

theorem nearest_eq_zero_iff (nonneg : 0 ≤ q) : nearest q = 0 ↔ q ≤ 1 / 2 := by
  have high := Int.lt_floor_add_one q
  have floor : 0 ≤ ⌊q⌋ := Int.floor_nonneg.mpr nonneg
  unfold nearest
  by_cases small : ⌊q⌋ = 0
  · rw [small]
    push_cast
    by_cases below : q - 0 < 1 / 2
    · rw [if_pos below]
      exact iff_of_true rfl (by linarith)
    · by_cases above : 1 / 2 < q - 0
      · rw [if_neg below, if_pos above]
        exact iff_of_false (by decide) (by linarith)
      · rw [if_neg below, if_neg above]
        exact iff_of_true rfl (by linarith)
  · have one : (1 : ℚ) ≤ ⌊q⌋ := by exact_mod_cast (show 1 ≤ ⌊q⌋ by omega)
    have low := Int.floor_le q
    refine iff_of_false ?_ (by linarith)
    split
    · exact small
    · split
      · omega
      · split <;> omega

theorem nearest_le {n : ℤ} (bound : q ≤ n) : nearest q ≤ n := by
  have floor : ⌊q⌋ ≤ n := Int.floor_le_iff.mpr (by linarith)
  unfold nearest
  by_cases last : ⌊q⌋ = n
  · have whole : q - ⌊q⌋ < 1 / 2 := by
      rw [last]
      linarith
    rw [if_pos whole, last]
  · split
    · exact floor
    · split
      · omega
      · split <;> omega

theorem nearest_nonneg (nonneg : 0 ≤ q) : 0 ≤ nearest q := by
  have floor : 0 ≤ ⌊q⌋ := Int.floor_nonneg.mpr nonneg
  unfold nearest
  split
  · exact floor
  · split
    · omega
    · split <;> omega

def micros (x : ℚ) : Nat := (nearest (|x| * 10^6)).toNat

theorem micros_eq_zero_iff : micros x = 0 ↔ |x| * 10^6 ≤ 1 / 2 := by
  have nonneg : 0 ≤ |x| * 10^6 := mul_nonneg (abs_nonneg x) (by norm_num)
  have whole := nearest_nonneg nonneg
  rw [← nearest_eq_zero_iff nonneg, micros]
  omega

theorem micros_le (bound : |x| ≤ n) : micros x ≤ n * 10^6 := by
  have scaled : |x| * 10^6 ≤ ((n * 10^6 : ℤ) : ℚ) := by
    push_cast
    exact mul_le_mul_of_nonneg_right bound (by norm_num)
  rw [micros, Int.toNat_le]
  exact_mod_cast nearest_le scaled

def round6 (x : ℚ) : ℚ := if x < 0 then -(micros x / 10^6) else micros x / 10^6

theorem round6_eq_zero_iff : round6 x = 0 ↔ |x| * 10^6 ≤ 1 / 2 := by
  rw [← micros_eq_zero_iff, round6]
  split
  · rw [neg_eq_zero, div_eq_zero_iff]
    norm_num
  · rw [div_eq_zero_iff]
    norm_num

theorem abs_round6_le (bound : |x| ≤ n) : |round6 x| ≤ n := by
  have size : |round6 x| = micros x / 10^6 := by
    have positive : (0 : ℚ) ≤ micros x / 10^6 := by positivity
    rw [round6]
    split
    · rw [abs_neg, abs_of_nonneg positive]
    · rw [abs_of_nonneg positive]
  rw [size, div_le_iff₀ (by norm_num)]
  exact_mod_cast micros_le bound

def sixPlaces (n : Nat) : List Nat :=
  [n / 10^5 % 10, n / 10^4 % 10, n / 10^3 % 10, n / 10^2 % 10, n / 10 % 10, n % 10]

def digitBytes (l : List Nat) : Bytes := l.map fun d => UInt8.ofNat (48 + d)

def format6 (x : ℚ) : Bytes :=
  (if x < 0 then [45] else []) ++ (decimal (micros x / 10^6) ++ 46 :: digitBytes (sixPlaces (micros x)))

theorem sixPlaces_lt {d : Nat} (member : d ∈ sixPlaces n) : d < 10 := by
  simp only [sixPlaces, mem_cons, not_mem_nil, or_false] at member
  rcases member with rfl | rfl | rfl | rfl | rfl | rfl <;> exact Nat.mod_lt _ (by decide)

theorem sixPlaces_value (n : Nat) : (sixPlaces n).foldl (fun v d => v * 10 + d) 0 = n % 10^6 := by
  simp only [sixPlaces, foldl_cons, foldl_nil]
  omega

theorem format6_ne_nil (x : ℚ) : format6 x ≠ [] := by
  simp [format6]

theorem digit_range (small : ∀ d ∈ l, d < 10) {b : UInt8} (member : b ∈ digitBytes l) : 48 ≤ b ∧ b ≤ 57 := by
  obtain ⟨d, inside, rfl⟩ := mem_map.mp member
  have bound := small d inside
  have value : (UInt8.ofNat (48 + d)).toNat = 48 + d := by
    rw [UInt8.toNat_ofNat']
    omega
  have low : (48 : UInt8).toNat = 48 := rfl
  have high : (57 : UInt8).toNat = 57 := rfl
  rw [UInt8.le_iff_toNat_le, UInt8.le_iff_toNat_le, value]
  omega

theorem decimal_digits (n : Nat) : decimal n = digitBytes (places n) := decimal_eq n

theorem format6_plain (x : ℚ) {b : UInt8} (member : b ∈ format6 x) : b ≠ 0 ∧ b ≠ 44 := by
  have digit : 48 ≤ b ∧ b ≤ 57 → b ≠ 0 ∧ b ≠ 44 := by
    rintro ⟨low, _⟩
    constructor <;> rintro rfl <;> exact absurd low (by decide)
  rw [format6, mem_append, mem_append, mem_cons] at member
  rcases member with sign | whole | rfl | fraction
  · split at sign
    · rw [mem_singleton.mp sign]
      decide
    · cases sign
  · rw [decimal_digits] at whole
    exact digit (digit_range (fun d => places_lt) whole)
  · decide
  · exact digit (digit_range (fun d => sixPlaces_lt) fraction)

def isDigit (b : UInt8) : Bool := 48 ≤ b ∧ b ≤ 57

def digitsValue (l : Bytes) : Nat := l.foldl (fun v b => v * 10 + (b.toNat - 48)) 0

/-- Digits and, behind a point, decimals: the number at the start of a text, and how many bytes it takes. -/
def readUnsigned (text : Bytes) : ℚ × Nat :=
  let whole := text.takeWhile isDigit
  match text.dropWhile isDigit with
  | 46 :: rest =>
    let fraction := rest.takeWhile isDigit
    (digitsValue whole + digitsValue fraction / 10 ^ fraction.length, whole.length + 1 + fraction.length)
  | _ => (digitsValue whole, whole.length)

def readDecimal : Bytes → ℚ × Nat
  | 45 :: rest => (-(readUnsigned rest).1, (readUnsigned rest).2 + 1)
  | text => readUnsigned text

theorem digitsValue_digitBytes (small : ∀ d ∈ l, d < 10) :
    digitsValue (digitBytes l) = l.foldl (fun v d => v * 10 + d) 0 := by
  have run : ∀ v, (digitBytes l).foldl (fun v b => v * 10 + (b.toNat - 48)) v = l.foldl (fun v d => v * 10 + d) v := by
    induction l with
    | nil => exact fun v => rfl
    | cons d l ih =>
      intro v
      have value : (UInt8.ofNat (48 + d)).toNat - 48 = d := by
        have bound := small d (by simp)
        rw [UInt8.toNat_ofNat']
        omega
      rw [digitBytes, map_cons, foldl_cons, foldl_cons, value]
      exact ih (fun d' member => small d' (by simp [member])) _
  exact run 0

theorem takeWhile_digits (small : ∀ d ∈ l, d < 10) (rest : Bytes) (stop : ∀ b ∈ rest.head?, isDigit b = false) :
    (digitBytes l ++ rest).takeWhile isDigit = digitBytes l ∧ (digitBytes l ++ rest).dropWhile isDigit = rest := by
  have digits : ∀ b ∈ digitBytes l, isDigit b = true := fun b member => decide_eq_true (digit_range small member)
  rw [takeWhile_append_of_pos digits, dropWhile_append_of_pos digits]
  cases rest with
  | nil => exact ⟨append_nil _, rfl⟩
  | cons b rest =>
    have other : ¬ isDigit b = true := by simp [stop b rfl]
    rw [takeWhile_cons_of_neg other, dropWhile_cons_of_neg other]
    exact ⟨append_nil _, rfl⟩

theorem readUnsigned_micros (n : Nat) : readUnsigned (decimal (n / 10^6) ++ 46 :: digitBytes (sixPlaces n)) =
      ((n : ℚ) / 10^6, (decimal (n / 10^6) ++ 46 :: digitBytes (sixPlaces n)).length) := by
  obtain ⟨whole, rest⟩ := takeWhile_digits (l := places (n / 10^6)) (fun d => places_lt) (46 :: digitBytes (sixPlaces n))
    (by simp [isDigit])
  have fraction := (takeWhile_digits (l := sixPlaces n) (fun d => sixPlaces_lt) [] (by simp)).1
  have size : (digitBytes (sixPlaces n)).length = 6 := rfl
  rw [append_nil] at fraction
  rw [decimal_digits, readUnsigned]
  simp only [whole, rest, fraction, digitsValue_digitBytes fun d => places_lt, digitsValue_digitBytes fun d => sixPlaces_lt,
    places_value, sixPlaces_value, size, length_append, length_cons]
  refine Prod.ext ?_ (by omega)
  have split : (n : ℚ) = (10^6 * (n / 10^6 : ℕ) + (n % 10^6 : ℕ) : ℚ) := by
    exact_mod_cast (Nat.div_add_mod n (10^6)).symm
  rw [eq_div_iff (by norm_num)]
  refine Eq.trans ?_ split.symm
  field_simp

theorem readDecimal_format6 (x : ℚ) : readDecimal (format6 x) = (round6 x, (format6 x).length) := by
  have value := readUnsigned_micros (micros x)
  rw [format6, round6]
  by_cases negative : x < 0
  · rw [if_pos negative, if_pos negative, singleton_append, readDecimal, value, length_cons]
  · rw [if_neg negative, if_neg negative, nil_append]
    rw [readDecimal, value]
    -- the text starts with a digit, and so not with a sign
    intro rest sign
    rw [decimal_digits] at sign
    cases digits : places (micros x / 10^6) with
    | nil =>
      rw [digits] at sign
      cases sign
    | cons d l =>
      rw [digits, digitBytes, map_cons, cons_append, List.cons.injEq] at sign
      have low : 48 ≤ UInt8.ofNat (48 + d) :=
        (digit_range (l := [d]) (fun d' member => places_lt (by rw [digits]; simp_all)) (mem_singleton_self _)).1
      rw [sign.1] at low
      exact absurd low (by decide)

theorem format6_length_le {k : Nat} (bound : |x| ≤ 10^k) : (format6 x).length ≤ k + 9 := by
  have top : micros x ≤ 10^k * 10^6 := micros_le (by exact_mod_cast bound)
  have whole : micros x / 10^6 < 10^(k + 1) := by
    rw [Nat.div_lt_iff_lt_mul (by norm_num), pow_succ]
    have one : 0 < 10^k := by positivity
    omega
  have digits := decimal_length_le whole (Nat.succ_pos k)
  have size : (digitBytes (sixPlaces (micros x))).length = 6 := rfl
  rw [format6, length_append, length_append, length_cons, size]
  split
  · rw [length_singleton]
    omega
  · rw [length_nil]
    omega

end CLib
