import AICacheDB.Library.CString
import AICacheDB.Library.MachineInt
import Mathlib.Data.Nat.Digits.Lemmas

open List

namespace CLib

def ascii (s : String) : Bytes := s.toList.map fun c => UInt8.ofNat c.toNat

def decimal (n : Nat) : Bytes := if n = 0 then [48] else (Nat.digits 10 n).reverse.map fun d => UInt8.ofNat (48 + d)

def decimalInt (i : Int) : Bytes := if i < 0 then 45 :: decimal i.natAbs else decimal i.natAbs

def isSpace (b : UInt8) : Bool := b = 32 ∨ 9 ≤ b ∧ b ≤ 13

def leadingNumber (s : Bytes) : Int :=
  (s.takeWhile fun b => 48 ≤ b ∧ b ≤ 57).foldl (fun v b => v * 10 + (b.toNat - 48)) 0

/-- `strtoll` in base 10: blanks, a sign and digits, held within the range of `long long`. -/
def strtoll (s : Bytes) : Int :=
  match s.dropWhile isSpace with
  | 45 :: digits => max (-2^63) (-leadingNumber digits)
  | 43 :: digits => min (2^63 - 1) (leadingNumber digits)
  | digits => min (2^63 - 1) (leadingNumber digits)

def atoll (s : CString) : Int := strtoll s.bytes

def atoi (s : CString) : Int := wrap32 (strtoll s.bytes)

def places (n : Nat) : List Nat := if n = 0 then [0] else (Nat.digits 10 n).reverse

theorem decimal_eq (n : Nat) : decimal n = (places n).map fun d => UInt8.ofNat (48 + d) := by
  unfold decimal places
  split <;> rfl

theorem places_lt {n d : Nat} (member : d ∈ places n) : d < 10 := by
  unfold places at member
  split at member
  · rw [mem_singleton.mp member]
    decide
  · exact Nat.digits_lt_base (by decide) (mem_reverse.mp member)

theorem places_value (n : Nat) : (places n).foldl (fun v d => v * 10 + d) 0 = n := by
  unfold places
  split
  · rename_i zero
    exact zero.symm
  · have value := Nat.ofDigits_digits 10 n
    rw [Nat.ofDigits_eq_foldr] at value
    rw [foldl_reverse]
    calc (Nat.digits 10 n).foldr (fun d v => v * 10 + d) 0
        = (Nat.digits 10 n).foldr (fun d v => d + 10 * v) 0 := by
          congr 1
          funext d v
          omega
      _ = n := value

theorem decimal_ne_nil (n : Nat) : decimal n ≠ [] := by
  unfold decimal
  split
  · exact cons_ne_nil _ _
  · rename_i nonzero
    rw [ne_eq, map_eq_nil_iff, reverse_eq_nil_iff]
    exact Nat.digits_ne_nil_iff_ne_zero.mpr nonzero

theorem decimal_length_le {n k : Nat} (bound : n < 10^k) (positive : 0 < k) : (decimal n).length ≤ k := by
  rw [decimal_eq, length_map, places]
  split
  · exact positive
  · rename_i nonzero
    rw [length_reverse]
    exact (Nat.digits_length_le_iff (by decide) n).mpr bound

end CLib
