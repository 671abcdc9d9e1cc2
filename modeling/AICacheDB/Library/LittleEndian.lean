import AICacheDB.Library.CString
import AICacheDB.Library.MachineInt

namespace CLib

def leBytes : Nat → Nat → Bytes
  | 0, _ => []
  | w + 1, x => UInt8.ofNat x :: leBytes w (x / 256)

def leValue : Bytes → Nat
  | [] => 0
  | b :: bytes => b.toNat + 256 * leValue bytes

@[simp] theorem leBytes_length (w x : Nat) : (leBytes w x).length = w := by
  induction w generalizing x with
  | zero => rfl
  | succ w ih => rw [leBytes, List.length_cons, ih]

theorem leValue_leBytes (w x : Nat) : leValue (leBytes w x) = x % 256 ^ w := by
  induction w generalizing x with
  | zero => rw [pow_zero, Nat.mod_one]; rfl
  | succ w ih =>
    have low : (UInt8.ofNat x).toNat = x % 256 := UInt8.toNat_ofNat'
    rw [leBytes, leValue, ih, low, pow_succ', Nat.mod_mul]

def intBytes (x : Int) : Bytes := leBytes 4 (x % 2^32).toNat

def longLongBytes (x : Int) : Bytes := leBytes 8 (x % 2^64).toNat

def intOf (b : Bytes) : Int := wrap32 (leValue b)

def longLongOf (b : Bytes) : Int := wrap64 (leValue b)

@[simp] theorem intBytes_length (x : Int) : (intBytes x).length = 4 := leBytes_length 4 _

@[simp] theorem longLongBytes_length (x : Int) : (longLongBytes x).length = 8 := leBytes_length 8 _

theorem intBytes_wrap32 (x : Int) : intBytes (wrap32 x) = intBytes x := by
  have same : wrap32 x % 2^32 = x % 2^32 := by
    rw [wrap32]
    omega
  rw [intBytes, same, intBytes]

theorem intOf_intBytes (x : Int) : intOf (intBytes x) = wrap32 x := by
  have value : ((leValue (intBytes x) : Nat) : Int) = x % 2^32 := by
    rw [intBytes, leValue_leBytes]
    omega
  rw [intOf, value, wrap32, wrap32]
  omega

theorem longLongOf_longLongBytes (x : Int) : longLongOf (longLongBytes x) = wrap64 x := by
  have value : ((leValue (longLongBytes x) : Nat) : Int) = x % 2^64 := by
    rw [longLongBytes, leValue_leBytes]
    omega
  rw [longLongOf, value, wrap64, wrap64]
  omega

end CLib
