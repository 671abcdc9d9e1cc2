import Mathlib.Data.List.TakeWhile
import Mathlib.Tactic.Linarith

open List

namespace CLib

abbrev Bytes := List UInt8

/-- The difference of the first bytes that differ, as `unsigned char`; the end of a string reads as NUL. -/
def strcmp : Bytes → Bytes → Int
  | [], [] => 0
  | [], b :: _ => -(b.toNat : Int)
  | a :: _, [] => a.toNat
  | a :: as, b :: bs => if a = b then strcmp as bs else (a.toNat : Int) - b.toNat

def toLower (b : UInt8) : UInt8 := if 65 ≤ b ∧ b ≤ 90 then b + 32 else b

def strcasecmp (a b : Bytes) : Int := strcmp (a.map toLower) (b.map toLower)

def cstr (b : Bytes) : Bytes := b.takeWhile (· ≠ 0)

theorem cstr_nulFree (b : Bytes) : 0 ∉ cstr b := by
  intro member
  simpa using mem_takeWhile_imp member

theorem cstr_of_nulFree (b : Bytes) (free : 0 ∉ b) : cstr b = b := by
  apply takeWhile_eq_self_iff.mpr
  intro x member
  have different : x ≠ 0 := fun same => free (same ▸ member)
  simpa using different

theorem cstr_take (b : Bytes) (n : Nat) : cstr (b.take n) = (cstr b).take n := by
  induction b generalizing n with
  | nil => rw [take_nil, cstr, takeWhile_nil, take_nil]
  | cons x b ih =>
    cases n with
    | zero => rfl
    | succ n =>
      unfold cstr at ih ⊢
      rw [take_succ_cons, takeWhile_cons, takeWhile_cons]
      split
      · rw [ih, take_succ_cons]
      · rfl

structure CString where
  bytes : Bytes
  nulFree : 0 ∉ bytes
  deriving DecidableEq

@[ext] theorem CString.ext' {a b : CString} (same : a.bytes = b.bytes) : a = b := by
  cases a
  cases b
  simp_all

def CString.ofBytes (b : Bytes) : CString := ⟨cstr b, cstr_nulFree b⟩

theorem CString.ofBytes_length_le (b : Bytes) : (CString.ofBytes b).bytes.length ≤ b.length := (List.takeWhile_prefix _).length_le

theorem CString.ofBytes_bytes (s : CString) : CString.ofBytes s.bytes = s :=
  CString.ext' (cstr_of_nulFree s.bytes s.nulFree)

theorem byte_eq_of_toNat {a b : UInt8} (same : a.toNat = b.toNat) : a = b := UInt8.toNat_inj.mp same

theorem byte_pos {a : UInt8} (nonzero : a ≠ 0) : 0 < a.toNat := by
  have different : a.toNat ≠ (0 : UInt8).toNat := fun same => nonzero (byte_eq_of_toNat same)
  simpa [Nat.pos_iff_ne_zero] using different

theorem strcmp_self (a : Bytes) : strcmp a a = 0 := by
  induction a with
  | nil => rfl
  | cons x xs ih => simpa [strcmp] using ih

theorem strcmp_swap (a b : Bytes) : strcmp b a = -strcmp a b := by
  induction a generalizing b with
  | nil => cases b <;> simp [strcmp]
  | cons x xs ih =>
    cases b with
    | nil => simp [strcmp]
    | cons y ys =>
      by_cases same : x = y
      · simp [strcmp, same, ih ys]
      · have other : y ≠ x := fun h => same h.symm
        simp [strcmp, same, other]

theorem strcmp_eq_zero {a b : Bytes} (fa : 0 ∉ a) (fb : 0 ∉ b) (zero : strcmp a b = 0) : a = b := by
  induction a generalizing b with
  | nil =>
    cases b with
    | nil => rfl
    | cons y ys =>
      have positive := byte_pos (a := y) (by rintro rfl; simp at fb)
      simp only [strcmp] at zero
      omega
  | cons x xs ih =>
    have px := byte_pos (a := x) (by rintro rfl; simp at fa)
    cases b with
    | nil => simp only [strcmp] at zero; omega
    | cons y ys =>
      by_cases same : x = y
      · simp only [strcmp, same, if_true] at zero
        rw [same, ih (by simp_all) (by simp_all) zero]
      · simp only [strcmp, same, if_false] at zero
        exact absurd (byte_eq_of_toNat (by omega)) same

theorem toLower_ne_zero {x : UInt8} (real : x ≠ 0) : toLower x ≠ 0 := by
  unfold toLower
  split
  · rename_i letter
    intro zero
    have value := congrArg UInt8.toNat zero
    have low := UInt8.le_iff_toNat_le.mp letter.1
    have high := UInt8.le_iff_toNat_le.mp letter.2
    rw [UInt8.toNat_add] at value
    change (x.toNat + 32) % 256 = 0 at value
    change 65 ≤ x.toNat at low
    change x.toNat ≤ 90 at high
    omega
  · exact real

theorem toLower_nulFree {a : Bytes} (free : 0 ∉ a) : 0 ∉ a.map toLower := by
  intro member
  obtain ⟨x, inside, zero⟩ := mem_map.mp member
  exact toLower_ne_zero (fun same => free (same ▸ inside)) zero

theorem strcasecmp_eq_zero {a b : Bytes} (fa : 0 ∉ a) (fb : 0 ∉ b) : strcasecmp a b = 0 ↔ a.map toLower = b.map toLower := by
  constructor
  · exact strcmp_eq_zero (toLower_nulFree fa) (toLower_nulFree fb)
  · intro same
    rw [strcasecmp, same, strcmp_self]

theorem strcmp_trans {a b c : Bytes} (fb : 0 ∉ b) (ab : strcmp a b ≤ 0) (bc : strcmp b c ≤ 0)
    (fa : 0 ∉ a) : strcmp a c ≤ 0 := by
  induction b generalizing a c with
  | nil =>
    cases a with
    | nil => exact bc
    | cons x xs =>
      have px := byte_pos (a := x) (by rintro rfl; simp at fa)
      simp only [strcmp] at ab
      omega
  | cons y ys ih =>
    have py := byte_pos (a := y) (by rintro rfl; simp at fb)
    cases c with
    | nil => simp only [strcmp] at bc; omega
    | cons z zs =>
      cases a with
      | nil => simp only [strcmp]; omega
      | cons x xs =>
        simp only [strcmp] at ab bc ⊢
        by_cases xy : x = y
        · subst xy
          by_cases xz : x = z
          · simp only [xz, if_true] at ab bc ⊢
            exact ih (by simp_all) (by simpa using ab) (by simpa using bc) (by simp_all)
          · simpa [xz] using bc
        · by_cases yz : y = z
          · subst yz
            simpa [xy] using ab
          · have nxy : x.toNat ≠ y.toNat := fun h => xy (byte_eq_of_toNat h)
            have nyz : y.toNat ≠ z.toNat := fun h => yz (byte_eq_of_toNat h)
            simp only [xy, yz, if_false] at ab bc
            have xz : x ≠ z := by
              rintro rfl
              omega
            simp only [xz, if_false]
            omega

/-- Keys are ordered by `strcmp`: `a < b` is `strcmp(a, b) < 0`. -/
instance : LinearOrder CString where
  le a b := strcmp a.bytes b.bytes ≤ 0
  lt a b := strcmp a.bytes b.bytes < 0
  le_refl a := le_of_eq (strcmp_self a.bytes)
  le_trans a b c ab bc := strcmp_trans b.nulFree ab bc a.nulFree
  lt_iff_le_not_ge a b := by
    have swap := strcmp_swap a.bytes b.bytes
    constructor
    · intro h
      exact ⟨le_of_lt h, by omega⟩
    · rintro ⟨_, h⟩
      omega
  le_antisymm a b ab ba := by
    have swap := strcmp_swap a.bytes b.bytes
    exact CString.ext' (strcmp_eq_zero a.nulFree b.nulFree (by omega))
  le_total a b := by
    have swap := strcmp_swap a.bytes b.bytes
    omega
  toDecidableLE a b := inferInstanceAs (Decidable (strcmp a.bytes b.bytes ≤ 0))
  toDecidableLT a b := inferInstanceAs (Decidable (strcmp a.bytes b.bytes < 0))
  toDecidableEq := inferInstance

end CLib
