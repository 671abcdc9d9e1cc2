import AICacheDB.Library.CString
import AICacheDB.Library.MachineInt

open CLib

namespace AICacheDB.Resp

/-- `while (p < buf + len && *p >= '0' && *p <= '9')`: the `int` read, with its wrap-around, and how far `p` has moved. -/
def scanDigits : Int → Bytes → Int × Nat
  | num, [] => (num, 0)
  | num, b :: bs =>
    if 48 ≤ b ∧ b ≤ 57 then
      let r := scanDigits (wrap32 (num * 10 + (b.toNat - 48))) bs
      (r.1, r.2 + 1)
    else (num, 0)

def crlf (buf : Bytes) (p : Nat) : Option Nat := if buf[p]? = some 13 ∧ buf[p + 1]? = some 10 then some (p + 2) else none

inductive Frame where
  | malformed
  | incomplete
  | complete (cmdLen : Nat)
  deriving DecidableEq

/-- The loop over `n` bulk strings. A negative `bulk_len` moves `p` back; in front of the buffer the next read is undefined. -/
def frameBulks (buf : Bytes) : Nat → Nat → Option Frame
  | 0, p => some (.complete p)
  | n + 1, p =>
    if buf[p]? ≠ some 36 then some .malformed
    else
      let (bulkLen, digits) := scanDigits 0 (buf.drop (p + 1))
      match crlf buf (p + 1 + digits) with
      | none => some .incomplete
      | some q =>
        if (buf.length : Int) < q + bulkLen then some .incomplete
        else if q + bulkLen < 0 then none
        else
          match crlf buf (q + bulkLen).toNat with
          | none => some .incomplete
          | some p => frameBulks buf n p

def respParseOneCommand (buf : Bytes) : Option Frame :=
  if buf[0]? ≠ some 42 then some .malformed
  else
    let (num, digits) := scanDigits 0 (buf.drop 1)
    match crlf buf (1 + digits) with
    | none => some .incomplete
    | some p => frameBulks buf num.toNat p

/-- Which allocations succeed: `none` is the array `argv`, `some i` the argument `argv[i]`. -/
abbrev ParseAlloc := Option Nat → Bool

def ParseAlloc.ok : ParseAlloc := fun _ => true

@[simp] theorem ParseAlloc.ok_apply (site : Option Nat) : ParseAlloc.ok site = true := rfl

/-- The loop over `n` arguments from `argv[i]` on; the inner `none` is the jump to `err`. A negative size fails; for `bulk_len` -1
    it is 0 and `memcpy` runs out of all bounds. -/
def splitBulks (alloc : ParseAlloc) (buf : Bytes) : Nat → Nat → Nat → Option (Option (List Bytes))
  | 0, _, _ => some (some [])
  | n + 1, i, p =>
    if buf[p]? ≠ some 36 then some none
    else
      let (bulkLen, digits) := scanDigits 0 (buf.drop (p + 1))
      match crlf buf (p + 1 + digits) with
      | none => some none
      | some q =>
        if (buf.length : Int) < q + bulkLen then some none
        else if wrap32 (bulkLen + 1) < 0 ∨ alloc (some i) = false then some none
        else if bulkLen < 0 then none
        else
          match crlf buf (q + bulkLen.toNat) with
          | none => some none
          | some p => do
            let rest ← splitBulks alloc buf n (i + 1) p
            some (rest.map fun args => (buf.drop q).take bulkLen.toNat :: args)

/-- The inner `none` is a NULL result. -/
def respParseArguments (alloc : ParseAlloc) (buf : Bytes) : Option (Option (List Bytes)) :=
  if buf[0]? ≠ some 42 then some none
  else
    let (num, digits) := scanDigits 0 (buf.drop 1)
    match crlf buf (1 + digits) with
    | none => some none
    | some p => if num ≤ 0 ∨ alloc none = false then some none else splitBulks alloc buf num.toNat 0 p

end AICacheDB.Resp
