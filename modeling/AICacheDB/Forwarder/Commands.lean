import AICacheDB.Resp.Cuts

open CLib List

namespace AICacheDB.Forwarder

open Resp

section Model

def maxCmdLen : Nat := 8 * 1024 * 1024

def flowBufMax : Nat := 8 * 1024 * 1024

/-- The loop of `read_number_crlf`: the number and how far `p` has moved, unless the number gets too large. -/
def readDigits : Nat → Bytes → Option (Nat × Nat)
  | v, [] => some (v, 0)
  | v, b :: bs =>
    if 48 ≤ b ∧ b ≤ 57 then
      if flowBufMax < v * 10 + (b.toNat - 48) then none
      else (readDigits (v * 10 + (b.toNat - 48)) bs).map fun r => (r.1, r.2 + 1)
    else some (v, 0)

inductive NumberRead where
  | malformed
  | incomplete
  | number (out pos : Nat)
  deriving DecidableEq

def readNumberCrlf (buf : Bytes) (pos : Nat) : NumberRead :=
  match readDigits 0 (buf.drop pos) with
  | none => .malformed
  | some (v, digits) =>
    if digits = 0 then .malformed
    else if buf.length ≤ pos + digits + 1 then .incomplete
    else
      match crlf buf (pos + digits) with
      | none => .malformed
      | some pos => .number v pos

/-- The loop of `resp_command_len` over the bulk strings, `n` of them left. -/
def bulksLen (buf : Bytes) : Nat → Nat → Frame
  | 0, pos => .complete pos
  | n + 1, pos =>
    if buf.length ≤ pos then .incomplete
    else if buf[pos]? ≠ some 36 then .malformed
    else
      match readNumberCrlf buf (pos + 1) with
      | .malformed => .malformed
      | .incomplete => .incomplete
      | .number bulkLen pos =>
        if flowBufMax < bulkLen then .malformed
        else if buf.length < pos + bulkLen + 2 then .incomplete
        else
          match crlf buf (pos + bulkLen) with
          | none => .malformed
          | some pos => bulksLen buf n pos

def respCommandLen (buf : Bytes) : Frame :=
  if buf = [] then .incomplete
  else if buf[0]? ≠ some 42 then .malformed
  else
    match readNumberCrlf buf 1 with
    | .malformed => .malformed
    | .incomplete => .incomplete
    | .number argc pos => if argc = 0 ∨ 1024 < argc then .malformed else bulksLen buf argc pos

/-- The bytes that `get_command_name` copies; `bulk_len` is an `int` and wraps around. -/
def getCommandName (payload : Bytes) (outLen : Nat) : Option Bytes :=
  if payload.length < 4 ∨ payload[0]? ≠ some 42 then none
  else
    match crlf payload (1 + (scanDigits 0 (payload.drop 1)).2) with
    | none => none
    | some p =>
      if payload[p]? ≠ some 36 then none
      else
        let (bulkLen, digits) := scanDigits 0 (payload.drop (p + 1))
        match crlf payload (p + 1 + digits) with
        | none => none
        | some p =>
          if bulkLen ≤ 0 ∨ payload.length < p + bulkLen + 2 then none
          else some ((payload.drop p).take (min bulkLen.toNat (outLen - 1)))

def writeCmds : List Bytes :=
  ["SET", "RSET", "HSET", "SKSET", "DEL", "RDEL", "HDEL", "SKDEL", "MOD", "RMOD", "HMOD", "SKMOD",
    "EXPIRE", "REXPIRE", "HEXPIRE", "SKEXPIRE", "SETEX", "RSETEX", "HSETEX", "SKSETEX", "VSET"].map ascii

def isWriteCommand (cmd : CString) : Bool := writeCmds.any fun w => strcasecmp cmd.bytes w = 0

end Model

section Numbers

variable {buf : Bytes} {v w pos q k : Nat} {b : UInt8} {rest : Bytes}

theorem digit_le (digit : IsDigit b) : 48 ≤ b.toNat ∧ b.toNat ≤ 57 :=
  ⟨UInt8.le_iff_toNat_le.mp digit.1, UInt8.le_iff_toNat_le.mp digit.2⟩

theorem readDigits_other (other : ¬ IsDigit b) (v : Nat) (bs : Bytes) : readDigits v (b :: bs) = some (v, 0) := by
  rw [readDigits, if_neg (show ¬ (48 ≤ b ∧ b ≤ 57) from other)]

theorem readDigits_digit (digit : IsDigit b) (small : v * 10 + (b.toNat - 48) ≤ flowBufMax) (bs : Bytes) :
    readDigits v (b :: bs) = (readDigits (v * 10 + (b.toNat - 48)) bs).map fun r => (r.1, r.2 + 1) := by
  rw [readDigits, if_pos (show 48 ≤ b ∧ b ≤ 57 from digit), if_neg (not_lt.mpr small)]

theorem scanDigits_of_readDigits {bs : Bytes} (small : v ≤ flowBufMax) (read : readDigits v bs = some (w, k)) :
    scanDigits v bs = ((w : Int), k) ∧ w ≤ flowBufMax := by
  induction bs generalizing v k with
  | nil =>
    cases read
    exact ⟨rfl, small⟩
  | cons b bs ih =>
    by_cases digit : IsDigit b
    · by_cases large : flowBufMax < v * 10 + (b.toNat - 48)
      · rw [readDigits, if_pos (show 48 ≤ b ∧ b ≤ 57 from digit), if_pos large] at read
        cases read
      · rw [readDigits_digit digit (not_lt.mp large)] at read
        obtain ⟨⟨w', k'⟩, rest, same⟩ := Option.map_eq_some_iff.mp read
        cases same
        obtain ⟨scan, bound⟩ := ih (not_lt.mp large) rest
        have range := digit_le digit
        have exact_ : wrap32 ((v : Int) * 10 + (b.toNat - 48)) = ((v * 10 + (b.toNat - 48) : Nat) : Int) := by
          unfold flowBufMax at large
          rw [wrap32_of_range (by omega) (by omega)]
          omega
        refine ⟨?_, bound⟩
        rw [scanDigits, if_pos (show 48 ≤ b ∧ b ≤ 57 from digit), exact_, scan]
    · rw [readDigits_other digit] at read
      cases read
      exact ⟨scanDigits_cons_other digit _ bs, small⟩

theorem readDigits_places {l : List Nat} (small : ∀ d ∈ l, d < 10) (fits : l.foldl (fun v d => v * 10 + d) v ≤ flowBufMax)
    (stop : ∀ b, rest[0]? = some b → ¬ IsDigit b) :
    readDigits v (l.map (fun d => UInt8.ofNat (48 + d)) ++ rest) = some (l.foldl (fun v d => v * 10 + d) v, l.length) := by
  induction l generalizing v with
  | nil =>
    cases rest with
    | nil => rfl
    | cons b rest => exact readDigits_other (stop b rfl) v rest
  | cons d l ih =>
    obtain ⟨digit, value⟩ := isDigit_place (small d (by simp))
    have bound := foldl_places_le l (v * 10 + d)
    rw [foldl_cons] at fits
    rw [map_cons, cons_append, readDigits_digit digit (by rw [value]; omega), value, Nat.add_sub_cancel_left,
      ih (fun d member => small d (by simp [member])) fits]
    rfl

theorem readDigits_decimal {n : Nat} (fits : n ≤ flowBufMax) (k : Nat) (stop : ∀ b, rest[0]? = some b → ¬ IsDigit b) :
    ∃ v, readDigits 0 ((decimal n).take k ++ rest) = some (v, ((decimal n).take k).length) ∧
      ((decimal n).length ≤ k → v = n) := by
  have small : ∀ d ∈ (places n).take k, d < 10 := fun d member => places_lt (mem_of_mem_take member)
  have whole := places_value n
  rw [← take_append_drop k (places n), foldl_append] at whole
  have bound := foldl_places_le ((places n).drop k) (((places n).take k).foldl (fun v d => v * 10 + d) 0)
  rw [whole] at bound
  refine ⟨((places n).take k).foldl (fun v d => v * 10 + d) 0, ?_, fun all => ?_⟩
  · rw [decimal_eq, ← map_take, readDigits_places small (bound.trans fits) stop, length_map]
  · rw [decimal_eq, length_map] at all
    rw [take_of_length_le all, places_value]

theorem field_of_readNumber (read : readNumberCrlf buf pos = .number v q) :
    field buf pos = some ((v : Int), q) ∧ v ≤ flowBufMax ∧ pos + 2 < q := by
  unfold readNumberCrlf at read
  cases digits : readDigits 0 (buf.drop pos) with
  | none =>
    rw [digits] at read
    cases read
  | some r =>
    obtain ⟨v', n⟩ := r
    rw [digits] at read
    dsimp only at read
    obtain ⟨scan, bound⟩ := scanDigits_of_readDigits (Nat.zero_le _) digits
    split at read
    · cases read
    split at read
    · cases read
    rename_i some_ _
    cases ends : crlf buf (pos + n) with
    | none =>
      rw [ends] at read
      cases read
    | some q' =>
      rw [ends] at read
      cases read
      refine ⟨?_, bound, ?_⟩
      · rw [field]
        simp [show scanDigits 0 (buf.drop pos) = ((v : Int), n) from scan, ends]
      · have := (crlf_eq_some.mp ends).1
        omega

theorem readNumberCrlf_cut {u v tail : Bytes} {n : Nat} (fits : n ≤ flowBufMax)
    (at_ : (u ++ v).drop pos = decimal n ++ (ascii "\r\n" ++ tail)) (inside : pos ≤ u.length) :
    (u.length = pos ∧ readNumberCrlf u pos = .malformed) ∨
      (u.length < pos + (decimal n).length + 2 ∧ readNumberCrlf u pos = .incomplete) ∨
      (pos + (decimal n).length + 2 ≤ u.length ∧ readNumberCrlf u pos = .number n (pos + (decimal n).length + 2)) := by
  have real := length_pos_of_ne_nil (decimal_ne_nil n)
  rw [drop_append_of_le_length inside] at at_
  -- What is there of the field: some digits, and behind all of them some of CR, LF and the rest.
  have there : u.drop pos = (decimal n).take (u.length - pos) ++ (ascii "\r\n" ++ tail).take (u.length - pos - (decimal n).length) := by
    rw [← take_append, ← at_, ← length_drop, take_left]
  have stop : ∀ b, ((ascii "\r\n" ++ tail).take (u.length - pos - (decimal n).length))[0]? = some b → ¬ IsDigit b := by
    intro b first
    rw [getElem?_take] at first
    split at first
    · have return_ : (13 : UInt8) = b := Option.some.inj first
      rw [← return_]
      decide
    · cases first
  obtain ⟨value, read, all⟩ := readDigits_decimal fits (u.length - pos) stop
  rw [← there, length_take] at read
  rw [readNumberCrlf, read]
  dsimp only
  by_cases none_ : u.length = pos
  · refine .inl ⟨none_, if_pos ?_⟩
    omega
  · rw [if_neg (by omega)]
    by_cases short : u.length < pos + (decimal n).length + 2
    · exact .inr (.inl ⟨short, if_pos (by omega)⟩)
    · have count : min (u.length - pos) (decimal n).length = (decimal n).length := by omega
      have ends : crlf u (pos + (decimal n).length) = some (pos + (decimal n).length + 2) := by
        rw [take_of_length_le (show (decimal n).length ≤ u.length - pos by omega)] at there
        have rest := drop_add there
        rw [take_append, take_of_length_le (show (ascii "\r\n").length ≤ _ by show 2 ≤ _; omega)] at rest
        exact crlf_of_drop rest
      rw [if_neg (by omega), count, ends, all (by omega)]
      exact .inr (.inr ⟨by omega, rfl⟩)

end Numbers

section Cut

variable {args : List Bytes} {u v tail : Bytes}

theorem bulksLen_cut {p : Nat} (fits : ∀ arg ∈ args, arg.length ≤ flowBufMax) (at_ : (u ++ v).drop p = args.flatMap bulk ++ tail)
    (inside : p ≤ u.length) :
    (p + (args.flatMap bulk).length ≤ u.length ∧ bulksLen u args.length p = .complete (p + (args.flatMap bulk).length)) ∨
      (u.length < p + (args.flatMap bulk).length ∧ bulksLen u args.length p = .incomplete) ∨
      (bulksLen u args.length p = .malformed ∧ ∃ j < args.length, u.length = p + ((args.take j).flatMap bulk).length + 1) := by
  induction args generalizing p with
  | nil => exact .inl ⟨inside, rfl⟩
  | cons arg args ih =>
    rw [flatMap_cons, append_assoc] at at_
    have size := bulk_length arg
    have one : (u ++ v).drop p =
        ascii "$" ++ (decimal arg.length ++ (ascii "\r\n" ++ (arg ++ (ascii "\r\n" ++ (args.flatMap bulk ++ tail))))) := by
      rw [at_, bulk]
      simp
    have two := drop_add one
    have three := drop_add two
    have four := drop_add three
    have five := drop_add four
    rw [length_cons, bulksLen, flatMap_cons, length_append]
    by_cases empty : u.length ≤ p
    · rw [if_pos empty]
      exact .inr (.inl ⟨by omega, rfl⟩)
    have dollar : u[p]? = some 36 := by
      rw [← getElem?_append_left (show p < u.length by omega)]
      exact getElem?_of_drop one
    rw [if_neg empty, if_neg (not_not_intro dollar)]
    rcases readNumberCrlf_cut (fits arg (by simp)) two (show p + 1 ≤ u.length by omega) with ⟨cut, read⟩ | ⟨short, read⟩ | ⟨long, read⟩
    · change u.length = p + 1 at cut
      change readNumberCrlf u (p + 1) = _ at read
      rw [read]
      exact .inr (.inr ⟨rfl, 0, Nat.succ_pos _, cut⟩)
    · change u.length < p + 1 + _ + 2 at short
      change readNumberCrlf u (p + 1) = _ at read
      rw [read]
      exact .inr (.inl ⟨by omega, rfl⟩)
    · change p + 1 + _ + 2 ≤ u.length at long
      change readNumberCrlf u (p + 1) = .number _ (p + 1 + _ + 2) at read
      rw [read]
      dsimp only
      rw [if_neg (not_lt.mpr (fits arg (by simp)))]
      by_cases short : u.length < p + 1 + (decimal arg.length).length + 2 + arg.length + 2
      · rw [if_pos short]
        exact .inr (.inl ⟨by omega, rfl⟩)
      rw [if_neg short]
      have ends : crlf u (p + 1 + (decimal arg.length).length + 2 + arg.length) = some (p + (bulk arg).length) := by
        have whole := crlf_of_drop five
        obtain ⟨_, first, second⟩ := crlf_eq_some.mp whole
        change (u ++ v)[p + 1 + (decimal arg.length).length + 2 + arg.length]? = _ at first
        change (u ++ v)[p + 1 + (decimal arg.length).length + 2 + arg.length + 1]? = _ at second
        rw [getElem?_append_left (by omega)] at first second
        exact crlf_eq_some.mpr ⟨by omega, first, second⟩
      rw [ends]
      dsimp only
      rcases ih (fun a member => fits a (by simp [member])) (drop_add at_) (by omega) with ⟨all, done⟩ | ⟨few, done⟩ | ⟨done, j, small, length⟩
      · exact .inl ⟨by omega, by rw [done, Nat.add_assoc]⟩
      · exact .inr (.inl ⟨by omega, done⟩)
      · refine .inr (.inr ⟨done, j + 1, Nat.succ_lt_succ small, ?_⟩)
        rw [length, take_succ_cons, flatMap_cons, length_append]
        omega

structure Forwardable (args : List Bytes) : Prop where
  real : 0 < args.length
  few : args.length ≤ 1024
  fits : ∀ arg ∈ args, arg.length ≤ flowBufMax

/-- The first bytes of a command are incomplete, but for those that end behind its star or the dollar of an argument. -/
theorem respCommandLen_cut (command : Forwardable args) (whole : u ++ v = encode args ++ tail) (some_ : u ≠ []) :
    ((encode args).length ≤ u.length ∧ respCommandLen u = .complete (encode args).length) ∨
      (u.length < (encode args).length ∧ respCommandLen u = .incomplete) ∨
      (respCommandLen u = .malformed ∧ (u.length = 1 ∨ ∃ j < args.length, u.length = (cutBefore args j).length + 1)) := by
  have length := length_pos_of_ne_nil some_
  have size := encode_length args
  have one : (u ++ v).drop 0 = ascii "*" ++ (decimal args.length ++ (ascii "\r\n" ++ (args.flatMap bulk ++ tail))) := by
    rw [whole, encode, drop_zero]
    simp
  have two := drop_add one
  have three := drop_add two
  have four := drop_add three
  have star : u[0]? = some 42 := by
    rw [← getElem?_append_left length]
    exact getElem?_of_drop one
  have small : args.length ≤ flowBufMax := command.few.trans (by decide)
  rw [respCommandLen, if_neg some_, if_neg (not_not_intro star)]
  rcases readNumberCrlf_cut small two length with ⟨cut, read⟩ | ⟨short, read⟩ | ⟨long, read⟩
  · change readNumberCrlf u 1 = _ at read
    rw [read]
    exact .inr (.inr ⟨rfl, .inl cut⟩)
  · change readNumberCrlf u 1 = _ at read
    change u.length < 1 + _ + 2 at short
    rw [read]
    exact .inr (.inl ⟨by omega, rfl⟩)
  · change readNumberCrlf u 1 = .number _ (1 + _ + 2) at read
    change 1 + _ + 2 ≤ u.length at long
    have counted : ¬ (args.length = 0 ∨ 1024 < args.length) := by
      have := command.real
      have := command.few
      omega
    rw [read]
    dsimp only
    rw [if_neg counted, size]
    rcases bulksLen_cut command.fits four long with done | done | ⟨done, j, below, cut⟩
    · exact .inl done
    · exact .inr (.inl done)
    · refine .inr (.inr ⟨done, .inr ⟨j, below, ?_⟩⟩)
      rw [cut, cutBefore, length_append]
      simp only [length_append]
      rfl

end Cut

section Frames

variable {buf : Bytes}

end Frames

end AICacheDB.Forwarder
