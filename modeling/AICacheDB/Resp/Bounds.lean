import AICacheDB.Resp.Grammar

open CLib List Option Bool

namespace AICacheDB.Resp

/-! The two parsers once more, with every read of the buffer written out. -/

namespace Checked

/-- `*p`, which is undefined outside of the buffer. -/
def load (buf : Bytes) (p : Int) : Option UInt8 := if p < 0 then none else buf[p.toNat]?

def absent (buf : Bytes) (p : Int) (b : UInt8) : Option Bool :=
  if (buf.length : Int) ≤ p then some true else (load buf p).map fun c => decide (c ≠ b)

def digits (buf : Bytes) : Nat → Int → Int → Option (Int × Int)
  | 0, _, _ => none
  | fuel + 1, num, p =>
    if (buf.length : Int) ≤ p then some (num, p)
    else do
      let c ← load buf p
      if 48 ≤ c ∧ c ≤ 57 then digits buf fuel (wrap32 (num * 10 + (c.toNat - 48))) (p + 1) else some (num, p)

/-- The tests for CR and LF; the inner `none` is a failed one. -/
def crlf (buf : Bytes) (p : Int) : Option (Option Int) := do
  let noReturn ← absent buf p 13
  if noReturn = true then some none
  else do
    let noFeed ← absent buf (p + 1) 10
    some (if noFeed = true then none else some (p + 2))

def copy (buf : Bytes) (p n : Int) : Option Bytes :=
  if 0 ≤ p ∧ 0 ≤ n ∧ p + n ≤ buf.length then some ((buf.drop p.toNat).take n.toNat) else none

def frameBulks (buf : Bytes) : Nat → Int → Option Frame
  | 0, p => some (.complete p.toNat)
  | n + 1, p => do
    let noDollar ← absent buf p 36
    if noDollar = true then some .malformed
    else do
      let (bulkLen, p) ← digits buf (buf.length + 1) 0 (p + 1)
      let line ← crlf buf p
      match line with
      | none => some .incomplete
      | some p =>
        if (buf.length : Int) < p + bulkLen ∨ (buf.length : Int) ≤ p + bulkLen + 1 then some .incomplete
        else do
          let line ← crlf buf (p + bulkLen)
          match line with
          | none => some .incomplete
          | some p => frameBulks buf n p

def respParseOneCommand (buf : Bytes) : Option Frame := do
  let noStar ← absent buf 0 42
  if noStar = true then some .malformed
  else do
    let (num, p) ← digits buf (buf.length + 1) 0 1
    let line ← crlf buf p
    match line with
    | none => some .incomplete
    | some p => frameBulks buf num.toNat p

def splitBulks (alloc : ParseAlloc) (buf : Bytes) : Nat → Nat → Int → Option (Option (List Bytes))
  | 0, _, _ => some (some [])
  | n + 1, i, p => do
    let noDollar ← absent buf p 36
    if noDollar = true then some none
    else do
      let (bulkLen, p) ← digits buf (buf.length + 1) 0 (p + 1)
      let line ← crlf buf p
      match line with
      | none => some none
      | some p =>
        if (buf.length : Int) < p + bulkLen then some none
        else if wrap32 (bulkLen + 1) < 0 ∨ alloc (some i) = false then some none
        else do
          let arg ← copy buf p bulkLen
          let line ← crlf buf (p + bulkLen)
          match line with
          | none => some none
          | some p => do
            let rest ← splitBulks alloc buf n (i + 1) p
            some (rest.map fun args => arg :: args)

def respParseArguments (alloc : ParseAlloc) (buf : Bytes) : Option (Option (List Bytes)) := do
  let noStar ← absent buf 0 42
  if noStar = true then some none
  else do
    let (num, p) ← digits buf (buf.length + 1) 0 1
    let line ← crlf buf p
    match line with
    | none => some none
    | some p => if num ≤ 0 ∨ alloc none = false then some none else splitBulks alloc buf num.toNat 0 p

section Reads

variable {buf : Bytes} {p : Nat}

theorem absent_eq (buf : Bytes) (p : Nat) (b : UInt8) : absent buf p b = some (decide (buf[p]? ≠ some b)) := by
  unfold absent load
  by_cases inside : p < buf.length
  · rw [if_neg (by omega), if_neg (by omega), Int.toNat_natCast, getElem?_eq_getElem inside, map_some]
    simp
  · rw [if_pos (by omega), getElem?_eq_none (not_lt.mp inside)]
    rfl

theorem absent_before {p : Int} (before : p < 0) (b : UInt8) : absent buf p b = none := by
  unfold absent load
  rw [if_neg (by omega), if_pos before]
  rfl

theorem digits_eq {fuel : Nat} (num : Int) (enough : buf.length - p < fuel) :
    digits buf fuel num p = some ((scanDigits num (buf.drop p)).1, ((p + (scanDigits num (buf.drop p)).2 : Nat) : Int)) := by
  induction fuel generalizing p num with
  | zero => omega
  | succ fuel ih =>
    unfold digits load
    by_cases inside : p < buf.length
    · rw [if_neg (by omega), if_neg (by omega), Int.toNat_natCast, getElem?_eq_getElem inside, drop_eq_getElem_cons inside,
        bind_eq_bind, bind_some]
      by_cases digit : 48 ≤ buf[p] ∧ buf[p] ≤ 57
      · have rest := ih (wrap32 (num * 10 + (buf[p].toNat - 48))) (show buf.length - (p + 1) < fuel by omega)
        rw [if_pos digit, scanDigits, if_pos digit, show (p : Int) + 1 = ((p + 1 : Nat) : Int) by omega, rest]
        rw [Nat.add_right_comm, Nat.add_assoc]
      · rw [if_neg digit, scanDigits_cons_other digit]
        rfl
    · rw [if_pos (by omega), drop_eq_nil_of_le (not_lt.mp inside)]
      rfl

theorem crlf_eq (buf : Bytes) (p : Nat) : crlf buf p = some ((Resp.crlf buf p).map Int.ofNat) := by
  unfold crlf Resp.crlf
  rw [absent_eq, show (p : Int) + 1 = ((p + 1 : Nat) : Int) by omega, absent_eq, bind_eq_bind, bind_some]
  by_cases return_ : buf[p]? = some 13
  · by_cases feed : buf[p + 1]? = some 10
    · simp [return_, feed]
    · simp [return_, feed]
  · simp [return_]

theorem crlf_before {p : Int} (before : p < 0) : crlf buf p = none := by
  unfold crlf
  rw [absent_before before]
  rfl

theorem frameBulks_eq (n p : Nat) : frameBulks buf n p = Resp.frameBulks buf n p := by
  induction n generalizing p with
  | zero => rfl
  | succ n ih =>
    unfold frameBulks Resp.frameBulks
    rw [absent_eq, show (p : Int) + 1 = ((p + 1 : Nat) : Int) by omega, digits_eq 0 (by omega), bind_eq_bind, bind_some]
    by_cases dollar : buf[p]? = some 36
    · have inside := lt_of_getElem? dollar
      simp only [dollar, ne_eq, not_true_eq_false, decide_false, false_eq_true, if_false, bind_eq_bind, bind_some, crlf_eq]
      cases Resp.crlf buf (p + 1 + (scanDigits 0 (buf.drop (p + 1))).2) with
      | none => rfl
      | some q =>
        simp only [map_some, Int.ofNat_eq_natCast]
        generalize (scanDigits 0 (buf.drop (p + 1))).1 = bulkLen
        by_cases long : (buf.length : Int) < q + bulkLen
        · rw [if_pos (.inl long), if_pos long]
        rw [if_neg long]
        by_cases before : (q : Int) + bulkLen < 0
        · rw [if_neg (by omega), if_pos before, crlf_before before]
          rfl
        · have place : (q : Int) + bulkLen = (((q : Int) + bulkLen).toNat : Int) := (Int.toNat_of_nonneg (not_lt.mp before)).symm
          rw [if_neg before, place, crlf_eq, Int.toNat_natCast]
          cases ends : Resp.crlf buf ((q : Int) + bulkLen).toNat with
          | none =>
            split
            · rfl
            · rfl
          | some p' =>
            have close := crlf_le ends
            have next := (crlf_eq_some.mp ends).1
            rw [if_neg (by omega)]
            exact ih p'
    · simp [dollar]

theorem respParseOneCommand_eq (buf : Bytes) : respParseOneCommand buf = Resp.respParseOneCommand buf := by
  unfold respParseOneCommand Resp.respParseOneCommand
  have star := absent_eq buf 0 42
  have number : digits buf (buf.length + 1) 0 ((1 : Nat) : Int) = _ := digits_eq 0 (by omega)
  rw [Int.ofNat_zero] at star
  rw [Int.ofNat_one] at number
  rw [star, number, bind_eq_bind, bind_some]
  by_cases first : buf[0]? = some 42
  · simp only [first, ne_eq, not_true_eq_false, decide_false, false_eq_true, if_false, bind_eq_bind, bind_some, crlf_eq]
    cases Resp.crlf buf (1 + (scanDigits 0 (buf.drop 1)).2) with
    | none => rfl
    | some p => exact frameBulks_eq _ p
  · simp [first]

theorem splitBulks_eq (alloc : ParseAlloc) (n i p : Nat) : splitBulks alloc buf n i p = Resp.splitBulks alloc buf n i p := by
  induction n generalizing i p with
  | zero => rfl
  | succ n ih =>
    unfold splitBulks Resp.splitBulks
    rw [absent_eq, show (p : Int) + 1 = ((p + 1 : Nat) : Int) by omega, digits_eq 0 (by omega), bind_eq_bind, bind_some]
    by_cases dollar : buf[p]? = some 36
    · simp only [dollar, ne_eq, not_true_eq_false, decide_false, false_eq_true, if_false, bind_eq_bind, bind_some, crlf_eq]
      cases Resp.crlf buf (p + 1 + (scanDigits 0 (buf.drop (p + 1))).2) with
      | none => rfl
      | some q =>
        simp only [map_some, Int.ofNat_eq_natCast]
        generalize (scanDigits 0 (buf.drop (p + 1))).1 = bulkLen
        by_cases long : (buf.length : Int) < q + bulkLen
        · rw [if_pos long, if_pos long]
        rw [if_neg long, if_neg long]
        by_cases failed : wrap32 (bulkLen + 1) < 0 ∨ alloc (some i) = false
        · rw [if_pos failed, if_pos failed]
        rw [if_neg failed, if_neg failed]
        unfold copy
        by_cases negative : bulkLen < 0
        · rw [if_neg (by omega), if_pos negative]
          rfl
        · have place : (q : Int) + bulkLen = ((q + bulkLen.toNat : Nat) : Int) := by omega
          rw [if_pos (by omega), if_neg negative, place, crlf_eq, bind_some, bind_some, Int.toNat_natCast]
          cases Resp.crlf buf (q + bulkLen.toNat) with
          | none => rfl
          | some p' =>
            simp only [map_some, Int.ofNat_eq_natCast]
            rw [ih]
    · simp [dollar]

theorem respParseArguments_eq (alloc : ParseAlloc) (buf : Bytes) : respParseArguments alloc buf = Resp.respParseArguments alloc buf := by
  unfold respParseArguments Resp.respParseArguments
  have star := absent_eq buf 0 42
  have number : digits buf (buf.length + 1) 0 ((1 : Nat) : Int) = _ := digits_eq 0 (by omega)
  rw [Int.ofNat_zero] at star
  rw [Int.ofNat_one] at number
  rw [star, number, bind_eq_bind, bind_some]
  by_cases first : buf[0]? = some 42
  · simp only [first, ne_eq, not_true_eq_false, decide_false, false_eq_true, if_false, bind_eq_bind, bind_some, crlf_eq]
    cases Resp.crlf buf (1 + (scanDigits 0 (buf.drop 1)).2) with
    | none => rfl
    | some p =>
      simp only [map_some, Int.ofNat_eq_natCast]
      rw [splitBulks_eq]
  · simp [first]

end Reads

end Checked

section Bounds

variable {buf : Bytes} {args : List Bytes} {p m : Nat}

theorem getElem?_of_take {k j : Nat} (inside : j < (buf.take k).length) : buf[j]? = (buf.take k)[j]? := by
  rw [length_take] at inside
  rw [getElem?_take_of_lt (by omega)]

theorem field_of_take {k q : Nat} {v : Int} (found : field (buf.take k) p = some (v, q)) : field buf p = some (v, q) := by
  obtain ⟨_, inside, _⟩ := field_eq_some found
  exact field_congr found fun j small => getElem?_of_take (by omega)

theorem crlf_of_take {k q : Nat} (found : crlf (buf.take k) p = some q) : crlf buf p = some q := by
  have inside := crlf_le found
  have next := (crlf_eq_some.mp found).1
  have same {j : Nat} (small : j < (buf.take k).length) : buf[j]? = (buf.take k)[j]? := getElem?_of_take small
  rw [crlf_congr (same (by omega)) (same (by omega)), found]

/-- The splitter stays in the bytes that the framer has been through: a length that leads back cannot be allocated, and -1 would
    end the framer at the LF of its own line. -/
theorem Framed.splits (framed : Framed buf args p m) (alloc : ParseAlloc) (k i : Nat) :
    ∃ r, splitBulks alloc (buf.take k) args.length i p = some r := by
  induction framed generalizing i with
  | nil p => exact ⟨_, rfl⟩
  | @cons args p q p' p'' bulkLen bulk rest ih =>
    rw [length_cons, splitBulks_succ]
    by_cases dollar : (buf.take k)[p]? = some 36
    · rw [if_neg (not_not_intro dollar)]
      cases header : field (buf.take k) (p + 1) with
      | none => exact ⟨_, rfl⟩
      | some read =>
        obtain ⟨v, q'⟩ := read
        have same := bulk.header.symm.trans (field_of_take header)
        cases same
        dsimp only
        by_cases long : ((buf.take k).length : Int) < q + bulkLen
        · exact ⟨_, if_pos long⟩
        by_cases failed : wrap32 (bulkLen + 1) < 0 ∨ alloc (some i) = false
        · rw [if_neg long]
          exact ⟨_, if_pos failed⟩
        have real : ¬ bulkLen < 0 := by
          intro negative
          have range := scanDigits_range 0 (buf.drop (p + 1)) (by decide) (by decide)
          rw [(field_eq_some bulk.header).2.2] at range
          have notOne := bulk.ne_neg_one
          apply failed
          rw [wrap32_of_range (by omega) (by omega)]
          exact Or.inl (by omega)
        rw [if_neg long, if_neg failed, if_neg real]
        cases ends : crlf (buf.take k) (q + bulkLen.toNat) with
        | none => exact ⟨_, rfl⟩
        | some p1 =>
          have close := bulk.ends
          rw [show ((q : Int) + bulkLen).toNat = q + bulkLen.toNat by omega, crlf_of_take ends] at close
          cases close
          obtain ⟨r, ran⟩ := ih (i + 1)
          dsimp only
          rw [ran]
          exact ⟨_, rfl⟩
    · exact ⟨_, if_pos dollar⟩

theorem respParseArguments_of_complete (done : respParseOneCommand buf = some (.complete m)) (alloc : ParseAlloc) (k : Nat) :
    ∃ r, respParseArguments alloc (buf.take k) = some r := by
  have settled : Settled (respParseOneCommand buf) := by
    rw [done]
    exact settled_complete m
  obtain ⟨_, num, p, header, bulks⟩ := respParseOneCommand_settled settled
  obtain ⟨args, count, framed⟩ := frameBulks_complete_iff.mp (bulks.symm.trans done)
  rw [respParseArguments_eq]
  split
  · exact ⟨_, rfl⟩
  · cases header' : field (buf.take k) 1 with
    | none => exact ⟨_, rfl⟩
    | some read =>
      cases header.symm.trans (field_of_take header')
      dsimp only
      split
      · exact ⟨_, rfl⟩
      · rw [← count]
        exact framed.splits alloc k 0

/-- Both parsers stay inside the buffer, and so does the length found, exactly if no length that the framer reads leads in front
    of it. -/
theorem parsers_in_bounds_iff (buf : Bytes) : ((∃ r, Checked.respParseOneCommand buf = some r) ∧
      ∀ n, Checked.respParseOneCommand buf = some (.complete n) → 1 ≤ n ∧ n ≤ buf.length ∧
        ∀ alloc, ∃ args, Checked.respParseArguments alloc (buf.take n) = some args) ↔ ¬ Reaches buf (Escapes buf) := by
  rw [Checked.respParseOneCommand_eq, ← respParseOneCommand_fault_iff]
  constructor
  · rintro ⟨⟨r, ran⟩, _⟩ fault
    cases ran.symm.trans fault
  · intro inside
    refine ⟨ne_none_iff_exists'.mp inside, fun n done => ?_⟩
    have bound := respParseOneCommand_le done
    refine ⟨bound.1, bound.2, fun alloc => ?_⟩
    rw [Checked.respParseArguments_eq]
    exact respParseArguments_of_complete done alloc n

def farBack : Bytes := ascii "*1\r\n$2147483648\r\nx\r\n"

theorem framer_reads_in_front : Checked.respParseOneCommand farBack = none := by
  decide

end Bounds

end AICacheDB.Resp
