import AICacheDB.Resp.Parse
import Mathlib.Data.List.Basic

open CLib Option
open List hiding getElem?_eq_some_iff

namespace AICacheDB.Resp

def IsDigit (b : UInt8) : Prop := 48 ≤ b ∧ b ≤ 57

instance (b : UInt8) : Decidable (IsDigit b) := inferInstanceAs (Decidable (_ ∧ _))

section Digits

variable {b : UInt8} {rest : Bytes}

theorem scanDigits_cons_digit (digit : IsDigit b) (num : Int) (bs : Bytes) :
    (scanDigits num (b :: bs)).2 = (scanDigits (wrap32 (num * 10 + (b.toNat - 48))) bs).2 + 1 := by
  rw [scanDigits, if_pos (show 48 ≤ b ∧ b ≤ 57 from digit)]

theorem scanDigits_cons_other (other : ¬ IsDigit b) (num : Int) (bs : Bytes) : scanDigits num (b :: bs) = (num, 0) := by
  unfold scanDigits
  rw [if_neg (show ¬ (48 ≤ b ∧ b ≤ 57) from other)]

theorem scanDigits_digit (num : Int) (bs : Bytes) (i : Nat) (inside : i < (scanDigits num bs).2) :
    ∃ b, bs[i]? = some b ∧ IsDigit b := by
  induction bs generalizing num i with
  | nil => exact absurd inside (Nat.not_lt_zero i)
  | cons b bs ih =>
    by_cases digit : IsDigit b
    · rw [scanDigits_cons_digit digit] at inside
      cases i with
      | zero => exact ⟨b, rfl, digit⟩
      | succ i => exact ih _ i (Nat.lt_of_succ_lt_succ inside)
    · rw [scanDigits_cons_other digit] at inside
      exact absurd inside (Nat.not_lt_zero i)

theorem scanDigits_stop {num : Int} {bs : Bytes} (here : bs[(scanDigits num bs).2]? = some b) : ¬ IsDigit b := by
  induction bs generalizing num with
  | nil => cases here
  | cons c bs ih =>
    by_cases digit : IsDigit c
    · rw [scanDigits_cons_digit digit, getElem?_cons_succ] at here
      exact ih here
    · rw [scanDigits_cons_other digit] at here
      cases here
      exact digit

theorem scanDigits_congr {num : Int} {bs cs : Bytes} (same : ∀ i ≤ (scanDigits num cs).2, bs[i]? = cs[i]?) :
    scanDigits num bs = scanDigits num cs := by
  induction cs generalizing num bs with
  | nil =>
    have first := same 0 (Nat.zero_le _)
    rw [getElem?_nil, getElem?_eq_none_iff] at first
    rw [eq_nil_of_length_eq_zero (Nat.le_zero.mp first)]
  | cons c cs ih =>
    have first := same 0 (Nat.zero_le _)
    cases bs with
    | nil => cases first
    | cons b bs =>
      obtain rfl : b = c := some.inj first
      by_cases digit : IsDigit b
      · have rest : scanDigits (wrap32 (num * 10 + (b.toNat - 48))) bs = scanDigits (wrap32 (num * 10 + (b.toNat - 48))) cs := by
          apply ih
          intro i small
          exact same (i + 1) (by rw [scanDigits_cons_digit digit]; omega)
        rw [scanDigits, scanDigits, rest]
      · rw [scanDigits_cons_other digit, scanDigits_cons_other digit]

def digitsValue (ds : Bytes) : Nat := ds.foldl (fun v b => v * 10 + (b.toNat - 48)) 0

theorem scanDigits_append {ds : Bytes} (digits : ∀ b ∈ ds, IsDigit b) (stop : ∀ b, rest[0]? = some b → ¬ IsDigit b) (v : Nat) :
    scanDigits (wrap32 v) (ds ++ rest) = (wrap32 (ds.foldl (fun v b => v * 10 + (b.toNat - 48)) v : Nat), ds.length) := by
  induction ds generalizing v with
  | nil =>
    cases rest with
    | nil => rfl
    | cons b rest => exact scanDigits_cons_other (stop b rfl) _ rest
  | cons b ds ih =>
    have digit : 48 ≤ b ∧ b ≤ 57 := digits b (by simp)
    have large : 48 ≤ b.toNat := digit.1
    have next : wrap32 (wrap32 v * 10 + (b.toNat - 48)) = wrap32 ((v * 10 + (b.toNat - 48) : Nat) : Int) := by
      rw [wrap32_wrap32_mul_add]
      congr 1
      omega
    rw [cons_append, scanDigits, if_pos digit, next]
    dsimp only
    rw [ih fun c member => digits c (by simp [member]), foldl_cons, length_cons]

theorem scanDigits_digits {ds : Bytes} (digits : ∀ b ∈ ds, IsDigit b) (stop : ∀ b, rest[0]? = some b → ¬ IsDigit b) :
    scanDigits 0 (ds ++ rest) = (wrap32 (digitsValue ds), ds.length) := scanDigits_append digits stop 0

theorem not_isDigit_zero : ¬ IsDigit 0 := by decide

end Digits

variable {buf : Bytes} {p : Nat}

theorem crlf_eq_some {q : Nat} : crlf buf p = some q ↔ q = p + 2 ∧ buf[p]? = some 13 ∧ buf[p + 1]? = some 10 := by
  unfold crlf
  by_cases both : buf[p]? = some 13 ∧ buf[p + 1]? = some 10
  · rw [if_pos both, some.injEq]
    exact ⟨fun same => ⟨same.symm, both⟩, fun same => same.1.symm⟩
  · rw [if_neg both]
    exact ⟨fun absent => (by cases absent), fun found => absurd found.2 both⟩

theorem crlf_le {q : Nat} (found : crlf buf p = some q) : q ≤ buf.length := by
  obtain ⟨rfl, _, last⟩ := crlf_eq_some.mp found
  have := (getElem?_eq_some_iff.mp last).1
  omega

theorem crlf_congr {b msg : Bytes} (first : b[p]? = msg[p]?) (second : b[p + 1]? = msg[p + 1]?) : crlf b p = crlf msg p := by
  rw [crlf, first, second, crlf]

def field (buf : Bytes) (p : Nat) : Option (Int × Nat) :=
  let r := scanDigits 0 (buf.drop p)
  (crlf buf (p + r.2)).map fun q => (r.1, q)

theorem frameBulks_succ (buf : Bytes) (n p : Nat) :
    frameBulks buf (n + 1) p =
      if buf[p]? ≠ some 36 then some .malformed
      else
        match field buf (p + 1) with
        | none => some .incomplete
        | some (bulkLen, q) =>
          if (buf.length : Int) < q + bulkLen then some .incomplete
          else if q + bulkLen < 0 then none
          else
            match crlf buf (q + bulkLen).toNat with
            | none => some .incomplete
            | some p => frameBulks buf n p := by
  rw [frameBulks, field]
  dsimp only
  cases crlf buf (p + 1 + (scanDigits 0 (buf.drop (p + 1))).2) <;> rfl

theorem respParseOneCommand_eq (buf : Bytes) :
    respParseOneCommand buf =
      if buf[0]? ≠ some 42 then some .malformed
      else
        match field buf 1 with
        | none => some .incomplete
        | some (num, p) => frameBulks buf num.toNat p := by
  rw [respParseOneCommand, field]
  dsimp only
  cases crlf buf (1 + (scanDigits 0 (buf.drop 1)).2) <;> rfl

section Field

variable {b msg : Bytes} {p q : Nat} {v : Int} (found : field msg p = some (v, q))

include found

theorem field_eq_some : p + (scanDigits 0 (msg.drop p)).2 + 2 = q ∧ q ≤ msg.length ∧ (scanDigits 0 (msg.drop p)).1 = v := by
  unfold field at found
  obtain ⟨q', ends, same⟩ := map_eq_some_iff.mp found
  cases same
  exact ⟨(crlf_eq_some.mp ends).1.symm, crlf_le ends, rfl⟩

theorem field_congr (same : ∀ j < q, b[j]? = msg[j]?) : field b p = some (v, q) := by
  obtain ⟨stop, _, value⟩ := field_eq_some found
  have scan : scanDigits 0 (b.drop p) = scanDigits 0 (msg.drop p) := by
    apply scanDigits_congr
    intro i small
    rw [getElem?_drop, getElem?_drop]
    exact same (p + i) (by omega)
  have ends : crlf b (p + (scanDigits 0 (msg.drop p)).2) = crlf msg (p + (scanDigits 0 (msg.drop p)).2) :=
    crlf_congr (same _ (by omega)) (same _ (by omega))
  rw [← found, field, field, scan, ends]

theorem field_blank {k : Nat} (start : p ≤ k) (same : ∀ j < k, b[j]? = msg[j]?)
    (blank : ∀ j, k ≤ j → j < q → b[j]? = some 0) (cut : k < q) : field b p = none := by
  obtain ⟨stop, _, _⟩ := field_eq_some found
  have ends : crlf b (p + (scanDigits 0 (b.drop p)).2) = none := by
    cases reached : crlf b (p + (scanDigits 0 (b.drop p)).2) with
    | none => rfl
    | some r =>
      obtain ⟨_, return_, feed⟩ := crlf_eq_some.mp reached
      exfalso
      -- The scan of `b` cannot pass a zero byte, and before `k` it sees what the scan of `msg` saw.
      have early : p + (scanDigits 0 (b.drop p)).2 ≤ k := by
        by_contra late
        obtain ⟨d, here, digit⟩ := scanDigits_digit 0 (b.drop p) (k - p) (by omega)
        rw [getElem?_drop, show p + (k - p) = k by omega, blank k (le_refl k) cut] at here
        cases here
        exact not_isDigit_zero digit
      have earlier : p + (scanDigits 0 (b.drop p)).2 ≠ k := by
        intro here
        rw [here, blank k (le_refl k) cut] at return_
        cases return_
      have before : p + (scanDigits 0 (b.drop p)).2 + 1 ≠ k := by
        intro here
        rw [here, blank k (le_refl k) cut] at feed
        cases feed
      obtain ⟨d, here, digit⟩ := scanDigits_digit 0 (msg.drop p) (scanDigits 0 (b.drop p)).2 (by omega)
      rw [getElem?_drop, ← same _ (by omega), return_] at here
      cases here
      exact absurd digit (by decide)
  rw [field]
  simp [ends]

end Field

section Stability

variable {b msg : Bytes} {n p : Nat}

def Settled (r : Option Frame) : Prop := r ≠ some .malformed ∧ r ≠ some .incomplete

theorem settled_complete (n : Nat) : Settled (some (.complete n)) := ⟨fun h => (by cases h), fun h => (by cases h)⟩

structure Bulk (buf : Bytes) (p : Nat) (bulkLen : Int) (q p' : Nat) : Prop where
  dollar : buf[p]? = some 36
  header : field buf (p + 1) = some (bulkLen, q)
  fits : (q : Int) + bulkLen ≤ buf.length
  inside : 0 ≤ (q : Int) + bulkLen
  ends : crlf buf (q + bulkLen).toNat = some p'

variable {bulkLen : Int} {p' q k : Nat}

theorem Bulk.next (bulk : Bulk b p bulkLen q p') : frameBulks b (n + 1) p = frameBulks b n p' := by
  rw [frameBulks_succ, if_neg (not_not_intro bulk.dollar), bulk.header]
  simp only
  rw [if_neg (not_lt.mpr bulk.fits), if_neg (not_lt.mpr bulk.inside), bulk.ends]

theorem Bulk.unique {bulkLen' : Int} {q' p'' : Nat} (bulk : Bulk b p bulkLen q p') (bulk' : Bulk b p bulkLen' q' p'') :
    p' = p'' := by
  have header := bulk.header.symm.trans bulk'.header
  cases header
  exact some.inj (bulk.ends.symm.trans bulk'.ends)

theorem frameBulks_cases (msg : Bytes) (n p : Nat) :
    (msg[p]? ≠ some 36 ∧ frameBulks msg (n + 1) p = some .malformed) ∨ frameBulks msg (n + 1) p = some .incomplete ∨
      (∃ bulkLen q, msg[p]? = some 36 ∧ field msg (p + 1) = some (bulkLen, q) ∧ (q : Int) + bulkLen < 0) ∨
      ∃ bulkLen q p', Bulk msg p bulkLen q p' := by
  rw [frameBulks_succ]
  by_cases dollar : msg[p]? = some 36
  · rw [if_neg (not_not_intro dollar)]
    cases header : field msg (p + 1) with
    | none => exact .inr (.inl rfl)
    | some read =>
      obtain ⟨bulkLen, q⟩ := read
      dsimp only
      by_cases fits : (msg.length : Int) < q + bulkLen
      · exact .inr (.inl (if_pos fits))
      · rw [if_neg fits]
        by_cases inside : (q : Int) + bulkLen < 0
        · exact .inr (.inr (.inl ⟨bulkLen, q, dollar, rfl, inside⟩))
        · rw [if_neg inside]
          cases ends : crlf msg (q + bulkLen).toNat with
          | none => exact .inr (.inl rfl)
          | some p' => exact .inr (.inr (.inr ⟨bulkLen, q, p', dollar, header, not_lt.mp fits, not_lt.mp inside, ends⟩))
  · exact .inl ⟨dollar, if_pos dollar⟩

theorem frameBulks_settled (settled : Settled (frameBulks msg (n + 1) p)) : (∃ bulkLen q p', Bulk msg p bulkLen q p') ∨
      ∃ bulkLen q, msg[p]? = some 36 ∧ field msg (p + 1) = some (bulkLen, q) ∧ (q : Int) + bulkLen < 0 := by
  rcases frameBulks_cases msg n p with ⟨_, malformed⟩ | incomplete | fault | bulk
  · exact absurd malformed settled.1
  · exact absurd incomplete settled.2
  · exact .inr fault
  · exact .inl bulk

theorem frameBulks_fault (dollar : b[p]? = some 36) (header : field b (p + 1) = some (bulkLen, q))
    (before : (q : Int) + bulkLen < 0) : frameBulks b (n + 1) p = none := by
  rw [frameBulks_succ, if_neg (not_not_intro dollar), header]
  simp only
  rw [if_neg (by omega), if_pos before]

theorem lt_of_getElem? {buf : Bytes} {i : Nat} {x : UInt8} (here : buf[i]? = some x) : i < buf.length :=
  (getElem?_eq_some_iff.mp here).1

theorem Bulk.append (bulk : Bulk msg p bulkLen q p') (rest : Bytes) : Bulk (msg ++ rest) p bulkLen q p' := by
  have same : ∀ j < msg.length, (msg ++ rest)[j]? = msg[j]? := fun j small => getElem?_append_left small
  have read := field_eq_some bulk.header
  have close := crlf_eq_some.mp bulk.ends
  constructor
  · rw [same p (lt_of_getElem? bulk.dollar)]
    exact bulk.dollar
  · exact field_congr bulk.header fun j small => same j (by omega)
  · rw [length_append]
    have := bulk.fits
    omega
  · exact bulk.inside
  · rw [crlf_congr (same _ (lt_of_getElem? close.2.1)) (same _ (lt_of_getElem? close.2.2))]
    exact bulk.ends

theorem frameBulks_append (rest : Bytes) (settled : Settled (frameBulks msg n p)) : frameBulks (msg ++ rest) n p = frameBulks msg n p := by
  induction n generalizing p with
  | zero => rfl
  | succ n ih =>
    rcases frameBulks_settled settled with ⟨bulkLen, q, p', bulk⟩ | ⟨bulkLen, q, dollar, header, before⟩
    · rw [bulk.next] at settled ⊢
      rw [(bulk.append rest).next]
      exact ih settled
    · have read := field_eq_some header
      have same : ∀ j < msg.length, (msg ++ rest)[j]? = msg[j]? := fun j small => getElem?_append_left small
      rw [frameBulks_fault dollar header before]
      apply frameBulks_fault _ _ before
      · rw [same p (lt_of_getElem? dollar)]
        exact dollar
      · exact field_congr header fun j small => same j (by omega)

structure Blanked (msg b : Bytes) (k : Nat) : Prop where
  cut : k < msg.length
  same : ∀ j < k, b[j]? = msg[j]?
  blank : ∀ j, k ≤ j → j < msg.length → b[j]? = some 0

def Stopped (r : Option Frame) : Prop := r = some .malformed ∨ r = some .incomplete

theorem Blanked.long (torn : Blanked msg b k) : msg.length ≤ b.length := by
  have cut := torn.cut
  have := lt_of_getElem? (torn.blank (msg.length - 1) (by omega) (by omega))
  omega

theorem Bulk.blanked (torn : Blanked msg b k) (start : p ≤ k) (bulk : Bulk msg p bulkLen q p') :
    Stopped (frameBulks b (n + 1) p) ∨ p' ≤ k ∧ Bulk b p bulkLen q p' := by
  obtain ⟨_, inside, _⟩ := field_eq_some bulk.header
  have close := crlf_eq_some.mp bulk.ends
  have last := lt_of_getElem? close.2.2
  have long := torn.long
  have fits := bulk.fits
  by_cases atDollar : p = k
  · left
    rw [frameBulks_succ, atDollar, torn.blank k (le_refl k) torn.cut, if_pos (by decide)]
    exact Or.inl rfl
  have dollar : b[p]? = some 36 := (torn.same p (by omega)).trans bulk.dollar
  by_cases inHeader : k < q
  · left
    have header : field b (p + 1) = none :=
      field_blank bulk.header (by omega) torn.same (fun j low high => torn.blank j low (by omega)) inHeader
    rw [frameBulks_succ, if_neg (not_not_intro dollar), header]
    exact Or.inr rfl
  have header : field b (p + 1) = some (bulkLen, q) := field_congr bulk.header fun j small => torn.same j (by omega)
  by_cases inData : k < p'
  · left
    have ends : crlf b (q + bulkLen).toNat = none := by
      cases reached : crlf b (q + bulkLen).toNat with
      | none => rfl
      | some r =>
        have feed := (crlf_eq_some.mp reached).2.2
        rw [torn.blank _ (by omega) last] at feed
        cases feed
    rw [frameBulks_succ, if_neg (not_not_intro dollar), header]
    simp only
    rw [if_neg (by omega), if_neg (not_lt.mpr bulk.inside), ends]
    exact Or.inr rfl
  · right
    have ends : crlf b (q + bulkLen).toNat = some p' := by
      rw [crlf_congr (torn.same _ (by omega)) (torn.same _ (by omega))]
      exact bulk.ends
    exact ⟨not_lt.mp inData, dollar, header, by omega, bulk.inside, ends⟩

theorem frameBulks_blanked (torn : Blanked msg b k) (start : p ≤ k) (whole : frameBulks msg n p = some (.complete msg.length)) :
    Stopped (frameBulks b n p) := by
  induction n generalizing p with
  | zero =>
    have cut := torn.cut
    rw [frameBulks, some.injEq, Frame.complete.injEq] at whole
    omega
  | succ n ih =>
    have settled : Settled (frameBulks msg (n + 1) p) := by
      rw [whole]
      exact settled_complete _
    rcases frameBulks_settled settled with ⟨bulkLen, q, p', bulk⟩ | ⟨bulkLen, q, dollar, header, before⟩
    · rw [bulk.next] at whole
      rcases bulk.blanked torn start with stopped | ⟨further, same⟩
      · exact stopped
      · rw [same.next]
        exact ih further whole
    · rw [frameBulks_fault dollar header before] at whole
      cases whole

end Stability

section Messages

def Exact (msg : Bytes) : Prop := respParseOneCommand msg = some (.complete msg.length)

instance (msg : Bytes) : Decidable (Exact msg) := inferInstanceAs (Decidable (_ = _))

variable {b msg : Bytes}

theorem respParseOneCommand_settled (settled : Settled (respParseOneCommand msg)) :
    msg[0]? = some 42 ∧ ∃ num p, field msg 1 = some (num, p) ∧ respParseOneCommand msg = frameBulks msg num.toNat p := by
  rw [respParseOneCommand_eq] at settled ⊢
  by_cases star : msg[0]? = some 42
  · rw [if_neg (not_not_intro star)] at settled ⊢
    cases header : field msg 1 with
    | none =>
      rw [header] at settled
      exact absurd rfl settled.2
    | some read => exact ⟨star, read.1, read.2, rfl, rfl⟩
  · rw [if_pos star] at settled
    exact absurd rfl settled.1

theorem respParseOneCommand_append (settled : Settled (respParseOneCommand msg)) (rest : Bytes) :
    respParseOneCommand (msg ++ rest) = respParseOneCommand msg := by
  obtain ⟨star, num, p, header, bulks⟩ := respParseOneCommand_settled settled
  have same : ∀ j < msg.length, (msg ++ rest)[j]? = msg[j]? := fun j small => getElem?_append_left small
  have read := field_eq_some header
  have header' : field (msg ++ rest) 1 = some (num, p) := field_congr header fun j small => same j (by omega)
  rw [bulks] at settled ⊢
  rw [respParseOneCommand_eq, same 0 (lt_of_getElem? star), if_neg (not_not_intro star), header']
  exact frameBulks_append rest settled

theorem Exact.append (exact_ : Exact msg) (rest : Bytes) : respParseOneCommand (msg ++ rest) = some (.complete msg.length) := by
  have settled : Settled (respParseOneCommand msg) := by
    rw [exact_]
    exact settled_complete _
  rw [respParseOneCommand_append settled, exact_]

theorem Exact.ne_nil (exact_ : Exact msg) : msg ≠ [] := by
  rintro rfl
  cases exact_

theorem stopped_or_settled (r : Option Frame) : Stopped r ∨ Settled r := by
  by_cases stopped : Stopped r
  · exact Or.inl stopped
  · exact Or.inr ⟨fun h => stopped (Or.inl h), fun h => stopped (Or.inr h)⟩

theorem frameBulks_le {n p m : Nat} (done : frameBulks msg n p = some (.complete m)) (start : 0 < p) (inside : p ≤ msg.length) :
    0 < m ∧ m ≤ msg.length := by
  induction n generalizing p with
  | zero =>
    rw [frameBulks, some.injEq, Frame.complete.injEq] at done
    exact done ▸ ⟨start, inside⟩
  | succ n ih =>
    have settled : Settled (frameBulks msg (n + 1) p) := by
      rw [done]
      exact settled_complete m
    rcases frameBulks_settled settled with ⟨bulkLen, q, p', bulk⟩ | ⟨bulkLen, q, dollar, header, before⟩
    · rw [bulk.next] at done
      have close := (crlf_eq_some.mp bulk.ends).1
      exact ih done (by omega) (crlf_le bulk.ends)
    · rw [frameBulks_fault dollar header before] at done
      cases done

theorem respParseOneCommand_le {m : Nat} (done : respParseOneCommand msg = some (.complete m)) : 0 < m ∧ m ≤ msg.length := by
  have settled : Settled (respParseOneCommand msg) := by
    rw [done]
    exact settled_complete m
  obtain ⟨_, num, p, header, bulks⟩ := respParseOneCommand_settled settled
  have read := field_eq_some header
  exact frameBulks_le (bulks.symm.trans done) (by omega) read.2.1

theorem Exact.stopped_of_proper {t u : Bytes} (exact_ : Exact (t ++ u)) (proper : u ≠ []) : Stopped (respParseOneCommand t) := by
  rcases stopped_or_settled (respParseOneCommand t) with stopped | settled
  · exact stopped
  · have same := respParseOneCommand_append settled u
    have bound := respParseOneCommand_le (same.symm.trans exact_)
    have := length_pos_of_ne_nil proper
    rw [length_append] at bound
    omega

theorem Exact.stopped_of_blanked {k : Nat} (exact_ : Exact msg) (torn : Blanked msg b k) : Stopped (respParseOneCommand b) := by
  have settled : Settled (respParseOneCommand msg) := by
    rw [exact_]
    exact settled_complete _
  obtain ⟨star, num, p, header, bulks⟩ := respParseOneCommand_settled settled
  obtain ⟨_, inside, _⟩ := field_eq_some header
  rw [respParseOneCommand_eq]
  by_cases first : k = 0
  · rw [torn.blank 0 (by omega) (lt_of_getElem? star), if_pos (by decide)]
    exact Or.inl rfl
  rw [torn.same 0 (by omega), if_neg (not_not_intro star)]
  by_cases inHeader : k < p
  · rw [field_blank header (by omega) torn.same (fun j low high => torn.blank j low (by omega)) inHeader]
    exact Or.inr rfl
  · rw [field_congr header fun j small => torn.same j (by omega)]
    exact frameBulks_blanked torn (not_lt.mp inHeader) (bulks.symm.trans exact_)

end Messages

section Split

variable {buf : Bytes}

theorem splitBulks_succ (alloc : ParseAlloc) (buf : Bytes) (n i p : Nat) :
    splitBulks alloc buf (n + 1) i p =
      if buf[p]? ≠ some 36 then some none
      else
        match field buf (p + 1) with
        | none => some none
        | some (bulkLen, q) =>
          if (buf.length : Int) < q + bulkLen then some none
          else if wrap32 (bulkLen + 1) < 0 ∨ alloc (some i) = false then some none
          else if bulkLen < 0 then none
          else
            match crlf buf (q + bulkLen.toNat) with
            | none => some none
            | some p => (splitBulks alloc buf n (i + 1) p).bind fun rest =>
                some (rest.map fun args => (buf.drop q).take bulkLen.toNat :: args) := by
  rw [splitBulks, field]
  dsimp only
  cases crlf buf (p + 1 + (scanDigits 0 (buf.drop (p + 1))).2) <;> rfl

theorem respParseArguments_eq (alloc : ParseAlloc) (buf : Bytes) :
    respParseArguments alloc buf =
      if buf[0]? ≠ some 42 then some none
      else
        match field buf 1 with
        | none => some none
        | some (num, p) => if num ≤ 0 ∨ alloc none = false then some none else splitBulks alloc buf num.toNat 0 p := by
  rw [respParseArguments, field]
  dsimp only
  cases crlf buf (1 + (scanDigits 0 (buf.drop 1)).2) <;> rfl

theorem scanDigits_range (num : Int) (bs : Bytes) (low : -2^31 ≤ num) (high : num < 2^31) :
    -2^31 ≤ (scanDigits num bs).1 ∧ (scanDigits num bs).1 < 2^31 := by
  induction bs generalizing num with
  | nil => exact ⟨low, high⟩
  | cons b bs ih =>
    unfold scanDigits
    split
    · exact ih _ (wrap32_range _).1 (wrap32_range _).2
    · exact ⟨low, high⟩

theorem Bulk.ne_neg_one {p q p' : Nat} {bulkLen : Int} (bulk : Bulk buf p bulkLen q p') : bulkLen ≠ -1 := by
  rintro rfl
  obtain ⟨stop, _, _⟩ := field_eq_some bulk.header
  obtain ⟨_, return_, _⟩ := crlf_eq_some.mp bulk.ends
  have header := bulk.header
  unfold field at header
  obtain ⟨q', ends, same⟩ := map_eq_some_iff.mp header
  obtain ⟨_, _, feed⟩ := crlf_eq_some.mp ends
  rw [show ((q : Int) + -1).toNat = p + 1 + (scanDigits 0 (buf.drop (p + 1))).2 + 1 by omega, feed] at return_
  cases return_

theorem splitBulks_ends (alloc : ParseAlloc) {n p m : Nat} (done : frameBulks buf n p = some (.complete m)) (i : Nat) :
    ∃ args, splitBulks alloc buf n i p = some args := by
  induction n generalizing p i with
  | zero => exact ⟨_, rfl⟩
  | succ n ih =>
    have settled : Settled (frameBulks buf (n + 1) p) := by
      rw [done]
      exact settled_complete m
    rcases frameBulks_settled settled with ⟨bulkLen, q, p', bulk⟩ | ⟨bulkLen, q, dollar, header, before⟩
    · rw [bulk.next] at done
      rw [splitBulks_succ, if_neg (not_not_intro bulk.dollar), bulk.header]
      dsimp only
      rw [if_neg (not_lt.mpr bulk.fits)]
      by_cases failed : wrap32 (bulkLen + 1) < 0 ∨ alloc (some i) = false
      · exact ⟨none, if_pos failed⟩
      have real : ¬ bulkLen < 0 := by
        intro negative
        have range := scanDigits_range 0 (buf.drop (p + 1)) (by decide) (by decide)
        rw [(field_eq_some bulk.header).2.2] at range
        have notOne := bulk.ne_neg_one
        apply failed
        rw [wrap32_of_range (by omega) (by omega)]
        exact Or.inl (by omega)
      obtain ⟨rest, ran⟩ := ih done (i + 1)
      have ends := bulk.ends
      rw [show ((q : Int) + bulkLen).toNat = q + bulkLen.toNat by omega] at ends
      rw [if_neg failed, if_neg real, ends]
      dsimp only
      rw [ran]
      exact ⟨_, rfl⟩
    · rw [frameBulks_fault dollar header before] at done
      cases done

theorem Exact.parses {msg : Bytes} (exact_ : Exact msg) (alloc : ParseAlloc) : ∃ args, respParseArguments alloc msg = some args := by
  have settled : Settled (respParseOneCommand msg) := by
    rw [exact_]
    exact settled_complete _
  obtain ⟨star, num, p, header, bulks⟩ := respParseOneCommand_settled settled
  rw [respParseArguments_eq, if_neg (not_not_intro star), header]
  dsimp only
  split
  · exact ⟨none, rfl⟩
  · exact splitBulks_ends alloc (bulks.symm.trans exact_) 0

end Split

end AICacheDB.Resp
