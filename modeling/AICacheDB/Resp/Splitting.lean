import AICacheDB.Resp.Bounds

open CLib List Option

namespace AICacheDB.Resp

variable {buf : Bytes} {args : List Bytes} {n p m : Nat}

def fieldValue (buf : Bytes) (p : Nat) : Nat := digitsValue ((buf.drop p).take (scanDigits 0 (buf.drop p)).2)

structure NumbersFit (buf : Bytes) : Prop where
  count : fieldValue buf 1 < 2 ^ 31
  lengths : ¬ Reaches buf fun p => buf[p]? = some 36 ∧ 2 ^ 31 ≤ fieldValue buf (p + 1)

theorem field_value {q : Nat} {v : Int} (found : field buf p = some (v, q)) : v = wrap32 (fieldValue buf p) := by
  obtain ⟨_, _, rfl⟩ := field_eq_some found
  unfold fieldValue
  generalize buf.drop p = bs
  have digits : ∀ b ∈ bs.take (scanDigits 0 bs).2, IsDigit b := by
    intro b member
    obtain ⟨i, inside, rfl⟩ := mem_iff_getElem.mp member
    rw [length_take] at inside
    obtain ⟨c, here, digit⟩ := scanDigits_digit 0 bs i (by omega)
    rw [getElem_take]
    rw [getElem?_eq_getElem (by omega), some.injEq] at here
    exact here ▸ digit
  have stop : ∀ b, (bs.drop (scanDigits 0 bs).2)[0]? = some b → ¬ IsDigit b := by
    intro b first
    rw [getElem?_drop, Nat.add_zero] at first
    exact scanDigits_stop first
  have scan := scanDigits_digits digits stop
  rw [take_append_drop] at scan
  exact (Prod.ext_iff.mp scan).1

variable {bulkLen : Int}

theorem Bulk.forward {q p' : Nat} (bulk : Bulk buf p bulkLen q p') (fits : fieldValue buf (p + 1) < 2 ^ 31) :
    0 ≤ bulkLen ∧ bulkLen < 2 ^ 31 := by
  have value := field_value bulk.header
  generalize fieldValue buf (p + 1) = number at fits value
  rw [wrap32_of_range (by omega) (by omega)] at value
  omega

def LengthsFit (buf : Bytes) (n p : Nat) : Prop :=
  ∀ args p', args.length < n → Framed buf args p p' → buf[p']? = some 36 → fieldValue buf (p' + 1) < 2 ^ 31

theorem LengthsFit.first (fit : LengthsFit buf (n + 1) p) (dollar : buf[p]? = some 36) : fieldValue buf (p + 1) < 2 ^ 31 :=
  fit [] p (Nat.succ_pos n) (.nil p) dollar

theorem LengthsFit.rest {q p' : Nat} (fit : LengthsFit buf (n + 1) p) (bulk : Bulk buf p bulkLen q p') :
    LengthsFit buf n p' := by
  intro args p'' few framed
  refine fit _ p'' ?_ (.cons bulk framed)
  exact Nat.succ_lt_succ few

theorem NumbersFit.lengthsFit {num : Int} (fit : NumbersFit buf) (star : buf[0]? = some 42) (header : field buf 1 = some (num, p)) :
    LengthsFit buf num.toNat p := by
  intro args p' few framed dollar
  by_contra large
  exact fit.lengths ⟨star, num, p, header, args, p', few, framed, dollar, not_lt.mp large⟩

theorem Framed.le (framed : Framed buf args p m) (fit : LengthsFit buf args.length p) : p ≤ m := by
  induction framed with
  | nil p => exact le_rfl
  | @cons args p q p' p'' bulkLen bulk rest ih =>
    obtain ⟨low, _⟩ := bulk.forward (fit.first bulk.dollar)
    have further := ih (fit.rest bulk)
    have start := (field_eq_some bulk.header).1
    have close := (crlf_eq_some.mp bulk.ends).1
    omega

theorem Bulk.take {q p' k : Nat} (bulk : Bulk buf p bulkLen q p') (low : 0 ≤ bulkLen) (le : p' ≤ k) :
    Bulk (buf.take k) p bulkLen q p' ∧ ((buf.take k).drop q).take bulkLen.toNat = (buf.drop q).take bulkLen.toNat := by
  have start := (field_eq_some bulk.header).1
  have close := (crlf_eq_some.mp bulk.ends).1
  have inside := crlf_le bulk.ends
  have long : p' ≤ (buf.take k).length := by
    rw [length_take]
    omega
  have same : ∀ j < p', (buf.take k)[j]? = buf[j]? := fun j small => (getElem?_of_take (by omega)).symm
  constructor
  · constructor
    · rw [same p (by omega), bulk.dollar]
    · exact field_congr bulk.header fun j small => same j (by omega)
    · omega
    · exact bulk.inside
    · rw [crlf_congr (same _ (by omega)) (same _ (by omega)), bulk.ends]
  · rw [drop_take, take_take, min_eq_left (by omega)]

theorem Bulk.split {q p' i : Nat} (bulk : Bulk buf p bulkLen q p') (low : 0 ≤ bulkLen) (high : bulkLen < 2 ^ 31) :
    splitBulks .ok buf (n + 1) i p = if bulkLen = 2 ^ 31 - 1 then some none
      else (splitBulks .ok buf n (i + 1) p').bind fun rest => some (rest.map ((buf.drop q).take bulkLen.toNat :: ·)) := by
  rw [splitBulks_succ, if_neg (not_not_intro bulk.dollar), bulk.header]
  dsimp only
  rw [if_neg (not_lt.mpr bulk.fits), ParseAlloc.ok_apply]
  by_cases greatest : bulkLen = 2 ^ 31 - 1
  · have size : wrap32 (bulkLen + 1) < 0 := by
      rw [greatest]
      decide
    rw [if_pos (.inl size), if_pos greatest]
  · have given : ¬ (wrap32 (bulkLen + 1) < 0 ∨ true = false) := by
      rw [wrap32_of_range (by omega) (by omega)]
      exact not_or.mpr ⟨by omega, by decide⟩
    have ends := bulk.ends
    rw [show ((q : Int) + bulkLen).toNat = q + bulkLen.toNat by omega] at ends
    rw [if_neg given, if_neg (by omega), ends, if_neg greatest]

theorem Framed.split_eq {k : Nat} (framed : Framed buf args p m) (fit : LengthsFit buf args.length p) (le : m ≤ k) (i : Nat) :
    splitBulks .ok (buf.take k) args.length i p =
      some (if ∀ arg ∈ args, arg.length ≠ 2 ^ 31 - 1 then some args else none) := by
  induction framed generalizing i with
  | nil p => rfl
  | @cons args p q p' p'' bulkLen bulk rest ih =>
    obtain ⟨low, high⟩ := bulk.forward (fit.first bulk.dollar)
    have further := rest.le (fit.rest bulk)
    obtain ⟨cut, payload⟩ := bulk.take low (further.trans le)
    have length : ((buf.drop q).take bulkLen.toNat).length = bulkLen.toNat := by
      have fits := bulk.fits
      rw [length_take, length_drop]
      omega
    rw [length_cons, cut.split low high, payload, ih (fit.rest bulk) le, bind_some]
    by_cases greatest : bulkLen = 2 ^ 31 - 1
    · have refused : ¬ ∀ arg ∈ (buf.drop q).take bulkLen.toNat :: args, arg.length ≠ 2 ^ 31 - 1 :=
        fun short => short _ mem_cons_self (by omega)
      rw [if_pos greatest, if_neg refused]
    · have first : ((buf.drop q).take bulkLen.toNat).length ≠ 2 ^ 31 - 1 := by omega
      rw [if_neg greatest]
      simp only [mem_cons, forall_eq_or_imp, first, ne_eq, not_false_eq_true, true_and]
      split <;> rfl

theorem framed_of_split {i : Nat} (ran : splitBulks .ok buf n i p = some (some args)) : ∃ m, args.length = n ∧ Framed buf args p m := by
  induction n generalizing i p args with
  | zero =>
    cases ran
    exact ⟨p, rfl, .nil p⟩
  | succ n ih =>
    rw [splitBulks_succ] at ran
    by_cases dollar : buf[p]? = some 36
    · rw [if_neg (not_not_intro dollar)] at ran
      cases header : field buf (p + 1) with
      | none => simp [header] at ran
      | some read =>
        obtain ⟨bulkLen, q⟩ := read
        simp only [header] at ran
        by_cases long : (buf.length : Int) < q + bulkLen
        · simp [long] at ran
        by_cases failed : wrap32 (bulkLen + 1) < 0 ∨ ParseAlloc.ok (some i) = false
        · simp only [long, failed, if_false, if_true] at ran
          cases ran
        by_cases negative : bulkLen < 0
        · simp only [long, failed, negative, if_false, if_true] at ran
          cases ran
        simp only [long, failed, negative, if_false] at ran
        cases ends : crlf buf (q + bulkLen.toNat) with
        | none => simp [ends] at ran
        | some p' =>
          simp only [ends, bind_eq_some_iff, some.injEq, map_eq_some_iff] at ran
          obtain ⟨_, more, rest, rfl, rfl⟩ := ran
          obtain ⟨m, count, framed⟩ := ih more
          have close : crlf buf ((q : Int) + bulkLen).toNat = some p' := by
            rw [show ((q : Int) + bulkLen).toNat = q + bulkLen.toNat by omega, ends]
          exact ⟨m, congrArg (· + 1) count, .cons ⟨dollar, header, not_lt.mp long, by omega, close⟩ framed⟩
    · rw [if_pos dollar] at ran
      cases ran

structure Agree (buf : Bytes) : Prop where
  splits : ∀ n num p, respParseOneCommand buf = some (.complete n) → field buf 1 = some (num, p) → 0 < num →
    ∃ args, (args.length : Int) = num ∧ Framed buf args p n ∧ respParseArguments .ok (buf.take n) = some (some args)
  frames : ∀ args, respParseArguments .ok buf = some (some args) → ∃ n, respParseOneCommand buf = some (.complete n)

theorem complete_of_split (ran : respParseArguments .ok buf = some (some args)) : ∃ n, respParseOneCommand buf = some (.complete n) := by
  rw [respParseArguments_eq] at ran
  by_cases star : buf[0]? = some 42
  · rw [if_neg (not_not_intro star)] at ran
    cases header : field buf 1 with
    | none => simp [header] at ran
    | some read =>
      obtain ⟨num, p⟩ := read
      simp only [header] at ran
      split at ran
      · cases ran
      · obtain ⟨m, count, framed⟩ := framed_of_split ran
        rw [respParseOneCommand_eq, if_neg (not_not_intro star), header]
        exact ⟨m, frameBulks_complete_iff.mpr ⟨args, count, framed⟩⟩
  · rw [if_pos star] at ran
    cases ran

theorem respParseArguments_framed {num : Int} (fit : NumbersFit buf) (star : buf[0]? = some 42) (header : field buf 1 = some (num, p))
    (positive : 0 < num) (count : (args.length : Int) = num) (framed : Framed buf args p m) :
    respParseArguments .ok (buf.take m) = some (if ∀ arg ∈ args, arg.length ≠ 2 ^ 31 - 1 then some args else none) := by
  have lengths := fit.lengthsFit star header
  rw [show num.toNat = args.length by omega] at lengths
  have le := framed.le lengths
  obtain ⟨stop, inside, _⟩ := field_eq_some header
  have within : m ≤ buf.length := by
    have done : frameBulks buf args.length p = some (.complete m) := frameBulks_complete_iff.mpr ⟨args, rfl, framed⟩
    exact (frameBulks_le done (by omega) inside).2
  have same : ∀ j < m, (buf.take m)[j]? = buf[j]? := fun j small =>
    (getElem?_of_take (by rw [length_take]; omega)).symm
  rw [respParseArguments_eq, same 0 (by omega), if_neg (not_not_intro star), field_congr header fun j small => same j (by omega)]
  dsimp only
  rw [ParseAlloc.ok_apply, if_neg (not_or.mpr ⟨by omega, by decide⟩), show num.toNat = args.length by omega]
  exact framed.split_eq lengths le_rfl 0

/-- The two passes agree, unless a framed argument is as long as an `int` allows. -/
theorem framer_splitter_agree_iff (fit : NumbersFit buf) :
    Agree buf ↔ ∀ num p args m, buf[0]? = some 42 → field buf 1 = some (num, p) → (args.length : Int) = num → Framed buf args p m →
      ∀ arg ∈ args, arg.length ≠ 2 ^ 31 - 1 := by
  constructor
  · intro agree num p args m star header count framed arg member
    have positive : 0 < num := by
      have some := length_pos_of_mem member
      omega
    have complete : respParseOneCommand buf = some (.complete m) := by
      rw [respParseOneCommand_eq, if_neg (not_not_intro star), header]
      exact frameBulks_complete_iff.mpr ⟨args, by omega, framed⟩
    obtain ⟨taken, _, _, split⟩ := agree.splits m num p complete header positive
    rw [respParseArguments_framed fit star header positive count framed] at split
    intro greatest
    rw [if_neg fun short => short arg member greatest] at split
    cases split
  · intro short
    constructor
    · intro n num p complete header positive
      have star : buf[0]? = some 42 := by
        by_contra missing
        rw [respParseOneCommand_eq, if_pos missing] at complete
        cases complete
      rw [respParseOneCommand_eq, if_neg (not_not_intro star), header] at complete
      obtain ⟨args, count, framed⟩ := frameBulks_complete_iff.mp complete
      have counted : (args.length : Int) = num := by omega
      refine ⟨args, counted, framed, ?_⟩
      rw [respParseArguments_framed fit star header positive counted framed, if_pos (short num p args n star header counted framed)]
    · exact fun args => complete_of_split

section Encoded

variable {tail : Bytes}

theorem fieldValue_decimal {value : Nat} (at_ : buf.drop p = decimal value ++ (ascii "\r\n" ++ tail)) : fieldValue buf p = value := by
  have stop : ∀ b, (ascii "\r\n" ++ tail)[0]? = some b → ¬ IsDigit b := by
    intro b first
    have return_ : (13 : UInt8) = b := some.inj first
    rw [← return_]
    decide
  have scan := scanDigits_digits (fun b => isDigit_decimal (n := value) (b := b)) stop
  unfold fieldValue
  rw [at_, scan]
  rw [take_left, digitsValue_decimal]

theorem lengthsFit_encoded (fits : ∀ arg ∈ args, arg.length < 2 ^ 31) (at_ : buf.drop p = args.flatMap bulk ++ tail) :
    LengthsFit buf args.length p := by
  induction args generalizing p with
  | nil => exact fun _ _ few => absurd few (Nat.not_lt_zero _)
  | cons arg args ih =>
    rw [flatMap_cons, append_assoc] at at_
    have first := bulk_of_drop (fits arg mem_cons_self) at_
    have rest := ih (fun a member => fits a (mem_cons_of_mem _ member)) (drop_add at_)
    intro taken p' few framed dollar
    cases framed with
    | nil =>
      have one : buf.drop p = ascii "$" ++ (decimal arg.length ++ (ascii "\r\n" ++ (arg ++ (ascii "\r\n" ++ (args.flatMap bulk ++ tail))))) := by
        rw [at_, bulk]
        simp
      have value : fieldValue buf (p + 1) = arg.length := fieldValue_decimal (drop_add one)
      rw [value]
      exact fits arg mem_cons_self
    | cons bulk' further =>
      obtain ⟨_, _, rfl⟩ := first.unique bulk'
      exact rest _ p' (Nat.lt_of_succ_lt_succ few) further dollar

theorem numbersFit_encode (few : args.length < 2 ^ 31) (fits : ∀ arg ∈ args, arg.length < 2 ^ 31) : NumbersFit (encode args) := by
  have one : (encode args).drop 0 = ascii "*" ++ (decimal args.length ++ (ascii "\r\n" ++ args.flatMap bulk)) := by
    unfold encode
    rw [drop_zero]
    simp
  have two : (encode args).drop 1 = decimal args.length ++ (ascii "\r\n" ++ args.flatMap bulk) := drop_add one
  have three := drop_add (drop_add two)
  have header := field_of_drop few two
  constructor
  · rw [fieldValue_decimal two]
    exact few
  · rintro ⟨_, num, p, found, taken, p', less, framed, dollar, large⟩
    rw [header, some.injEq, Prod.mk.injEq] at found
    obtain ⟨rfl, rfl⟩ := found
    have fit : LengthsFit (encode args) args.length (1 + (decimal args.length).length + 2) :=
      lengthsFit_encoded fits (by rw [append_nil]; exact three)
    exact absurd (fit taken p' less framed dollar) (not_lt.mpr large)

end Encoded

theorem Framed.arg_le {arg : Bytes} (framed : Framed buf args p m) (member : arg ∈ args) : arg.length ≤ buf.length := by
  induction framed with
  | nil => cases member
  | @cons args p q p' p'' bulkLen bulk rest ih =>
    rcases mem_cons.mp member with rfl | later
    · rw [length_take, length_drop]
      omega
    · exact ih later

theorem framer_splitter_agree_one : NumbersFit (encode [[97]]) ∧ Agree (encode [[97]]) := by
  have fit : NumbersFit (encode [[97]]) := numbersFit_encode (by decide) (by decide)
  refine ⟨fit, (framer_splitter_agree_iff fit).mpr ?_⟩
  intro num p args m _ _ _ framed arg member
  have short : arg.length ≤ 11 := framed.arg_le member
  omega

/-- The framer takes an argument of the greatest length, the splitter does not. -/
theorem greatest_argument_disagrees :
    NumbersFit (encode [List.replicate (2 ^ 31 - 1) 0]) ∧ ¬ Agree (encode [List.replicate (2 ^ 31 - 1) 0]) := by
  generalize great : List.replicate (2 ^ 31 - 1) (0 : UInt8) = arg
  have size : arg.length = 2 ^ 31 - 1 := by
    rw [← great, length_replicate]
  have fits : ∀ a ∈ [arg], a.length < 2 ^ 31 := by
    intro a member
    rw [mem_singleton.mp member]
    omega
  have few : [arg].length < 2 ^ 31 := by
    rw [length_singleton]
    decide
  refine ⟨numbersFit_encode few fits, fun agree => ?_⟩
  obtain ⟨_, p, header, _⟩ := header_of_encode few []
  rw [append_nil] at header
  obtain ⟨_, _, _, split⟩ := agree.splits _ _ p (exact_encode few fits) header Int.one_pos
  rw [take_length, respParseArguments_long few fits ⟨arg, mem_singleton_self arg, by omega⟩] at split
  cases split

end AICacheDB.Resp
