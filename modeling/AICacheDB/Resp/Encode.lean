import AICacheDB.Library.Text
import AICacheDB.Resp.Framing

open CLib List

namespace AICacheDB.Resp

def bulk (s : Bytes) : Bytes := ascii "$" ++ decimal s.length ++ ascii "\r\n" ++ s ++ ascii "\r\n"

def encode (args : List Bytes) : Bytes := ascii "*" ++ decimal args.length ++ ascii "\r\n" ++ args.flatMap bulk

theorem bulk_length (s : Bytes) : (bulk s).length = 1 + (decimal s.length).length + 2 + s.length + 2 := by
  unfold bulk
  simp only [length_append]
  rfl

theorem encode_length (args : List Bytes) :
    (encode args).length = 1 + (decimal args.length).length + 2 + (args.flatMap bulk).length := by
  unfold encode
  simp only [length_append]
  rfl

section Number

theorem foldl_places_le (l : List Nat) (v : Nat) : v ≤ l.foldl (fun v d => v * 10 + d) v := by
  induction l generalizing v with
  | nil => exact le_refl v
  | cons d l ih =>
    have first := ih (v * 10 + d)
    rw [foldl_cons]
    omega

theorem isDigit_place {d : Nat} (small : d < 10) : IsDigit (UInt8.ofNat (48 + d)) ∧ (UInt8.ofNat (48 + d)).toNat = 48 + d := by
  have value : (UInt8.ofNat (48 + d)).toNat = 48 + d := by
    rw [UInt8.toNat_ofNat']
    omega
  refine ⟨⟨?_, ?_⟩, value⟩
  · rw [UInt8.le_iff_toNat_le, value]
    exact Nat.le_add_right 48 d
  · rw [UInt8.le_iff_toNat_le, value]
    have : (57 : UInt8).toNat = 57 := rfl
    omega

theorem isDigit_decimal {n : Nat} {b : UInt8} (member : b ∈ decimal n) : IsDigit b := by
  rw [decimal_eq] at member
  obtain ⟨d, place, rfl⟩ := mem_map.mp member
  exact (isDigit_place (places_lt place)).1

theorem digitsValue_decimal (n : Nat) : digitsValue (decimal n) = n := by
  have digits : ∀ (l : List Nat) (v : Nat), (∀ d ∈ l, d < 10) →
      (l.map fun d => UInt8.ofNat (48 + d)).foldl (fun v b => v * 10 + (b.toNat - 48)) v = l.foldl (fun v d => v * 10 + d) v := by
    intro l v small
    rw [foldl_map]
    apply foldl_ext
    intro w d member
    rw [(isDigit_place (small d member)).2, Nat.add_sub_cancel_left]
  rw [digitsValue, decimal_eq, digits _ _ fun d => places_lt, places_value]

end Number

section Positions

variable {buf tail : Bytes} {p : Nat}

theorem getElem?_of_drop {b : UInt8} (at_ : buf.drop p = b :: tail) : buf[p]? = some b := by
  rw [← Nat.add_zero p, ← getElem?_drop, at_]
  rfl

theorem drop_add {x : Bytes} (at_ : buf.drop p = x ++ tail) : buf.drop (p + x.length) = tail := by
  rw [← drop_drop, at_, drop_left]

theorem crlf_of_drop (at_ : buf.drop p = ascii "\r\n" ++ tail) : crlf buf p = some (p + 2) := by
  apply crlf_eq_some.mpr
  have feed : buf.drop (p + 1) = 10 :: tail := drop_add (x := [13]) at_
  exact ⟨rfl, getElem?_of_drop at_, getElem?_of_drop feed⟩

theorem field_of_digits {ds : Bytes} (digits : ∀ b ∈ ds, IsDigit b) (at_ : buf.drop p = ds ++ (ascii "\r\n" ++ tail)) :
    field buf p = some (wrap32 (digitsValue ds), p + ds.length + 2) := by
  have stop : ∀ b, (ascii "\r\n" ++ tail)[0]? = some b → ¬ IsDigit b := by
    intro b first
    have return_ : (13 : UInt8) = b := Option.some.inj first
    rw [← return_]
    decide
  unfold field
  rw [at_, scanDigits_digits digits stop]
  dsimp only
  rw [crlf_of_drop (drop_add at_)]
  rfl

theorem field_of_drop {n : Nat} (fits : n < 2 ^ 31) (at_ : buf.drop p = decimal n ++ (ascii "\r\n" ++ tail)) :
    field buf p = some ((n : Int), p + (decimal n).length + 2) := by
  rw [field_of_digits (fun _ => isDigit_decimal) at_, digitsValue_decimal, wrap32_of_range (by omega) (by omega)]

def bulkText (ds payload : Bytes) : Bytes := ascii "$" ++ ds ++ ascii "\r\n" ++ payload ++ ascii "\r\n"

theorem bulkText_length (ds payload : Bytes) : (bulkText ds payload).length = 1 + ds.length + 2 + payload.length + 2 := by
  unfold bulkText
  simp only [length_append]
  rfl

theorem bulk_of_text {ds payload : Bytes} (digits : ∀ b ∈ ds, IsDigit b) (value : digitsValue ds = payload.length)
    (fits : payload.length < 2 ^ 31) (at_ : buf.drop p = bulkText ds payload ++ tail) :
    Bulk buf p payload.length (p + 1 + ds.length + 2) (p + (bulkText ds payload).length) := by
  have one : buf.drop p = ascii "$" ++ (ds ++ (ascii "\r\n" ++ (payload ++ (ascii "\r\n" ++ tail)))) := by
    rw [at_, bulkText]
    simp
  have two := drop_add one
  have three := drop_add two
  have four := drop_add three
  have five := drop_add four
  have size := bulkText_length ds payload
  have inside : p + (bulkText ds payload).length ≤ buf.length := by
    have whole := congrArg length at_
    have real : 0 < (bulkText ds payload).length := by omega
    rw [length_drop, length_append] at whole
    omega
  have header := field_of_digits digits two
  rw [value, wrap32_of_range (by omega) (by omega)] at header
  have ends := crlf_of_drop five
  constructor
  · exact getElem?_of_drop one
  · exact header
  · omega
  · omega
  · rw [show (((p + 1 + ds.length + 2 : Nat) : Int) + (payload.length : Int)).toNat = p + 1 + ds.length + 2 + payload.length by omega, size]
    rw [show p + (1 + ds.length + 2 + payload.length + 2) = p + 1 + ds.length + 2 + payload.length + 2 by omega]
    exact ends

theorem bulk_of_drop {arg : Bytes} (fits : arg.length < 2 ^ 31) (at_ : buf.drop p = bulk arg ++ tail) :
    Bulk buf p arg.length (p + 1 + (decimal arg.length).length + 2) (p + (bulk arg).length) :=
  bulk_of_text (fun _ => isDigit_decimal) (digitsValue_decimal _) fits at_

variable {args : List Bytes}

theorem frameBulks_skip (fits : ∀ arg ∈ args, arg.length < 2 ^ 31) (at_ : buf.drop p = args.flatMap bulk ++ tail)
    (n : Nat) : frameBulks buf (args.length + n) p = frameBulks buf n (p + (args.flatMap bulk).length) := by
  induction args generalizing p with
  | nil => rw [length_nil, Nat.zero_add, flatMap_nil, length_nil, Nat.add_zero]
  | cons arg args ih =>
    rw [flatMap_cons, append_assoc] at at_
    rw [length_cons, Nat.add_right_comm, (bulk_of_drop (fits arg (by simp)) at_).next,
      ih (fun a member => fits a (by simp [member])) (drop_add at_), flatMap_cons, length_append, Nat.add_assoc]

theorem frameBulks_encoded (fits : ∀ arg ∈ args, arg.length < 2 ^ 31) (at_ : buf.drop p = args.flatMap bulk ++ tail) :
    frameBulks buf args.length p = some (.complete (p + (args.flatMap bulk).length)) :=
  frameBulks_skip fits at_ 0

theorem splitBulks_bulk {arg : Bytes} (short : arg.length + 1 < 2 ^ 31) (at_ : buf.drop p = bulk arg ++ tail) (n i : Nat) :
    splitBulks .ok buf (n + 1) i p =
      (splitBulks .ok buf n (i + 1) (p + (bulk arg).length)).bind fun rest => some (rest.map fun args => arg :: args) := by
  have read := bulk_of_drop (by omega) at_
  have data : (buf.drop (p + 1 + (decimal arg.length).length + 2)).take arg.length = arg := by
    have one : buf.drop p = ascii "$" ++ (decimal arg.length ++ (ascii "\r\n" ++ (arg ++ (ascii "\r\n" ++ tail)))) := by
      rw [at_, bulk]
      simp
    rw [show 2 = (ascii "\r\n").length from rfl, show 1 = (ascii "$").length from rfl, drop_add (drop_add (drop_add one)), take_left]
  have ends := read.ends
  have fits' := read.fits
  rw [splitBulks_succ, if_neg (not_not_intro read.dollar), read.header]
  dsimp only
  rw [if_neg (not_lt.mpr fits'), if_neg, if_neg (by omega), Int.toNat_natCast]
  · rw [show (((p + 1 + (decimal arg.length).length + 2 : Nat) : Int) + (arg.length : Int)).toNat =
      p + 1 + (decimal arg.length).length + 2 + arg.length by omega] at ends
    rw [ends]
    dsimp only
    rw [data]
  · rw [wrap32_of_range (by omega) (by omega), ParseAlloc.ok_apply]
    exact not_or.mpr ⟨by omega, by decide⟩

theorem splitBulks_encoded (fits : ∀ arg ∈ args, arg.length + 1 < 2 ^ 31)
    (at_ : buf.drop p = args.flatMap bulk ++ tail) (i : Nat) : splitBulks .ok buf args.length i p = some (some args) := by
  induction args generalizing p i with
  | nil => rfl
  | cons arg args ih =>
    rw [flatMap_cons, append_assoc] at at_
    rw [length_cons, splitBulks_bulk (fits arg (by simp)) at_, ih (fun a member => fits a (by simp [member])) (drop_add at_)]
    rfl

theorem splitBulks_long (fits : ∀ arg ∈ args, arg.length < 2 ^ 31) (long : ∃ arg ∈ args, ¬ arg.length + 1 < 2 ^ 31)
    (at_ : buf.drop p = args.flatMap bulk ++ tail) (i : Nat) : splitBulks .ok buf args.length i p = some none := by
  induction args generalizing p i with
  | nil =>
    obtain ⟨_, member, _⟩ := long
    cases member
  | cons arg args ih =>
    rw [flatMap_cons, append_assoc] at at_
    have short := fits arg (by simp)
    by_cases room : arg.length + 1 < 2 ^ 31
    · have rest : ∃ arg ∈ args, ¬ arg.length + 1 < 2 ^ 31 := by
        obtain ⟨a, member, beyond⟩ := long
        rcases mem_cons.mp member with rfl | member
        · exact absurd room beyond
        · exact ⟨a, member, beyond⟩
      rw [length_cons, splitBulks_bulk room at_, ih (fun a member => fits a (by simp [member])) rest (drop_add at_)]
      rfl
    · have read := bulk_of_drop short at_
      have fits' := read.fits
      have size : wrap32 ((arg.length : Int) + 1) < 0 := by
        unfold wrap32
        omega
      rw [length_cons, splitBulks_succ, if_neg (not_not_intro read.dollar), read.header]
      dsimp only
      rw [if_neg (not_lt.mpr fits'), if_pos (.inl size)]

end Positions

section Encode

variable {args : List Bytes}

theorem header_of_bytes {n : Nat} (few : n < 2 ^ 31) (tail : Bytes) :
    (ascii "*" ++ decimal n ++ ascii "\r\n" ++ tail)[0]? = some 42 ∧
      field (ascii "*" ++ decimal n ++ ascii "\r\n" ++ tail) 1 = some ((n : Int), 1 + (decimal n).length + 2) ∧
      (ascii "*" ++ decimal n ++ ascii "\r\n" ++ tail).drop (1 + (decimal n).length + 2) = tail := by
  have one : (ascii "*" ++ decimal n ++ ascii "\r\n" ++ tail).drop 0 = ascii "*" ++ (decimal n ++ (ascii "\r\n" ++ tail)) := by
    rw [drop_zero]
    simp
  have two := drop_add one
  exact ⟨getElem?_of_drop one, field_of_drop few two, drop_add (drop_add two)⟩

theorem header_of_encode (few : args.length < 2 ^ 31) (rest : Bytes) :
    (encode args ++ rest)[0]? = some 42 ∧ ∃ p, field (encode args ++ rest) 1 = some ((args.length : Int), p) ∧
      (encode args ++ rest).drop p = args.flatMap bulk ++ rest ∧ p + (args.flatMap bulk).length = (encode args).length := by
  have bytes := header_of_bytes few (args.flatMap bulk ++ rest)
  rw [← append_assoc, ← encode] at bytes
  exact ⟨bytes.1, _, bytes.2.1, bytes.2.2, (encode_length args).symm⟩

theorem exact_encode (few : args.length < 2 ^ 31) (fits : ∀ arg ∈ args, arg.length < 2 ^ 31) : Exact (encode args) := by
  obtain ⟨star, p, header, bulks, size⟩ := header_of_encode few []
  rw [append_nil] at star header bulks
  rw [Exact, respParseOneCommand_eq, if_neg (not_not_intro star), header]
  dsimp only
  rw [Int.toNat_natCast, frameBulks_encoded fits bulks, size]

theorem exact_encodes {cmds : List (List Bytes)} (short : ∀ args ∈ cmds, args.length < 2^31 ∧ ∀ arg ∈ args, arg.length < 2^31) :
    ∀ f ∈ cmds.map encode, Exact f := by
  intro f member
  obtain ⟨args, inside, rfl⟩ := mem_map.mp member
  exact exact_encode (short args inside).1 (short args inside).2

theorem respParseArguments_encode (real : args ≠ []) (few : args.length < 2 ^ 31) (fits : ∀ arg ∈ args, arg.length + 1 < 2 ^ 31) :
    respParseArguments .ok (encode args) = some (some args) := by
  obtain ⟨star, p, header, bulks, _⟩ := header_of_encode few []
  rw [append_nil] at star header bulks
  have positive := length_pos_of_ne_nil real
  rw [respParseArguments_eq, if_neg (not_not_intro star), header]
  dsimp only
  rw [if_neg, Int.toNat_natCast, splitBulks_encoded fits bulks]
  rw [ParseAlloc.ok_apply]
  exact not_or.mpr ⟨by omega, by decide⟩

theorem respParseArguments_long (few : args.length < 2 ^ 31) (fits : ∀ arg ∈ args, arg.length < 2 ^ 31)
    (long : ∃ arg ∈ args, ¬ arg.length + 1 < 2 ^ 31) : respParseArguments .ok (encode args) = some none := by
  obtain ⟨star, p, header, bulks, _⟩ := header_of_encode few []
  rw [append_nil] at star header bulks
  rw [respParseArguments_eq, if_neg (not_not_intro star), header]
  dsimp only
  split
  · rfl
  · rw [Int.toNat_natCast, splitBulks_long fits long bulks]

/-- Decoding gives back what was encoded, and no byte behind it, if and only if each argument leaves room for its NUL in an `int`. -/
theorem decode_encode_iff (real : args ≠ []) (few : args.length < 2 ^ 31) (fits : ∀ arg ∈ args, arg.length < 2 ^ 31) :
    (∀ rest, respParseOneCommand (encode args ++ rest) = some (.complete (encode args).length) ∧
      respParseArguments .ok ((encode args ++ rest).take (encode args).length) = some (some args)) ↔
    ∀ arg ∈ args, arg.length + 1 < 2 ^ 31 := by
  constructor
  · intro decodes arg member
    by_contra long
    have refused := respParseArguments_long few fits ⟨arg, member, long⟩
    have split := (decodes []).2
    rw [take_left, refused] at split
    cases split
  · intro room rest
    rw [take_left]
    exact ⟨(exact_encode few fits).append rest, respParseArguments_encode real few room⟩

def markedArgs : List Bytes := [ascii "GET", ascii "\r\n$*"]

theorem decode_encode_marked : markedArgs ≠ [] ∧
    ∀ rest, respParseOneCommand (encode markedArgs ++ rest) = some (.complete (encode markedArgs).length) ∧
      respParseArguments .ok ((encode markedArgs ++ rest).take (encode markedArgs).length) = some (some markedArgs) :=
  ⟨by decide, (decode_encode_iff (by decide) (by decide) (by decide)).mpr (by decide)⟩

/-- One argument of the greatest length: `bulk_len + 1` overflows, and there is no memory for a negative size. -/
theorem greatest_argument_refused : (List.replicate (2 ^ 31 - 1) (0 : UInt8)).length < 2 ^ 31 ∧
      respParseArguments .ok (encode [List.replicate (2 ^ 31 - 1) 0]) = some none := by
  have size : (replicate (2 ^ 31 - 1) (0 : UInt8)).length = 2 ^ 31 - 1 := length_replicate
  refine ⟨by omega, respParseArguments_long (by decide) ?_ ⟨_, mem_singleton_self _, by omega⟩⟩
  intro arg member
  rw [mem_singleton.mp member]
  omega

theorem bulk_injective {a b : Bytes} (fits : a.length < 2 ^ 31) (same : bulk a = bulk b) (fits' : b.length < 2 ^ 31) : a = b := by
  have header : ∀ {c : Bytes}, c.length < 2 ^ 31 → field (bulk c) 1 = some ((c.length : Int), 1 + (decimal c.length).length + 2) := by
    intro c short
    have at_ : (bulk c).drop 0 = bulk c ++ [] := by rw [drop_zero, append_nil]
    have read := (bulk_of_drop short at_).header
    rwa [Nat.zero_add] at read
  have size : a.length = b.length := by
    have one := header fits
    rw [same, header fits', Option.some.injEq, Prod.mk.injEq] at one
    omega
  unfold bulk at same
  rw [size, append_cancel_right_eq, append_cancel_left_eq] at same
  exact same

end Encode

end AICacheDB.Resp
