import AICacheDB.Forwarder.Commands

open CLib List Option

namespace AICacheDB.Forwarder

open Resp

section Wire

structure Spells (ds : Bytes) (n : Nat) : Prop where
  some_ : ds ≠ []
  digits : ∀ b ∈ ds, IsDigit b
  value : ds.foldl (fun v b => v * 10 + (b.toNat - 48)) 0 = n

def wireBulk (b : Bytes × Bytes) : Bytes := ascii "$" ++ b.1 ++ ascii "\r\n" ++ b.2 ++ ascii "\r\n"

def wire (count : Bytes) (bulks : List (Bytes × Bytes)) : Bytes := ascii "*" ++ count ++ ascii "\r\n" ++ bulks.flatMap wireBulk

structure Spelled (msg count : Bytes) (bulks : List (Bytes × Bytes)) : Prop where
  text : msg = wire count bulks
  count : Spells count bulks.length
  lengths : ∀ b ∈ bulks, Spells b.1 b.2.length

variable {buf tail bs ds : Bytes} {v w n k p q m : Nat}

theorem foldl_digits_le (ds : Bytes) (v : Nat) : v ≤ ds.foldl (fun v b => v * 10 + (b.toNat - 48)) v := by
  induction ds generalizing v with
  | nil => exact le_refl v
  | cons b ds ih =>
    have first := ih (v * 10 + (b.toNat - 48))
    rw [foldl_cons]
    omega

theorem readDigits_spells (digits : ∀ b ∈ ds, IsDigit b) (fits : ds.foldl (fun v b => v * 10 + (b.toNat - 48)) v ≤ flowBufMax)
    {rest : Bytes} (stop : ∀ b, rest[0]? = some b → ¬ IsDigit b) :
    readDigits v (ds ++ rest) = some (ds.foldl (fun v b => v * 10 + (b.toNat - 48)) v, ds.length) := by
  induction ds generalizing v with
  | nil =>
    cases rest with
    | nil => rfl
    | cons b rest => exact readDigits_other (stop b rfl) v rest
  | cons b ds ih =>
    have bound := foldl_digits_le ds (v * 10 + (b.toNat - 48))
    rw [foldl_cons] at fits
    rw [cons_append, readDigits_digit (digits b (by simp)) (bound.trans fits), ih (fun b member => digits b (by simp [member])) fits]
    rfl

theorem readDigits_inv (read : readDigits v bs = some (w, k)) :
    k ≤ bs.length ∧ (∀ b ∈ bs.take k, IsDigit b) ∧ (bs.take k).foldl (fun v b => v * 10 + (b.toNat - 48)) v = w := by
  induction bs generalizing v k with
  | nil =>
    cases read
    exact ⟨le_refl 0, by simp, rfl⟩
  | cons b bs ih =>
    by_cases digit : IsDigit b
    · by_cases large : flowBufMax < v * 10 + (b.toNat - 48)
      · rw [readDigits, if_pos (show 48 ≤ b ∧ b ≤ 57 from digit), if_pos large] at read
        cases read
      · rw [readDigits_digit digit (not_lt.mp large)] at read
        obtain ⟨⟨w', k'⟩, rest, same⟩ := map_eq_some_iff.mp read
        cases same
        obtain ⟨short, digits, value⟩ := ih rest
        refine ⟨Nat.succ_le_succ short, fun x member => ?_, value⟩
        rcases mem_cons.mp member with rfl | later
        · exact digit
        · exact digits x later
    · rw [readDigits_other digit] at read
      cases read
      exact ⟨Nat.zero_le _, by simp, rfl⟩

theorem stop_crlf (tail : Bytes) : ∀ b, (ascii "\r\n" ++ tail)[0]? = some b → ¬ IsDigit b := by
  intro b first
  have return_ : (13 : UInt8) = b := some.inj first
  rw [← return_]
  decide

theorem readNumberCrlf_spells (spells : Spells ds n) (fits : n ≤ flowBufMax) (at_ : buf.drop p = ds ++ (ascii "\r\n" ++ tail)) :
    readNumberCrlf buf p = .number n (p + ds.length + 2) := by
  have length := congrArg List.length at_
  have positive := length_pos_of_ne_nil spells.some_
  have size : (ascii "\r\n").length = 2 := rfl
  rw [length_drop, length_append, length_append] at length
  rw [readNumberCrlf, at_, readDigits_spells spells.digits (by rw [spells.value]; exact fits) (stop_crlf tail)]
  dsimp only
  rw [if_neg (by omega), if_neg (by omega), crlf_of_drop (drop_add at_), spells.value]

theorem readNumberCrlf_inv (read : readNumberCrlf buf p = .number n q) :
    ∃ ds, Spells ds n ∧ buf.drop p = ds ++ (ascii "\r\n" ++ buf.drop q) := by
  unfold readNumberCrlf at read
  cases digits : readDigits 0 (buf.drop p) with
  | none =>
    rw [digits] at read
    cases read
  | some r =>
    obtain ⟨w, k⟩ := r
    rw [digits] at read
    dsimp only at read
    obtain ⟨short, all, value⟩ := readDigits_inv digits
    split at read
    · cases read
    rename_i some_
    split at read
    · cases read
    cases ends : crlf buf (p + k) with
    | none =>
      rw [ends] at read
      cases read
    | some q' =>
      rw [ends] at read
      cases read
      obtain ⟨rfl, return_, feed⟩ := crlf_eq_some.mp ends
      refine ⟨(buf.drop p).take k, ⟨?_, all, value⟩, ?_⟩
      · exact ne_nil_of_length_pos (by rw [length_take]; omega)
      · have rest : (buf.drop p).drop k = ascii "\r\n" ++ buf.drop (p + k + 2) := by
          rw [drop_drop, drop_eq_getElem?_toList_append, return_, drop_eq_getElem?_toList_append, feed]
          rfl
        rw [← rest, take_append_drop]

theorem wireBulk_length (b : Bytes × Bytes) : (wireBulk b).length = 1 + b.1.length + 2 + b.2.length + 2 := by
  unfold wireBulk
  simp only [length_append]
  rfl

theorem wireBulk_parts {b : Bytes × Bytes} (at_ : buf.drop p = wireBulk b ++ tail) :
    buf[p]? = some 36 ∧ buf.drop (p + 1) = b.1 ++ (ascii "\r\n" ++ (b.2 ++ (ascii "\r\n" ++ tail))) ∧
      buf.drop (p + 1 + b.1.length + 2) = b.2 ++ (ascii "\r\n" ++ tail) ∧
      crlf buf (p + 1 + b.1.length + 2 + b.2.length) = some (p + (wireBulk b).length) ∧ p + (wireBulk b).length ≤ buf.length := by
  have one : buf.drop p = ascii "$" ++ (b.1 ++ (ascii "\r\n" ++ (b.2 ++ (ascii "\r\n" ++ tail)))) := by
    rw [at_, wireBulk]
    simp
  have two : buf.drop (p + 1) = _ := drop_add one
  have three : buf.drop (p + 1 + b.1.length + 2) = _ := drop_add (drop_add two)
  have ends := crlf_of_drop (drop_add three)
  rw [show p + 1 + b.1.length + 2 + b.2.length + 2 = p + (wireBulk b).length by rw [wireBulk_length]; omega] at ends
  exact ⟨getElem?_of_drop one, two, three, ends, crlf_le ends⟩

section Bulks

variable {bulks : List (Bytes × Bytes)}

theorem bulksLen_wire (spelled : ∀ b ∈ bulks, Spells b.1 b.2.length) (fits : ∀ b ∈ bulks, b.2.length ≤ flowBufMax)
    (at_ : buf.drop p = bulks.flatMap wireBulk ++ tail) :
    bulksLen buf bulks.length p = .complete (p + (bulks.flatMap wireBulk).length) := by
  induction bulks generalizing p with
  | nil => rfl
  | cons b bulks ih =>
    rw [flatMap_cons, append_assoc] at at_
    obtain ⟨dollar, two, _, ends, inside⟩ := wireBulk_parts at_
    have size := wireBulk_length b
    have short := fits b (by simp)
    rw [length_cons, bulksLen, if_neg (by omega), if_neg (not_not_intro dollar),
      readNumberCrlf_spells (spelled b (by simp)) short two]
    dsimp only
    rw [if_neg (not_lt.mpr short), if_neg (by omega), ends]
    dsimp only
    rw [ih (fun b member => spelled b (by simp [member])) (fun b member => fits b (by simp [member])) (drop_add at_),
      flatMap_cons, length_append, Nat.add_assoc]

theorem bulksLen_inv (done : bulksLen buf n p = .complete m) :
    ∃ bulks : List (Bytes × Bytes), bulks.length = n ∧ (∀ b ∈ bulks, Spells b.1 b.2.length) ∧ buf.drop p = bulks.flatMap wireBulk ++ buf.drop m := by
  induction n generalizing p with
  | zero =>
    cases done
    exact ⟨[], rfl, nofun, rfl⟩
  | succ n ih =>
    rw [bulksLen] at done
    split at done
    · cases done
    split at done
    · cases done
    rename_i inside dollar
    cases read : readNumberCrlf buf (p + 1) with
    | malformed =>
      rw [read] at done
      cases done
    | incomplete =>
      rw [read] at done
      cases done
    | number bulkLen q =>
      rw [read] at done
      dsimp only at done
      split at done
      · cases done
      split at done
      · cases done
      rename_i _ long
      cases ends : crlf buf (q + bulkLen) with
      | none =>
        rw [ends] at done
        cases done
      | some p' =>
        rw [ends] at done
        obtain ⟨ds, spells, field⟩ := readNumberCrlf_inv read
        obtain ⟨rfl, return_, feed⟩ := crlf_eq_some.mp ends
        obtain ⟨bulks, count, spelled, rest⟩ := ih done
        have data : ((buf.drop q).take bulkLen).length = bulkLen := by
          rw [length_take, length_drop]
          omega
        refine ⟨(ds, (buf.drop q).take bulkLen) :: bulks, by rw [length_cons, count], ?_, ?_⟩
        · intro b member
          rcases mem_cons.mp member with rfl | later
          · exact data.symm ▸ spells
          · exact spelled b later
        · have first : buf.drop p = ascii "$" ++ buf.drop (p + 1) := by
            rw [drop_eq_getElem?_toList_append, not_not.mp dollar]
            rfl
          have last : (buf.drop q).drop bulkLen = ascii "\r\n" ++ buf.drop (q + bulkLen + 2) := by
            rw [drop_drop, drop_eq_getElem?_toList_append, return_, drop_eq_getElem?_toList_append, feed]
            rfl
          have split : buf.drop q = (buf.drop q).take bulkLen ++ (ascii "\r\n" ++ (bulks.flatMap wireBulk ++ buf.drop m)) := by
            rw [← rest, ← last, take_append_drop]
          rw [first, field, flatMap_cons, wireBulk]
          nth_rewrite 1 [split]
          simp

end Bulks

end Wire

section Commands

variable {msg count : Bytes} {bulks : List (Bytes × Bytes)}

theorem wire_parts (count : Bytes) (bulks : List (Bytes × Bytes)) :
    (wire count bulks)[0]? = some 42 ∧ (wire count bulks).drop 1 = count ++ (ascii "\r\n" ++ bulks.flatMap wireBulk) ∧
      (wire count bulks).drop (1 + count.length + 2) = bulks.flatMap wireBulk ++ [] ∧
      (wire count bulks).length = 1 + count.length + 2 + (bulks.flatMap wireBulk).length := by
  have one : (wire count bulks).drop 0 = ascii "*" ++ (count ++ (ascii "\r\n" ++ bulks.flatMap wireBulk)) := by
    rw [wire, drop_zero]
    simp
  have two : (wire count bulks).drop 1 = _ := drop_add one
  have three := drop_add (drop_add two)
  refine ⟨getElem?_of_drop one, two, by rw [append_nil]; exact three, ?_⟩
  unfold wire
  simp only [length_append]
  rfl

theorem bulk_le (b : Bytes × Bytes) (member : b ∈ bulks) : (wireBulk b).length ≤ (bulks.flatMap wireBulk).length := by
  obtain ⟨before, after, rfl⟩ := append_of_mem member
  rw [flatMap_append, flatMap_cons, length_append, length_append]
  omega

theorem Spelled.fits (spelled : Spelled msg count bulks) (size : msg.length ≤ maxCmdLen) : ∀ b ∈ bulks, b.2.length ≤ flowBufMax := by
  intro b member
  have inside := bulk_le b member
  have length := wireBulk_length b
  rw [spelled.text, (wire_parts count bulks).2.2.2] at size
  have same : maxCmdLen = flowBufMax := rfl
  omega

theorem Spelled.complete (spelled : Spelled msg count bulks) (size : msg.length ≤ maxCmdLen) (some_ : bulks ≠ []) (few : bulks.length ≤ 1024) :
    respCommandLen msg = .complete msg.length := by
  have fits := spelled.fits size
  obtain ⟨star, two, three, length⟩ := wire_parts count bulks
  rw [← spelled.text] at star two three length
  have positive := length_pos_of_ne_nil some_
  rw [respCommandLen, if_neg (ne_nil_of_length_pos (by omega)), if_neg (not_not_intro star),
    readNumberCrlf_spells spelled.count (few.trans (by decide)) two]
  dsimp only
  rw [if_neg (by omega), bulksLen_wire spelled.lengths fits three, length]

theorem spelled_of_respCommandLen (done : respCommandLen msg = .complete msg.length) :
    ∃ count bulks, Spelled msg count bulks ∧ bulks ≠ [] ∧ bulks.length ≤ 1024 := by
  unfold respCommandLen at done
  split at done
  · cases done
  split at done
  · cases done
  rename_i _ star
  cases read : readNumberCrlf msg 1 with
  | malformed =>
    rw [read] at done
    cases done
  | incomplete =>
    rw [read] at done
    cases done
  | number argc p =>
    rw [read] at done
    dsimp only at done
    split at done
    · cases done
    rename_i counted
    obtain ⟨count, spells, field⟩ := readNumberCrlf_inv read
    obtain ⟨bulks, length, lengths, rest⟩ := bulksLen_inv done
    have first : msg = ascii "*" ++ msg.drop 1 := by
      have whole := drop_eq_getElem?_toList_append (l := msg) (i := 0)
      rw [not_not.mp star, drop_zero] at whole
      exact whole
    refine ⟨count, bulks, ⟨?_, length.symm ▸ spells, lengths⟩, ne_nil_of_length_pos (by omega), by omega⟩
    rw [drop_length, append_nil] at rest
    rw [first, field, rest, wire]
    simp

end Commands

section Names

theorem getCommandName_eq (payload : Bytes) (outLen : Nat) :
    getCommandName payload outLen =
      if payload.length < 4 ∨ payload[0]? ≠ some 42 then none
      else
        match field payload 1 with
        | none => none
        | some (_, p) =>
          if payload[p]? ≠ some 36 then none
          else
            match field payload (p + 1) with
            | none => none
            | some (bulkLen, p) =>
              if bulkLen ≤ 0 ∨ payload.length < p + bulkLen + 2 then none
              else some ((payload.drop p).take (min bulkLen.toNat (outLen - 1))) := by
  rw [getCommandName, field]
  cases crlf payload (1 + (scanDigits 0 (payload.drop 1)).2) with
  | none => rfl
  | some p =>
    simp only [map_some, field]
    cases crlf payload (p + 1 + (scanDigits 0 (payload.drop (p + 1))).2) <;> rfl

theorem Spelled.commandName {msg count ds name : Bytes} {bulks : List (Bytes × Bytes)} (spelled : Spelled msg count ((ds, name) :: bulks))
    (few : bulks.length + 1 ≤ flowBufMax) (short : name.length ≤ flowBufMax) :
    getCommandName msg 64 = if name = [] then none else some (name.take 63) := by
  obtain ⟨star, two, three, size⟩ := wire_parts count ((ds, name) :: bulks)
  rw [← spelled.text] at star two three size
  rw [flatMap_cons, append_assoc] at three
  rw [flatMap_cons, length_append, wireBulk_length] at size
  obtain ⟨dollar, four, five, _⟩ := wireBulk_parts three
  have header := (field_of_readNumber (readNumberCrlf_spells spelled.count few two)).1
  have length := (field_of_readNumber (readNumberCrlf_spells (spelled.lengths (ds, name) (by simp)) short four)).1
  dsimp only at size five length
  rw [getCommandName_eq, if_neg (not_or.mpr ⟨by omega, not_not_intro star⟩), header]
  dsimp only
  rw [if_neg (not_not_intro dollar), length]
  dsimp only
  by_cases empty : name = []
  · rw [if_pos empty, if_pos (.inl (by simp [empty]))]
  · have positive := length_pos_of_ne_nil empty
    rw [if_neg empty, if_neg (by omega), five, Int.toNat_natCast, take_append_of_le_length (Nat.min_le_left _ _)]
    rw [← take_take, take_of_length_le (length_take_le' _ _)]

theorem spells_decimal (n : Nat) : Spells (decimal n) n := by
  have value := places_value n
  refine ⟨decimal_ne_nil n, ?_, ?_⟩
  · intro b member
    rw [decimal_eq] at member
    obtain ⟨d, inside, rfl⟩ := mem_map.mp member
    exact (isDigit_place (places_lt inside)).1
  · rw [decimal_eq, foldl_map]
    refine Eq.trans (foldl_ext _ _ _ fun v d inside => ?_) value
    rw [(isDigit_place (places_lt inside)).2, Nat.add_sub_cancel_left]

theorem spelled_encode (args : List Bytes) : Spelled (encode args) (decimal args.length) (args.map fun arg => (decimal arg.length, arg)) := by
  refine ⟨?_, ?_, ?_⟩
  · rw [wire, encode, flatMap_map]
    rfl
  · rw [length_map]
    exact spells_decimal _
  · intro b member
    obtain ⟨arg, _, rfl⟩ := mem_map.mp member
    exact spells_decimal _

def writes : List Bytes → Bool
  | [] => false
  | name :: _ => isWriteCommand (.ofBytes name)

theorem writeCmds_short : ∀ w ∈ writeCmds, 0 ∉ w ∧ w ≠ [] ∧ w.length < 63 := by decide

theorem isWriteCommand_take (name : Bytes) : isWriteCommand (.ofBytes (name.take 63)) = isWriteCommand (.ofBytes name) := by
  have same : ∀ w ∈ writeCmds, strcasecmp (CString.ofBytes (name.take 63)).bytes w = 0 ↔ strcasecmp (CString.ofBytes name).bytes w = 0 := by
    intro w member
    obtain ⟨free, _, short⟩ := writeCmds_short w member
    rw [strcasecmp_eq_zero (CString.nulFree _) free, strcasecmp_eq_zero (CString.nulFree _) free]
    show (cstr (name.take 63)).map toLower = _ ↔ (cstr name).map toLower = _
    rw [cstr_take]
    by_cases long : (cstr name).length ≤ 63
    · rw [List.take_of_length_le long]
    · constructor
      · intro equal
        have length := congrArg List.length equal
        rw [List.length_map, List.length_map, List.length_take] at length
        omega
      · intro equal
        have length := congrArg List.length equal
        rw [List.length_map, List.length_map] at length
        omega
  rw [Bool.eq_iff_iff, isWriteCommand, isWriteCommand, List.any_eq_true, List.any_eq_true]
  constructor
  · rintro ⟨w, member, equal⟩
    exact ⟨w, member, decide_eq_true ((same w member).mp (of_decide_eq_true equal))⟩
  · rintro ⟨w, member, equal⟩
    exact ⟨w, member, decide_eq_true ((same w member).mpr (of_decide_eq_true equal))⟩

theorem isWriteCommand_nil : isWriteCommand (.ofBytes []) = false := by decide

end Names

end AICacheDB.Forwarder
