import AICacheDB.Resp.Encode

open CLib List

namespace AICacheDB.Resp

section Framed

variable {buf : Bytes} {args : List Bytes} {n m p p' : Nat}

/-- The bulk strings from `p` to `p'` as the framer reads them, with their payloads. -/
inductive Framed (buf : Bytes) : List Bytes → Nat → Nat → Prop where
  | nil (p : Nat) : Framed buf [] p p
  | cons {args : List Bytes} {p q p' p'' : Nat} {bulkLen : Int} (bulk : Bulk buf p bulkLen q p') (rest : Framed buf args p' p'') :
      Framed buf ((buf.drop q).take bulkLen.toNat :: args) p p''

def Escapes (buf : Bytes) (p : Nat) : Prop :=
  buf[p]? = some 36 ∧ ∃ bulkLen q, field buf (p + 1) = some (bulkLen, q) ∧ (q : Int) + bulkLen < 0

theorem Framed.frameBulks (framed : Framed buf args p p') (n : Nat) : frameBulks buf (args.length + n) p = frameBulks buf n p' := by
  induction framed with
  | nil p => rw [length_nil, Nat.zero_add]
  | cons bulk _ ih => rw [length_cons, Nat.add_right_comm, bulk.next, ih]

theorem frameBulks_complete_iff : frameBulks buf n p = some (.complete m) ↔ ∃ args, args.length = n ∧ Framed buf args p m := by
  constructor
  · intro done
    induction n generalizing p with
    | zero =>
      rw [Resp.frameBulks, Option.some.injEq, Frame.complete.injEq] at done
      exact ⟨[], rfl, done ▸ .nil p⟩
    | succ n ih =>
      rcases frameBulks_cases buf n p with ⟨_, stops⟩ | stops | ⟨_, _, dollar, header, before⟩ | ⟨bulkLen, q, p', bulk⟩
      · rw [stops] at done
        cases done
      · rw [stops] at done
        cases done
      · rw [frameBulks_fault dollar header before] at done
        cases done
      · rw [bulk.next] at done
        obtain ⟨args, length, framed⟩ := ih done
        exact ⟨_, congrArg (· + 1) length, .cons bulk framed⟩
  · rintro ⟨args, rfl, framed⟩
    exact framed.frameBulks 0

theorem frameBulks_ends (result : Option Frame) (stop : Nat → Prop)
    (atEnd : ∀ n p, stop p → frameBulks buf (n + 1) p = result) (only : ∀ n p, frameBulks buf (n + 1) p = result →
      stop p ∨ ∃ bulkLen q p', Bulk buf p bulkLen q p') (early : ∀ m, result ≠ some (.complete m)) :
    frameBulks buf n p = result ↔ ∃ args p', args.length < n ∧ Framed buf args p p' ∧ stop p' := by
  constructor
  · intro done
    induction n generalizing p with
    | zero => exact absurd done.symm (early p)
    | succ n ih =>
      rcases only n p done with here | ⟨bulkLen, q, p', bulk⟩
      · exact ⟨[], p, Nat.succ_pos n, .nil p, here⟩
      · rw [bulk.next] at done
        obtain ⟨args, p'', few, framed, there⟩ := ih done
        refine ⟨_, p'', ?_, .cons bulk framed, there⟩
        exact Nat.succ_lt_succ few
  · rintro ⟨args, p', few, framed, there⟩
    rw [show n = args.length + (n - args.length - 1 + 1) by omega, framed.frameBulks, atEnd _ _ there]

theorem frameBulks_fault_iff : frameBulks buf n p = none ↔ ∃ args p', args.length < n ∧ Framed buf args p p' ∧ Escapes buf p' := by
  apply frameBulks_ends
  · rintro n p ⟨dollar, _, _, header, before⟩
    exact frameBulks_fault dollar header before
  · intro n p done
    rcases frameBulks_cases buf n p with ⟨_, stops⟩ | stops | ⟨bulkLen, q, dollar, header, before⟩ | bulk
    · rw [stops] at done
      cases done
    · rw [stops] at done
      cases done
    · exact .inl ⟨dollar, bulkLen, q, header, before⟩
    · exact .inr bulk
  · nofun

end Framed

section Command

variable {buf : Bytes}

/-- Behind the first line of the buffer, and fewer bulk strings than it announces, the framer is at a place with the property. -/
def Reaches (buf : Bytes) (stop : Nat → Prop) : Prop :=
  buf[0]? = some 42 ∧ ∃ num p, field buf 1 = some (num, p) ∧ ∃ args p', args.length < num.toNat ∧ Framed buf args p p' ∧ stop p'

theorem respParseOneCommand_fault_iff : respParseOneCommand buf = none ↔ Reaches buf (Escapes buf) := by
  rw [respParseOneCommand_eq]
  by_cases star : buf[0]? = some 42
  · rw [if_neg (not_not_intro star)]
    cases header : field buf 1 with
    | none => exact iff_of_false nofun fun ⟨_, _, _, found, _⟩ => nomatch header.symm.trans found
    | some read =>
      obtain ⟨num, p⟩ := read
      rw [frameBulks_fault_iff]
      constructor
      · exact fun stops => ⟨star, num, p, header, stops⟩
      · rintro ⟨_, _, _, found, stops⟩
        cases header.symm.trans found
        exact stops
  · rw [if_pos star]
    exact iff_of_false nofun fun reaches => star reaches.1

end Command

section Classification

variable {b w : Bytes}

/-- A number as a command writes it: at least one digit, and a value that an `int` holds. -/
structure NumberText (ds : Bytes) (n : Nat) : Prop where
  real : ds ≠ []
  digits : ∀ b ∈ ds, IsDigit b
  value : digitsValue ds = n
  small : n < 2 ^ 31

/-- `*` and the number of bulk strings, then the bulk strings, each given by the digits of its length and its payload. -/
def commandText (ds : Bytes) (items : List (Bytes × Bytes)) : Bytes :=
  ascii "*" ++ ds ++ ascii "\r\n" ++ items.flatMap fun item => bulkText item.1 item.2

def WellFormed (w : Bytes) : Prop :=
  ∃ ds items, items ≠ [] ∧ NumberText ds items.length ∧ (∀ item ∈ items, NumberText item.1 item.2.length) ∧ w = commandText ds items

def Begins (b : Bytes) : Prop := ∃ n ≤ b.length, WellFormed (b.take n)

def Continues (b : Bytes) : Prop := ∃ v, v ≠ [] ∧ WellFormed (b ++ v)

theorem framed_of_items {items : List (Bytes × Bytes)} {tail : Bytes} {p : Nat} (fits : ∀ item ∈ items, NumberText item.1 item.2.length)
    (at_ : b.drop p = (items.flatMap fun item => bulkText item.1 item.2) ++ tail) :
    ∃ args, args.length = items.length ∧ Framed b args p (p + (items.flatMap fun item => bulkText item.1 item.2).length) := by
  induction items generalizing p with
  | nil => exact ⟨[], rfl, .nil p⟩
  | cons item items ih =>
    rw [flatMap_cons, append_assoc] at at_
    have number := fits item (by simp)
    have bulk := bulk_of_text number.digits number.value number.small at_
    obtain ⟨args, length, framed⟩ := ih (fun i member => fits i (by simp [member])) (drop_add at_)
    rw [flatMap_cons, length_append, ← Nat.add_assoc]
    exact ⟨_, congrArg (· + 1) length, .cons bulk framed⟩

theorem WellFormed.exact (wellFormed : WellFormed w) : Exact w := by
  obtain ⟨ds, items, _, count, fits, rfl⟩ := wellFormed
  have one : (commandText ds items).drop 0 = ascii "*" ++ (ds ++ (ascii "\r\n" ++ items.flatMap fun item => bulkText item.1 item.2)) := by
    rw [drop_zero, commandText]
    simp
  have star : (commandText ds items)[0]? = some 42 := getElem?_of_drop one
  have two := drop_add one
  have header := field_of_digits count.digits two
  rw [count.value, wrap32_of_range (by omega) (by have := count.small; omega)] at header
  have three := (drop_add (drop_add two)).trans (append_nil _).symm
  obtain ⟨args, length, framed⟩ := framed_of_items fits three
  have size : (commandText ds items).length = 1 + ds.length + 2 + (items.flatMap fun item => bulkText item.1 item.2).length := by
    rw [← drop_zero (l := commandText ds items), one]
    simp only [length_append]
    rw [← Nat.add_assoc, ← Nat.add_assoc]
    rfl
  rw [show 0 + (ascii "*").length = 1 from rfl] at header framed
  rw [Exact, respParseOneCommand_eq, if_neg (not_not_intro star), header]
  dsimp only
  rw [Int.toNat_natCast, frameBulks_complete_iff, size]
  exact ⟨args, length, framed⟩

theorem WellFormed.complete {n : Nat} (wellFormed : WellFormed (b.take n)) (inside : n ≤ b.length) :
    respParseOneCommand b = some (.complete n) := by
  have found := wellFormed.exact.append (b.drop n)
  rwa [take_append_drop, length_take, Nat.min_eq_left inside] at found

theorem Continues.stopped (continues : Continues b) : Stopped (respParseOneCommand b) := by
  obtain ⟨v, real, wellFormed⟩ := continues
  exact wellFormed.exact.stopped_of_proper real

end Classification

end AICacheDB.Resp
