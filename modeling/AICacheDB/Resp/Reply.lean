import AICacheDB.Resp.Encode

open CLib List

namespace AICacheDB.Resp

def Plain (line : Bytes) : Prop := 13 ∉ line ∧ 10 ∉ line

instance (line : Bytes) : Decidable (Plain line) := inferInstanceAs (Decidable (_ ∧ _))

/-- The replies of the protocol: simple string, error, integer, bulk string and array, nested to any depth. -/
inductive IsReply : Bytes → Prop where
  | simple (line : Bytes) (plain : Plain line) : IsReply (ascii "+" ++ line ++ ascii "\r\n")
  | error (line : Bytes) (plain : Plain line) : IsReply (ascii "-" ++ line ++ ascii "\r\n")
  | integer (i : Int) : IsReply (ascii ":" ++ decimalInt i ++ ascii "\r\n")
  | null : IsReply (ascii "$-1\r\n")
  | bulk (s : Bytes) : IsReply (bulk s)
  | array (parts : List Bytes) (each : ∀ part ∈ parts, IsReply part) :
    IsReply (ascii "*" ++ decimal parts.length ++ ascii "\r\n" ++ parts.flatten)

section Lines

variable {a b u v : Bytes}

theorem line_unique (plain : 13 ∉ a) (plain' : 13 ∉ b) (same : a ++ 13 :: u = b ++ 13 :: v) : a = b ∧ u = v := by
  induction a generalizing b with
  | nil =>
    cases b with
    | nil => exact ⟨rfl, (cons.inj same).2⟩
    | cons c b => exact absurd (cons.inj same).1 fun head => plain' (head ▸ mem_cons_self)
  | cons c a ih =>
    cases b with
    | nil => exact absurd (cons.inj same).1 fun head => plain (head ▸ mem_cons_self)
    | cons d b =>
      obtain ⟨head, rest⟩ := cons.inj same
      obtain ⟨line, behind⟩ := ih (fun member => plain (mem_cons_of_mem c member))
        (fun member => plain' (mem_cons_of_mem d member)) rest
      exact ⟨by rw [head, line], behind⟩

theorem decimal_plain (n : Nat) : 13 ∉ decimal n := fun member => absurd (isDigit_decimal member) (by decide)

theorem decimalInt_plain (i : Int) : 13 ∉ decimalInt i := by
  unfold decimalInt
  split
  · intro member
    rcases mem_cons.mp member with wrong | member
    · exact absurd wrong (by decide)
    · exact decimal_plain _ member
  · exact decimal_plain _

theorem decimal_inj {m n : Nat} (same : decimal m = decimal n) : m = n := by
  rw [← digitsValue_decimal m, same, digitsValue_decimal]

end Lines

theorem bulk_unique {s t u v : Bytes} (same : bulk s ++ u = bulk t ++ v) : s = t := by
  simp only [bulk, append_assoc] at same
  obtain ⟨line, behind⟩ := line_unique (decimal_plain _) (decimal_plain _) (cons.inj same).2
  have rest : s ++ (ascii "\r\n" ++ u) = t ++ (ascii "\r\n" ++ v) := (cons.inj behind).2
  exact (append_inj rest (decimal_inj line)).1

theorem null_ne_bulk {s u v : Bytes} : ascii "$-1\r\n" ++ u ≠ bulk s ++ v := by
  intro same
  simp only [bulk, append_assoc] at same
  have line : [45, 49] = decimal s.length := (line_unique (by decide) (decimal_plain _) (cons.inj same).2).1
  have sign : 45 ∈ decimal s.length := line ▸ mem_cons_self
  exact absurd (isDigit_decimal sign) (by decide)

theorem parts_unique {parts parts' : List Bytes} {u v : Bytes} (count : parts.length = parts'.length)
    (ends : ∀ part ∈ parts, ∀ other ∈ parts', ∀ u v, part ++ u = other ++ v → part = other) (same : parts.flatten ++ u = parts'.flatten ++ v) :
    parts = parts' := by
  induction parts generalizing parts' with
  | nil => rw [eq_nil_of_length_eq_zero count.symm]
  | cons part parts ih =>
    cases parts' with
    | nil => cases count
    | cons other parts' =>
      simp only [flatten_cons, append_assoc] at same
      have first := ends part mem_cons_self other mem_cons_self _ _ same
      rw [first, append_cancel_left_eq] at same
      rw [first, ih (Nat.succ.inj count)
        (fun p inside q inside' => ends p (mem_cons_of_mem part inside) q (mem_cons_of_mem other inside')) same]

theorem IsReply.unique {x y u v : Bytes} (reply : IsReply x) (other : IsReply y) (same : x ++ u = y ++ v) : x = y := by
  induction reply generalizing y u v with
  | simple line plain =>
    cases other with
    | simple line' plain' =>
      simp only [append_assoc] at same
      obtain ⟨rfl, _⟩ := line_unique plain.1 plain'.1 (cons.inj same).2
      rfl
    | error | integer | null | bulk | array => exact absurd (cons.inj same).1 (by decide)
  | error line plain =>
    cases other with
    | error line' plain' =>
      simp only [append_assoc] at same
      obtain ⟨rfl, _⟩ := line_unique plain.1 plain'.1 (cons.inj same).2
      rfl
    | simple | integer | null | bulk | array => exact absurd (cons.inj same).1 (by decide)
  | integer i =>
    cases other with
    | integer j =>
      simp only [append_assoc] at same
      obtain ⟨line, _⟩ := line_unique (decimalInt_plain i) (decimalInt_plain j) (cons.inj same).2
      rw [line]
    | simple | error | null | bulk | array => exact absurd (cons.inj same).1 (by decide)
  | null =>
    cases other with
    | null => rfl
    | bulk s => exact absurd same null_ne_bulk
    | simple | error | integer | array => exact absurd (cons.inj same).1 (by decide)
  | bulk s =>
    cases other with
    | bulk t => rw [bulk_unique same]
    | null => exact absurd same.symm null_ne_bulk
    | simple | error | integer | array => exact absurd (cons.inj same).1 (by decide)
  | array parts each ih =>
    cases other with
    | array parts' each' =>
      simp only [append_assoc] at same
      obtain ⟨line, behind⟩ := line_unique (decimal_plain _) (decimal_plain _) (cons.inj same).2
      have count := decimal_inj line
      rw [parts_unique count (fun part inside other inside' u v => ih part inside (each' other inside')) (cons.inj behind).2]
    | simple | error | integer | null | bulk => exact absurd (cons.inj same).1 (by decide)

/-- A client that reads one reply off the stream reads all of `bytes` and nothing behind it. -/
structure OneReply (bytes : Bytes) : Prop where
  reply : IsReply bytes
  ends : ∀ first rest stream, IsReply first → first ++ rest = bytes ++ stream → first = bytes

theorem IsReply.one {bytes : Bytes} (reply : IsReply bytes) : OneReply bytes :=
  ⟨reply, fun _ _ _ read same => read.unique reply same⟩

theorem IsReply.plain_of_error {line : Bytes} (reply : IsReply (ascii "-" ++ line ++ ascii "\r\n")) : Plain line := by
  generalize whole : ascii "-" ++ line ++ ascii "\r\n" = bytes at reply
  cases reply with
  | error line' plain =>
    rw [append_assoc, append_assoc, append_cancel_left_eq, append_cancel_right_eq] at whole
    exact whole ▸ plain
  | simple | integer | null | bulk | array => exact absurd (cons.inj whole).1 (by decide)

end AICacheDB.Resp
