import AICacheDB.Resp.Encode

open CLib List

namespace AICacheDB.Resp

def cutBefore (args : List Bytes) (j : Nat) : Bytes :=
  ascii "*" ++ decimal args.length ++ ascii "\r\n" ++ (args.take j).flatMap bulk

theorem cutBefore_append (args : List Bytes) (j : Nat) : cutBefore args j ++ (args.drop j).flatMap bulk = encode args := by
  rw [cutBefore, encode, append_assoc, ← flatMap_append, take_append_drop]

theorem cutBefore_lt {args : List Bytes} {j : Nat} (small : j < args.length) : (cutBefore args j).length + 1 < (encode args).length := by
  have whole := congrArg List.length (cutBefore_append args j)
  rw [length_append, drop_eq_getElem_cons small, flatMap_cons, length_append, bulk_length] at whole
  omega

variable {args : List Bytes} {u v tail : Bytes}

theorem frameBulks_cut {p : Nat} (fits : ∀ arg ∈ args, arg.length < 2 ^ 31) (at_ : (u ++ v).drop p = args.flatMap bulk ++ tail)
    (inside : p ≤ u.length) (stops : frameBulks u args.length p = some .malformed) :
    ∃ j < args.length, u.length = p + ((args.take j).flatMap bulk).length := by
  induction args generalizing p with
  | nil => cases stops
  | cons arg args ih =>
    rw [flatMap_cons, append_assoc] at at_
    have whole := bulk_of_drop (fits arg (by simp)) at_
    rcases frameBulks_cases u args.length p with ⟨noDollar, _⟩ | incomplete | ⟨bulkLen, q, dollar, header, before⟩ | ⟨bulkLen, q, p', bulk⟩
    · refine ⟨0, Nat.succ_pos _, ?_⟩
      by_contra more
      have short : p < u.length := by
        rw [take_zero, flatMap_nil, length_nil] at more
        omega
      exact noDollar ((getElem?_append_left short).symm.trans whole.dollar)
    · rw [length_cons, incomplete] at stops
      cases stops
    · rw [length_cons, frameBulks_fault dollar header before] at stops
      cases stops
    · have here := (bulk.append v).unique whole
      subst here
      rw [length_cons, bulk.next] at stops
      obtain ⟨j, small, length⟩ := ih (fun a member => fits a (by simp [member])) (drop_add at_) (crlf_le bulk.ends) stops
      refine ⟨j + 1, Nat.succ_lt_succ small, ?_⟩
      rw [length, take_succ_cons, flatMap_cons, length_append, Nat.add_assoc]

theorem malformed_cut (few : args.length < 2 ^ 31) (fits : ∀ arg ∈ args, arg.length < 2 ^ 31) (whole : encode args = u ++ v) (real : u ≠ [])
    (stops : respParseOneCommand u = some .malformed) : ∃ j < args.length, u = cutBefore args j := by
  obtain ⟨star, p, header, bulks, size⟩ := header_of_encode few []
  rw [append_nil, whole] at star header bulks
  have first : u[0]? = some 42 := by
    rw [← star, getElem?_append_left (length_pos_of_ne_nil real)]
  rw [respParseOneCommand_eq, if_neg (not_not_intro first)] at stops
  cases found : field u 1 with
  | none =>
    rw [found] at stops
    cases stops
  | some read =>
    obtain ⟨num, p'⟩ := read
    obtain ⟨_, inside, _⟩ := field_eq_some found
    have same := field_congr found fun j small => show (u ++ v)[j]? = u[j]? from getElem?_append_left (by omega)
    rw [header] at same
    cases same
    rw [found] at stops
    dsimp only at stops
    rw [Int.toNat_natCast] at stops
    obtain ⟨j, small, length⟩ := frameBulks_cut fits bulks inside stops
    have parts := cutBefore_append args j
    have total := congrArg List.length parts
    rw [whole] at parts
    refine ⟨j, small, (append_inj_left parts ?_).symm⟩
    rw [← size, cutBefore, length_append] at total
    rw [length, cutBefore, length_append]
    have split : ((args.take j).flatMap bulk).length + ((args.drop j).flatMap bulk).length = (args.flatMap bulk).length := by
      rw [← length_append, ← flatMap_append, take_append_drop]
    rw [length_append] at total
    omega

theorem cutBefore_malformed (few : args.length < 2 ^ 31) (fits : ∀ arg ∈ args, arg.length < 2 ^ 31) {j : Nat} (small : j < args.length) :
    respParseOneCommand (cutBefore args j) = some .malformed := by
  obtain ⟨star, header, bulks⟩ := header_of_bytes few ((args.take j).flatMap bulk)
  rw [← cutBefore] at star header bulks
  have count : args.length = (args.take j).length + (args.length - j - 1 + 1) := by
    rw [length_take]
    omega
  have stop := frameBulks_skip (fun arg member => fits arg (mem_of_mem_take member)) (bulks.trans (append_nil _).symm)
    (args.length - j - 1 + 1)
  rw [← count] at stop
  rw [respParseOneCommand_eq, if_neg (not_not_intro star), header]
  dsimp only
  rw [Int.toNat_natCast, stop, frameBulks_succ, if_pos]
  rw [← head?_drop, drop_add (bulks.trans (append_nil _).symm)]
  nofun

end AICacheDB.Resp
