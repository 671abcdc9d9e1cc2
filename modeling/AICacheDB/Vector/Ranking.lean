import AICacheDB.Vector.Graph

open List

namespace AICacheDB.KvsVector

variable {F : Type} [LinearOrder F] {cap : Nat}

/-- The candidates in order of falling score, equal ones in the order of the list. -/
def ranked (l : List (Candidate F)) : List (Candidate F) := l.insertionSort fun a b => b.score ≤ a.score

/-- The candidate goes behind all that do not score less. -/
def place (l : List (Candidate F)) (c : Candidate F) : List (Candidate F) := l.orderedInsert (fun a b => b.score < a.score) c

theorem place_comm (l : List (Candidate F)) (c d : Candidate F) : (place l c).orderedInsert (fun a b => b.score ≤ a.score) d =
    place (l.orderedInsert (fun a b => b.score ≤ a.score) d) c := by
  unfold place
  induction l with
  | nil => grind
  | cons b l ih => grind

theorem ranked_concat (l : List (Candidate F)) (c : Candidate F) : ranked (l ++ [c]) = place (ranked l) c := by
  induction l with
  | nil => rfl
  | cons d l ih =>
    rw [cons_append, ranked, insertionSort_cons, ← ranked, ih]
    exact place_comm (ranked l) c d

theorem ranked_falling (l : List (Candidate F)) : Falling (ranked l) := by
  have : Std.Total fun a b : Candidate F => b.score ≤ a.score := ⟨fun _ _ => le_total _ _⟩
  have : IsTrans (Candidate F) fun a b => b.score ≤ a.score := ⟨fun _ _ _ first second => second.trans first⟩
  exact (pairwise_insertionSort _ l).imp fun le => ⟨le_rfl, not_lt.mpr le⟩

theorem place_append {c : Candidate F} {front : List (Candidate F)} (above : ∀ d ∈ front, ¬ d.score < c.score)
    (back : List (Candidate F)) : place (front ++ back) c = front ++ place back c := by
  induction front with
  | nil => rfl
  | cons d front ih =>
    rw [forall_mem_cons] at above
    rw [cons_append, place, orderedInsert_cons, if_neg above.1, ← place, ih above.2, cons_append]

theorem place_front {c : Candidate F} {l : List (Candidate F)} (below : ∀ d ∈ l.head?, d.score < c.score) : place l c = c :: l := by
  cases l with
  | nil => rfl
  | cons d l => rw [place, orderedInsert_cons, if_pos (below d rfl)]

variable {items : List (Candidate F)} {id : Nat} {s : F}

theorem Falling.add_listed (falling : Falling items) (room : 0 < cap) (listed : ⟨id, s⟩ ∈ items) :
    candidateAddSorted (items.take cap) cap id s = items.take cap := by
  rcases candidateAddSorted_cases (items.take cap) room id s with ⟨same, _⟩ | ⟨front, back, _, placed⟩
  · exact same
  · -- the candidate stands behind the kept ones, so the last of them is no worse
    rw [← take_append_drop cap items] at falling listed
    have later := (mem_append.mp listed).resolve_left fun kept => placed.fresh _ kept rfl
    have long := length_pos_of_mem later
    rw [length_drop] at long
    have full : cap ≤ (items.take cap).length := by rw [length_take]; omega
    have isLast := getLast?_eq_getLast_of_ne_nil (length_pos_iff.mp (room.trans_le full))
    exact absurd (not_lt.mp ((pairwise_append.mp falling).2.2 _ (mem_of_getLast? isLast) _ later).2) (placed.evicts full _ isLast)

theorem Placed.next {front back : List (Candidate F)} (placed : Placed (items.take cap) cap id s front back) (room : 0 < cap)
    (kept : items.take (cap - 1) = front ++ back) : ∀ d ∈ (back ++ items.drop (cap - 1)).head?, d.score < s := by
  intro d first
  cases back with
  | cons b back =>
    cases first
    exact placed.behind d mem_cons_self
  | nil =>
    rw [nil_append, head?_drop, Option.mem_def] at first
    have last : items.take cap = front ++ [d] := by
      rw [← append_nil front, ← kept, ← Nat.sub_add_cancel room, take_add_one, first]
      rfl
    have long := (List.getElem?_eq_some_iff.mp first).1
    exact lt_of_not_ge (placed.evicts (by rw [length_take]; omega) d (by rw [last, getLast?_concat]; rfl))

theorem Falling.add_unlisted (falling : Falling items) (room : 0 < cap) (fresh : ∀ c ∈ items, c.id ≠ id) :
    candidateAddSorted (items.take cap) cap id s = (place items ⟨id, s⟩).take cap := by
  rcases candidateAddSorted_cases (items.take cap) room id s with
    ⟨same, ⟨c, kept, own⟩ | ⟨full, last, isLast, above⟩⟩ | ⟨front, back, added, placed⟩
  · exact absurd own (fresh c (mem_of_mem_take kept))
  · have falling' : Falling (items.take cap) := falling.sublist (take_sublist _ _)
    have behind : place items ⟨id, s⟩ = items.take cap ++ place (items.drop cap) ⟨id, s⟩ := by
      rw [← place_append, take_append_drop]
      intro d member
      rcases falling'.last isLast member with rfl | ⟨_, notLess⟩
      · exact not_lt.mpr above
      · exact not_lt.mpr (above.trans (not_lt.mp notLess))
    rw [same, behind, take_left' (le_antisymm (length_take_le _ _) full)]
  · have kept := placed.kept
    rw [take_take, Nat.min_eq_left (Nat.sub_le _ _)] at kept
    have size := congrArg length kept
    rw [length_take, length_append] at size
    have above := placed.above (kept ▸ falling.sublist (take_sublist _ _))
    rw [added, ← take_append_drop (cap - 1) items, kept, append_assoc, place_append above, place_front (placed.next room kept),
      ← cons_append, ← append_assoc, take_append, take_of_length_le, take_eq_nil_iff.mpr, append_nil]
    · rw [length_append, length_cons, drop_eq_nil_iff]
      omega
    · rw [length_append, length_cons]
      omega

/-- The list holds the best `cap` of the different ids offered, equal ones in the order of their first offer. -/
theorem candidateAddSorted_top_cap (score : Nat → F) (room : 0 < cap) (offers : List Nat) :
    let distinct := offers.reverse.dedup.reverse
    offers.foldl (fun items id => candidateAddSorted items cap id (score id)) [] =
      (ranked (distinct.map fun id => ⟨id, score id⟩)).take (min cap distinct.length) := by
  intro distinct
  have size : (ranked (distinct.map fun id => (⟨id, score id⟩ : Candidate F))).length = distinct.length := by
    rw [ranked, length_insertionSort, length_map]
  rw [← size, ← take_eq_take_min]
  clear size
  induction offers using reverseRecOn with
  | nil => simp [distinct, ranked]
  | append_singleton offers id ih =>
    have members : ∀ c, c ∈ ranked (offers.reverse.dedup.reverse.map fun id => ⟨id, score id⟩) ↔
        c.id ∈ offers ∧ c.score = score c.id := by
      rintro ⟨n, x⟩
      simp [ranked, mem_insertionSort, eq_comm]
    rw [foldl_append, foldl_cons, foldl_nil, ih]
    by_cases known : id ∈ offers
    · have same : distinct = offers.reverse.dedup.reverse := by simp [distinct, known]
      rw [same]
      exact (ranked_falling _).add_listed room ((members _).mpr ⟨known, rfl⟩)
    · have more : distinct = offers.reverse.dedup.reverse ++ [id] := by simp [distinct, known]
      rw [more, map_append, map_singleton, ranked_concat]
      exact (ranked_falling _).add_unlisted room fun c member own => known (own ▸ ((members c).mp member).1)

theorem top_two_of_five : 0 < 2 ∧ [4, 1, 4, 3, 2, 1].foldl (fun items id => candidateAddSorted items 2 id (id % 2)) [] =
    [(⟨1, 1⟩ : Candidate Nat), ⟨3, 1⟩] :=
  ⟨by decide, (candidateAddSorted_top_cap (fun id => id % 2) (by decide) [4, 1, 4, 3, 2, 1]).trans rfl⟩

end AICacheDB.KvsVector
