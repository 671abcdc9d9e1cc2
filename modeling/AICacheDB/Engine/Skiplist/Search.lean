import AICacheDB.Engine.Skiplist.Model

open CLib List Option

namespace AICacheDB.KvsSkiplist

/-- A node as an element of the bottom list; `height` is the highest level it is linked on. -/
structure SkipCell where
  addr : Addr
  key : CString
  value : CharPtr
  expireMs : Int
  height : Nat

def nextAt (i : Nat) (ys : List SkipCell) : Option Addr := (ys.find? fun c => i ≤ c.height).map SkipCell.addr

def cursorOf (xs : List SkipCell) : Cursor := xs.getLast?.map SkipCell.addr

def top (xs : List SkipCell) : Nat := (xs.getLast?.map SkipCell.height).getD skiplistMaxLevel

@[simp] theorem cursorOf_nil : cursorOf [] = none := rfl

@[simp] theorem cursorOf_concat (xs : List SkipCell) (c : SkipCell) : cursorOf (xs ++ [c]) = some c.addr := by
  simp [cursorOf]

@[simp] theorem top_nil : top [] = skiplistMaxLevel := rfl

@[simp] theorem top_concat (xs : List SkipCell) (c : SkipCell) : top (xs ++ [c]) = c.height := by
  simp [top]

variable {i : Nat} {ws L : List SkipCell} {c : SkipCell}

theorem nextAt_append_of_low (low : ∀ w ∈ ws, w.height < i) (ys : List SkipCell) : nextAt i (ws ++ ys) = nextAt i ys := by
  have none : ws.find? (fun c => i ≤ c.height) = none := by simpa using low
  rw [nextAt, nextAt, find?_append, none, none_or]

theorem nextAt_append_of_high {w : SkipCell} (member : w ∈ ws) (high : i ≤ w.height)
    (ys ys' : List SkipCell) : nextAt i (ws ++ ys) = nextAt i (ws ++ ys') := by
  obtain ⟨d, found⟩ : ∃ d, ws.find? (fun c => i ≤ c.height) = some d := by
    rw [← isSome_iff_exists, find?_isSome]
    exact ⟨w, member, by simpa using high⟩
  rw [nextAt, nextAt, find?_append, find?_append, found, some_or, some_or]

theorem nextAt_cons_of_le (high : i ≤ c.height) (ys : List SkipCell) : nextAt i (c :: ys) = some c.addr := by
  simp [nextAt, high]

theorem nextAt_cons_of_lt (low : c.height < i) (ys : List SkipCell) : nextAt i (c :: ys) = nextAt i ys := by
  simp [nextAt, low]

structure Linked (s : KvsSkiplist) (L : List SkipCell) : Prop where
  links : ∀ xs ys, L = xs ++ ys → ∀ i ≤ top xs, s.forward (cursorOf xs) i = some (nextAt i ys)
  cells : ∀ c ∈ L, ∃ node, s.mem c.addr = some node ∧ node.key = c.key ∧ node.value = c.value ∧
    node.expireMs = c.expireMs ∧ node.forward.length = c.height + 1
  headerSize : s.header.length = skiplistMaxLevel + 1
  distinct : (L.map SkipCell.addr).Nodup
  bound : ∀ a node, s.mem a = some node → a < s.brk

structure SkipValid (s : KvsSkiplist) (L : List SkipCell) : Prop where
  linked : Linked s L
  sorted : L.Pairwise fun c d => c.key < d.key
  heights : ∀ c ∈ L, c.height ≤ s.level
  level : s.level ≤ skiplistMaxLevel
  size : s.size = L.length

theorem Linked.length_le {s : KvsSkiplist} (linked : Linked s L) : L.length ≤ s.brk := by
  have inRange : L.map SkipCell.addr ⊆ range s.brk := by
    intro a member
    obtain ⟨c, inside, rfl⟩ := mem_map.mp member
    obtain ⟨node, live, _⟩ := linked.cells c inside
    exact mem_range.mpr (linked.bound _ node live)
  have short := (subperm_of_subset linked.distinct inRange).length_le
  rwa [length_map, length_range] at short

theorem cursor_inj {xs ys xs' ys' : List SkipCell} (distinct : (L.map SkipCell.addr).Nodup) (split : L = xs ++ ys)
    (split' : L = xs' ++ ys') (same : cursorOf xs = cursorOf xs') : xs = xs' := by
  rcases eq_nil_or_concat' xs with rfl | ⟨zs, c, rfl⟩
  · rcases eq_nil_or_concat' xs' with rfl | ⟨zs', c', rfl⟩
    · rfl
    · simp at same
  · rcases eq_nil_or_concat' xs' with rfl | ⟨zs', c', rfl⟩
    · simp at same
    · simp only [cursorOf_concat, some.injEq] at same
      have shape : zs ++ c :: ys = zs' ++ c' :: ys' := by
        rw [split] at split'
        simpa using split'
      have addrs := congrArg (map SkipCell.addr) shape
      rw [split, append_assoc, singleton_append, map_append, map_cons, nodup_middle,
        nodup_cons, mem_append, not_or] at distinct
      rw [map_append, map_append, map_cons, map_cons, ← same] at addrs
      have before := ((append_cons_inj_of_notMem distinct.1.1 distinct.1.2).mp addrs).1
      have size : zs.length = zs'.length := by simpa using congrArg length before
      obtain ⟨left, right⟩ := append_inj shape size
      rw [left, (cons.inj right).1]

section Advance

variable {s : KvsSkiplist} {L : List SkipCell} {k : CString} {xs A B : List SkipCell}

theorem advance_spec (linked : Linked s L) (sorted : L.Pairwise fun c d => c.key < d.key) (i fuel : Nat)
    {ys : List SkipCell} (split : L = xs ++ ys) (start : i ≤ top xs) (enough : ys.length < fuel) :
    ∃ zs ws, s.advance k i fuel (cursorOf xs) = some (cursorOf (xs ++ zs)) ∧ ys = zs ++ ws ∧ i ≤ top (xs ++ zs) ∧
      (∀ c ∈ zs, c.key < k) ∧ ∀ c ∈ ws, i ≤ c.height → ¬ c.key < k := by
  induction fuel generalizing xs ys with
  | zero => omega
  | succ fuel ih =>
    have read := linked.links xs ys split i start
    cases found : ys.find? (fun c => i ≤ c.height) with
    | none =>
      have low : ∀ c ∈ ys, c.height < i := by simpa using found
      refine ⟨[], ys, ?_, rfl, by simpa using start, by simp, fun c member high => ?_⟩
      · rw [nextAt, found] at read
        simp [advance, read]
      · have := low c member
        omega
    | some d =>
      obtain ⟨high, as, bs, rfl, low⟩ := find?_eq_some_iff_append.mp found
      have inL : d ∈ L := by simp [split]
      obtain ⟨node, live, key, _⟩ := linked.cells d inL
      rw [nextAt, found, map_some] at read
      have order := sorted
      rw [split] at order
      have tail := (pairwise_append.mp order).2.1
      obtain ⟨_, right, across⟩ := pairwise_append.mp tail
      have above := (pairwise_cons.mp right).1
      have lowAs : ∀ c ∈ as, c.height < i := by simpa using low
      have highD : i ≤ d.height := by simpa using high
      by_cases less : d.key < k
      · have next : L = (xs ++ as ++ [d]) ++ bs := by simp [split]
        have startD : i ≤ top (xs ++ as ++ [d]) := by
          rw [top_concat]
          exact highD
        have enoughD : bs.length < fuel := by
          simp only [length_append, length_cons] at enough
          omega
        obtain ⟨zs, ws, ran, rfl, stop, passed, rest⟩ := ih next startD enoughD
        refine ⟨as ++ [d] ++ zs, ws, ?_, by simp, by simpa using stop, ?_, rest⟩
        · rw [cursorOf_concat] at ran
          simp only [advance, read, live, key, less, if_true, bind_eq_bind, bind_some, ran]
          simp
        · intro c member
          simp only [mem_append, mem_singleton] at member
          rcases member with (inAs | rfl) | inZs
          · exact (across c inAs d (by simp)).trans less
          · exact less
          · exact passed c inZs
      · refine ⟨[], as ++ d :: bs, ?_, rfl, by simpa using start, by simp, fun c member tall => ?_⟩
        · simp [advance, read, live, key, less]
        · simp only [mem_append, mem_cons] at member
          rcases member with inAs | rfl | inBs
          · have := lowAs c inAs
            omega
          · exact less
          · exact fun small => less ((above c inBs).trans small)

def IsPred (B : List SkipCell) (i : Nat) (p : List SkipCell) : Prop :=
  ∃ ws, B = p ++ ws ∧ (∀ w ∈ ws, w.height < i) ∧ i ≤ top p

theorem exists_split (sorted : L.Pairwise fun c d => c.key < d.key) (k : CString) :
    ∃ B A, L = B ++ A ∧ (∀ c ∈ B, c.key < k) ∧ ∀ c ∈ A, ¬ c.key < k := by
  induction L with
  | nil => exact ⟨[], [], rfl, by simp, by simp⟩
  | cons c L ih =>
    obtain ⟨above, rest⟩ := pairwise_cons.mp sorted
    by_cases less : c.key < k
    · obtain ⟨B, A, rfl, below, notBelow⟩ := ih rest
      refine ⟨c :: B, A, rfl, fun d member => ?_, notBelow⟩
      rcases mem_cons.mp member with rfl | later
      · exact less
      · exact below d later
    · refine ⟨[], c :: L, rfl, by simp, fun d member => ?_⟩
      rcases mem_cons.mp member with rfl | later
      · exact less
      · exact fun small => less ((above d later).trans small)

theorem split_inside {P W : List SkipCell} (below : ∀ c ∈ P, c.key < k) (notBelow : ∀ c ∈ A, ¬ c.key < k)
    (same : B ++ A = P ++ W) : ∃ ws, B = P ++ ws ∧ W = ws ++ A := by
  rcases append_eq_append_iff.mp same with ⟨us, rfl, rfl⟩ | ⟨ws, rfl, rfl⟩
  · cases us with
    | nil => exact ⟨[], by simp, by simp⟩
    | cons u us => exact absurd (below u (by simp)) (notBelow u (by simp))
  · exact ⟨ws, rfl, rfl⟩

theorem predecessors_spec (linked : Linked s (B ++ A))
    (sorted : (B ++ A).Pairwise fun c d => c.key < d.key) (below : ∀ c ∈ B, c.key < k) (notBelow : ∀ c ∈ A, ¬ c.key < k)
    (i : Nat) {ws : List SkipCell} (split : B = xs ++ ws) (start : i ≤ top xs) :
    ∃ us, s.predecessors k i (cursorOf xs) = some us ∧ us.length = i + 1 ∧
      ∀ j ≤ i, ∃ p, us[j]? = some (cursorOf p) ∧ IsPred B j p := by
  have walk : ∀ i, ∀ {xs ws : List SkipCell}, B = xs ++ ws → i ≤ top xs →
      ∃ p, s.advance k i (s.brk + 1) (cursorOf xs) = some (cursorOf p) ∧ IsPred B i p := by
    intro i xs ws split start
    have whole : B ++ A = xs ++ (ws ++ A) := by rw [split, append_assoc]
    have enough : (ws ++ A).length < s.brk + 1 := by
      have short := linked.length_le
      rw [whole, length_append] at short
      omega
    obtain ⟨zs, rest, ran, tail, stop, passed, high⟩ := advance_spec linked sorted i (s.brk + 1) whole start enough
    have passedAll : ∀ c ∈ xs ++ zs, c.key < k := by
      intro c member
      rcases mem_append.mp member with inXs | inZs
      · exact below c (by simp [split, inXs])
      · exact passed c inZs
    have shape : B ++ A = (xs ++ zs) ++ rest := by rw [whole, tail, append_assoc]
    obtain ⟨us, inside, after⟩ := split_inside passedAll notBelow shape
    refine ⟨xs ++ zs, ran, us, inside, fun w member => ?_, stop⟩
    by_contra tall
    exact high w (by simp [after, member]) (by omega) (below w (by simp [inside, member]))
  induction i generalizing xs ws with
  | zero =>
    obtain ⟨p, ran, pred⟩ := walk 0 split start
    refine ⟨[cursorOf p], by simp [predecessors, ran], rfl, fun j small => ⟨p, ?_, ?_⟩⟩
    · simp [Nat.le_zero.mp small]
    · rw [Nat.le_zero.mp small]
      exact pred
  | succ i ih =>
    obtain ⟨p, ran, pred⟩ := walk (i + 1) split start
    obtain ⟨ws', split', low, stop⟩ := pred
    obtain ⟨us, ran', size, each⟩ := ih split' (by omega)
    refine ⟨us ++ [cursorOf p], ?_, by simp [size], fun j small => ?_⟩
    · simp [predecessors, ran, ran']
    · rcases Nat.lt_or_ge j (i + 1) with lower | higher
      · obtain ⟨q, found, pred⟩ := each j (by omega)
        exact ⟨q, by rw [getElem?_append_left (by omega), found], pred⟩
      · have here : j = i + 1 := by omega
        subst here
        exact ⟨p, by rw [getElem?_append_right (by omega)]; simp [size], ws', split', low, stop⟩

end Advance

section Find

variable {s : KvsSkiplist} {L B A : List SkipCell} {k : CString}

theorem findPredecessors_spec (valid : SkipValid s (B ++ A)) (below : ∀ c ∈ B, c.key < k) (notBelow : ∀ c ∈ A, ¬ c.key < k) :
    ∃ us, s.findPredecessors k = some us ∧ us.length = s.level + 1 ∧
      ∀ j ≤ s.level, ∃ p, us[j]? = some (cursorOf p) ∧ IsPred B j p :=
  predecessors_spec valid.linked valid.sorted below notBelow s.level (nil_append B).symm valid.level

theorem IsPred.bottom {p : List SkipCell} (pred : IsPred B 0 p) : p = B := by
  obtain ⟨ws, split, low, _⟩ := pred
  cases ws with
  | nil => rw [split, append_nil]
  | cons w ws => exact absurd (low w (by simp)) (Nat.not_lt_zero _)

theorem find_eq (valid : SkipValid s (B ++ A)) (below : ∀ c ∈ B, c.key < k) (notBelow : ∀ c ∈ A, ¬ c.key < k) :
    s.find k = some ((A.head?.filter fun c => c.key = k).map SkipCell.addr) := by
  obtain ⟨us, found, _, each⟩ := findPredecessors_spec valid below notBelow
  obtain ⟨p, first, pred⟩ := each 0 (Nat.zero_le _)
  obtain rfl := pred.bottom
  have read := valid.linked.links p A rfl 0 (Nat.zero_le _)
  cases A with
  | nil => simp [find, found, first, read, nextAt]
  | cons c A =>
    obtain ⟨node, live, key, _⟩ := valid.linked.cells c (by simp)
    rw [nextAt_cons_of_le (Nat.zero_le _)] at read
    by_cases same : c.key = k
    · simp [find, found, first, read, live, key, same, Option.filter]
    · simp [find, found, first, read, live, key, same, Option.filter]

theorem find_cases (valid : SkipValid s L) (k : CString) :
    (∃ B c A node, L = B ++ c :: A ∧ c.key = k ∧ s.find k = some (some c.addr) ∧ s.mem c.addr = some node ∧
      node.value = c.value ∧ node.expireMs = c.expireMs) ∨
    ∃ B A, L = B ++ A ∧ (∀ b ∈ B, b.key < k) ∧ (∀ a ∈ A, k < a.key) ∧ s.find k = some none := by
  obtain ⟨B, A, rfl, below, notBelow⟩ := exists_split valid.sorted k
  have found := find_eq valid below notBelow
  cases A with
  | nil => exact .inr ⟨B, [], rfl, below, by simp, by simpa using found⟩
  | cons c A =>
    by_cases same : c.key = k
    · obtain ⟨node, live, _, value, expire, _⟩ := valid.linked.cells c (by simp)
      refine .inl ⟨B, c, A, node, rfl, same, ?_, live, value, expire⟩
      simpa [same, Option.filter] using found
    · have order := (pairwise_append.mp valid.sorted).2.1
      have above := (pairwise_cons.mp order).1
      have first : k < c.key := lt_of_le_of_ne (not_lt.mp (notBelow c (by simp))) (Ne.symm same)
      refine .inr ⟨B, c :: A, rfl, below, fun a member => ?_, ?_⟩
      · rcases mem_cons.mp member with rfl | later
        · exact first
        · exact first.trans (above a later)
      · simpa [same, Option.filter] using found

end Find

end AICacheDB.KvsSkiplist
