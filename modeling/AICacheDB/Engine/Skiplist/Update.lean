import AICacheDB.Engine.Skiplist.Search

open CLib Option Option Function
open List hiding getElem?_eq_some_iff

namespace AICacheDB.KvsSkiplist

def payload (node : SkiplistNode) : CString × CharPtr × Int × Nat :=
  (node.key, node.value, node.expireMs, node.forward.length)

structure SameData (s s' : KvsSkiplist) : Prop where
  nodes : ∀ a, (s'.mem a).map payload = (s.mem a).map payload
  header : s'.header.length = s.header.length
  level : s'.level = s.level
  size : s'.size = s.size
  brk : s'.brk = s.brk

theorem SameData.refl (s : KvsSkiplist) : SameData s s := ⟨fun _ => rfl, rfl, rfl, rfl, rfl⟩

variable {s s' : KvsSkiplist}

theorem SameData.trans {s'' : KvsSkiplist} (first : SameData s s') (second : SameData s' s'') : SameData s s'' :=
  ⟨fun a => (second.nodes a).trans (first.nodes a), second.header.trans first.header, second.level.trans first.level,
    second.size.trans first.size, second.brk.trans first.brk⟩

theorem SameData.live (same : SameData s s') {a : Addr} {node : SkiplistNode} (live : s.mem a = some node) :
    ∃ node', s'.mem a = some node' ∧ payload node' = payload node := by
  have data := same.nodes a
  rw [live, map_some] at data
  exact map_eq_some_iff.mp data

theorem setForward_spec {cur : Cursor} {i : Nat} {old : Option Addr} (read : s.forward cur i = some old) (p : Option Addr) :
    ∃ s', s.setForward cur i p = some s' ∧ SameData s s' ∧
      ∀ cur' j, s'.forward cur' j = if cur' = cur ∧ j = i then some p else s.forward cur' j := by
  cases cur with
  | none =>
    have small : i < s.header.length := (getElem?_eq_some_iff.mp read).1
    refine ⟨{ s with header := s.header.set i p }, by simp [setForward, small], ⟨fun _ => rfl, by simp, rfl, rfl, rfl⟩, ?_⟩
    intro cur' j
    cases cur' with
    | none =>
      by_cases same : j = i
      · subst same
        simp [forward, small]
      · simp [forward, same, getElem?_set_ne (Ne.symm same)]
    | some a => simp [forward]
  | some a =>
    obtain ⟨node, live, inside⟩ := bind_eq_some_iff.mp read
    have small : i < node.forward.length := (getElem?_eq_some_iff.mp inside).1
    let node' : SkiplistNode := { node with forward := node.forward.set i p }
    refine ⟨{ s with mem := update s.mem a (some node') }, by simp [setForward, live, small, node'],
      ⟨fun b => ?_, rfl, rfl, rfl, rfl⟩, ?_⟩
    · by_cases same : b = a
      · subst same
        simp [live, payload, node']
      · simp [update_of_ne same]
    · intro cur' j
      cases cur' with
      | none => simp [forward]
      | some b =>
        by_cases same : b = a
        · subst same
          by_cases index : j = i
          · subst index
            simp [forward, node', small]
          · simp [forward, node', index, live, getElem?_set_ne (Ne.symm index)]
        · simp [forward, same]

theorem linkLoop_spec (a : Addr) (update : List Cursor) (u : Nat → Cursor) (n i : Nat) (s : KvsSkiplist)
    (known : ∀ j, i ≤ j → j < i + n → update[j]? = some (u j) ∧ u j ≠ some a ∧ ∃ p, s.forward (u j) j = some p)
    (room : ∀ j, i ≤ j → j < i + n → ∃ p, s.forward (some a) j = some p) :
    ∃ s', linkLoop a update n i s = some s' ∧ SameData s s' ∧
      ∀ cur j, s'.forward cur j =
        if i ≤ j ∧ j < i + n then
          if cur = some a then s.forward (u j) j else if cur = u j then some (some a) else s.forward cur j
        else s.forward cur j := by
  induction n generalizing i s with
  | zero => exact ⟨s, rfl, .refl s, fun cur j => by rw [if_neg (by omega)]⟩
  | succ n ih =>
    obtain ⟨atI, other, p, read⟩ := known i (by omega) (by omega)
    obtain ⟨q, own⟩ := room i (by omega) (by omega)
    obtain ⟨s1, e1, same1, read1⟩ := setForward_spec own p
    have readU : s1.forward (u i) i = some p := by simp [read1, other, read]
    obtain ⟨s2, e2, same2, read2⟩ := setForward_spec readU (some a)
    have later : ∀ cur j, j ≠ i → s2.forward cur j = s.forward cur j := by
      intro cur j apart
      simp [read2, read1, apart]
    obtain ⟨s3, ran, same3, read3⟩ := ih (i + 1) s2
      (fun j low high => by
        obtain ⟨inList, different, r, value⟩ := known j (by omega) (by omega)
        exact ⟨inList, different, r, by rw [later _ j (by omega), value]⟩)
      (fun j low high => by
        obtain ⟨r, value⟩ := room j (by omega) (by omega)
        exact ⟨r, by rw [later _ j (by omega), value]⟩)
    refine ⟨s3, ?_, (same1.trans same2).trans same3, fun cur j => ?_⟩
    · simp [linkLoop, atI, read, e1, e2, ran]
    · rw [read3]
      by_cases here : j = i
      · subst here
        have inside : j ≤ j ∧ j < j + (n + 1) := by omega
        have outside : ¬ (j + 1 ≤ j ∧ j < j + 1 + n) := by omega
        rw [if_neg outside, if_pos inside, read2, read1]
        by_cases isNew : cur = some a
        · subst isNew
          rw [if_neg (fun h => other h.1.symm), if_pos ⟨rfl, rfl⟩, if_pos rfl, read]
        · by_cases isU : cur = u j <;> simp [isNew, isU, other]
      · rw [later _ j here, later _ j here]
        have range : (i + 1 ≤ j ∧ j < i + 1 + n) ↔ (i ≤ j ∧ j < i + (n + 1)) := by omega
        simp only [range]

theorem unlinkLoop_spec (target : Addr) (update : List Cursor) (u : Nat → Cursor) (n i : Nat) (s : KvsSkiplist)
    (known : ∀ j, i ≤ j → j < i + n → update[j]? = some (u j) ∧ u j ≠ some target ∧
      ∃ p, s.forward (u j) j = some p ∧ (p = some target → ∃ q, s.forward (some target) j = some q)) :
    ∃ s', unlinkLoop target update n i s = some s' ∧ SameData s s' ∧
      ∀ cur j, s'.forward cur j =
        if (i ≤ j ∧ j < i + n) ∧ cur = u j ∧ s.forward cur j = some (some target) then s.forward (some target) j
        else s.forward cur j := by
  induction n generalizing i s with
  | zero => exact ⟨s, rfl, .refl s, fun cur j => by rw [if_neg (by omega)]⟩
  | succ n ih =>
    obtain ⟨atI, other, p, read, more⟩ := known i (by omega) (by omega)
    have first : ∃ s1, (if p = some target then do
          let after ← s.forward (some target) i
          s.setForward (u i) i after
        else some s) = some s1 ∧ SameData s s1 ∧
        ∀ cur j, s1.forward cur j =
          if j = i ∧ cur = u i ∧ s.forward cur j = some (some target) then s.forward (some target) j else s.forward cur j := by
      by_cases hit : p = some target
      · obtain ⟨q, after⟩ := more hit
        obtain ⟨s1, e1, same1, read1⟩ := setForward_spec read q
        refine ⟨s1, by simp [hit, after, e1], same1, fun cur j => ?_⟩
        rw [read1]
        by_cases here : cur = u i ∧ j = i
        · obtain ⟨rfl, rfl⟩ := here
          simp [read, hit, after]
        · rw [if_neg here, if_neg (fun h => here ⟨h.2.1, h.1⟩)]
      · refine ⟨s, by simp [hit], .refl s, fun cur j => ?_⟩
        rw [if_neg]
        rintro ⟨rfl, rfl, leads⟩
        rw [read] at leads
        exact hit (some.inj leads)
    obtain ⟨s1, e1, same1, read1⟩ := first
    have later : ∀ cur j, j ≠ i → s1.forward cur j = s.forward cur j := by
      intro cur j apart
      rw [read1, if_neg (fun h => apart h.1)]
    obtain ⟨s2, ran, same2, read2⟩ := ih (i + 1) s1 fun j low high => by
      obtain ⟨inList, different, r, value, rest⟩ := known j (by omega) (by omega)
      refine ⟨inList, different, r, by rw [later _ j (by omega), value], fun leads => ?_⟩
      rw [later _ j (by omega)]
      exact rest leads
    refine ⟨s2, ?_, same1.trans same2, fun cur j => ?_⟩
    · simp only [unlinkLoop, atI, read, bind_eq_bind, bind_some] at e1 ⊢
      rw [e1, bind_some, ran]
    · rw [read2]
      by_cases here : j = i
      · subst here
        have outside : ¬ (j + 1 ≤ j ∧ j < j + 1 + n) := by omega
        have inside : j ≤ j ∧ j < j + (n + 1) := by omega
        rw [if_neg (fun h => outside h.1), read1]
        simp [inside]
      · have range : (i + 1 ≤ j ∧ j < i + 1 + n) ↔ (i ≤ j ∧ j < i + (n + 1)) := by omega
        rw [later _ j here, later _ j here]
        simp only [range]

section Links

variable {s s' : KvsSkiplist} {B A : List SkipCell} {c : SkipCell} {u : Nat → Cursor} {i : Nat} {ys xs : List SkipCell}

theorem nextAt_mem {a : Addr} (leads : nextAt i ys = some a) : a ∈ ys.map SkipCell.addr := by
  obtain ⟨d, found, rfl⟩ := map_eq_some_iff.mp leads
  exact mem_map_of_mem (mem_of_find?_eq_some found)

theorem cursorOf_mem {a : Addr} (here : cursorOf xs = some a) : a ∈ xs.map SkipCell.addr := by
  obtain ⟨d, last, rfl⟩ := map_eq_some_iff.mp here
  exact mem_map_of_mem (mem_of_getLast? last)

variable {p bs as : List SkipCell} {level : Nat} {t : SkipCell}

theorem IsPred.unique {q : List SkipCell} (left : IsPred B i p) (right : IsPred B i q) : p = q := by
  have longer : ∀ {p q ws : List SkipCell}, (∀ w ∈ ws, w.height < i) → i ≤ top q → ∀ r vs, q = p ++ r → ws = r ++ vs → p = q := by
    intro p q ws low stop r vs shape tail
    rcases eq_nil_or_concat' r with rfl | ⟨r', d, rfl⟩
    · rw [shape, append_nil]
    · have high : i ≤ d.height := by
        rw [shape, ← append_assoc, top_concat] at stop
        exact stop
      have small := low d (by simp [tail])
      omega
  obtain ⟨ws, splitP, lowP, stopP⟩ := left
  obtain ⟨vs, splitQ, lowQ, stopQ⟩ := right
  rw [splitP] at splitQ
  rcases append_eq_append_iff.mp splitQ with ⟨r, shape, tail⟩ | ⟨r, shape, tail⟩
  · exact longer lowP stopQ r vs shape tail
  · exact (longer lowQ stopP r ws shape tail).symm

theorem IsPred.cursor_eq (distinct : ((B ++ A).map SkipCell.addr).Nodup)
    (pred : IsPred B i p) (split : B = xs ++ bs) (same : cursorOf xs = cursorOf p) : xs = p := by
  obtain ⟨ws, splitP, _⟩ := pred
  have left : B ++ A = xs ++ (bs ++ A) := by rw [split, append_assoc]
  have right : B ++ A = p ++ (ws ++ A) := by rw [splitP, append_assoc]
  exact cursor_inj distinct left right same

theorem IsPred.cursor_ne (distinct : ((B ++ A).map SkipCell.addr).Nodup)
    (pred : IsPred B i p) (split : A = as ++ ys) (real : as ≠ []) : cursorOf (B ++ as) ≠ cursorOf p := by
  obtain ⟨ws, splitP, _⟩ := pred
  intro same
  have left : B ++ A = (B ++ as) ++ ys := by rw [split, append_assoc]
  have right : B ++ A = p ++ (ws ++ A) := by rw [splitP, append_assoc]
  have equal := cursor_inj distinct left right same
  have size := congrArg length equal
  have shorter := congrArg length splitP
  have positive := length_pos_of_ne_nil real
  simp only [length_append] at size shorter
  omega

def LinkedIn (s : KvsSkiplist) (c : SkipCell) (u : Nat → Cursor) (s' : KvsSkiplist) : Prop :=
  ∀ cur j, s'.forward cur j =
    if j ≤ c.height then
      if cur = some c.addr then s.forward (u j) j else if cur = u j then some (some c.addr) else s.forward cur j
    else s.forward cur j

def Preds (B : List SkipCell) (h : Nat) (u : Nat → Cursor) : Prop := ∀ j ≤ h, ∃ p, u j = cursorOf p ∧ IsPred B j p

section

variable (linked : Linked s (B ++ A))

include linked

theorem insert_before (preds : Preds B c.height u)
    (after : LinkedIn s c u s') (split : B = xs ++ bs) (notNew : cursorOf xs ≠ some c.addr) (start : i ≤ top xs) :
    s'.forward (cursorOf xs) i = some (nextAt i (bs ++ c :: A)) := by
  have read : s.forward (cursorOf xs) i = some (nextAt i (bs ++ A)) :=
    linked.links xs (bs ++ A) (by rw [split, append_assoc]) i start
  rw [after, if_neg notNew, read]
  by_cases high : ∃ w ∈ bs, i ≤ w.height
  · obtain ⟨w, member, tall⟩ := high
    have same := nextAt_append_of_high member tall A (c :: A)
    by_cases level : i ≤ c.height
    · obtain ⟨p, isP, pred⟩ := preds i level
      have other : cursorOf xs ≠ u i := by
        intro here
        rw [isP] at here
        have equal := pred.cursor_eq linked.distinct split here
        obtain ⟨ws, splitP, low, _⟩ := pred
        rw [split, equal, append_cancel_left_eq] at splitP
        have small := low w (splitP ▸ member)
        omega
      rw [if_pos level, if_neg other, same]
    · rw [if_neg level, same]
  · have low : ∀ w ∈ bs, w.height < i := by
      intro w member
      by_contra tall
      exact high ⟨w, member, by omega⟩
    rw [nextAt_append_of_low low, nextAt_append_of_low low]
    by_cases level : i ≤ c.height
    · obtain ⟨p, isP, pred⟩ := preds i level
      have here : cursorOf xs = u i := by
        rw [isP, IsPred.unique ⟨bs, split, low, start⟩ pred]
      rw [if_pos level, if_pos here, nextAt_cons_of_le level]
    · rw [if_neg level, nextAt_cons_of_lt (by omega)]

theorem insert_self (preds : Preds B c.height u) (after : LinkedIn s c u s')
    (level : i ≤ c.height) : s'.forward (some c.addr) i = some (nextAt i A) := by
  obtain ⟨p, isP, ws, split, low, stop⟩ := preds i level
  have read := linked.links p (ws ++ A) (by rw [split, append_assoc]) i stop
  rw [after, if_pos level, if_pos rfl, isP, read, nextAt_append_of_low low]

theorem insert_behind (preds : Preds B c.height u)
    (after : LinkedIn s c u s') (split : A = as ++ ys) (real : as ≠ []) (notNew : cursorOf (B ++ as) ≠ some c.addr)
    (start : i ≤ top (B ++ as)) : s'.forward (cursorOf (B ++ as)) i = some (nextAt i ys) := by
  have read := linked.links (B ++ as) ys (by rw [split, append_assoc]) i start
  rw [after, if_neg notNew, read]
  by_cases level : i ≤ c.height
  · obtain ⟨p, isP, pred⟩ := preds i level
    have other : cursorOf (B ++ as) ≠ u i := by
      rw [isP]
      exact pred.cursor_ne linked.distinct split real
    rw [if_pos level, if_neg other]
  · rw [if_neg level]

theorem links_insert (fresh : c.addr ∉ (B ++ A).map SkipCell.addr) (preds : Preds B c.height u) (after : LinkedIn s c u s') :
    ∀ xs ys, B ++ c :: A = xs ++ ys → ∀ i ≤ top xs, s'.forward (cursorOf xs) i = some (nextAt i ys) := by
  intro xs ys split i start
  have notNew : ∀ xs, xs ⊆ B ++ A → cursorOf xs ≠ some c.addr := by
    intro xs sub here
    exact fresh (map_subset _ sub (cursorOf_mem here))
  rcases append_eq_append_iff.mp split with ⟨bs, rfl, tail⟩ | ⟨bs, rfl, rfl⟩
  · rcases bs with _ | ⟨d, as⟩
    · rw [append_nil] at start ⊢
      have front := insert_before linked preds after (append_nil B).symm (notNew B (by simp)) start
      rw [nil_append] at front tail
      rw [front, tail]
    · obtain ⟨rfl, rest⟩ := cons.inj tail
      by_cases last : as = []
      · subst last
        rw [cursorOf_concat]
        rw [top_concat] at start
        rw [insert_self linked preds after start, rest]
        rfl
      · have shift : cursorOf (B ++ c :: as) = cursorOf (B ++ as) ∧ top (B ++ c :: as) = top (B ++ as) := by
          obtain ⟨bs, d, rfl⟩ := (eq_nil_or_concat' as).resolve_left last
          have left : B ++ c :: (bs ++ [d]) = (B ++ c :: bs) ++ [d] := by simp
          have right : B ++ (bs ++ [d]) = (B ++ bs) ++ [d] := by simp
          rw [left, right]
          simp only [cursorOf_concat, top_concat, and_self]
        rw [shift.2] at start
        rw [shift.1]
        exact insert_behind linked preds after rest last (notNew _ (by rw [rest]; simp)) start
  · exact insert_before linked preds after rfl (notNew xs (by simp)) start

end

def LinkedOut (s : KvsSkiplist) (t : SkipCell) (level : Nat) (u : Nat → Cursor) (s' : KvsSkiplist) : Prop :=
  ∀ cur j, cur ≠ some t.addr → s'.forward cur j =
    if j ≤ level ∧ cur = u j ∧ s.forward cur j = some (some t.addr) then s.forward (some t.addr) j else s.forward cur j

theorem delete_before (linked : Linked s (B ++ t :: A))
    (small : t.height ≤ level) (preds : Preds B level u) (after : LinkedOut s t level u s') (split : B = xs ++ bs)
    (notT : cursorOf xs ≠ some t.addr) (start : i ≤ top xs) : s'.forward (cursorOf xs) i = some (nextAt i (bs ++ A)) := by
  have read : s.forward (cursorOf xs) i = some (nextAt i (bs ++ t :: A)) :=
    linked.links xs (bs ++ t :: A) (by rw [split, append_assoc]) i start
  have distinct := linked.distinct
  rw [map_append, map_cons, nodup_middle, nodup_cons, mem_append, not_or] at distinct
  rw [after _ _ notT, read]
  by_cases high : ∃ w ∈ bs, i ≤ w.height
  · obtain ⟨w, member, tall⟩ := high
    have same := nextAt_append_of_high member tall (t :: A) []
    have other : ¬ (i ≤ level ∧ cursorOf xs = u i ∧ some (nextAt i (bs ++ t :: A)) = some (some t.addr)) := by
      rintro ⟨_, _, leads⟩
      rw [same, append_nil] at leads
      have inside := nextAt_mem (some.inj leads)
      exact distinct.1.1 (by rw [split, map_append, mem_append]; exact .inr inside)
    rw [if_neg other, nextAt_append_of_high member tall (t :: A) A]
  · have low : ∀ w ∈ bs, w.height < i := by
      intro w member
      by_contra tall
      exact high ⟨w, member, by omega⟩
    rw [nextAt_append_of_low low, nextAt_append_of_low low]
    by_cases tall : i ≤ t.height
    · obtain ⟨p, isP, pred⟩ := preds i (by omega)
      have here : cursorOf xs = u i := by
        rw [isP, IsPred.unique ⟨bs, split, low, start⟩ pred]
      have next := linked.links (B ++ [t]) A (by simp) i (by rw [top_concat]; exact tall)
      rw [cursorOf_concat] at next
      rw [nextAt_cons_of_le tall, if_pos ⟨by omega, here, rfl⟩, next]
    · have other : ¬ (i ≤ level ∧ cursorOf xs = u i ∧ some (nextAt i (t :: A)) = some (some t.addr)) := by
        rintro ⟨_, _, leads⟩
        rw [nextAt_cons_of_lt (by omega)] at leads
        exact distinct.1.2 (nextAt_mem (some.inj leads))
      rw [if_neg other, nextAt_cons_of_lt (by omega)]

theorem delete_behind (linked : Linked s (B ++ t :: A))
    (preds : Preds B level u) (after : LinkedOut s t level u s') (split : A = as ++ ys) (real : as ≠ [])
    (notT : cursorOf (B ++ as) ≠ some t.addr) (start : i ≤ top (B ++ as)) :
    s'.forward (cursorOf (B ++ as)) i = some (nextAt i ys) := by
  obtain ⟨bs, d, rfl⟩ := (eq_nil_or_concat' as).resolve_left real
  have shift : cursorOf (B ++ t :: (bs ++ [d])) = cursorOf (B ++ (bs ++ [d])) ∧
      top (B ++ t :: (bs ++ [d])) = top (B ++ (bs ++ [d])) := by
    have left : B ++ t :: (bs ++ [d]) = (B ++ t :: bs) ++ [d] := by simp
    have right : B ++ (bs ++ [d]) = (B ++ bs) ++ [d] := by simp
    rw [left, right]
    simp only [cursorOf_concat, top_concat, and_self]
  have read := linked.links (B ++ t :: (bs ++ [d])) ys (by simp [split]) i (by rw [shift.2]; exact start)
  rw [shift.1] at read
  have other : ¬ (i ≤ level ∧ cursorOf (B ++ (bs ++ [d])) = u i ∧ s.forward (cursorOf (B ++ (bs ++ [d]))) i = some (some t.addr)) := by
    rintro ⟨inLevel, here, _⟩
    obtain ⟨p, isP, pred⟩ := preds i inLevel
    rw [isP, ← shift.1] at here
    have parts : t :: A = (t :: (bs ++ [d])) ++ ys := by simp [split]
    exact pred.cursor_ne linked.distinct parts (by simp) here
  rw [after _ _ notT, if_neg other, read]

theorem links_delete (linked : Linked s (B ++ t :: A)) (small : t.height ≤ level)
    (preds : Preds B level u) (after : LinkedOut s t level u s') :
    ∀ xs ys, B ++ A = xs ++ ys → ∀ i ≤ top xs, s'.forward (cursorOf xs) i = some (nextAt i ys) := by
  intro xs ys split i start
  have distinct := linked.distinct
  rw [map_append, map_cons, nodup_middle, nodup_cons, ← map_append] at distinct
  have notT : cursorOf xs ≠ some t.addr := by
    intro here
    exact distinct.1 (map_subset _ (by rw [split]; simp) (cursorOf_mem here))
  rcases append_eq_append_iff.mp split with ⟨as, rfl, rfl⟩ | ⟨bs, rfl, rfl⟩
  · by_cases none : as = []
    · subst none
      rw [append_nil] at start notT ⊢
      exact delete_before linked small preds after (append_nil B).symm notT start
    · exact delete_behind linked preds after rfl none notT start
  · exact delete_before linked small preds after rfl notT start

end Links

end AICacheDB.KvsSkiplist
