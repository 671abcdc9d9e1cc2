import AICacheDB.Engine.Skiplist.Update

open CLib List Option Function

namespace AICacheDB.KvsSkiplist

theorem Preds.of_update {B : List SkipCell} {us : List Cursor} {h : Nat}
    (each : ∀ j ≤ h, ∃ p, us[j]? = some (cursorOf p) ∧ IsPred B j p) : Preds B h fun j => (us[j]?).getD none := by
  intro j small
  obtain ⟨p, found, pred⟩ := each j small
  exact ⟨p, by simp [found], pred⟩

theorem IsPred.cursor_ne_of_fresh {B p : List SkipCell} {j : Nat} (pred : IsPred B j p) {a : Addr}
    (fresh : a ∉ B.map SkipCell.addr) : cursorOf p ≠ some a := by
  obtain ⟨ws, split, _⟩ := pred
  intro here
  apply fresh
  rw [split, map_append, mem_append]
  exact .inl (cursorOf_mem here)

theorem SameData.cell {s s' : KvsSkiplist} (same : SameData s s') {c : SkipCell}
    (cell : ∃ node, s.mem c.addr = some node ∧ node.key = c.key ∧ node.value = c.value ∧ node.expireMs = c.expireMs ∧
      node.forward.length = c.height + 1) :
    ∃ node, s'.mem c.addr = some node ∧ node.key = c.key ∧ node.value = c.value ∧ node.expireMs = c.expireMs ∧
      node.forward.length = c.height + 1 := by
  obtain ⟨node, live, key, value, expire, size⟩ := cell
  obtain ⟨node', live', data⟩ := same.live live
  simp only [payload, Prod.mk.injEq] at data
  exact ⟨node', live', data.1.trans key, data.2.1.trans value, data.2.2.1.trans expire, data.2.2.2.trans size⟩

theorem SameData.bound {s s' : KvsSkiplist} (same : SameData s s') (bound : ∀ a node, s.mem a = some node → a < s.brk) :
    ∀ a node, s'.mem a = some node → a < s'.brk := by
  intro a node live
  have data := same.nodes a
  rw [live, map_some] at data
  obtain ⟨node', live', _⟩ := map_eq_some_iff.mp data.symm
  rw [same.brk]
  exact bound a node' live'

section Insert

variable {s : KvsSkiplist} {B A : List SkipCell} {k v : CString} {e : Int} {h : Nat}

theorem insert_preds (valid : SkipValid s (B ++ A)) (below : ∀ c ∈ B, c.key < k) (notBelow : ∀ c ∈ A, ¬ c.key < k)
    (limit : h ≤ skiplistMaxLevel) : ∃ us, s.findPredecessors k = some us ∧
      ∀ j ≤ h, ∃ p, (us ++ replicate (h - s.level) none)[j]? = some (cursorOf p) ∧ IsPred B j p := by
  obtain ⟨us, found, size, each⟩ := findPredecessors_spec valid below notBelow
  refine ⟨us, found, fun j small => ?_⟩
  by_cases old : j ≤ s.level
  · obtain ⟨p, at_, pred⟩ := each j old
    exact ⟨p, by rw [getElem?_append_left (by omega), at_], pred⟩
  · refine ⟨[], ?_, B, rfl, fun w member => ?_, ?_⟩
    · rw [getElem?_append_right (by omega), getElem?_replicate, if_pos (by omega)]
      rfl
    · have low := valid.heights w (by simp [member])
      omega
    · rw [top_nil]
      omega

theorem newNode_forward (s : KvsSkiplist) (cur : Cursor) (j : Nat) :
    (skiplistNewNode s h k v e).1.forward cur j =
      if cur = some s.brk then (if j ≤ h then some none else none) else s.forward cur j := by
  cases cur with
  | none => simp [forward, skiplistNewNode]
  | some a =>
    by_cases same : a = s.brk
    · subst same
      by_cases small : j ≤ h
      · simp [forward, skiplistNewNode, small, Nat.lt_succ_of_le small]
      · have outside : (replicate (h + 1) (none : Option Addr))[j]? = none := by
          rw [getElem?_replicate, if_neg (by omega)]
        rw [if_pos rfl, if_neg small]
        simp [forward, skiplistNewNode, update_self, outside]
    · simp [forward, skiplistNewNode, same]

theorem insert_valid (valid : SkipValid s (B ++ A)) (below : ∀ c ∈ B, c.key < k) (above : ∀ c ∈ A, k < c.key)
    (limit : h ≤ skiplistMaxLevel) {us : List Cursor} (each : ∀ j ≤ h, ∃ p, us[j]? = some (cursorOf p) ∧ IsPred B j p) :
    ∃ s', linkLoop s.brk us (h + 1) 0 (skiplistNewNode { s with level := max s.level h } h k v e).1 = some s' ∧
      SkipValid { s' with size := s'.size + 1 } (B ++ ⟨s.brk, k, .str v, e, h⟩ :: A) := by
  let c : SkipCell := ⟨s.brk, k, .str v, e, h⟩
  let s1 : KvsSkiplist := { s with level := max s.level h }
  let s2 := (skiplistNewNode s1 h k v e).1
  let u : Nat → Cursor := fun j => (us[j]?).getD none
  have linked := valid.linked
  have unused : s.mem s.brk = none := by
    cases live : s.mem s.brk with
    | none => rfl
    | some node => exact absurd (linked.bound _ node live) (lt_irrefl _)
  have fresh : c.addr ∉ (B ++ A).map SkipCell.addr := by
    intro member
    obtain ⟨d, inside, same⟩ := mem_map.mp member
    obtain ⟨node, live, _⟩ := linked.cells d inside
    rw [same, unused] at live
    cases live
  have freshB : c.addr ∉ B.map SkipCell.addr := by
    rw [map_append, mem_append, not_or] at fresh
    exact fresh.1
  have preds : Preds B c.height u := .of_update each
  have read2 : ∀ cur j, s2.forward cur j = if cur = some c.addr then (if j ≤ h then some none else none) else s.forward cur j :=
    newNode_forward s1
  have known : ∀ j, 0 ≤ j → j < 0 + (h + 1) → us[j]? = some (u j) ∧ u j ≠ some c.addr ∧ ∃ p, s2.forward (u j) j = some p := by
    intro j _ small
    obtain ⟨p, found, pred⟩ := each j (by omega)
    have isP : u j = cursorOf p := by simp [u, found]
    have other := pred.cursor_ne_of_fresh freshB
    obtain ⟨ws, split, _, stop⟩ := pred
    have read := linked.links p (ws ++ A) (by rw [split, append_assoc]) j stop
    refine ⟨by rw [isP, found], by rw [isP]; exact other, nextAt j (ws ++ A), ?_⟩
    rw [read2, isP, if_neg other, read]
  have room : ∀ j, 0 ≤ j → j < 0 + (h + 1) → ∃ p, s2.forward (some c.addr) j = some p := by
    intro j _ small
    exact ⟨none, by rw [read2, if_pos rfl, if_pos (by omega)]⟩
  obtain ⟨s3, ran, same, read3⟩ := linkLoop_spec c.addr us u (h + 1) 0 s2 known room
  have after : LinkedIn s c u s3 := by
    intro cur j
    rw [read3]
    by_cases level : j ≤ h
    · have inside : 0 ≤ j ∧ j < 0 + (h + 1) := by omega
      obtain ⟨_, other, _⟩ := known j inside.1 inside.2
      rw [if_pos inside, if_pos level, read2, if_neg other, read2]
      by_cases isNew : cur = some c.addr <;> simp [isNew]
    · rw [if_neg (by omega), if_neg level, read2, if_neg level]
      by_cases isNew : cur = some c.addr
      · have empty : s.forward (some s.brk) j = none := by simp [forward, unused]
        rw [if_pos isNew, isNew]
        exact empty.symm
      · rw [if_neg isNew]
  have cells2 : ∀ d ∈ B ++ c :: A, ∃ node, s2.mem d.addr = some node ∧ node.key = d.key ∧ node.value = d.value ∧
      node.expireMs = d.expireMs ∧ node.forward.length = d.height + 1 := by
    intro d member
    by_cases isNew : d = c
    · subst isNew
      exact ⟨_, update_self _ _ _, rfl, rfl, rfl, length_replicate⟩
    · have old : d ∈ B ++ A := by
        rw [mem_append, mem_cons] at member
        rw [mem_append]
        tauto
      obtain ⟨node, live, data⟩ := linked.cells d old
      have other : d.addr ≠ s.brk := ne_of_mem_of_not_mem (mem_map_of_mem old) fresh
      exact ⟨node, (update_of_ne other _ _).trans live, data⟩
  have bound2 : ∀ a node, s2.mem a = some node → a < s2.brk := by
    intro a node live
    by_cases isNew : a = s.brk
    · exact isNew ▸ Nat.lt_succ_self _
    · exact Nat.lt_succ_of_lt (linked.bound a node ((update_of_ne isNew _ _).symm.trans live))
  refine ⟨s3, ran, ⟨?_, ?_, same.header.trans linked.headerSize, ?_, same.bound bound2⟩, ?_, ?_, ?_, ?_⟩
  · exact links_insert linked fresh preds after
  · exact fun d member => same.cell (cells2 d member)
  · rw [map_append, map_cons, nodup_middle, nodup_cons, ← map_append]
    exact ⟨fresh, linked.distinct⟩
  · obtain ⟨left, right, across⟩ := pairwise_append.mp valid.sorted
    refine pairwise_append.mpr ⟨left, pairwise_cons.mpr ⟨above, right⟩, fun d inB f inA => ?_⟩
    rcases mem_cons.mp inA with rfl | later
    · exact below d inB
    · exact across d inB f later
  · intro d member
    have top : s3.level = max s.level h := same.level
    simp only [top]
    rw [mem_append, mem_cons] at member
    rcases member with inB | rfl | inA
    · exact le_max_of_le_left (valid.heights d (by simp [inB]))
    · exact le_max_right _ _
    · exact le_max_of_le_left (valid.heights d (by simp [inA]))
  · have top : s3.level = max s.level h := same.level
    simp only [top]
    exact max_le valid.level limit
  · have size : s3.size = s.size := same.size
    simp only [size, valid.size, length_append, length_cons]
    omega

end Insert

section Modify

variable {s : KvsSkiplist} {L L' B A : List SkipCell} {c : SkipCell}

def shape (c : SkipCell) : Addr × Nat := (c.addr, c.height)

theorem nextAt_shape (i : Nat) (ys : List SkipCell) : nextAt i ys = ((ys.map shape).find? fun p => i ≤ p.2).map Prod.fst := by
  rw [find?_map, Option.map_map]
  rfl

theorem cursorOf_shape (xs : List SkipCell) : cursorOf xs = (xs.map shape).getLast?.map Prod.fst := by
  rw [getLast?_map, Option.map_map]
  rfl

theorem top_shape (xs : List SkipCell) : top xs = ((xs.map shape).getLast?.map Prod.snd).getD skiplistMaxLevel := by
  rw [getLast?_map, Option.map_map]
  rfl

theorem links_congr (linked : Linked s L) (same : L'.map shape = L.map shape) :
    ∀ xs ys, L' = xs ++ ys → ∀ i ≤ top xs, s.forward (cursorOf xs) i = some (nextAt i ys) := by
  intro xs ys split i start
  rw [split, map_append] at same
  obtain ⟨xs', ys', split', left, right⟩ := map_eq_append_iff.mp same.symm
  rw [top_shape, ← left, ← top_shape] at start
  rw [cursorOf_shape, nextAt_shape, ← left, ← right, ← cursorOf_shape, ← nextAt_shape]
  exact linked.links xs' ys' split' i start

theorem modify_spec (valid : SkipValid s (B ++ c :: A)) (value : CharPtr) (expireMs : Int) {f : SkiplistNode → SkiplistNode}
    (effect : ∀ node, node.value = c.value → node.expireMs = c.expireMs →
      f node = { node with value := value, expireMs := expireMs }) :
    ∃ s', s.modify c.addr f = some s' ∧ SkipValid s' (B ++ { c with value := value, expireMs := expireMs } :: A) := by
  have linked := valid.linked
  obtain ⟨node, live, key, oldValue, oldExpire, size⟩ := linked.cells c (by simp)
  have isF := effect node oldValue oldExpire
  let s' : KvsSkiplist := { s with mem := update s.mem c.addr (some (f node)) }
  have pointers : ∀ cur i, s'.forward cur i = s.forward cur i := by
    intro cur i
    cases cur with
    | none => rfl
    | some a =>
      by_cases here : a = c.addr
      · subst here
        simp [forward, s', live, isF]
      · simp [forward, s', here]
  have distinct := linked.distinct
  rw [map_append, map_cons, nodup_middle, nodup_cons, mem_append, not_or] at distinct
  refine ⟨s', by simp [modify, live, s'], ⟨?_, ?_, linked.headerSize, ?_, ?_⟩, ?_, ?_, valid.level, ?_⟩
  · intro xs ys split i start
    rw [pointers]
    exact links_congr linked (by simp [shape]) xs ys split i start
  · intro d member
    by_cases here : d.addr = c.addr
    · have isC : d = { c with value := value, expireMs := expireMs } := by
        rw [mem_append, mem_cons] at member
        rcases member with inB | isNew | inA
        · exact absurd (here ▸ mem_map_of_mem inB) distinct.1.1
        · exact isNew
        · exact absurd (here ▸ mem_map_of_mem inA) distinct.1.2
      subst isC
      exact ⟨f node, update_self _ _ _, by rw [isF]; exact key, by rw [isF], by rw [isF], by rw [isF]; exact size⟩
    · have old : d ∈ B ++ c :: A := by
        rw [mem_append, mem_cons] at member ⊢
        rcases member with inB | isNew | inA
        · exact .inl inB
        · exact absurd (congrArg SkipCell.addr isNew) here
        · exact .inr (.inr inA)
      obtain ⟨node', live', data⟩ := linked.cells d old
      exact ⟨node', (update_of_ne here _ _).trans live', data⟩
  · simpa using linked.distinct
  · intro a node' live'
    by_cases here : a = c.addr
    · exact linked.bound a node (here ▸ live)
    · exact linked.bound a node' ((update_of_ne here _ _).symm.trans live')
  · have sorted := valid.sorted
    rw [← pairwise_map (f := SkipCell.key)] at sorted ⊢
    simpa using sorted
  · intro d member
    rw [mem_append, mem_cons] at member
    rcases member with inB | rfl | inA
    · exact valid.heights d (by simp [inB])
    · exact valid.heights c (by simp)
    · exact valid.heights d (by simp [inA])
  · simpa using valid.size

end Modify

section Delete

variable {s : KvsSkiplist} {L B A : List SkipCell} {t : SkipCell}

theorem shrinkLevel_spec {l : Nat} (limit : l ≤ skiplistMaxLevel)
    (header : ∀ i ≤ skiplistMaxLevel, s.header[i]? = some (nextAt i L)) (heights : ∀ c ∈ L, c.height ≤ l) :
    ∃ l', s.shrinkLevel l = some l' ∧ l' ≤ l ∧ ∀ c ∈ L, c.height ≤ l' := by
  induction l with
  | zero => exact ⟨0, rfl, le_rfl, heights⟩
  | succ l ih =>
    have read := header (l + 1) limit
    by_cases empty : nextAt (l + 1) L = none
    · have lower : ∀ c ∈ L, c.height ≤ l := by
        intro c member
        rw [nextAt, map_eq_none_iff, find?_eq_none] at empty
        have short := empty c member
        simp only [decide_eq_true_eq] at short
        omega
      obtain ⟨l', ran, small, bounded⟩ := ih (by omega) lower
      refine ⟨l', ?_, by omega, bounded⟩
      simp [shrinkLevel, read, empty, ran]
    · refine ⟨l + 1, ?_, le_rfl, heights⟩
      simp [shrinkLevel, read, empty]

theorem around (sorted : (B ++ t :: A).Pairwise fun c d => c.key < d.key) :
    (∀ c ∈ B, c.key < t.key) ∧ ∀ c ∈ t :: A, ¬ c.key < t.key := by
  obtain ⟨_, right, across⟩ := pairwise_append.mp sorted
  have above := (pairwise_cons.mp right).1
  refine ⟨fun c member => across c member t (by simp), fun c member => ?_⟩
  rcases mem_cons.mp member with rfl | later
  · exact lt_irrefl _
  · exact lt_asymm (above c later)

variable (valid : SkipValid s (B ++ t :: A))

include valid

theorem find_present : s.find t.key = some (some t.addr) := by
  obtain ⟨below, notBelow⟩ := around valid.sorted
  simpa [Option.filter] using find_eq valid below notBelow

theorem unlink_spec :
    ∃ us u s1, s.findPredecessors t.key = some us ∧ unlinkLoop t.addr us (s.level + 1) 0 s = some s1 ∧ SameData s s1 ∧
      Preds B s.level u ∧ LinkedOut s t s.level u s1 := by
  obtain ⟨below, notBelow⟩ := around valid.sorted
  obtain ⟨us, found, _, each⟩ := findPredecessors_spec valid below notBelow
  have distinct := valid.linked.distinct
  rw [map_append, map_cons, nodup_middle, nodup_cons, mem_append, not_or] at distinct
  let u : Nat → Cursor := fun j => (us[j]?).getD none
  have known : ∀ j, 0 ≤ j → j < 0 + (s.level + 1) → us[j]? = some (u j) ∧ u j ≠ some t.addr ∧
      ∃ p, s.forward (u j) j = some p ∧ (p = some t.addr → ∃ q, s.forward (some t.addr) j = some q) := by
    intro j _ small
    obtain ⟨p, atJ, pred⟩ := each j (by omega)
    have isP : u j = cursorOf p := by simp [u, atJ]
    have other := pred.cursor_ne_of_fresh distinct.1.1
    obtain ⟨ws, split, low, stop⟩ := pred
    have read := valid.linked.links p (ws ++ t :: A) (by rw [split, append_assoc]) j stop
    rw [nextAt_append_of_low low] at read
    refine ⟨by rw [isP, atJ], by rw [isP]; exact other, nextAt j (t :: A), by rw [isP, read], fun leads => ?_⟩
    have tall : j ≤ t.height := by
      by_contra short
      rw [nextAt_cons_of_lt (by omega)] at leads
      exact distinct.1.2 (nextAt_mem leads)
    have next := valid.linked.links (B ++ [t]) A (by simp) j (by rw [top_concat]; exact tall)
    rw [cursorOf_concat] at next
    exact ⟨_, next⟩
  obtain ⟨s1, ran, same, read⟩ := unlinkLoop_spec t.addr us u (s.level + 1) 0 s known
  refine ⟨us, u, s1, found, ran, same, .of_update each, fun cur j _ => ?_⟩
  have range : (0 ≤ j ∧ j < 0 + (s.level + 1)) ↔ j ≤ s.level := by omega
  rw [read]
  simp only [range]

theorem delete_spec : ∃ s', kvsSkiplistDel s t.key = some (s', 0) ∧ SkipValid s' (B ++ A) ∧ s'.brk = s.brk := by
  obtain ⟨us, u, s1, preds, unlinked, same, isPred, out⟩ := unlink_spec valid
  have linked := valid.linked
  have tall : t.height ≤ s.level := valid.heights t (by simp)
  have kept : ∀ c ∈ B ++ A, c ∈ B ++ t :: A := by
    intro c member
    rw [mem_append] at member
    rw [mem_append, mem_cons]
    tauto
  have links1 := links_delete linked tall isPred out
  obtain ⟨l, shrunk, small, heights⟩ := shrinkLevel_spec (s := s1) (L := B ++ A) (same.level.trans_le valid.level)
    (fun i high => links1 [] (B ++ A) rfl i high) fun c member => (valid.heights c (kept c member)).trans_eq same.level.symm
  let s2 : KvsSkiplist := { ({ s1 with level := l } : KvsSkiplist).free t.addr with size := s1.size - 1 }
  have ran : kvsSkiplistDel s t.key = some (s2, 0) := by
    simp only [kvsSkiplistDel, find_present valid, preds, unlinked, shrunk, bind_eq_bind, bind_some]
    rfl
  have out2 : LinkedOut s t s.level u s2 := by
    intro cur j other
    rw [← out cur j other]
    cases cur with
    | none => rfl
    | some a =>
      have apart : a ≠ t.addr := fun equal => other (congrArg some equal)
      simp [forward, s2, free, apart]
  have distinct := linked.distinct
  rw [map_append, map_cons, nodup_middle, nodup_cons, ← map_append] at distinct
  have cells2 : ∀ c ∈ B ++ A, ∃ node, s2.mem c.addr = some node ∧ node.key = c.key ∧ node.value = c.value ∧
      node.expireMs = c.expireMs ∧ node.forward.length = c.height + 1 := by
    intro c member
    obtain ⟨node, live, data⟩ := same.cell (linked.cells c (kept c member))
    have apart : c.addr ≠ t.addr := ne_of_mem_of_not_mem (mem_map_of_mem member) distinct.1
    exact ⟨node, (update_of_ne apart _ _).trans live, data⟩
  have bound2 : ∀ a node, s2.mem a = some node → a < s2.brk := by
    intro a node live
    by_cases gone : a = t.addr
    · subst gone
      exact absurd live (by simp [s2, free])
    · exact same.bound linked.bound a node ((update_of_ne gone _ _).symm.trans live)
  refine ⟨s2, ran, ⟨⟨?_, cells2, same.header.trans linked.headerSize, distinct.2, bound2⟩, ?_, heights, ?_, ?_⟩, same.brk⟩
  · exact links_delete linked tall isPred out2
  · exact valid.sorted.sublist ((sublist_cons_self t A).append_left B)
  · exact small.trans (same.level.trans_le valid.level)
  · have size : s1.size = s.size := same.size
    simp only [s2, size, valid.size, length_append, length_cons]
    omega

end Delete

end AICacheDB.KvsSkiplist
