import AICacheDB.Forwarder.Events

open CLib
open List hiding getElem?_eq_some_iff

namespace AICacheDB.Forwarder

open Resp

section Commands

variable {args : List Bytes} {env : CommandEnv} {r : Relay}

theorem Forwardable.push (command : Forwardable args) :
    (processFullCommand env r (encode args)).2.1.map Prod.fst = if writes args = true then some (encode args) else none := by
  cases args with
  | nil => exact absurd command.real (Nat.lt_irrefl 0)
  | cons name args =>
    have few : (args.map fun arg => (decimal arg.length, arg)).length + 1 ≤ flowBufMax := by
      rw [length_map]
      exact command.few.trans (by decide)
    rw [processFullCommand_push ((spelled_encode (name :: args)).commandName few (command.fits name (by simp))), writes]
    split <;> rfl

theorem drainFlow_frames {done : List (List Bytes)} {u : Bytes} (commands : ∀ args ∈ done, Forwardable args)
    (ends : u = [] ∨ respCommandLen u = .incomplete) (env : Nat → CommandEnv) {fuel : Nat}
    (enough : (done.flatMap encode ++ u).length ≤ fuel) (i : Nat) (r : Relay) :
    ∃ r' pushes, drainFlow env fuel i r (done.flatMap encode ++ u) = (r', some u, pushes) ∧
      pushes.map Prod.fst = (done.filter writes).map encode := by
  induction done generalizing fuel i r with
  | nil =>
    refine ⟨r, [], ?_, rfl⟩
    rw [flatMap_nil, nil_append]
    cases fuel with
    | zero => rfl
    | succ fuel =>
      rw [drainFlow]
      by_cases empty : u = []
      · rw [if_pos empty, empty]
      · rw [if_neg empty, ends.resolve_left empty]
  | cons args done ih =>
    have command := commands args (by simp)
    rw [flatMap_cons, append_assoc] at enough ⊢
    have size := encode_length args
    have some_ : encode args ++ (done.flatMap encode ++ u) ≠ [] := ne_nil_of_length_pos (by rw [length_append]; omega)
    rcases respCommandLen_cut command (append_nil _) some_ with ⟨_, whole⟩ | ⟨short, _⟩ | ⟨_, short | ⟨j, small, short⟩⟩
    · rw [length_append] at enough
      obtain ⟨fuel, rfl⟩ : ∃ n, fuel = n + 1 := ⟨fuel - 1, by omega⟩
      have head : (processFullCommand (env i) r (encode args)).2.1.map Prod.fst = _ := command.push
      rw [drainFlow, if_neg some_, whole]
      dsimp only
      rw [take_left, drop_left]
      obtain ⟨r', pushes, ran, same⟩ := ih (fun a member => commands a (by simp [member])) (show _ ≤ fuel by omega) (i + 1)
        (processFullCommand (env i) r (encode args)).1
      rw [ran]
      refine ⟨r', _, rfl, ?_⟩
      rw [map_append, same, ← Option.toList_map, head, filter_cons]
      split <;> rfl
    · rw [length_append] at short
      omega
    · rw [length_append] at short
      omega
    · have below := cutBefore_lt small
      rw [length_append] at short
      omega

end Commands

section Slots

variable {i : Nat}

theorem findIdx?_of_slot {α : Type} {p : α → Bool} {l : List α} {x : α} (at_ : l[i]? = some x) (here : p x = true)
    (before : ∀ j < i, ∀ y, l[j]? = some y → p y = false) : l.findIdx? p = some i := by
  rw [findIdx?_eq_some_iff_getElem]
  obtain ⟨inside, rfl⟩ := getElem?_eq_some_iff.mp at_
  refine ⟨inside, here, fun j small => ?_⟩
  rw [before j small _ (getElem?_eq_getElem (by omega))]
  decide

theorem findIdx?_before {α : Type} {p : α → Bool} {l : List α} (found : l.findIdx? p = some i) :
    ∀ j < i, ∀ y, l[j]? = some y → p y = false := by
  intro j small y at_
  obtain ⟨_, _, before⟩ := findIdx?_eq_some_iff_getElem.mp found
  obtain ⟨inside, rfl⟩ := getElem?_eq_some_iff.mp at_
  exact Bool.eq_false_of_not_eq_true (before j small)

def ofFlow (key : FlowKey) (st : FlowState) : Bool := st.used && st.key = key

/-- The flow is at position `c` with the bytes `u` in its buffer. Before the first byte it has a reset slot, or none while one is
    free. -/
inductive At (key : FlowKey) (isn : UInt32) (flows : List FlowState) : Nat → Bytes → Prop where
  | inside {c u i st} (slot : flows.findIdx? (ofFlow key) = some i) (state : flows[i]? = some st) (seq : st.haveSeq = true)
      (next : st.nextSeq = isn + UInt32.ofNat c) (buf : st.buf = u) : At key isn flows c u
  | reset {i st} (slot : flows.findIdx? (ofFlow key) = some i) (state : flows[i]? = some st) (seq : st.haveSeq = false)
      (buf : st.buf = []) : At key isn flows 0 []
  | new {i st} (absent : flows.findIdx? (ofFlow key) = none) (free : flows.findIdx? (fun st => !st.used) = some i)
      (state : flows[i]? = some st) (seq : st.haveSeq = false) : At key isn flows 0 []

variable {key : FlowKey} {isn : UInt32} {flows : List FlowState} {c : Nat} {u : Bytes}

theorem slot_set {st st' : FlowState} (g : FlowState → FlowState) (state : flows[i]? = some st)
    (before : ∀ j < i, ∀ y, flows[j]? = some y → ofFlow key y = false) (own : ofFlow key st' = true) :
    ((flows.modify i g).set i st').findIdx? (ofFlow key) = some i ∧ ((flows.modify i g).set i st')[i]? = some st' := by
  have inside : i < (flows.modify i g).length := by
    rw [length_modify]
    exact (getElem?_eq_some_iff.mp state).1
  have here : ((flows.modify i g).set i st')[i]? = some st' := getElem?_set_self inside
  refine ⟨findIdx?_of_slot here own fun j small y at_ => before j small y ?_, here⟩
  rw [getElem?_set_ne (by omega), getElem?_modify_ne _ _ (by omega)] at at_
  exact at_

theorem getFlowState_spec (at_ : At key isn flows c u) (now : Int) :
    ∃ flows' i st, getFlowState now true flows key = (flows', some i) ∧ flows'[i]? = some st ∧ ofFlow key st = true ∧ st.buf = u ∧
      ((st.haveSeq = true ∧ st.nextSeq = isn + UInt32.ofNat c) ∨ (st.haveSeq = false ∧ c = 0)) ∧
      ∀ st', ofFlow key st' = true → (flows'.set i st').findIdx? (ofFlow key) = some i ∧ (flows'.set i st')[i]? = some st' := by
  have found : ∀ {i st}, flows.findIdx? (ofFlow key) = some i → flows[i]? = some st →
      getFlowState now true flows key = (flows.modify i fun st => { st with lastSeen := now }, some i) ∧ ofFlow key st = true := by
    intro i st slot state
    obtain ⟨inside, own, _⟩ := findIdx?_eq_some_iff_getElem.mp slot
    rw [getElem?_eq_getElem inside, Option.some.injEq] at state
    refine ⟨?_, state ▸ own⟩
    rw [getFlowState, show flows.findIdx? (fun st => st.used && st.key = key) = some i from slot]
  cases at_ with
  | @inside _ _ i st slot state seq next buf =>
    obtain ⟨result, own⟩ := found slot state
    refine ⟨_, i, { st with lastSeen := now }, result, ?_, own, buf, .inl ⟨seq, next⟩, fun st' own' =>
      slot_set _ state (findIdx?_before slot) own'⟩
    rw [getElem?_modify_eq, state]
    rfl
  | @reset i st slot state seq buf =>
    obtain ⟨result, own⟩ := found slot state
    refine ⟨_, i, { st with lastSeen := now }, result, ?_, own, buf, .inr ⟨seq, rfl⟩, fun st' own' =>
      slot_set _ state (findIdx?_before slot) own'⟩
    rw [getElem?_modify_eq, state]
    rfl
  | @new i st absent free state seq =>
    have none_ := findIdx?_eq_none_iff.mp absent
    refine ⟨flows.modify i fun st => { st with used := true, key := key, buf := [], lastSeen := now }, i,
      { st with used := true, key := key, buf := [], lastSeen := now }, ?_, ?_, ?_, rfl, .inr ⟨seq, rfl⟩, fun st' own' =>
      slot_set _ state (fun j _ y at_ => none_ y (mem_of_getElem? at_)) own'⟩
    · rw [getFlowState, show flows.findIdx? (fun st => st.used && st.key = key) = none from absent, free]
      rfl
    · rw [getElem?_modify_eq, state]
      rfl
    · simp [ofFlow]

end Slots

section Segments

structure Segment where
  start : Nat
  len : Nat
  env : EventEnv

def Segment.event (key : FlowKey) (isn : UInt32) (stream : Bytes) (s : Segment) : Event × EventEnv :=
  (⟨key, isn + UInt32.ofNat s.start, UInt32.ofNat s.len, (stream.drop s.start).take s.len⟩, s.env)

/-- The segment is part of the stream, leaves no gap behind the first `c` bytes, and there is memory for the flow. -/
structure Segment.Follows (stream : Bytes) (c : Nat) (s : Segment) : Prop where
  gapless : s.start ≤ c
  near : c - s.start < 2^31
  inside : s.start + s.len ≤ stream.length
  small : s.len ≤ maxData
  memory : s.env.malloc = true

variable {key : FlowKey} {isn : UInt32} {stream u : Bytes} {c : Nat} {s : Segment}

section

variable (follows : s.Follows stream c)

include follows

theorem Segment.Follows.length : ((stream.drop s.start).take s.len).length = s.len := by
  have inside := follows.inside
  rw [length_take, length_drop]
  omega

theorem Segment.Follows.fullLen : (UInt32.ofNat s.len).toNat = s.len := by
  have small := follows.small
  unfold maxData at small
  rw [UInt32.toNat_ofNat']
  omega

variable {st : FlowState}

theorem normalize_new (more : c < s.start + s.len)
    (at_ : (st.haveSeq = true ∧ st.nextSeq = isn + UInt32.ofNat c) ∨ (st.haveSeq = false ∧ c = 0)) (now : Int) :
    normalizePayloadBySeq now st (s.event key isn stream).1 =
      ({ st with haveSeq := true, nextSeq := isn + UInt32.ofNat (s.start + s.len) }, some ((stream.drop c).take (s.start + s.len - c))) := by
  have gapless := follows.gapless
  have near := follows.near
  rw [normalizePayloadBySeq, Segment.event]
  dsimp only
  rcases at_ with ⟨seq, next⟩ | ⟨seq, rfl⟩
  · have running : ¬ st.haveSeq = false := by rw [seq]; decide
    rw [if_neg running, next]
    rcases gapless.eq_or_lt with same | overlaps
    · rw [if_pos (by rw [same]), ← same, UInt32.add_assoc, ← UInt32.ofNat_add, seq, Nat.add_sub_cancel_left]
    · have distance : (isn + UInt32.ofNat c - (isn + UInt32.ofNat s.start)).toNat = c - s.start := seq_sub gapless (by omega)
      have part : ¬ UInt32.ofNat s.len ≤ isn + UInt32.ofNat c - (isn + UInt32.ofNat s.start) := by
        rw [UInt32.le_iff_toNat_le, follows.fullLen, distance]
        omega
      have new : ((stream.drop s.start).take s.len).drop (c - s.start) = (stream.drop c).take (s.start + s.len - c) := by
        rw [drop_take, drop_drop, Nat.add_sub_of_le gapless]
        congr 1
        omega
      have count : ((stream.drop c).take (s.start + s.len - c)).length = s.start + s.len - c := by
        have inside := follows.inside
        rw [length_take, length_drop]
        omega
      rw [if_neg (seq_ne overlaps (by omega)), if_pos (seq_before overlaps near), if_neg part, distance, new, count, seq,
        UInt32.add_assoc, ← UInt32.ofNat_add, Nat.add_sub_of_le more.le]
  · have first : s.start = 0 := Nat.le_zero.mp gapless
    rw [if_pos seq, UInt32.add_assoc, ← UInt32.ofNat_add, first, Nat.zero_add]
    rfl

theorem normalize_old (some_ : 0 < s.len) (old : s.start + s.len ≤ c)
    (seq : st.haveSeq = true) (next : st.nextSeq = isn + UInt32.ofNat c) (now : Int) :
    normalizePayloadBySeq now st (s.event key isn stream).1 = (st, none) := by
  have gapless := follows.gapless
  have near := follows.near
  have overlaps : s.start < c := by omega
  have distance : (isn + UInt32.ofNat c - (isn + UInt32.ofNat s.start)).toNat = c - s.start := seq_sub gapless (by omega)
  have all : UInt32.ofNat s.len ≤ isn + UInt32.ofNat c - (isn + UInt32.ofNat s.start) := by
    rw [UInt32.le_iff_toNat_le, follows.fullLen, distance]
    omega
  have running : ¬ st.haveSeq = false := by rw [seq]; decide
  rw [normalizePayloadBySeq, Segment.event]
  rw [if_neg running, next, if_neg (seq_ne overlaps (by omega)), if_pos (seq_before overlaps near), if_pos all]

end

theorem handleEvent_old {f : State} (at_ : At key isn f.flows c u) (follows : s.Follows stream c) (old : s.start + s.len ≤ c) :
    ∃ f', handleEvent f (s.event key isn stream) = (f', []) ∧ At key isn f'.flows c u := by
  have length := follows.length
  by_cases empty : s.len = 0
  · refine ⟨f, ?_, at_⟩
    rw [empty] at length
    rw [handleEvent, Segment.event]
    dsimp only
    rw [if_pos (by rw [empty]; exact length_eq_zero_iff.mp length)]
  obtain ⟨flows, i, st, found, state, own, buf, seq, kept⟩ := getFlowState_spec at_ s.env.now
  obtain ⟨running, next⟩ := seq.resolve_right fun none_ => empty (by omega)
  have set := kept st own
  refine ⟨⟨flows.set i st, f.relay⟩, ?_, .inside set.1 set.2 running next buf⟩
  have normalized : normalizePayloadBySeq s.env.now st (s.event key isn stream).1 = _ :=
    normalize_old follows (Nat.pos_of_ne_zero empty) old running next s.env.now
  have small := follows.small
  have full := follows.fullLen
  rw [Segment.event] at normalized ⊢
  rw [handleEvent]
  dsimp only at normalized ⊢
  rw [if_neg (ne_nil_of_length_pos (by omega)), if_neg (by omega), follows.memory, found]
  dsimp only
  rw [if_neg (by omega), state]
  dsimp only
  rw [normalized]

theorem handleEvent_new {f : State} (at_ : At key isn f.flows c u) (follows : s.Follows stream c) (more : c < s.start + s.len)
    (room : u.length + s.len ≤ flowBufMax) {r : Relay} {u' : Bytes} {pushes : List (Bytes × Bool)}
    (drained : drainFlow s.env.command (u ++ (stream.drop c).take (s.start + s.len - c)).length 0 f.relay
      (u ++ (stream.drop c).take (s.start + s.len - c)) = (r, some u', pushes)) :
    ∃ f', handleEvent f (s.event key isn stream) = (f', pushes) ∧ At key isn f'.flows (s.start + s.len) u' := by
  have length := follows.length
  have gapless := follows.gapless
  have inside := follows.inside
  have small := follows.small
  have full := follows.fullLen
  obtain ⟨flows, i, st, found, state, own, buf, seq, kept⟩ := getFlowState_spec at_ s.env.now
  have normalized : normalizePayloadBySeq s.env.now st (s.event key isn stream).1 = _ := normalize_new follows more seq s.env.now
  have count : ((stream.drop c).take (s.start + s.len - c)).length = s.start + s.len - c := by
    rw [length_take, length_drop]
    omega
  have set := kept { st with
    haveSeq := true, nextSeq := isn + UInt32.ofNat (s.start + s.len), buf := u', lastSeen := s.env.now } own
  refine ⟨⟨flows.set i _, r⟩, ?_, .inside set.1 set.2 rfl rfl rfl⟩
  rw [Segment.event] at normalized ⊢
  rw [handleEvent]
  dsimp only at normalized ⊢
  rw [if_neg (ne_nil_of_length_pos (by omega)), if_neg (by omega), follows.memory, found]
  dsimp only
  rw [if_neg (by omega), state]
  dsimp only
  rw [normalized]
  dsimp only
  rw [if_neg (ne_nil_of_length_pos (by omega)), if_neg (by rw [buf, count]; omega), buf, drained]

end Segments

section Streams

def covered : Nat → List Segment → Nat
  | c, [] => c
  | c, s :: segs => covered (max c (s.start + s.len)) segs

def Gapless (stream : Bytes) : Nat → List Segment → Prop
  | _, [] => True
  | c, s :: segs => s.Follows stream c ∧ Gapless stream (max c (s.start + s.len)) segs

def CutsHeader (cmds : List (List Bytes)) (n : Nat) : Prop :=
  ∃ before args after, cmds = before ++ args :: after ∧ (n = (before.flatMap encode).length + 1 ∨
    ∃ j < args.length, n = (before.flatMap encode).length + (cutBefore args j).length + 1)

def Uncut (cmds : List (List Bytes)) : Nat → List Segment → Prop
  | _, [] => True
  | c, s :: segs => (c < s.start + s.len → ¬ CutsHeader cmds (s.start + s.len)) ∧ Uncut cmds (max c (s.start + s.len)) segs

def Fits (args : List Bytes) : Prop := Forwardable args ∧ (encode args).length ≤ flowBufMax - maxData

variable {cmds : List (List Bytes)} {key : FlowKey} {isn : UInt32} {c : Nat} {u : Bytes} {f : State} {segs : List Segment}
  {done rest : List (List Bytes)}

theorem incomplete_of_uncut {later : List (List Bytes)} (commands : ∀ args ∈ later, Fits args) (cut : ¬ CutsHeader (done ++ later) c)
    (part : Segments.Partial (later.map encode) u) (size : c = (done.flatMap encode).length + u.length) :
    u = [] ∨ respCommandLen u = .incomplete := by
  rcases part with empty | ⟨_, _, first, ⟨v, whole⟩, proper⟩
  · exact .inl empty
  by_cases empty : u = []
  · exact .inl empty
  obtain ⟨args, later', rfl, rfl, _⟩ := map_eq_cons_iff.mp first
  have longer : u.length < (encode args).length := by
    have total := congrArg length whole
    have rest := length_pos_of_ne_nil fun none_ : v = [] => proper (by rw [← whole, none_, append_nil])
    rw [length_append] at total
    omega
  rcases respCommandLen_cut (commands args (by simp)).1 (whole.trans (append_nil _).symm) empty with
    ⟨long, _⟩ | ⟨_, incomplete⟩ | ⟨_, star | ⟨j, small, dollar⟩⟩
  · omega
  · exact .inr incomplete
  · exact absurd ⟨done, args, later', rfl, .inl (by omega)⟩ cut
  · exact absurd ⟨done, args, later', rfl, .inr ⟨j, small, by omega⟩⟩ cut

theorem buffered (commands : ∀ args ∈ rest, Fits args) (part : Segments.Partial (rest.map encode) u)
    {n : Nat} (small : n ≤ maxData) : u.length + n ≤ flowBufMax := by
  have limit : flowBufMax - maxData + maxData = flowBufMax := by decide
  rcases part with rfl | ⟨_, _, first, begins, _⟩
  · rw [length_nil]
    omega
  · obtain ⟨args, _, rfl, rfl, _⟩ := map_eq_cons_iff.mp first
    have short := begins.length_le
    have fits := (commands args (by simp)).2
    omega

theorem run_gapless (split : cmds = done ++ rest) (commands : ∀ args ∈ cmds, Fits args)
    (bytes : (cmds.flatMap encode).take c = done.flatMap encode ++ u) (part : Segments.Partial (rest.map encode) u)
    (at_ : At key isn f.flows c u) (gapless : Gapless (cmds.flatMap encode) c segs) (uncut : Uncut cmds c segs) :
    ∃ more later u', rest = more ++ later ∧
      (cmds.flatMap encode).take (covered c segs) = (done ++ more).flatMap encode ++ u' ∧ Segments.Partial (later.map encode) u' ∧
      (Machine.runTotal handleEvent f (segs.map (Segment.event key isn (cmds.flatMap encode)))).2.flatten.map Prod.fst =
        (more.filter writes).map encode := by
  induction segs generalizing c u f done rest with
  | nil => exact ⟨[], rest, u, rfl, by rw [append_nil]; exact bytes, part, rfl⟩
  | cons s segs ih =>
    obtain ⟨follows, next⟩ := gapless
    obtain ⟨here, later⟩ := uncut
    rw [covered, map_cons, Machine.runTotal_cons, flatten_cons, map_append]
    by_cases more : c < s.start + s.len
    · rw [max_eq_right more.le] at next later ⊢
      have fits : ∀ args ∈ rest, Fits args := fun args member => commands args (by simp [split, member])
      have inside := follows.inside
      -- The buffer with the new bytes is again the beginning of the commands that are left.
      have grown : (cmds.flatMap encode).take (s.start + s.len) =
          done.flatMap encode ++ (u ++ ((cmds.flatMap encode).drop c).take (s.start + s.len - c)) := by
        rw [← append_assoc, ← bytes, ← take_add, Nat.add_sub_of_le more.le]
      have begins : u ++ ((cmds.flatMap encode).drop c).take (s.start + s.len - c) <+: (rest.map encode).flatten := by
        have stream : cmds.flatMap encode = done.flatMap encode ++ (rest.map encode).flatten := by
          rw [split, flatMap_append, ← flatMap_def]
        apply (prefix_append_right_inj (done.flatMap encode)).mp
        rw [← grown, ← stream]
        exact take_prefix _ _
      obtain ⟨frames, frames', u', splits, buffer, part'⟩ := Segments.split begins
      obtain ⟨now, left, rfl, rfl, rfl⟩ := map_eq_append_iff.mp splits
      rw [← flatMap_def] at buffer
      rw [buffer, ← append_assoc, ← flatMap_append] at grown
      have size : s.start + s.len = ((done ++ now).flatMap encode).length + u'.length := by
        rw [← length_append, ← grown, length_take, Nat.min_eq_left inside]
      have ends := incomplete_of_uncut (fun args member => fits args (by simp [member]))
        (by rw [append_assoc, ← split]; exact here more) part' size
      have forwardable : ∀ args ∈ now, Forwardable args := fun args member => (fits args (by simp [member])).1
      obtain ⟨r, pushes, drained, writes_⟩ := drainFlow_frames forwardable ends s.env.command (Nat.le_refl _) 0 f.relay
      rw [← buffer] at drained
      obtain ⟨f', handled, at'⟩ := handleEvent_new at_ follows more (buffered fits part follows.small) drained
      obtain ⟨more', later', u'', rest', bytes', part'', ran⟩ := ih (split.trans (append_assoc _ _ _).symm) grown part' at' next later
      refine ⟨now ++ more', later', u'', ?_, ?_, part'', ?_⟩
      · rw [rest', append_assoc]
      · rw [bytes', append_assoc]
      · rw [handled, writes_, ran, filter_append, map_append]
    · have old : s.start + s.len ≤ c := not_lt.mp more
      rw [max_eq_left old] at next later ⊢
      obtain ⟨f', handled, at'⟩ := handleEvent_old at_ follows old
      rw [handled]
      exact ih split bytes part at' next later

/-- Whatever is repeated, `wal_push` gets the writes that have come, in order, in every run whose stream is nowhere cut behind a
    star or a dollar. -/
theorem forwarder_reassembles (commands : ∀ args ∈ cmds, Fits args) (ready : At key isn f.flows 0 [])
    (gapless : Gapless (cmds.flatMap encode) 0 segs) (uncut : Uncut cmds 0 segs) :
    ∃ done later u, cmds = done ++ later ∧ (cmds.flatMap encode).take (covered 0 segs) = done.flatMap encode ++ u ∧
      Segments.Partial (later.map encode) u ∧
      (Machine.runTotal handleEvent f (segs.map (Segment.event key isn (cmds.flatMap encode)))).2.flatten.map Prod.fst =
        (done.filter writes).map encode := by
  obtain ⟨done, later, u, split, bytes, part, ran⟩ := run_gapless (nil_append cmds).symm commands rfl (.inl rfl) ready gapless uncut
  exact ⟨done, later, u, split, bytes, part, ran⟩

def openEvent : EventEnv := ⟨0, true, fun _ => openCommand⟩

def startState : State := ⟨List.replicate flowMax .zero, startRelay⟩

def flowOne : FlowKey := ⟨1, 2, 3, 4⟩

def setLetters : List Bytes := [ascii "SET", ascii "k", ascii "v"]

theorem fits_setLetters : ∀ args ∈ [setLetters], Fits args := by
  intro args member
  rw [mem_singleton.mp member]
  exact ⟨⟨by decide, by decide, by decide⟩, by decide⟩

theorem startState_at (isn : UInt32) : At flowOne isn startState.flows 0 [] :=
  .new (i := 0) (by decide +kernel) (by decide +kernel) rfl rfl

/-- `SET k v` in two segments, of which the first is the star: the flow is reset twice and `wal_push` is not called. -/
theorem star_alone_loses_write : (∀ args ∈ [setLetters], Fits args) ∧ At flowOne 0 startState.flows 0 [] ∧
      Gapless (encode setLetters) 0 [⟨0, 1, openEvent⟩, ⟨1, 26, openEvent⟩] ∧ writes setLetters = true ∧
      (encode setLetters).take (covered 0 [⟨0, 1, openEvent⟩, ⟨1, 26, openEvent⟩]) = encode setLetters ∧
      (Machine.runTotal handleEvent startState ([⟨0, 1, openEvent⟩, ⟨1, 26, openEvent⟩].map
        (Segment.event flowOne 0 (encode setLetters)))).2.flatten = [] :=
  ⟨fits_setLetters, startState_at 0,
    ⟨⟨by decide, by decide, by decide, by decide, rfl⟩, ⟨by decide, by decide, by decide, by decide, rfl⟩, trivial⟩,
    by decide, by decide, by decide +kernel⟩

/-- `SET k v` in three segments that overlap, with sequence numbers that wrap around. -/
def overlapping : List Segment := [⟨0, 10, openEvent⟩, ⟨4, 23, openEvent⟩, ⟨0, 5, openEvent⟩]

theorem uncut_overlapping : Uncut [setLetters] 0 overlapping := by
  have headers : ∀ n, CutsHeader [setLetters] n → n = 1 ∨ n = 5 ∨ n = 14 ∨ n = 21 := by
    rintro n ⟨before, args, after, split, cut⟩
    obtain ⟨rfl, same⟩ : before = [] ∧ [setLetters] = args :: after := by
      cases before with
      | nil => exact ⟨rfl, split⟩
      | cons x before =>
        have length := congrArg length split
        simp at length
    cases same
    rcases cut with star | ⟨j, small, dollar⟩
    · exact .inl star
    · have three : j < 3 := small
      interval_cases j
      · exact .inr (.inl dollar)
      · exact .inr (.inr (.inl dollar))
      · exact .inr (.inr (.inr dollar))
  exact ⟨fun _ cut => absurd (headers _ cut) (by decide), fun _ cut => absurd (headers _ cut) (by decide),
    fun more => absurd more (by decide), trivial⟩

theorem reassembles_overlapping :
    ∃ done later u, [setLetters] = done ++ later ∧ ([setLetters].flatMap encode).take (covered 0 overlapping) = done.flatMap encode ++ u ∧
      Segments.Partial (later.map encode) u ∧ (Machine.runTotal handleEvent startState (overlapping.map
        (Segment.event flowOne 0xFFFFFFF8 ([setLetters].flatMap encode)))).2.flatten.map Prod.fst = (done.filter writes).map encode :=
  forwarder_reassembles fits_setLetters (startState_at _)
    ⟨⟨by decide, by decide, by decide, by decide, rfl⟩, ⟨by decide, by decide, by decide, by decide, rfl⟩,
      ⟨by decide, by decide, by decide, by decide, rfl⟩, trivial⟩ uncut_overlapping

end Streams

end AICacheDB.Forwarder
