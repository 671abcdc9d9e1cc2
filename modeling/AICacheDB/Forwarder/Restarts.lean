import AICacheDB.Forwarder.Reassembly

open CLib Option Option
open List hiding getElem?_eq_some_iff

namespace AICacheDB.Forwarder

open Resp

section Complete

variable {u v tail : Bytes} {args : List Bytes} {n m pos q k : Nat}

theorem readDigits_large {l : List Nat} (small : ∀ d ∈ l, d < 10) (start : n ≤ flowBufMax)
    (large : flowBufMax < l.foldl (fun v d => v * 10 + d) n) (rest : Bytes) :
    readDigits n (l.map (fun d => UInt8.ofNat (48 + d)) ++ rest) = none := by
  induction l generalizing n with
  | nil => exact absurd large (not_lt.mpr start)
  | cons d l ih =>
    obtain ⟨digit, value⟩ := isDigit_place (small d (by simp))
    rw [foldl_cons] at large
    rw [map_cons, cons_append]
    by_cases beyond : flowBufMax < n * 10 + d
    · rw [readDigits, if_pos (show 48 ≤ UInt8.ofNat (48 + d) ∧ UInt8.ofNat (48 + d) ≤ 57 from digit), value,
        if_pos (by rw [Nat.add_sub_cancel_left]; exact beyond)]
    · rw [readDigits_digit digit (by rw [value, Nat.add_sub_cancel_left]; exact not_lt.mp beyond), value, Nat.add_sub_cancel_left,
        ih (fun d member => small d (by simp [member])) (not_lt.mp beyond) large]
      rfl

theorem readDigits_all {l : List Nat} (small : ∀ d ∈ l, d < 10) {w : Nat}
    (read : readDigits n (l.map fun d => UInt8.ofNat (48 + d)) = some (w, k)) : k = l.length := by
  induction l generalizing n k with
  | nil =>
    cases read
    rfl
  | cons d l ih =>
    obtain ⟨digit, _⟩ := isDigit_place (small d (by simp))
    rw [map_cons, readDigits, if_pos (show 48 ≤ UInt8.ofNat (48 + d) ∧ UInt8.ofNat (48 + d) ≤ 57 from digit)] at read
    split at read
    · cases read
    · obtain ⟨⟨w', k'⟩, rest, same⟩ := map_eq_some_iff.mp read
      cases same
      rw [ih (fun d member => small d (by simp [member])) rest, length_cons]

theorem number_of_field (at_ : (u ++ v).drop pos = decimal n ++ (ascii "\r\n" ++ tail)) (inside : pos ≤ u.length)
    (read : readNumberCrlf u pos = .number m q) : m = n ∧ q = pos + (decimal n).length + 2 ∧ q ≤ u.length := by
  by_cases fits : n ≤ flowBufMax
  · rcases readNumberCrlf_cut fits at_ inside with ⟨_, other⟩ | ⟨_, other⟩ | ⟨long, same⟩
    · rw [read] at other
      cases other
    · rw [read] at other
      cases other
    · rw [read] at same
      cases same
      exact ⟨rfl, rfl, long⟩
  · exfalso
    have small : ∀ d ∈ places n, d < 10 := fun d => places_lt
    rw [drop_append_of_le_length inside] at at_
    have whole : u.drop pos <+: decimal n ++ (ascii "\r\n" ++ tail) := ⟨v, at_⟩
    by_cases long : (decimal n).length ≤ (u.drop pos).length
    · -- All the digits are there.
      obtain ⟨rest, there⟩ := prefix_of_prefix_length_le (prefix_append _ _) whole long
      have refused := readDigits_large small (Nat.zero_le flowBufMax) (by rw [places_value]; omega) rest
      rw [← decimal_eq, there] at refused
      rw [readNumberCrlf, refused] at read
      cases read
    · -- Only digits are there.
      have digits : u.drop pos = ((places n).take (u.drop pos).length).map fun d => UInt8.ofNat (48 + d) := by
        rw [map_take, ← decimal_eq]
        exact prefix_iff_eq_take.mp
          (prefix_of_prefix_length_le whole (prefix_append _ _) (not_le.mp long).le)
      rw [readNumberCrlf] at read
      cases scan : readDigits 0 (u.drop pos) with
      | none =>
        rw [scan] at read
        cases read
      | some r =>
        obtain ⟨w, k⟩ := r
        rw [scan] at read
        dsimp only at read
        have all : k = u.length - pos := by
          rw [digits] at scan
          rw [readDigits_all (fun d member => small d (mem_of_mem_take member)) scan, ← length_map, ← digits, length_drop]
        split at read
        · cases read
        rw [if_pos (by omega)] at read
        cases read

theorem bulksLen_complete (at_ : (u ++ v).drop pos = args.flatMap bulk ++ tail) (inside : pos ≤ u.length)
    (done : bulksLen u args.length pos = .complete k) : k = pos + (args.flatMap bulk).length ∧ k ≤ u.length := by
  induction args generalizing pos with
  | nil =>
    cases done
    exact ⟨rfl, inside⟩
  | cons arg args ih =>
    rw [flatMap_cons, append_assoc] at at_
    have size := bulk_length arg
    have one : (u ++ v).drop pos =
        ascii "$" ++ (decimal arg.length ++ (ascii "\r\n" ++ (arg ++ (ascii "\r\n" ++ (args.flatMap bulk ++ tail))))) := by
      rw [at_, bulk]
      simp
    have two : (u ++ v).drop (pos + 1) =
        decimal arg.length ++ (ascii "\r\n" ++ (arg ++ (ascii "\r\n" ++ (args.flatMap bulk ++ tail)))) := drop_add one
    rw [length_cons, bulksLen] at done
    by_cases empty : u.length ≤ pos
    · rw [if_pos empty] at done
      cases done
    rw [if_neg empty] at done
    split at done
    · cases done
    cases read : readNumberCrlf u (pos + 1) with
    | malformed =>
      rw [read] at done
      cases done
    | incomplete =>
      rw [read] at done
      cases done
    | number bulkLen p =>
      obtain ⟨rfl, rfl, _⟩ := number_of_field two (show pos + 1 ≤ u.length by omega) read
      rw [read] at done
      dsimp only at done
      split at done
      · cases done
      split at done
      · cases done
      rename_i fits
      cases ends : crlf u (pos + 1 + (decimal arg.length).length + 2 + arg.length) with
      | none =>
        rw [ends] at done
        cases done
      | some p' =>
        obtain ⟨rfl, _⟩ := crlf_eq_some.mp ends
        rw [ends] at done
        dsimp only at done
        have next : (u ++ v).drop (pos + 1 + (decimal arg.length).length + 2 + arg.length + 2) = args.flatMap bulk ++ tail := by
          rw [← drop_add at_]
          congr 1
          omega
        obtain ⟨rfl, most⟩ := ih next (by omega) done
        rw [flatMap_cons, length_append]
        omega

theorem respCommandLen_complete (whole : u ++ v = encode args ++ tail) (done : respCommandLen u = .complete k) :
    k = (encode args).length ∧ k ≤ u.length := by
  have size := encode_length args
  have one : (u ++ v).drop 0 = ascii "*" ++ (decimal args.length ++ (ascii "\r\n" ++ (args.flatMap bulk ++ tail))) := by
    rw [whole, encode, drop_zero]
    simp
  have two : (u ++ v).drop 1 = decimal args.length ++ (ascii "\r\n" ++ (args.flatMap bulk ++ tail)) := drop_add one
  have four : (u ++ v).drop (1 + (decimal args.length).length + 2) = args.flatMap bulk ++ tail := drop_add (drop_add two)
  unfold respCommandLen at done
  split at done
  · cases done
  rename_i some_
  have length := length_pos_of_ne_nil some_
  split at done
  · cases done
  cases read : readNumberCrlf u 1 with
  | malformed =>
    rw [read] at done
    cases done
  | incomplete =>
    rw [read] at done
    cases done
  | number argc p =>
    obtain ⟨rfl, rfl, inside⟩ := number_of_field two length read
    rw [read] at done
    dsimp only at done
    split at done
    · cases done
    obtain ⟨rfl, most⟩ := bulksLen_complete four inside done
    exact ⟨by omega, most⟩

end Complete

section Passed

/-- The commands that the loop of `handle_event` takes out of a buffer, and what is left of it unless it is malformed. -/
def drainBuffer : Nat → Bytes → List Bytes × Option Bytes
  | 0, buf => ([], some buf)
  | n + 1, buf =>
    if buf = [] then ([], some [])
    else
      match respCommandLen buf with
      | .incomplete => ([], some buf)
      | .malformed => ([], none)
      | .complete cmdLen => (buf.take cmdLen :: (drainBuffer n (buf.drop cmdLen)).1, (drainBuffer n (buf.drop cmdLen)).2)

def absorb (now : Int) (st : FlowState) (payload : Bytes) : FlowState × List Bytes :=
  if flowBufMax < st.buf.length + payload.length then (resetFlowState now st, [])
  else
    match drainBuffer (st.buf ++ payload).length (st.buf ++ payload) with
    | (cmds, none) => (resetFlowState now st, cmds)
    | (cmds, some buf) => ({ st with buf := buf, lastSeen := now }, cmds)

def advance (now : Int) (st : FlowState) (e : Event) : FlowState × List Bytes :=
  if e.payload.length < e.fullLen.toNat then (resetFlowState now st, [])
  else
    match normalizePayloadBySeq now st e with
    | (st, none) => (st, [])
    | (st, some payload) => if payload = [] then (st, []) else absorb now st payload

def passed (f : State) (input : Event × EventEnv) : List Bytes :=
  if input.1.payload = [] ∨ maxData < input.1.payload.length then []
  else
    match getFlowState input.2.now input.2.malloc f.flows input.1.key with
    | (_, none) => []
    | (flows, some i) => (flows[i]?.map fun st => (advance input.2.now st input.1).2).getD []

def processAll (env : Nat → CommandEnv) : Nat → Relay → List Bytes → Relay × List (Bytes × Bool)
  | _, r, [] => (r, [])
  | i, r, cmd :: cmds =>
    let (r, push, _) := processFullCommand (env i) r cmd
    let (r, pushes) := processAll env (i + 1) r cmds
    (r, push.toList ++ pushes)

theorem drainFlow_eq (env : Nat → CommandEnv) (n i : Nat) (r : Relay) (buf : Bytes) :
    drainFlow env n i r buf = ((processAll env i r (drainBuffer n buf).1).1, (drainBuffer n buf).2,
      (processAll env i r (drainBuffer n buf).1).2) := by
  induction n generalizing i r buf with
  | zero => rfl
  | succ n ih =>
    rw [drainFlow, drainBuffer]
    by_cases empty : buf = []
    · rw [if_pos empty, if_pos empty]
      rfl
    · rw [if_neg empty, if_neg empty]
      cases respCommandLen buf with
      | incomplete => rfl
      | malformed => rfl
      | complete cmdLen =>
        dsimp only
        rw [ih]
        rfl

theorem modify_eq_set {flows : List FlowState} {i : Nat} {st : FlowState} (at_ : flows[i]? = some st) (g : FlowState → FlowState) :
    flows.modify i g = flows.set i (g st) := by
  apply ext_getElem?
  intro j
  by_cases same : i = j
  · subst same
    rw [getElem?_modify_eq, at_, getElem?_set_self (List.getElem?_eq_some_iff.mp at_).1]
    rfl
  · rw [getElem?_modify_ne _ _ same, getElem?_set_ne same]

def slotOf (key : FlowKey) (flows : List FlowState) : Option FlowState := (flows.findIdx? (ofFlow key)).bind fun i => flows[i]?

def Clean (flows : List FlowState) : Prop := ∀ st ∈ flows, st.used = false → st.haveSeq = false

variable {key : FlowKey} {flows flows' : List FlowState} {now : Int} {malloc : Bool}

theorem getFlowState_none (none_ : getFlowState now malloc flows key = (flows', none)) : flows' = flows ∧ slotOf key flows = none := by
  unfold getFlowState at none_
  cases slot : flows.findIdx? (ofFlow key) with
  | some j =>
    rw [show flows.findIdx? (fun st => st.used && st.key = key) = some j from slot] at none_
    cases none_
  | none =>
    rw [show flows.findIdx? (fun st => st.used && st.key = key) = none from slot] at none_
    refine ⟨?_, by rw [slotOf, slot, bind_none]⟩
    dsimp only at none_
    split at none_
    · cases none_
      rfl
    split at none_
    · cases none_
      rfl
    · cases none_

theorem getFlowState_some {i : Nat} (found : getFlowState now malloc flows key = (flows', some i)) (clean : Clean flows) :
    ∃ st, flows'[i]? = some st ∧ ofFlow key st = true ∧
      ((∃ old, slotOf key flows = some old ∧ st = { old with lastSeen := now }) ∨
        slotOf key flows = none ∧ st.haveSeq = false ∧ st.buf = []) ∧
      ∀ st', ofFlow key st' = true → slotOf key (flows'.set i st') = some st' ∧ Clean (flows'.set i st') := by
  have changed : ∀ {j st} (g : FlowState → FlowState), flows[j]? = some st → ofFlow key (g st) = true →
      (∀ k < j, ∀ y, flows[k]? = some y → ofFlow key y = false) → (flows.modify j g)[j]? = some (g st) ∧
        ∀ st', ofFlow key st' = true →
          slotOf key ((flows.modify j g).set j st') = some st' ∧ Clean ((flows.modify j g).set j st') := by
    intro j st g state own before
    refine ⟨by rw [getElem?_modify_eq, state]; rfl, fun st' own' => ⟨?_, ?_⟩⟩
    · obtain ⟨slot, here⟩ := slot_set g state before own'
      rw [slotOf, slot, bind_some, here]
    · intro y member unused
      rcases mem_or_eq_of_mem_set member with inside | rfl
      · rw [modify_eq_set state] at inside
        rcases mem_or_eq_of_mem_set inside with inside | rfl
        · exact clean y inside unused
        · rw [ofFlow, unused] at own
          cases own
      · rw [ofFlow, unused] at own'
        cases own'
  unfold getFlowState at found
  cases slot : flows.findIdx? (ofFlow key) with
  | some j =>
    rw [show flows.findIdx? (fun st => st.used && st.key = key) = some j from slot] at found
    cases found
    obtain ⟨inside, own, _⟩ := findIdx?_eq_some_iff_getElem.mp slot
    have state := getElem?_eq_getElem inside
    obtain ⟨here, sets⟩ := changed (fun st => { st with lastSeen := now }) state own (findIdx?_before slot)
    exact ⟨_, here, own, .inl ⟨_, by rw [slotOf, slot, bind_some, state], rfl⟩, sets⟩
  | none =>
    rw [show flows.findIdx? (fun st => st.used && st.key = key) = none from slot] at found
    dsimp only at found
    cases free : flows.findIdx? (fun st => !st.used) with
    | none =>
      rw [free] at found
      cases found
    | some j =>
      rw [free] at found
      dsimp only at found
      split at found
      · cases found
      · cases found
        obtain ⟨inside, unused, _⟩ := findIdx?_eq_some_iff_getElem.mp free
        have state := getElem?_eq_getElem inside
        have none_ := findIdx?_eq_none_iff.mp slot
        obtain ⟨here, sets⟩ := changed (fun st => { st with used := true, key := key, buf := [], lastSeen := now }) state
          (by simp [ofFlow]) (fun k _ y at_ => none_ y (mem_of_getElem? at_))
        have forgotten := clean _ (mem_of_getElem? state) (by simpa using unused)
        exact ⟨_, here, by simp [ofFlow], .inr ⟨by rw [slotOf, slot, bind_none], forgotten, rfl⟩, sets⟩

theorem handleEvent_eq {f : State} (clean : Clean f.flows) (e : Event) (env : EventEnv) :
    ((e.payload = [] ∨ maxData < e.payload.length ∨ slotOf e.key f.flows = none) ∧ passed f (e, env) = [] ∧
        handleEvent f (e, env) = (f, [])) ∨
      ∃ flows i st, e.payload ≠ [] ∧ e.payload.length ≤ maxData ∧ getFlowState env.now env.malloc f.flows e.key = (flows, some i) ∧
        flows[i]? = some st ∧ passed f (e, env) = (advance env.now st e).2 ∧
        handleEvent f (e, env) = (⟨flows.set i (advance env.now st e).1, (processAll env.command 0 f.relay (passed f (e, env))).1⟩,
          (processAll env.command 0 f.relay (passed f (e, env))).2) := by
  by_cases empty : e.payload = []
  · exact .inl ⟨.inl empty, by rw [passed, if_pos (.inl empty)], by rw [handleEvent]; exact if_pos empty⟩
  by_cases long : maxData < e.payload.length
  · refine .inl ⟨.inr (.inl long), by rw [passed, if_pos (.inr long)], ?_⟩
    rw [handleEvent]
    dsimp only
    rw [if_neg empty, if_pos long]
  rw [passed, if_neg (not_or.mpr ⟨empty, long⟩), handleEvent]
  dsimp only
  rw [if_neg empty, if_neg long]
  cases got : getFlowState env.now env.malloc f.flows e.key with
  | mk flows slot =>
    cases slot with
    | none =>
      obtain ⟨same, absent⟩ := getFlowState_none got
      rw [same]
      exact .inl ⟨.inr (.inr absent), rfl, rfl⟩
    | some i =>
      obtain ⟨st, state, _⟩ := getFlowState_some got clean
      refine .inr ⟨flows, i, st, empty, not_lt.mp long, rfl, state, by dsimp only; rw [state]; rfl, ?_⟩
      dsimp only
      rw [state, map_some, getD_some, modify_eq_set state, advance]
      by_cases truncated : e.payload.length < e.fullLen.toNat
      · rw [if_pos truncated, if_pos truncated]
        rfl
      rw [if_neg truncated, if_neg truncated]
      dsimp only
      cases normalized : normalizePayloadBySeq env.now st e with
      | mk st' payload =>
        cases payload with
        | none => rfl
        | some payload =>
          dsimp only
          by_cases nothing : payload = []
          · rw [if_pos nothing, if_pos nothing]
            rfl
          rw [if_neg nothing, if_neg nothing, absorb]
          by_cases beyond : flowBufMax < st'.buf.length + payload.length
          · rw [if_pos beyond, if_pos beyond]
            rfl
          rw [if_neg beyond, if_neg beyond, drainFlow_eq]
          cases drained : drainBuffer (st'.buf ++ payload).length (st'.buf ++ payload) with
          | mk cmds rest => cases rest <;> rfl

end Passed

section Captures

/-- A segment of a stream as it is captured: of its `full` bytes from the position `start` on, the first `len`. -/
structure Capture where
  start : Nat
  full : Nat
  len : Nat
  env : EventEnv

def Capture.event (key : FlowKey) (isn : UInt32) (stream : Bytes) (s : Capture) : Event × EventEnv :=
  (⟨key, isn + UInt32.ofNat s.start, UInt32.ofNat s.full, (stream.drop s.start).take s.len⟩, s.env)

structure Capture.Of (stream : Bytes) (s : Capture) : Prop where
  inside : s.start + s.full ≤ stream.length
  part : s.len ≤ s.full
  size : s.full < 2^32

def Reads (cmds : List (List Bytes)) (c : Nat) (u : Bytes) : Prop :=
  ∃ done rest, cmds = done ++ rest ∧ (cmds.flatMap encode).take c = done.flatMap encode ++ u

def Stands (cmds : List (List Bytes)) (isn : UInt32) : Option Nat → FlowState → Prop
  | none, st => st.haveSeq = false ∧ st.buf = []
  | some c, st => st.haveSeq = true ∧ st.nextSeq = isn + UInt32.ofNat c ∧ Reads cmds c st.buf

/-- A flow that has been reset goes on at the beginning of a command, and one that has come to a position goes on near to it. -/
def Resumes (cmds : List (List Bytes)) (s : Capture) : Option Nat → Prop
  | none => s.len = s.full → ∃ done rest, cmds = done ++ rest ∧ s.start = (done.flatMap encode).length
  | some c => s.start < c + 2^31 ∧ c < s.start + 2^31

variable {cmds : List (List Bytes)} {isn : UInt32} {c : Nat} {u : Bytes} {now : Int} {st : FlowState}

theorem Reads.drain (reads : Reads cmds c u) (n : Nat) :
    (∀ x ∈ (drainBuffer n u).1, x ∈ cmds.map encode) ∧ ∀ u', (drainBuffer n u).2 = some u' → Reads cmds c u' := by
  induction n generalizing u with
  | zero =>
    refine ⟨by simp [drainBuffer], fun u' same => ?_⟩
    cases same
    exact reads
  | succ n ih =>
    rw [drainBuffer]
    by_cases empty : u = []
    · rw [if_pos empty]
      refine ⟨by simp, fun u' same => ?_⟩
      cases same
      exact empty ▸ reads
    rw [if_neg empty]
    cases read : respCommandLen u with
    | malformed => exact ⟨by simp, by simp⟩
    | incomplete =>
      refine ⟨by simp, fun u' same => ?_⟩
      cases same
      exact reads
    | complete k =>
      obtain ⟨done, rest, split, bytes⟩ := reads
      have whole : u ++ (cmds.flatMap encode).drop c = rest.flatMap encode := by
        have stream := take_append_drop c (cmds.flatMap encode)
        rw [bytes] at stream
        nth_rewrite 2 [split] at stream
        rw [flatMap_append, append_assoc, append_cancel_left_eq] at stream
        exact stream
      cases rest with
      | nil => exact absurd (append_eq_nil_iff.mp whole).1 empty
      | cons args rest =>
        rw [flatMap_cons] at whole
        obtain ⟨rfl, most⟩ := respCommandLen_complete whole read
        have first : u.take (encode args).length = encode args := by
          rw [← take_append_of_le_length most, whole, take_left]
        have later : Reads cmds c (u.drop (encode args).length) := by
          refine ⟨done ++ [args], rest, by rw [split, append_assoc, singleton_append], ?_⟩
          rw [bytes, flatMap_append, flatMap_singleton, append_assoc]
          nth_rewrite 1 [← take_append_drop (encode args).length u]
          rw [first]
        obtain ⟨own, left⟩ := ih later
        refine ⟨fun x member => ?_, left⟩
        rcases mem_cons.mp member with rfl | member
        · rw [first]
          exact mem_map_of_mem (by rw [split]; simp)
        · exact own x member

structure Carried (cmds : List (List Bytes)) (isn : UInt32) (c : Nat) (st : FlowState) (r : FlowState × List Bytes) : Prop where
  own : ∀ x ∈ r.2, x ∈ cmds.map encode
  stands : Stands cmds isn none r.1 ∨ Stands cmds isn (some c) r.1
  used : r.1.used = st.used
  key : r.1.key = st.key

theorem carried_reset : Carried cmds isn c st (resetFlowState now st, []) := ⟨by simp, .inl ⟨rfl, rfl⟩, rfl, rfl⟩

theorem absorb_spec {payload : Bytes} (running : st.haveSeq = true) (next : st.nextSeq = isn + UInt32.ofNat c)
    (reads : Reads cmds c (st.buf ++ payload)) (now : Int) : Carried cmds isn c st (absorb now st payload) := by
  unfold absorb
  split
  · exact carried_reset
  · obtain ⟨own, left⟩ := reads.drain (st.buf ++ payload).length
    cases drained : drainBuffer (st.buf ++ payload).length (st.buf ++ payload) with
    | mk out rest =>
      rw [drained] at own left
      cases rest with
      | none => exact ⟨own, .inl ⟨rfl, rfl⟩, rfl, rfl⟩
      | some u' => exact ⟨own, .inr ⟨running, next, left u' rfl⟩, rfl, rfl⟩

theorem Reads.extend (reads : Reads cmds c u) {d : Nat} (order : c ≤ d) :
    Reads cmds d (u ++ ((cmds.flatMap encode).drop c).take (d - c)) := by
  obtain ⟨done, rest, split, bytes⟩ := reads
  refine ⟨done, rest, split, ?_⟩
  rw [← append_assoc, ← bytes, ← take_add, Nat.add_sub_of_le order]

theorem normalize_gap {e : Event} (running : st.haveSeq = true) (other : e.seq ≠ st.nextSeq) (after : tcpSeqBefore e.seq st.nextSeq = false) :
    normalizePayloadBySeq now st e = (resetFlowState now st, none) := by
  rw [normalizePayloadBySeq, if_neg (by rw [running]; decide), if_neg other, if_neg (by rw [after]; decide)]

theorem seq_after {a b : Nat} (order : a < b) (near : b - a < 2^31) :
    tcpSeqBefore (isn + UInt32.ofNat b) (isn + UInt32.ofNat a) = false := by
  apply Bool.eq_false_of_not_eq_true
  rw [tcpSeqBefore_iff, seq_sub order.le (by omega)]
  omega

theorem advance_spec {s : Capture} {key : FlowKey} {at_ : Option Nat} (of : s.Of (cmds.flatMap encode)) (some_ : s.len ≠ 0)
    (short : s.len ≤ maxData) (stands : Stands cmds isn at_ st) (resumes : Resumes cmds s at_) :
    Carried cmds isn (max (at_.getD 0) (s.start + s.full)) st (advance now st (s.event key isn (cmds.flatMap encode)).1) := by
  have inside := of.inside
  have part := of.part
  have full : (UInt32.ofNat s.full).toNat = s.full := by
    have size := of.size
    rw [UInt32.toNat_ofNat']
    omega
  have length : (((cmds.flatMap encode).drop s.start).take s.len).length = s.len := by
    rw [length_take, length_drop]
    omega
  rw [advance, Capture.event]
  dsimp only
  by_cases truncated : s.len < s.full
  · rw [if_pos (by omega)]
    exact carried_reset
  have whole : s.len = s.full := by omega
  rw [if_neg (by omega), whole]
  rw [whole] at length
  have real : ((cmds.flatMap encode).drop s.start).take s.full ≠ [] := ne_nil_of_length_pos (by omega)
  cases at_ with
  | none =>
    obtain ⟨closed, buf⟩ := stands
    obtain ⟨done, rest, split, start⟩ := resumes whole
    rw [normalizePayloadBySeq, if_pos closed]
    dsimp only
    rw [if_neg real, getD_none, Nat.zero_max]
    have begins : Reads cmds s.start [] := by
      refine ⟨done, rest, split, ?_⟩
      rw [split, flatMap_append, start, take_left, append_nil]
    have reads := begins.extend (Nat.le_add_right s.start s.full)
    rw [Nat.add_sub_cancel_left, nil_append] at reads
    have carried : Carried cmds isn (s.start + s.full) { st with haveSeq := true, nextSeq := isn + UInt32.ofNat s.start + UInt32.ofNat s.full } _ :=
      absorb_spec rfl (by rw [UInt32.add_assoc, ← UInt32.ofNat_add]) (by dsimp only; rw [buf]; exact reads) now
    exact ⟨carried.own, carried.stands, carried.used, carried.key⟩
  | some c =>
    obtain ⟨running, next, reads⟩ := stands
    obtain ⟨ahead, behind⟩ := resumes
    rw [getD_some]
    by_cases gap : c < s.start
    · rw [normalize_gap running (by rw [next]; exact (seq_ne gap (by omega)).symm) (by rw [next]; exact seq_after gap (by omega))]
      exact carried_reset
    · let seg : Segment := ⟨s.start, s.full, openEvent⟩
      have follows : seg.Follows (cmds.flatMap encode) c := by
        refine ⟨not_lt.mp gap, ?_, inside, whole.symm.trans_le short, rfl⟩
        show c - s.start < 2^31
        omega
      by_cases more : c < s.start + s.full
      · have normalized : normalizePayloadBySeq now st (seg.event key isn (cmds.flatMap encode)).1 = _ :=
          normalize_new follows more (.inl ⟨running, next⟩) now
        rw [Segment.event] at normalized
        dsimp only [seg] at normalized
        rw [normalized]
        dsimp only
        rw [if_neg, max_eq_right more.le]
        · have carried : Carried cmds isn (s.start + s.full) { st with haveSeq := true, nextSeq := isn + UInt32.ofNat (s.start + s.full) }
              (absorb now { st with haveSeq := true, nextSeq := isn + UInt32.ofNat (s.start + s.full) }
                (((cmds.flatMap encode).drop c).take (s.start + s.full - c))) := by
            refine absorb_spec rfl rfl ?_ now
            exact reads.extend more.le
          exact ⟨carried.own, carried.stands, carried.used, carried.key⟩
        · apply ne_nil_of_length_pos
          rw [length_take, length_drop]
          show 0 < min (s.start + s.full - c) _
          omega
      · have positive : 0 < s.full := by omega
        have normalized : normalizePayloadBySeq now st (seg.event key isn (cmds.flatMap encode)).1 = _ :=
          normalize_old follows positive (not_lt.mp more) running next now
        rw [Segment.event] at normalized
        dsimp only [seg] at normalized
        rw [normalized, max_eq_left (not_lt.mp more)]
        exact ⟨by simp, .inr ⟨running, next, reads⟩, rfl, rfl⟩

def isOpen (key : FlowKey) (flows : List FlowState) : Bool := (slotOf key flows).any FlowState.haveSeq

def Capture.position (key : FlowKey) (flows : List FlowState) (s : Capture) (at_ : Option Nat) : Option Nat :=
  if s.len = 0 ∨ maxData < s.len then at_
  else if isOpen key flows = true then some (max (at_.getD 0) (s.start + s.full))
  else none

structure Tracks (cmds : List (List Bytes)) (key : FlowKey) (isn : UInt32) (flows : List FlowState) (at_ : Option Nat) : Prop where
  clean : Clean flows
  stands : ∀ st, slotOf key flows = some st → Stands cmds isn at_ st
  absent : slotOf key flows = none → at_ = none

variable {key : FlowKey} {f : State} {s : Capture} {at_ : Option Nat}

theorem Stands.seen (stands : Stands cmds isn at_ st) (now : Int) : Stands cmds isn at_ { st with lastSeen := now } := by
  cases at_ <;> exact stands

theorem Tracks.step (tracks : Tracks cmds key isn f.flows at_) (of : s.Of (cmds.flatMap encode)) (resumes : Resumes cmds s at_) :
    (∀ x ∈ passed f (s.event key isn (cmds.flatMap encode)), x ∈ cmds.map encode) ∧
      Tracks cmds key isn (handleEvent f (s.event key isn (cmds.flatMap encode))).1.flows
        (s.position key (handleEvent f (s.event key isn (cmds.flatMap encode))).1.flows at_) := by
  have length : (((cmds.flatMap encode).drop s.start).take s.len).length = s.len := by
    have inside := of.inside
    have part := of.part
    rw [length_take, length_drop]
    omega
  rcases handleEvent_eq tracks.clean (s.event key isn (cmds.flatMap encode)).1 s.env with
    ⟨why, nothing, same⟩ | ⟨flows, i, st, real, short, got, state, out, result⟩
  · rw [show passed f (s.event key isn (cmds.flatMap encode)) = [] from nothing,
      show handleEvent f (s.event key isn (cmds.flatMap encode)) = _ from same]
    refine ⟨by simp, ?_⟩
    have stays : s.position key f.flows at_ = at_ := by
      unfold Capture.position
      split
      · rfl
      · rename_i taken
        rw [not_or] at taken
        rcases why with empty | long | gone
        · exact absurd (length.symm.trans (congrArg List.length empty)) taken.1
        · exact absurd (by rw [← length]; exact long) taken.2
        · rw [isOpen, show slotOf key f.flows = none from gone, tracks.absent gone]
          rfl
    rw [stays]
    exact tracks
  · obtain ⟨st', state', own, origin, sets⟩ := getFlowState_some got tracks.clean
    obtain rfl := some.inj (state.symm.trans state')
    have stands : Stands cmds isn at_ st := by
      rcases origin with ⟨old, found, rfl⟩ | ⟨gone, closed, buf⟩
      · exact (tracks.stands old found).seen s.env.now
      · rw [tracks.absent gone]
        exact ⟨closed, buf⟩
    have some_ : s.len ≠ 0 := by
      intro zero
      rw [zero] at length
      exact real (by show ((cmds.flatMap encode).drop s.start).take s.len = []; rw [zero]; exact length_eq_zero_iff.mp length)
    have few : s.len ≤ maxData := by rw [← length]; exact short
    have carried : Carried cmds isn _ st (advance s.env.now st (s.event key isn (cmds.flatMap encode)).1) :=
      advance_spec of some_ few stands resumes
    have own' : ofFlow key (advance s.env.now st (s.event key isn (cmds.flatMap encode)).1).1 = true := by
      rw [ofFlow, carried.used, carried.key]
      exact own
    obtain ⟨slot, clean⟩ := sets _ own'
    rw [show passed f (s.event key isn (cmds.flatMap encode)) = _ from out,
      show handleEvent f (s.event key isn (cmds.flatMap encode)) = _ from result]
    refine ⟨carried.own, clean, fun st1 found => ?_, fun gone => ?_⟩
    · obtain rfl := some.inj (slot.symm.trans found)
      rw [Capture.position, if_neg (not_or.mpr ⟨some_, not_lt.mpr few⟩), isOpen]
      dsimp only
      rw [show slotOf key _ = some _ from slot, any_some]
      rcases carried.stands with closed | running
      · rw [if_neg (by rw [closed.1]; decide)]
        exact closed
      · rw [if_pos running.1]
        exact running
    · rw [show slotOf key _ = some _ from slot] at gone
      cases gone

/-- Every segment finds the flow near to it, or reset; and one that finds it reset begins a command, if it is not cut off. -/
def Resumed (cmds : List (List Bytes)) (key : FlowKey) (isn : UInt32) : State → Option Nat → List Capture → Prop
  | _, _, [] => True
  | f, at_, s :: segs =>
    Resumes cmds s at_ ∧ Resumed cmds key isn (handleEvent f (s.event key isn (cmds.flatMap encode))).1
      (s.position key (handleEvent f (s.event key isn (cmds.flatMap encode))).1.flows at_) segs

def handleStep (f : State) (input : Event × EventEnv) : State × List Bytes := ((handleEvent f input).1, passed f input)

theorem Tracks.run {segs : List Capture} (tracks : Tracks cmds key isn f.flows at_) (of : ∀ s ∈ segs, s.Of (cmds.flatMap encode))
    (resumed : Resumed cmds key isn f at_ segs) :
    ∀ x ∈ (Machine.runTotal handleStep f (segs.map (Capture.event key isn (cmds.flatMap encode)))).2.flatten, x ∈ cmds.map encode := by
  induction segs generalizing f at_ with
  | nil => simp
  | cons s segs ih =>
    obtain ⟨own, next⟩ := tracks.step (of s (by simp)) resumed.1
    have rest := ih next (fun s' member => of s' (by simp [member])) resumed.2
    intro x member
    rw [map_cons, Machine.runTotal_cons, flatten_cons, mem_append] at member
    exact member.elim (own x) (rest x)

def Idle (key : FlowKey) (flows : List FlowState) : Prop :=
  Clean flows ∧ ∀ st, slotOf key flows = some st → st.haveSeq = false ∧ st.buf = []

/-- Whatever is lost, cut off, repeated or out of order, only commands of the stream are processed in every run in which a flow
    that was reset resumes where a command begins. -/
theorem forwarder_invents_nothing {segs : List Capture} (idle : Idle key f.flows) (of : ∀ s ∈ segs, s.Of (cmds.flatMap encode))
    (resumed : Resumed cmds key isn f none segs) :
    ∀ x ∈ (Machine.runTotal handleStep f (segs.map (Capture.event key isn (cmds.flatMap encode)))).2.flatten, x ∈ cmds.map encode := by
  have tracks : Tracks cmds key isn f.flows none := ⟨idle.1, idle.2, fun _ => rfl⟩
  exact tracks.run of resumed

theorem startState_idle (key : FlowKey) : Idle key startState.flows := by
  have unused : ∀ st ∈ startState.flows, st = .zero := fun st member => eq_of_mem_replicate member
  refine ⟨fun st member _ => by rw [unused st member]; rfl, fun st found => ?_⟩
  have absent : startState.flows.findIdx? (ofFlow key) = none :=
    findIdx?_eq_none_iff.mpr fun st member => by rw [unused st member]; rfl
  rw [slotOf, absent] at found
  cases found

def hiddenSet : List Bytes := [ascii "SET", ascii "k", encode [ascii "SET", ascii "x", ascii "y"]]

def lostHeader : List Capture := [⟨25, 29, 29, openEvent⟩]

theorem lost_header_invents : (∀ s ∈ lostHeader, s.Of ([hiddenSet].flatMap encode)) ∧ Idle flowOne startState.flows ∧
      (Machine.runTotal handleStep startState (lostHeader.map (Capture.event flowOne 0 ([hiddenSet].flatMap encode)))).2.flatten =
        [encode [ascii "SET", ascii "x", ascii "y"]] ∧
      encode [ascii "SET", ascii "x", ascii "y"] ∉ [hiddenSet].map encode := by
  refine ⟨?_, startState_idle flowOne, by decide +kernel, by decide⟩
  intro s member
  rw [mem_singleton.mp member]
  exact ⟨by decide, by decide, by decide⟩

def cutOff : List Capture := [⟨0, 27, 10, openEvent⟩, ⟨27, 27, 27, openEvent⟩]

theorem invents_nothing_cutOff : Idle flowOne startState.flows ∧
    ∀ x ∈ (Machine.runTotal handleStep startState (cutOff.map (Capture.event flowOne 0 ([setLetters, setLetters].flatMap encode)))).2.flatten,
      x ∈ [setLetters, setLetters].map encode := by
  have idle := startState_idle flowOne
  refine ⟨idle, forwarder_invents_nothing idle ?_ ⟨fun whole => absurd whole (by decide), ?_, trivial⟩⟩
  · intro s member
    rcases mem_pair.mp member with rfl | rfl <;> exact ⟨by decide, by decide, by decide⟩
  · have reset : Capture.position flowOne (handleEvent startState (Capture.event flowOne 0 ([setLetters, setLetters].flatMap encode)
        ⟨0, 27, 10, openEvent⟩)).1.flows ⟨0, 27, 10, openEvent⟩ none = none := by decide +kernel
    rw [reset]
    exact fun _ => ⟨[setLetters], [setLetters], rfl, by decide⟩

end Captures

end AICacheDB.Forwarder
