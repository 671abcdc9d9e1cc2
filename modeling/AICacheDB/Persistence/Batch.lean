import AICacheDB.Persistence.Uring

open CLib List Function

namespace AICacheDB

structure FillResult where
  ret : Int
  slots : Nat → Option Bytes
  req : AofWriteReq
  localReadIdx : Nat

/-- The loop of `aof_fill_batch` with `n` positions left; `memory k` says whether the `realloc` at position `k` succeeds, and `none`
    is a `memcpy` past the end of the buffer. -/
def fillLoop (memory : Nat → Bool) : Nat → (Nat → Option Bytes) → AofWriteReq → Nat → Nat → Option FillResult
  | 0, slots, req, localReadIdx, batchLen =>
    some ⟨if 0 < batchLen then 1 else 0, slots, { req with len := batchLen, written := 0 }, localReadIdx⟩
  | n + 1, slots, req, localReadIdx, batchLen =>
    let idx := localReadIdx % aofRingCapacity
    match slots idx with
    | none => fillLoop memory n slots req (localReadIdx + 1) batchLen
    | some data =>
      if req.cap < data.length ∧ batchLen = 0 ∧ memory localReadIdx = false then some ⟨-1, slots, req, localReadIdx⟩
      else
        let req := if req.cap < data.length ∧ batchLen = 0 then { req with cap := data.length } else req
        if 0 < batchLen ∧ req.cap < batchLen + data.length then
          some ⟨1, slots, { req with len := batchLen, written := 0 }, localReadIdx⟩
        else if req.cap < batchLen + data.length then none
        else
          let buf := req.buf.take batchLen ++ data ++ req.buf.drop (batchLen + data.length)
          fillLoop memory n (Function.update slots idx none) { req with buf := buf } (localReadIdx + 1) (batchLen + data.length)

def aofFillBatch (memory : Nat → Bool) (ring : AofRing) (req : AofWriteReq) (localReadIdx : Nat) : Option FillResult :=
  fillLoop memory (ring.writeIdx - localReadIdx) ring.slots req localReadIdx 0

/-- A round of the worker's loop is a round of this one. -/
theorem Aof.fillBatch_round {s : Aof} {submitted i writeIdx batchLen : Nat} (filling : s.pc = .fill submitted i writeIdx batchLen)
    (more : s.localReadIdx < writeIdx) (memory : Nat → Bool) (n : Nat) :
    let t := s.fillBatch (memory s.localReadIdx) submitted i writeIdx batchLen
    fillLoop memory (n + 1) s.ring.slots (s.disk.reqs i) s.localReadIdx batchLen =
      match t.pc with
      | .fill _ _ _ batchLen' => fillLoop memory n t.ring.slots (t.disk.reqs i) t.localReadIdx batchLen'
      | .prep _ _ => some ⟨1, t.ring.slots, t.disk.reqs i, t.localReadIdx⟩
      | _ => some ⟨-1, t.ring.slots, t.disk.reqs i, t.localReadIdx⟩ := by
  dsimp only
  rw [fillLoop, Aof.fillBatch, if_pos more]
  have self : ∀ req, (s.disk.setReq i req).reqs i = req := fun _ => update_self ..
  cases found : s.ring.slots (s.localReadIdx % aofRingCapacity) with
  | none => simp only [found, filling]
  | some data =>
    simp only [found]
    by_cases grows : (s.disk.reqs i).cap < data.length ∧ batchLen = 0
    · cases given : memory s.localReadIdx <;> simp [grows, self, Aof.setIoError]
    · have asks : ¬ ((s.disk.reqs i).cap < data.length ∧ batchLen = 0 ∧ memory s.localReadIdx = false) := fun failed =>
        grows ⟨failed.1, failed.2.1⟩
      simp only [asks, grows, if_false]
      by_cases full : 0 < batchLen ∧ (s.disk.reqs i).cap < batchLen + data.length
      · simp [Aof.closeBatch, full, self]
      · simp [show ¬ (s.disk.reqs i).cap < batchLen + data.length by omega, self]

/-- The slots of `n` positions from `start` on, each once and in ring order. -/
def ringWindow (start n : Nat) : List Nat := (List.range (min n aofRingCapacity)).map fun j => (start + j) % aofRingCapacity

theorem mem_ringWindow_self (start n : Nat) : (start + n) % aofRingCapacity ∈ ringWindow start n ↔ aofRingCapacity ≤ n := by
  simp only [ringWindow, mem_map, mem_range, aofRingCapacity]
  constructor
  · rintro ⟨j, early, same⟩
    omega
  · intro long
    exact ⟨n % 16777216, by omega, by omega⟩

theorem ringWindow_succ (start n : Nat) : ringWindow start (n + 1) =
    ringWindow start n ++ if n < aofRingCapacity then [(start + n) % aofRingCapacity] else [] := by
  unfold ringWindow
  split
  · next early => rw [Nat.min_eq_left early, Nat.min_eq_left early.le, range_succ, map_append, map_singleton]
  · next late => rw [Nat.min_eq_right (by omega), Nat.min_eq_right (by omega), append_nil]

section Filling

variable {ring slots : Nat → Option Bytes} {start n batchLen : Nat} {req : AofWriteReq}

structure Filling (ring : Nat → Option Bytes) (start n : Nat) (slots : Nat → Option Bytes) (req : AofWriteReq) (batchLen : Nat) : Prop where
  emptied : ∀ idx, slots idx = if idx ∈ ringWindow start n then none else ring idx
  holds : req.buf.take batchLen = ((ringWindow start n).filterMap ring).flatten
  len : batchLen = ((ringWindow start n).filterMap ring).flatten.length
  fits : batchLen ≤ req.cap

section

variable (filling : Filling ring start n slots req batchLen)

include filling

theorem Filling.next :
    (ringWindow start (n + 1)).filterMap ring = (ringWindow start n).filterMap ring ++ (slots ((start + n) % aofRingCapacity)).toList ∧
    ∀ idx, update slots ((start + n) % aofRingCapacity) none idx = if idx ∈ ringWindow start (n + 1) then none else ring idx := by
  have here := filling.emptied ((start + n) % aofRingCapacity)
  rw [ringWindow_succ]
  split
  · next early =>
    rw [if_neg (by rw [mem_ringWindow_self]; omega)] at here
    constructor
    · rw [filterMap_append, filterMap_cons, here]
      cases ring _ <;> rfl
    · intro idx
      by_cases same : idx = (start + n) % aofRingCapacity
      · rw [same, update_self, if_pos (by simp)]
      · rw [update_of_ne same, filling.emptied]
        simp [same]
  · next late =>
    rw [if_pos ((mem_ringWindow_self start n).mpr (by omega))] at here
    rw [update_eq_self_iff.mpr here.symm, here, append_nil]
    exact ⟨(append_nil _).symm, filling.emptied⟩

theorem Filling.skip (empty : slots ((start + n) % aofRingCapacity) = none) :
    Filling ring start (n + 1) slots req batchLen := by
  obtain ⟨taken, emptied⟩ := filling.next
  rw [update_eq_self_iff.mpr empty.symm] at emptied
  rw [empty, Option.toList_none, append_nil] at taken
  exact ⟨emptied, taken ▸ filling.holds, taken ▸ filling.len, filling.fits⟩

theorem Filling.copy {data : Bytes}
    (found : slots ((start + n) % aofRingCapacity) = some data) {cap : Nat} (fits : batchLen + data.length ≤ cap) :
    Filling ring start (n + 1) (update slots ((start + n) % aofRingCapacity) none)
      { req with cap := cap, buf := req.buf.take batchLen ++ data ++ req.buf.drop (batchLen + data.length) } (batchLen + data.length) := by
  obtain ⟨taken, emptied⟩ := filling.next
  have size := filling.len
  rw [found, Option.toList_some] at taken
  refine ⟨emptied, ?_, ?_, fits⟩
  · rw [taken, flatten_append, flatten_singleton, filling.holds, take_left']
    rw [length_append, ← size]
  · rw [taken, flatten_append, flatten_singleton, length_append, ← size]

/-- No copy overflows the buffer; a call that does not fail has seen all of the window or has something to write. -/
def Fills (ring : Nat → Option Bytes) (start window : Nat) (result : Option FillResult) : Prop :=
  ∃ out, result = some out ∧ (0 ≤ out.ret → ∃ n, out.localReadIdx = start + n ∧
    Filling ring start n out.slots out.req out.req.len ∧ (n = window ∨ 0 < out.req.len))

theorem Filling.ends {window : Nat} (ret : Int) (last : n = window ∨ 0 < batchLen) :
    Fills ring start window (some ⟨ret, slots, { req with len := batchLen, written := 0 }, start + n⟩) :=
  ⟨_, rfl, fun _ => ⟨n, rfl, ⟨filling.emptied, filling.holds, filling.len, filling.fits⟩, last⟩⟩

end

theorem Filling.loop (memory : Nat → Bool) {m window : Nat} (left : window = n + m) (filling : Filling ring start n slots req batchLen) :
    Fills ring start window (fillLoop memory m slots req (start + n) batchLen) := by
  induction m generalizing n slots req batchLen with
  | zero => exact filling.ends _ (.inl left.symm)
  | succ m ih =>
    rw [fillLoop]
    cases found : slots ((start + n) % aofRingCapacity) with
    | none => exact ih (by omega) (filling.skip found)
    | some data =>
      dsimp only
      by_cases grows : req.cap < data.length ∧ batchLen = 0
      · cases given : memory (start + n) with
        | false =>
          rw [if_pos ⟨grows.1, grows.2, rfl⟩]
          exact ⟨_, rfl, by simp⟩
        | true =>
          rw [if_neg (by simp), if_pos grows, if_neg (show ¬ data.length < _ by omega), if_neg (by omega)]
          exact ih (by omega) (filling.copy found (show _ ≤ data.length by omega))
      · rw [if_neg fun failed => grows ⟨failed.1, failed.2.1⟩, if_neg grows]
        split
        · next full => exact filling.ends 1 (.inr full.1)
        · rw [if_neg (by omega)]
          exact ih (by omega) (filling.copy found (by omega))

end Filling

/-- The buffer holds what stood between the two read positions, and no copy went past its end. -/
theorem aofFillBatch_exact (memory : Nat → Bool) (ring : AofRing) (req : AofWriteReq) (localReadIdx : Nat) :
    ∃ out, aofFillBatch memory ring req localReadIdx = some out ∧ (0 ≤ out.ret →
      let window := ringWindow localReadIdx (out.localReadIdx - localReadIdx)
      localReadIdx ≤ out.localReadIdx ∧ out.req.buf.take out.req.len = (window.filterMap ring.slots).flatten ∧
      out.req.len = (window.filterMap ring.slots).flatten.length ∧ out.req.len ≤ out.req.cap ∧
      (∀ idx, out.slots idx = if idx ∈ window then none else ring.slots idx) ∧
      ∀ k, localReadIdx ≤ k → k < ring.writeIdx → ring.slots (k % aofRingCapacity) ≠ none →
        ∃ j, localReadIdx ≤ j ∧ j < out.localReadIdx ∧ ring.slots (j % aofRingCapacity) ≠ none) := by
  have start : Filling ring.slots localReadIdx 0 ring.slots req 0 := by constructor <;> simp [ringWindow]
  obtain ⟨out, ran, rest⟩ := start.loop memory (Nat.zero_add (ring.writeIdx - localReadIdx)).symm
  refine ⟨out, ran, fun good => ?_⟩
  obtain ⟨n, reached, filling, ended⟩ := rest good
  dsimp only
  rw [reached, Nat.add_sub_cancel_left]
  refine ⟨Nat.le_add_right _ _, filling.holds, filling.len, filling.fits, filling.emptied, fun k low high present => ?_⟩
  rcases ended with whole | some_
  · exact ⟨k, low, by omega, present⟩
  · -- the batch is not empty, so a slot of the window held something
    rw [filling.len] at some_
    obtain ⟨data, held, _⟩ := flatten_ne_nil_iff.mp (length_pos_iff.mp some_)
    obtain ⟨idx, inside, there⟩ := mem_filterMap.mp held
    obtain ⟨j, early, rfl⟩ := mem_map.mp inside
    rw [mem_range] at early
    exact ⟨localReadIdx + j, by omega, by omega, by rw [there]; exact Option.some_ne_none _⟩

end AICacheDB
