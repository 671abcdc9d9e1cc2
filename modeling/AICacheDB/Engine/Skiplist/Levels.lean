import AICacheDB.Engine.Skiplist.Calls

open CLib List

namespace AICacheDB.KvsSkiplist

/-- The nodes that the pointers of level `i` lead through from a cursor. -/
def levelWalk (s : KvsSkiplist) (i : Nat) : Nat → Cursor → Option (List (Addr × CString))
  | 0, _ => none
  | fuel + 1, cur => do
    let next ← s.forward cur i
    match next with
    | none => some []
    | some a => do
      let node ← s.mem a
      let rest ← levelWalk s i fuel (some a)
      some ((a, node.key) :: rest)

def levelNodes (s : KvsSkiplist) (i : Nat) : Option (List (Addr × CString)) := s.levelWalk i (s.brk + 1) none

/-- Each level is a sorted part of the one below, `size` counts the bottom one, and the header has nothing above the top. -/
structure Layered (s : KvsSkiplist) (nodes : Nat → List (Addr × CString)) : Prop where
  levels : ∀ i ≤ s.level, s.levelNodes i = some (nodes i)
  sorted : ∀ i ≤ s.level, (nodes i).Pairwise fun p q => p.2 < q.2
  sublist : ∀ i < s.level, (nodes (i + 1)).Sublist (nodes i)
  size : s.size = (nodes 0).length
  header : ∀ i, s.level < i → i ≤ skiplistMaxLevel → s.header[i]? = some none

section Levels

variable {s : KvsSkiplist} {L : List SkipCell}

def levelCells (L : List SkipCell) (i : Nat) : List (Addr × CString) :=
  (L.filter fun c => i ≤ c.height).map fun c => (c.addr, c.key)

theorem levelCells_of_low {i : Nat} {ys : List SkipCell} (low : ∀ c ∈ ys, c.height < i) : levelCells ys i = [] := by
  have empty : ys.filter (fun c => i ≤ c.height) = [] := by simpa using low
  rw [levelCells, empty, map_nil]

theorem levelWalk_spec (linked : Linked s L) (i fuel : Nat) {xs ys : List SkipCell} (split : L = xs ++ ys) (start : i ≤ top xs)
    (enough : ys.length < fuel) : s.levelWalk i fuel (cursorOf xs) = some (levelCells ys i) := by
  induction fuel generalizing xs ys with
  | zero => omega
  | succ fuel ih =>
    have read := linked.links xs ys split i start
    cases found : ys.find? (fun c => i ≤ c.height) with
    | none =>
      have low : ∀ c ∈ ys, c.height < i := by simpa using found
      rw [nextAt, found] at read
      rw [levelCells_of_low low]
      simp [levelWalk, read]
    | some d =>
      obtain ⟨high, as, bs, rfl, low⟩ := find?_eq_some_iff_append.mp found
      have lowAs : as.filter (fun c => i ≤ c.height) = [] := by simpa using low
      have tall : i ≤ d.height := by simpa using high
      obtain ⟨node, live, key, _⟩ := linked.cells d (by simp [split])
      rw [nextAt, found, Option.map_some] at read
      have next : L = (xs ++ as ++ [d]) ++ bs := by simp [split]
      have less : bs.length < fuel := by
        simp only [length_append, length_cons] at enough
        omega
      have rest := ih next (by rw [top_concat]; exact tall) less
      rw [cursorOf_concat] at rest
      have cells : levelCells (as ++ d :: bs) i = (d.addr, d.key) :: levelCells bs i := by
        simp [levelCells, lowAs, tall]
      simp [levelWalk, read, live, key, rest, cells]

theorem layered (valid : SkipValid s L) : Layered s (levelCells L) := by
  refine ⟨fun i small => ?_, fun i _ => ?_, fun i _ => ?_, ?_, fun i high limit => ?_⟩
  · have short := valid.linked.length_le
    have room : i ≤ top [] := small.trans valid.level
    exact levelWalk_spec valid.linked i (s.brk + 1) (nil_append L).symm room (by omega)
  · rw [levelCells, pairwise_map]
    exact valid.sorted.filter _
  · have narrower : (L.filter fun c => i + 1 ≤ c.height) = (L.filter fun c => i ≤ c.height).filter fun c => i + 1 ≤ c.height := by
      rw [filter_filter]
      apply filter_congr
      intro c _
      rw [← Bool.decide_and, decide_eq_decide]
      omega
    rw [levelCells, levelCells, narrower]
    exact filter_sublist.map _
  · have all : (L.filter fun c => 0 ≤ c.height) = L := by simp
    rw [valid.size, levelCells, length_map, all]
  · have read : s.header[i]? = some (nextAt i L) := valid.linked.links [] L rfl i limit
    have low : ∀ c ∈ L, c.height < i := fun c member => (valid.heights c member).trans_lt high
    have nothing := nextAt_append_of_low low []
    rw [append_nil] at nothing
    rw [read, nothing]
    rfl

theorem mem_bottom_iff (k : CString) : k ∈ (levelCells L 0).map Prod.snd ↔ (cellEntries L k).isSome = true := by
  rw [Option.isSome_iff_ne_none, Ne, cellEntries, KvMap.ofList_eq_none_iff]
  simp [levelCells]

end Levels

theorem holds_create : Holds kvsSkiplistCreate [] := by
  refine ⟨⟨⟨fun xs ys split i start => ?_, by simp, length_replicate, by simp, ?_⟩, by simp, by simp, Nat.zero_le _, rfl⟩,
    by simp⟩
  · obtain ⟨rfl, rfl⟩ := append_eq_nil_iff.mp split.symm
    have small : i < skiplistMaxLevel + 1 := Nat.lt_succ_of_le start
    simp [forward, kvsSkiplistCreate, nextAt, small]
  · intro a node live
    cases live

/-- From a new list the engine is a map in which `get`, `exist` and the scan drop expired entries, whatever levels are drawn. -/
theorem skiplist_run_refines (calls : List KvCall) (levels : ∀ c ∈ calls, c.level ≤ skiplistMaxLevel) :
    ∃ s rets nodes, Machine.run (skiplistEngine.call Alloc.ok) kvsSkiplistCreate calls = some (s, rets) ∧
      rets = (Machine.runTotal (KvMap.step skiplistPolicy) KvMap.empty calls).2 ∧
      skiplistLookup s = (Machine.runTotal (KvMap.step skiplistPolicy) KvMap.empty calls).1 ∧ Layered s nodes ∧
      ∀ k, k ∈ (nodes 0).map Prod.snd ↔ (skiplistLookup s k).isSome = true := by
  have start : skiplistLookup kvsSkiplistCreate = KvMap.empty := skiplistLookup_eq holds_create.valid
  have admitted : Machine.Meets (skiplistEngine.call Alloc.ok) (fun _ c => c.level ≤ skiplistMaxLevel) kvsSkiplistCreate calls :=
    .of_forall fun _ c member => levels c member
  obtain ⟨s, rets, ran, ⟨L, holds⟩, entries, outputs⟩ :=
    CallRefines.run (fun _ _ valid limit => skip_call_refines valid limit) ⟨[], holds_create⟩ admitted
  rw [start] at entries outputs
  refine ⟨s, rets, levelCells L, ran, forall₂_eq_eq_eq ▸ outputs, entries, layered holds.valid, fun k => ?_⟩
  rw [skiplistLookup_eq holds.valid]
  exact mem_bottom_iff k

def lapseCalls : List KvCall :=
  [⟨.set (.ofBytes [97]) (.ofBytes [120]) 5, 0, 3⟩, ⟨.set (.ofBytes [98]) (.ofBytes [121]) (-1), 1, 0⟩,
    ⟨.get (.ofBytes [97]), 9, 0⟩]

theorem skiplist_run_refines_lapse : ∃ s rets nodes,
    Machine.run (skiplistEngine.call Alloc.ok) kvsSkiplistCreate lapseCalls = some (s, rets) ∧
    rets = (Machine.runTotal (KvMap.step skiplistPolicy) KvMap.empty lapseCalls).2 ∧
    skiplistLookup s = (Machine.runTotal (KvMap.step skiplistPolicy) KvMap.empty lapseCalls).1 ∧
    Layered s nodes ∧ ∀ k, k ∈ (nodes 0).map Prod.snd ↔ (skiplistLookup s k).isSome = true :=
  skiplist_run_refines lapseCalls (by decide)

end AICacheDB.KvsSkiplist
