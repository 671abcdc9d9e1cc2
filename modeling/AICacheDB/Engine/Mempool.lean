import AICacheDB.Library.Extents
import AICacheDB.Library.Run
import Mathlib.Algebra.Group.Nat.Defs
import Mathlib.Data.List.Perm.Subperm

open Extents List Option

namespace AICacheDB

/-- A block of small results; its header takes 24 bytes. -/
structure MpNode where
  addr : Nat
  last : Nat
  endp : Nat
  low : addr + 24 ≤ last
  fits : last ≤ endp

/-- A large result, with the size that stands in the 8 bytes before it; the list node takes 16 bytes. -/
structure MpLarge where
  addr : Nat
  alloc : Nat
  size : Nat
  low : 8 ≤ alloc
  full : 0 < size
  deriving DecidableEq

/-- The pool, with the blocks that it has from `malloc` and has not freed. -/
structure MpPool where
  max : Nat
  head : List MpNode
  large : List MpLarge
  blocks : List Extent

def kvsMempoolCreate (blockSize : Int) (given : Option Nat) : Option MpPool :=
  if small : blockSize ≤ 24 then none
  else given.map fun a =>
    ⟨blockSize.toNat - 24, [⟨a, a + 24, a + blockSize.toNat, Nat.le_refl _, by omega⟩], [], [(a, blockSize.toNat)]⟩

def takeNode (size : Nat) : List MpNode → Option (Nat × List MpNode)
  | [] => none
  | n :: rest =>
    if room : size ≤ n.endp - n.last then
      some (n.last, ⟨n.addr, n.last + size, n.endp, Nat.le_add_right_of_le n.low, by have := n.fits; omega⟩ :: rest)
    else (takeNode size rest).map fun r => (r.1, n :: r.2)

/-- `first` and `second` are what `malloc` gives to the call. -/
def kvsMempoolAlloc (m : MpPool) (size : Nat) (first second : Option Nat) : Option Nat × MpPool :=
  if empty : size = 0 then (none, m)
  else if small : size ≤ m.max then
    match takeNode size m.head with
    | some (ptr, head) => (some ptr, { m with head := head })
    | none =>
      match first with
      | none => (none, m)
      | some a =>
        let nodeSize := m.max + 24
        (some (a + 24), { m with
          head := m.head ++ [⟨a, a + 24 + size, a + nodeSize, by omega, by omega⟩], blocks := (a, nodeSize) :: m.blocks })
  else
    let allocSize := (size + 8) % 2 ^ 64
    match first, second with
    | some raw, some node =>
      (some (raw + 8), { m with
        large := ⟨node, raw + 8, size, by omega, by omega⟩ :: m.large, blocks := (node, 16) :: (raw, allocSize) :: m.blocks })
    | _, _ => (none, m) -- a block without its list node is freed again

/-- `free`; `none` for a pointer that `malloc` has not given. -/
def freeBlock (blocks : List Extent) (ptr : Nat) : Option (List Extent) := (blocks.find? fun b => b.1 = ptr).map blocks.erase

def kvsMempoolFree (m : MpPool) (ptr : Nat) : Option MpPool :=
  match m.large.find? fun l => l.alloc = ptr with
  | none => some m
  | some l => do
    let blocks ← freeBlock (← freeBlock m.blocks (ptr - 8)) l.addr
    some { m with large := m.large.erase l, blocks := blocks }

inductive MpCall where
  | alloc (size : Nat) (first second : Option Nat)
  | free (ptr : Nat)

/-- A run of calls, with the results that are not yet freed and all results so far. -/
structure MpRun where
  pool : MpPool
  live : List Extent
  returned : List Extent

namespace MpRun

def step (s : MpRun) : MpCall → Option (MpRun × Option Nat)
  | .alloc size first second =>
    let r := kvsMempoolAlloc s.pool size first second
    let results := r.1.toList.map fun ptr => (ptr, size)
    some (⟨r.2, results ++ s.live, results ++ s.returned⟩, r.1)
  | .free ptr => (kvsMempoolFree s.pool ptr).map fun pool => (⟨pool, s.live.filter fun r => r.1 ≠ ptr, s.returned⟩, none)

/-- The size does not wrap, and `malloc` gives ranges apart from the blocks it has given. -/
def Given (s : MpRun) : MpCall → Prop
  | .alloc size first second => size + 8 < 2 ^ 64 ∧ ∀ a ∈ first,
      (∀ b ∈ s.pool.blocks, Apart (a, if size ≤ s.pool.max then s.pool.max + 24 else size + 8) b) ∧
      ∀ node ∈ second, ∀ b ∈ (a, size + 8) :: s.pool.blocks, Apart (node, 16) b
  | .free _ => True

instance (s : MpRun) : ∀ call, Decidable (s.Given call)
  | .alloc _ _ _ => inferInstanceAs (Decidable (_ ∧ _))
  | .free _ => inferInstanceAs (Decidable True)

end MpRun

namespace MpPool

def nodeHeaders (head : List MpNode) : List Extent := head.map fun n => (n.addr, 24)

def headers (m : MpPool) : List Extent := nodeHeaders m.head ++ m.large.flatMap fun l => [(l.addr, 16), (l.alloc - 8, 8)]

def frames (head : List MpNode) : List Extent := head.map fun n => (n.addr, n.endp - n.addr)

def spare (head : List MpNode) : List Extent := head.map fun n => (n.last, n.endp - n.last)

def owned (m : MpPool) : List Extent := frames m.head ++ m.large.flatMap fun l => [(l.addr, 16), (l.alloc - 8, 8 + l.size)]

def results (m : MpPool) : List Extent := m.large.map fun l => (l.alloc, l.size)

theorem takeNode_spec {size ptr : Nat} {head head' : List MpNode} (taken : takeNode size head = some (ptr, head')) :
    frames head' = frames head ∧ nodeHeaders head' = nodeHeaders head ∧
    (∃ b ∈ frames head, b.1 ≤ ptr ∧ ptr + size ≤ b.1 + b.2) ∧
    ∀ a, cover a (spare head') + hits a (ptr, size) = cover a (spare head) := by
  induction head generalizing head' with
  | nil => cases taken
  | cons n rest ih =>
    rw [takeNode] at taken
    split at taken
    · next room =>
      have low := n.low
      have fits := n.fits
      cases taken
      refine ⟨rfl, rfl, ⟨_, mem_cons_self, by dsimp only; omega, by dsimp only; omega⟩, fun a => ?_⟩
      have split := hits_split a n.last size (n.endp - (n.last + size))
      rw [show size + (n.endp - (n.last + size)) = n.endp - n.last by omega] at split
      simp only [spare, map_cons, cover_cons, split]
      omega
    · obtain ⟨⟨p, rest'⟩, later, same⟩ := map_eq_some_iff.mp taken
      cases same
      obtain ⟨frame, header, ⟨b, member, inside⟩, covers⟩ := ih later
      refine ⟨congrArg (_ :: ·) frame, congrArg (_ :: ·) header, ⟨b, mem_cons_of_mem _ member, inside⟩, fun a => ?_⟩
      have cover := covers a
      simp only [spare, map_cons, cover_cons] at cover ⊢
      omega

theorem takeNode_concat {size : Nat} {head : List MpNode} (full : takeNode size head = none) (n n' : MpNode)
    (served : takeNode size [n] = some (n.last, [n'])) : takeNode size (head ++ [n]) = some (n.last, head ++ [n']) := by
  induction head with
  | nil => exact served
  | cons m head ih =>
    rw [cons_append, takeNode] at *
    split at full
    · cases full
    · next tight => rw [dif_neg tight, ih (map_eq_none_iff.mp full), map_some, cons_append]

theorem freeBlock_perm {blocks rest : List Extent} {b : Extent} (perm : blocks.Perm (b :: rest)) (once : ∀ a, cover a blocks ≤ 1)
    (solid : ∀ b ∈ blocks, 0 < b.2) : ∃ blocks', freeBlock blocks b.1 = some blocks' ∧ blocks'.Perm rest ∧
      (∀ a, cover a blocks' ≤ 1) ∧ ∀ b ∈ blocks', 0 < b.2 := by
  have block : b ∈ blocks := perm.mem_iff.mpr mem_cons_self
  rw [freeBlock]
  cases found : blocks.find? fun b' => b'.1 = b.1 with
  | none => simpa using find?_eq_none.mp found b block
  | some b' =>
    have start : b'.1 = b.1 := by simpa using find?_some found
    have member := mem_of_find?_eq_some found
    have same : b' = b := by
      rcases mem_cons.mp (perm.mem_iff.mp member) with same | other
      · exact same
      · have few := once b.1
        rw [cover_perm perm, cover_cons] at few
        have more := hits_le_cover other b.1
        grind [hits, solid b block, solid b' member]
    have fewer : (blocks.erase b).Sublist blocks := erase_sublist
    rw [same]
    exact ⟨_, rfl, by simpa using perm.erase b, fun a => Nat.le_trans fewer.countP_le (once a), fun b member => solid b (fewer.subset member)⟩

theorem owned_solid (m : MpPool) : ∀ b ∈ owned m, 0 < b.2 := by
  intro b member
  simp only [owned, frames, mem_append, List.mem_map, mem_flatMap, mem_cons, not_mem_nil, or_false] at member
  rcases member with ⟨n, _, rfl⟩ | ⟨l, _, rfl | rfl⟩
  · have := n.low
    have := n.fits
    dsimp only
    omega
  · exact Nat.zero_lt_succ 15
  · exact Nat.add_pos_left (by decide) _

end MpPool

open MpPool

/-- Every address is at most once a header's, spare or a small result's; the rest of the blocks is the large results. -/
structure MpRun.Sound (s : MpRun) (small : List Extent) : Prop where
  blocks : s.pool.blocks.Perm s.pool.owned
  once : ∀ a, cover a s.pool.blocks ≤ 1
  under : ∀ a, cover a (nodeHeaders s.pool.head) + cover a (spare s.pool.head) + cover a small ≤ cover a (frames s.pool.head)
  live : s.live.Subperm (small ++ s.pool.results)
  inside : ∀ r ∈ small, 0 < r.2 ∧ ∃ b ∈ frames s.pool.head, b.1 ≤ r.1 ∧ r.1 + r.2 ≤ b.1 + b.2
  returned : ∀ r ∈ s.returned, r.2 ≤ s.pool.max → ∃ b ∈ frames s.pool.head, b.1 ≤ r.1 ∧ r.1 < b.1 + b.2

namespace MpRun.Sound

variable {s : MpRun} {small : List Extent} (sound : Sound s small)

include sound

theorem fromNode {size ptr : Nat} {head : List MpNode} (real : 0 < size)
    (taken : takeNode size s.pool.head = some (ptr, head)) :
    Sound ⟨{ s.pool with head := head }, (ptr, size) :: s.live, (ptr, size) :: s.returned⟩ ((ptr, size) :: small) := by
  obtain ⟨frame, header, ⟨b, member, low, high⟩, covers⟩ := takeNode_spec taken
  refine ⟨?_, sound.once, fun a => ?_, (subperm_cons _).mpr sound.live, ?_, ?_⟩
  · rw [owned, frame]
    exact sound.blocks
  · have under := sound.under a
    have split := covers a
    simp only [header, frame, cover_cons] at under ⊢
    omega
  · rw [frame]
    exact forall_mem_cons.mpr ⟨⟨real, b, member, low, high⟩, sound.inside⟩
  · rw [frame]
    exact forall_mem_cons.mpr ⟨fun _ => ⟨b, member, low, by dsimp only; omega⟩, sound.returned⟩

theorem newNode {a : Nat} (fresh : ∀ b ∈ s.pool.blocks, Apart (a, s.pool.max + 24) b) :
    Sound { s with pool := { s.pool with
      head := s.pool.head ++ [⟨a, a + 24, a + (s.pool.max + 24), Nat.le_refl _, by omega⟩]
      blocks := (a, s.pool.max + 24) :: s.pool.blocks } } small := by
  have frame : ∀ n : MpNode, frames (s.pool.head ++ [n]) = frames s.pool.head ++ [(n.addr, n.endp - n.addr)] := fun n => by simp [frames]
  refine ⟨?_, cover_cons_le fresh sound.once, fun a' => ?_, sound.live, fun r member => ?_, fun r member little => ?_⟩
  · rw [owned, frame, Nat.add_sub_cancel_left, append_assoc]
    exact (sound.blocks.cons _).trans perm_middle.symm
  · have under := sound.under a'
    have split := hits_split a' a 24 s.pool.max
    rw [Nat.add_comm 24] at split
    have rest : a + (s.pool.max + 24) - (a + 24) = s.pool.max := by omega
    simp only [nodeHeaders, spare, frames, map_append, map_singleton, cover_append, cover_cons, cover_nil, rest, Nat.add_sub_cancel_left] at under ⊢
    omega
  · obtain ⟨full, b, block, within⟩ := sound.inside r member
    exact ⟨full, b, by simp [frame, block], within⟩
  · obtain ⟨b, block, within⟩ := sound.returned r member little
    exact ⟨b, by simp [frame, block], within⟩

theorem fromLarge {size raw node : Nat} (large : s.pool.max < size) (fresh : ∀ b ∈ s.pool.blocks, Apart (raw, size + 8) b)
    (fresh' : ∀ b ∈ (raw, size + 8) :: s.pool.blocks, Apart (node, 16) b) :
    Sound ⟨{ s.pool with
        large := ⟨node, raw + 8, size, by omega, by omega⟩ :: s.pool.large
        blocks := (node, 16) :: (raw, size + 8) :: s.pool.blocks },
      (raw + 8, size) :: s.live, (raw + 8, size) :: s.returned⟩ small := by
  refine ⟨?_, cover_cons_le fresh' (cover_cons_le fresh sound.once), sound.under, ?_, sound.inside, ?_⟩
  · rw [owned, flatMap_cons, Nat.add_sub_cancel, Nat.add_comm size]
    exact ((sound.blocks.cons _).cons _).trans ((perm_middle.symm.cons _).trans perm_middle.symm)
  · exact ((subperm_cons _).mpr sound.live).trans perm_middle.symm.subperm
  · exact forall_mem_cons.mpr ⟨fun little => absurd little (by dsimp only; omega), sound.returned⟩

theorem alloc {size : Nat} {first second : Option Nat} (given : s.Given (.alloc size first second)) :
    ∃ s' o, s.step (.alloc size first second) = some (s', o) ∧ ∃ small', Sound s' small' := by
  refine ⟨_, _, rfl, ?_⟩
  unfold kvsMempoolAlloc
  split
  · exact ⟨small, sound⟩
  · next real =>
    split
    · next little =>
      cases taken : takeNode size s.pool.head with
      | some r => exact ⟨_, sound.fromNode (Nat.pos_of_ne_zero real) taken⟩
      | none =>
        cases first with
        | none => exact ⟨small, sound⟩
        | some a =>
          have fresh := (given.2 a rfl).1
          rw [if_pos little] at fresh
          exact ⟨_, (sound.newNode fresh).fromNode (Nat.pos_of_ne_zero real)
            (takeNode_concat taken _ _ (by rw [takeNode, dif_pos]; dsimp only; omega))⟩
    · next large =>
      cases first with
      | none => exact ⟨small, sound⟩
      | some raw =>
        cases second with
        | none => exact ⟨small, sound⟩
        | some node =>
          obtain ⟨fresh, fresh'⟩ := given.2 raw rfl
          rw [if_neg large] at fresh
          simp only [Nat.mod_eq_of_lt given.1]
          exact ⟨small, sound.fromLarge (by omega) fresh (fresh' node rfl)⟩

theorem free (ptr : Nat) : ∃ s' o, s.step (.free ptr) = some (s', o) ∧ ∃ small', Sound s' small' := by
  have live := sound.live.filter fun r => r.1 ≠ ptr
  rw [filter_append] at live
  have under : ∀ a, cover a (nodeHeaders s.pool.head) + cover a (spare s.pool.head) + cover a (small.filter fun r => r.1 ≠ ptr) ≤ cover a (frames s.pool.head) := by
    intro a
    have under := sound.under a
    have fewer : cover a (small.filter fun r => r.1 ≠ ptr) ≤ cover a small := filter_sublist.countP_le
    omega
  have inside := fun r (member : r ∈ small.filter fun r => r.1 ≠ ptr) => sound.inside r (mem_of_mem_filter member)
  rw [MpRun.step, kvsMempoolFree]
  cases found : s.pool.large.find? fun l => l.alloc = ptr with
  | none =>
    exact ⟨_, none, rfl, _, sound.blocks, sound.once, under, live.trans ((List.Sublist.refl _).append filter_sublist).subperm, inside, sound.returned⟩
  | some l =>
    have perm := perm_cons_erase (mem_of_find?_eq_some found)
    have same : l.alloc = ptr := by simpa using find?_some found
    subst same
    have blocks : s.pool.blocks.Perm ((l.alloc - 8, 8 + l.size) :: (l.addr, 16) :: owned { s.pool with large := s.pool.large.erase l }) := by
      refine sound.blocks.trans (((perm.flatMap_right _).append_left _).trans ?_)
      rw [flatMap_cons]
      exact (perm_middle.trans (perm_middle.cons _)).trans (.swap ..)
    have solid : ∀ b ∈ s.pool.blocks, 0 < b.2 := fun b member => owned_solid _ b (sound.blocks.mem_iff.mp member)
    obtain ⟨rest, freed, blocks1, once1, solid1⟩ := freeBlock_perm blocks sound.once solid
    obtain ⟨rest', freed', blocks2, once2, _⟩ := freeBlock_perm blocks1 once1 solid1
    dsimp only at freed freed' ⊢
    rw [freed, bind_eq_bind, bind_some, freed', bind_some, map_some]
    have results := (perm.map fun l => (l.alloc, l.size)).filter fun r => r.1 ≠ l.alloc
    rw [map_cons, filter_cons_of_neg (by simp)] at results
    exact ⟨_, _, rfl, _, blocks2, once2, under, live.trans
      ((results.append_left _).subperm.trans ((List.Sublist.refl _).append filter_sublist).subperm), inside, sound.returned⟩

theorem free_small {r : Extent} (member : r ∈ s.returned) (little : r.2 ≤ s.pool.max) :
    kvsMempoolFree s.pool r.1 = some s.pool := by
  rw [kvsMempoolFree]
  cases found : s.pool.large.find? fun l => l.alloc = r.1 with
  | none => rfl
  | some l =>
    -- the address would lie in the block of a node and in that of a large result
    have same : l.alloc = r.1 := by simpa using find?_some found
    obtain ⟨b, frame, low, high⟩ := sound.returned r member little
    have few := sound.once r.1
    rw [cover_perm sound.blocks, owned, cover_append] at few
    have first := hits_le_cover frame r.1
    have second := hits_le_cover (mem_flatMap.mpr ⟨l, mem_of_find?_eq_some found, mem_cons_of_mem _ mem_cons_self⟩ :
      (l.alloc - 8, 8 + l.size) ∈ s.pool.large.flatMap fun l => [(l.addr, 16), (l.alloc - 8, 8 + l.size)]) r.1
    rw [hits, if_pos ⟨low, high⟩] at first
    rw [hits, if_pos ⟨by dsimp only; omega, by have := l.full; have := l.low; dsimp only; omega⟩] at second
    omega

omit sound in
theorem create {blockSize : Int} {a : Nat} {m : MpPool} (created : kvsMempoolCreate blockSize (some a) = some m) : Sound ⟨m, [], []⟩ [] := by
  unfold kvsMempoolCreate at created
  split at created
  · cases created
  · next large =>
    cases created
    have empty : Sound ⟨⟨blockSize.toNat - 24, [], [], []⟩, [], []⟩ [] :=
      ⟨.refl _, fun _ => Nat.zero_le 1, fun _ => Nat.le_refl 0, List.Subperm.refl _, nofun, nofun⟩
    have whole : blockSize.toNat - 24 + 24 = blockSize.toNat := by omega
    have grown := empty.newNode (a := a) nofun
    dsimp only at grown
    simp only [whole] at grown
    exact grown

theorem fits (a : Nat) : cover a (headers s.pool) + cover a s.live ≤ cover a s.pool.blocks := by
  have larges : ∀ large : List MpLarge, cover a (large.flatMap fun l => [(l.addr, 16), (l.alloc - 8, 8 + l.size)]) =
      cover a (large.flatMap fun l => [(l.addr, 16), (l.alloc - 8, 8)]) + cover a (large.map fun l => (l.alloc, l.size)) := by
    intro large
    induction large with
    | nil => rfl
    | cons l large ih =>
      have split := hits_split a (l.alloc - 8) 8 l.size
      rw [Nat.sub_add_cancel l.low] at split
      simp only [flatMap_cons, map_cons, cover_append, cover_cons, cover_nil, ih, split]
      omega
  have under := sound.under a
  have live : cover a s.live ≤ cover a (small ++ s.pool.results) := sound.live.countP_le _
  have all := larges s.pool.large
  rw [cover_perm sound.blocks]
  simp only [owned, headers, results, cover_append] at live ⊢
  omega

theorem inside_block {r : Extent} (member : r ∈ s.live) :
    0 < r.2 ∧ ∃ b ∈ s.pool.blocks, b.1 ≤ r.1 ∧ r.1 + r.2 ≤ b.1 + b.2 := by
  rcases mem_append.mp (sound.live.subset member) with old | large
  · obtain ⟨full, b, frame, within⟩ := sound.inside r old
    exact ⟨full, b, sound.blocks.mem_iff.mpr (mem_append_left _ frame), within⟩
  · obtain ⟨l, listed, rfl⟩ := List.mem_map.mp large
    refine ⟨l.full, (l.alloc - 8, 8 + l.size), sound.blocks.mem_iff.mpr ?_, Nat.sub_le _ _, by have := l.low; dsimp only; omega⟩
    exact mem_append_right _ (mem_flatMap.mpr ⟨l, listed, mem_cons_of_mem _ mem_cons_self⟩)

end MpRun.Sound

/-- Results of the pool never overlap each other or a header, and freeing a small one changes nothing. -/
theorem mempool_disjoint {blockSize : Int} {a : Nat} {m : MpPool} (created : kvsMempoolCreate blockSize (some a) = some m)
    {calls : List MpCall} (given : Machine.Meets MpRun.step MpRun.Given ⟨m, [], []⟩ calls) :
    ∃ s outs, Machine.run MpRun.step ⟨m, [], []⟩ calls = some (s, outs) ∧
      (∀ r ∈ s.live, (∃ b ∈ s.pool.blocks, b.1 ≤ r.1 ∧ r.1 + r.2 ≤ b.1 + b.2) ∧ ∀ h ∈ headers s.pool, Apart r h) ∧
      s.live.Pairwise Apart ∧ ∀ r ∈ s.returned, r.2 ≤ s.pool.max → kvsMempoolFree s.pool r.1 = some s.pool := by
  obtain ⟨s, outs, ran, small, sound⟩ := Machine.run_invariant (fun s : MpRun => ∃ small, s.Sound small) (fun s call sound given => by
    obtain ⟨small, sound⟩ := sound
    cases call with
    | alloc size first second => exact sound.alloc given
    | free ptr => exact sound.free ptr) ⟨[], .create created⟩ given
  refine ⟨s, outs, ran, fun r member => ⟨(sound.inside_block member).2, fun h header => ?_⟩, ?_, fun r => sound.free_small⟩
  · have full : 0 < h.2 := by
      simp only [headers, nodeHeaders, mem_append, List.mem_map, mem_flatMap, mem_cons, not_mem_nil, or_false] at header
      rcases header with ⟨_, _, rfl⟩ | ⟨_, _, rfl | rfl⟩ <;> exact Nat.zero_lt_succ _
    apply apart_of_hits (sound.inside_block member).1 full
    intro a
    have fits := sound.fits a
    have once := sound.once a
    have first := hits_le_cover member a
    have second := hits_le_cover header a
    omega
  · apply pairwise_apart (fun a => ?_) fun r member => (sound.inside_block member).1
    have fits := sound.fits a
    have once := sound.once a
    omega

/-- Small results from two nodes, a large one, and another one at the addresses of the first after it is freed. -/
def mixedCalls : List MpCall :=
  [.alloc 5 none none, .alloc 5 (some 200) none, .alloc 3 none none, .alloc 20 (some 300) (some 400), .free 308,
    .alloc 20 (some 300) (some 400), .free 124]

theorem mempool_mixed : ∃ m s outs, kvsMempoolCreate 32 (some 100) = some m ∧
    Machine.run MpRun.step ⟨m, [], []⟩ mixedCalls = some (s, outs) ∧ s.live = [(308, 20), (129, 3), (224, 5)] ∧
    s.live.Pairwise Apart := by
  have created : kvsMempoolCreate 32 (some 100) = some _ := rfl
  obtain ⟨s, outs, ran, _, apart, _⟩ := mempool_disjoint created (.of_check (by decide +kernel) : Machine.Meets MpRun.step MpRun.Given _ mixedCalls)
  refine ⟨_, s, outs, created, ran, ?_, apart⟩
  cases ran
  rfl

/-- The calls of `free` in their order; the blocks that are left. -/
def kvsMempoolDestroy (m : MpPool) : Option (List Extent) :=
  (m.large.flatMap (fun l => [l.alloc - 8, l.addr]) ++ m.head.map MpNode.addr).foldlM freeBlock m.blocks

theorem freeBlocks_all {held blocks : List Extent} (perm : blocks.Perm held) (once : ∀ a, cover a blocks ≤ 1)
    (solid : ∀ b ∈ blocks, 0 < b.2) : (held.map Prod.fst).foldlM freeBlock blocks = some [] := by
  induction held generalizing blocks with
  | nil => rw [perm.eq_nil]; rfl
  | cons b held ih =>
    obtain ⟨rest, freed, perm', once', solid'⟩ := freeBlock_perm perm once solid
    rw [map_cons, foldlM_cons, freed, bind_eq_bind, bind_some]
    exact ih perm' once' solid'

theorem MpRun.Sound.destroy {s : MpRun} {small : List Extent} (sound : s.Sound small) : kvsMempoolDestroy s.pool = some [] := by
  let larges := s.pool.large.flatMap fun l => [(l.alloc - 8, 8 + l.size), (l.addr, 16)]
  have swapped : owned s.pool ~ larges ++ frames s.pool.head :=
    perm_append_comm.trans ((Perm.flatMap_left _ fun l _ => .swap ..).append_right _)
  have all := freeBlocks_all (sound.blocks.trans swapped) sound.once fun b member => owned_solid _ b (sound.blocks.mem_iff.mp member)
  simpa [kvsMempoolDestroy, larges, frames, map_flatMap, Function.comp_def] using all

/-- After any calls, destroying the pool frees every block that it holds, each once, and nothing else. -/
theorem mempool_destroy_frees_all {blockSize : Int} {a : Nat} {m : MpPool} (created : kvsMempoolCreate blockSize (some a) = some m)
    {calls : List MpCall} (given : Machine.Meets MpRun.step MpRun.Given ⟨m, [], []⟩ calls) :
    ∃ s outs, Machine.run MpRun.step ⟨m, [], []⟩ calls = some (s, outs) ∧ kvsMempoolDestroy s.pool = some [] := by
  have keeps : ∀ (s : MpRun) call, (∃ small, s.Sound small) → s.Given call →
      ∃ s' o, s.step call = some (s', o) ∧ ∃ small, MpRun.Sound s' small := by
    rintro s call ⟨small, sound⟩ given
    cases call with
    | alloc size first second => exact sound.alloc given
    | free ptr => exact sound.free ptr
  obtain ⟨s, outs, ran, small, sound⟩ := Machine.run_invariant _ keeps ⟨[], .create created⟩ given
  exact ⟨s, outs, ran, sound.destroy⟩

theorem mempool_destroy_mixed : ∃ m s outs, kvsMempoolCreate 32 (some 100) = some m ∧
    Machine.run MpRun.step ⟨m, [], []⟩ mixedCalls = some (s, outs) ∧ kvsMempoolDestroy s.pool = some [] := by
  have created : kvsMempoolCreate 32 (some 100) = some _ := rfl
  obtain ⟨s, outs, all⟩ :=
    mempool_destroy_frees_all created (.of_check (by decide +kernel) : Machine.Meets MpRun.step MpRun.Given _ mixedCalls)
  exact ⟨_, s, outs, created, all⟩

end AICacheDB
