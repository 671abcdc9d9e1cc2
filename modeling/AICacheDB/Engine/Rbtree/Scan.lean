import AICacheDB.Engine.Rbtree.Calls

open CLib RedBlack List Option Machine

namespace AICacheDB.Rbtree

def expiredCells (now : Int) (t : ColorTree (Cell CString CharPtr)) : List (Cell CString CharPtr) :=
  t.inorder.filter fun x => Expired x.expireMs now

def expiredAddrs (now : Int) (t : ColorTree (Cell CString CharPtr)) : List Addr := (expiredCells now t).map Cell.addr

def OneByOne : KvsRbtree → List Addr → Prop
  | _, [] => True
  | T, a :: rest => ¬ TwoChildren T a ∧ ∀ T', rbtreeRemove T a = some T' → OneByOne T' rest

/-- The scan ends without a look at freed memory and leaves the entries that had not expired, as they were. -/
def Swept (T : KvsRbtree) (now : Int) : Prop :=
  ∃ T', kvsRbtreeScanExpired now T = some T' ∧ (∃ t', Valid T' t') ∧
    rbtreeLookup T' = fun k => (rbtreeLookup T k).filter fun x => ¬ Expired x.expireMs now

section Collect

variable {T : KvsRbtree} {t : ColorTree (Cell CString CharPtr)} {now : Int}

theorem expiredCells_node (c : Color) (l r : ColorTree (Cell CString CharPtr)) (x : Cell CString CharPtr) :
    expiredCells now (.node c l x r) = expiredCells now l ++ ((if Expired x.expireMs now then [x] else []) ++ expiredCells now r) := by
  by_cases expired : Expired x.expireMs now <;> simp [expiredCells, ColorTree.inorder, expired]

theorem rbtreeCollectExpired_stored {max fuel : Nat} {u : ColorTree (Cell CString CharPtr)} {p : Addr} {found : List Addr}
    (stored : Stored T.mem p u) (real : nil ∉ addrs u) (enough : u.inorder.length < fuel)
    (room : found.length + (expiredCells now u).length ≤ max) :
    rbtreeCollectExpired T now max fuel (rootAddr u) found = some (found ++ expiredAddrs now u) := by
  induction u generalizing fuel p found with
  | leaf =>
    obtain ⟨fuel, rfl⟩ := Nat.exists_eq_succ_of_ne_zero (Nat.ne_zero_of_lt enough)
    simp [rbtreeCollectExpired, expiredAddrs, expiredCells, ColorTree.inorder]
  | node c l x r ihl ihr =>
    obtain ⟨fuel, rfl⟩ := Nat.exists_eq_succ_of_ne_zero (Nat.ne_zero_of_lt enough)
    obtain ⟨node, left, right⟩ := stored
    simp only [addrs, ColorTree.inorder, map_append, map_cons, mem_append, mem_cons, not_or] at real
    simp only [ColorTree.inorder, length_append, length_cons] at enough
    rw [expiredCells_node, length_append, length_append] at room
    have first : rbtreeCollectExpired T now max fuel (rootAddr l) found = some (found ++ expiredAddrs now l) :=
      ihl left real.1 (by omega) (by omega)
    have size : (expiredAddrs now l).length = (expiredCells now l).length := length_map _
    have own : (if Expired x.expireMs now ∧ (found ++ expiredAddrs now l).length < max then found ++ expiredAddrs now l ++ [x.addr]
        else found ++ expiredAddrs now l) = found ++ expiredAddrs now l ++ (if Expired x.expireMs now then [x] else []).map Cell.addr := by
      by_cases expired : Expired x.expireMs now
      · rw [if_pos expired, length_singleton] at room
        rw [if_pos ⟨expired, by rw [length_append]; omega⟩, if_pos expired]
        rfl
      · rw [if_neg (fun both => expired both.1), if_neg expired, map_nil, append_nil]
    rw [rbtreeCollectExpired, rootAddr_node, if_neg (Ne.symm real.2.1), node]
    simp only [cellNode, bind_eq_bind, bind_some, first, own]
    rw [ihr right real.2.2 (by omega) (by simp [size]; omega)]
    simp [expiredAddrs, expiredCells_node]

theorem rbtreeCollectExpired_eq (valid : Valid T t) (few : (expiredCells now t).length ≤ maxExpired) :
    rbtreeCollectExpired T now maxExpired (T.brk + 1) T.root [] = some (expiredAddrs now t) := by
  have size := valid.rep.size_le
  rw [valid.rep.root, rbtreeCollectExpired_stored valid.rep.stored valid.rep.notNil (by omega) (by simpa using few)]
  rfl

end Collect

section Remove

variable {T T' : KvsRbtree} {t : ColorTree (Cell CString CharPtr)} {z : Cell CString CharPtr} {now : Int} {l : List Addr}

theorem rbtreeRemove_frees (valid : Valid T t) (member : z ∈ t.inorder) :
    ∃ T' t' y xs ys, rbtreeRemove T z.addr = some T' ∧ Valid T' t' ∧ t.inorder = xs ++ z :: ys ∧ Deleted T z xs ys t' ∧ T'.mem y = none ∧
      (∀ a ∈ addrs t, a = y ∨ a ∈ addrs t') ∧ ∀ a, a ∉ addrs t → T'.mem a = T.mem a := by
  obtain ⟨T1, t', y, n, xs, ys, ran, valid1, split, deleted, node, _, _, inside, outside, confined⟩ := rbtreeDelete_spec valid member
  refine ⟨T1.free y, t', y, xs, ys, by simp [rbtreeRemove, ran], ⟨valid1.rep.free outside, valid1.height, valid1.sorted⟩, split, deleted,
    Function.update_self _ _ _, ?_, ?_⟩
  · intro a member
    rw [addrs, split] at inside member
    rcases deleted with ⟨_, list⟩ | ⟨s, rest, _, _, rfl, list⟩ <;> rw [addrs, list] at outside ⊢ <;>
      simp only [map_append, map_cons, mem_append, mem_cons, not_or] at inside member outside ⊢ <;> grind
  · intro a outer
    rw [free_mem_of_ne T1 (Ne.symm (ne_of_mem_of_not_mem inside outer)), confined.mem a outer]

theorem rbtreeRemove_dead {a : Addr} (dead : T.mem a = none) : rbtreeRemove T a = none := by
  simp [rbtreeRemove, rbtreeDelete, Rbtree.child, dead]

def Pending (T : KvsRbtree) (t : ColorTree (Cell CString CharPtr)) (l : List Addr) : Prop := ∀ a ∈ l, a ∈ addrs t ∨ T.mem a = none

theorem Pending.step {a : Addr} (valid : Valid T t) (pending : Pending T t (a :: l)) (ran : rbtreeRemove T a = some T') :
    ∃ z ∈ t.inorder, z.addr = a ∧ ∃ t' xs ys, Valid T' t' ∧ t.inorder = xs ++ z :: ys ∧ Deleted T z xs ys t' ∧ Pending T' t' l ∧
      (∀ b, T.mem b = none → T'.mem b = none) ∧ ∀ b ∈ addrs t, b ∉ addrs t' → T'.mem b = none := by
  rcases pending a mem_cons_self with inside | dead
  · obtain ⟨z, member, rfl⟩ := mem_map.mp inside
    obtain ⟨T1, t', y, xs, ys, ran1, valid', split, deleted, freed, others, outer⟩ := rbtreeRemove_frees valid member
    obtain rfl := some.inj (ran1.symm.trans ran)
    have dead : ∀ b, T.mem b = none → T1.mem b = none := by
      intro b gone
      rw [outer b fun inTree => ?_, gone]
      obtain ⟨n, live⟩ := valid.rep.stored.live b inTree
      rw [gone] at live
      cases live
    refine ⟨z, member, rfl, t', xs, ys, valid', split, deleted, fun b later => ?_, dead, fun b inTree left => ?_⟩
    · rcases pending b (mem_cons_of_mem _ later) with inTree | gone
      · rcases others b inTree with rfl | stays
        · exact .inr freed
        · exact .inl stays
      · exact .inr (dead b gone)
    · rw [(others b inTree).resolve_right left]
      exact freed
  · rw [rbtreeRemove_dead dead] at ran
    cases ran

theorem foldlM_dead (valid : Valid T t) (pending : Pending T t l) {a : Addr} (later : a ∈ l) (dead : T.mem a = none) :
    l.foldlM rbtreeRemove T = none := by
  induction l generalizing T t with
  | nil => cases later
  | cons b l ih =>
    rw [foldlM_cons]
    cases ran : rbtreeRemove T b with
    | none => rfl
    | some T1 =>
      have other : a ≠ b := by
        rintro rfl
        rw [rbtreeRemove_dead dead] at ran
        cases ran
      obtain ⟨_, _, _, t1, _, _, valid1, _, _, pending1, stays, _⟩ := pending.step valid ran
      exact ih valid1 pending1 ((mem_cons.mp later).resolve_left other) (stays a dead)

theorem Deleted.expired_le {xs ys : List (Cell CString CharPtr)} {t' : ColorTree (Cell CString CharPtr)} (deleted : Deleted T z xs ys t')
    (split : t.inorder = xs ++ z :: ys) (now : Int) : (expiredCells now t).length ≤ (expiredCells now t').length + 1 := by
  rcases deleted with ⟨_, list⟩ | ⟨s, rest, _, _, rfl, list⟩
  · rw [expiredCells, expiredCells, split, list]
    by_cases expired : Expired z.expireMs now <;> simp [expired]
    omega
  · rw [expiredCells, expiredCells, split, list]
    by_cases expired : Expired z.expireMs now <;> by_cases expired' : Expired s.expireMs now <;> simp [expired, expired'] <;> omega

theorem foldlM_expired_le (valid : Valid T t) (pending : Pending T t l) (ran : l.foldlM rbtreeRemove T = some T') (now : Int) :
    ∃ t', Valid T' t' ∧ (expiredCells now t).length ≤ (expiredCells now t').length + l.length := by
  induction l generalizing T t with
  | nil =>
    cases ran
    exact ⟨t, valid, le_rfl⟩
  | cons a l ih =>
    rw [foldlM_cons, bind_eq_bind, bind_eq_some_iff] at ran
    obtain ⟨T1, first, rest⟩ := ran
    obtain ⟨z, _, _, t1, xs, ys, valid1, split, deleted, pending1, _⟩ := pending.step valid first
    obtain ⟨t', valid', most⟩ := ih valid1 pending1 rest
    have less := deleted.expired_le split now
    refine ⟨t', valid', ?_⟩
    rw [length_cons]
    omega

end Remove

section Sweep

variable {T T' : KvsRbtree} {t : ColorTree (Cell CString CharPtr)} {now : Int} {l : List Addr}

theorem pending_expired (T : KvsRbtree) (now : Int) (t : ColorTree (Cell CString CharPtr)) : Pending T t (expiredAddrs now t) := by
  intro a member
  obtain ⟨x, expired, rfl⟩ := mem_map.mp member
  exact .inl (mem_map_of_mem (mem_filter.mp expired).1)

theorem expiredAddrs_tail {a : Addr} {z : Cell CString CharPtr} {xs ys : List (Cell CString CharPtr)} (valid : Valid T t)
    (list : expiredAddrs now t = a :: l) (split : t.inorder = xs ++ z :: ys) (own : z.addr = a) :
    Expired z.expireMs now ∧ ((xs ++ ys).filter fun x => Expired x.expireMs now).map Cell.addr = l ∧
      (xs ++ ys).filter (fun x => ¬ Expired x.expireMs now) = t.inorder.filter fun x => ¬ Expired x.expireMs now := by
  have expired : Expired z.expireMs now := by
    have member : a ∈ expiredAddrs now t := by rw [list]; exact mem_cons_self
    obtain ⟨w, inside, same⟩ := mem_map.mp member
    obtain ⟨inTree, old⟩ := mem_filter.mp inside
    rw [← cell_of_addr valid inTree (by rw [split]; simp) (same.trans own.symm)]
    exact of_decide_eq_true old
  have distinct := valid.rep.distinct
  rw [addrs, split, map_append, map_cons, nodup_middle, nodup_cons, mem_append, not_or] at distinct
  refine ⟨expired, ?_, by rw [split]; simp [expired]⟩
  rw [expiredAddrs, expiredCells, split, filter_append, filter_cons, if_pos (decide_eq_true expired), map_append,
    map_cons, own] at list
  rw [filter_append, map_append]
  cases front : (xs.filter fun x => decide (Expired x.expireMs now)).map Cell.addr with
  | nil =>
    rw [front] at list
    exact (cons.inj list).2
  | cons b bs =>
    have inside : b ∈ xs.map Cell.addr := by
      have member : b ∈ (xs.filter fun x => decide (Expired x.expireMs now)).map Cell.addr := by rw [front]; exact mem_cons_self
      exact (filter_sublist.map _).subset member
    rw [front] at list
    rw [(cons.inj list).1, ← own] at inside
    exact absurd inside distinct.1.1

theorem foldlM_oneByOne (valid : Valid T t) (list : expiredAddrs now t = l) (clear : OneByOne T l) :
    ∃ T' t', l.foldlM rbtreeRemove T = some T' ∧ Valid T' t' ∧ t'.inorder = t.inorder.filter fun x => ¬ Expired x.expireMs now := by
  induction l generalizing T t with
  | nil =>
    refine ⟨T, t, rfl, valid, (filter_eq_self.mpr fun x inside => ?_).symm⟩
    have none : expiredCells now t = [] := map_eq_nil_iff.mp list
    have live := filter_eq_nil_iff.mp none x inside
    simpa using live
  | cons a l ih =>
    have member : a ∈ expiredAddrs now t := by rw [list]; exact mem_cons_self
    obtain ⟨z, old, own⟩ := mem_map.mp member
    obtain ⟨T1, t1, y, xs, ys, ran, valid1, split, deleted, _⟩ := rbtreeRemove_frees valid (mem_filter.mp old).1
    rw [own] at ran
    obtain ⟨_, tail, kept⟩ := expiredAddrs_tail valid list split own
    rcases deleted with ⟨_, list1⟩ | ⟨_, _, two, _⟩
    · obtain ⟨T', t', rest, valid', list'⟩ := ih valid1 (by rw [expiredAddrs, expiredCells, list1, tail]) (clear.2 T1 ran)
      refine ⟨T', t', ?_, valid', by rw [list', list1, kept]⟩
      rw [foldlM_cons, ran]
      exact rest
    · rw [own] at two
      exact absurd two clear.1

/-- If nothing expired is left, no node had two children: its successor would be freed too early or keep an old expiry time. -/
theorem oneByOne_of_foldlM (valid : Valid T t) (list : expiredAddrs now t = l) (ran : l.foldlM rbtreeRemove T = some T')
    (swept : ∀ t', Valid T' t' → expiredCells now t' = []) : OneByOne T l := by
  induction l generalizing T t with
  | nil => trivial
  | cons a l ih =>
    rw [foldlM_cons, bind_eq_bind, bind_eq_some_iff] at ran
    obtain ⟨T1, first, rest⟩ := ran
    have pending := pending_expired T now t
    rw [list] at pending
    obtain ⟨z, member, own, t1, xs, ys, valid1, split, deleted, pending1, _, freed⟩ := pending.step valid first
    obtain ⟨expired, tail, _⟩ := expiredAddrs_tail valid list split own
    rcases deleted with ⟨one, list1⟩ | ⟨s, ys, two, _, rfl, list1⟩
    · refine ⟨own ▸ one, fun T2 again => ?_⟩
      obtain rfl := some.inj (first.symm.trans again)
      exact ih valid1 (by rw [expiredAddrs, expiredCells, list1, tail]) rest
    · exfalso
      by_cases old : Expired s.expireMs now
      · have later : s.addr ∈ l := by
          rw [← tail]
          exact mem_map_of_mem (mem_filter.mpr ⟨by simp, decide_eq_true old⟩)
        have distinct := valid.rep.distinct
        have gone : s.addr ∉ addrs t1 := by
          rw [addrs, split] at distinct
          rw [addrs, list1]
          simp only [map_append, map_cons, nodup_append, nodup_cons, mem_cons, mem_append] at distinct ⊢
          grind
        have dead := freed s.addr (mem_map_of_mem (by rw [split]; simp)) gone
        rw [foldlM_dead valid1 pending1 later dead] at rest
        cases rest
      · obtain ⟨t', valid', most⟩ := foldlM_expired_le valid1 pending1 rest now
        have same : (expiredCells now t1).length = l.length + 1 := by
          rw [← length_cons, ← list, expiredAddrs, length_map, expiredCells, expiredCells, split, list1]
          simp [expired, old]
        rw [same, swept t' valid', length_nil] at most
        omega

/-- A scan that collects all expired nodes does its work exactly when each has at most one child at its turn. -/
theorem scan_expired_iff (valid : Valid T t) (few : (expiredCells now t).length ≤ maxExpired) :
    Swept T now ↔ OneByOne T (expiredAddrs now t) := by
  have collected := rbtreeCollectExpired_eq valid few
  constructor
  · rintro ⟨T', ran, _, same⟩
    rw [kvsRbtreeScanExpired, collected, bind_eq_bind, bind_some] at ran
    refine oneByOne_of_foldlM valid rfl ran fun t' valid' => ?_
    rw [rbtreeLookup_eq valid'] at same
    refine filter_eq_nil_iff.mpr fun x inside expired => ?_
    have entry := entries_of_mem valid' inside
    rw [same, filter_eq_some_iff] at entry
    exact absurd (of_decide_eq_true expired) (of_decide_eq_true entry.2)
  · intro clear
    obtain ⟨T', t', ran, valid', list⟩ := foldlM_oneByOne valid rfl clear
    refine ⟨T', ?_, ⟨t', valid'⟩, ?_⟩
    · rw [kvsRbtreeScanExpired, collected, bind_eq_bind, bind_some, ran]
    · rw [rbtreeLookup_eq valid', rbtreeLookup_eq valid, entries, list]
      exact KvMap.ofList_filter (keys_nodup valid.sorted) fun x => decide (¬ Expired x.expireMs now)

end Sweep

def threeSets (b a c : Int) : List KvCall :=
  [⟨.set (.ofBytes [98]) (.ofBytes [118]) b, 0, 1⟩, ⟨.set (.ofBytes [97]) (.ofBytes [118]) a, 0, 1⟩,
    ⟨.set (.ofBytes [99]) (.ofBytes [118]) c, 0, 1⟩]

def threeKeys (b a c : Int) : KvsRbtree :=
  ((Machine.run (rbtreeEngine.call Alloc.ok) kvsRbtreeCreate (threeSets b a c)).map Prod.fst).getD kvsRbtreeCreate

theorem threeKeys_valid (b a c : Int) : ∃ t, Valid (threeKeys b a c) t := by
  have sets : Meets (rbtreeEngine.call Alloc.ok) (fun _ c => c.op ≠ .scanExpired) kvsRbtreeCreate (threeSets b a c) := by
    simp [Meets, threeSets]
  have keeps : ∀ T (c : KvCall), (∃ t, Valid T t) → c.op ≠ .scanExpired →
      ∃ T' ret, rbtreeEngine.call Alloc.ok T c = some (T', ret) ∧ ∃ t', Valid T' t' := by
    rintro T c ⟨t, valid⟩ noScan
    obtain ⟨T', ret, t', ran, valid', _⟩ := call_spec valid c noScan
    exact ⟨T', ret, ran, t', valid'⟩
  obtain ⟨T, os, ran, valid⟩ := run_invariant (fun T => ∃ t, Valid T t) keeps ⟨.leaf, valid_create⟩ sets
  rw [threeKeys, ran]
  exact valid

theorem scan_expired_iff_leaf : ∃ t, Valid (threeKeys (-1) 1 (-1)) t ∧ (expiredCells 5 t).length ≤ maxExpired ∧ Swept (threeKeys (-1) 1 (-1)) 5 := by
  obtain ⟨t, valid⟩ := threeKeys_valid (-1) 1 (-1)
  have few : (expiredCells 5 t).length ≤ maxExpired := by
    have most : (expiredCells 5 t).length ≤ t.inorder.length := length_filter_le _ _
    have size := valid.rep.size_le
    have brk : (threeKeys (-1) 1 (-1)).brk = 4 := by decide +kernel
    rw [brk] at size
    exact most.trans (size.trans (by decide))
  refine ⟨t, valid, few, (scan_expired_iff valid few).mpr ?_⟩
  have collected := rbtreeCollectExpired_eq valid few
  have leaf : rbtreeCollectExpired (threeKeys (-1) 1 (-1)) 5 maxExpired ((threeKeys (-1) 1 (-1)).brk + 1) (threeKeys (-1) 1 (-1)).root [] =
      some [2] := by decide +kernel
  rw [← some.inj (leaf.symm.trans collected)]
  have children : (threeKeys (-1) 1 (-1)).child .left 2 = some nil := by decide +kernel
  refine ⟨?_, fun _ _ => trivial⟩
  rintro ⟨l, r, left, _, real, _⟩
  exact real (some.inj (left.symm.trans children))

/-- With root and right child expired, the scan deletes the freed child; with the root alone, the child's key keeps the root's
    expiry time. -/
theorem scan_stale_pointer :
    (Machine.run (rbtreeEngine.call Alloc.ok) kvsRbtreeCreate (threeSets 1 (-1) 1)).map Prod.snd = some [.code 0, .code 0, .code 0] ∧
      kvsRbtreeScanExpired 5 (threeKeys 1 (-1) 1) = none ∧ ¬ Swept (threeKeys 1 (-1) 1) 5 ∧ ¬ Swept (threeKeys 1 (-1) (-1)) 5 := by
  have stale : (kvsRbtreeScanExpired 5 (threeKeys 1 (-1) 1)).isNone = true := by decide +kernel
  have fault := isNone_iff_eq_none.mp stale
  refine ⟨by decide +kernel, fault, ?_, ?_⟩
  · rintro ⟨T', ran, _⟩
    rw [fault] at ran
    cases ran
  · rintro ⟨T', ran, _, same⟩
    have left : (kvsRbtreeScanExpired 5 (threeKeys 1 (-1) (-1))).bind (fun T => rbtreeLookup T (.ofBytes [99])) =
        some ⟨.str (.ofBytes [118]), 1⟩ := by decide +kernel
    have before : rbtreeLookup (threeKeys 1 (-1) (-1)) (.ofBytes [99]) = some ⟨.str (.ofBytes [118]), -1⟩ := by decide +kernel
    rw [ran, bind_some, same] at left
    dsimp only at left
    rw [before] at left
    exact absurd left (by decide)

end AICacheDB.Rbtree
