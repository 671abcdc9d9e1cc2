import AICacheDB.Engine.Rbtree.Unlink
import Mathlib.Data.List.Sort

open CLib RedBlack List Option

namespace AICacheDB.Rbtree

inductive Reach {κ ν : Type} (T : Rbtree κ ν) : Addr → Prop
  | root (real : T.root ≠ nil) : Reach T T.root
  | child {a b : Addr} (d : Side) (above : Reach T a) (link : T.child d a = some b) (real : b ≠ nil) : Reach T b

section Reach

variable {κ ν : Type} {T : Rbtree κ ν} {t : ColorTree (Cell κ ν)}

theorem Reach.mem (rep : Represents T t) {a : Addr} (reach : Reach T a) : a ∈ addrs t := by
  induction reach with
  | root real =>
    rw [rep.root] at real ⊢
    exact rootAddr_mem real
  | @child a b d above link real ih =>
    obtain ⟨x, member, rfl⟩ := mem_map.mp ih
    obtain ⟨π, c, l, r, rfl⟩ := exists_plug_of_mem member
    have inside : ∀ s : ColorTree (Cell κ ν), b = rootAddr s → addrs s ⊆ addrs (.node c l x r) → b ∈ addrs (plug π (.node c l x r)) := by
      intro s same sub
      rw [same] at real ⊢
      exact mem_addrs_plug.mpr (.inl (sub (rootAddr_mem real)))
    have readL := Represents.read_near (d := .left) rep
    have readR := Represents.read_far (d := .left) rep
    have member' : ∀ e, e ∈ addrs (.node c l x r) ↔ e = x.addr ∨ e ∈ addrs l ∨ e ∈ addrs r :=
      fun e => mem_addrs_join (d := .left) (c := c)
    cases d with
    | left =>
      rw [readL] at link
      exact inside l (some.inj link).symm fun e inL => (member' e).mpr (.inr (.inl inL))
    | right =>
      simp only [Side.other] at readR
      rw [readR] at link
      exact inside r (some.inj link).symm fun e inR => (member' e).mpr (.inr (.inr inR))

variable {x : Cell κ ν}

theorem Reach.of_subtree {π : Path (Cell κ ν)} (rep : Represents T (plug π t))
    (top : t ≠ .leaf → Reach T (rootAddr t)) (member : x ∈ t.inorder) : Reach T x.addr := by
  induction t generalizing π with
  | leaf => simp [ColorTree.inorder] at member
  | node c l y r ihl ihr =>
    have here : Reach T y.addr := top (by simp)
    have onL : Represents T (plug (⟨.left, c, y, r⟩ :: π) l) := rep
    have onR : Represents T (plug (⟨.right, c, y, l⟩ :: π) r) := rep
    simp only [ColorTree.inorder, mem_append, mem_cons] at member
    rcases member with inL | rfl | inR
    · exact ihl onL (fun real => .child .left here onL.above_near (onL.rootAddr_ne_nil real)) inL
    · exact here
    · exact ihr onR (fun real => .child .right here onR.above_near (onR.rootAddr_ne_nil real)) inR

theorem reach_iff (rep : Represents T t) {a : Addr} : Reach T a ↔ a ∈ addrs t := by
  constructor
  · exact Reach.mem rep
  · intro member
    obtain ⟨x, inside, rfl⟩ := mem_map.mp member
    refine Reach.of_subtree (π := []) rep (fun real => ?_) inside
    have top := Represents.rootAddr_ne_nil (π := []) rep real
    rw [← rep.root] at top ⊢
    exact .root top

theorem Represents.cell (rep : Represents T t) (member : x ∈ t.inorder) :
    ∃ n, T.mem x.addr = some n ∧ n.key = x.key ∧ n.value = x.value ∧ n.expireMs = x.expireMs := by
  obtain ⟨π, c, l, r, rfl⟩ := exists_plug_of_mem member
  exact ⟨_, Represents.node (d := .left) rep, by simp, by simp, by simp⟩

end Reach

/-- `rbtree_insert` of a newly allocated node, whose link fields and colour are arbitrary, and
    `rbtree_delete` of a node. -/
inductive TreeOp (κ ν : Type) where
  | insert (node : RbtreeNode κ ν)
  | delete (node : Addr)

section Step

variable {κ ν : Type} [LinearOrder κ]

def treeStep (T : Rbtree κ ν) : TreeOp κ ν → Option (Rbtree κ ν × Option Addr)
  | .insert node => do
    let (T, z) := T.malloc node
    let T ← T.rbtreeInsert z
    some (T, none)
  | .delete z => do
    let (T, y) ← T.rbtreeDelete z
    some (T, some y)

def TreeAdmits (T : Rbtree κ ν) : TreeOp κ ν → Prop
  | .insert node => ∀ a n, Reach T a → T.mem a = some n → n.key ≠ node.key
  | .delete z => Reach T z

def pairs (t : ColorTree (Cell κ ν)) : List (κ × ν) := t.inorder.map fun x => (x.key, x.value)

def TreeEffect (T : Rbtree κ ν) (t : ColorTree (Cell κ ν)) (T' : Rbtree κ ν) (t' : ColorTree (Cell κ ν)) :
    TreeOp κ ν → Option Addr → Prop
  | .insert node, out =>
    out = none ∧ pairs t' = (pairs t).orderedInsert (fun p q => p.1 ≤ q.1) (node.key, node.value)
  | .delete z, out => ∃ n y m, T.mem z = some n ∧ out = some y ∧ ¬ Reach T' y ∧ T'.mem y = some m ∧
      m.key = n.key ∧ m.value = n.value ∧ (n.key, n.value) ∈ pairs t ∧ pairs t' = (pairs t).filter fun q => q.1 ≠ n.key

variable {T : Rbtree κ ν} {t : ColorTree (Cell κ ν)}

theorem malloc_spec (valid : Valid T t) (n : RbtreeNode κ ν) :
    Valid (T.malloc n).1 t ∧ (T.malloc n).2 = T.brk ∧ (T.malloc n).1.mem T.brk = some n ∧ T.brk ∉ addrs t ∧ T.brk ≠ nil := by
  obtain ⟨rep, height, sorted⟩ := valid
  have real : T.brk ≠ nil := Nat.ne_of_gt rep.positive
  have fresh : T.brk ∉ addrs t := by
    intro member
    obtain ⟨m, live⟩ := rep.stored.live _ member
    exact lt_irrefl _ (rep.bound _ m live)
  refine ⟨⟨⟨rep.root, rep.stored.congr ?_, rep.distinct, ?_, rep.nilBlack, ?_, Nat.succ_pos _⟩, height, sorted⟩, rfl,
    write_mem_self _ _ _, fresh, real⟩
  · exact fun a inside => write_mem_of_ne T n (ne_of_mem_of_not_mem inside fresh)
  · exact (write_mem_of_ne T n (Ne.symm real)).trans rep.nilFree
  · intro a m live
    by_cases same : a = T.brk
    · exact same ▸ Nat.lt_succ_self _
    · exact Nat.lt_succ_of_lt (rep.bound a m ((write_mem_of_ne T n same).symm.trans live))

theorem keys_nodup {l : List (Cell κ ν)} (sorted : Sorted l) : (l.map Cell.key).Nodup := by
  rw [Nodup, pairwise_map]
  exact Pairwise.imp (fun less => less.ne) sorted

theorem cell_unique {x y : Cell κ ν} (valid : Valid T t) (inX : x ∈ t.inorder)
    (inY : y ∈ t.inorder) (same : x.key = y.key) : x = y :=
  inj_on_of_nodup_map (keys_nodup valid.sorted) inX inY same

variable {z : Cell κ ν} {xs ys : List (Cell κ ν)}

theorem modify_valid (valid : Valid T t) (member : z ∈ t.inorder) (v : ν) (e : Int) (g : RbtreeNode κ ν → RbtreeNode κ ν)
    (change : ∀ n, n.key = z.key → n.value = z.value → n.expireMs = z.expireMs → g n = { n with value := v, expireMs := e }) :
    ∃ T' t' xs ys, T.modify z.addr g = some T' ∧ Valid T' t' ∧ t.inorder = xs ++ z :: ys ∧
      t'.inorder = xs ++ { z with value := v, expireMs := e } :: ys := by
  obtain ⟨π, c, l, r, rfl⟩ := exists_plug_of_mem member
  let z' : Cell κ ν := { z with value := v, expireMs := e }
  obtain ⟨T', ran, rep, _⟩ := modify_payload (d := .left) z' valid.rep g rfl fun a b p => change _ rfl rfl rfl
  have split : ∀ x, (plug π (.node c l x r)).inorder = (π.before ++ l.inorder) ++ x :: (r.inorder ++ π.after) := by
    intro x
    rw [inorder_plug, ColorTree.inorder]
    simp
  have sorted := valid.sorted
  rw [split] at sorted
  have sorted' : Sorted ((π.before ++ l.inorder) ++ z' :: (r.inorder ++ π.after)) := by
    obtain ⟨left, right, across⟩ := pairwise_append.mp sorted
    obtain ⟨above, right⟩ := pairwise_cons.mp right
    exact sorted.remove.insert (fun y inside => across y inside z (by simp)) above
  obtain ⟨m, height⟩ := valid.height
  obtain ⟨c', k, piece, ctx⟩ := height.unplug
  refine ⟨T', _, _, _, ran, ⟨rep, ctx.plug (Balanced.replace_elem (d := .left) z' piece), ?_⟩, split z, split z'⟩
  rw [ColorTree.join_left, split]
  exact sorted'

theorem orderedInsert_middle {p : κ × ν} {xs ys : List (κ × ν)} (before : ∀ q ∈ xs, q.1 < p.1) (after : ∀ q ∈ ys, p.1 < q.1) :
    (xs ++ ys).orderedInsert (fun p q => p.1 ≤ q.1) p = xs ++ p :: ys := by
  induction xs with
  | nil =>
    cases ys with
    | nil => rfl
    | cons q ys => simp [(after q (by simp)).le]
  | cons q xs ih =>
    have less := before q (by simp)
    rw [cons_append, orderedInsert_cons, if_neg (not_le_of_gt less), ih fun r inside => before r (by simp [inside])]
    rfl

theorem treeStep_insert (valid : Valid T t) (node : RbtreeNode κ ν) (fresh : ∀ x ∈ t.inorder, x.key ≠ node.key) :
    ∃ T' t', treeStep T (.insert node) = some (T', none) ∧ Valid T' t' ∧
      pairs t' = (pairs t).orderedInsert (fun p q => p.1 ≤ q.1) (node.key, node.value) := by
  obtain ⟨valid1, place, live, own, _⟩ := malloc_spec valid node
  let x : Cell κ ν := ⟨T.brk, node.key, node.value, node.expireMs⟩
  obtain ⟨T', t', xs, ys, ran, valid', before, after, _⟩ :=
    rbtreeInsert_spec (x := x) valid1 live own ⟨rfl, rfl, rfl⟩ fresh
  refine ⟨T', t', ?_, valid', ?_⟩
  · simp only [treeStep, place, bind_eq_bind]
    rw [ran, bind_some]
  · have sorted := valid'.sorted
    rw [after] at sorted
    obtain ⟨_, right, across⟩ := pairwise_append.mp sorted
    obtain ⟨above, _⟩ := pairwise_cons.mp right
    rw [pairs, pairs, before, after, map_append, map_append, map_cons, orderedInsert_middle]
    · intro q member
      obtain ⟨y, inside, rfl⟩ := mem_map.mp member
      exact across y inside x (by simp)
    · intro q member
      obtain ⟨y, inside, rfl⟩ := mem_map.mp member
      exact above y inside

omit [LinearOrder κ] in
theorem Deleted.pairs {t' : ColorTree (Cell κ ν)}
    (deleted : Deleted T z xs ys t') : pairs t' = (xs ++ ys).map fun x => (x.key, x.value) := by
  rcases deleted with ⟨_, list⟩ | ⟨s, rest, _, _, rfl, list⟩
  · rw [Rbtree.pairs, list]
  · rw [Rbtree.pairs, list]
    simp

theorem filter_middle (sorted : Sorted (xs ++ z :: ys)) :
    ((xs ++ z :: ys).map fun x => (x.key, x.value)).filter (fun q => q.1 ≠ z.key) =
      (xs ++ ys).map fun x => (x.key, x.value) := by
  obtain ⟨_, right, across⟩ := pairwise_append.mp sorted
  obtain ⟨above, _⟩ := pairwise_cons.mp right
  have left : ∀ q ∈ xs.map fun x => (x.key, x.value), decide (q.1 ≠ z.key) = true := by
    intro q member
    obtain ⟨x, inside, rfl⟩ := mem_map.mp member
    simpa using (across x inside z (by simp)).ne
  have tail : ∀ q ∈ ys.map fun x => (x.key, x.value), decide (q.1 ≠ z.key) = true := by
    intro q member
    obtain ⟨x, inside, rfl⟩ := mem_map.mp member
    simpa using (above x inside).ne'
  rw [map_append, map_cons, filter_append, filter_cons_of_neg (by simp), filter_eq_self.mpr left,
    filter_eq_self.mpr tail, map_append]

theorem treeStep_delete (valid : Valid T t) {z : Addr} (inTree : Reach T z) :
    ∃ T' t' out, treeStep T (.delete z) = some (T', out) ∧ Valid T' t' ∧ TreeEffect T t T' t' (.delete z) out := by
  obtain ⟨x, member, rfl⟩ := mem_map.mp ((reach_iff valid.rep).mp inTree)
  obtain ⟨n, live, key, value, _⟩ := valid.rep.cell member
  obtain ⟨T', t', y, m, xs, ys, ran, valid', split, deleted, node, key', value', _, outside, _⟩ :=
    rbtreeDelete_spec valid member
  refine ⟨T', t', some y, by simp [treeStep, ran], valid', n, y, m, live, rfl, ?_, node, key'.trans key.symm,
    value'.trans value.symm, ?_, ?_⟩
  · rw [reach_iff valid'.rep]
    exact outside
  · rw [key, value]
    exact mem_map_of_mem member
  · have sorted := valid.sorted
    rw [split] at sorted
    rw [deleted.pairs, key, pairs, split, filter_middle sorted]

theorem treeStep_spec (valid : Valid T t) {op : TreeOp κ ν} (admitted : TreeAdmits T op) :
    ∃ T' t' out, treeStep T op = some (T', out) ∧ Valid T' t' ∧ TreeEffect T t T' t' op out := by
  cases op with
  | insert node =>
    obtain ⟨T', t', ran, valid', list⟩ := treeStep_insert valid node fun x member => by
      obtain ⟨n, live, key, _⟩ := valid.rep.cell member
      rw [← key]
      exact admitted _ n ((reach_iff valid.rep).mpr (mem_map_of_mem member)) live
    exact ⟨T', t', none, ran, valid', rfl, list⟩
  | delete z => exact treeStep_delete valid admitted

theorem valid_create : Valid (kvsRbtreeCreate : Rbtree κ ν) .leaf := by
  refine ⟨⟨rfl, trivial, nodup_nil, rfl, rfl, ?_, Nat.one_pos⟩, ⟨0, .leaf⟩, Pairwise.nil⟩
  intro a n live
  cases live

theorem search_iff (valid : Valid T t) (k : κ) : ∃ a, T.rbtreeSearch k = some a ∧ (a ≠ nil ↔ k ∈ (pairs t).map Prod.fst) ∧
      (a ≠ nil → Reach T a ∧ ∃ n, T.mem a = some n ∧ n.key = k) := by
  have keys : (pairs t).map Prod.fst = t.inorder.map Cell.key := by simp [pairs]
  rcases rbtreeSearch_spec valid k with ⟨x, member, rfl, found⟩ | ⟨absent, found⟩
  · obtain ⟨n, live, key, _⟩ := valid.rep.cell member
    have inside : x.addr ∈ addrs t := mem_map_of_mem member
    have real : x.addr ≠ nil := ne_of_mem_of_not_mem inside valid.rep.notNil
    refine ⟨x.addr, found, ⟨fun _ => ?_, fun _ => real⟩, fun _ => ⟨(reach_iff valid.rep).mpr inside, n, live, key⟩⟩
    rw [keys]
    exact mem_map_of_mem member
  · refine ⟨nil, found, ⟨fun real => absurd rfl real, ?_⟩, fun real => absurd rfl real⟩
    intro member
    rw [keys] at member
    obtain ⟨x, inside, same⟩ := mem_map.mp member
    exact absurd same (absent x inside)

end Step

/-- Insertions of fresh keys and deletions build red-black search trees ordered by `strcmp`; `rbtree_search` decides membership,
    and every further step ends and changes the list of pairs as asked. -/
theorem tree_run_sound {ν : Type} (ops : List (TreeOp CString ν))
    (admitted : Machine.Meets treeStep TreeAdmits kvsRbtreeCreate ops) :
    ∃ T outs t, Machine.run treeStep kvsRbtreeCreate ops = some (T, outs) ∧ Valid T t ∧
      (∀ k, ∃ a, T.rbtreeSearch k = some a ∧ (a ≠ nil ↔ k ∈ (pairs t).map Prod.fst) ∧
        (a ≠ nil → Reach T a ∧ ∃ n, T.mem a = some n ∧ n.key = k)) ∧ ∀ op, TreeAdmits T op →
        ∃ T' t' out, treeStep T op = some (T', out) ∧ Valid T' t' ∧ TreeEffect T t T' t' op out := by
  obtain ⟨T, outs, ran, t, valid⟩ := Machine.run_invariant (fun T => ∃ t, Valid T t)
    (fun T op inv allowed => by
      obtain ⟨t, valid⟩ := inv
      obtain ⟨T', t', out, step, valid', _⟩ := treeStep_spec valid allowed
      exact ⟨T', out, step, t', valid'⟩)
    ⟨.leaf, valid_create⟩ admitted
  exact ⟨T, outs, t, ran, valid, search_iff valid, fun op allowed => treeStep_spec valid allowed⟩

def oneNode : RbtreeNode CString Nat := ⟨.black, 7, 7, 7, CString.ofBytes [107], 5, -1⟩

theorem tree_run_sound_one_node : Machine.Meets treeStep TreeAdmits kvsRbtreeCreate [.insert oneNode, .delete 1] ∧
      ∃ T outs t, Machine.run treeStep kvsRbtreeCreate [.insert oneNode, .delete 1] = some (T, outs) ∧ Valid T t := by
  have rooted : (treeStep kvsRbtreeCreate (.insert oneNode)).map (fun r => r.1.root) = some 1 := by decide
  have admitted : Machine.Meets treeStep TreeAdmits kvsRbtreeCreate [.insert oneNode, .delete 1] := by
    refine ⟨?_, fun T out step => ⟨?_, fun _ _ _ => trivial⟩⟩
    · intro a n reach
      have none := (reach_iff (valid_create (ν := Nat)).rep).mp reach
      cases none
    · rw [step] at rooted
      have top : T.root = 1 := some.inj rooted
      have real : T.root ≠ nil := by
        rw [top]
        decide
      exact top ▸ Reach.root real
  obtain ⟨T, outs, t, ran, valid, _⟩ := tree_run_sound _ admitted
  exact ⟨admitted, T, outs, t, ran, valid⟩

end AICacheDB.Rbtree
