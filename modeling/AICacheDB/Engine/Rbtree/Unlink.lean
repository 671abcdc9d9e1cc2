import AICacheDB.Engine.Rbtree.Delete

open RedBlack List Option

namespace AICacheDB.Rbtree

variable {κ ν : Type} {T : Rbtree κ ν} {π : Path (Cell κ ν)} {d : Side} {c : Color}
  {u t : ColorTree (Cell κ ν)} {y : Cell κ ν}

theorem setParent_child {p : Addr} (q : Addr) (stored : Stored T.mem p u)
    (nodup : (addrs u).Nodup) (nilFree : T.mem nil = none) :
    ∃ T', T.setParent (rootAddr u) q = some T' ∧ Stored T'.mem q u ∧ T'.parent (rootAddr u) = some q ∧
      T'.root = T.root ∧ KeepsOutside (addrs u) { T with nilParent := T'.nilParent } T' := by
  cases u with
  | leaf =>
    refine ⟨{ T with nilParent := q }, by simp [setParent], trivial, by simp [parent], rfl, .refl _ _⟩
  | node c l x r =>
    obtain ⟨T', update, stored', keeps, root⟩ := setParent_guarded (q := q) stored nodup nilFree
    have real : x.addr ≠ nil := by
      intro same
      have live := stored.1
      rw [same, nilFree] at live
      cases live
    rw [rootAddr_node, if_pos real] at update
    have read : T'.parent x.addr = some q := by
      rw [parent, if_neg real, stored'.1]
      rfl
    have sentinel : { T with nilParent := T'.nilParent } = T := by rw [keeps.nilParent]
    exact ⟨T', update, stored', read, root, sentinel.symm ▸ keeps⟩

theorem Represents.set_nilParent (rep : Represents T t) (q : Addr) : Represents { T with nilParent := q } t :=
  ⟨rep.root, rep.stored, rep.distinct, rep.nilFree, rep.nilBlack, rep.bound, rep.positive⟩

theorem unlink_spec (rep : Represents T (plug π (.join d c u y .leaf))) :
    ∃ T1 T2, T.setParent (rootAddr u) (parentOf π) = some T1 ∧
      T1.relink .left (parentOf π) y.addr (rootAddr u) = some T2 ∧ Represents T2 (plug π u) ∧ Hooked T2 π u ∧
      T2.mem y.addr = T.mem y.addr ∧ Confined (addrs (plug π (.join d c u y .leaf))) T T2 := by
  obtain ⟨nodup, nodupPath, disjoint⟩ := rep.nodup
  obtain ⟨own, _, nodupU, _⟩ := nodup_join.mp nodup
  simp only [mem_addrs_join] at disjoint
  have ownPath : y.addr ∉ pathAddrs π := disjoint _ (.inl rfl)
  obtain ⟨_, storedU, _⟩ := stored_join.mp rep.focus
  obtain ⟨T1, update, stored1, read1, root1, keeps1⟩ := setParent_child (parentOf π) storedU nodupU rep.nilFree
  have mem1 : ∀ a, a ∉ addrs u → T1.mem a = T.mem a := fun a outside => keeps1.mem a outside
  have path := rep.path
  rw [rootAddr_join] at path
  have path1 : StoredPath T1.mem π y.addr :=
    path.congr fun a inPath => mem1 a fun inU => disjoint a (.inr (.inl inU)) inPath
  have nilU : nil ∉ addrs u := fun inside => rep.notNil (mem_addrs_plug.mpr (.inl (mem_addrs_join.mpr (.inr (.inl inside)))))
  have nil1 : T1.mem nil = none := (mem1 nil nilU).trans rep.nilFree
  have root : T1.root = topAddr π y.addr := by rw [root1, rep.root, rootAddr_plug, rootAddr_join]
  have apart : ∀ f ρ, π = f :: ρ → rootAddr f.sibling ≠ y.addr := by
    intro f ρ shape same
    subst shape
    apply ownPath
    rw [mem_pathAddrs_cons, ← same]
    exact .inr (.inl (rootAddr_mem (same ▸ rep.ne_nil)))
  obtain ⟨T2, link, path2, root2, keeps2⟩ := relink_spec .left (rootAddr u) path1 root nil1 nodupPath apart
  have sub : ∀ a, a ∈ addrs u ∨ a ∈ pathAddrs π → a ∈ addrs (plug π (.join d c u y .leaf)) := by
    intro a member
    rw [mem_addrs_plug, mem_addrs_join]
    tauto
  have keeps : KeepsOutside (addrs (plug π (.join d c u y .leaf))) { T with nilParent := T1.nilParent } T2 :=
    (keeps1.mono fun a inside => sub a (.inl inside)).trans (keeps2.mono fun a inside => sub a (.inr inside))
  have stored2 : Stored T2.mem (parentOf π) u :=
    stored1.congr fun a inside => keeps2.mem a (disjoint a (.inr (.inl inside)))
  have rep2 : Represents T2 (plug π u) := by
    refine (rep.set_nilParent T1.nilParent).replace keeps root2 path2 stored2 ?_ nodupU
    intro a inside
    exact mem_addrs_join.mpr (.inr (.inl inside))
  refine ⟨T1, T2, update, link, rep2, ?_, (keeps2.mem _ ownPath).trans (mem1 _ own), keeps.brk, keeps.mem, keeps.live⟩
  by_cases leaf : u = .leaf
  · subst leaf
    rw [rootAddr_leaf, parent, if_pos rfl] at read1
    rw [Hooked, rootAddr_leaf, parent, if_pos rfl, keeps2.nilParent]
    exact read1
  · exact .of_real rep2 leaf

variable {far near : ColorTree (Cell κ ν)} {n : RbtreeNode κ ν} {z : Cell κ ν}

theorem modify_payload {x : Cell κ ν} (x' : Cell κ ν)
    (rep : Represents T (plug π (.join d c near x far))) (g : RbtreeNode κ ν → RbtreeNode κ ν) (place : x'.addr = x.addr)
    (change : ∀ a b p, g (cellNode d c x a b p) = cellNode d c x' a b p) :
    ∃ T', T.modify x.addr g = some T' ∧ Represents T' (plug π (.join d c near x' far)) ∧
      KeepsOutside (addrs (plug π (.join d c near x far))) T T' := by
  have node := rep.node
  obtain ⟨nodup, _, disjoint⟩ := rep.nodup
  obtain ⟨ownNear, ownFar, nodups⟩ := nodup_join.mp nodup
  have own : x.addr ∈ addrs (.join d c near x far) := mem_addrs_join.mpr (.inl rfl)
  have sub := stored_join.mp rep.focus
  have path := rep.path
  rw [rootAddr_join] at path
  let n' := cellNode d c x' (rootAddr near) (rootAddr far) (parentOf π)
  have keeps : KeepsOutside (addrs (plug π (.join d c near x far))) T (T.write x.addr n') :=
    KeepsOutside.write node (mem_addrs_plug.mpr (.inl own)) _
  refine ⟨T.write x.addr n', by rw [modify, node, map_some, change], rep.replace keeps ?_ ?_ ?_ ?_ ?_, keeps⟩
  · rw [rootAddr_join, place, write_root, rep.root, rootAddr_plug, rootAddr_join]
  · rw [rootAddr_join, place]
    exact path.congr fun a inPath => write_mem_of_ne T n' (ne_of_mem_of_not_mem inPath (disjoint _ own))
  · rw [stored_join, place]
    refine ⟨write_mem_self _ _ _, sub.2.1.congr ?_, sub.2.2.congr ?_⟩
    · exact fun a inside => write_mem_of_ne T n' (ne_of_mem_of_not_mem inside ownNear)
    · exact fun a inside => write_mem_of_ne T n' (ne_of_mem_of_not_mem inside ownFar)
  · intro a
    simp [mem_addrs_join, place]
  · rw [nodup_join, place]
    exact ⟨ownNear, ownFar, nodups⟩

theorem miniLoop_spec (fuel : Nat) (rep : Represents T (plug π t)) (real : t ≠ .leaf) (enough : t.inorder.length ≤ fuel) :
    ∃ ρ cy y v, T.miniLoop fuel (rootAddr t) = some y.addr ∧ t = plug ρ (.join .right cy v y .leaf) ∧ ρ.before = [] := by
  induction t generalizing fuel π with
  | leaf => exact absurd rfl real
  | node ct l x r ihl ihr =>
    simp only [ColorTree.inorder, length_append, length_cons] at enough
    obtain ⟨fuel, rfl⟩ : ∃ k, fuel = k + 1 := ⟨fuel - 1, by omega⟩
    have readL := Represents.read_near (d := .left) rep
    by_cases leaf : l = .leaf
    · subst leaf
      exact ⟨[], ct, x, r, by simp [miniLoop, readL], rfl, rfl⟩
    · have onLeft : Represents T (plug (⟨.left, ct, x, r⟩ :: π) l) := rep
      obtain ⟨ρ, cy, y, v, loop, shape, first⟩ := ihl fuel onLeft leaf (by omega)
      have realL := onLeft.rootAddr_ne_nil leaf
      refine ⟨ρ ++ [⟨.left, ct, x, r⟩], cy, y, v, ?_, ?_, ?_⟩
      · simp [miniLoop, readL, realL, loop]
      · rw [plug_append, ← shape]
        rfl
      · rw [before_append, first]
        rfl

theorem deleteUnlink_repair {cy : Color} {n : Nat} (rep : Represents T (plug π u))
    (hooked : Hooked T π u) (piece : Balanced (.join d cy u y .leaf) c n) (ctx : Context π c n) :
    ∃ T' t' m, (if cy = .black then T.rbtreeDeleteFixup (rootAddr u) else some T) = some T' ∧
      Reshaped T (plug π u) T' t' ∧ Balanced t' .black m := by
  obtain ⟨rfl, kinds⟩ := piece.join_cases
  rcases kinds with ⟨rfl, uB, leafB⟩ | ⟨rfl, cu, cl, k, rfl, uB, leafB⟩
  · cases leafB
    obtain ⟨m, whole⟩ := ctx.weaken.plug uB
    exact ⟨T, _, m, rfl, .refl rep, whole⟩
  · cases leafB
    have short : Short u 0 := by
      cases cu with
      | black => exact .inl uB
      | red => exact .inr ⟨uB.color_eq, uB.paint_black⟩
    exact rbtreeDeleteFixup_spec rep hooked short ctx

theorem deleteUnlink_child (rep : Represents T (plug π (.join d c u y .leaf))) :
    ∃ yl yr, T.child .left y.addr = some yl ∧ T.child .right y.addr = some yr ∧
      (if yl ≠ nil then yl else if yr ≠ nil then yr else nil) = rootAddr u := by
  have readN := rep.read_near
  have readF := rep.read_far
  cases d with
  | left => exact ⟨_, _, readN, readF, by by_cases isNil : rootAddr u = nil <;> simp [isNil]⟩
  | right => exact ⟨_, _, readF, readN, by by_cases isNil : rootAddr u = nil <;> simp [isNil]⟩

theorem deleteUnlink_self {m : Nat}
    (rep : Represents T (plug π (.join d c u y .leaf))) (height : Balanced (plug π (.join d c u y .leaf)) .black m) :
    ∃ T' t' m' n, T.deleteUnlink y.addr y.addr = some (T', y.addr) ∧ Represents T' t' ∧ Balanced t' .black m' ∧
      t'.inorder = (plug π u).inorder ∧ T'.mem y.addr = some n ∧ n.key = y.key ∧ n.value = y.value ∧
      Confined (addrs (plug π (.join d c u y .leaf))) T T' := by
  obtain ⟨yl, yr, readL, readR, child⟩ := deleteUnlink_child rep
  obtain ⟨T1, T2, update, link, rep2, hooked, node, confined⟩ := unlink_spec rep
  obtain ⟨c', k, piece, ctx⟩ := height.unplug
  obtain ⟨T3, t', m', repair, step, balanced⟩ := deleteUnlink_repair rep2 hooked piece ctx
  have real := rep.ne_nil
  rw [rep.node] at node
  have readC : T2.color y.addr = some c := by simp [color, real, node]
  obtain ⟨nodup, _, disjoint⟩ := rep.nodup
  have own : y.addr ∉ addrs (plug π u) := by
    rw [mem_addrs_plug, not_or]
    exact ⟨(nodup_join.mp nodup).1, disjoint _ (mem_addrs_join.mpr (.inl rfl))⟩
  refine ⟨T3, t', m', _, ?_, step.rep, balanced, step.inorder, (step.keeps.mem _ own).trans node, by simp, by simp, ?_⟩
  · simp only [deleteUnlink, readL, readR, child, rep.read_parent, update, link, readC, repair, ne_eq, not_true_eq_false,
      if_false, bind_eq_bind, bind_some]
  · refine confined.trans (step.keeps.confined ?_)
    intro a inside
    rw [mem_addrs_plug, mem_addrs_join] at *
    tauto

theorem Represents.write_outside {a : Addr} (rep : Represents T t)
    (outside : a ∉ addrs t) (live : T.mem a = some n) (n' : RbtreeNode κ ν) : Represents (T.write a n') t := by
  have real : nil ≠ a := by
    intro same
    rw [← same, rep.nilFree] at live
    cases live
  refine ⟨rep.root, rep.stored.congr ?_, rep.distinct, ?_, rep.nilBlack, ?_, rep.positive⟩
  · exact fun b inside => write_mem_of_ne T n' (ne_of_mem_of_not_mem inside outside)
  · rw [write_mem_of_ne T n' real, rep.nilFree]
  · intro b m h
    by_cases same : b = a
    · exact same ▸ rep.bound a n live
    · rw [write_mem_of_ne T n' same] at h
      exact rep.bound b m h

theorem swapPayload_spec {y : Addr} (rep : Represents T (plug π (.join d c near z far))) (node : T.mem y = some n)
    (outside : y ∉ addrs (plug π (.join d c near z far))) : ∃ T', T.swapPayload z.addr y = some T' ∧
      Represents T' (plug π (.join d c near { z with key := n.key, value := n.value } far)) ∧
      T'.mem y = some { n with key := z.key, value := z.value } ∧ T'.nilParent = T.nilParent ∧
      Confined (y :: addrs (plug π (.join d c near z far))) T T' := by
  obtain ⟨T1, update, rep1, keeps1⟩ := modify_payload { z with key := n.key, value := n.value } rep
    (fun m => { m with key := n.key, value := n.value }) rfl (by cases d <;> simp [cellNode])
  have node1 : T1.mem y = some n := (keeps1.mem y outside).trans node
  let n' : RbtreeNode κ ν := { n with key := z.key, value := z.value }
  have outside1 : y ∉ addrs (plug π (.join d c near { z with key := n.key, value := n.value } far)) := by
    rw [mem_addrs_plug, mem_addrs_join] at outside ⊢
    exact outside
  refine ⟨T1.write y n', ?_, rep1.write_outside outside1 node1 n', write_mem_self _ _ _, keeps1.nilParent, ?_⟩
  · have second : (T1.modify y fun m => { m with key := z.key, value := z.value }) = some (T1.write y n') := by
      rw [modify, node1, map_some]
    simp [swapPayload, rep.node, node, update, cellNode_key, cellNode_value, second]
  · exact (keeps1.confined (subset_cons_self _ _)).trans
      ((KeepsOutside.write node1 (mem_cons_self ..) n').confined (Subset.refl _))

theorem deleteUnlink_successor {ρ : Path (Cell κ ν)} {l v : ColorTree (Cell κ ν)} {cz cy : Color}
    {m : Nat} (rep : Represents T (plug (ρ ++ ⟨.right, cz, z, l⟩ :: π) (.join d cy v y .leaf)))
    (height : Balanced (plug (ρ ++ ⟨.right, cz, z, l⟩ :: π) (.join d cy v y .leaf)) .black m) :
    ∃ T' t' m' n, T.deleteUnlink z.addr y.addr = some (T', y.addr) ∧ Represents T' t' ∧ Balanced t' .black m' ∧
      t'.inorder = (plug (ρ ++ ⟨.right, cz, { z with key := y.key, value := y.value }, l⟩ :: π) v).inorder ∧
      T'.mem y.addr = some n ∧ n.key = z.key ∧ n.value = z.value ∧
      Confined (addrs (plug (ρ ++ ⟨.right, cz, z, l⟩ :: π) (.join d cy v y .leaf))) T T' := by
  let f : Frame (Cell κ ν) := ⟨.right, cz, z, l⟩
  let f' : Frame (Cell κ ν) := ⟨.right, cz, { z with key := y.key, value := y.value }, l⟩
  have focusZ : ∀ (g : Frame (Cell κ ν)) s, plug (ρ ++ g :: π) s = plug π (.join g.side g.color (plug ρ s) g.elem g.sibling) := by
    intro g s
    rw [plug_append]
    rfl
  obtain ⟨yl, yr, readL, readR, child⟩ := deleteUnlink_child rep
  obtain ⟨T1, T2, update, link, rep2, hooked, node, confined⟩ := unlink_spec rep
  obtain ⟨nodup, _, disjoint⟩ := rep.nodup
  have own : y.addr ∉ addrs (plug (ρ ++ f :: π) v) := by
    rw [mem_addrs_plug, not_or]
    exact ⟨(nodup_join.mp nodup).1, disjoint _ (mem_addrs_join.mpr (.inl rfl))⟩
  have apart : y.addr ≠ z.addr := by
    intro same
    apply own
    rw [focusZ, mem_addrs_plug, mem_addrs_join, same]
    exact .inl (.inl rfl)
  rw [rep.node] at node
  have repZ : Represents T2 (plug π (.join .right cz (plug ρ v) z l)) := focusZ f v ▸ rep2
  obtain ⟨T3, swap, rep3, node3, nil3, confined3⟩ := swapPayload_spec repZ node (focusZ f v ▸ own)
  have rep3' : Represents T3 (plug (ρ ++ f' :: π) v) := by
    rw [focusZ]
    simp only [cellNode_key, cellNode_value] at rep3
    exact rep3
  have hooked3 : Hooked T3 (ρ ++ f' :: π) v := by
    by_cases leaf : v = .leaf
    · have top : parentOf (ρ ++ f' :: π) = parentOf (ρ ++ f :: π) := by cases ρ <;> rfl
      subst leaf
      rw [Hooked, rootAddr_leaf, parent, if_pos rfl] at hooked ⊢
      rw [nil3, hooked, top]
    · exact .of_real rep3' leaf
  obtain ⟨c', k, piece, ctx⟩ := height.unplug
  obtain ⟨T4, t', m', repair, step, balanced⟩ :=
    deleteUnlink_repair rep3' hooked3 piece (ctx.replace_elem { z with key := y.key, value := y.value })
  have sameAddrs : ∀ a, a ∈ addrs (plug (ρ ++ f' :: π) v) ↔ a ∈ addrs (plug (ρ ++ f :: π) v) := by
    intro a
    rw [focusZ, focusZ, mem_addrs_plug, mem_addrs_plug, mem_addrs_join, mem_addrs_join]
  have inside : ∀ a, a ∈ addrs (plug (ρ ++ f :: π) v) → a ∈ addrs (plug (ρ ++ f :: π) (.join d cy v y .leaf)) := by
    intro a member
    rw [mem_addrs_plug] at member ⊢
    exact member.imp_left fun inV => mem_addrs_join.mpr (.inr (.inl inV))
  have own' : y.addr ∉ addrs (plug (ρ ++ f' :: π) v) := fun member => own ((sameAddrs _).mp member)
  have readC : T3.color y.addr = some cy := by simp [color, rep.ne_nil, node3]
  refine ⟨T4, t', m', _, ?_, step.rep, balanced, step.inorder, (step.keeps.mem _ own').trans node3, rfl, rfl, ?_⟩
  · simp only [deleteUnlink, readL, readR, child, rep.read_parent, update, link, swap, readC, repair, apart, ne_eq,
      not_false_eq_true, if_true, bind_eq_bind, bind_some]
  · refine (confined.trans (confined3.mono ?_)).trans (step.keeps.confined fun a member => inside a ((sameAddrs a).mp member))
    intro a member
    rcases mem_cons.mp member with rfl | inTree
    · exact mem_addrs_plug.mpr (.inl (mem_addrs_join.mpr (.inl rfl)))
    · exact inside a (focusZ f v ▸ inTree)

section Order

variable [LinearOrder κ] {t : ColorTree (Cell κ ν)} {z : Cell κ ν} {xs ys : List (Cell κ ν)} {l r : ColorTree (Cell κ ν)}

theorem Sorted.remove (sorted : Sorted (xs ++ z :: ys)) : Sorted (xs ++ ys) :=
  Pairwise.sublist ((sublist_cons_self z ys).append_left xs) sorted

theorem Sorted.take_over {s : Cell κ ν} (z' : Cell κ ν) (sorted : Sorted (xs ++ z :: s :: ys))
    (same : z'.key = s.key) : Sorted (xs ++ z' :: ys) := by
  have rest : Sorted (xs ++ s :: ys) := sorted.remove
  obtain ⟨left, right, across⟩ := pairwise_append.mp rest
  obtain ⟨above, right⟩ := pairwise_cons.mp right
  refine pairwise_append.mpr ⟨left, pairwise_cons.mpr ⟨fun y inside => same ▸ above y inside, right⟩, ?_⟩
  intro x inLeft y inRight
  rcases mem_cons.mp inRight with rfl | later
  · exact same ▸ across x inLeft s (by simp)
  · exact across x inLeft y (by simp [later])

def TwoChildren (T : Rbtree κ ν) (z : Addr) : Prop :=
  ∃ l r, T.child .left z = some l ∧ T.child .right z = some r ∧ l ≠ nil ∧ r ≠ nil

theorem rbtreeDelete_one (valid : Valid T (plug π (.node c l z r))) (empty : l = .leaf ∨ r = .leaf) :
    ∃ T' t' n, T.rbtreeDelete z.addr = some (T', z.addr) ∧ Valid T' t' ∧
      t'.inorder = π.before ++ (l.inorder ++ r.inorder) ++ π.after ∧ T'.mem z.addr = some n ∧ n.key = z.key ∧
      n.value = z.value ∧ Confined (addrs (plug π (.node c l z r))) T T' ∧ ¬ TwoChildren T z.addr := by
  obtain ⟨m, height⟩ := valid.height
  obtain ⟨d, u, shape, order⟩ : ∃ d u, ColorTree.node c l z r = .join d c u z .leaf ∧ u.inorder = l.inorder ++ r.inorder := by
    rcases empty with rfl | rfl
    · exact ⟨.right, r, rfl, rfl⟩
    · exact ⟨.left, l, rfl, by simp [ColorTree.inorder]⟩
  have readL := Represents.read_near (d := .left) valid.rep
  have readR := Represents.read_far (d := .left) valid.rep
  have nils : rootAddr l = nil ∨ rootAddr r = nil := by
    rcases empty with rfl | rfl
    · exact .inl rfl
    · exact .inr rfl
  have rep := valid.rep
  have sorted := valid.sorted
  rw [shape] at rep height
  obtain ⟨T', t', m', n, ran, rep', balanced, inorder, node, key, value, confined⟩ := deleteUnlink_self rep height
  have list : t'.inorder = π.before ++ (l.inorder ++ r.inorder) ++ π.after := by rw [inorder, inorder_plug, order]
  refine ⟨T', t', n, ?_, ⟨rep', ⟨m', balanced⟩, ?_⟩, list, node, key, value, shape ▸ confined, ?_⟩
  · simp only [rbtreeDelete, readL, Side.other] at readR ⊢
    simp [readR, nils, ran]
  · rw [list]
    rw [inorder_plug, ColorTree.inorder] at sorted
    have split : Sorted ((π.before ++ l.inorder) ++ z :: (r.inorder ++ π.after)) := by simpa using sorted
    simpa using split.remove
  · intro two
    obtain ⟨a, b, childL, childR, realL, realR⟩ := two
    rw [readL] at childL
    simp only [Side.other] at readR
    rw [readR] at childR
    cases childL
    cases childR
    exact nils.elim realL realR

theorem rbtreeDelete_two (valid : Valid T (plug π (.node c l z r))) (realL : l ≠ .leaf) (realR : r ≠ .leaf) :
    ∃ T' t' n s ys, T.rbtreeDelete z.addr = some (T', s.addr) ∧ Valid T' t' ∧ r.inorder = s :: ys ∧
      t'.inorder = π.before ++ l.inorder ++ { z with key := s.key, value := s.value } :: ys ++ π.after ∧
      T'.mem s.addr = some n ∧ n.key = z.key ∧ n.value = z.value ∧
      Confined (addrs (plug π (.node c l z r))) T T' ∧ TwoChildren T z.addr ∧ T.rbtreeSuccessor z.addr = some s.addr := by
  obtain ⟨m, height⟩ := valid.height
  have readL := Represents.read_near (d := .left) valid.rep
  have readR : T.child .right z.addr = some (rootAddr r) := Represents.read_far (d := .left) valid.rep
  have readP := Represents.read_parent (d := .left) valid.rep
  have onL : Represents T (plug (⟨.left, c, z, r⟩ :: π) l) := valid.rep
  have onR : Represents T (plug (⟨.right, c, z, l⟩ :: π) r) := valid.rep
  have nilL := onL.rootAddr_ne_nil realL
  have nilR := onR.rootAddr_ne_nil realR
  have enough : r.inorder.length ≤ T.brk := by
    have small := onR.size_le
    have deep := length_plug (⟨.right, c, z, l⟩ :: π) r
    omega
  obtain ⟨ρ, cy, y, v, loop, shape, first⟩ := miniLoop_spec T.brk onR realR enough
  have successor : T.rbtreeSuccessor z.addr = some y.addr := by
    simp [rbtreeSuccessor, readP, readR, nilR, rbtreeMini, loop]
  have whole : plug π (.node c l z r) = plug (ρ ++ ⟨.right, c, z, l⟩ :: π) (.join .right cy v y .leaf) := by
    rw [plug_append, ← shape]
    rfl
  have rest : r.inorder = y :: (v.inorder ++ ρ.after) := by
    rw [shape, inorder_plug, first]
    simp [ColorTree.inorder]
  have rep := valid.rep
  rw [whole] at rep height
  obtain ⟨T', t', m', n, ran, rep', balanced, inorder, node, key, value, confined⟩ := deleteUnlink_successor rep height
  have list : t'.inorder =
      π.before ++ l.inorder ++ { z with key := y.key, value := y.value } :: (v.inorder ++ ρ.after) ++ π.after := by
    rw [inorder, inorder_plug, before_append, after_append, first]
    simp [Path.before, Path.after]
  refine ⟨T', t', n, y, v.inorder ++ ρ.after, ?_, ⟨rep', ⟨m', balanced⟩, ?_⟩, rest, list, node, key, value,
    whole ▸ confined, ⟨_, _, readL, readR, nilL, nilR⟩, successor⟩
  · simp [rbtreeDelete, readL, readR, nilL, nilR, successor, ran]
  · have sorted := valid.sorted
    rw [inorder_plug, ColorTree.inorder, rest] at sorted
    have split : Sorted ((π.before ++ l.inorder) ++ z :: y :: (v.inorder ++ ρ.after ++ π.after)) := by simpa using sorted
    rw [list]
    have taken := split.take_over { z with key := y.key, value := y.value } rfl
    simpa using taken

def Deleted (T : Rbtree κ ν) (z : Cell κ ν) (xs ys : List (Cell κ ν)) (t' : ColorTree (Cell κ ν)) : Prop :=
  (¬ TwoChildren T z.addr ∧ t'.inorder = xs ++ ys) ∨
    ∃ s rest, TwoChildren T z.addr ∧ T.rbtreeSuccessor z.addr = some s.addr ∧ ys = s :: rest ∧
      t'.inorder = xs ++ { z with key := s.key, value := s.value } :: rest

theorem rbtreeDelete_spec (valid : Valid T t) (member : z ∈ t.inorder) :
    ∃ T' t' y n xs ys, T.rbtreeDelete z.addr = some (T', y) ∧ Valid T' t' ∧ t.inorder = xs ++ z :: ys ∧
      Deleted T z xs ys t' ∧ T'.mem y = some n ∧ n.key = z.key ∧ n.value = z.value ∧ y ∈ addrs t ∧ y ∉ addrs t' ∧
      Confined (addrs t) T T' := by
  obtain ⟨π, c, l, r, rfl⟩ := exists_plug_of_mem member
  have split : (plug π (.node c l z r)).inorder = (π.before ++ l.inorder) ++ z :: (r.inorder ++ π.after) := by
    rw [inorder_plug, ColorTree.inorder]
    simp
  have distinct := valid.rep.distinct
  rw [addrs, split] at distinct
  have apart := distinct
  rw [map_append, map_cons, nodup_middle, nodup_cons, mem_append] at apart
  by_cases empty : l = .leaf ∨ r = .leaf
  · obtain ⟨T', t', n, ran, valid', list, node, key, value, confined, one⟩ := rbtreeDelete_one valid empty
    have list' : t'.inorder = (π.before ++ l.inorder) ++ (r.inorder ++ π.after) := by simpa using list
    refine ⟨T', t', z.addr, n, _, _, ran, valid', split, .inl ⟨one, list'⟩, node, key, value, mem_map_of_mem member, ?_,
      confined⟩
    rw [addrs, list', map_append, mem_append]
    exact apart.1
  · rw [not_or] at empty
    obtain ⟨T', t', n, s, rest, ran, valid', first, list, node, key, value, confined, two, successor⟩ :=
      rbtreeDelete_two valid empty.1 empty.2
    have list' : t'.inorder = (π.before ++ l.inorder) ++ { z with key := s.key, value := s.value } :: (rest ++ π.after) := by
      simpa using list
    have tail : r.inorder ++ π.after = s :: (rest ++ π.after) := by rw [first, cons_append]
    refine ⟨T', t', s.addr, n, _, _, ran, valid', split, .inr ⟨s, _, two, successor, tail, list'⟩, node, key, value, ?_,
      ?_, confined⟩
    · rw [addrs, split, tail]
      simp
    rw [tail] at distinct
    rw [addrs, list']
    simp only [map_append, map_cons, nodup_append, nodup_cons, mem_cons, mem_append] at distinct ⊢
    grind

end Order

end AICacheDB.Rbtree
