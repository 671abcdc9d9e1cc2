import AICacheDB.Engine.Rbtree.Represent

open RedBlack List Option

namespace AICacheDB.Rbtree

variable {κ ν : Type}

section Cells

variable (d : Side) (c : Color) (x : Cell κ ν) (near far p q : Addr)

@[simp] theorem cellNode_color : (cellNode d c x near far p).color = c := by cases d <;> rfl

@[simp] theorem cellNode_parent : (cellNode d c x near far p).parent = p := by cases d <;> rfl

@[simp] theorem cellNode_key : (cellNode d c x near far p).key = x.key := by cases d <;> rfl

@[simp] theorem cellNode_value : (cellNode d c x near far p).value = x.value := by cases d <;> rfl

@[simp] theorem cellNode_expireMs : (cellNode d c x near far p).expireMs = x.expireMs := by cases d <;> rfl

@[simp] theorem cellNode_child_near : (cellNode d c x near far p).child d = near := by cases d <;> rfl

@[simp] theorem cellNode_child_far : (cellNode d c x near far p).child d.other = far := by cases d <;> rfl

@[simp] theorem cellNode_setChild_near : (cellNode d c x near far p).setChild d q = cellNode d c x q far p := by cases d <;> rfl

@[simp] theorem cellNode_setChild_far : (cellNode d c x near far p).setChild d.other q = cellNode d c x near q p := by
  cases d <;> rfl

theorem cellNode_with_parent : { cellNode d c x near far p with parent := q } = cellNode d c x near far q := by cases d <;> rfl

theorem cellNode_with_color (c' : Color) : { cellNode d c x near far p with color := c' } = cellNode d c' x near far p := by
  cases d <;> rfl

end Cells

/-- `T'` holds the tree `t'`, a rearrangement of the nodes of `t`, and differs from `T` only there. -/
structure Reshaped (T : Rbtree κ ν) (t : ColorTree (Cell κ ν)) (T' : Rbtree κ ν)
    (t' : ColorTree (Cell κ ν)) : Prop where
  rep : Represents T' t'
  keeps : KeepsOutside (addrs t) T T'
  inorder : t'.inorder = t.inorder

variable {T : Rbtree κ ν} {t : ColorTree (Cell κ ν)} {π : Path (Cell κ ν)}

theorem Reshaped.trans {T' T'' : Rbtree κ ν} {t' t'' : ColorTree (Cell κ ν)}
    (first : Reshaped T t T' t') (second : Reshaped T' t' T'' t'') : Reshaped T t T'' t'' := by
  refine ⟨second.rep, first.keeps.trans ?_, second.inorder.trans first.inorder⟩
  have same : addrs t' = addrs t := by rw [addrs, addrs, first.inorder]
  exact same ▸ second.keeps

section Read

variable {T : Rbtree κ ν} {π : Path (Cell κ ν)} {d : Side} {c : Color} {near far : ColorTree (Cell κ ν)} {x : Cell κ ν}

section

variable (rep : Represents T (plug π (.join d c near x far)))

include rep

theorem Represents.node : T.mem x.addr = some (cellNode d c x (rootAddr near) (rootAddr far) (parentOf π)) :=
  (stored_join.mp rep.focus).1

theorem Represents.ne_nil : x.addr ≠ nil := by
  intro same
  have live := rep.node
  rw [same, rep.nilFree] at live
  cases live

theorem Represents.read_color : T.color x.addr = some c := by
  simp [color, rep.ne_nil, rep.node]

theorem Represents.read_parent : T.parent x.addr = some (parentOf π) := by
  simp [parent, rep.ne_nil, rep.node]

theorem Represents.read_near : T.child d x.addr = some (rootAddr near) := by
  simp [child, rep.node]

theorem Represents.read_far : T.child d.other x.addr = some (rootAddr far) := by
  simp [child, rep.node]

end

theorem Represents.read_focus_color {t : ColorTree (Cell κ ν)} (rep : Represents T (plug π t)) :
    T.color (rootAddr t) = some t.color := by
  cases t with
  | leaf => simp [color, rep.nilBlack, ColorTree.color]
  | node c l x r => exact Represents.read_color (d := .left) rep

end Read

theorem addrs_join_perm (d : Side) (c : Color) (near far : ColorTree (Cell κ ν)) (x : Cell κ ν) :
    (addrs (.join d c near x far)).Perm (x.addr :: (addrs near ++ addrs far)) := by
  cases d
  · simp [addrs, ColorTree.inorder]
  · have moved : (addrs far ++ x.addr :: addrs near).Perm (x.addr :: (addrs far ++ addrs near)) :=
      perm_middle
    simpa [addrs, ColorTree.inorder] using moved.trans (perm_append_comm.cons _)

theorem nodup_join {d : Side} {c : Color} {near far : ColorTree (Cell κ ν)} {x : Cell κ ν} :
    (addrs (.join d c near x far)).Nodup ↔ x.addr ∉ addrs near ∧ x.addr ∉ addrs far ∧
      (addrs near).Nodup ∧ (addrs far).Nodup ∧ ∀ a ∈ addrs near, a ∉ addrs far := by
  rw [(addrs_join_perm d c near far x).nodup_iff, nodup_cons, mem_append, nodup_append]
  constructor
  · rintro ⟨own, nodupNear, nodupFar, apart⟩
    exact ⟨fun h => own (.inl h), fun h => own (.inr h), nodupNear, nodupFar,
      fun a near far => apart a near a far rfl⟩
  · rintro ⟨ownNear, ownFar, nodupNear, nodupFar, apart⟩
    exact ⟨fun h => h.elim ownNear ownFar, nodupNear, nodupFar,
      fun a near b far same => apart a near (same ▸ far)⟩

theorem KeepsOutside.write {A : List Addr} {a : Addr} {n : RbtreeNode κ ν}
    (live : T.mem a = some n) (inside : a ∈ A) (n' : RbtreeNode κ ν) : KeepsOutside A T (T.write a n') := by
  refine ⟨rfl, rfl, rfl, ?_, ?_⟩
  · exact fun b outside => write_mem_of_ne T n' (Ne.symm (ne_of_mem_of_not_mem inside outside))
  · intro b m h
    by_cases same : b = a
    · exact ⟨n, same ▸ live⟩
    · exact ⟨m, by rwa [write_mem_of_ne T n' same] at h⟩

theorem setColor_join {d : Side} {c : Color}
    {near far : ColorTree (Cell κ ν)} {x : Cell κ ν} (rep : Represents T (plug π (.join d c near x far))) (c' : Color) :
    ∃ T', T.setColor x.addr c' = some T' ∧
      Reshaped T (plug π (.join d c near x far)) T' (plug π (.join d c' near x far)) := by
  have node := rep.node
  have sub := stored_join.mp rep.focus
  obtain ⟨nodup, _, disjoint⟩ := rep.nodup
  obtain ⟨ownNear, ownFar, _⟩ := nodup_join.mp nodup
  have own : x.addr ∈ addrs (.join d c near x far) := mem_addrs_join.mpr (.inl rfl)
  have order : (ColorTree.join d c' near x far).inorder = (ColorTree.join d c near x far).inorder := by
    cases d <;> rfl
  have sameAddrs : addrs (.join d c' near x far) = addrs (.join d c near x far) := by rw [addrs, addrs, order]
  have elsewhere : ∀ a, a ≠ x.addr →
      (T.write x.addr (cellNode d c' x (rootAddr near) (rootAddr far) (parentOf π))).mem a = T.mem a :=
    fun a other => write_mem_of_ne T _ other
  refine ⟨_, by rw [setColor, if_neg rep.ne_nil, modify, node, map_some, cellNode_with_color], ?_, ?_, ?_⟩
  · refine rep.replace (KeepsOutside.write node (mem_addrs_plug.mpr (.inl own)) _) ?_ ?_ ?_ ?_ (sameAddrs ▸ nodup)
    · rw [rootAddr_join, write_root, rep.root, rootAddr_plug, rootAddr_join]
    · rw [rootAddr_join]
      have path := rep.path
      rw [rootAddr_join] at path
      exact path.congr fun a inPath => elsewhere a (ne_of_mem_of_not_mem inPath (disjoint _ own))
    · refine stored_join.mpr ⟨write_mem_self _ _ _, sub.2.1.congr ?_, sub.2.2.congr ?_⟩
      · exact fun a inNear => elsewhere a (ne_of_mem_of_not_mem inNear ownNear)
      · exact fun a inFar => elsewhere a (ne_of_mem_of_not_mem inFar ownFar)
    · exact fun a inside => sameAddrs ▸ inside
  · exact KeepsOutside.write node (mem_addrs_plug.mpr (.inl own)) _
  · rw [inorder_plug, inorder_plug, order]

theorem pathAddrs_cons_perm (f : Frame (Cell κ ν)) (π : Path (Cell κ ν)) :
    (pathAddrs (f :: π)).Perm (f.elem.addr :: (addrs f.sibling ++ pathAddrs π)) := by
  obtain ⟨side, c, x, s⟩ := f
  cases side
  · simp only [pathAddrs, addrs, Path.before, Path.after, reduceCtorEq, if_false, if_true, append_nil,
      map_append, map_cons, cons_append]
    exact perm_middle.trans ((perm_append_comm_assoc _ _ _).cons _)
  · simp only [pathAddrs, addrs, Path.before, Path.after, reduceCtorEq, if_false, if_true, nil_append,
      map_append, map_cons, map_nil]
    rw [append_assoc, append_assoc]
    refine (perm_append_comm_assoc _ _ _).trans ?_
    exact (perm_middle.append_left _).trans perm_middle

theorem nodup_path_cons {f : Frame (Cell κ ν)} (nodup : (pathAddrs (f :: π)).Nodup) :
    f.elem.addr ∉ addrs f.sibling ∧ f.elem.addr ∉ pathAddrs π := by
  rw [(pathAddrs_cons_perm f π).nodup_iff, nodup_cons, mem_append] at nodup
  exact ⟨fun h => nodup.1 (.inl h), fun h => nodup.1 (.inr h)⟩

theorem setChild_frame {f : Frame (Cell κ ν)} {a : Addr} (b : Addr)
    (path : StoredPath T.mem (f :: π) a) (nodup : (pathAddrs (f :: π)).Nodup) :
    ∃ T', T.setChild f.side f.elem.addr b = some T' ∧ StoredPath T'.mem (f :: π) b ∧ T'.root = T.root ∧
      KeepsOutside (pathAddrs (f :: π)) T T' := by
  obtain ⟨node, sibling, outer⟩ := path
  obtain ⟨ownSibling, ownPath⟩ := nodup_path_cons nodup
  let n' := cellNode f.side f.color f.elem b (rootAddr f.sibling) (parentOf π)
  have linked : T.setChild f.side f.elem.addr b = some (T.write f.elem.addr n') := by
    rw [setChild, modify, node, map_some, cellNode_setChild_near]
  refine ⟨_, linked, ⟨write_mem_self _ _ _, sibling.congr ?_, outer.congr ?_⟩, rfl,
    KeepsOutside.write node (mem_pathAddrs_cons.mpr (.inl rfl)) _⟩
  · exact fun e inside => write_mem_of_ne T n' (ne_of_mem_of_not_mem inside ownSibling)
  · exact fun e inside => write_mem_of_ne T n' (ne_of_mem_of_not_mem inside ownPath)

theorem relink_spec {a : Addr} (d : Side) (b : Addr)
    (path : StoredPath T.mem π a) (root : T.root = topAddr π a) (nilFree : T.mem nil = none)
    (nodup : (pathAddrs π).Nodup) (apart : ∀ f ρ, π = f :: ρ → rootAddr f.sibling ≠ a) :
    ∃ T', T.relink d (parentOf π) a b = some T' ∧ StoredPath T'.mem π b ∧ T'.root = topAddr π b ∧
      KeepsOutside (pathAddrs π) T T' := by
  cases π with
  | nil =>
    exact ⟨{ T with root := b }, by simp [relink, parentOf], trivial, rfl,
      rfl, rfl, rfl, fun _ _ => rfl, fun _ n h => ⟨n, h⟩⟩
  | cons f π =>
    have node := path.1
    have real : f.elem.addr ≠ nil := by
      intro same
      rw [same, nilFree] at node
      cases node
    have different := apart f π rfl
    obtain ⟨T', linked, path', root', keeps⟩ := setChild_frame b path nodup
    refine ⟨T', ?_, path', root'.trans root, keeps⟩
    have sides : d = f.side ∨ d = f.side.other := by cases d <;> cases f.side <;> simp [Side.other]
    rcases sides with same | opposite
    · simp [relink, parentOf, real, child, node, same, linked]
    · simp [relink, parentOf, real, child, node, opposite, Ne.symm different, linked]

theorem Stored.reparent {mem mem' : Addr → Option (RbtreeNode κ ν)} {p q : Addr}
    (stored : Stored mem p t) (nodup : (addrs t).Nodup) (inner : ∀ a ∈ addrs t, a ≠ rootAddr t → mem' a = mem a)
    (top : rootAddr t ∈ addrs t → mem' (rootAddr t) = (mem (rootAddr t)).map fun n => { n with parent := q }) :
    Stored mem' q t := by
  cases t with
  | leaf => trivial
  | node c l x r =>
    obtain ⟨ownLeft, ownRight, _⟩ := (nodup_join (d := .left) (c := c)).mp nodup
    have member : ∀ a, a ∈ addrs l ∨ a ∈ addrs r → a ∈ addrs (.node c l x r) :=
      fun a h => (mem_addrs_join (d := .left) (c := c)).mpr (.inr h)
    refine ⟨?_, stored.2.1.congr ?_, stored.2.2.congr ?_⟩
    · rw [rootAddr_node] at top
      rw [top ((mem_addrs_join (d := .left) (c := c)).mpr (.inl rfl)), stored.1]
      rfl
    · exact fun a inside => inner a (member a (.inl inside)) (ne_of_mem_of_not_mem inside ownLeft)
    · exact fun a inside => inner a (member a (.inr inside)) (ne_of_mem_of_not_mem inside ownRight)

theorem setParent_guarded {p q : Addr} (stored : Stored T.mem p t) (nodup : (addrs t).Nodup) (nilFree : T.mem nil = none) :
    ∃ T', (if rootAddr t ≠ nil then T.setParent (rootAddr t) q else some T) = some T' ∧
      Stored T'.mem q t ∧ KeepsOutside (addrs t) T T' ∧ T'.root = T.root := by
  cases t with
  | leaf => exact ⟨T, by simp, trivial, .refl _ T, rfl⟩
  | node c l x r =>
    have real : x.addr ≠ nil := by
      intro same
      have live := stored.1
      rw [same, nilFree] at live
      cases live
    have own : x.addr ∈ addrs (.node c l x r) := (mem_addrs_join (d := .left) (c := c)).mpr (.inl rfl)
    refine ⟨_, by rw [rootAddr_node, if_pos real, setParent, if_neg real, modify, stored.1, map_some],
      stored.reparent nodup ?_ ?_, KeepsOutside.write stored.1 own _, rfl⟩
    · exact fun a _ other => write_mem_of_ne T _ other
    · intro _
      rw [rootAddr_node, write_mem_self, stored.1]
      rfl

theorem rotate_join {d : Side} {cx cy : Color} {A B C : ColorTree (Cell κ ν)} {x y : Cell κ ν}
    (rep : Represents T (plug π (.join d cx A x (.join d cy B y C)))) : ∃ T', rotate d T x.addr = some T' ∧
      Reshaped T (plug π (.join d cx A x (.join d cy B y C))) T' (plug π (.join d cy (.join d cx A x B) y C)) := by
  obtain ⟨nodup, nodupPath, disjoint⟩ := rep.nodup
  obtain ⟨xA, xyBC, nodupA, nodupYBC, apartA⟩ := nodup_join.mp nodup
  obtain ⟨yB, yC, nodupB, nodupC, apartBC⟩ := nodup_join.mp nodupYBC
  simp only [mem_addrs_join, not_or] at xyBC apartA disjoint
  obtain ⟨xy, xB, xC⟩ := xyBC
  have yA : y.addr ∉ addrs A := fun h => (apartA _ h).1 rfl
  have xPath : x.addr ∉ pathAddrs π := disjoint _ (.inl rfl)
  have yPath : y.addr ∉ pathAddrs π := disjoint _ (.inr (.inr (.inl rfl)))
  have path := rep.path
  rw [rootAddr_join] at path
  have root : T.root = topAddr π x.addr := by rw [rep.root, rootAddr_plug, rootAddr_join]
  obtain ⟨nodeX, storedA, storedY⟩ := stored_join.mp rep.focus
  obtain ⟨nodeY, storedB, storedC⟩ := stored_join.mp storedY
  rw [rootAddr_join] at nodeX
  have xReal := rep.ne_nil
  have yReal : y.addr ≠ nil := by
    intro same
    rw [same, rep.nilFree] at nodeY
    cases nodeY
  -- x loses y and takes over the middle subtree
  let T1 := T.write x.addr (cellNode d cx x (rootAddr A) (rootAddr B) (parentOf π))
  have e1 : T.setChild d.other x.addr (rootAddr B) = some T1 := by
    rw [setChild, modify, nodeX, map_some, cellNode_setChild_far]
  have mem1 : ∀ a, a ≠ x.addr → T1.mem a = T.mem a := fun a other => write_mem_of_ne T _ other
  have nil1 : T1.mem nil = none := (mem1 _ (Ne.symm xReal)).trans rep.nilFree
  obtain ⟨T2, e2, storedB2, keeps2, root2⟩ := setParent_guarded (T := T1) (q := x.addr)
    (storedB.congr fun a inside => mem1 a (ne_of_mem_of_not_mem inside xB)) nodupB nil1
  have nodeX2 : T2.mem x.addr = some (cellNode d cx x (rootAddr A) (rootAddr B) (parentOf π)) :=
    (keeps2.mem _ xB).trans (write_mem_self _ _ _)
  have nodeY2 : T2.mem y.addr = some (cellNode d cy y (rootAddr B) (rootAddr C) x.addr) :=
    (keeps2.mem _ yB).trans ((mem1 _ (Ne.symm xy)).trans nodeY)
  -- y takes the place of x below the parent
  let T3 := T2.write y.addr (cellNode d cy y (rootAddr B) (rootAddr C) (parentOf π))
  have e3 : T2.setParent y.addr (parentOf π) = some T3 := by
    rw [setParent, if_neg yReal, modify, nodeY2, map_some, cellNode_with_parent]
  have mem3 : ∀ a, a ≠ y.addr → T3.mem a = T2.mem a := fun a other => write_mem_of_ne T2 _ other
  have path3 : StoredPath T3.mem π x.addr := by
    refine path.congr fun a inPath => ?_
    have notB : a ∉ addrs B := fun h => disjoint a (.inr (.inr (.inr (.inl h)))) inPath
    rw [mem3 a (ne_of_mem_of_not_mem inPath yPath), keeps2.mem a notB, mem1 a (ne_of_mem_of_not_mem inPath xPath)]
  have nil3 : T3.mem nil = none := by
    have notB : nil ∉ addrs B := fun h => by
      obtain ⟨n, live⟩ := storedB.live nil h
      rw [rep.nilFree] at live
      cases live
    rw [mem3 nil (Ne.symm yReal), keeps2.mem nil notB, nil1]
  have root3 : T3.root = topAddr π x.addr := root2.trans root
  have apartSibling : ∀ f ρ, π = f :: ρ → rootAddr f.sibling ≠ x.addr := by
    rintro f ρ rfl same
    apply xPath
    rw [mem_pathAddrs_cons, ← same]
    exact .inr (.inl (rootAddr_mem (same ▸ xReal)))
  obtain ⟨T4, e4, path4, root4, keeps4⟩ := relink_spec d y.addr path3 root3 nil3 nodupPath apartSibling
  -- x goes below y
  have nodeY4 : T4.mem y.addr = some (cellNode d cy y (rootAddr B) (rootAddr C) (parentOf π)) :=
    (keeps4.mem _ yPath).trans (write_mem_self _ _ _)
  have nodeX4 : T4.mem x.addr = some (cellNode d cx x (rootAddr A) (rootAddr B) (parentOf π)) :=
    (keeps4.mem _ xPath).trans ((mem3 _ xy).trans nodeX2)
  let T5 := T4.write y.addr (cellNode d cy y x.addr (rootAddr C) (parentOf π))
  have e5 : T4.setChild d y.addr x.addr = some T5 := by
    rw [setChild, modify, nodeY4, map_some, cellNode_setChild_near]
  have nodeX5 : T5.mem x.addr = some (cellNode d cx x (rootAddr A) (rootAddr B) (parentOf π)) :=
    (write_mem_of_ne T4 _ xy).trans nodeX4
  let T6 := T5.write x.addr (cellNode d cx x (rootAddr A) (rootAddr B) y.addr)
  have e6 : T5.setParent x.addr y.addr = some T6 := by
    rw [setParent, if_neg xReal, modify, nodeX5, map_some, cellNode_with_parent]
  have ran : rotate d T x.addr = some T6 := by
    have readY : T.child d.other x.addr = some y.addr := by simp [child, nodeX]
    have readB : T.child d y.addr = some (rootAddr B) := by simp [child, nodeY]
    have readP : T2.parent x.addr = some (parentOf π) := by simp [parent, xReal, nodeX2]
    simp only [rotate, readY, readB, e1, e2, readP, e3, e4, e5, e6, bind_eq_bind, bind_some]
  have mem6 : ∀ a, a ≠ x.addr → a ≠ y.addr → T6.mem a = T4.mem a := fun a notX notY =>
    (write_mem_of_ne T5 _ notX).trans (write_mem_of_ne T4 _ notY)
  have subtree : ∀ a, a ∈ addrs A ∨ a ∈ addrs B ∨ a ∈ addrs C → a ≠ x.addr ∧ a ≠ y.addr ∧ a ∉ pathAddrs π := by
    intro a member
    rcases member with inA | inB | inC
    · exact ⟨ne_of_mem_of_not_mem inA xA, ne_of_mem_of_not_mem inA yA, disjoint a (.inr (.inl inA))⟩
    · exact ⟨ne_of_mem_of_not_mem inB xB, ne_of_mem_of_not_mem inB yB, disjoint a (.inr (.inr (.inr (.inl inB))))⟩
    · exact ⟨ne_of_mem_of_not_mem inC xC, ne_of_mem_of_not_mem inC yC, disjoint a (.inr (.inr (.inr (.inr inC))))⟩
  have moved : ∀ a, a ∈ addrs A ∨ a ∈ addrs B ∨ a ∈ addrs C → T6.mem a = T2.mem a := by
    intro a member
    obtain ⟨notX, notY, notPath⟩ := subtree a member
    rw [mem6 a notX notY, keeps4.mem a notPath, mem3 a notY]
  have whole : ∀ a, a ∈ addrs (.join d cx A x (.join d cy B y C)) →
      a ∈ addrs (plug π (.join d cx A x (.join d cy B y C))) := fun a h => mem_addrs_plug.mpr (.inl h)
  have inX := whole x.addr (by simp [mem_addrs_join])
  have inY := whole y.addr (by simp [mem_addrs_join])
  have keeps : KeepsOutside (addrs (plug π (.join d cx A x (.join d cy B y C)))) T T6 := by
    have k1 : KeepsOutside _ T T1 := KeepsOutside.write nodeX inX _
    have k2 : KeepsOutside _ T1 T2 := keeps2.mono fun a inB => whole a (by simp [mem_addrs_join, inB])
    have k3 : KeepsOutside _ T2 T3 := KeepsOutside.write nodeY2 inY _
    have k4 : KeepsOutside (addrs (plug π (.join d cx A x (.join d cy B y C)))) T3 T4 :=
      keeps4.mono fun a inPath => mem_addrs_plug.mpr (.inr inPath)
    have k5 : KeepsOutside _ T4 T5 := KeepsOutside.write nodeY4 inY _
    have k6 : KeepsOutside _ T5 T6 := KeepsOutside.write nodeX5 inX _
    exact ((((k1.trans k2).trans k3).trans k4).trans k5).trans k6
  refine ⟨T6, ran, rep.replace keeps ?_ ?_ ?_ ?_ ?_, keeps, ?_⟩
  · rw [rootAddr_join]
    exact root4
  · rw [rootAddr_join]
    exact path4.congr fun a inPath => mem6 a (ne_of_mem_of_not_mem inPath xPath) (ne_of_mem_of_not_mem inPath yPath)
  · refine stored_join.mpr ⟨?_, stored_join.mpr ⟨write_mem_self _ _ _, ?_, ?_⟩, ?_⟩
    · rw [rootAddr_join]
      exact (write_mem_of_ne T5 _ (Ne.symm xy)).trans (write_mem_self _ _ _)
    · refine storedA.congr fun a inA => ?_
      rw [moved a (.inl inA), keeps2.mem a (apartA a inA).2.1, mem1 a (ne_of_mem_of_not_mem inA xA)]
    · exact storedB2.congr fun a inB => moved a (.inr (.inl inB))
    · refine storedC.congr fun a inC => ?_
      have notB : a ∉ addrs B := fun inB => apartBC a inB inC
      rw [moved a (.inr (.inr inC)), keeps2.mem a notB, mem1 a (ne_of_mem_of_not_mem inC xC)]
  · intro a
    simp only [mem_addrs_join]
    tauto
  · rw [addrs, ColorTree.inorder_rotate]
    exact nodup
  · rw [inorder_plug, inorder_plug, ColorTree.inorder_rotate]

end AICacheDB.Rbtree
