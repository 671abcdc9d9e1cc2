import AICacheDB.Engine.Rbtree.Rotate

open RedBlack List Option

namespace AICacheDB.Rbtree

variable {κ ν : Type}

def sideFrame (f : Frame (Cell κ ν)) (t : ColorTree (Cell κ ν)) : Frame (Cell κ ν) :=
  ⟨f.side.other, f.color, f.elem, t⟩

theorem plug_sideFrame (f : Frame (Cell κ ν)) (π : Path (Cell κ ν)) (t : ColorTree (Cell κ ν)) :
    plug (sideFrame f t :: π) f.sibling = plug (f :: π) t := by
  simp only [plug, Frame.attach, sideFrame, ColorTree.join_other]

variable {T : Rbtree κ ν} {f g : Frame (Cell κ ν)} {π ρ : Path (Cell κ ν)} {t : ColorTree (Cell κ ν)}

theorem Represents.toSibling (rep : Represents T (plug (f :: π) t)) : Represents T (plug (sideFrame f t :: π) f.sibling) := by
  rw [plug_sideFrame]
  exact rep

theorem exists_join (d : Side) (real : t ≠ .leaf) : ∃ near x far, t = .join d t.color near x far := by
  cases t with
  | leaf => exact absurd rfl real
  | node c l x r =>
    cases d
    · exact ⟨l, x, r, rfl⟩
    · exact ⟨r, x, l, rfl⟩

theorem Reshaped.refl (rep : Represents T t) : Reshaped T t T t :=
  ⟨rep, .refl _ T, rfl⟩

section

variable (rep : Represents T (plug π t))

include rep

theorem setColor_focus (real : t ≠ .leaf) (c : Color) :
    ∃ T', T.setColor (rootAddr t) c = some T' ∧ Reshaped T (plug π t) T' (plug π (t.paint c)) := by
  obtain ⟨near, x, far, same⟩ := exists_join .left real
  rw [same, rootAddr_join, ColorTree.join_paint]
  exact setColor_join (same ▸ rep) c

theorem setColor_black (black : t.color = .black) :
    ∃ T', T.setColor (rootAddr t) .black = some T' ∧ Reshaped T (plug π t) T' (plug π t) := by
  by_cases leaf : t = .leaf
  · have same : { T with nilColor := .black } = T := by rw [← rep.nilBlack]
    refine ⟨T, ?_, .refl rep⟩
    rw [leaf, rootAddr_leaf, setColor, if_pos rfl, same]
  · obtain ⟨T', paint, step⟩ := setColor_focus rep leaf .black
    have same : t.paint .black = t := by
      cases t with
      | leaf => rfl
      | node c l x r =>
        cases black
        rfl
    rw [same] at step
    exact ⟨T', paint, step⟩

theorem Represents.read_focus_parent (real : t ≠ .leaf) : T.parent (rootAddr t) = some (parentOf π) := by
  obtain ⟨near, x, far, same⟩ := exists_join .left real
  have parent := Represents.read_parent (same ▸ rep : Represents T (plug π (.join .left t.color near x far)))
  rw [same, rootAddr_join]
  exact parent

theorem Represents.rootAddr_ne_nil (real : t ≠ .leaf) : rootAddr t ≠ nil := by
  obtain ⟨near, x, far, shape⟩ := exists_join .left real
  rw [shape] at rep ⊢
  rw [rootAddr_join]
  exact rep.ne_nil

end

section Above

variable {T : Rbtree κ ν} {f : Frame (Cell κ ν)} {π : Path (Cell κ ν)} {t : ColorTree (Cell κ ν)}
  (rep : Represents T (plug (f :: π) t))

include rep

theorem Represents.above_color : T.color f.elem.addr = some f.color :=
  Represents.read_color (d := f.side) rep

theorem Represents.above_parent : T.parent f.elem.addr = some (parentOf π) :=
  Represents.read_parent (d := f.side) rep

theorem Represents.above_near : T.child f.side f.elem.addr = some (rootAddr t) :=
  Represents.read_near rep

theorem Represents.above_far : T.child f.side.other f.elem.addr = some (rootAddr f.sibling) :=
  Represents.read_far rep

theorem Represents.above_ne_nil : f.elem.addr ≠ nil :=
  Represents.ne_nil (d := f.side) rep

theorem Represents.sibling_apart (real : rootAddr t ≠ nil ∨ rootAddr f.sibling ≠ nil) : rootAddr t ≠ rootAddr f.sibling := by
  obtain ⟨nodup, _, _⟩ := Represents.nodup (π := π) (t := f.attach t) rep
  obtain ⟨_, _, _, _, apart⟩ := nodup_join.mp nodup
  intro same
  rcases real with near | far
  · exact apart _ (rootAddr_mem near) (same ▸ rootAddr_mem (same ▸ near))
  · exact apart _ (same ▸ rootAddr_mem (same.symm ▸ far)) (rootAddr_mem far)

end Above

theorem side_test (rep : Represents T (plug (g :: π) t)) (real : rootAddr t ≠ nil ∨ rootAddr g.sibling ≠ nil) :
    ∃ l, T.child .left g.elem.addr = some l ∧ (if rootAddr t = l then Side.left else Side.right) = g.side := by
  have apart := rep.sibling_apart real
  have near := rep.above_near
  have far := rep.above_far
  cases side : g.side with
  | left =>
    rw [side] at near
    exact ⟨_, near, by simp⟩
  | right =>
    rw [side] at far
    exact ⟨_, far, by simp [apart]⟩

theorem insertFixupSide_red_uncle (rep : Represents T (plug (f :: g :: ρ) t)) (real : t ≠ .leaf)
    (uncle : g.sibling.color = .red) : ∃ T', insertFixupSide g.side T (rootAddr t) = some (T', g.elem.addr) ∧
      Reshaped T (plug (f :: g :: ρ) t) T'
        (plug ρ (.join g.side .red (.join f.side .black t f.elem f.sibling) g.elem (g.sibling.paint .black))) := by
  have uncleReal : g.sibling ≠ .leaf := by
    intro leaf
    rw [leaf] at uncle
    cases uncle
  have readP := rep.read_focus_parent real
  have readG := rep.above_parent
  have readY := Represents.above_far (f := g) (π := ρ) (t := f.attach t) rep
  have readYc := (Represents.toSibling (f := g) (π := ρ) (t := f.attach t) rep).read_focus_color
  obtain ⟨T1, e1, step1⟩ := setColor_join (π := g :: ρ) rep .black
  obtain ⟨T2, e2, step2⟩ := setColor_focus (Represents.toSibling (f := g) (π := ρ) step1.rep) uncleReal .black
  rw [plug_sideFrame] at step2
  have shape : plug (sideFrame g (.join f.side .black t f.elem f.sibling) :: ρ) (g.sibling.paint .black) =
      plug ρ (.join g.side g.color (.join f.side .black t f.elem f.sibling) g.elem (g.sibling.paint .black)) := by
    simp only [plug, Frame.attach, sideFrame, ColorTree.join_other]
  rw [shape] at step2
  obtain ⟨T3, e3, step3⟩ := setColor_join step2.rep .red
  refine ⟨T3, ?_, (step1.trans step2).trans step3⟩
  rw [uncle] at readYc
  simp [insertFixupSide, readP, parentOf, readG, readY, readYc, e1, e2, e3]

theorem insertFixup_outer {d : Side} {S U : ColorTree (Cell κ ν)}
    {p g : Cell κ ν} {cp cg : Color} (rep : Represents T (plug ρ (.join d cg (.join d cp t p S) g U))) :
    ∃ T1 T2 T3, T.setColor p.addr .black = some T1 ∧ T1.parent p.addr = some g.addr ∧
      T1.setColor g.addr .red = some T2 ∧ rotate d.other T2 g.addr = some T3 ∧
      Reshaped T (plug ρ (.join d cg (.join d cp t p S) g U)) T3 (plug ρ (.join d .black t p (.join d .red S g U))) := by
  obtain ⟨T1, e1, step1⟩ := setColor_join (π := ⟨d, cg, g, U⟩ :: ρ) rep .black
  obtain ⟨T2, e2, step2⟩ := setColor_join (π := ρ) step1.rep .red
  have turned : Represents T2 (plug ρ (.join d.other .red U g (.join d.other .black S p t))) := by
    rw [ColorTree.join_other, ColorTree.join_other]
    exact step2.rep
  obtain ⟨T3, e3, step3⟩ := rotate_join turned
  rw [ColorTree.join_other d .red, ColorTree.join_other d .black, ColorTree.join_other d .black,
    ColorTree.join_other d .red] at step3
  have parent := Represents.read_parent (π := ⟨d, cg, g, U⟩ :: ρ) step1.rep
  exact ⟨T1, T2, T3, e1, parent, e2, e3, (step1.trans step2).trans step3⟩

variable {n : Nat}

theorem insertFixupSide_black_uncle (rep : Represents T (plug (f :: g :: ρ) t)) (red : Balanced t .red n)
    (parentRed : f.color = .red) (sibling : Balanced f.sibling .black n) (uncle : Balanced g.sibling .black n) :
    ∃ T' t' p far, insertFixupSide g.side T (rootAddr t) = some (T', rootAddr t') ∧ t' ≠ .leaf ∧
      Reshaped T (plug (f :: g :: ρ) t) T' (plug ρ (.join g.side .black t' p far)) ∧
      Balanced t' .red n ∧ Balanced far .red n := by
  obtain ⟨near, z, far, shape, nearB, farB⟩ := red.red_cases g.side
  have real : t ≠ .leaf := by
    rw [shape]
    exact ColorTree.join_ne_leaf _ _ _ _ _
  have readP := rep.read_focus_parent real
  have readG := rep.above_parent
  have readY := Represents.above_far (f := g) (π := ρ) (t := f.attach t) rep
  have readYc := (Represents.toSibling (f := g) (π := ρ) (t := f.attach t) rep).read_focus_color
  rw [uncle.color_eq] at readYc
  have tNil : rootAddr t ≠ nil := by
    rw [shape, rootAddr_join]
    rw [shape] at rep
    exact rep.ne_nil
  by_cases side : f.side = g.side
  · -- z hangs on the outer side: no first rotation
    have readInner := rep.above_far
    have apart := rep.sibling_apart (.inl tNil)
    rw [side] at readInner
    have shapeO : plug (f :: g :: ρ) t =
        plug ρ (.join g.side g.color (.join g.side f.color t f.elem f.sibling) g.elem g.sibling) := by
      rw [plug, plug, Frame.attach, Frame.attach, side]
    rw [shapeO] at rep ⊢
    obtain ⟨T1, T2, T3, e1, parent1, e2, e3, step⟩ := insertFixup_outer rep
    refine ⟨T3, t, f.elem, .join g.side .red f.sibling g.elem g.sibling, ?_, real, step, red, sibling.join_red uncle⟩
    simp [insertFixupSide, readP, parentOf, readG, readY, readYc, readInner, apart, e1, parent1, e2, e3]
  · -- z hangs on the inner side: rotate it above its parent first
    have side' : f.side = g.side.other := by
      revert side
      cases f.side <;> cases g.side <;> simp [Side.other]
    have readInner := rep.above_near
    rw [side'] at readInner
    have shapeI : plug (f :: g :: ρ) t =
        plug (g :: ρ) (.join g.side .red f.sibling f.elem (.join g.side .red near z far)) := by
      rw [plug, Frame.attach, side', ColorTree.join_other, parentRed, shape]
    rw [shapeI] at rep ⊢
    obtain ⟨T0, e0, step0⟩ := rotate_join rep
    have readP' := Represents.read_parent (π := ⟨g.side, .red, z, far⟩ :: g :: ρ) step0.rep
    obtain ⟨T1, T2, T3, e1, parent1, e2, e3, step⟩ := insertFixup_outer (ρ := ρ) step0.rep
    refine ⟨T3, .join g.side .red f.sibling f.elem near, z, .join g.side .red far g.elem g.sibling, ?_,
      ColorTree.join_ne_leaf _ _ _ _ _, step0.trans step, sibling.join_red nearB, farB.join_red uncle⟩
    simp [insertFixupSide, readP, parentOf, readG, readY, readYc, readInner, readP', e0, e1, parent1, e2, e3, rootAddr_join]

theorem insertFixupLoop_spec (fuel : Nat)
    (rep : Represents T (plug π t)) (red : Balanced t .red n) (ctx : Context π .black n) (enough : π.length < fuel) :
    ∃ T' t' c m, insertFixupLoop fuel T (rootAddr t) = some T' ∧ Reshaped T (plug π t) T' t' ∧ Balanced t' c m := by
  induction fuel using Nat.strongRecOn generalizing T π t n with
  | _ fuel ih =>
  obtain ⟨fuel, rfl⟩ : ∃ k, fuel = k + 1 := ⟨fuel - 1, by omega⟩
  have readP := rep.read_focus_parent red.ne_leaf
  rcases ctx.red_hole_cases with rfl | ⟨f, ρ, rfl, black, ctxRed⟩ | ⟨f, g, ρ, cs, rfl, fRed, gBlack, sibling, uncle, outer⟩
  · refine ⟨T, t, .red, n, ?_, .refl rep, red⟩
    have black : T.color nil = some .black := by simp [color, rep.nilBlack]
    simp [insertFixupLoop, readP, parentOf, black]
  · obtain ⟨m, whole⟩ := ctxRed.plug red
    refine ⟨T, _, .black, m, ?_, .refl rep, whole⟩
    simp [insertFixupLoop, readP, parentOf, rep.above_color, black]
  · have gRep : Represents T (plug (g :: ρ) (f.attach t)) := rep
    have readPc := rep.above_color
    rw [fRed] at readPc
    have pRoot : rootAddr (f.attach t) = f.elem.addr := rootAddr_join ..
    obtain ⟨l, readL, side⟩ := side_test gRep (.inl (pRoot ▸ rep.above_ne_nil))
    rw [pRoot] at side
    simp only [length_cons] at enough
    have enter : insertFixupLoop (fuel + 1) T (rootAddr t) =
        (insertFixupSide g.side T (rootAddr t)).bind fun r => insertFixupLoop fuel r.1 r.2 := by
      simp [insertFixupLoop, readP, parentOf, readPc, rep.above_parent, readL, side]
    cases cs with
    | red =>
      obtain ⟨T1, round, step⟩ := insertFixupSide_red_uncle rep red.ne_leaf uncle.color_eq
      have raised := (red.join_black (d := f.side) (x := f.elem) sibling).join_red (d := g.side) (x := g.elem)
        uncle.paint_black
      obtain ⟨T2, t', c, m, loop, step', balanced⟩ := ih fuel (by omega) step.rep raised outer (by omega)
      rw [rootAddr_join] at loop
      exact ⟨T2, t', c, m, by rw [enter, round, bind_some, loop], step.trans step', balanced⟩
    | black =>
      obtain ⟨T1, t1, p, far, round, real, step, redB, farB⟩ :=
        insertFixupSide_black_uncle rep red fRed sibling uncle
      obtain ⟨m, whole⟩ := outer.plug (redB.join_black (d := g.side) (x := p) farB)
      refine ⟨T1, _, .black, m, ?_, step, whole⟩
      obtain ⟨fuel, rfl⟩ : ∃ k, fuel = k + 1 := ⟨fuel - 1, by omega⟩
      have below : Represents T1 (plug (⟨g.side, .black, p, far⟩ :: ρ) t1) := step.rep
      have readP1 := below.read_focus_parent real
      have readC1 := below.above_color
      rw [enter, round]
      simp [insertFixupLoop, readP1, parentOf, readC1]

theorem rbtreeInsertFixup_spec (rep : Represents T (plug π t)) (red : Balanced t .red n) (ctx : Context π .black n) :
    ∃ T' t' m, T.rbtreeInsertFixup (rootAddr t) = some T' ∧ Reshaped T (plug π t) T' t' ∧ Balanced t' .black m := by
  have enough : π.length < T.brk := by
    have small := rep.size_le
    have deep := length_plug π t
    have real : 0 < t.inorder.length := by
      obtain ⟨near, x, far, shape⟩ := exists_join .left red.ne_leaf
      rw [shape, ColorTree.join_left, ColorTree.inorder]
      simp
    omega
  obtain ⟨T1, t1, c, m, loop, step, balanced⟩ := insertFixupLoop_spec T.brk rep red ctx enough
  cases c with
  | red =>
    obtain ⟨T2, paint, step2⟩ := setColor_focus (π := []) step.rep balanced.ne_leaf .black
    refine ⟨T2, _, _, ?_, step.trans step2, balanced.paint_black⟩
    simp [rbtreeInsertFixup, loop, step.rep.root, paint]
  | black =>
    obtain ⟨T2, paint, rep2⟩ := setColor_black (π := []) step.rep balanced.color_eq
    refine ⟨T2, t1, m, ?_, step.trans rep2, balanced⟩
    simp [rbtreeInsertFixup, loop, step.rep.root, paint]

section Order

variable [LinearOrder κ]

def Sorted (l : List (Cell κ ν)) : Prop := l.Pairwise fun x y => x.key < y.key

def Fits (π : Path (Cell κ ν)) (k : κ) : Prop :=
  (∀ x ∈ π.before, x.key < k) ∧ ∀ x ∈ π.after, k < x.key

variable {x : Cell κ ν} {π : Path (Cell κ ν)} {T : Rbtree κ ν} {t : ColorTree (Cell κ ν)}
  {c : Color} {l r : ColorTree (Cell κ ν)} {k : κ} {n : RbtreeNode κ ν}

theorem Sorted.node (sorted : Sorted (ColorTree.node c l x r).inorder) :
    Sorted l.inorder ∧ Sorted r.inorder ∧ (∀ y ∈ l.inorder, y.key < x.key) ∧ ∀ y ∈ r.inorder, x.key < y.key := by
  obtain ⟨left, right, across⟩ := pairwise_append.mp sorted
  obtain ⟨above, right⟩ := pairwise_cons.mp right
  exact ⟨left, right, fun y inside => across y inside x (by simp), above⟩

theorem Fits.left (fits : Fits π k)
    (below : k < x.key) (order : ∀ y ∈ r.inorder, x.key < y.key) : Fits (⟨.left, c, x, r⟩ :: π) k := by
  refine ⟨?_, ?_⟩
  · intro y member
    simp only [Path.before, reduceCtorEq, if_false, append_nil] at member
    exact fits.1 y member
  · intro y member
    simp only [Path.after, if_true, cons_append, mem_cons, mem_append] at member
    rcases member with rfl | inside | outside
    · exact below
    · exact below.trans (order y inside)
    · exact fits.2 y outside

theorem Fits.right (fits : Fits π k)
    (above : x.key < k) (order : ∀ y ∈ l.inorder, y.key < x.key) : Fits (⟨.right, c, x, l⟩ :: π) k := by
  refine ⟨?_, ?_⟩
  · intro y member
    simp only [Path.before, if_true, mem_append, mem_singleton] at member
    rcases member with outside | inside | rfl
    · exact fits.1 y outside
    · exact (order y inside).trans above
    · exact above
  · intro y member
    simp only [Path.after, reduceCtorEq, if_false, nil_append] at member
    exact fits.2 y member

theorem insertDescend_fresh (fuel : Nat) (rep : Represents T (plug π t)) (sorted : Sorted t.inorder) (fits : Fits π k)
    (fresh : ∀ x ∈ t.inorder, x.key ≠ k) (enough : t.inorder.length < fuel) :
    ∃ ρ, T.insertDescend k fuel (rootAddr t) (parentOf π) = some (some (parentOf ρ)) ∧
      plug π t = plug ρ .leaf ∧ Fits ρ k := by
  induction t generalizing fuel π with
  | leaf =>
    obtain ⟨fuel, rfl⟩ : ∃ m, fuel = m + 1 := ⟨fuel - 1, by omega⟩
    exact ⟨π, by simp [insertDescend], rfl, fits⟩
  | node c l x r ihl ihr =>
    obtain ⟨fuel, rfl⟩ : ∃ m, fuel = m + 1 := ⟨fuel - 1, by omega⟩
    obtain ⟨sortedL, sortedR, below, above⟩ := sorted.node
    simp only [ColorTree.inorder, length_append, length_cons] at enough
    have real : x.addr ≠ nil := Represents.ne_nil (d := .left) rep
    have node := Represents.node (d := .left) rep
    rcases lt_or_gt_of_ne (fresh x (by simp [ColorTree.inorder])) with greater | less
    · obtain ⟨ρ, descend, shape, fits'⟩ := ihr fuel (π := ⟨.right, c, x, l⟩ :: π) rep sortedR
        (fits.right greater below) (fun y inside => fresh y (by simp [ColorTree.inorder, inside])) (by omega)
      refine ⟨ρ, ?_, shape, fits'⟩
      simpa [insertDescend, real, node, cellNode, parentOf, greater, not_lt_of_gt greater] using descend
    · obtain ⟨ρ, descend, shape, fits'⟩ := ihl fuel (π := ⟨.left, c, x, r⟩ :: π) rep sortedL
        (fits.left less above) (fun y inside => fresh y (by simp [ColorTree.inorder, inside])) (by omega)
      refine ⟨ρ, ?_, shape, fits'⟩
      simpa [insertDescend, real, node, cellNode, parentOf, less] using descend

theorem insertLink_above {ρ : Path (Cell κ ν)} (z : Addr)
    (path : StoredPath T.mem ρ nil) (nilFree : T.mem nil = none) (nodup : (pathAddrs ρ).Nodup) (fits : Fits ρ k) :
    ∃ T', (if parentOf ρ = nil then some { T with root := z }
        else do
          let yk ← (T.mem (parentOf ρ)).map RbtreeNode.key
          if k < yk then T.setChild .left (parentOf ρ) z else T.setChild .right (parentOf ρ) z) = some T' ∧
      StoredPath T'.mem ρ z ∧ (T.root = topAddr ρ nil → T'.root = topAddr ρ z) ∧ KeepsOutside (pathAddrs ρ) T T' := by
  cases ρ with
  | nil =>
    exact ⟨{ T with root := z }, by simp [parentOf], trivial, fun _ => rfl, rfl, rfl, rfl, fun _ _ => rfl,
      fun _ n h => ⟨n, h⟩⟩
  | cons f ρ =>
    have node := path.1
    have real : f.elem.addr ≠ nil := by
      intro same
      rw [same, nilFree] at node
      cases node
    obtain ⟨T', linked, path', root', keeps⟩ := setChild_frame z path nodup
    refine ⟨T', ?_, path', root'.trans, keeps⟩
    have readKey : (T.mem f.elem.addr).map RbtreeNode.key = some f.elem.key := by simp [node]
    cases side : f.side with
    | left =>
      have below : k < f.elem.key := fits.2 f.elem (by simp [Path.after, side])
      rw [side] at linked
      simp [parentOf, real, readKey, below, linked]
    | right =>
      have above : f.elem.key < k := fits.1 f.elem (by simp [Path.before, side])
      rw [side] at linked
      simp [parentOf, real, readKey, not_lt_of_gt above, linked]

theorem insertLink_spec {ρ : Path (Cell κ ν)}
    (rep : Represents T (plug ρ .leaf)) (fits : Fits ρ x.key) (node : T.mem x.addr = some n) (own : x.addr ∉ pathAddrs ρ)
    (same : n.key = x.key ∧ n.value = x.value ∧ n.expireMs = x.expireMs) :
    ∃ T', T.insertLink x.key x.addr (parentOf ρ) = some T' ∧ Represents T' (plug ρ (.node .red .leaf x .leaf)) ∧
      KeepsOutside (x.addr :: pathAddrs ρ) T T' := by
  have real : x.addr ≠ nil := by
    intro isNil
    rw [isNil, rep.nilFree] at node
    cases node
  let n1 : RbtreeNode κ ν := { n with parent := parentOf ρ }
  let T1 := T.write x.addr n1
  have e1 : T.setParent x.addr (parentOf ρ) = some T1 := by
    rw [setParent, if_neg real, modify, node, map_some]
  have path1 : StoredPath T1.mem ρ nil :=
    rep.path.congr fun a inside => write_mem_of_ne T n1 (ne_of_mem_of_not_mem inside own)
  have nil1 : T1.mem nil = none := (write_mem_of_ne T n1 (Ne.symm real)).trans rep.nilFree
  obtain ⟨T2, e2, path2, root2, keeps2⟩ := insertLink_above x.addr path1 nil1 rep.nodup.2.1 fits
  have node2 : T2.mem x.addr = some n1 := (keeps2.mem _ own).trans (write_mem_self _ _ _)
  let n3 := n1.setChild .left nil
  let T3 := T2.write x.addr n3
  have e3 : T2.setChild .left x.addr nil = some T3 := by rw [setChild, modify, node2, map_some]
  let n4 := n3.setChild .right nil
  let T4 := T3.write x.addr n4
  have e4 : T3.setChild .right x.addr nil = some T4 := by
    rw [setChild, modify, write_mem_self, map_some]
  let n5 : RbtreeNode κ ν := { n4 with color := .red }
  let T5 := T4.write x.addr n5
  have e5 : T4.setColor x.addr .red = some T5 := by
    rw [setColor, if_neg real, modify, write_mem_self, map_some]
  have last : n5 = cellNode .left .red x nil nil (parentOf ρ) := by
    simp only [n5, n4, n3, n1, RbtreeNode.setChild, cellNode, same.1, same.2.1, same.2.2]
  have mem5 : ∀ a, a ≠ x.addr → T5.mem a = T2.mem a := fun a other =>
    (write_mem_of_ne T4 _ other).trans ((write_mem_of_ne T3 _ other).trans (write_mem_of_ne T2 _ other))
  have keeps : KeepsOutside (x.addr :: pathAddrs ρ) T T5 := by
    have k1 : KeepsOutside (x.addr :: pathAddrs ρ) T T1 := KeepsOutside.write node (by simp) _
    have k2 : KeepsOutside (x.addr :: pathAddrs ρ) T1 T2 := keeps2.mono (by simp)
    have k3 : KeepsOutside (x.addr :: pathAddrs ρ) T2 T3 := KeepsOutside.write node2 (by simp) _
    have k4 : KeepsOutside (x.addr :: pathAddrs ρ) T3 T4 := KeepsOutside.write (write_mem_self _ _ _) (by simp) _
    have k5 : KeepsOutside (x.addr :: pathAddrs ρ) T4 T5 := KeepsOutside.write (write_mem_self _ _ _) (by simp) _
    exact (((k1.trans k2).trans k3).trans k4).trans k5
  refine ⟨T5, ?_, ⟨?_, stored_plug.mpr ⟨?_, ?_, trivial, trivial⟩, ?_, ?_, ?_, ?_, ?_⟩, keeps⟩
  · simp only [insertLink, e1, bind_eq_bind, bind_some] at e2 ⊢
    rw [e2]
    simp [e3, e4, e5]
  · rw [rootAddr_plug]
    have root : T.root = topAddr ρ nil := rep.root.trans (rootAddr_plug _ _)
    exact root2 root
  · exact path2.congr fun a inside => mem5 a (ne_of_mem_of_not_mem inside own)
  · rw [rootAddr_leaf, ← last]
    exact write_mem_self _ _ _
  · rw [(addrs_plug ρ _).nodup_iff]
    exact nodup_cons.mpr ⟨own, rep.nodup.2.1⟩
  · rw [keeps.mem nil ?_]
    · exact rep.nilFree
    · have outside : nil ∉ pathAddrs ρ := fun inside => rep.notNil (mem_addrs_plug.mpr (.inr inside))
      simp [outside, Ne.symm real]
  · exact keeps.nilColor.trans rep.nilBlack
  · intro a m live
    obtain ⟨m', before⟩ := keeps.live a m live
    rw [keeps.brk]
    exact rep.bound a m' before
  · rw [keeps.brk]
    exact rep.positive

structure Valid (T : Rbtree κ ν) (t : ColorTree (Cell κ ν)) : Prop where
  rep : Represents T t
  height : ∃ m, Balanced t .black m
  sorted : Sorted t.inorder

theorem Sorted.insert {xs ys : List (Cell κ ν)} (sorted : Sorted (xs ++ ys))
    (before : ∀ y ∈ xs, y.key < x.key) (after : ∀ y ∈ ys, x.key < y.key) : Sorted (xs ++ x :: ys) := by
  obtain ⟨left, right, across⟩ := pairwise_append.mp sorted
  refine pairwise_append.mpr ⟨left, pairwise_cons.mpr ⟨after, right⟩, ?_⟩
  intro y inLeft z inRight
  rcases mem_cons.mp inRight with rfl | later
  · exact before y inLeft
  · exact across y inLeft z later

theorem rbtreeInsert_spec (valid : Valid T t) (node : T.mem x.addr = some n) (own : x.addr ∉ addrs t)
    (same : n.key = x.key ∧ n.value = x.value ∧ n.expireMs = x.expireMs) (fresh : ∀ y ∈ t.inorder, y.key ≠ x.key) :
    ∃ T' t' xs ys, T.rbtreeInsert x.addr = some T' ∧ Valid T' t' ∧ t.inorder = xs ++ ys ∧
      t'.inorder = xs ++ x :: ys ∧ KeepsOutside (x.addr :: addrs t) T T' := by
  have enough : t.inorder.length < T.brk + 1 := by
    have small := valid.rep.size_le
    omega
  obtain ⟨ρ, descend, shape, fits⟩ := insertDescend_fresh (T.brk + 1) (π := []) valid.rep valid.sorted
    ⟨by simp [Path.before], by simp [Path.after]⟩ fresh enough
  have shape' : t = plug ρ .leaf := shape
  subst shape'
  have notPath : x.addr ∉ pathAddrs ρ := fun inside => own (mem_addrs_plug.mpr (.inr inside))
  obtain ⟨T1, link, rep1, keeps1⟩ := insertLink_spec valid.rep fits node notPath same
  obtain ⟨m, height⟩ := valid.height
  obtain ⟨c, k, leafB, ctx⟩ := height.unplug
  cases leafB
  obtain ⟨T2, t', m', fixup, step, balanced⟩ :=
    rbtreeInsertFixup_spec rep1 (Balanced.join_red (d := .left) .leaf .leaf) ctx
  have before : (plug ρ (.leaf : ColorTree (Cell κ ν))).inorder = ρ.before ++ ρ.after := by
    rw [inorder_plug, ColorTree.inorder, append_nil]
  have after : t'.inorder = ρ.before ++ x :: ρ.after := by
    rw [step.inorder, inorder_plug]
    simp [ColorTree.inorder]
  refine ⟨T2, t', ρ.before, ρ.after, ?_, ⟨step.rep, ⟨m', balanced⟩, ?_⟩, before, after, ?_⟩
  · have readKey : (T.mem x.addr).map RbtreeNode.key = some x.key := by simp [node, same.1]
    rw [parentOf] at descend
    simp only [rbtreeInsert, readKey, valid.rep.root, descend, link, bind_eq_bind, bind_some]
    exact fixup
  · rw [after]
    exact (before ▸ valid.sorted).insert fits.1 fits.2
  · refine (keeps1.mono ?_).trans (step.keeps.mono ?_)
    · intro a member
      rw [mem_cons] at member ⊢
      exact member.imp_right fun inside => mem_addrs_plug.mpr (.inr inside)
    · intro a member
      rw [mem_cons]
      rcases mem_addrs_plug.mp member with inside | outside
      · exact .inl (by simpa [addrs, ColorTree.inorder] using inside)
      · exact .inr (mem_addrs_plug.mpr (.inr outside))

theorem searchLoop_spec (k : κ) (fuel : Nat)
    (rep : Represents T (plug π t)) (sorted : Sorted t.inorder) (enough : t.inorder.length < fuel) :
    (∃ x ∈ t.inorder, x.key = k ∧ T.searchLoop k fuel (rootAddr t) = some x.addr) ∨
      (∀ x ∈ t.inorder, x.key ≠ k) ∧ T.searchLoop k fuel (rootAddr t) = some nil := by
  induction t generalizing fuel π with
  | leaf =>
    obtain ⟨fuel, rfl⟩ : ∃ m, fuel = m + 1 := ⟨fuel - 1, by omega⟩
    exact .inr ⟨by simp [ColorTree.inorder], by simp [searchLoop]⟩
  | node c l x r ihl ihr =>
    obtain ⟨fuel, rfl⟩ : ∃ m, fuel = m + 1 := ⟨fuel - 1, by omega⟩
    obtain ⟨sortedL, sortedR, below, above⟩ := sorted.node
    simp only [ColorTree.inorder, length_append, length_cons] at enough
    have real : x.addr ≠ nil := Represents.ne_nil (d := .left) rep
    have node := Represents.node (d := .left) rep
    simp only [rootAddr_node, searchLoop, real, ne_eq, not_false_eq_true, if_true, node, bind_eq_bind,
      bind_some, cellNode, ColorTree.inorder, mem_append, mem_cons]
    rcases lt_trichotomy k x.key with less | rfl | greater
    · have others : ∀ y, y = x ∨ y ∈ r.inorder → y.key ≠ k := by
        intro y member
        rcases member with rfl | inside
        · exact less.ne'
        · exact (less.trans (above y inside)).ne'
      rw [if_pos less]
      rcases ihl fuel (π := ⟨.left, c, x, r⟩ :: π) rep sortedL (by omega) with ⟨y, inside, is, found⟩ | ⟨absent, found⟩
      · exact .inl ⟨y, .inl inside, is, found⟩
      · exact .inr ⟨fun y member => member.elim (absent y) (others y), found⟩
    · exact .inl ⟨x, .inr (.inl rfl), rfl, by simp⟩
    · have others : ∀ y, y ∈ l.inorder ∨ y = x → y.key ≠ k := by
        intro y member
        rcases member with inside | rfl
        · exact ((below y inside).trans greater).ne
        · exact greater.ne
      rw [if_neg (not_lt_of_gt greater), if_pos greater]
      rcases ihr fuel (π := ⟨.right, c, x, l⟩ :: π) rep sortedR (by omega) with ⟨y, inside, is, found⟩ | ⟨absent, found⟩
      · exact .inl ⟨y, .inr (.inr inside), is, found⟩
      · refine .inr ⟨fun y member => ?_, found⟩
        rcases member with inL | rfl | inR
        · exact others y (.inl inL)
        · exact others y (.inr rfl)
        · exact absent y inR

theorem rbtreeSearch_spec (valid : Valid T t) (k : κ) : (∃ x ∈ t.inorder, x.key = k ∧ T.rbtreeSearch k = some x.addr) ∨
      (∀ x ∈ t.inorder, x.key ≠ k) ∧ T.rbtreeSearch k = some nil := by
  have enough : t.inorder.length < T.brk + 1 := by
    have small := valid.rep.size_le
    omega
  rw [rbtreeSearch, valid.rep.root]
  exact searchLoop_spec k _ (π := []) valid.rep valid.sorted enough

end Order

end AICacheDB.Rbtree
