import AICacheDB.Engine.Rbtree.Insert

open RedBlack Option

namespace AICacheDB.Rbtree

variable {κ ν : Type}

def Hooked (T : Rbtree κ ν) (π : Path (Cell κ ν)) (t : ColorTree (Cell κ ν)) : Prop :=
  T.parent (rootAddr t) = some (parentOf π)

theorem Hooked.of_real {T : Rbtree κ ν} {π : Path (Cell κ ν)} {t : ColorTree (Cell κ ν)}
    (rep : Represents T (plug π t)) (real : t ≠ .leaf) : Hooked T π t := rep.read_focus_parent real

theorem Hooked.reshape {T T' : Rbtree κ ν} {π ρ : Path (Cell κ ν)} {t s : ColorTree (Cell κ ν)}
    (hooked : Hooked T π t) (step : Reshaped T s T' (plug ρ t)) (same : parentOf ρ = parentOf π) : Hooked T' ρ t := by
  by_cases leaf : t = .leaf
  · subst leaf
    rw [Hooked, rootAddr_leaf, parent, if_pos rfl] at hooked ⊢
    rw [step.keeps.nilParent, hooked, same]
  · exact .of_real step.rep leaf

variable {T : Rbtree κ ν} {π : Path (Cell κ ν)} {t : ColorTree (Cell κ ν)} {d : Side} {cp cw : Color}
  {p w : Cell κ ν} {near far : ColorTree (Cell κ ν)}

theorem setColor_sibling {e : Side} (rep : Represents T (plug (⟨d, cp, p, .join e cw near w far⟩ :: π) t)) (c : Color) :
    ∃ T', T.setColor w.addr c = some T' ∧ Reshaped T (plug (⟨d, cp, p, .join e cw near w far⟩ :: π) t) T'
        (plug (⟨d, cp, p, .join e c near w far⟩ :: π) t) := by
  obtain ⟨T', paint, step⟩ := setColor_join rep.toSibling c
  rw [plug_sideFrame] at step
  have shape : plug (sideFrame ⟨d, cp, p, .join e cw near w far⟩ t :: π) (.join e c near w far) =
      plug (⟨d, cp, p, .join e c near w far⟩ :: π) t :=
    plug_sideFrame ⟨d, cp, p, .join e c near w far⟩ π t
  exact ⟨T', paint, shape ▸ step⟩

theorem deleteFixupRed_spec (rep : Represents T (plug (⟨d, cp, p, .join d cw near w far⟩ :: π) t))
    (hooked : Hooked T (⟨d, cp, p, .join d cw near w far⟩ :: π) t) :
    ∃ T', deleteFixupRed d T (rootAddr t) w.addr = some (T', rootAddr near) ∧
      Reshaped T (plug (⟨d, cp, p, .join d cw near w far⟩ :: π) t) T'
        (plug (⟨d, .red, p, near⟩ :: ⟨d, .black, w, far⟩ :: π) t) := by
  obtain ⟨T1, e1, step1⟩ := setColor_sibling rep .black
  have hooked1 := hooked.reshape step1 rfl
  obtain ⟨T2, e2, step2⟩ := setColor_join (π := π) step1.rep .red
  obtain ⟨T3, e3, step3⟩ := rotate_join step2.rep
  have whole := (step1.trans step2).trans step3
  have hooked3 := hooked.reshape (ρ := ⟨d, .red, p, near⟩ :: ⟨d, .black, w, far⟩ :: π) whole rfl
  have readW := Represents.read_far (π := ⟨d, .black, w, far⟩ :: π) step3.rep
  rw [Hooked] at hooked1 hooked3
  refine ⟨T3, ?_, whole⟩
  simp [deleteFixupRed, e1, hooked1, parentOf, e2, e3, hooked3, readW]

theorem deleteFixupNear_spec {A B : ColorTree (Cell κ ν)} {y : Cell κ ν} {cy : Color}
    (rep : Represents T (plug (⟨d, cp, p, .join d cw (.join d cy A y B) w far⟩ :: π) t))
    (hooked : Hooked T (⟨d, cp, p, .join d cw (.join d cy A y B) w far⟩ :: π) t) :
    ∃ T', deleteFixupNear d T (rootAddr t) w.addr y.addr = some (T', y.addr) ∧
      Reshaped T (plug (⟨d, cp, p, .join d cw (.join d cy A y B) w far⟩ :: π) t) T'
        (plug (⟨d, cp, p, .join d .black A y (.join d .red B w far)⟩ :: π) t) := by
  have onNear : Represents T (plug (⟨d, cw, w, far⟩ :: sideFrame ⟨d, cp, p, .leaf⟩ t :: π) (.join d cy A y B)) :=
    rep.toSibling
  obtain ⟨T1, e1, step1⟩ := setColor_join onNear .black
  obtain ⟨T2, e2, step2⟩ := setColor_join (π := sideFrame ⟨d, cp, p, .leaf⟩ t :: π) step1.rep .red
  have turned : Represents T2
      (plug (sideFrame ⟨d, cp, p, .leaf⟩ t :: π) (.join d.other .red far w (.join d.other .black B y A))) := by
    rw [ColorTree.join_other, ColorTree.join_other]
    exact step2.rep
  obtain ⟨T3, e3, step3⟩ := rotate_join turned
  rw [ColorTree.join_other d .red, ColorTree.join_other d .black, ColorTree.join_other d .black,
    ColorTree.join_other d .red] at step3
  have whole := (step1.trans step2).trans step3
  have before : plug (⟨d, cw, w, far⟩ :: sideFrame ⟨d, cp, p, .leaf⟩ t :: π) (.join d cy A y B) =
      plug (⟨d, cp, p, .join d cw (.join d cy A y B) w far⟩ :: π) t :=
    plug_sideFrame ⟨d, cp, p, .join d cw (.join d cy A y B) w far⟩ π t
  have after : plug (sideFrame ⟨d, cp, p, .leaf⟩ t :: π) (.join d .black A y (.join d .red B w far)) =
      plug (⟨d, cp, p, .join d .black A y (.join d .red B w far)⟩ :: π) t :=
    plug_sideFrame ⟨d, cp, p, .join d .black A y (.join d .red B w far)⟩ π t
  rw [before, after] at whole
  have hooked3 := hooked.reshape whole rfl
  have readW := whole.rep.above_far
  rw [Hooked] at hooked3
  refine ⟨T3, ?_, whole⟩
  simp [deleteFixupNear, e1, e2, e3, hooked3, parentOf, readW, rootAddr_join]

theorem deleteFixupFar_spec (rep : Represents T (plug (⟨d, cp, p, .join d cw near w far⟩ :: π) t))
    (hooked : Hooked T (⟨d, cp, p, .join d cw near w far⟩ :: π) t) (real : far ≠ .leaf) :
    ∃ T', deleteFixupFar d T (rootAddr t) w.addr = some T' ∧ Reshaped T (plug (⟨d, cp, p, .join d cw near w far⟩ :: π) t) T'
        (plug π (.join d cp (.join d .black t p near) w (far.paint .black))) := by
  have readC := rep.above_color
  obtain ⟨T1, e1, step1⟩ := setColor_sibling rep cp
  obtain ⟨T2, e2, step2⟩ := setColor_join (π := π) step1.rep .black
  have onW : Represents T2 (plug (sideFrame ⟨d, .black, p, .leaf⟩ t :: π) (.join d cp near w far)) :=
    Represents.toSibling (f := ⟨d, .black, p, .join d cp near w far⟩) (π := π) step2.rep
  have readFar := onW.read_far
  have onFar : Represents T2 (plug (sideFrame ⟨d, cp, w, far⟩ near :: sideFrame ⟨d, .black, p, .leaf⟩ t :: π) far) :=
    Represents.toSibling (f := ⟨d, cp, w, far⟩) onW
  obtain ⟨T3, e3, step3⟩ := setColor_focus onFar real .black
  have before : plug (sideFrame ⟨d, cp, w, far⟩ near :: sideFrame ⟨d, .black, p, .leaf⟩ t :: π) far =
      plug π (.join d .black t p (.join d cp near w far)) := by
    simp only [plug, Frame.attach, sideFrame, ColorTree.join_other]
  have after : plug (sideFrame ⟨d, cp, w, far⟩ near :: sideFrame ⟨d, .black, p, .leaf⟩ t :: π) (far.paint .black) =
      plug π (.join d .black t p (.join d cp near w (far.paint .black))) := by
    simp only [plug, Frame.attach, sideFrame, ColorTree.join_other]
  rw [before, after] at step3
  obtain ⟨T4, e4, step4⟩ := rotate_join step3.rep
  rw [Hooked] at hooked
  refine ⟨T4, ?_, ((step1.trans step2).trans step3).trans step4⟩
  simp [deleteFixupFar, hooked, parentOf, readC, e1, e2, readFar, e3, e4]

def Short (t : ColorTree (Cell κ ν)) (n : Nat) : Prop :=
  Balanced t .black n ∨ t.color = .red ∧ Balanced (t.paint .black) .black (n + 1)

theorem deleteFixupBlack_spec {n : Nat} {cn cf : Color}
    (rep : Represents T (plug (⟨d, cp, p, .join d .black near w far⟩ :: π) t))
    (hooked : Hooked T (⟨d, cp, p, .join d .black near w far⟩ :: π) t)
    (short : Balanced t .black n) (nearB : Balanced near cn n) (farB : Balanced far cf n) :
    (∃ T', deleteFixupBlack d T (rootAddr t) w.addr = some (T', p.addr) ∧
      Reshaped T (plug (⟨d, cp, p, .join d .black near w far⟩ :: π) t) T'
        (plug π (.join d cp t p (.join d .red near w far))) ∧ cn = .black ∧ cf = .black) ∨
    ∃ T' s, deleteFixupBlack d T (rootAddr t) w.addr = some (T', T'.root) ∧
      Reshaped T (plug (⟨d, cp, p, .join d .black near w far⟩ :: π) t) T' (plug π s) ∧
      (cp = .red → Balanced s .red (n + 1)) ∧ (cp = .black → Balanced s .black (n + 2)) := by
  have onW : Represents T (plug (sideFrame ⟨d, cp, p, .leaf⟩ t :: π) (.join d .black near w far)) := rep.toSibling
  have readNear := onW.read_near
  have readFar := onW.read_far
  have readNc := Represents.read_focus_color (π := ⟨d, .black, w, far⟩ :: sideFrame ⟨d, cp, p, .leaf⟩ t :: π) onW
  have readFc := (Represents.toSibling (f := ⟨d, .black, w, far⟩) (t := near)
    (π := sideFrame ⟨d, cp, p, .leaf⟩ t :: π) onW).read_focus_color
  rw [nearB.color_eq] at readNc
  rw [farB.color_eq] at readFc
  cases cf with
  | black =>
    cases cn with
    | black =>
      obtain ⟨T', paint, step⟩ := setColor_sibling rep .red
      have hooked' := hooked.reshape step rfl
      rw [Hooked] at hooked'
      refine .inl ⟨T', ?_, step, rfl, rfl⟩
      simp [deleteFixupBlack, readNear, readFar, readNc, readFc, paint, hooked', parentOf]
    | red =>
      obtain ⟨A, y, B, shape, AB, BB⟩ := nearB.red_cases d
      subst shape
      rw [rootAddr_join] at readNear readNc
      obtain ⟨T1, turn, step1⟩ := deleteFixupNear_spec rep hooked
      have hooked1 := hooked.reshape step1 rfl
      obtain ⟨T2, last, step2⟩ := deleteFixupFar_spec step1.rep hooked1 (ColorTree.join_ne_leaf _ _ _ _ _)
      have balanced := Balanced.join_same (d := d) (c := cp) (x := y) (short.join_black (d := d) (x := p) AB)
        (BB.join_red (d := d) (x := w) farB).paint_black
      refine .inr ⟨T2, _, ?_, step1.trans step2, balanced⟩
      simp [deleteFixupBlack, readNear, readFar, readNc, readFc, turn, last]
  | red =>
    obtain ⟨T2, last, step2⟩ := deleteFixupFar_spec rep hooked farB.ne_leaf
    have balanced := Balanced.join_same (d := d) (c := cp) (x := w) (short.join_black (d := d) (x := p) nearB)
      farB.paint_black
    refine .inr ⟨T2, _, ?_, step2, balanced⟩
    simp [deleteFixupBlack, readNear, readFar, readNc, readFc, last]

theorem deleteFixupLoop_red (fuel : Nat) {a : Addr} (red : T.color a = some .red) :
    deleteFixupLoop (fuel + 1) T a = some (T, a) := by
  simp [deleteFixupLoop, red]

theorem deleteFixupLoop_root (fuel : Nat) (rep : Represents T t) :
    deleteFixupLoop (fuel + 1) T (rootAddr t) = some (T, rootAddr t) := by
  have color := Represents.read_focus_color (π := []) rep
  simp [deleteFixupLoop, color, rep.root]

theorem topAddr_mem (f : Frame (Cell κ ν)) (π : Path (Cell κ ν)) (a : Addr) : topAddr (f :: π) a ∈ pathAddrs (f :: π) := by
  induction π generalizing f a with
  | nil => simp [topAddr, mem_pathAddrs_cons]
  | cons g π ih => exact mem_pathAddrs_cons.mpr (.inr (.inr (ih g f.elem.addr)))

variable {f : Frame (Cell κ ν)}

theorem Represents.below_root (rep : Represents T (plug (f :: π) t)) : rootAddr t ≠ T.root := by
  have root : T.root ∈ pathAddrs (f :: π) := by
    rw [rep.root, rootAddr_plug]
    exact topAddr_mem f π _
  intro same
  by_cases isNil : rootAddr t = nil
  · exact rep.notNil (mem_addrs_plug.mpr (.inr (isNil ▸ same ▸ root)))
  · exact rep.nodup.2.2 _ (rootAddr_mem isNil) (same ▸ root)

def Repairs (T : Rbtree κ ν) (s : ColorTree (Cell κ ν)) (result : Option (Rbtree κ ν × Addr)) : Prop :=
  ∃ T' ρ r m, result = some (T', rootAddr r) ∧ Reshaped T s T' (plug ρ r) ∧ Balanced (plug ρ (r.paint .black)) .black m

theorem Repairs.of_reshaped {T1 : Rbtree κ ν} {s s1 : ColorTree (Cell κ ν)} {result : Option (Rbtree κ ν × Addr)}
    (step : Reshaped T s T1 s1) (later : Repairs T1 s1 result) : Repairs T s result := by
  obtain ⟨T', ρ, r, m, ran, step', balanced⟩ := later
  exact ⟨T', ρ, r, m, ran, step.trans step', balanced⟩

theorem repairs_root (fuel : Nat) (rep : Represents T t) {m : Nat} (balanced : Balanced t .black m) :
    Repairs T t (deleteFixupLoop (fuel + 1) T (rootAddr t)) := by
  refine ⟨T, [], t, m, deleteFixupLoop_root fuel rep, .refl rep, ?_⟩
  rw [balanced.paint_self]
  exact balanced

theorem repairs_red (fuel : Nat) {n : Nat} (rep : Represents T (plug π t)) (red : t.color = .red)
    (balanced : Balanced (t.paint .black) .black (n + 1)) (ctx : Context π .black (n + 1)) :
    Repairs T (plug π t) (deleteFixupLoop (fuel + 1) T (rootAddr t)) := by
  have color := rep.read_focus_color
  rw [red] at color
  obtain ⟨m, whole⟩ := ctx.plug balanced
  exact ⟨T, π, t, m, deleteFixupLoop_red fuel color, .refl rep, whole⟩

theorem deleteFixupLoop_enter (fuel : Nat) (rep : Represents T (plug (f :: π) t))
    (hooked : Hooked T (f :: π) t) (black : t.color = .black) (real : rootAddr f.sibling ≠ nil) :
    deleteFixupLoop (fuel + 1) T (rootAddr t) =
      (deleteFixupSide f.side T (rootAddr t)).bind fun r => deleteFixupLoop fuel r.1 r.2 := by
  have color := rep.read_focus_color
  rw [black] at color
  obtain ⟨l, readL, side⟩ := side_test rep (.inr real)
  rw [Hooked, parentOf] at hooked
  simp [deleteFixupLoop, color, rep.below_root, hooked, readL, side]

theorem deleteFixupLoop_black (fuel : Nat) {n : Nat} {sib : ColorTree (Cell κ ν)}
    (rep : Represents T (plug (⟨d, cp, p, sib⟩ :: π) t)) (hooked : Hooked T (⟨d, cp, p, sib⟩ :: π) t)
    (short : Balanced t .black n) (sibling : Balanced sib .black (n + 1))
    (ctx : cp = .red ∧ Context π .red (n + 1) ∨ cp = .black ∧ Context π .black (n + 2))
    (later : ∀ T1 s, Represents T1 (plug π s) → Hooked T1 π s → cp = .black → Short s (n + 1) →
      Repairs T1 (plug π s) (deleteFixupLoop (fuel + 1) T1 (rootAddr s))) : Repairs T (plug (⟨d, cp, p, sib⟩ :: π) t)
      ((deleteFixupBlack d T (rootAddr t) (rootAddr sib)).bind fun r => deleteFixupLoop (fuel + 1) r.1 r.2) := by
  obtain ⟨near, w, far, cn, cf, rfl, nearB, farB⟩ := sibling.black_cases d
  rw [rootAddr_join]
  rcases deleteFixupBlack_spec rep hooked short nearB farB with ⟨T1, round, step, rfl, rfl⟩ | ⟨T1, s, round, step, redB, blackB⟩
  · have raised : Balanced (.join d .black t p (.join d .red near w far)) .black (n + 1) :=
      short.join_black (nearB.join_red farB)
    rw [round, bind_some]
    refine .of_reshaped step ?_
    rcases ctx with ⟨rfl, outer⟩ | ⟨rfl, outer⟩
    · have last := repairs_red fuel step.rep (by simp) (by simpa using raised) outer.weaken
      rwa [rootAddr_join] at last
    · have last := later T1 _ step.rep (.of_real step.rep (ColorTree.join_ne_leaf _ _ _ _ _)) rfl (.inl raised)
      rwa [rootAddr_join] at last
  · obtain ⟨m, whole⟩ : ∃ m, Balanced (plug π s) .black m := by
      rcases ctx with ⟨rfl, outer⟩ | ⟨rfl, outer⟩
      · exact outer.plug (redB rfl)
      · exact outer.plug (blackB rfl)
    rw [round, bind_some, step.rep.root]
    exact .of_reshaped step (repairs_root fuel step.rep whole)

theorem deleteFixupSide_black (rep : Represents T (plug (f :: π) t))
    (hooked : Hooked T (f :: π) t) (black : f.sibling.color = .black) :
    deleteFixupSide f.side T (rootAddr t) = deleteFixupBlack f.side T (rootAddr t) (rootAddr f.sibling) := by
  have color := rep.toSibling.read_focus_color
  rw [black] at color
  rw [Hooked, parentOf] at hooked
  simp [deleteFixupSide, hooked, rep.above_far, color]

theorem deleteFixupSide_red (rep : Represents T (plug (f :: π) t))
    (hooked : Hooked T (f :: π) t) (red : f.sibling.color = .red) :
    deleteFixupSide f.side T (rootAddr t) = (deleteFixupRed f.side T (rootAddr t) (rootAddr f.sibling)).bind
      fun r => deleteFixupBlack f.side r.1 (rootAddr t) r.2 := by
  have color := rep.toSibling.read_focus_color
  rw [red] at color
  rw [Hooked, parentOf] at hooked
  simp [deleteFixupSide, hooked, rep.above_far, color]

theorem deleteFixupLoop_spec (fuel : Nat) {n : Nat} (rep : Represents T (plug π t)) (hooked : Hooked T π t)
    (short : Short t n) (ctx : Context π .black (n + 1)) (enough : π.length < fuel) :
    Repairs T (plug π t) (deleteFixupLoop fuel T (rootAddr t)) := by
  induction fuel generalizing T π t n with
  | zero => omega
  | succ fuel ih =>
    rcases short with black | ⟨red, painted⟩
    · cases ctx with
      | root => exact repairs_root fuel rep black
      | @red f π _ fRed sibling outer =>
        obtain ⟨fuel, rfl⟩ : ∃ k, fuel = k + 1 := ⟨fuel - 1, by simp at enough; omega⟩
        have real := rep.toSibling.rootAddr_ne_nil sibling.ne_leaf_of_height
        rw [deleteFixupLoop_enter _ rep hooked black.color_eq real, deleteFixupSide_black rep hooked sibling.color_eq]
        refine deleteFixupLoop_black fuel rep hooked black sibling (.inl ⟨fRed, outer⟩) ?_
        intro _ _ _ _ isBlack _
        rw [fRed] at isBlack
        cases isBlack
      | @black f π _ cs _ fBlack sibling outer =>
        obtain ⟨fuel, rfl⟩ : ∃ k, fuel = k + 1 := ⟨fuel - 1, by simp at enough; omega⟩
        have real := rep.toSibling.rootAddr_ne_nil sibling.ne_leaf_of_height
        rw [deleteFixupLoop_enter _ rep hooked black.color_eq real]
        cases cs with
        | black =>
          rw [deleteFixupSide_black rep hooked sibling.color_eq]
          refine deleteFixupLoop_black fuel rep hooked black sibling (.inr ⟨fBlack, outer⟩) ?_
          intro T1 s rep1 hooked1 _ short1
          exact ih rep1 hooked1 short1 outer (by simpa using enough)
        | red =>
          -- the rotation gives `t` a black sibling below a red parent: one more round is the last
          rw [deleteFixupSide_red rep hooked sibling.color_eq]
          obtain ⟨d, cp, p, sib⟩ := f
          obtain ⟨near, w, far, rfl, nearB, farB⟩ := sibling.red_cases d
          obtain ⟨T1, turn, step⟩ := deleteFixupRed_spec rep hooked
          rw [rootAddr_join, turn, bind_some]
          refine .of_reshaped step ?_
          refine deleteFixupLoop_black fuel step.rep (hooked.reshape step rfl) black nearB
            (.inl ⟨rfl, .black rfl farB outer⟩) ?_
          intro _ _ _ _ isBlack _
          cases isBlack
    · exact repairs_red fuel rep red painted ctx

theorem rbtreeDeleteFixup_spec {n : Nat} (rep : Represents T (plug π t)) (hooked : Hooked T π t)
    (short : Short t n) (ctx : Context π .black (n + 1)) :
    ∃ T' t' m, T.rbtreeDeleteFixup (rootAddr t) = some T' ∧ Reshaped T (plug π t) T' t' ∧ Balanced t' .black m := by
  have enough : π.length < T.brk + 1 := by
    have small := rep.size_le
    have deep := length_plug π t
    omega
  obtain ⟨T1, ρ, r, m, loop, step, balanced⟩ := deleteFixupLoop_spec (T.brk + 1) rep hooked short ctx enough
  have paint : ∃ T2, T1.setColor (rootAddr r) .black = some T2 ∧
      Reshaped T1 (plug ρ r) T2 (plug ρ (r.paint .black)) := by
    by_cases leaf : r = .leaf
    · subst leaf
      exact setColor_black step.rep rfl
    · exact setColor_focus step.rep leaf .black
  obtain ⟨T2, painted, step2⟩ := paint
  refine ⟨T2, _, m, ?_, step.trans step2, balanced⟩
  simp [rbtreeDeleteFixup, loop, painted]

end AICacheDB.Rbtree
