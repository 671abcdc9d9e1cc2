import Mathlib.Data.List.Nodup

open List

namespace RedBlack

inductive Color where
  | red
  | black
  deriving DecidableEq, Repr

inductive Side where
  | left
  | right
  deriving DecidableEq, Repr

def Side.other : Side → Side
  | .left => .right
  | .right => .left

@[simp] theorem Side.other_other (d : Side) : d.other.other = d := by cases d <;> rfl

inductive ColorTree (β : Type*) where
  | leaf
  | node (color : Color) (left : ColorTree β) (elem : β) (right : ColorTree β)

variable {β : Type*}

namespace ColorTree

def inorder : ColorTree β → List β
  | leaf => []
  | node _ l x r => l.inorder ++ x :: r.inorder

def color : ColorTree β → Color
  | leaf => .black
  | node c _ _ _ => c

def paint (c : Color) : ColorTree β → ColorTree β
  | leaf => leaf
  | node _ l x r => node c l x r

def join (d : Side) (c : Color) (near : ColorTree β) (x : β) (far : ColorTree β) : ColorTree β :=
  match d with
  | .left => node c near x far
  | .right => node c far x near

@[simp] theorem join_left (c : Color) (l : ColorTree β) (x : β) (r : ColorTree β) : join .left c l x r = node c l x r := rfl

@[simp] theorem join_right (c : Color) (l : ColorTree β) (x : β) (r : ColorTree β) : join .right c r x l = node c l x r := rfl

theorem join_other (d : Side) (c : Color) (near far : ColorTree β) (x : β) :
    join d.other c near x far = join d c far x near := by cases d <;> rfl

@[simp] theorem join_ne_leaf (d : Side) (c : Color) (near far : ColorTree β) (x : β) : join d c near x far ≠ .leaf := by
  cases d <;> simp [join]

@[simp] theorem join_color (d : Side) (c : Color) (near far : ColorTree β) (x : β) :
    (join d c near x far).color = c := by cases d <;> rfl

@[simp] theorem join_paint (d : Side) (c c' : Color) (near far : ColorTree β) (x : β) :
    (join d c near x far).paint c' = join d c' near x far := by cases d <;> rfl

theorem inorder_rotate (d : Side) (cx cy : Color) (a b c : ColorTree β) (x y : β) :
    (join d cy (join d cx a x b) y c).inorder = (join d cx a x (join d cy b y c)).inorder := by
  cases d <;> simp [inorder]

end ColorTree

/-- One step of a path up to the parent: on which side the subtree hangs, and what else the parent holds. -/
structure Frame (β : Type*) where
  side : Side
  color : Color
  elem : β
  sibling : ColorTree β

def Frame.attach (f : Frame β) (t : ColorTree β) : ColorTree β := ColorTree.join f.side f.color t f.elem f.sibling

abbrev Path (β : Type*) := List (Frame β)

def plug : Path β → ColorTree β → ColorTree β
  | [], t => t
  | f :: π, t => plug π (f.attach t)

def Path.before : Path β → List β
  | [] => []
  | f :: π => Path.before π ++ if f.side = .right then f.sibling.inorder ++ [f.elem] else []

def Path.after : Path β → List β
  | [] => []
  | f :: π => (if f.side = .left then f.elem :: f.sibling.inorder else []) ++ Path.after π

theorem inorder_plug (π : Path β) (t : ColorTree β) : (plug π t).inorder = π.before ++ t.inorder ++ π.after := by
  induction π generalizing t with
  | nil => simp [plug, Path.before, Path.after]
  | cons f π ih =>
    obtain ⟨side, c, x, s⟩ := f
    rw [plug, ih]
    cases side <;> simp [Frame.attach, ColorTree.inorder, Path.before, Path.after]

theorem plug_append (π ρ : Path β) (t : ColorTree β) : plug (π ++ ρ) t = plug ρ (plug π t) := by
  induction π generalizing t with
  | nil => rfl
  | cons f π ih => exact ih _

theorem before_append (π ρ : Path β) : Path.before (π ++ ρ) = ρ.before ++ π.before := by
  induction π with
  | nil => simp [Path.before]
  | cons f π ih => rw [cons_append, Path.before, Path.before, ih, append_assoc]

theorem after_append (π ρ : Path β) : Path.after (π ++ ρ) = π.after ++ ρ.after := by
  induction π with
  | nil => simp [Path.after]
  | cons f π ih => rw [cons_append, Path.after, Path.after, ih, append_assoc]

theorem length_plug (π : Path β) (t : ColorTree β) : π.length + t.inorder.length ≤ (plug π t).inorder.length := by
  induction π generalizing t with
  | nil => simp [plug]
  | cons f π ih =>
    have outer := ih (f.attach t)
    have grow : t.inorder.length + 1 ≤ (f.attach t).inorder.length := by
      cases side : f.side <;> simp [Frame.attach, side, ColorTree.inorder]
    simp only [plug, length_cons]
    omega

variable {t near far : ColorTree β} {c : Color} {n : Nat} {π : Path β} {x : β} {d : Side}

theorem exists_plug_of_mem (member : x ∈ t.inorder) : ∃ π c l r, t = plug π (ColorTree.node c l x r) := by
  induction t with
  | leaf => simp [ColorTree.inorder] at member
  | node c l y r ihl ihr =>
    simp only [ColorTree.inorder, mem_append, mem_cons] at member
    rcases member with inside | rfl | inside
    · obtain ⟨π, c', l', r', same⟩ := ihl inside
      refine ⟨π ++ [⟨.left, c, y, r⟩], c', l', r', ?_⟩
      rw [plug_append, ← same]
      rfl
    · exact ⟨[], c, l, r, rfl⟩
    · obtain ⟨π, c', l', r', same⟩ := ihr inside
      refine ⟨π ++ [⟨.right, c, y, l⟩], c', l', r', ?_⟩
      rw [plug_append, ← same]
      rfl

/-- The root of `t` has colour `c`, no red node has a red child, and every path down passes `n` black nodes. -/
inductive Balanced : ColorTree β → Color → Nat → Prop
  | leaf : Balanced .leaf .black 0
  | red {l r : ColorTree β} {x : β} {n : Nat} (hl : Balanced l .black n) (hr : Balanced r .black n) :
      Balanced (.node .red l x r) .red n
  | black {l r : ColorTree β} {x : β} {cl cr : Color} {n : Nat} (hl : Balanced l cl n) (hr : Balanced r cr n) :
      Balanced (.node .black l x r) .black (n + 1)

theorem Balanced.color_eq (h : Balanced t c n) : t.color = c := by
  cases h <;> rfl

theorem Balanced.ne_leaf (h : Balanced t .red n) : t ≠ .leaf := by
  intro leaf
  subst leaf
  cases h

theorem Balanced.join_red (near_ok : Balanced near .black n) (far_ok : Balanced far .black n) :
    Balanced (ColorTree.join d .red near x far) .red n := by
  cases d
  · exact .red near_ok far_ok
  · exact .red far_ok near_ok

theorem Balanced.join_black {cn cf : Color} (near_ok : Balanced near cn n) (far_ok : Balanced far cf n) :
    Balanced (ColorTree.join d .black near x far) .black (n + 1) := by
  cases d
  · exact .black near_ok far_ok
  · exact .black far_ok near_ok

theorem Balanced.join_same (hn : Balanced near .black n) (hf : Balanced far .black n) :
    (c = .red → Balanced (.join d c near x far) .red n) ∧ (c = .black → Balanced (.join d c near x far) .black (n + 1)) := by
  constructor
  · intro isRed
    rw [isRed]
    exact hn.join_red hf
  · intro isBlack
    rw [isBlack]
    exact hn.join_black hf

theorem Balanced.paint_self (h : Balanced t .black n) : t.paint .black = t := by
  cases h <;> rfl

theorem Balanced.ne_leaf_of_height (h : Balanced t c (n + 1)) : t ≠ .leaf := by
  intro leaf
  subst leaf
  cases h

theorem Balanced.red_cases (d : Side) (h : Balanced t .red n) :
    ∃ near x far, t = ColorTree.join d .red near x far ∧ Balanced near .black n ∧ Balanced far .black n := by
  cases h with
  | @red l r x _ hl hr =>
    cases d
    · exact ⟨l, x, r, rfl, hl, hr⟩
    · exact ⟨r, x, l, rfl, hr, hl⟩

theorem Balanced.black_cases (d : Side) (h : Balanced t .black (n + 1)) :
    ∃ near x far cn cf, t = ColorTree.join d .black near x far ∧ Balanced near cn n ∧ Balanced far cf n := by
  cases h with
  | @black l r x cl cr _ hl hr =>
    cases d
    · exact ⟨l, x, r, cl, cr, rfl, hl, hr⟩
    · exact ⟨r, x, l, cr, cl, rfl, hr, hl⟩

theorem Balanced.join_cases {c' : Color} (h : Balanced (ColorTree.join d c near x far) c' n) :
    c' = c ∧ ((c = .red ∧ Balanced near .black n ∧ Balanced far .black n) ∨
      (c = .black ∧ ∃ cn cf m, n = m + 1 ∧ Balanced near cn m ∧ Balanced far cf m)) := by
  cases d <;> cases h with
  | red hl hr => exact ⟨rfl, .inl ⟨rfl, by assumption, by assumption⟩⟩
  | black hl hr => exact ⟨rfl, .inr ⟨rfl, _, _, _, rfl, by assumption, by assumption⟩⟩

theorem Balanced.replace_elem {c' : Color} (x' : β)
    (h : Balanced (.join d c near x far) c' n) : Balanced (.join d c near x' far) c' n := by
  obtain ⟨rfl, kinds⟩ := h.join_cases
  rcases kinds with ⟨rfl, hn, hf⟩ | ⟨rfl, cn, cf, m, rfl, hn, hf⟩
  · exact hn.join_red hf
  · exact hn.join_black hf

theorem Balanced.paint_black (h : Balanced t .red n) : Balanced (t.paint .black) .black (n + 1) := by
  cases h with
  | red hl hr => exact .black hl hr

/-- A balanced tree with root colour `c` and black height `n` makes `π` a balanced tree with a black root. -/
inductive Context : Path β → Color → Nat → Prop
  | root {n : Nat} : Context [] .black n
  | red {f : Frame β} {π : Path β} {n : Nat} (color : f.color = .red)
      (sibling : Balanced f.sibling .black n) (outer : Context π .red n) : Context (f :: π) .black n
  | black {f : Frame β} {π : Path β} {c cs : Color} {n : Nat} (color : f.color = .black)
      (sibling : Balanced f.sibling cs n) (outer : Context π .black (n + 1)) : Context (f :: π) c n

theorem Context.plug (ctx : Context π c n) (balanced : Balanced t c n) : ∃ m, Balanced (plug π t) .black m := by
  induction ctx generalizing t with
  | root => exact ⟨_, balanced⟩
  | red color sibling outer ih =>
    apply ih
    rw [Frame.attach, color]
    exact balanced.join_red sibling
  | black color sibling outer ih =>
    apply ih
    rw [Frame.attach, color]
    exact balanced.join_black sibling

theorem Balanced.unplug {m : Nat} (h : Balanced (plug π t) .black m) : ∃ c n, Balanced t c n ∧ Context π c n := by
  induction π generalizing t with
  | nil => exact ⟨_, _, h, .root⟩
  | cons f π ih =>
    obtain ⟨c, n, whole, outer⟩ := ih h
    obtain ⟨same, kinds⟩ := Balanced.join_cases whole
    rw [same] at outer
    rcases kinds with ⟨isRed, near, far⟩ | ⟨isBlack, cn, cf, m, rfl, near, far⟩
    · rw [isRed] at outer
      exact ⟨_, _, near, .red isRed far outer⟩
    · rw [isBlack] at outer
      exact ⟨_, _, near, .black isBlack far outer⟩

theorem Context.red_hole_cases (ctx : Context π .black n) :
    π = [] ∨ (∃ f ρ, π = f :: ρ ∧ f.color = .black ∧ Context π .red n) ∨
      ∃ f g ρ cs, π = f :: g :: ρ ∧ f.color = .red ∧ g.color = .black ∧ Balanced f.sibling .black n ∧
        Balanced g.sibling cs n ∧ Context ρ .black (n + 1) := by
  cases ctx with
  | root => exact .inl rfl
  | @red f ρ _ color sibling outer =>
    cases outer with
    | @black g ρ' _ cs _ color' sibling' outer' =>
      exact .inr (.inr ⟨f, g, ρ', cs, rfl, color, color', sibling, sibling', outer'⟩)
  | @black f ρ _ cs _ color sibling outer =>
    exact .inr (.inl ⟨f, ρ, rfl, color, .black color sibling outer⟩)

theorem Context.weaken (ctx : Context π .red n) : Context π .black n := by
  cases ctx with
  | black color sibling outer => exact .black color sibling outer

theorem Context.replace_elem {ρ : Path β} {f : Frame β} (e : β)
    (ctx : Context (ρ ++ f :: π) c n) : Context (ρ ++ { f with elem := e } :: π) c n := by
  induction ρ generalizing c n with
  | nil =>
    cases ctx with
    | red color sibling outer => exact .red color sibling outer
    | black color sibling outer => exact .black color sibling outer
  | cons g ρ ih =>
    cases ctx with
    | red color sibling outer => exact .red color sibling (ih outer)
    | black color sibling outer => exact .black color sibling (ih outer)

end RedBlack
