import AICacheDB.Engine.Rbtree.Model
import Mathlib.Data.List.Perm.Subperm

open RedBlack List Function

namespace AICacheDB.Rbtree

variable {κ ν : Type}

structure Cell (κ ν : Type) where
  addr : Addr
  key : κ
  value : ν
  expireMs : Int

def rootAddr : ColorTree (Cell κ ν) → Addr
  | .leaf => nil
  | .node _ _ x _ => x.addr

@[simp] theorem rootAddr_leaf : rootAddr (.leaf : ColorTree (Cell κ ν)) = nil := rfl

@[simp] theorem rootAddr_node (c : Color) (l r : ColorTree (Cell κ ν)) (x : Cell κ ν) :
    rootAddr (.node c l x r) = x.addr := rfl

@[simp] theorem rootAddr_join (d : Side) (c : Color) (near far : ColorTree (Cell κ ν)) (x : Cell κ ν) :
    rootAddr (.join d c near x far) = x.addr := by cases d <;> rfl

def addrs (t : ColorTree (Cell κ ν)) : List Addr := t.inorder.map Cell.addr

def pathAddrs (π : Path (Cell κ ν)) : List Addr := (π.before ++ π.after).map Cell.addr

def parentOf : Path (Cell κ ν) → Addr
  | [] => nil
  | f :: _ => f.elem.addr

def topAddr : Path (Cell κ ν) → Addr → Addr
  | [], a => a
  | f :: π, _ => topAddr π f.elem.addr

def cellNode (d : Side) (c : Color) (x : Cell κ ν) (near far p : Addr) : RbtreeNode κ ν :=
  match d with
  | .left => ⟨c, far, near, p, x.key, x.value, x.expireMs⟩
  | .right => ⟨c, near, far, p, x.key, x.value, x.expireMs⟩

/-- The memory holds the subtree `t` below the parent `p`, with all links in both directions. -/
def Stored (mem : Addr → Option (RbtreeNode κ ν)) : Addr → ColorTree (Cell κ ν) → Prop
  | _, .leaf => True
  | p, .node c l x r =>
    mem x.addr = some (cellNode .left c x (rootAddr l) (rootAddr r) p) ∧
      Stored mem x.addr l ∧ Stored mem x.addr r

/-- The memory holds everything outside the hole of a path whose hole is filled by the node at `a`. -/
def StoredPath (mem : Addr → Option (RbtreeNode κ ν)) : Path (Cell κ ν) → Addr → Prop
  | [], _ => True
  | f :: π, a =>
    mem f.elem.addr = some (cellNode f.side f.color f.elem a (rootAddr f.sibling) (parentOf π)) ∧
      Stored mem f.elem.addr f.sibling ∧ StoredPath mem π f.elem.addr

variable {mem : Addr → Option (RbtreeNode κ ν)} {π : Path (Cell κ ν)} {t : ColorTree (Cell κ ν)} {A : List Addr}
  {T T' : Rbtree κ ν}
  {far near : ColorTree (Cell κ ν)} {p a : Addr} {x : Cell κ ν} {mem' : Addr → Option (RbtreeNode κ ν)}
  {T'' : Rbtree κ ν} {B : List Addr}

theorem stored_join {d : Side} {c : Color} :
    Stored mem p (.join d c near x far) ↔ mem x.addr = some (cellNode d c x (rootAddr near) (rootAddr far) p) ∧
        Stored mem x.addr near ∧ Stored mem x.addr far := by
  cases d
  · exact Iff.rfl
  · simp only [ColorTree.join, Stored, cellNode]
    tauto

theorem stored_plug : Stored mem nil (plug π t) ↔ StoredPath mem π (rootAddr t) ∧ Stored mem (parentOf π) t := by
  induction π generalizing t with
  | nil => simp [plug, StoredPath, parentOf]
  | cons f π ih =>
    rw [plug, ih, Frame.attach, stored_join]
    simp only [rootAddr_join, StoredPath, parentOf]
    tauto

theorem rootAddr_plug (π : Path (Cell κ ν)) (t : ColorTree (Cell κ ν)) : rootAddr (plug π t) = topAddr π (rootAddr t) := by
  induction π generalizing t with
  | nil => rfl
  | cons f π ih => rw [plug, ih, Frame.attach, rootAddr_join, topAddr]

theorem mem_addrs_join {d : Side} {c : Color} :
    a ∈ addrs (.join d c near x far) ↔ a = x.addr ∨ a ∈ addrs near ∨ a ∈ addrs far := by
  cases d <;> simp [addrs, ColorTree.inorder] <;> aesop

theorem mem_pathAddrs_cons {f : Frame (Cell κ ν)} :
    a ∈ pathAddrs (f :: π) ↔ a = f.elem.addr ∨ a ∈ addrs f.sibling ∨ a ∈ pathAddrs π := by
  obtain ⟨side, c, x, s⟩ := f
  cases side <;> simp [pathAddrs, addrs, Path.before, Path.after] <;> aesop

theorem rootAddr_mem (real : rootAddr t ≠ nil) : rootAddr t ∈ addrs t := by
  cases t with
  | leaf => exact absurd rfl real
  | node c l x r => simp [addrs, ColorTree.inorder]

theorem Stored.congr (stored : Stored mem p t) (same : ∀ a ∈ addrs t, mem' a = mem a) : Stored mem' p t := by
  induction t generalizing p with
  | leaf => trivial
  | node c l x r ihl ihr =>
    have inside : ∀ a, a = x.addr ∨ a ∈ addrs l ∨ a ∈ addrs r → mem' a = mem a :=
      fun a member => same a ((mem_addrs_join (d := .left) (c := c)).mpr member)
    refine ⟨(inside _ (.inl rfl)).trans stored.1, ihl stored.2.1 ?_, ihr stored.2.2 ?_⟩
    · exact fun a member => inside a (.inr (.inl member))
    · exact fun a member => inside a (.inr (.inr member))

theorem StoredPath.congr (stored : StoredPath mem π a) (same : ∀ b ∈ pathAddrs π, mem' b = mem b) : StoredPath mem' π a := by
  induction π generalizing a with
  | nil => trivial
  | cons f π ih =>
    have inside : ∀ b, b = f.elem.addr ∨ b ∈ addrs f.sibling ∨ b ∈ pathAddrs π → mem' b = mem b :=
      fun b member => same b (mem_pathAddrs_cons.mpr member)
    refine ⟨(inside _ (.inl rfl)).trans stored.1, stored.2.1.congr ?_, ih stored.2.2 ?_⟩
    · exact fun b member => inside b (.inr (.inl member))
    · exact fun b member => inside b (.inr (.inr member))

theorem Stored.live (stored : Stored mem p t) : ∀ a ∈ addrs t, ∃ n, mem a = some n := by
  induction t generalizing p with
  | leaf => simp [addrs, ColorTree.inorder]
  | node c l x r ihl ihr =>
    intro a member
    rcases (mem_addrs_join (d := .left) (c := c)).mp member with rfl | inside | inside
    · exact ⟨_, stored.1⟩
    · exact ihl stored.2.1 a inside
    · exact ihr stored.2.2 a inside

@[simp] theorem write_root (T : Rbtree κ ν) (p : Addr) (n : RbtreeNode κ ν) : (T.write p n).root = T.root := rfl

@[simp] theorem write_mem_self (T : Rbtree κ ν) (p : Addr) (n : RbtreeNode κ ν) :
    (T.write p n).mem p = some n := update_self _ _ _

theorem write_mem_of_ne (T : Rbtree κ ν) (n : RbtreeNode κ ν) (other : a ≠ p) :
    (T.write p n).mem a = T.mem a := update_of_ne other _ _

/-- The memory holds exactly the links of `t`: the pointers agree, the sentinel is black and no node, and the addresses are
    distinct. -/
structure Represents (T : Rbtree κ ν) (t : ColorTree (Cell κ ν)) : Prop where
  root : T.root = rootAddr t
  stored : Stored T.mem nil t
  distinct : (addrs t).Nodup
  nilFree : T.mem nil = none
  nilBlack : T.nilColor = .black
  bound : ∀ a n, T.mem a = some n → a < T.brk
  positive : 0 < T.brk

structure KeepsOutside (A : List Addr) (T T' : Rbtree κ ν) : Prop where
  nilColor : T'.nilColor = T.nilColor
  nilParent : T'.nilParent = T.nilParent
  brk : T'.brk = T.brk
  mem : ∀ a, a ∉ A → T'.mem a = T.mem a
  live : ∀ a n, T'.mem a = some n → ∃ m, T.mem a = some m

theorem KeepsOutside.refl (A : List Addr) (T : Rbtree κ ν) : KeepsOutside A T T :=
  ⟨rfl, rfl, rfl, fun _ _ => rfl, fun _ n h => ⟨n, h⟩⟩

theorem KeepsOutside.trans (first : KeepsOutside A T T') (second : KeepsOutside A T' T'') : KeepsOutside A T T'' := by
  refine ⟨second.nilColor.trans first.nilColor, second.nilParent.trans first.nilParent,
    second.brk.trans first.brk, fun a outside => (second.mem a outside).trans (first.mem a outside), ?_⟩
  intro a n h
  obtain ⟨m, h'⟩ := second.live a n h
  exact first.live a m h'

theorem KeepsOutside.mono (keeps : KeepsOutside A T T') (sub : A ⊆ B) : KeepsOutside B T T' :=
  ⟨keeps.nilColor, keeps.nilParent, keeps.brk, fun a outside => keeps.mem a (fun h => outside (sub h)), keeps.live⟩

structure Confined (A : List Addr) (T T' : Rbtree κ ν) : Prop where
  brk : T'.brk = T.brk
  mem : ∀ a, a ∉ A → T'.mem a = T.mem a
  live : ∀ a n, T'.mem a = some n → ∃ m, T.mem a = some m

theorem KeepsOutside.confined (keeps : KeepsOutside A T T') (sub : A ⊆ B) : Confined B T T' :=
  ⟨keeps.brk, fun a outside => keeps.mem a (fun h => outside (sub h)), keeps.live⟩

theorem Confined.mono (confined : Confined A T T') (sub : A ⊆ B) : Confined B T T' :=
  ⟨confined.brk, fun a outside => confined.mem a (fun h => outside (sub h)), confined.live⟩

theorem Confined.trans (first : Confined A T T') (second : Confined A T' T'') : Confined A T T'' := by
  refine ⟨second.brk.trans first.brk, fun a outside => (second.mem a outside).trans (first.mem a outside), ?_⟩
  intro a n h
  obtain ⟨m, h'⟩ := second.live a n h
  exact first.live a m h'

section Focus

variable {T : Rbtree κ ν} {π : Path (Cell κ ν)} {t : ColorTree (Cell κ ν)}

theorem addrs_plug (π : Path (Cell κ ν)) (t : ColorTree (Cell κ ν)) : (addrs (plug π t)).Perm (addrs t ++ pathAddrs π) := by
  simp only [addrs, pathAddrs, inorder_plug, map_append]
  rw [append_assoc]
  exact perm_append_comm_assoc _ _ _

theorem mem_addrs_plug {a : Addr} : a ∈ addrs (plug π t) ↔ a ∈ addrs t ∨ a ∈ pathAddrs π := by
  rw [(addrs_plug π t).mem_iff, mem_append]

theorem Represents.notNil (rep : Represents T t) : nil ∉ addrs t := by
  intro member
  obtain ⟨n, live⟩ := rep.stored.live nil member
  rw [rep.nilFree] at live
  cases live

theorem Represents.size_le (rep : Represents T t) : t.inorder.length ≤ T.brk - 1 := by
  have inRange : addrs t ⊆ List.range' 1 (T.brk - 1) := by
    intro a member
    obtain ⟨n, live⟩ := rep.stored.live a member
    have below := rep.bound a n live
    have real : a ≠ nil := ne_of_mem_of_not_mem member rep.notNil
    rw [mem_range'_1]
    have positive : 0 < a := Nat.pos_of_ne_zero real
    have spread : T.brk ≤ 1 + (T.brk - 1) := by omega
    exact ⟨positive, below.trans_le spread⟩
  have short := (subperm_of_subset rep.distinct inRange).length_le
  rwa [addrs, length_map, length_range'] at short

variable (rep : Represents T (plug π t))

include rep

theorem Represents.path : StoredPath T.mem π (rootAddr t) :=
  (stored_plug.mp rep.stored).1

theorem Represents.focus : Stored T.mem (parentOf π) t :=
  (stored_plug.mp rep.stored).2

theorem Represents.nodup : (addrs t).Nodup ∧ (pathAddrs π).Nodup ∧ ∀ a ∈ addrs t, a ∉ pathAddrs π := by
  have whole := (addrs_plug π t).nodup_iff.mp rep.distinct
  rw [nodup_append] at whole
  exact ⟨whole.1, whole.2.1, fun a inside outside => whole.2.2 a inside a outside rfl⟩

theorem Represents.replace {T' : Rbtree κ ν} {t' : ColorTree (Cell κ ν)}
    (keeps : KeepsOutside (addrs (plug π t)) T T') (root : T'.root = topAddr π (rootAddr t'))
    (path : StoredPath T'.mem π (rootAddr t')) (focus : Stored T'.mem (parentOf π) t')
    (inside : addrs t' ⊆ addrs t) (nodup : (addrs t').Nodup) : Represents T' (plug π t') := by
  obtain ⟨_, nodupPath, disjoint⟩ := rep.nodup
  refine ⟨root.trans (rootAddr_plug π t').symm, stored_plug.mpr ⟨path, focus⟩, ?_, ?_, ?_, ?_, ?_⟩
  · rw [(addrs_plug π t').nodup_iff, nodup_append]
    exact ⟨nodup, nodupPath, fun a ha b hb same => disjoint a (inside ha) (same ▸ hb)⟩
  · rw [keeps.mem nil rep.notNil]
    exact rep.nilFree
  · exact keeps.nilColor.trans rep.nilBlack
  · intro a n live
    obtain ⟨m, before⟩ := keeps.live a n live
    rw [keeps.brk]
    exact rep.bound a m before
  · rw [keeps.brk]
    exact rep.positive

end Focus

end AICacheDB.Rbtree
