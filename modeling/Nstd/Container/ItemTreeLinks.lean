import Nstd.Container.ItemTree
import Mathlib.Tactic.ApplyFun

/-!
# What the links of an item tree represent

`Represents m c t` says that the memory of `m` holds the tree `plug c t` under `root`, with every
`parent`, `left`, `right`, `height` and `slope` field as the tree has it, and that no address
occurs twice.  The path `c` and the subtree `t` in its hole are kept apart because the code works
that way: a loop holds a pointer into the tree and changes what is around it.

Each function on links gets one lemma here: from `Represents m c t` it returns, changes nothing but
links, and its result represents what the function of the same name in `BalancedTree` makes of `t`.
-/

namespace Nstd

open BalancedTree
open BalancedTree.AvlTree

variable {T V : Type}

/-- The five link fields of an item. -/
def Item.links (i : Item T V) : Ptr × Ptr × Ptr × ℕ × ℤ :=
  (i.parent, i.left, i.right, i.height, i.slope)

lemma Item.links_eq {i j : Item T V} : i.links = j.links ↔
    i.parent = j.parent ∧ i.left = j.left ∧ i.right = j.right ∧ i.height = j.height
      ∧ i.slope = j.slope := by
  simp [Item.links]

lemma Item.child_eq {i j : Item T V} (h : i.links = j.links) (d : Side) : i.child d = j.child d := by
  obtain ⟨-, hl, hr, -⟩ := Item.links_eq.mp h
  cases d
  · exact hl
  · exact hr

namespace ItemTree

/-! ## Memory cells -/

@[simp] lemma mem_modify (m : ItemTree T V) (a b : ℕ) (f : Item T V → Item T V) :
    (m.modify a f).mem b = if b = a then f (m.mem a) else m.mem b := by
  simp only [modify, Function.update_apply]

lemma mem_setParent_ne {m : ItemTree T V} {a b : ℕ} (h : b ≠ a) (p : Ptr) :
    (m.setParent a p).mem b = m.mem b := by rw [setParent, mem_modify, if_neg h]

lemma mem_setParent_self (m : ItemTree T V) (a : ℕ) (p : Ptr) :
    (m.setParent a p).mem a = { m.mem a with parent := p } := by
  rw [setParent, mem_modify, if_pos rfl]

lemma mem_setChild_ne {m : ItemTree T V} {a b : ℕ} (h : b ≠ a) (d : Side) (p : Ptr) :
    (m.setChild a d p).mem b = m.mem b := by
  cases d <;> rw [setChild, mem_modify, if_neg h]

lemma child_setChild_self (m : ItemTree T V) (a : ℕ) (d : Side) (p : Ptr) :
    ((m.setChild a d p).mem a).child d = p := by
  cases d <;> rw [setChild, mem_modify, if_pos rfl] <;> rfl

lemma child_setChild_flip (m : ItemTree T V) (a : ℕ) (d : Side) (p : Ptr) :
    ((m.setChild a d p).mem a).child d.flip = (m.mem a).child d.flip := by
  cases d <;> rw [setChild, mem_modify, if_pos rfl] <;> rfl

lemma child_flip_setChild (m : ItemTree T V) (a : ℕ) (d : Side) (p : Ptr) :
    ((m.setChild a d.flip p).mem a).child d = (m.mem a).child d := by
  cases d <;> rw [Side.flip, setChild, mem_modify, if_pos rfl] <;> rfl

/-- Besides that one child nothing of the item changes. -/
lemma fields_setChild (m : ItemTree T V) (a : ℕ) (d : Side) (p : Ptr) :
    ((m.setChild a d p).mem a).parent = (m.mem a).parent
      ∧ ((m.setChild a d p).mem a).height = (m.mem a).height
      ∧ ((m.setChild a d p).mem a).slope = (m.mem a).slope := by
  cases d <;> rw [setChild, mem_modify, if_pos rfl] <;> exact ⟨rfl, rfl, rfl⟩

@[simp] lemma root_setParent (m : ItemTree T V) (a : ℕ) (p : Ptr) :
    (m.setParent a p).root = m.root := rfl

@[simp] lemma root_setChild (m : ItemTree T V) (a : ℕ) (d : Side) (p : Ptr) :
    (m.setChild a d p).root = m.root := by cases d <;> rfl

/-- Only links changed: every item keeps key, value and place in the chain. -/
structure OnlyLinks (m m' : ItemTree T V) : Prop where
  key : ∀ a, (m'.mem a).key = (m.mem a).key
  value : ∀ a, (m'.mem a).value = (m.mem a).value
  next : ∀ a, (m'.mem a).next = (m.mem a).next
  prev : ∀ a, (m'.mem a).prev = (m.mem a).prev
  begin : m'.begin = m.begin
  size : m'.size = m.size
  freeItem : m'.freeItem = m.freeItem
  blocks : m'.blocks = m.blocks

lemma OnlyLinks.refl (m : ItemTree T V) : OnlyLinks m m :=
  ⟨fun _ => rfl, fun _ => rfl, fun _ => rfl, fun _ => rfl, rfl, rfl, rfl, rfl⟩

lemma OnlyLinks.trans {m₁ m₂ m₃ : ItemTree T V} (h : OnlyLinks m₁ m₂) (h' : OnlyLinks m₂ m₃) :
    OnlyLinks m₁ m₃ :=
  ⟨fun a => (h'.key a).trans (h.key a), fun a => (h'.value a).trans (h.value a),
    fun a => (h'.next a).trans (h.next a), fun a => (h'.prev a).trans (h.prev a),
    h'.begin.trans h.begin, h'.size.trans h.size, h'.freeItem.trans h.freeItem,
    h'.blocks.trans h.blocks⟩

lemma onlyLinks_modify (m : ItemTree T V) (a : ℕ) (f : Item T V → Item T V)
    (hk : (f (m.mem a)).key = (m.mem a).key) (hv : (f (m.mem a)).value = (m.mem a).value)
    (hn : (f (m.mem a)).next = (m.mem a).next) (hp : (f (m.mem a)).prev = (m.mem a).prev) :
    OnlyLinks m (m.modify a f) := by
  refine ⟨fun b => ?_, fun b => ?_, fun b => ?_, fun b => ?_, rfl, rfl, rfl, rfl⟩ <;>
    rw [mem_modify] <;> split <;> simp_all

lemma onlyLinks_setParent (m : ItemTree T V) (a : ℕ) (p : Ptr) : OnlyLinks m (m.setParent a p) :=
  onlyLinks_modify m a (fun i => { i with parent := p }) rfl rfl rfl rfl

lemma onlyLinks_setChild (m : ItemTree T V) (a : ℕ) (d : Side) (p : Ptr) :
    OnlyLinks m (m.setChild a d p) := by
  cases d with
  | left => exact onlyLinks_modify m a (fun i => { i with left := p }) rfl rfl rfl rfl
  | right => exact onlyLinks_modify m a (fun i => { i with right := p }) rfl rfl rfl rfl

lemma onlyLinks_write (m : ItemTree T V) (cell : Cell) (p : Ptr) : OnlyLinks m (m.write cell p) := by
  cases cell with
  | root => exact ⟨fun _ => rfl, fun _ => rfl, fun _ => rfl, fun _ => rfl, rfl, rfl, rfl, rfl⟩
  | child a d => exact onlyLinks_setChild m a d p

lemma onlyLinks_update (m : ItemTree T V) (a : ℕ) : OnlyLinks m (m.updateHeightAndSlope a) :=
  onlyLinks_modify m a (fun i => { i with slope := _, height := _ }) rfl rfl rfl rfl

/-! ## Trees in memory -/

/-- The memory holds the tree, whose top item has parent `p`. -/
def Rep (mem : ℕ → Item T V) : AvlTree ℕ → Ptr → Prop
  | nil, _ => True
  | node l a h s r, p =>
    (mem a).links = (p, l.top, r.top, h, s) ∧ Rep mem l (some a) ∧ Rep mem r (some a)

/-- The parent of the hole. -/
def pathParent : List (Frame ℕ) → Ptr
  | [] => none
  | f :: _ => some f.item

/-- The cell that points into the hole. -/
def pathCell : List (Frame ℕ) → Cell
  | [] => .root
  | f :: _ => .child f.item f.side

/-- The memory holds the items of the path and what hangs on them, with `p` in the hole. -/
def RepPath (m : ItemTree T V) : List (Frame ℕ) → Ptr → Prop
  | [], p => m.root = p
  | f :: c, p =>
    (m.mem f.item).parent = pathParent c ∧ (m.mem f.item).child f.side = p
      ∧ (m.mem f.item).child f.side.flip = f.other.top ∧ (m.mem f.item).height = f.height
      ∧ (m.mem f.item).slope = f.slope ∧ Rep m.mem f.other (some f.item)
      ∧ RepPath m c (some f.item)

/-- The memory of `m` holds the tree `plug c t`. -/
structure Represents (m : ItemTree T V) (c : List (Frame ℕ)) (t : AvlTree ℕ) : Prop where
  path : RepPath m c t.top
  sub : Rep m.mem t (pathParent c)
  nodup : (t.inorder ++ labels c).Nodup

@[simp] lemma pathParent_nil : pathParent [] = none := rfl
@[simp] lemma pathParent_cons (f : Frame ℕ) (c : List (Frame ℕ)) :
    pathParent (f :: c) = some f.item := rfl
@[simp] lemma pathCell_nil : pathCell [] = .root := rfl
@[simp] lemma pathCell_cons (f : Frame ℕ) (c : List (Frame ℕ)) :
    pathCell (f :: c) = .child f.item f.side := rfl

lemma rep_build {mem : ℕ → Item T V} {d : Side} {x y : AvlTree ℕ} {a h : ℕ} {s : ℤ} {p : Ptr} :
    Rep mem (build d x a h s y) p ↔
      (mem a).parent = p ∧ (mem a).child d = x.top ∧ (mem a).child d.flip = y.top
        ∧ (mem a).height = h ∧ (mem a).slope = s ∧ Rep mem x (some a) ∧ Rep mem y (some a) := by
  cases d <;> simp only [build, Rep, Item.links, Item.child, Side.flip, Prod.mk.injEq] <;> tauto

lemma Rep.congr {mem mem' : ℕ → Item T V} {t : AvlTree ℕ} {p : Ptr} (h : Rep mem t p)
    (heq : ∀ a ∈ t.inorder, (mem' a).links = (mem a).links) : Rep mem' t p := by
  induction t generalizing p with
  | nil => trivial
  | node l a ht s r ihl ihr =>
    obtain ⟨h₁, h₂, h₃⟩ := h
    exact ⟨(heq a (by simp)).trans h₁, ihl h₂ fun b hb => heq b (by simp [hb]),
      ihr h₃ fun b hb => heq b (by simp [hb])⟩

lemma RepPath.congr {m m' : ItemTree T V} {c : List (Frame ℕ)} {p : Ptr} (h : RepPath m c p)
    (hroot : m'.root = m.root) (heq : ∀ a ∈ labels c, (m'.mem a).links = (m.mem a).links) :
    RepPath m' c p := by
  induction c generalizing p with
  | nil => exact hroot.trans h
  | cons f c ih =>
    obtain ⟨h₁, h₂, h₃, h₄, h₅, h₆, h₇⟩ := h
    have hf := heq f.item (by simp [labels])
    obtain ⟨e₁, -, -, e₄, e₅⟩ := Item.links_eq.mp hf
    exact ⟨e₁.trans h₁, (Item.child_eq hf _).trans h₂, (Item.child_eq hf _).trans h₃,
      e₄.trans h₄, e₅.trans h₅, h₆.congr fun b hb => heq b (by simp [labels, hb]),
      ih h₇ fun b hb => heq b (by simp [labels, hb])⟩

/-- The stored height behind a pointer to a tree in memory. -/
lemma Rep.heightOf {m : ItemTree T V} {t : AvlTree ℕ} {p : Ptr} (h : Rep m.mem t p) :
    m.heightOf t.top = t.height := by
  cases t with
  | nil => rfl
  | node l a ht s r =>
    have h₁ := h.1
    simp only [Item.links, Prod.mk.injEq] at h₁
    exact h₁.2.2.2.1

/-! ## One cell and one pointer -/

lemma RepPath.read {m : ItemTree T V} {c : List (Frame ℕ)} {p : Ptr} (h : RepPath m c p) :
    m.read (pathCell c) = p := by
  cases c with
  | nil => exact h
  | cons f c => exact h.2.1

lemma Represents.read {m : ItemTree T V} {c : List (Frame ℕ)} {t : AvlTree ℕ} (h : Represents m c t) :
    m.read (pathCell c) = t.top := h.path.read

/-- Writing to a cell changes the links of no item but the parent of the hole. -/
lemma links_write {m : ItemTree T V} {c : List (Frame ℕ)} {q : Ptr} {a : ℕ}
    (ha : pathParent c ≠ some a) : ((m.write (pathCell c) q).mem a).links = (m.mem a).links := by
  cases c with
  | nil => rfl
  | cons f c =>
    have hne : a ≠ f.item := by rintro rfl; exact ha rfl
    rcases f with ⟨_ | _, _, _, _, _⟩ <;> simp [write, setChild, hne]

lemma pathParent_mem {c : List (Frame ℕ)} {a : ℕ} (h : pathParent c = some a) : a ∈ labels c := by
  cases c with
  | nil => simp at h
  | cons f c => simp only [pathParent_cons, Option.some.injEq] at h; simp [labels, h]

/-- Writing to the cell of the hole puts another subtree there. -/
lemma RepPath.write {m : ItemTree T V} {c : List (Frame ℕ)} {p : Ptr} (h : RepPath m c p)
    (hnd : (labels c).Nodup) (q : Ptr) : RepPath (m.write (pathCell c) q) c q := by
  cases c with
  | nil => rfl
  | cons f c =>
    obtain ⟨h₁, h₂, h₃, h₄, h₅, h₆, h₇⟩ := h
    rw [labels, List.nodup_cons, List.mem_append, not_or] at hnd
    have hlinks : ∀ a, a ≠ f.item →
        ((m.write (pathCell (f :: c)) q).mem a).links = (m.mem a).links := fun a ha =>
      links_write (by simpa using fun h => ha h.symm)
    have h₆' : Rep (m.write (pathCell (f :: c)) q).mem f.other (some f.item) :=
      h₆.congr fun a ha => hlinks a (by rintro rfl; exact hnd.1.1 ha)
    have h₇' : RepPath (m.write (pathCell (f :: c)) q) c (some f.item) := h₇.congr
      (by cases hs : f.side <;> simp [ItemTree.write, setChild, hs, modify])
      fun a ha => hlinks a (by rintro rfl; exact hnd.1.2 ha)
    rcases f with ⟨d, a, ht, s, o⟩
    cases d <;>
      exact ⟨by simpa [ItemTree.write, setChild] using h₁,
        by simp [ItemTree.write, setChild, Item.child],
        by simpa [ItemTree.write, setChild, Item.child] using h₃,
        by simpa [ItemTree.write, setChild] using h₄,
        by simpa [ItemTree.write, setChild] using h₅, h₆', h₇'⟩

/-- Setting the parent of the top item of a subtree. -/
lemma Rep.setParent {m : ItemTree T V} {l r : AvlTree ℕ} {a h : ℕ} {s : ℤ} {p : Ptr}
    (hr : Rep m.mem (node l a h s r) p) (hnd : (node l a h s r).inorder.Nodup) (q : Ptr) :
    Rep (m.setParent a q).mem (node l a h s r) q := by
  obtain ⟨h₁, h₂, h₃⟩ := hr
  have hne : ∀ b, b ∈ l.inorder ∨ b ∈ r.inorder → b ≠ a := by
    rintro b hb rfl
    rw [inorder_node, List.nodup_append, List.nodup_cons] at hnd
    rcases hb with hb | hb
    · exact hnd.2.2 b hb b (by simp) rfl
    · exact hnd.2.1.1 hb
  simp only [Item.links, Prod.mk.injEq] at h₁
  refine ⟨by simp [ItemTree.setParent, Item.links, h₁], h₂.congr fun b hb => ?_,
    h₃.congr fun b hb => ?_⟩
  · rw [ItemTree.setParent, mem_modify, if_neg (hne b (Or.inl hb))]
  · rw [ItemTree.setParent, mem_modify, if_neg (hne b (Or.inr hb))]

/-- The cell an item finds through its parent is the cell of the hole it stands in. -/
lemma Represents.cellOf {m : ItemTree T V} {c : List (Frame ℕ)} {t : AvlTree ℕ} {a : ℕ}
    (h : Represents m c t) (ha : t.top = some a) (hp : (m.mem a).parent = pathParent c) :
    m.cellOf a = pathCell c := by
  cases c with
  | nil => simp [ItemTree.cellOf, hp]
  | cons f c =>
    obtain ⟨-, h₂, h₃, -⟩ := h.path
    rcases f with ⟨d, b, hb, sb, o⟩
    simp only [ItemTree.cellOf, hp, pathParent_cons, pathCell_cons]
    cases d with
    | left => rw [if_pos (by simpa [Item.child, ha] using h₂)]
    | right =>
      rw [if_neg]
      intro hl
      have ho : o.top = some a := by simpa [Item.child, hl] using h₃.symm
      have hnd := h.nodup
      rw [List.nodup_append] at hnd
      exact hnd.2.2 a (top_mem_inorder ha) a (by simp [labels, top_mem_inorder ho]) rfl

/-- The addresses of a node, its two subtrees and its path are all different. -/
lemma Represents.ne {m : ItemTree T V} {c : List (Frame ℕ)} {d : Side} {x y : AvlTree ℕ} {a h : ℕ}
    {s : ℤ} (hm : Represents m c (build d x a h s y)) :
    (∀ b ∈ x.inorder, b ≠ a) ∧ (∀ b ∈ y.inorder, b ≠ a) ∧ (∀ b ∈ labels c, b ≠ a)
      ∧ (∀ b ∈ x.inorder, b ∉ y.inorder) ∧ (∀ b ∈ x.inorder, b ∉ labels c)
      ∧ (∀ b ∈ y.inorder, b ∉ labels c) ∧ x.inorder.Nodup ∧ y.inorder.Nodup
      ∧ (labels c).Nodup := by
  have hnd := hm.nodup
  cases d <;>
    simp only [build, inorder_node, List.nodup_append, List.nodup_cons, List.mem_append,
      List.mem_cons, List.append_assoc, List.cons_append] at hnd <;>
    grind

/-! ## `updateHeightAndSlope` -/

/-- `updateHeightAndSlope` computes the two fields `AvlTree.update` puts there. -/
theorem Represents.update {m : ItemTree T V} {c : List (Frame ℕ)} {l r : AvlTree ℕ} {a h : ℕ} {s : ℤ}
    (hm : Represents m c (node l a h s r)) :
    Represents (m.updateHeightAndSlope a) c (update (node l a h s r)) := by
  obtain ⟨hla, hra, hca, -⟩ := Represents.ne (d := .left) hm
  obtain ⟨h₁, h₂, h₃⟩ := hm.sub
  simp only [Item.links, Prod.mk.injEq] at h₁
  have hother : ∀ b, b ≠ a → ((m.updateHeightAndSlope a).mem b).links = (m.mem b).links :=
    fun b hb => by rw [updateHeightAndSlope, mem_modify, if_neg hb]
  refine ⟨hm.path.congr rfl fun b hb => hother b (hca b hb), ⟨?_, ?_, ?_⟩, hm.nodup⟩
  · have hl := h₂.heightOf
    have hr := h₃.heightOf
    simp only [updateHeightAndSlope, mem_modify, if_true, Item.links, h₁, hl, hr]
    congr 4
    split <;> omega
  · exact h₂.congr fun b hb => hother b (hla b hb)
  · exact h₃.congr fun b hb => hother b (hra b hb)

/-! ## Rotations -/

/-- Setting the parent of the top item, which is null for the empty tree. -/
lemma Rep.setTopParent {m : ItemTree T V} {t : AvlTree ℕ} {p : Ptr} (hr : Rep m.mem t p)
    (hnd : t.inorder.Nodup) (q : ℕ) :
    Rep (match t.top with | some a => m.setParent a (some q) | none => m).mem t (some q) := by
  cases t with
  | nil => trivial
  | node l a h s r => exact hr.setParent hnd (some q)

/-- The assignments of a rotation, before the heights are recomputed. -/
theorem Represents.relink {m : ItemTree T V} {c : List (Frame ℕ)} {d : Side} {x y z : AvlTree ℕ}
    {a b h hb : ℕ} {s sb : ℤ} (hm : Represents m c (build d (build d x b hb sb y) a h s z)) :
    Represents (relink d m (pathCell c) a b) c (build d x b hb sb (build d y a h s z)) := by
  have hnd : (build d x b hb sb (build d y a h s z)).inorder ++ labels c
      = (build d (build d x b hb sb y) a h s z).inorder ++ labels c := by
    cases d <;> simp [build]
  obtain ⟨hba, hza, hca, hbz, hbc, hzc, hnb, hnz, hnc⟩ := hm.ne
  obtain ⟨pa, da, fa, ha, sa, hrb, hrz⟩ := rep_build.mp hm.sub
  obtain ⟨pb, db, fb, hhb, hsb, hrx, hry⟩ := rep_build.mp hrb
  have hsub : ∀ {w : ℕ}, w = b ∨ w ∈ x.inorder ∨ w ∈ y.inorder →
      w ∈ (build d x b hb sb y).inorder := by cases d <;> simp [build] <;> tauto
  have hab : a ≠ b := fun e => hba b (hsub (Or.inl rfl)) e.symm
  have hxy : (∀ w ∈ x.inorder, w ≠ b) ∧ (∀ w ∈ y.inorder, w ≠ b)
      ∧ (∀ w ∈ x.inorder, w ∉ y.inorder) ∧ y.inorder.Nodup := by
    cases d <;> simp only [build, inorder_node, List.nodup_append, List.nodup_cons] at hnb <;> grind
  obtain ⟨hxb, hyb, hxy, hny⟩ := hxy
  -- the memory before the cell is written
  set m₃ := ((m.setParent b (m.mem a).parent).setChild b d.flip (some a)).setChild a d y.top with hm₃
  set m₄ := (match y.top with | some t => m₃.setParent t (some a) | none => m₃) with hm₄
  set m₅ := m₄.setParent a (some b) with hm₅
  have hrel : ItemTree.relink d m (pathCell c) a b = m₅.write (pathCell c) (some b) := by
    simp only [ItemTree.relink, fb]; rfl
  have h₃ : ∀ w, w ≠ a → w ≠ b → m₃.mem w = m.mem w := fun w hwa hwb => by
    rw [hm₃, mem_setChild_ne hwa, mem_setChild_ne hwb, mem_setParent_ne hwb]
  have h₄ : ∀ w, w ∉ y.inorder → m₄.mem w = m₃.mem w := fun w hw => by
    cases hy : y.top with
    | none => simp only [hm₄, hy]
    | some t =>
      have hwt : w ≠ t := by rintro rfl; exact hw (top_mem_inorder hy)
      simp only [hm₄, hy, setParent, mem_modify, if_neg hwt]
  have hya : a ∉ y.inorder := fun hw => hba a (hsub (Or.inr (Or.inr hw))) rfl
  have h₅ : ∀ w, w ≠ a → m₅.mem w = m₄.mem w := fun w hw => by
    simp only [hm₅, setParent, mem_modify, if_neg hw]
  have h₅a : m₅.mem a = { m₃.mem a with parent := some b } := by
    simp only [hm₅, setParent, mem_modify, if_true, h₄ a hya]
  have hout : ∀ w, w ≠ a → w ≠ b → w ∉ y.inorder → (m₅.mem w).links = (m.mem w).links :=
    fun w hwa hwb hwy => by rw [h₅ w hwa, h₄ w hwy, h₃ w hwa hwb]
  have hroot : m₅.root = m.root := by
    rw [hm₅, hm₄]; cases y.top <;> simp [hm₃]
  -- the three subtrees and the path
  have hrx₅ : Rep m₅.mem x (some b) := hrx.congr fun w hw =>
    hout w (hba w (hsub (Or.inr (Or.inl hw)))) (hxb w hw) (hxy w hw)
  have hrz₅ : Rep m₅.mem z (some a) := hrz.congr fun w hw =>
    hout w (hza w hw) (by rintro rfl; exact hbz w (hsub (Or.inl rfl)) hw)
      fun hy => hbz w (hsub (Or.inr (Or.inr hy))) hw
  have hry₅ : Rep m₅.mem y (some a) := by
    have hry₃ : Rep m₃.mem y (some b) := hry.congr fun w hw => by
      rw [h₃ w (hba w (hsub (Or.inr (Or.inr hw)))) (hyb w hw)]
    exact (hry₃.setTopParent hny a).congr fun w hw => by
      rw [h₅ w (hba w (hsub (Or.inr (Or.inr hw))))]
  have hpath : RepPath m₅ c (some a) := by
    have hp := hm.path
    rw [top_build] at hp
    exact hp.congr hroot fun w hw =>
      hout w (hca w hw) (by rintro rfl; exact hbc w (hsub (Or.inl rfl)) hw)
        fun hy => hbc w (hsub (Or.inr (Or.inr hy))) hw
  -- the two items that turn around each other
  have hb₅ : m₅.mem b = ((m.setParent b (m.mem a).parent).setChild b d.flip (some a)).mem b := by
    rw [h₅ b hab.symm, h₄ b fun hw => hyb b hw rfl, hm₃, mem_setChild_ne hab.symm]
  have ha₃ : (m₃.mem a).child d = y.top ∧ (m₃.mem a).child d.flip = z.top
      ∧ (m₃.mem a).height = h ∧ (m₃.mem a).slope = s := by
    have hma : ((m.setParent b (m.mem a).parent).setChild b d.flip (some a)).mem a = m.mem a := by
      rw [mem_setChild_ne hab, mem_setParent_ne hab]
    obtain ⟨-, e₁, e₂⟩ := fields_setChild
      ((m.setParent b (m.mem a).parent).setChild b d.flip (some a)) a d y.top
    rw [hm₃, child_setChild_self, child_setChild_flip, e₁, e₂, hma]
    exact ⟨rfl, fa, ha, sa⟩
  have hsub₅ : Rep m₅.mem (build d x b hb sb (build d y a h s z)) (pathParent c) := by
    refine rep_build.mpr ⟨?_, ?_, ?_, ?_, ?_, hrx₅,
      rep_build.mpr ⟨by rw [h₅a], ?_, ?_, ?_, ?_, hry₅, hrz₅⟩⟩
    · rw [hb₅, (fields_setChild _ _ _ _).1, mem_setParent_self]; exact pa
    · rw [hb₅, child_flip_setChild, mem_setParent_self]; cases d <;> exact db
    · rw [hb₅, child_setChild_self, top_build]
    · rw [hb₅, (fields_setChild _ _ _ _).2.1, mem_setParent_self]; exact hhb
    · rw [hb₅, (fields_setChild _ _ _ _).2.2, mem_setParent_self]; exact hsb
    · rw [h₅a]; cases d <;> exact ha₃.1
    · rw [h₅a]; cases d <;> exact ha₃.2.1
    · rw [h₅a]; exact ha₃.2.2.1
    · rw [h₅a]; exact ha₃.2.2.2
  rw [hrel]
  refine ⟨by rw [top_build]; exact hpath.write hnc (some b), ?_, hnd ▸ hm.nodup⟩
  refine hsub₅.congr fun w hw => links_write fun hp => ?_
  have hnd' := hnd ▸ hm.nodup
  rw [List.nodup_append] at hnd'
  exact hnd'.2.2 w hw w (pathParent_mem hp) rfl

lemma OnlyLinks.relink (d : Side) (m : ItemTree T V) (cell : Cell) (a b : ℕ) :
    OnlyLinks m (relink d m cell a b) := by
  unfold ItemTree.relink
  refine .trans ?_ (onlyLinks_write _ _ _)
  refine .trans ?_ (onlyLinks_setParent _ _ _)
  have h : OnlyLinks m (((m.setParent b (m.mem a).parent).setChild b d.flip (some a)).setChild a d
      ((m.mem b).child d.flip)) :=
    ((onlyLinks_setParent _ _ _).trans (onlyLinks_setChild _ _ _ _)).trans (onlyLinks_setChild _ _ _ _)
  cases ht : (m.mem b).child d.flip with
  | none => rw [ht] at h; exact h
  | some t => rw [ht] at h; exact h.trans (onlyLinks_setParent _ _ _)

/-- Going down into the hole of a frame, and up again. -/
lemma represents_fill {m : ItemTree T V} {c : List (Frame ℕ)} {f : Frame ℕ} {t : AvlTree ℕ} :
    Represents m c (f.fill t) ↔ Represents m (f :: c) t := by
  have hnd : ((f.fill t).inorder ++ labels c).Nodup ↔ (t.inorder ++ labels (f :: c)).Nodup := by
    refine List.Perm.nodup_iff ?_
    refine (inorder_plug_perm c (f.fill t)).symm.trans ?_
    exact inorder_plug_perm (f :: c) t
  constructor
  · rintro ⟨hp, hs, hn⟩
    obtain ⟨h₁, h₂, h₃, h₄, h₅, h₆, h₇⟩ := rep_build.mp hs
    exact ⟨⟨h₁, h₂, h₃, h₄, h₅, h₇, by rwa [top_fill] at hp⟩, h₆, hnd.mp hn⟩
  · rintro ⟨⟨h₁, h₂, h₃, h₄, h₅, h₇, hp⟩, h₆, hn⟩
    exact ⟨by rwa [top_fill], rep_build.mpr ⟨h₁, h₂, h₃, h₄, h₅, h₆, h₇⟩, hnd.mpr hn⟩

lemma Represents.update_build {m : ItemTree T V} {c : List (Frame ℕ)} {d : Side} {x y : AvlTree ℕ}
    {a h : ℕ} {s : ℤ} (hm : Represents m c (build d x a h s y)) :
    Represents (m.updateHeightAndSlope a) c (AvlTree.update (build d x a h s y)) := by
  cases d <;> exact hm.update

/-- `rotr` and `rotl`. -/
theorem Represents.rot {m : ItemTree T V} {c : List (Frame ℕ)} {d : Side} {x y z : AvlTree ℕ}
    {a b h hb : ℕ} {s sb : ℤ} (hm : Represents m c (build d (build d x b hb sb y) a h s z)) :
    ∃ m', rot d m (pathCell c) = some m'
      ∧ Represents m' c (AvlTree.rot d (build d (build d x b hb sb y) a h s z)) ∧ OnlyLinks m m' := by
  obtain ⟨-, hda, -⟩ := rep_build.mp hm.sub
  have hrun : ItemTree.rot d m (pathCell c)
      = some (((ItemTree.relink d m (pathCell c) a b).updateHeightAndSlope a).updateHeightAndSlope b) := by
    rw [ItemTree.rot, hm.read, top_build]
    simp only [Option.bind_eq_bind, Option.bind_some, hda, top_build]
  refine ⟨_, hrun, ?_, ((OnlyLinks.relink ..).trans (onlyLinks_update ..)).trans (onlyLinks_update ..)⟩
  -- recompute the item that went down, then the one that came up
  have h₁ := hm.relink
  rw [← build_flip d] at h₁
  have h₂ : Represents _ (⟨d.flip, b, hb, sb, x⟩ :: c) (build d y a h s z) := represents_fill.mp h₁
  have h₃ : Represents _ c (build d.flip _ b hb sb x) := represents_fill.mpr h₂.update_build
  rw [rot_build, ← build_flip d]
  exact h₃.update_build

/-- `shiftr` and `shiftl`, when the rotations they make are possible. -/
theorem Represents.shift {m : ItemTree T V} {c : List (Frame ℕ)} {d : Side} {x y z : AvlTree ℕ}
    {a b h hb : ℕ} {s sb : ℤ} (hm : Represents m c (build d (build d x b hb sb y) a h s z))
    (hy : sb = d.inward → y ≠ nil) :
    ∃ m', shift d m (pathCell c) = some m'
      ∧ Represents m' c (AvlTree.shift d (build d (build d x b hb sb y) a h s z)) ∧ OnlyLinks m m' := by
  obtain ⟨-, hda, -, -, -, hrb, -⟩ := rep_build.mp hm.sub
  obtain ⟨-, -, -, -, hsb, -⟩ := rep_build.mp hrb
  rw [ItemTree.shift, hm.read, top_build]
  simp only [Option.bind_eq_bind, Option.bind_some, hda, top_build, hsb, shift_build, slope_build]
  by_cases hs : sb = d.inward
  · simp only [if_pos hs]
    obtain ⟨y₂, e, he, se, y₁, rfl⟩ := exists_build d.flip (hy hs)
    have h₁ : Represents m (⟨d, a, h, s, z⟩ :: c)
        (build d.flip (build d.flip y₂ e he se y₁) b hb sb x) := by
      rw [build_flip d _ x]; exact represents_fill.mp hm
    obtain ⟨m₁, hrun₁, hm₁, ho₁⟩ := h₁.rot
    have hx : build d x b hb sb (build d.flip y₂ e he se y₁)
        = build d.flip (build d.flip y₂ e he se y₁) b hb sb x := (build_flip d _ _ _ _ _).symm
    rw [pathCell_cons] at hrun₁
    rw [hx, hrun₁, Option.bind_some]
    -- the new `d`-child is again a node
    obtain ⟨h', s', htop⟩ := exists_update_build d.flip y₂
      (AvlTree.update (build d.flip y₁ b hb sb x)) e he se
    rw [rot_build, htop, build_flip] at hm₁ ⊢
    obtain ⟨m₂, hrun₂, hm₂, ho₂⟩ := Represents.rot (represents_fill.mpr hm₁)
    exact ⟨m₂, hrun₂, hm₂, ho₁.trans ho₂⟩
  · simp only [if_neg hs]
    exact hm.rot

/-! ## `rebal` and the loops over it -/

/-- What the fields of the item on top of the hole are. -/
lemma Represents.top_fields {m : ItemTree T V} {c : List (Frame ℕ)} {t : AvlTree ℕ} {a : ℕ}
    (hm : Represents m c t) (ha : t.top = some a) :
    (m.mem a).parent = pathParent c ∧ (m.mem a).height = t.height ∧ (m.mem a).slope = t.slope := by
  cases t with
  | nil => simp at ha
  | node l b h s r =>
    have hs := hm.sub.1
    rw [top_node, Option.some.injEq] at ha
    simp only [ha, Item.links, Prod.mk.injEq] at hs
    exact ⟨hs.1, hs.2.2.2.1, hs.2.2.2.2⟩

lemma exists_top {t : AvlTree ℕ} {a : ℕ} (ha : a ∈ t.inorder) : ∃ b, t.top = some b := by
  cases t with
  | nil => simp at ha
  | node l b h s r => exact ⟨b, rfl⟩

/-- A balanced node whose slope points inwards has a child there to be rotated up. -/
lemma inward_child {d : Side} {x y : AvlTree ℕ} {b hb : ℕ} {sb : ℤ}
    (hbal : (build d x b hb sb y).Balanced) (hs : sb = d.inward) : y ≠ nil := by
  rintro rfl
  cases d <;> simp only [build, balanced_node, height_nil, Side.inward] at hbal hs <;> omega

/-- `rebal` on a node whose two subtrees are balanced. -/
theorem Represents.rebal {m : ItemTree T V} {c : List (Frame ℕ)} {l r : AvlTree ℕ} {a h : ℕ} {s : ℤ}
    (hm : Represents m c (node l a h s r)) (hl : l.Balanced) (hr : r.Balanced)
    (hs : s = l.height - r.height) :
    ∃ m' b, m.rebal a = some (m', b) ∧ Represents m' c (AvlTree.rebal (node l a h s r))
      ∧ (AvlTree.rebal (node l a h s r)).top = some b ∧ OnlyLinks m m' := by
  obtain ⟨hpar, -, hslope⟩ := hm.top_fields (top_node l r a h s)
  have hcell := hm.cellOf (top_node l r a h s) hpar
  rw [slope_node] at hslope
  have finish : ∀ d : Side, AvlTree.rebal (node l a h s r) = AvlTree.shift d (node l a h s r) →
      (∃ x b hb sb y z, node l a h s r = build d (build d x b hb sb y) a h s z
        ∧ (build d x b hb sb y).Balanced) →
      (∀ m' b, ItemTree.shift d m (pathCell c) = some m' → m'.read (pathCell c) = some b →
        m.rebal a = some (m', b)) →
      ∃ m' b, m.rebal a = some (m', b) ∧ Represents m' c (AvlTree.rebal (node l a h s r))
        ∧ (AvlTree.rebal (node l a h s r)).top = some b ∧ OnlyLinks m m' := by
    rintro d hreb ⟨x, b, hb, sb, y, z, hnode, hbal⟩ hrun
    rw [hnode] at hm hreb ⊢
    obtain ⟨m', hm₁, hm₂, ho⟩ := hm.shift (inward_child hbal)
    rw [← hreb] at hm₂
    have hmem : a ∈ (AvlTree.rebal (build d (build d x b hb sb y) a h s z)).inorder := by
      rw [inorder_rebal, ← hnode]; simp
    obtain ⟨b', hb'⟩ := exists_top hmem
    exact ⟨m', b', hrun m' b' hm₁ (hm₂.read.trans hb'), hm₂, hb', ho⟩
  by_cases hgt : s > 1
  · -- `l` is a node
    have hne : l ≠ nil := by rintro rfl; simp only [height_nil] at hs; omega
    obtain ⟨x, b, hb, sb, y, rfl⟩ := exists_build .left hne
    refine finish .left (rebal_of_gt hgt) ⟨x, b, hb, sb, y, r, rfl, hl⟩ fun m' b' h₁ h₂ => ?_
    rw [ItemTree.rebal, if_pos (by rwa [hslope]), hcell]
    simp only [shiftr, h₁, h₂, Option.bind_eq_bind, Option.bind_some]
  by_cases hlt : s < -1
  · have hne : r ≠ nil := by rintro rfl; simp only [height_nil] at hs; omega
    obtain ⟨x, b, hb, sb, y, rfl⟩ := exists_build .right hne
    refine finish .right (rebal_of_lt hlt) ⟨x, b, hb, sb, y, l, rfl, hr⟩ fun m' b' h₁ h₂ => ?_
    rw [ItemTree.rebal, if_neg (by rwa [hslope]), if_pos (by rwa [hslope]), hcell]
    simp only [shiftl, h₁, h₂, Option.bind_eq_bind, Option.bind_some]
  · have hreb : AvlTree.rebal (node l a h s r) = node l a h s r :=
      rebal_of_mem (by rw [slope_node]; omega) (by rw [slope_node]; omega)
    refine ⟨m, a, ?_, by rw [hreb]; exact hm, by rw [hreb]; rfl, OnlyLinks.refl m⟩
    rw [ItemTree.rebal, if_neg (by rwa [hslope]), if_neg (by rwa [hslope])]

/-- One turn of the loops: recompute the parent of the hole and rebalance it. -/
theorem Represents.step {m : ItemTree T V} {f : Frame ℕ} {c : List (Frame ℕ)} {t : AvlTree ℕ}
    (hm : Represents m (f :: c) t) (ht : t.Balanced) (ho : f.other.Balanced) :
    ∃ m' b, (m.updateHeightAndSlope f.item).rebal f.item = some (m', b)
      ∧ Represents m' c (AvlTree.rebal (AvlTree.update (f.fill t)))
      ∧ (AvlTree.rebal (AvlTree.update (f.fill t))).top = some b ∧ OnlyLinks m m' := by
  have h₁ : Represents _ c (AvlTree.update (f.fill t)) := (represents_fill.mpr hm).update_build
  rcases f with ⟨_ | _, a, h, s, o⟩
  · obtain ⟨m', b, h₂, h₃, h₄, h₅⟩ := h₁.rebal ht ho rfl
    exact ⟨m', b, h₂, h₃, h₄, (onlyLinks_update m a).trans h₅⟩
  · obtain ⟨m', b, h₂, h₃, h₄, h₅⟩ := h₁.rebal ho ht rfl
    exact ⟨m', b, h₂, h₃, h₄, (onlyLinks_update m a).trans h₅⟩

/-- Going all the way up. -/
lemma represents_append {m : ItemTree T V} {c₁ c₂ : List (Frame ℕ)} {t : AvlTree ℕ} :
    Represents m (c₁ ++ c₂) t ↔ Represents m c₂ (plug c₁ t) := by
  induction c₁ generalizing t with
  | nil => rfl
  | cons f c ih => rw [List.cons_append, ← represents_fill, ih, plug_cons]

lemma represents_plug {m : ItemTree T V} {c : List (Frame ℕ)} {t : AvlTree ℕ} :
    Represents m c t ↔ Represents m [] (plug c t) := by
  rw [← represents_append, List.append_nil]

/-- **The upward loop is `retrace`.**  Fuel for one turn per item on the path is enough. -/
theorem Represents.retrace {m : ItemTree T V} {c : List (Frame ℕ)} {t : AvlTree ℕ} {n fuel : ℕ}
    (hm : Represents m c t) (hc : BalancedAt c n) (ht : t.Balanced) (h1 : t.height ≤ n + 1)
    (h2 : n ≤ t.height + 1) (hfuel : c.length ≤ fuel) :
    ∃ m', rebalParentUpwards fuel m (pathParent c) = some m'
      ∧ Represents m' [] (retrace c t) ∧ OnlyLinks m m' := by
  induction c generalizing m t n fuel with
  | nil => exact ⟨m, by cases fuel <;> rfl, hm, OnlyLinks.refl m⟩
  | cons f c ih =>
    obtain ⟨fuel, rfl⟩ : ∃ k, fuel = k + 1 := ⟨fuel - 1, by simp at hfuel; omega⟩
    obtain ⟨ho, hn1, hn2, hh, -, hc'⟩ := hc
    obtain ⟨m₁, b, hrun, hm₁, hb, ho₁⟩ := hm.step ht ho
    obtain ⟨hbal, hlo, hhi, hex⟩ := rebal_update_fill f ht ho (by omega) (by omega)
    obtain ⟨hpar, hht, -⟩ := hm₁.top_fields hb
    have hold : (m.mem f.item).height = f.height := hm.path.2.2.2.1
    simp only [pathParent_cons, rebalParentUpwards, hrun, Option.bind_eq_bind, Option.bind_some,
      hold, hht, hpar, BalancedTree.retrace]
    split_ifs with heq
    · exact ⟨m₁, rfl, represents_plug.mp hm₁, ho₁⟩
    · obtain ⟨m₂, hrun₂, hm₂, ho₂⟩ := ih hm₁ hc' hbal (by omega) (by omega)
        (Nat.le_of_succ_le_succ hfuel)
      exact ⟨m₂, hrun₂, hm₂, ho₁.trans ho₂⟩

/-- The parent of the hole is not the parent of a place further up. -/
lemma pathParent_ne {cs c : List (Frame ℕ)} {xf : Frame ℕ} (hnd : (labels (cs ++ xf :: c)).Nodup) :
    pathParent (cs ++ xf :: c) ≠ pathParent c := by
  intro h
  have hmem : ∀ g L, cs ++ xf :: c = g :: L → g.item ∈ labels L → False := fun g L e hg => by
    rw [e, labels, List.nodup_cons] at hnd
    exact hnd.1 (by simp [hg])
  cases cs with
  | nil => exact hmem xf c rfl (pathParent_mem h.symm)
  | cons g cs =>
    refine hmem g (cs ++ xf :: c) rfl ?_
    rw [labels_append]
    simp [labels, pathParent_mem h.symm]

/-- **The inner loop of `remove`.**  It starts somewhere below the item `xf` in `cell` and ends
right above it: the path `cs` in between is retraced, and `xf` is recomputed and rebalanced
whether or not a height came out unchanged on the way. -/
theorem Represents.rebalParent {m : ItemTree T V} {cs c : List (Frame ℕ)} {xf : Frame ℕ}
    {t : AvlTree ℕ} {n fuel p : ℕ} (hm : Represents m (cs ++ xf :: c) t) (hcs : BalancedAt cs n)
    (ht : t.Balanced) (h1 : t.height ≤ n + 1) (h2 : n ≤ t.height + 1) (hxo : xf.other.Balanced)
    (h3 : topHeight cs n ≤ xf.other.height + 1) (h4 : xf.other.height ≤ topHeight cs n + 1)
    (hp : pathParent (cs ++ xf :: c) = some p) (hfuel : cs.length < fuel) :
    ∃ m', rebalParent (pathParent c) (pathCell c) fuel m p = some (m', pathParent c)
      ∧ Represents m' c (AvlTree.rebal (AvlTree.update (xf.fill (BalancedTree.retrace cs t))))
      ∧ OnlyLinks m m' := by
  induction cs generalizing m t n fuel p with
  | nil =>
    obtain ⟨fuel, rfl⟩ : ∃ k, fuel = k + 1 := ⟨fuel - 1, by simp at hfuel; omega⟩
    obtain rfl : xf.item = p := by simpa using hp
    obtain ⟨m₁, b, hrun, hm₁, hb, ho₁⟩ := Represents.step hm ht hxo
    simp only [topHeight] at h3 h4
    obtain ⟨hbal, -⟩ := rebal_update_fill xf ht hxo (by omega) (by omega)
    obtain ⟨hpar, hht, -⟩ := hm₁.top_fields hb
    have hold : (m.mem xf.item).height = xf.height := hm.path.2.2.2.1
    simp only [ItemTree.rebalParent, hrun, Option.bind_eq_bind, Option.bind_some, hold, hht, hpar,
      BalancedTree.retrace, hm₁.read, hb, if_true]
    split_ifs with heq
    · -- the item in `cell` is recomputed a second time, which changes nothing
      generalize AvlTree.rebal (AvlTree.update (xf.fill t)) = q at hm₁ hbal hb
      cases q with
      | nil => simp at hb
      | node l a h s r =>
        obtain rfl : a = b := by simpa using hb
        obtain ⟨m₂, b₂, hrun₂, hm₂, hb₂, ho₂⟩ := hm₁.update.rebal hbal.2.2.2.2.1 hbal.2.2.2.2.2 rfl
        rw [← update_node l r a h s, hbal.update_eq, hbal.rebal_eq] at hm₂ hb₂
        obtain ⟨hpar₂, -⟩ := hm₂.top_fields hb₂
        exact ⟨m₂, by rw [hrun₂, Option.bind_some, hpar₂], hm₂,
          ho₁.trans ((onlyLinks_update _ _).trans ho₂)⟩
    · exact ⟨m₁, rfl, hm₁, ho₁⟩
  | cons f cs ih =>
    obtain ⟨fuel, rfl⟩ : ∃ k, fuel = k + 1 := ⟨fuel - 1, by simp at hfuel; omega⟩
    obtain rfl : f.item = p := by simpa using hp
    obtain ⟨ho, hn1, hn2, hh, -, hcs'⟩ := hcs
    rw [List.cons_append] at hm
    obtain ⟨m₁, b, hrun, hm₁, hb, ho₁⟩ := hm.step ht ho
    obtain ⟨hbal, hlo, hhi, hex⟩ := rebal_update_fill f ht ho (by omega) (by omega)
    obtain ⟨hpar, hht, -⟩ := hm₁.top_fields hb
    have hold : (m.mem f.item).height = f.height := hm.path.2.2.2.1
    simp only [ItemTree.rebalParent, hrun, Option.bind_eq_bind, Option.bind_some, hold, hht, hpar,
      BalancedTree.retrace]
    split_ifs with heq heq'
    · -- unchanged: go straight to the item in `cell`
      have hup : Represents m₁ c (xf.fill (plug cs (AvlTree.rebal (AvlTree.update (f.fill t))))) :=
        represents_fill.mpr (represents_append.mp hm₁)
      have hbal' : (plug cs (AvlTree.rebal (AvlTree.update (f.fill t)))).Balanced :=
        balanced_plug.mpr ⟨hbal, heq ▸ hcs'⟩
      obtain ⟨m₂, b₂, hrun₂, hm₂, hb₂, ho₂⟩ := (represents_fill.mp hup).step hbal' hxo
      obtain ⟨hpar₂, -⟩ := hm₂.top_fields hb₂
      rw [hup.read, top_fill, Option.bind_some, hrun₂, Option.bind_some, hpar₂]
      exact ⟨m₂, rfl, hm₂, ho₁.trans ho₂⟩
    · -- the path between cannot be at its end: its items are not on the outer path
      exact absurd heq' (pathParent_ne (List.nodup_append.mp hm₁.nodup).2.1)
    · obtain ⟨q, hq⟩ : ∃ q, pathParent (cs ++ xf :: c) = some q := by
        cases cs <;> simp
      rw [hq, Option.bind_some]
      obtain ⟨m₂, hrun₂, hm₂, ho₂⟩ := ih hm₁ hcs' hbal (by omega) (by omega)
        (by simpa [topHeight] using h3) (by simpa [topHeight] using h4) hq
        (Nat.lt_of_succ_lt_succ hfuel)
      exact ⟨m₂, hrun₂, hm₂, ho₁.trans ho₂⟩

end ItemTree

end Nstd
