import Mathlib.Data.Int.Notation
import Mathlib.Data.List.Basic
import Mathlib.Data.List.Perm.Basic
import Mathlib.Order.Defs.LinearOrder
import Mathlib.Tactic.Common
import Mathlib.Tactic.SplitIfs

/-!
# Height-balanced trees with stored heights, and paths into them

Trees whose nodes store their own height and slope, the way an implementation with parent
pointers stores them.  Nothing here computes a height by recursion: `update` recomputes the two
fields of one node from the fields of its children, the rotations apply it to the two nodes they
move, and `retrace` walks a path upwards and stops at the first node whose stored height did not
change.

* `AvlTree`, `Frame`, `plug` — a tree, one step of a path, and the tree around a path.
* `Balanced` — every stored height and slope is exact, and every slope is in `[-1, 1]`.
* `rebal_update` — one node with balanced children whose heights differ by at most two.
* `retrace_balanced` — the upward loop restores balance whenever the subtree in the hole grew or
  shrank by at most one.  The early stop is part of the statement.
* `inorder_retrace` — and it moves no label.
-/

namespace BalancedTree

/-- The two children of a node. -/
inductive Side
  | left
  | right
  deriving DecidableEq, Repr

/-- The other child. -/
def Side.flip : Side → Side
  | .left => .right
  | .right => .left

@[simp] lemma Side.flip_left : Side.left.flip = .right := rfl
@[simp] lemma Side.flip_right : Side.right.flip = .left := rfl
@[simp] lemma Side.flip_flip (d : Side) : d.flip.flip = d := by cases d <;> rfl

/-- The slope of a `d`-child that leans away from side `d`. -/
def Side.inward : Side → ℤ
  | .left => -1
  | .right => 1

/-- A binary tree; each node carries a label and what it has stored as height and slope. -/
inductive AvlTree (α : Type)
  | nil
  | node (l : AvlTree α) (a : α) (h : ℕ) (s : ℤ) (r : AvlTree α)
  deriving DecidableEq, Repr

variable {α : Type}

namespace AvlTree

/-- The label at the top. -/
def top : AvlTree α → Option α
  | nil => none
  | node _ a _ _ _ => some a

/-- The height stored at the top. -/
def height : AvlTree α → ℕ
  | nil => 0
  | node _ _ h _ _ => h

/-- The slope stored at the top. -/
def slope : AvlTree α → ℤ
  | nil => 0
  | node _ _ _ s _ => s

/-- The height the tree really has. -/
def depth : AvlTree α → ℕ
  | nil => 0
  | node l _ _ _ r => max l.depth r.depth + 1

/-- The labels from left to right. -/
def inorder : AvlTree α → List α
  | nil => []
  | node l a _ _ r => l.inorder ++ a :: r.inorder

/-- A node given by its `d`-child first and its other child last. -/
def build (d : Side) (x : AvlTree α) (a : α) (h : ℕ) (s : ℤ) (y : AvlTree α) : AvlTree α :=
  match d with
  | .left => node x a h s y
  | .right => node y a h s x

/-- Recompute height and slope of the top node from what its children have stored. -/
def update : AvlTree α → AvlTree α
  | nil => nil
  | node l a _ _ r => node l a (max l.height r.height + 1) (l.height - r.height) r

/-- Bring the `d`-child to the top. -/
def rot : Side → AvlTree α → AvlTree α
  | .left, node (node x b hb sb y) a h s z => update (node x b hb sb (update (node y a h s z)))
  | .right, node z a h s (node y b hb sb x) => update (node (update (node z a h s y)) b hb sb x)
  | _, t => t

/-- Rotate a node that leans to its `d`-child; a child leaning the other way is rotated first. -/
def shift : Side → AvlTree α → AvlTree α
  | .left, node l a h s r =>
    rot .left (if l.slope = -1 then node (rot .right l) a h s r else node l a h s r)
  | .right, node l a h s r =>
    rot .right (if r.slope = 1 then node l a h s (rot .left r) else node l a h s r)
  | _, nil => nil

/-- Restore the balance of the top node. -/
def rebal (t : AvlTree α) : AvlTree α :=
  if t.slope > 1 then shift .left t
  else if t.slope < -1 then shift .right t
  else t

@[simp] lemma top_nil : (nil : AvlTree α).top = none := rfl
@[simp] lemma top_node (l r : AvlTree α) (a : α) (h : ℕ) (s : ℤ) : (node l a h s r).top = some a := rfl
@[simp] lemma height_nil : (nil : AvlTree α).height = 0 := rfl
@[simp] lemma height_node (l r : AvlTree α) (a : α) (h : ℕ) (s : ℤ) :
    (node l a h s r).height = h := rfl
@[simp] lemma slope_nil : (nil : AvlTree α).slope = 0 := rfl
@[simp] lemma slope_node (l r : AvlTree α) (a : α) (h : ℕ) (s : ℤ) : (node l a h s r).slope = s := rfl
@[simp] lemma inorder_nil : (nil : AvlTree α).inorder = [] := rfl
@[simp] lemma inorder_node (l r : AvlTree α) (a : α) (h : ℕ) (s : ℤ) :
    (node l a h s r).inorder = l.inorder ++ a :: r.inorder := rfl
@[simp] lemma update_nil : (nil : AvlTree α).update = nil := rfl
@[simp] lemma update_node (l r : AvlTree α) (a : α) (h : ℕ) (s : ℤ) :
    (node l a h s r).update
      = node l a (max l.height r.height + 1) (l.height - r.height) r := rfl

@[simp] lemma top_build (d : Side) (x y : AvlTree α) (a : α) (h : ℕ) (s : ℤ) :
    (build d x a h s y).top = some a := by cases d <;> rfl

@[simp] lemma height_build (d : Side) (x y : AvlTree α) (a : α) (h : ℕ) (s : ℤ) :
    (build d x a h s y).height = h := by cases d <;> rfl

@[simp] lemma build_ne_nil (d : Side) (x y : AvlTree α) (a : α) (h : ℕ) (s : ℤ) :
    build d x a h s y ≠ nil := by cases d <;> simp [build]

/-- Every node can be taken apart from either side. -/
lemma exists_build (d : Side) {t : AvlTree α} (ht : t ≠ nil) : ∃ x a h s y, t = build d x a h s y := by
  cases t with
  | nil => exact absurd rfl ht
  | node l a h s r =>
    cases d with
    | left => exact ⟨l, a, h, s, r, rfl⟩
    | right => exact ⟨r, a, h, s, l, rfl⟩

lemma build_flip (d : Side) (x y : AvlTree α) (a : α) (h : ℕ) (s : ℤ) :
    build d.flip x a h s y = build d y a h s x := by cases d <;> rfl

@[simp] lemma slope_build (d : Side) (x y : AvlTree α) (a : α) (h : ℕ) (s : ℤ) :
    (build d x a h s y).slope = s := by cases d <;> rfl

/-- `update` changes the two fields of the top node only. -/
lemma exists_update_build (d : Side) (x y : AvlTree α) (a : α) (h : ℕ) (s : ℤ) :
    ∃ h' s', update (build d x a h s y) = build d x a h' s' y := by
  cases d <;> exact ⟨_, _, rfl⟩

lemma rot_build (d : Side) (x y z : AvlTree α) (a b : α) (h hb : ℕ) (s sb : ℤ) :
    rot d (build d (build d x b hb sb y) a h s z)
      = update (build d x b hb sb (update (build d y a h s z))) := by cases d <;> rfl

lemma shift_build (d : Side) (x y : AvlTree α) (a : α) (h : ℕ) (s : ℤ) :
    shift d (build d x a h s y)
      = rot d (if x.slope = d.inward then build d (rot d.flip x) a h s y
          else build d x a h s y) := by cases d <;> rfl

lemma top_mem_inorder {t : AvlTree α} {a : α} (h : t.top = some a) : a ∈ t.inorder := by
  cases t with
  | nil => simp at h
  | node l b _ _ r => simp only [top_node, Option.some.injEq] at h; simp [h]

lemma inorder_eq_nil {t : AvlTree α} : t.inorder = [] ↔ t = nil := by cases t <;> simp

/-! ### Rotations move no label -/

@[simp] lemma inorder_update (t : AvlTree α) : t.update.inorder = t.inorder := by cases t <;> rfl

@[simp] lemma inorder_rot (d : Side) (t : AvlTree α) : (rot d t).inorder = t.inorder := by
  cases d with
  | left => rcases t with _ | ⟨_ | _, _, _, _, _⟩ <;> simp [rot]
  | right => rcases t with _ | ⟨_, _, _, _, _ | _⟩ <;> simp [rot]

@[simp] lemma inorder_shift (d : Side) (t : AvlTree α) : (shift d t).inorder = t.inorder := by
  cases t with
  | nil => cases d <;> rfl
  | node l a h s r => cases d <;> simp only [shift, inorder_rot] <;> split <;> simp

@[simp] lemma inorder_rebal (t : AvlTree α) : t.rebal.inorder = t.inorder := by
  unfold rebal; split_ifs <;> simp

/-! ### Balance -/

/-- Every stored height and slope is exact, and no node leans by more than one. -/
def Balanced : AvlTree α → Prop
  | nil => True
  | node l _ h s r =>
    h = max l.height r.height + 1 ∧ s = l.height - r.height ∧ -1 ≤ s ∧ s ≤ 1
      ∧ l.Balanced ∧ r.Balanced

@[simp] lemma balanced_nil : (nil : AvlTree α).Balanced := trivial

/-- A leaf is balanced. -/
lemma balanced_leaf (a : α) : (node nil a 1 0 nil).Balanced :=
  ⟨rfl, rfl, by decide, by decide, trivial, trivial⟩

lemma balanced_node {l r : AvlTree α} {a : α} {h : ℕ} {s : ℤ} :
    (node l a h s r).Balanced ↔
      h = max l.height r.height + 1 ∧ s = l.height - r.height ∧ -1 ≤ s ∧ s ≤ 1
        ∧ l.Balanced ∧ r.Balanced := Iff.rfl

/-- In a balanced tree the stored height is the real one. -/
theorem Balanced.height_eq : ∀ {t : AvlTree α}, t.Balanced → t.height = t.depth
  | nil, _ => rfl
  | node l a h s r, hb => by
    obtain ⟨hh, -, -, -, hl, hr⟩ := hb
    simp only [height_node, depth, hh, hl.height_eq, hr.height_eq]

/-- A balanced tree that is not empty, taken apart with its top fields filled in. -/
lemma Balanced.update_eq {t : AvlTree α} (hb : t.Balanced) : t.update = t := by
  cases t with
  | nil => rfl
  | node l a h s r => obtain ⟨rfl, rfl, -⟩ := hb; rfl

lemma Balanced.rebal_eq {t : AvlTree α} (hb : t.Balanced) : t.rebal = t := by
  cases t with
  | nil => rfl
  | node l a h s r =>
    obtain ⟨-, -, h1, h2, -⟩ := hb
    rw [rebal, if_neg (by simpa using h2), if_neg (by simpa using h1)]

lemma rebal_of_gt {t : AvlTree α} (h : 1 < t.slope) : t.rebal = shift .left t := if_pos h

lemma rebal_of_lt {t : AvlTree α} (h : t.slope < -1) : t.rebal = shift .right t := by
  rw [rebal, if_neg (by omega), if_pos h]

lemma rebal_of_mem {t : AvlTree α} (h1 : -1 ≤ t.slope) (h2 : t.slope ≤ 1) : t.rebal = t := by
  rw [rebal, if_neg (by omega), if_neg (by omega)]

/-! The four shapes of `shift`: one rotation or two, to either side. -/

lemma shift_left_single {x y z : AvlTree α} {a b : α} {h hb : ℕ} {s sb : ℤ} (hs : sb ≠ -1) :
    shift .left (node (node x b hb sb y) a h s z)
      = update (node x b hb sb (update (node y a h s z))) := by
  rw [shift, if_neg (show ¬ (node x b hb sb y).slope = -1 from hs)]; rfl

lemma shift_left_double {x y₁ y₂ z : AvlTree α} {a b c : α} {h hb hc : ℕ} {s sc : ℤ} :
    shift .left (node (node x b hb (-1) (node y₁ c hc sc y₂)) a h s z)
      = update (node (update (node x b hb (-1) y₁)) c (max (max x.height y₁.height + 1) y₂.height + 1)
          ((max x.height y₁.height + 1 : ℕ) - y₂.height) (update (node y₂ a h s z))) := by
  rw [shift, if_pos (show (node x b hb (-1) (node y₁ c hc sc y₂)).slope = -1 from rfl)]; rfl

lemma shift_right_single {x y z : AvlTree α} {a b : α} {h hb : ℕ} {s sb : ℤ} (hs : sb ≠ 1) :
    shift .right (node z a h s (node y b hb sb x))
      = update (node (update (node z a h s y)) b hb sb x) := by
  rw [shift, if_neg (show ¬ (node y b hb sb x).slope = 1 from hs)]; rfl

lemma shift_right_double {x y₁ y₂ z : AvlTree α} {a b c : α} {h hb hc : ℕ} {s sc : ℤ} :
    shift .right (node z a h s (node (node y₁ c hc sc y₂) b hb 1 x))
      = update (node (update (node z a h s y₁)) c (max y₁.height (max y₂.height x.height + 1) + 1)
          (y₁.height - (max y₂.height x.height + 1 : ℕ)) (update (node y₂ b hb 1 x))) := by
  rw [shift, if_pos (show (node (node y₁ c hc sc y₂) b hb 1 x).slope = 1 from rfl)]; rfl

/-- **One node.**  Children that are balanced and differ by at most two in height come out as one
balanced tree: never lower than the higher of them, at most one higher, and exactly one higher
when they differ by at most one. -/
theorem rebal_update_node {l r : AvlTree α} (a : α) (h : ℕ) (s : ℤ) (hl : l.Balanced)
    (hr : r.Balanced) (h1 : l.height ≤ r.height + 2) (h2 : r.height ≤ l.height + 2) :
    (rebal (update (node l a h s r))).Balanced
      ∧ max l.height r.height ≤ (rebal (update (node l a h s r))).height
      ∧ (rebal (update (node l a h s r))).height ≤ max l.height r.height + 1
      ∧ (l.height ≤ r.height + 1 → r.height ≤ l.height + 1 →
          (rebal (update (node l a h s r))).height = max l.height r.height + 1) := by
  by_cases hgt : r.height + 1 < l.height
  · -- left-heavy: `l` is a node, two higher than `r`
    rw [rebal_of_gt (by simp only [update_node, slope_node]; omega), update_node]
    cases l with
    | nil => simp only [height_nil] at hgt; omega
    | node x b hb sb y =>
      obtain ⟨hhb, hsb, hs1, hs2, hx, hy⟩ := hl
      simp only [height_node] at *
      by_cases hsb1 : sb = -1
      · cases y with
        | nil => simp only [height_nil] at *; omega
        | node y₁ c hc sc y₂ =>
          obtain ⟨hhc, hsc, hc1, hc2, hy₁, hy₂⟩ := hy
          simp only [height_node] at *
          subst hsb1
          simp only [shift_left_double, update_node, height_node, balanced_node, hx, hy₁, hy₂,
            hr, and_true, true_and]
          omega
      · simp only [shift_left_single hsb1, update_node, height_node, balanced_node, hx, hy, hr,
          and_true, true_and]
        omega
  by_cases hlt : l.height + 1 < r.height
  · -- right-heavy: the mirror image
    rw [rebal_of_lt (by simp only [update_node, slope_node]; omega), update_node]
    cases r with
    | nil => simp only [height_nil] at hlt; omega
    | node x b hb sb y =>
      obtain ⟨hhb, hsb, hs1, hs2, hx, hy⟩ := hr
      simp only [height_node] at *
      by_cases hsb1 : sb = 1
      · cases x with
        | nil => simp only [height_nil] at *; omega
        | node x₁ c hc sc x₂ =>
          obtain ⟨hhc, hsc, hc1, hc2, hx₁, hx₂⟩ := hx
          simp only [height_node] at *
          subst hsb1
          simp only [shift_right_double, update_node, height_node, balanced_node, hx₁, hx₂, hy,
            hl, and_true, true_and]
          omega
      · simp only [shift_right_single hsb1, update_node, height_node, balanced_node, hx, hy, hl,
          and_true, true_and]
        omega
  · -- already balanced
    rw [rebal_of_mem (by simp only [update_node, slope_node]; omega)
      (by simp only [update_node, slope_node]; omega)]
    simp only [update_node, height_node, balanced_node, hl, hr, implies_true, and_true, true_and]
    omega

/-! ### What a tree is, node by node -/

/-- Every stored height is the height of the subtree, every stored slope the difference of the
heights of the two children, and no slope is beyond one. -/
def Exact : AvlTree α → Prop
  | nil => True
  | t@(node l _ h s r) =>
    h = t.depth ∧ s = (l.depth : ℤ) - r.depth ∧ -1 ≤ s ∧ s ≤ 1 ∧ l.Exact ∧ r.Exact

theorem Balanced.exact : ∀ {t : AvlTree α}, t.Balanced → t.Exact
  | nil, _ => trivial
  | node l a h s r, hb => by
    have hd := hb.height_eq
    obtain ⟨-, hs, hs1, hs2, hl, hr⟩ := hb
    rw [hl.height_eq, hr.height_eq] at hs
    exact ⟨hd, hs, hs1, hs2, hl.exact, hr.exact⟩

/-- The tree is a search tree for the strict order `lt`. -/
def Ordered (lt : α → α → Prop) : AvlTree α → Prop
  | nil => True
  | node l a _ _ r =>
    (∀ b ∈ l.inorder, lt b a) ∧ (∀ b ∈ r.inorder, lt a b) ∧ l.Ordered lt ∧ r.Ordered lt

theorem ordered_of_pairwise {lt : α → α → Prop} : ∀ {t : AvlTree α}, t.inorder.Pairwise lt → t.Ordered lt
  | nil, _ => trivial
  | node l a h s r, hp => by
    rw [inorder_node, List.pairwise_append, List.pairwise_cons] at hp
    obtain ⟨hl, ⟨har, hr⟩, hlr⟩ := hp
    exact ⟨fun b hb => hlr b hb a (by simp), har, ordered_of_pairwise hl, ordered_of_pairwise hr⟩

end AvlTree

/-! ## Paths

A path is the list of nodes from the hole up to the root, the parent of the hole first.
-/

/-- One node of a path: on which side of it the path goes on, and everything else it holds. -/
structure Frame (α : Type) where
  side : Side
  item : α
  height : ℕ
  slope : ℤ
  other : AvlTree α

open AvlTree

/-- Put a subtree where the path goes on. -/
def Frame.fill (f : Frame α) (t : AvlTree α) : AvlTree α := build f.side t f.item f.height f.slope f.other

/-- The whole tree around the subtree `t`. -/
def plug : List (Frame α) → AvlTree α → AvlTree α
  | [], t => t
  | f :: c, t => plug c (f.fill t)

/-- The labels left of the hole. -/
def before : List (Frame α) → List α
  | [] => []
  | f :: c => before c ++ match f.side with
      | .left => []
      | .right => f.other.inorder ++ [f.item]

/-- The labels right of the hole. -/
def after : List (Frame α) → List α
  | [] => []
  | f :: c => (match f.side with
      | .left => f.item :: f.other.inorder
      | .right => []) ++ after c

/-- Walk up from a changed subtree: recompute and rebalance each node on the path, and stop at the
first one whose stored height comes out as it was. -/
def retrace : List (Frame α) → AvlTree α → AvlTree α
  | [], t => t
  | f :: c, t =>
    let p := rebal (update (f.fill t))
    if f.height = p.height then plug c p else retrace c p

@[simp] lemma plug_nil (t : AvlTree α) : plug [] t = t := rfl
@[simp] lemma plug_cons (f : Frame α) (c : List (Frame α)) (t : AvlTree α) :
    plug (f :: c) t = plug c (f.fill t) := rfl
@[simp] lemma before_nil : before ([] : List (Frame α)) = [] := rfl
@[simp] lemma after_nil : after ([] : List (Frame α)) = [] := rfl
@[simp] lemma retrace_nil (t : AvlTree α) : retrace [] t = t := rfl

lemma plug_append (c₁ c₂ : List (Frame α)) (t : AvlTree α) :
    plug (c₁ ++ c₂) t = plug c₂ (plug c₁ t) := by
  induction c₁ generalizing t with
  | nil => rfl
  | cons f c ih => exact ih (f.fill t)

@[simp] lemma height_fill (f : Frame α) (t : AvlTree α) : (f.fill t).height = f.height :=
  height_build _ _ _ _ _ _

@[simp] lemma top_fill (f : Frame α) (t : AvlTree α) : (f.fill t).top = some f.item :=
  top_build _ _ _ _ _ _

lemma inorder_fill (f : Frame α) (t : AvlTree α) :
    (f.fill t).inorder = before [f] ++ t.inorder ++ after [f] := by
  cases f with
  | mk d a h s o => cases d <;> simp [Frame.fill, build, before, after]

/-- The hole splits the labels in three. -/
theorem inorder_plug (c : List (Frame α)) (t : AvlTree α) :
    (plug c t).inorder = before c ++ t.inorder ++ after c := by
  induction c generalizing t with
  | nil => simp
  | cons f c ih => rw [plug_cons, ih, inorder_fill]; simp [before, after]

/-- The labels on a path, in no particular order. -/
def labels : List (Frame α) → List α
  | [] => []
  | f :: c => f.item :: (f.other.inorder ++ labels c)

/-- A path is no longer than the number of labels on it. -/
lemma length_le_labels (c : List (Frame α)) : c.length ≤ (labels c).length := by
  induction c with
  | nil => simp
  | cons f c ih => simp only [labels, List.length_cons, List.length_append]; omega

lemma labels_append (c₁ c₂ : List (Frame α)) : labels (c₁ ++ c₂) = labels c₁ ++ labels c₂ := by
  induction c₁ with
  | nil => rfl
  | cons f c ih => simp [labels, ih]

/-- The labels of the whole tree are those in the hole and those on the path. -/
theorem inorder_plug_perm (c : List (Frame α)) (t : AvlTree α) :
    (plug c t).inorder.Perm (t.inorder ++ labels c) := by
  induction c generalizing t with
  | nil => simp [labels]
  | cons f c ih =>
    refine (ih (f.fill t)).trans ?_
    cases f with
    | mk d a h s o =>
      cases d with
      | left => simp [Frame.fill, build, labels]
      | right =>
        simp only [Frame.fill, build, inorder_node, labels]
        rw [List.append_assoc, List.cons_append]
        refine List.perm_append_comm.trans ?_
        simp only [List.cons_append, List.append_assoc]
        refine List.Perm.trans ?_ List.perm_middle.symm
        refine List.Perm.cons _ (List.Perm.append_left _ ?_)
        exact List.perm_append_comm

/-- The upward loop moves no label. -/
theorem inorder_retrace (c : List (Frame α)) (t : AvlTree α) :
    (retrace c t).inorder = before c ++ t.inorder ++ after c := by
  induction c generalizing t with
  | nil => simp
  | cons f c ih =>
    rw [retrace]
    split_ifs
    · rw [inorder_plug, inorder_rebal, inorder_update, inorder_fill]; simp [before, after]
    · rw [ih, inorder_rebal, inorder_update, inorder_fill]; simp [before, after]

/-! ### Balance along a path -/

/-- The path would be balanced around a balanced subtree of height `n`. -/
def BalancedAt : List (Frame α) → ℕ → Prop
  | [], _ => True
  | f :: c, n =>
    f.other.Balanced ∧ n ≤ f.other.height + 1 ∧ f.other.height ≤ n + 1
      ∧ f.height = max n f.other.height + 1
      ∧ f.slope = (match f.side with
          | .left => (n : ℤ) - f.other.height
          | .right => (f.other.height : ℤ) - n)
      ∧ BalancedAt c f.height

lemma balanced_fill {f : Frame α} {t : AvlTree α} :
    (f.fill t).Balanced ↔ t.Balanced ∧ BalancedAt [f] t.height := by
  cases f with
  | mk d a h s o =>
    cases d <;> simp only [Frame.fill, build, balanced_node, BalancedAt, and_true] <;>
      constructor <;> rintro ⟨h₁, h₂, h₃, h₄, h₅, h₆⟩ <;> refine ⟨?_, ?_, ?_, ?_, ?_, ?_⟩ <;>
      first | assumption | omega

lemma balancedAt_cons {f : Frame α} {c : List (Frame α)} {n : ℕ} :
    BalancedAt (f :: c) n ↔ BalancedAt [f] n ∧ BalancedAt c f.height := by
  simp only [BalancedAt, and_true, and_assoc]

/-- A tree is balanced exactly when the subtree in the hole is and the path fits its height. -/
theorem balanced_plug {c : List (Frame α)} {t : AvlTree α} :
    (plug c t).Balanced ↔ t.Balanced ∧ BalancedAt c t.height := by
  induction c generalizing t with
  | nil => simp [BalancedAt]
  | cons f c ih =>
    rw [plug_cons, ih, balanced_fill, height_fill, and_assoc, ← balancedAt_cons]

/-- `rebal_update_node` for the node of a frame. -/
theorem rebal_update_fill (f : Frame α) {t : AvlTree α} (ht : t.Balanced) (ho : f.other.Balanced)
    (h1 : t.height ≤ f.other.height + 2) (h2 : f.other.height ≤ t.height + 2) :
    (rebal (update (f.fill t))).Balanced
      ∧ max t.height f.other.height ≤ (rebal (update (f.fill t))).height
      ∧ (rebal (update (f.fill t))).height ≤ max t.height f.other.height + 1
      ∧ (t.height ≤ f.other.height + 1 → f.other.height ≤ t.height + 1 →
          (rebal (update (f.fill t))).height = max t.height f.other.height + 1) := by
  cases f with
  | mk d a h s o =>
    cases d with
    | left => exact rebal_update_node a h s ht ho h1 h2
    | right =>
      obtain ⟨hb, hlo, hhi, heq⟩ := rebal_update_node a h s ho ht h2 h1
      simp only [Nat.max_comm t.height]
      exact ⟨hb, hlo, hhi, fun h3 h4 => heq h4 h3⟩

/-- The height at the upper end of a path whose hole has height `n`. -/
def topHeight : List (Frame α) → ℕ → ℕ
  | [], n => n
  | f :: c, _ => topHeight c f.height

lemma height_plug (c : List (Frame α)) (t : AvlTree α) : (plug c t).height = topHeight c t.height := by
  induction c generalizing t with
  | nil => rfl
  | cons f c ih => rw [plug_cons, ih, height_fill, topHeight]

/-- **The upward loop restores balance.**  If the path fits a subtree of height `n` and the new
subtree is at most one higher or lower, the result is balanced and its height moves by at most
one as well.  Stopping early is right because a node whose height is as before leaves the rest of
the path fitting. -/
theorem retrace_balanced {c : List (Frame α)} {n : ℕ} {t : AvlTree α} (hc : BalancedAt c n)
    (ht : t.Balanced) (h1 : t.height ≤ n + 1) (h2 : n ≤ t.height + 1) :
    (retrace c t).Balanced ∧ (retrace c t).height ≤ topHeight c n + 1
      ∧ topHeight c n ≤ (retrace c t).height + 1 := by
  induction c generalizing n t with
  | nil => exact ⟨ht, h1, h2⟩
  | cons f c ih =>
    obtain ⟨ho, hn1, hn2, hh, -, hc'⟩ := hc
    obtain ⟨hb, hlo, hhi, hex⟩ := rebal_update_fill f ht ho (by omega) (by omega)
    rw [retrace]
    split_ifs with heq
    · refine ⟨balanced_plug.mpr ⟨hb, ?_⟩, ?_, ?_⟩
      · rw [← heq]; exact hc'
      · rw [height_plug, ← heq, topHeight]; omega
      · rw [height_plug, ← heq, topHeight]; omega
    · have h3 : (rebal (update (f.fill t))).height ≤ f.height + 1 := by omega
      have h4 : f.height ≤ (rebal (update (f.fill t))).height + 1 := by omega
      exact ih hc' hb h3 h4

/-! ## The outermost label -/

/-- The outermost node on side `d` of a tree that is not empty: its path runs along `d` only, and
it has no `d`-child. -/
theorem exists_outermost (d : Side) :
    ∀ t : AvlTree α, t ≠ nil → ∃ (c : List (Frame α)) (a : α) (h : ℕ) (s : ℤ) (r : AvlTree α),
      (∀ f ∈ c, f.side = d) ∧ t = plug c (build d nil a h s r)
  | nil, hne => absurd rfl hne
  | node l a h s r, _ => by
    cases d with
    | left =>
      by_cases hl : l = nil
      · exact ⟨[], a, h, s, r, by simp, by simp [hl, build]⟩
      · obtain ⟨c, b, hb, sb, x, hc, rfl⟩ := exists_outermost .left l hl
        refine ⟨c ++ [⟨.left, a, h, s, r⟩], b, hb, sb, x, ?_, by rw [plug_append]; rfl⟩
        intro f hf
        rcases List.mem_append.mp hf with hf | hf
        · exact hc f hf
        · rw [List.mem_singleton.mp hf]
    | right =>
      by_cases hr : r = nil
      · exact ⟨[], a, h, s, l, by simp, by simp [hr, build]⟩
      · obtain ⟨c, b, hb, sb, x, hc, rfl⟩ := exists_outermost .right r hr
        refine ⟨c ++ [⟨.right, a, h, s, l⟩], b, hb, sb, x, ?_, by rw [plug_append]; rfl⟩
        intro f hf
        rcases List.mem_append.mp hf with hf | hf
        · exact hc f hf
        · rw [List.mem_singleton.mp hf]

lemma before_of_left {c : List (Frame α)} (hc : ∀ f ∈ c, f.side = .left) : before c = [] := by
  induction c with
  | nil => rfl
  | cons f c ih =>
    rw [before, hc f (by simp), ih fun g hg => hc g (by simp [hg])]; rfl

lemma after_of_right {c : List (Frame α)} (hc : ∀ f ∈ c, f.side = .right) : after c = [] := by
  induction c with
  | nil => rfl
  | cons f c ih =>
    rw [after, hc f (by simp), ih fun g hg => hc g (by simp [hg])]; rfl

/-- Every label of a tree is at the top of a subtree. -/
theorem exists_plug_of_mem {a : α} :
    ∀ {t : AvlTree α}, a ∈ t.inorder → ∃ (c : List (Frame α)) (l r : AvlTree α) (h : ℕ) (s : ℤ),
      t = plug c (node l a h s r)
  | node l b h s r, ha => by
    rw [inorder_node, List.mem_append, List.mem_cons] at ha
    rcases ha with ha | rfl | ha
    · obtain ⟨c, l', r', h', s', rfl⟩ := exists_plug_of_mem ha
      exact ⟨c ++ [⟨.left, b, h, s, r⟩], l', r', h', s', by rw [plug_append]; rfl⟩
    · exact ⟨[], l, r, h, s, rfl⟩
    · obtain ⟨c, l', r', h', s', rfl⟩ := exists_plug_of_mem ha
      exact ⟨c ++ [⟨.right, b, h, s, l⟩], l', r', h', s', by rw [plug_append]; rfl⟩

end BalancedTree
