import Nstd.Container.ItemTreeInvariant
import Mathlib.Order.Basic

/-!
# Removing an item, clearing, and searching

`remove` first takes the item out of the tree, in one of six ways, and then out of the chain.

* `Represents.hang` — a node with one child at most: the child takes its place.
* `Represents.putInCell` — the neighbour of a node with two children takes over its cell and the
  child on the other side.
* `Represents.replaceBy` — the two cases of that, up to the end of the inner loop.  The neighbour
  arrives with the height and slope it had where it came from; the frame of the path carries these
  stale values until the inner loop reaches it.
* `Valid.remove` — the whole of `remove`.
-/

namespace Nstd

open BalancedTree
open BalancedTree.AvlTree
open Linked

variable {T V : Type}

namespace ItemTree

/-! ## Taking an item out of the tree -/

lemma OnlyLinks.hang (m : ItemTree T V) (cell : Cell) (child parent : Ptr) :
    OnlyLinks m (m.hang cell child parent) := by
  cases child with
  | none => exact onlyLinks_write _ _ _
  | some b => exact (onlyLinks_write _ _ _).trans (onlyLinks_setParent _ _ _)

lemma links_hang {m : ItemTree T V} {c : List (Frame ℕ)} {p q : Ptr} {b : ℕ}
    (h₁ : pathParent c ≠ some b) (h₂ : p ≠ some b) :
    ((m.hang (pathCell c) p q).mem b).links = (m.mem b).links := by
  cases p with
  | none => exact links_write h₁
  | some a =>
    refine Eq.trans (congrArg Item.links (mem_setParent_ne ?_ _)) (links_write h₁)
    rintro rfl
    exact h₂ rfl

/-- A child takes the place of its parent, which has no other child. -/
theorem Represents.hang {m : ItemTree T V} {c : List (Frame ℕ)} {d : Side} {x : AvlTree ℕ} {a h : ℕ}
    {s : ℤ} (hm : Represents m c (build d x a h s nil)) :
    Represents (m.hang (pathCell c) x.top (pathParent c)) c x := by
  obtain ⟨hxa, -, hca, -, hxc, -, hnx, -, hnc⟩ := hm.ne
  obtain ⟨-, -, -, -, -, hx, -⟩ := rep_build.mp hm.sub
  have hpath : RepPath (m.write (pathCell c) x.top) c x.top := hm.path.write hnc x.top
  have hsub : Rep (m.write (pathCell c) x.top).mem x (some a) := hx.congr fun b hb =>
    links_write fun hp => hxc b hb (pathParent_mem hp)
  have hnd : (x.inorder ++ labels c).Nodup := List.nodup_append.mpr
    ⟨hnx, hnc, fun b hb b' hb' e => hxc b hb (e ▸ hb')⟩
  cases x with
  | nil => exact ⟨hpath, trivial, hnd⟩
  | node l b hb sb r =>
    have hw : ∀ w ∈ labels c, w ≠ b := by rintro w hw rfl; exact hxc w (by simp) hw
    exact ⟨hpath.congr rfl fun w hc => congrArg Item.links (mem_setParent_ne (hw w hc) _),
      hsub.setParent hnx _, hnd⟩

lemma OnlyLinks.putInCell (d : Side) (m : ItemTree T V) (x : ℕ) (cell : Cell) (parent : Ptr)
    (far : ℕ) : OnlyLinks m (putInCell d m x cell parent far) :=
  (((onlyLinks_write _ _ _).trans (onlyLinks_setParent _ _ _)).trans
    (onlyLinks_setChild _ _ _ _)).trans (onlyLinks_setParent _ _ _)

/-- The links of a fresh item `x` after it was put in the cell of the hole with `F` below it. -/
structure InCell (m m' : ItemTree T V) (d : Side) (c : List (Frame ℕ)) (x : ℕ) (F : AvlTree ℕ) :
    Prop where
  path : RepPath m' c (some x)
  parent : (m'.mem x).parent = pathParent c
  far : (m'.mem x).child d.flip = F.top
  near : (m'.mem x).child d = (m.mem x).child d
  height : (m'.mem x).height = (m.mem x).height
  slope : (m'.mem x).slope = (m.mem x).slope
  sub : Rep m'.mem F (some x)
  other : ∀ b, b ≠ x → b ∉ F.inorder → b ∉ labels c → (m'.mem b).links = (m.mem b).links

lemma inCell_putInCell {m : ItemTree T V} {c : List (Frame ℕ)} {d : Side} {x far : ℕ} {F : AvlTree ℕ}
    {p q : Ptr} (hp : RepPath m c p) (hF : Rep m.mem F q) (hfar : F.top = some far)
    (hxF : x ∉ F.inorder) (hxc : x ∉ labels c) (hFc : ∀ b ∈ F.inorder, b ∉ labels c)
    (hnF : F.inorder.Nodup) (hnc : (labels c).Nodup) :
    InCell m (putInCell d m x (pathCell c) (pathParent c) far) d c x F := by
  have hxfar : x ≠ far := by rintro rfl; exact hxF (top_mem_inorder hfar)
  set m₁ := m.write (pathCell c) (some x) with hm₁
  set m₂ := m₁.setParent x (pathParent c) with hm₂
  set m₃ := m₂.setChild x d.flip (some far) with hm₃
  have h₁ : ∀ b, b ∉ labels c → (m₁.mem b).links = (m.mem b).links := fun b hb =>
    links_write fun h => hb (pathParent_mem h)
  have h₃ : ∀ b, b ≠ x → m₃.mem b = m₁.mem b := fun b hb => by
    rw [hm₃, mem_setChild_ne hb, hm₂, mem_setParent_ne hb]
  have h₃x := fields_setChild m₂ x d.flip (some far)
  have h₂x : m₂.mem x = { m₁.mem x with parent := pathParent c } := mem_setParent_self _ _ _
  obtain ⟨-, -, -, e₄, e₅⟩ := Item.links_eq.mp (h₁ x hxc)
  have h₄ : ∀ b, b ≠ far → (m₃.setParent far (some x)).mem b = m₃.mem b := fun b hb =>
    mem_setParent_ne hb _
  have hpath : RepPath m₃ c (some x) := (hp.write hnc (some x)).congr
    (by rw [hm₃, root_setChild, hm₂, root_setParent]) fun b hb => by
      rw [h₃ b (by rintro rfl; exact hxc hb)]
  have hF₃ : Rep m₃.mem F q := hF.congr fun b hb => by
    rw [h₃ b (by rintro rfl; exact hxF hb), h₁ b (hFc b hb)]
  show InCell m (m₃.setParent far (some x)) d c x F
  refine ⟨hpath.congr rfl fun b hb => ?_, ?_, ?_, ?_, ?_, ?_, ?_, fun b hbx hbF hbc => ?_⟩
  · rw [h₄ b (by rintro rfl; exact hFc b (top_mem_inorder hfar) hb)]
  · rw [h₄ x hxfar, h₃x.1, h₂x]
  · rw [h₄ x hxfar, hm₃, child_setChild_self, hfar]
  · rw [h₄ x hxfar, hm₃, child_flip_setChild, h₂x]
    exact (show _ = (m₁.mem x).child d by cases d <;> rfl).trans (Item.child_eq (h₁ x hxc) d)
  · rw [h₄ x hxfar, h₃x.2.1, h₂x]; exact e₄
  · rw [h₄ x hxfar, h₃x.2.2, h₂x]; exact e₅
  · have := hF₃.setTopParent hnF x
    rwa [hfar] at this
  · rw [h₄ b (by rintro rfl; exact hbF (top_mem_inorder hfar)), h₃ b hbx, h₁ b hbc]

lemma inorder_build_perm (d : Side) (x y : AvlTree ℕ) (a h : ℕ) (s : ℤ) :
    (build d x a h s y).inorder.Perm (a :: (x.inorder ++ y.inorder)) := by
  cases d with
  | left => exact List.perm_middle
  | right => exact List.perm_middle.trans (List.perm_append_comm.cons a)

lemma nodup_build {d : Side} {x y : AvlTree ℕ} {a h : ℕ} {s : ℤ} {L : List ℕ} :
    ((build d x a h s y).inorder ++ L).Nodup ↔ (a :: (x.inorder ++ y.inorder ++ L)).Nodup :=
  ((inorder_build_perm d x y a h s).append_right L).nodup_iff

/-- What is on top of a path does not depend on what is in its hole. -/
lemma top_plug_cons (f : Frame ℕ) (c : List (Frame ℕ)) (t t' : AvlTree ℕ) :
    (plug (f :: c) t).top = (plug (f :: c) t').top := by
  induction c generalizing f t t' with
  | nil => rw [plug_cons, plug_cons, plug_nil, plug_nil, top_fill, top_fill]
  | cons g c ih => exact ih g (f.fill t) (f.fill t')

/-- **The neighbour takes the place of the item.**  Up to the inner loop: what is left of the
subtree the neighbour `x` comes from is in its frame, which has the height and slope `x` had. -/
theorem Represents.replaceBy_links {m : ItemTree T V} {cs c : List (Frame ℕ)} {d : Side}
    {xr F : AvlTree ℕ} {x hx a h near far : ℕ} {sx s : ℤ}
    (hm : Represents m c (build d (plug cs (build d xr x hx sx nil)) a h s F))
    (hsides : ∀ f ∈ cs, f.side = d.flip)
    (hnear : (plug cs (build d xr x hx sx nil)).top = some near) (hfar : F.top = some far) :
    ∃ m₁ p, m.replaceBy d a x (pathCell c) (pathParent c) near far
        = ItemTree.rebalParent (pathParent c) (pathCell c) m₁.size m₁ p
      ∧ pathParent (cs ++ ⟨d, x, hx, sx, F⟩ :: c) = some p
      ∧ Represents m₁ (cs ++ ⟨d, x, hx, sx, F⟩ :: c) xr ∧ OnlyLinks m m₁ := by
  obtain ⟨-, -, -, hRF, hRc, hFc, -, hnF, hnc⟩ := hm.ne
  have hmem : ∀ b, b = x ∨ b ∈ xr.inorder ++ labels cs →
      b ∈ (plug cs (build d xr x hx sx nil)).inorder := fun b hb => by
    rw [(inorder_plug_perm _ _).mem_iff, List.mem_append, (inorder_build_perm _ _ _ _ _ _).mem_iff]
    simpa [or_assoc] using hb
  have hxF := hRF x (hmem x (Or.inl rfl))
  have hxc := hRc x (hmem x (Or.inl rfl))
  -- the new top of the subtree, once its links are known
  have hnd : ((build d (plug cs xr) x hx sx F).inorder ++ labels c).Nodup := by
    have hnd := hm.nodup
    rw [nodup_build] at hnd ⊢
    have h₁ := (List.nodup_cons.mp hnd).2
    have h₂ : (plug cs (build d xr x hx sx nil)).inorder.Perm (x :: (plug cs xr).inorder) := by
      refine (inorder_plug_perm _ _).trans ?_
      refine List.Perm.trans ?_ ((inorder_plug_perm cs xr).symm.cons x)
      simpa using (inorder_build_perm d xr nil x hx sx).append_right (labels cs)
    exact ((h₂.append_right F.inorder).append_right (labels c)).nodup_iff.mp h₁
  cases cs with
  | nil =>
    obtain ⟨-, -, -, -, -, hR, hF⟩ := rep_build.mp hm.sub
    obtain ⟨hxp, hxd, -, hxh, hxs, hxr, -⟩ := rep_build.mp hR
    have hin := inCell_putInCell (d := d) hm.path hF hfar hxF hxc hFc hnF hnc
    refine ⟨_, x, by rw [ItemTree.replaceBy, if_pos hxp], rfl, ?_, OnlyLinks.putInCell ..⟩
    refine represents_fill.mp ⟨by rw [top_fill]; exact hin.path, rep_build.mpr ⟨hin.parent,
      hin.near.trans hxd, hin.far, hin.height.trans hxh, hin.slope.trans hxs, ?_, hin.sub⟩, hnd⟩
    have hnd' := List.nodup_cons.mp (nodup_build.mp hnd)
    refine hxr.congr fun b hb => hin.other b ?_ (hRF b (hmem b (Or.inr (by simp [hb]))))
      (hRc b (hmem b (Or.inr (by simp [hb]))))
    rintro rfl
    exact hnd'.1 (by simp [hb])
  | cons f cs =>
    have hf : f.side = d.flip := hsides f (by simp)
    -- unlink the neighbour from its parent
    have hup : Represents m ((f :: cs) ++ ⟨d, a, h, s, F⟩ :: c) (build d xr x hx sx nil) :=
      represents_append.mpr (represents_fill.mp hm)
    obtain ⟨hxp, hxd, -, hxh, hxs, -, -⟩ := rep_build.mp hup.sub
    have hne : f.item ≠ a := by
      rintro rfl
      have := (List.nodup_append.mp hup.nodup).2.1
      simp only [List.cons_append, labels, labels_append] at this
      exact (List.nodup_cons.mp this).1 (by simp)
    have h₁ := hup.hang
    have ho₁ := OnlyLinks.hang m (pathCell ((f :: cs) ++ ⟨d, a, h, s, F⟩ :: c)) xr.top
      (pathParent ((f :: cs) ++ ⟨d, a, h, s, F⟩ :: c))
    rw [represents_append, ← represents_fill] at h₁
    simp only [List.cons_append, pathCell_cons, pathParent_cons, hf] at h₁ ho₁ hxp
    set m₁ := m.hang (.child f.item d.flip) xr.top (some f.item) with hm₁
    obtain ⟨-, -, -, -, -, hN, hF⟩ := rep_build.mp h₁.sub
    obtain ⟨-, -, -, hNF, hNc, -, hnN, -, -⟩ := h₁.ne
    set N := plug (f :: cs) xr with hNdef
    have hx₁ : (m₁.mem x).links = (m.mem x).links := by
      have hxn := hup.ne
      rw [hm₁, ← hf]
      refine links_hang (c := f :: cs) (fun h => ?_) fun h => hxn.1 x (top_mem_inorder h) rfl
      exact hxn.2.2.1 x (by rw [labels_append]; exact List.mem_append_left _ (pathParent_mem h)) rfl
    obtain ⟨-, -, -, e₄, e₅⟩ := Item.links_eq.mp hx₁
    have hxN : x ∉ N.inorder := fun h => (List.nodup_cons.mp (nodup_build.mp hnd)).1 (by simp [h])
    -- put it in the cell
    have hin := inCell_putInCell (d := d) h₁.path hF hfar hxF hxc hFc hnF hnc
    set m₂ := putInCell d m₁ x (pathCell c) (pathParent c) far
    -- link the child on its own side
    have hNtop : N.top = some near := by rw [hNdef, top_plug_cons f cs _ _]; exact hnear
    have hxnear : x ≠ near := by rintro rfl; exact hxN (top_mem_inorder hNtop)
    set m₃ := m₂.setChild x d (some near)
    have h₃ : ∀ b, b ≠ x → b ≠ near → ((m₃.setParent near (some x)).mem b) = m₂.mem b :=
      fun b hb hb' => by rw [mem_setParent_ne hb', mem_setChild_ne hb]
    have h₃x := fields_setChild m₂ x d (some near)
    have hN₃ : Rep (m₃.setParent near (some x)).mem N (some x) := by
      have := Rep.setTopParent (m := m₃) (hN.congr fun b hb => ?_) hnN x
      · rwa [hNtop] at this
      · have hbx : b ≠ x := by rintro rfl; exact hxN hb
        rw [mem_setChild_ne hbx, hin.other b hbx (hNF b hb) (hNc b hb)]
    have hm₃ : Represents (m₃.setParent near (some x)) c (build d N x hx sx F) := by
      refine ⟨?_, rep_build.mpr ⟨?_, ?_, ?_, ?_, ?_, hN₃, ?_⟩, hnd⟩
      · rw [top_build]
        refine hin.path.congr (root_setChild _ _ _ _) fun b hb => congrArg _ (h₃ b ?_ ?_)
        · rintro rfl; exact hxc hb
        · rintro rfl; exact hNc b (top_mem_inorder hNtop) hb
      · rw [mem_setParent_ne hxnear, h₃x.1, hin.parent]
      · rw [mem_setParent_ne hxnear, child_setChild_self, hNtop]
      · rw [mem_setParent_ne hxnear, child_setChild_flip, hin.far]
      · rw [mem_setParent_ne hxnear, h₃x.2.1, hin.height, e₄, hxh]
      · rw [mem_setParent_ne hxnear, h₃x.2.2, hin.slope, e₅, hxs]
      · refine hin.sub.congr fun b hb => congrArg _ (h₃ b ?_ ?_)
        · rintro rfl; exact hxF hb
        · rintro rfl; exact hNF b (top_mem_inorder hNtop) hb
    refine ⟨m₃.setParent near (some x), f.item, ?_, rfl, represents_append.mpr
      (represents_fill.mp hm₃), ?_⟩
    · rw [ItemTree.replaceBy, hxp, if_neg (by simpa using hne), hxd]
      rfl
    · exact ((ho₁.trans (OnlyLinks.putInCell ..)).trans (onlyLinks_setChild ..)).trans
        (onlyLinks_setParent ..)

lemma inorder_rebal_update_fill (f : Frame ℕ) (t : AvlTree ℕ) :
    (AvlTree.rebal (AvlTree.update (f.fill t))).inorder = before [f] ++ t.inorder ++ after [f] := by
  rw [inorder_rebal, inorder_update, inorder_fill]

/-- **A node with two children.**  The higher child `R` gives up its outermost item; the subtree
that comes out is balanced and at most one higher or lower than the one that was there. -/
theorem Represents.replaceBy {m : ItemTree T V} {cs c : List (Frame ℕ)} {d : Side}
    {R xr F : AvlTree ℕ} {x hx a h near far : ℕ} {sx s : ℤ} (hm : Represents m c (build d R a h s F))
    (hRx : R = plug cs (build d xr x hx sx nil)) (hsides : ∀ f ∈ cs, f.side = d.flip)
    (hnear : R.top = some near) (hfar : F.top = some far) (hR : R.Balanced) (hF : F.Balanced)
    (h1 : F.height ≤ R.height) (h2 : R.height ≤ F.height + 1)
    (hsize : (build d R a h s F).inorder.length ≤ m.size) :
    ∃ m₁ u, m.replaceBy d a x (pathCell c) (pathParent c) near far = some (m₁, pathParent c)
      ∧ Represents m₁ c u ∧ u.Balanced ∧ u.height ≤ R.height + 2 ∧ R.height ≤ u.height
      ∧ u.inorder = before [⟨d, x, hx, sx, F⟩] ++ (before cs ++ xr.inorder ++ after cs)
          ++ after [⟨d, x, hx, sx, F⟩]
      ∧ OnlyLinks m m₁ := by
  subst hRx
  obtain ⟨m₁, p, hrun, hp, hm₁, ho₁⟩ := hm.replaceBy_links hsides hnear hfar
  obtain ⟨hx₁, hcs⟩ := balanced_plug.mp hR
  have hfill : (Frame.fill ⟨d, x, hx, sx, nil⟩ xr).Balanced := hx₁
  obtain ⟨hxr, -, h3, h4, h5, -⟩ := balanced_fill.mp hfill
  rw [height_build] at hcs
  rw [height_plug, height_build] at h1 h2 ⊢
  simp only [height_nil] at h3 h4 h5
  obtain ⟨hbal, hlo, hhi⟩ := retrace_balanced hcs hxr (by omega) (by omega)
  have hfuel : cs.length < m₁.size := by
    have h₁ := (inorder_build_perm d (plug cs (build d xr x hx sx nil)) F a h s).length_eq
    have h₂ := (inorder_plug_perm cs (build d xr x hx sx nil)).length_eq
    have h₃ := length_le_labels cs
    simp only [List.length_cons, List.length_append] at h₁ h₂
    rw [ho₁.size]
    omega
  obtain ⟨m₂, hrun₂, hm₂, ho₂⟩ := hm₁.rebalParent hcs hxr (by omega) (by omega) hF h2
    (Nat.le_succ_of_le h1) hp hfuel
  obtain ⟨hbal₂, hlo₂, hhi₂, hex₂⟩ := rebal_update_fill ⟨d, x, hx, sx, F⟩ hbal hF
    (show _ ≤ F.height + 2 by omega) (show F.height ≤ _ by omega)
  simp only at hlo₂ hhi₂ hex₂
  refine ⟨m₂, _, hrun.trans hrun₂, hm₂, hbal₂, by omega, by omega, ?_, ho₁.trans ho₂⟩
  rw [inorder_rebal_update_fill, inorder_retrace]

/-- The upward loop from the place of the removed item. -/
lemma Represents.upwards {m m₁ : ItemTree T V} {c : List (Frame ℕ)} {u : AvlTree ℕ} {n : ℕ}
    (hm : Represents m₁ c u) (ho : OnlyLinks m m₁) (hu : u.Balanced) (hc : BalancedAt c n)
    (h1 : u.height ≤ n + 1) (h2 : n ≤ u.height + 1) (hsize : c.length ≤ m.size) :
    ∃ m₂, rebalParentUpwards m₁.size m₁ (pathParent c) = some m₂
      ∧ Represents m₂ [] (BalancedTree.retrace c u) ∧ (BalancedTree.retrace c u).Balanced
      ∧ OnlyLinks m m₂ := by
  obtain ⟨m₂, hrun, hm₂, ho₂⟩ := hm.retrace hc hu h1 h2 (ho.size ▸ hsize : c.length ≤ m₁.size)
  exact ⟨m₂, hrun, hm₂, (retrace_balanced hc hu h1 h2).1, ho.trans ho₂⟩

/-- What `remove` has made of the tree when it goes on to the chain. -/
structure TakenOut (m m₂ : ItemTree T V) (c : List (Frame ℕ)) (l r t' : AvlTree ℕ) : Prop where
  links : Represents m₂ [] t'
  balanced : t'.Balanced
  inorder : t'.inorder = before c ++ (l.inorder ++ r.inorder) ++ after c
  only : OnlyLinks m m₂

/-- **Taking an item out of the tree**, in all six ways. -/
theorem Valid.takeOut {m : ItemTree T V} {c : List (Frame ℕ)} {l r : AvlTree ℕ} {a h : ℕ} {s : ℤ}
    {free : List ℕ} (hv : Valid m (plug c (node l a h s r)) free) :
    ∃ m₁ p m₂ t', m.takeOut a = some (m₁, p) ∧ rebalParentUpwards m₁.size m₁ p = some m₂
      ∧ TakenOut m m₂ c l r t' := by
  have hm : Represents m c (node l a h s r) := represents_plug.mpr hv.links
  obtain ⟨hbal, hc⟩ := balanced_plug.mp hv.balanced
  obtain ⟨hh, hs, hs1, hs2, hl, hr⟩ := hbal
  have hlen : m.size = (node l a h s r).inorder.length + (labels c).length := by
    rw [hv.size, (inorder_plug_perm c _).length_eq, List.length_append]
  have hlc := length_le_labels c
  have hsize : c.length ≤ m.size := by omega
  have hfields := hm.sub.1
  simp only [Item.links, Prod.mk.injEq] at hfields
  obtain ⟨hpar, hml, hmr, -, -⟩ := hfields
  have hcell := hm.cellOf (top_node l r a h s) hpar
  rw [height_node] at hc
  -- the part all six ways have in common
  have finish : ∀ (m₁ : ItemTree T V) (u : AvlTree ℕ), m.takeOut a = some (m₁, pathParent c) →
      Represents m₁ c u → u.Balanced → u.height ≤ h + 1 → h ≤ u.height + 1 → OnlyLinks m m₁ →
      u.inorder = l.inorder ++ r.inorder →
      ∃ m₁ p m₂ t', m.takeOut a = some (m₁, p) ∧ rebalParentUpwards m₁.size m₁ p = some m₂
        ∧ TakenOut m m₂ c l r t' := by
    intro m₁ u hrun hu hub h1 h2 ho hio
    obtain ⟨m₂, hrun₂, hm₂, hbal₂, ho₂⟩ := hu.upwards ho hub hc h1 h2 hsize
    exact ⟨m₁, _, m₂, _, hrun, hrun₂, hm₂, hbal₂, by rw [inorder_retrace, hio], ho₂⟩
  rw [ItemTree.takeOut, hpar, hcell, hml, hmr] at finish ⊢
  cases l with
  | nil =>
    have hh' : h = r.height + 1 := by simpa using hh
    have hang := Represents.hang (d := .right) hm
    cases r with
    | nil => exact finish _ nil rfl hang trivial (by omega) (by omega) (onlyLinks_write ..) rfl
    | node rl b hb sb rr =>
      exact finish _ _ rfl hang hr (by omega) (by omega)
        ((onlyLinks_write ..).trans (onlyLinks_setParent ..)) rfl
  | node ll b hb sb lr =>
    cases r with
    | nil =>
      have hh' : h = hb + 1 := by simpa using hh
      have hang := Represents.hang (d := .left) hm
      exact finish _ _ rfl hang hl (by rw [height_node]; omega) (by rw [height_node]; omega)
        ((onlyLinks_write ..).trans (onlyLinks_setParent ..)) (by simp)
    | node rl e he se rr =>
      have hhl : (m.mem b).height = hb := hm.sub.2.1.heightOf
      have hhr : (m.mem e).height = he := hm.sub.2.2.heightOf
      simp only [top_node, hhl, hhr] at finish ⊢
      rw [height_node, height_node] at hh hs
      by_cases hlt : hb < he
      · -- the next item takes the place
        obtain ⟨cs, x, hx, sx, xr, hsides, hR⟩ := exists_outermost .left (node rl e he se rr)
          (by simp)
        have hbef := before_of_left hsides
        have hnext : (m.mem a).next = some x := by
          refine hv.next_eq (before c ++ (node ll b hb sb lr).inorder)
            (xr.inorder ++ after cs ++ after c ++ [endItem]) ?_
          rw [inorder_plug, inorder_node, hR, inorder_plug, hbef]
          simp [build]
        obtain ⟨m₁, u, hrun, hu, hub, h1, h2, hio, ho⟩ := Represents.replaceBy (d := .right)
          hm hR hsides rfl rfl hr hl (Nat.le_of_lt hlt) (by simp only [height_node]; omega)
          (by rw [hlen]; exact Nat.le_add_right _ _)
        simp only [height_node] at h1 h2
        refine finish m₁ u ?_ hu hub (by omega) (by omega) ho ?_
        · rw [if_pos hlt, hnext]; exact hrun
        · rw [hio, hR, inorder_plug, hbef]
          simp [before, after, build]
      · -- the previous item takes the place
        obtain ⟨cs, x, hx, sx, xr, hsides, hL⟩ := exists_outermost .right (node ll b hb sb lr)
          (by simp)
        have haft := after_of_right hsides
        have hprev : (m.mem a).prev = some x := by
          refine (hv.prev_eq (before c ++ before cs ++ xr.inorder ++ [x])
            ((node rl e he se rr).inorder ++ after c ++ [endItem]) ?_).trans
            List.getLast?_concat
          rw [inorder_plug, inorder_node, hL, inorder_plug, haft]
          simp [build]
        obtain ⟨m₁, u, hrun, hu, hub, h1, h2, hio, ho⟩ := Represents.replaceBy (d := .left)
          hm hL hsides rfl rfl hl hr (Nat.le_of_not_lt hlt) (by simp only [height_node]; omega)
          (by rw [hlen]; exact Nat.le_add_right _ _)
        simp only [height_node] at h1 h2
        refine finish m₁ u ?_ hu hub (by omega) (by omega) ho ?_
        · rw [if_neg hlt, hprev]; exact hrun
        · rw [hio, hL, inorder_plug, haft]
          simp [before, after, build]

/-! ## Taking an item out of the chain -/

lemma onlyChain_unchain (m : ItemTree T V) (a y : ℕ) : OnlyChain m (m.unchain a y) := by
  unfold unchain
  cases (m.mem a).prev with
  | none => exact (onlyChain_setBegin _ _).trans (onlyChain_setPrev _ _ _)
  | some p => exact (onlyChain_setNext _ _ _).trans (onlyChain_setPrev _ _ _)

lemma nextOf_unchain (m : ItemTree T V) (a y : ℕ) (z : Ptr) :
    (m.unchain a y).nextOf z = if z = m.prevOf a then some y else m.nextOf z := by
  rw [unchain, prevOf]
  cases (m.mem a).prev <;> simp

lemma prevOf_unchain (m : ItemTree T V) (a y b : ℕ) :
    (m.unchain a y).prevOf b = if b = y then m.prevOf a else m.prevOf b := by
  rw [unchain, show m.prevOf a = (m.mem a).prev from rfl]
  cases (m.mem a).prev <;> simp

lemma nextOf_release (m : ItemTree T V) (a : ℕ) (z : Ptr) : (m.release a).nextOf z = m.nextOf z := by
  refine Eq.trans ?_ (nextOf_setPrev m a m.freeItem z)
  cases z <;> rfl

lemma prevOf_release (m : ItemTree T V) (a b : ℕ) :
    (m.release a).prevOf b = if b = a then m.freeItem else m.prevOf b :=
  prevOf_setPrev m a b m.freeItem

lemma represents_release {m : ItemTree T V} {c : List (Frame ℕ)} {t : AvlTree ℕ} (a : ℕ)
    (hm : Represents m c t) : Represents (m.release a) c t :=
  have h := (onlyChain_setPrev m a m.freeItem).represents hm
  ⟨h.path.congr rfl fun _ _ => rfl, h.sub, h.nodup⟩

/-- Every item still has its key and its value. -/
def SameData (m m' : ItemTree T V) : Prop :=
  ∀ b, (m'.mem b).key = (m.mem b).key ∧ (m'.mem b).value = (m.mem b).value

/-- **The end of `remove`.**  The tree `t'` is without the item already; so is the chain now, and
the item is on top of the free chain. -/
theorem Valid.unlinkItem {m m₂ : ItemTree T V} {t t' : AvlTree ℕ} {free l₁ l₂ : List ℕ} {a : ℕ}
    (hv : Valid m t free) (ht : t.inorder = l₁ ++ a :: l₂) (ho : OnlyLinks m m₂)
    (hm₂ : Represents m₂ [] t') (hbal : t'.Balanced) (ht' : t'.inorder = l₁ ++ l₂) :
    ∃ m', m₂.unlinkItem a = some (m', (l₂ ++ [endItem]).head?) ∧ Valid m' t' (a :: free)
      ∧ SameData m m' := by
  obtain ⟨y, l, hy⟩ : ∃ y l, l₂ ++ [endItem] = y :: l := by cases l₂ <;> simp
  have hnodes : t.inorder ++ [endItem] = l₁ ++ a :: y :: l := by rw [ht, ← hy]; simp
  have hnd := hv.chain_nodup
  have hch : Chain m₂.nextOf m₂.prevOf none (l₁ ++ a :: y :: l) := by
    rw [ho.nextOf, ho.prevOf, ← hnodes]; exact hv.chain
  have hnext : (m₂.mem a).next = some y := hch.next_eq
  rw [hnodes] at hnd
  have hay : a ≠ y := by
    rintro rfl
    have := (List.nodup_cons.mp hnd).2
    rw [List.map_append, List.nodup_append] at this
    exact (List.nodup_cons.mp this.2.1).1 (by simp)
  have hfree : ∀ b ∈ free, b ≠ y ∧ b ≠ a := fun b hb => by
    have hmem : ∀ w, w ∈ l₁ ++ a :: y :: l → b ≠ w := by
      rintro w hw rfl
      rw [← hnodes, List.mem_append, List.mem_singleton] at hw
      rcases hw with hw | hw
      · exact hv.not_mem_free hw hb
      · exact hv.ne_endItem (Or.inr hb) hw
    exact ⟨hmem y (by simp), hmem a (by simp)⟩
  set m₃ : ItemTree T V := { m₂.unchain a y with size := (m₂.unchain a y).size - 1 } with hm₃
  have ho₃ := onlyChain_unchain m₂ a y
  have hn₃ : ∀ z, m₃.nextOf z = if z = m₂.prevOf a then some y else m₂.nextOf z := fun z => by
    rw [← nextOf_unchain]; cases z <;> rfl
  have hp₃ : ∀ b, m₃.prevOf b = if b = y then m₂.prevOf a else m₂.prevOf b := fun b =>
    prevOf_unchain m₂ a y b
  have hpa : m₂.prevOf a = endOf none l₁ := hch.prev_eq
  refine ⟨m₃.release a, ?_, ⟨?_, hbal, ?_, ?_, ?_, ?_⟩, fun b => ?_⟩
  · have hres : ((m₃.release a).mem a).next = some y := by
      refine (nextOf_release m₃ a (some a)).trans ?_
      rw [hn₃, if_neg]
      · exact hnext
      · rw [hpa]
        intro h
        have hmem := endOf_mem none l₁
        rw [← h] at hmem
        have := (List.nodup_append.mp (ht ▸ hv.nodup)).2.2 a (by simpa using hmem) a (by simp)
        exact this rfl
    rw [ItemTree.unlinkItem, hnext, hy]
    simp only [Option.bind_eq_bind, Option.bind_some]
    rw [← hm₃, hres]
    rfl
  · refine represents_release a ?_
    have h := ho₃.represents hm₂
    exact ⟨h.path.congr rfl fun _ _ => rfl, h.sub, h.nodup⟩
  · rw [ht', List.append_assoc, hy]
    refine hch.remove hnd ?_ ?_ (fun z h₁ h₂ => ?_) fun b h₁ h₂ => ?_
    · rw [nextOf_release, hn₃, if_pos hpa.symm]
    · rw [prevOf_release, if_neg hay.symm, hp₃, if_pos rfl, hpa]
    · rw [nextOf_release, hn₃, if_neg (by rwa [hpa])]
    · rw [prevOf_release, if_neg h₁, hp₃, if_neg h₂]
  · show m₃.size = _
    rw [hm₃, ht']
    show (m₂.unchain a y).size - 1 = _
    rw [ho₃.size, ho.size, hv.size, ht]
    simp
  · refine ⟨rfl, ?_⟩
    have hfa : (m₃.release a).prevOf a = m.freeItem := by
      rw [prevOf_release, if_pos rfl, hm₃]
      show (m₂.unchain a y).freeItem = _
      rw [ho₃.freeItem, ho.freeItem]
    rw [hfa]
    refine hv.freeChain.congr fun b hb => ?_
    rw [prevOf_release, if_neg (hfree b hb).2, hp₃, if_neg (hfree b hb).1, ho.prevOf]
  · show (t'.inorder ++ a :: free).Perm (List.range' 1 (4 * (m₂.unchain a y).blocks))
    rw [ho₃.blocks, ho.blocks, ht']
    refine List.Perm.trans ?_ hv.slots
    rw [ht, List.append_assoc, List.append_assoc]
    refine List.Perm.append_left _ ?_
    rw [List.cons_append]
    exact List.perm_middle
  · have hk : ((m₃.release a).mem b).key = ((m₂.unchain a y).mem b).key
        ∧ ((m₃.release a).mem b).value = ((m₂.unchain a y).mem b).value :=
      ⟨(onlyChain_setPrev m₃ a m₃.freeItem).key b, (onlyChain_setPrev m₃ a m₃.freeItem).value b⟩
    rw [hk.1, hk.2, ho₃.key, ho₃.value, ho.key, ho.value]
    exact ⟨rfl, rfl⟩

/-- **Removing an item.**  It leaves the tree and the chain and goes on top of the free chain; the
result is the item after it; all other items stay where they are. -/
theorem Valid.remove {m : ItemTree T V} {t : AvlTree ℕ} {free l₁ l₂ : List ℕ} {a : ℕ}
    (hv : Valid m t free) (ht : t.inorder = l₁ ++ a :: l₂) :
    ∃ m' t', m.remove a = some (m', (l₂ ++ [endItem]).head?) ∧ Valid m' t' (a :: free)
      ∧ t'.inorder = l₁ ++ l₂ ∧ SameData m m' := by
  obtain ⟨c, l, r, h, s, rfl, hl₁, hl₂⟩ := hv.focus ht
  obtain ⟨m₁, p, m₂, t', hrun₁, hrun₂, hout⟩ := hv.takeOut
  have hio : t'.inorder = l₁ ++ l₂ := by rw [hout.inorder, hl₁, hl₂]; simp
  obtain ⟨m', hrun₃, hv', hdata⟩ := hv.unlinkItem ht hout.only hout.links hout.balanced hio
  refine ⟨m', t', ?_, hv', hio, hdata⟩
  rw [ItemTree.remove, hrun₁]
  simp only [Option.bind_eq_bind, Option.bind_some, hrun₂, hrun₃]

/-- `removeFront` on a tree that is not empty. -/
theorem Valid.removeFront {m : ItemTree T V} {t : AvlTree ℕ} {free l : List ℕ} {a : ℕ}
    (hv : Valid m t free) (ht : t.inorder = a :: l) :
    ∃ m' t', m.removeFront = some (m', (l ++ [endItem]).head?) ∧ Valid m' t' (a :: free)
      ∧ t'.inorder = l ∧ SameData m m' := by
  have hb : m.begin = some a := hv.begin_eq (by rw [ht]; rfl)
  rw [ItemTree.removeFront, hb]
  exact hv.remove (show t.inorder = [] ++ a :: l from ht)

/-- `removeBack` on a tree that is not empty. -/
theorem Valid.removeBack {m : ItemTree T V} {t : AvlTree ℕ} {free l : List ℕ} {a : ℕ}
    (hv : Valid m t free) (ht : t.inorder = l ++ [a]) :
    ∃ m' t', m.removeBack = some (m', some endItem) ∧ Valid m' t' (a :: free)
      ∧ t'.inorder = l ∧ SameData m m' := by
  have hb : (m.mem endItem).prev = some a := by
    rw [hv.prev_eq _ _ rfl, ht, List.getLast?_concat]
  obtain ⟨m', t', hrun, hv', hio, hdata⟩ := hv.remove ht
  rw [ItemTree.removeBack, hb]
  exact ⟨m', t', hrun, hv', by rw [hio, List.append_nil], hdata⟩

/-! ## Clearing -/

/-- The loop of `clear` puts the items it walks over on the free chain, the last one on top. -/
lemma freeItems_spec {pf : ℕ → Ptr} : ∀ (l : List ℕ) {fuel : ℕ} {m : ItemTree T V} {x : Ptr}
    {free : List ℕ}, Chain m.nextOf pf x (l ++ [endItem]) → Stack m.prevOf m.freeItem free →
    (l ++ free).Nodup → endItem ∉ l → l.length < fuel →
    ∃ m', freeItems fuel m (m.nextOf x) = some m' ∧ Stack m'.prevOf m'.freeItem (l.reverse ++ free)
      ∧ m'.blocks = m.blocks ∧ SameData m m' := by
  intro l
  induction l with
  | nil =>
    rintro (_ | fuel) m x free ⟨hx, -⟩ hst - - hf
    · exact absurd hf (Nat.not_lt_zero _)
    · rw [hx, freeItems, if_pos rfl]
      exact ⟨m, rfl, hst, rfl, fun _ => ⟨rfl, rfl⟩⟩
  | cons i l ih =>
    rintro (_ | fuel) m x free ⟨hx, -, hch⟩ hst hnd h0 hf
    · exact absurd hf (Nat.not_lt_zero _)
    · have hne : i ≠ endItem := by rintro rfl; exact h0 (by simp)
      have hnd' := List.nodup_cons.mp hnd
      rw [hx, freeItems, if_neg (by simpa using hne)]
      simp only [Option.bind_eq_bind, Option.bind_some]
      have hch' : Chain (m.release i).nextOf pf (some i) (l ++ [endItem]) := by
        rwa [show (m.release i).nextOf = m.nextOf from funext (nextOf_release m i)]
      have hst' : Stack (m.release i).prevOf (m.release i).freeItem (i :: free) := by
        refine ⟨rfl, ?_⟩
        rw [prevOf_release, if_pos rfl]
        refine hst.congr fun b hb => ?_
        rw [prevOf_release, if_neg]
        rintro rfl
        exact hnd'.1 (by simp [hb])
      have hperm : (l ++ i :: free).Nodup := List.nodup_middle.mpr hnd
      obtain ⟨m', hrun, hst'', hbl, hdata⟩ := ih hch' hst' hperm (fun h => h0 (by simp [h]))
        (Nat.lt_of_succ_lt_succ hf)
      refine ⟨m', hrun, by simpa using hst'', hbl, fun b => ?_⟩
      have ho := onlyChain_setPrev m i m.freeItem
      exact ⟨(hdata b).1.trans (ho.key b), (hdata b).2.trans (ho.value b)⟩

/-- **Clearing** leaves the empty tree and every slot on the free chain. -/
theorem Valid.clear {m : ItemTree T V} {t : AvlTree ℕ} {free : List ℕ} (hv : Valid m t free) :
    ∃ m' free', m.clear = some m' ∧ Valid m' nil free' := by
  obtain ⟨m₁, hrun, hst, hbl, -⟩ := freeItems_spec t.inorder hv.chain hv.freeChain hv.slots_nodup
    (fun h => hv.ne_endItem (Or.inl h) rfl) (hv.size ▸ Nat.lt_succ_self _ : t.inorder.length < m.size + 1)
  have hcode : m.clear = some { (m₁.setBegin (some endItem)).setPrev endItem none with
      size := 0, root := none } := by
    rw [ItemTree.clear, show m.begin = m.nextOf none from rfl, hrun]
    rfl
  refine ⟨_, t.inorder.reverse ++ free, hcode, ⟨⟨rfl, trivial, by simp [labels]⟩, trivial,
    ⟨rfl, ?_, trivial⟩, rfl, ?_, ?_⟩⟩
  · exact (prevOf_setPrev (m₁.setBegin (some endItem)) endItem endItem none).trans (if_pos rfl)
  · refine Stack.congr hst fun b hb => ?_
    refine (prevOf_setPrev (m₁.setBegin (some endItem)) endItem b none).trans (if_neg ?_)
    rcases List.mem_append.mp hb with hb | hb
    · exact hv.ne_endItem (Or.inl (List.mem_reverse.mp hb))
    · exact hv.ne_endItem (Or.inr hb)
  · rw [inorder_nil, List.nil_append]
    show List.Perm _ (List.range' 1 (4 * m₁.blocks))
    rw [hbl]
    exact ((List.reverse_perm t.inorder).append_right free).trans hv.slots

/-! ## Searching -/

/-- The children of an item are the tops of the trees below it. -/
lemma children_node {m : ItemTree T V} {tl tr : AvlTree ℕ} {a h : ℕ} {s : ℤ} {p : Ptr}
    (hrep : Rep m.mem (.node tl a h s tr) p) :
    (m.mem a).left = tl.top ∧ (m.mem a).right = tr.top
      ∧ Rep m.mem tl (some a) ∧ Rep m.mem tr (some a) := by
  obtain ⟨hlinks, htl, htr⟩ := hrep
  obtain ⟨-, hleft, hright, -⟩ := Item.links_eq.mp (show (m.mem a).links
    = (⟨(m.mem a).key, (m.mem a).value, p, tl.top, tr.top, h, s, none, none⟩
        : Item T V).links from hlinks)
  exact ⟨hleft, hright, htl, htr⟩

variable [LinearOrder T]

/-- Keys in order are in order below each item, and on both sides of it. -/
lemma keys_node {m : ItemTree T V} {tl tr : AvlTree ℕ} {a h : ℕ} {s : ℤ}
    (hs : ((AvlTree.node tl a h s tr).inorder.map fun b => (m.mem b).key).Pairwise (· ≤ ·)) :
    (tl.inorder.map fun b => (m.mem b).key).Pairwise (· ≤ ·)
      ∧ (tr.inorder.map fun b => (m.mem b).key).Pairwise (· ≤ ·)
      ∧ (∀ b ∈ tl.inorder, (m.mem b).key ≤ (m.mem a).key)
      ∧ ∀ b ∈ tr.inorder, (m.mem a).key ≤ (m.mem b).key := by
  rw [inorder_node, List.map_append, List.map_cons, List.pairwise_append,
    List.pairwise_cons] at hs
  obtain ⟨hsl, ⟨har, hsr⟩, hlr⟩ := hs
  refine ⟨hsl, hsr, fun b hb => ?_, fun b hb => ?_⟩
  · exact hlr _ (List.mem_map_of_mem (f := fun b => (m.mem b).key) hb) _ List.mem_cons_self
  · exact har _ (List.mem_map_of_mem (f := fun b => (m.mem b).key) hb)

/-- The loop of `find` ends at an item with the key if there is one below, however many. -/
lemma findFrom_spec {k : T} {t : AvlTree ℕ} : ∀ {fuel : ℕ} {m : ItemTree T V} {p : Ptr},
    Rep m.mem t p → (t.inorder.map fun b => (m.mem b).key).Pairwise (· ≤ ·) →
    t.inorder.length ≤ fuel →
    ∃ r, m.findFrom k fuel t.top = some r
      ∧ ((r ∈ t.inorder ∧ (m.mem r).key = k)
        ∨ (r = endItem ∧ ∀ b ∈ t.inorder, (m.mem b).key ≠ k)) := by
  induction t with
  | nil =>
    intro fuel m p _ _ _
    exact ⟨endItem, by cases fuel <;> rfl, Or.inr ⟨rfl, by simp⟩⟩
  | node tl a h s tr ihl ihr =>
    rintro (_ | fuel) m p hrep hs hf
    · simp at hf
    · obtain ⟨hsl, hsr, hla, har⟩ := keys_node hs
      simp only [inorder_node, List.length_append, List.length_cons] at hf
      obtain ⟨hleft, hright, h₂, h₃⟩ := children_node hrep
      rw [top_node, findFrom, hleft, hright]
      split_ifs with hgt hlt
      · obtain ⟨r, hrun, hr⟩ := ihr h₃ hsr (by omega : tr.inorder.length ≤ fuel)
        refine ⟨r, hrun, hr.imp (fun h => ⟨by simp [h.1], h.2⟩) fun h => ⟨h.1, fun b hb => ?_⟩⟩
        rw [inorder_node, List.mem_append, List.mem_cons] at hb
        rcases hb with hb | rfl | hb
        · exact ((hla b hb).trans_lt hgt).ne
        · exact hgt.ne
        · exact h.2 b hb
      · obtain ⟨r, hrun, hr⟩ := ihl h₂ hsl (by omega : tl.inorder.length ≤ fuel)
        refine ⟨r, hrun, hr.imp (fun h => ⟨by simp [h.1], h.2⟩) fun h => ⟨h.1, fun b hb => ?_⟩⟩
        rw [inorder_node, List.mem_append, List.mem_cons] at hb
        rcases hb with hb | rfl | hb
        · exact h.2 b hb
        · exact hlt.ne'
        · exact (hlt.trans_le (har b hb)).ne'
      · exact ⟨a, rfl, Or.inl ⟨by simp, le_antisymm (not_lt.mp hlt) (not_lt.mp hgt)⟩⟩

/-- **`find`** returns an item with the key if there is one, and the end otherwise. -/
theorem Valid.find {m : ItemTree T V} {t : AvlTree ℕ} {free : List ℕ} (hv : Valid m t free)
    (hs : (t.inorder.map fun b => (m.mem b).key).Pairwise (· ≤ ·)) (k : T) :
    ∃ r, m.find k = some r ∧ ((r ∈ t.inorder ∧ (m.mem r).key = k)
      ∨ (r = endItem ∧ ∀ b ∈ t.inorder, (m.mem b).key ≠ k)) := by
  rw [ItemTree.find, hv.root_eq]
  exact findFrom_spec hv.links.sub hs (hv.size ▸ le_refl _)

end ItemTree

end Nstd
