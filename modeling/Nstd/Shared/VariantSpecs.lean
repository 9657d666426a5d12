import Mathlib.Data.List.InsertIdx
import Nstd.Shared.Variants

/-!
# What the functions of `Variant` do

Each function is described with any pointers `kept` outside: all counts are right before and after it,
and everything that the kept pointers lead to stays as it is.  The pointers of the variant itself come
first in the list of roots, so that a description can be used inside of a container: while the container
is edited its other items are kept.

* `Cell.Denotes` — the value of a variant.
* `clear_spec`, `copy_spec`, `assign_spec`, `detach_spec` and so on — one function each.
* `toContainer_spec`, `edit_spec`, `editAt_spec` — the way to an item of a container.
-/

namespace Nstd.Variant

namespace Sharing

open Heap (Keeps Reach SameContent Shrinks)

variable {D : Type}

/-- The value of a variant -/
def Cell.Denotes (h : Heap (Data D)) : Cell D → Variant D → Prop
  | .null, v => v = .null
  | .scalar s, v => v = s.value
  | .block data, v => h.Denotes data v

/-- A variant is kept if its block is. -/
lemma Cell.Denotes.keep {h h' : Heap (Data D)} {kept : List ℕ} (hk : Keeps kept h h') {c : Cell D}
    (hc : c.pointers ⊆ kept) {v : Variant D} (hd : c.Denotes h v) : c.Denotes h' v := by
  cases c with
  | null => exact hd
  | scalar s => exact hd
  | block data => exact hk.value (hc (List.mem_singleton_self data)) hd

/-! ## Copies -/

lemma copy_spec {h : Heap (Data D)} {c : Cell D} {roots : List ℕ} (hs : h.Sound roots)
    (hc : ∀ a ∈ c.pointers, ∃ b, h.get? a = some b) :
    ∃ h', copy h c = some (h', c) ∧ h'.Sound (c.pointers ++ roots) ∧ SameContent h h' := by
  cases c with
  | null => exact ⟨h, rfl, hs, Nat.le_refl _, fun _ => rfl⟩
  | scalar s => exact ⟨h, rfl, hs, Nat.le_refl _, fun _ => rfl⟩
  | block data =>
    obtain ⟨b, hb⟩ := hc data (List.mem_singleton_self data)
    obtain ⟨h', hrun, hs', hsame⟩ := hs.increment hb
    exact ⟨h', by rw [copy, hrun]; rfl, hs', hsame⟩

/-- Blocks that are there stay there if contents do. -/
lemma live_of_sameContent {h h' : Heap (Data D)} (hsame : SameContent h h') {a : ℕ}
    (ha : ∃ b, h.get? a = some b) : ∃ b, h'.get? a = some b := by
  obtain ⟨b, hb⟩ := ha
  have hmap : (h'.get? a).map Block.content = some b.content := by rw [hsame.2, hb]; rfl
  obtain ⟨b', hb', -⟩ := Option.map_eq_some_iff.mp hmap
  exact ⟨b', hb'⟩

lemma sameContent_trans {h h' h'' : Heap (Data D)} (hsame : SameContent h h')
    (hsame' : SameContent h' h'') : SameContent h h'' :=
  ⟨Nat.le_trans hsame.1 hsame'.1, fun a => (hsame'.2 a).trans (hsame.2 a)⟩

lemma copyAll_spec {cs : List (Cell D)} : ∀ {h : Heap (Data D)} {roots : List ℕ}, h.Sound roots →
    (∀ a ∈ cs.flatMap Cell.pointers, ∃ b, h.get? a = some b) →
      ∃ h', copyAll h cs = some (h', cs) ∧ h'.Sound (cs.flatMap Cell.pointers ++ roots) ∧
        SameContent h h' := by
  induction cs with
  | nil => exact fun {h _} hs _ => ⟨h, rfl, hs, Nat.le_refl _, fun _ => rfl⟩
  | cons c cs ih =>
    intro h roots hs hlive
    obtain ⟨h₁, hcopy, hs₁, hsame₁⟩ :=
      copy_spec hs fun a ha => hlive a (List.mem_append_left _ ha)
    obtain ⟨h₂, hrest, hs₂, hsame₂⟩ := ih hs₁ fun a ha =>
      live_of_sameContent hsame₁ (hlive a (List.mem_append_right _ ha))
    refine ⟨h₂, by simp [copyAll, hcopy, hrest], hs₂.perm ?_, sameContent_trans hsame₁ hsame₂⟩
    rw [List.flatMap_cons, ← List.append_assoc]
    exact List.perm_append_comm.append_right roots

/-- A copy of an array has the same room. -/
lemma Capacity.zero_reserve (c : Capacity) : Capacity.zero.reserve c.val = c := by
  obtain ⟨val, rfl | hval⟩ := c
  · rfl
  · have hpos : val > 0 := by omega
    have hor : val ||| 3 = val := by
      have hmod := or_three_mod val
      have hdiv : (val ||| 3) / 2 ^ 2 = val / 2 ^ 2 ||| 3 / 2 ^ 2 := Nat.or_div_two_pow
      rw [show 3 / 2 ^ 2 = 0 from rfl, Nat.or_zero] at hdiv
      omega
    simp [Capacity.reserve, Capacity.zero, hpos, hor]

lemma copyData_spec {h : Heap (Data D)} {c : Data D} {roots : List ℕ} (hs : h.Sound roots)
    (hlive : ∀ a ∈ Content.pointers c, ∃ b, h.get? a = some b) :
    ∃ h', copyData h c = some (h', c) ∧ h'.Sound (Content.pointers c ++ roots) ∧
      SameContent h h' := by
  obtain ⟨h', hrun, hs', hsame⟩ := copyAll_spec hs hlive
  refine ⟨h', ?_, hs', hsame⟩
  cases c with
  | map m =>
    have hzip : (m.map Prod.fst).zip (m.map Prod.snd) = m := (List.zip_of_prod rfl rfl).symm
    simp only [Data.cells] at hrun
    simp [copyData, hrun, hzip]
  | list l =>
    simp only [Data.cells] at hrun
    simp [copyData, hrun]
  | array capacity a =>
    simp only [Data.cells] at hrun
    simp [copyData, hrun, Capacity.zero_reserve]
  | string s =>
    obtain ⟨rfl, -⟩ := Prod.mk.inj (Option.some_inj.mp hrun)
    rfl

/-! ## The functions -/

lemma clear_spec {h : Heap (Data D)} {c : Cell D} {kept : List ℕ}
    (hs : h.Sound (c.pointers ++ kept)) : ∃ h', clear h c = some (h', .null) ∧ h'.Sound kept ∧
      Keeps kept h h' ∧ Shrinks h h' := by
  cases c with
  | null => exact ⟨h, rfl, hs, .refl _ _, .refl _⟩
  | scalar s => exact ⟨h, rfl, hs, .refl _ _, .refl _⟩
  | block data =>
    obtain ⟨h', hrun, hs', hkeep, hshrinks⟩ := hs.release
    rw [Cell.pointers] at hrun
    exact ⟨h', by rw [clear, hrun]; rfl, hs', hkeep, hshrinks⟩

lemma assign_spec {h : Heap (Data D)} {this : Cell D} (other : Cell D) {kept : List ℕ}
    (hs : h.Sound (this.pointers ++ kept))
    (hlive : ∀ a ∈ other.pointers, ∃ b, h.get? a = some b) :
    ∃ h', assign h this other = some (h', other) ∧ h'.Sound (other.pointers ++ kept) ∧
      Keeps kept h h' := by
  cases other with
  | null =>
    obtain ⟨h', hrun, hs', hkeep, -⟩ := clear_spec hs
    exact ⟨h', by simp [assign, hrun], hs', hkeep⟩
  | scalar s =>
    obtain ⟨h', hrun, hs', hkeep, -⟩ := clear_spec hs
    exact ⟨h', by simp [assign, hrun], hs', hkeep⟩
  | block data =>
    obtain ⟨b, hb⟩ := hlive data (List.mem_singleton_self data)
    obtain ⟨h₁, hincrement, hs₁, hsame⟩ := hs.increment hb
    have hs₁' : h₁.Sound (this.pointers ++ data :: kept) := hs₁.perm List.perm_middle.symm
    obtain ⟨h₂, hclear, hs₂, hkeep, -⟩ := clear_spec hs₁'
    exact ⟨h₂, by simp [assign, hincrement, hclear], hs₂,
      (hsame.keeps kept).trans (hkeep.mono (List.subset_cons_self data kept))⟩

lemma getType_isSome {h : Heap (Data D)} {c : Cell D} {roots : List ℕ} (hs : h.Sound roots)
    (hc : c.pointers ⊆ roots) : ∃ type, getType h c = some type := by
  cases c with
  | null => exact ⟨_, rfl⟩
  | scalar s => exact ⟨_, rfl⟩
  | block data =>
    obtain ⟨b, hb⟩ := hs.live (.inl (hc (List.mem_singleton_self data)))
    exact ⟨_, by rw [getType, hb]; rfl⟩

/-- Scalars are not in blocks. -/
lemma pointers_of_scalar_type {h : Heap (Data D)} {c : Cell D} {s : Scalar D}
    (htype : getType h c = some s.type) : c.pointers = [] := by
  cases c with
  | null => rfl
  | scalar s => rfl
  | block data =>
    obtain ⟨b, -, hb⟩ := Option.map_eq_some_iff.mp htype
    have hne : b.content.type ≠ s.type := by
      cases b.content <;> cases s <;> simp [Data.type, Scalar.type]
    exact absurd hb hne

/-- Containers and strings are. -/
lemma block_of_data_type {h : Heap (Data D)} {this : Cell D} {d : Data D} {kept : List ℕ}
    (hs : h.Sound (this.pointers ++ kept)) (htype : getType h this = some d.type)
    (href : ¬ getRef h this > 1) : ∃ data c, this = .block data ∧
      h.get? data = some ⟨1, c⟩ ∧ c.type = d.type := by
  cases this with
  | null => cases d <;> simp [getType, Data.type] at htype
  | scalar s => cases d <;> cases s <;> simp [getType, Data.type, Scalar.type] at htype
  | block data =>
    obtain ⟨⟨ref, c⟩, hb, hc⟩ := Option.map_eq_some_iff.mp htype
    have hpos : 0 < ref := hs.pos data _ hb
    rw [getRef, Heap.ref_of_get? hb] at href
    obtain rfl : ref = 1 := by
      dsimp only at href
      omega
    exact ⟨data, c, rfl, hb, hc⟩

lemma assignScalar_spec {h : Heap (Data D)} {this : Cell D} {kept : List ℕ}
    (hs : h.Sound (this.pointers ++ kept)) (other : Scalar D) :
    ∃ h', assignScalar h this other = some (h', .scalar other) ∧ h'.Sound kept ∧
      Keeps kept h h' := by
  obtain ⟨type, htype⟩ := getType_isSome hs (List.subset_append_left _ _)
  by_cases hne : type ≠ other.type
  · obtain ⟨h', hrun, hs', hkeep, -⟩ := clear_spec hs
    exact ⟨h', by simp [assignScalar, htype, hne, hrun], hs', hkeep⟩
  · rw [not_not] at hne
    subst hne
    rw [pointers_of_scalar_type htype, List.nil_append] at hs
    exact ⟨h, by simp [assignScalar, htype], hs, .refl _ _⟩

/-- What is done to the content of a block that nothing else points to -/
lemma edit_spec {h : Heap (Data D)} {data : ℕ} {c : Data D} {kept : List ℕ}
    {f : Heap (Data D) → Data D → Option (Heap (Data D) × Data D)}
    (hs : h.Sound (data :: kept)) (hb : h.get? data = some ⟨1, c⟩)
    (hf : (h.write data none).Sound (Content.pointers c ++ kept) → Keeps kept h (h.write data none) →
      ∃ h₂ c', f (h.write data none) c = some (h₂, c') ∧ h₂.Sound (Content.pointers c' ++ kept) ∧
        Keeps kept (h.write data none) h₂) :
    ∃ h', edit h data f = some h' ∧ h'.Sound (data :: kept) ∧ Keeps kept h h' := by
  obtain ⟨htake, hkeep₁, -⟩ := hs.take hb
  obtain ⟨h₂, c', hrun, hs₂, hkeep₂⟩ := hf htake hkeep₁
  obtain ⟨hs₃, hkeep₃, -⟩ := hs.edit hb hs₂ hkeep₂
  exact ⟨_, by simp [edit, hb, hrun], hs₃, hkeep₃⟩

/-- The blocks in a container are there while a variable holds it. -/
lemma constContainer_live {h h' : Heap (Data D)} {k : Container} {other : Cell D}
    {kept roots : List ℕ} (hother : ∀ a ∈ other.pointers, Reach kept h a)
    (hkeep : Keeps kept h h')
    (hs : h'.Sound roots) :
    ∀ a ∈ Content.pointers (constContainer k h other), ∃ b, h'.get? a = some b := by
  have hempty : ∀ a ∈ Content.pointers (k.empty : Data D), ∃ b, h'.get? a = some b := by
    cases k <;> exact fun a ha => absurd ha List.not_mem_nil
  rw [constContainer]
  cases other with
  | null => exact hempty
  | scalar s => exact hempty
  | block data =>
    rw [getBlock, Option.bind_some]
    cases hb : h.get? data with
    | none => exact hempty
    | some b =>
      dsimp only
      split_ifs with htype
      · obtain ⟨b', hb', hcontent⟩ :=
          hkeep.content data (hother data (List.mem_singleton_self data)) b hb
        intro a ha
        rw [← hcontent] at ha
        exact hs.live (.inr (Heap.mem_pointers hb' ha))
      · exact hempty

/-- **Access for writing** gives a block that nothing else points to.  If the variant held what is
    accessed, it still does. -/
lemma detach_spec {h : Heap (Data D)} {this : Cell D} (source : Data D) {kept : List ℕ}
    (hs : h.Sound (this.pointers ++ kept))
    (hlive : ∀ a ∈ Content.pointers source, ∃ b, h.get? a = some b) :
    ∃ h' data c, detach h this source = some (h', data) ∧ h'.get? data = some ⟨1, c⟩ ∧
      c.type = source.type ∧ h'.Sound (data :: kept) ∧ Keeps kept h h' ∧
        ∀ a n v, this = .block a → h.get? a = some ⟨n, source⟩ → h.Denotes a v →
          h'.Denotes data v := by
  obtain ⟨type, htype⟩ := getType_isSome hs (List.subset_append_left _ _)
  by_cases hshared : type ≠ source.type ∨ getRef h this > 1
  · obtain ⟨h₁, hcopy, hs₁, hsame⟩ := copyData_spec hs hlive
    obtain ⟨hs₂, hkeep₂, hget₂, hvalue₂⟩ := hs₁.new
    obtain ⟨h₃, hclear, hs₃, hkeep₃, hshrinks⟩ := clear_spec (hs₂.perm List.perm_middle.symm)
    have hmem : (h₁.new source).2 ∈ (h₁.new source).2 :: kept := List.mem_cons_self
    obtain ⟨⟨ref, c⟩, hget₃, rfl⟩ := hkeep₃.content _ (.root hmem) _ hget₂
    obtain rfl : ref = 1 := by
      have hpos := hs₃.pos _ _ hget₃
      obtain ⟨b, hb, -, hle⟩ := hshrinks _ _ hget₃
      obtain rfl := Option.some_inj.mp (hb.symm.trans hget₂)
      dsimp only at hpos hle
      omega
    have hsub : kept ⊆ Content.pointers c ++ (this.pointers ++ kept) := by
      intro a ha
      simp [ha]
    refine ⟨h₃, (h₁.new c).2, c, ?_, hget₃, rfl, hs₃, ?_, fun a n v hthis ha hd => ?_⟩
    · simp [detach, htype, hshared, hcopy, hclear]
    · exact ((hsame.keeps kept).trans (hkeep₂.mono hsub)).trans
        (hkeep₃.mono (List.subset_cons_self _ _))
    · obtain ⟨hb, hf⟩ := hd
      obtain rfl := Option.some_inj.mp (hb.symm.trans ha)
      exact hkeep₃.value hmem (hvalue₂ _ fun p hp => (hf p hp).of_content hsame.2)
  · rw [not_or, not_not] at hshared
    obtain ⟨rfl, href⟩ := hshared
    obtain ⟨data, c, rfl, hb, hc⟩ := block_of_data_type hs htype href
    refine ⟨h, data, c, ?_, hb, hc, hs, .refl _ _, fun a n v hthis _ hd => ?_⟩
    · simp [detach, htype, href, getBlock]
    · rwa [Cell.block.inj hthis]

lemma overwrite_spec {h : Heap (Data D)} {c : Data D} (other : Data D) {kept : List ℕ}
    (hs : h.Sound (Content.pointers c ++ kept))
    (hlive : ∀ h' : Heap (Data D), h'.Sound kept → Keeps kept h h' →
      ∀ a ∈ Content.pointers other, ∃ b, h'.get? a = some b) :
    ∃ h', overwrite other h c = some (h', c.over other) ∧
      h'.Sound (Content.pointers (c.over other) ++ kept) ∧ Keeps kept h h' := by
  obtain ⟨h₁, hrelease, hs₁, hkeep, -⟩ := hs.release
  obtain ⟨h₂, hcopy, hs₂, hsame⟩ := copyData_spec hs₁ (hlive h₁ hs₁ hkeep)
  have hover : Content.pointers (c.over other) = Content.pointers other := by cases other <;> rfl
  exact ⟨h₂, by simp [overwrite, hrelease, hcopy], hover ▸ hs₂, hkeep.trans (hsame.keeps kept)⟩

lemma assignData_spec {h : Heap (Data D)} {this : Cell D} {other : Data D} {kept : List ℕ}
    (hs : h.Sound (this.pointers ++ kept))
    (hlive : ∀ (h' : Heap (Data D)) (roots : List ℕ), h'.Sound roots → Keeps kept h h' →
      ∀ a ∈ Content.pointers other, ∃ b, h'.get? a = some b) :
    ∃ h' this', assignData h this other = some (h', this') ∧ h'.Sound (this'.pointers ++ kept) ∧
      Keeps kept h h' := by
  obtain ⟨type, htype⟩ := getType_isSome hs (List.subset_append_left _ _)
  by_cases hshared : type ≠ other.type ∨ getRef h this > 1
  · obtain ⟨h₁, hclear, hs₁, hkeep₁, -⟩ := clear_spec hs
    obtain ⟨h₂, hcopy, hs₂, hsame⟩ := copyData_spec hs₁ (hlive h₁ _ hs₁ hkeep₁)
    obtain ⟨hs₃, hkeep₃, -⟩ := hs₂.new
    refine ⟨_, .block (h₂.new other).2, ?_, hs₃, (hkeep₁.trans (hsame.keeps kept)).trans
      (hkeep₃.mono (List.subset_append_right _ _))⟩
    simp [assignData, htype, hshared, hclear, hcopy]
  · rw [not_or, not_not] at hshared
    obtain ⟨rfl, href⟩ := hshared
    obtain ⟨data, c, rfl, hb, -⟩ := block_of_data_type hs htype href
    obtain ⟨h', hedit, hs', hkeep⟩ := edit_spec (f := overwrite other) hs hb fun hs₁ hkeep₁ => by
      obtain ⟨h₂, hrun, hs₂, hkeep₂⟩ := overwrite_spec other hs₁ fun h₂ hs₂ hkeep₂ =>
        hlive h₂ _ hs₂ (hkeep₁.trans hkeep₂)
      exact ⟨h₂, _, hrun, hs₂, hkeep₂⟩
    refine ⟨h', .block data, ?_, hs', hkeep⟩
    simp [assignData, htype, href, getBlock, hedit]

/-! ## What is done to containers -/

lemma cells_erase (d : Data D) (i : ℕ) : (d.erase i).cells = d.cells.eraseIdx i := by
  cases d with
  | map m => exact (List.eraseIdx_map ..).symm
  | list l => rfl
  | array capacity a => rfl
  | string s => simp [Data.erase, Data.cells]

lemma cells_set (d : Data D) (i : ℕ) (x : Cell D) : (d.set i x).cells = d.cells.set i x := by
  cases d with
  | map m =>
    induction m generalizing i with
    | nil => simp [Data.set, Data.cells]
    | cons e m ih => cases i <;> simp_all [Data.set, Data.cells]
  | list l => rfl
  | array capacity a => rfl
  | string s => simp [Data.set, Data.cells]

/-- The pointers in a container, those of one of its variants first -/
lemma pointers_perm {d : Data D} {i : ℕ} {c : Cell D} (hi : d.cells[i]? = some c) :
    (Content.pointers d).Perm (c.pointers ++ Content.pointers (d.erase i)) := by
  show (d.cells.flatMap Cell.pointers).Perm (c.pointers ++ (d.erase i).cells.flatMap Cell.pointers)
  rw [cells_erase]
  exact Heap.roots_perm Cell.pointers hi

lemma pointers_set_perm {d : Data D} {i : ℕ} {c : Cell D} (hi : d.cells[i]? = some c) (x : Cell D) :
    (x.pointers ++ Content.pointers (d.erase i)).Perm (Content.pointers (d.set i x)) := by
  show (x.pointers ++ (d.erase i).cells.flatMap Cell.pointers).Perm
    ((d.set i x).cells.flatMap Cell.pointers)
  rw [cells_erase, cells_set]
  exact (Heap.roots_set_perm Cell.pointers hi x).symm

lemma pointers_insert_perm {d : Data D} (hd : d.type ≠ .stringType) (i : ℕ) (key : List UInt8)
    (x : Cell D) : (x.pointers ++ Content.pointers d).Perm (Content.pointers (d.insert i key x)) := by
  have hcells : (x :: d.cells).Perm (d.insert i key x).cells := by
    cases d with
    | map m =>
      have hm : ((key, x) :: m).Perm (m.take i ++ (key, x) :: m.drop i) := by
        conv_lhs => rw [← List.take_append_drop i m]
        exact List.perm_middle.symm
      exact hm.map Prod.snd
    | list l =>
      show (x :: l).Perm (l.take i ++ x :: l.drop i)
      conv_lhs => rw [← List.take_append_drop i l]
      exact List.perm_middle.symm
    | array capacity a => exact (List.perm_append_singleton x a).symm
    | string s => exact absurd rfl hd
  exact hcells.flatMap_right Cell.pointers

lemma editAt_spec {h : Heap (Data D)} {d : Data D} {i : ℕ} {kept : List ℕ}
    {f : Heap (Data D) → Cell D → Option (Heap (Data D) × Cell D)}
    (hs : h.Sound (Content.pointers d ++ kept))
    (hf : ∀ this, d.cells[i]? = some this →
      h.Sound (this.pointers ++ (Content.pointers (d.erase i) ++ kept)) →
        ∃ h' this', f h this = some (h', this') ∧
          h'.Sound (this'.pointers ++ (Content.pointers (d.erase i) ++ kept)) ∧
            Keeps (Content.pointers (d.erase i) ++ kept) h h') :
    ∃ h' d', editAt i f h d = some (h', d') ∧ h'.Sound (Content.pointers d' ++ kept) ∧
      Keeps kept h h' := by
  cases hi : d.cells[i]? with
  | none => exact ⟨h, d, by simp [editAt, hi], hs, .refl _ _⟩
  | some this =>
    have hs' : h.Sound (this.pointers ++ (Content.pointers (d.erase i) ++ kept)) := by
      rw [← List.append_assoc]
      exact hs.perm ((pointers_perm hi).append_right kept)
    obtain ⟨h', this', hrun, hs'', hkeep⟩ := hf this hi hs'
    refine ⟨h', d.set i this', by simp [editAt, hi, hrun], ?_,
      hkeep.mono (List.subset_append_right _ _)⟩
    rw [← List.append_assoc] at hs''
    exact hs''.perm ((pointers_set_perm hi this').append_right kept)

lemma remove_spec {h : Heap (Data D)} {d : Data D} {i : ℕ} {kept : List ℕ}
    (hs : h.Sound (Content.pointers d ++ kept)) :
    ∃ h' d', remove i h d = some (h', d') ∧ h'.Sound (Content.pointers d' ++ kept) ∧
      Keeps kept h h' := by
  cases hi : d.cells[i]? with
  | none => exact ⟨h, d, by simp [remove, hi], hs, .refl _ _⟩
  | some this =>
    have hs' : h.Sound (this.pointers ++ (Content.pointers (d.erase i) ++ kept)) := by
      rw [← List.append_assoc]
      exact hs.perm ((pointers_perm hi).append_right kept)
    obtain ⟨h', hclear, hs'', hkeep, -⟩ := clear_spec hs'
    exact ⟨h', d.erase i, by simp [remove, hi, hclear], hs'',
      hkeep.mono (List.subset_append_right _ _)⟩

/-! ## Access -/

lemma toContainer_spec {k : Container} {h : Heap (Data D)} {this : Cell D} {kept : List ℕ}
    (hs : h.Sound (this.pointers ++ kept)) :
    ∃ h' data c, toContainer k h this = some (h', data) ∧ h'.get? data = some ⟨1, c⟩ ∧
      c.type ≠ .stringType ∧ h'.Sound (data :: kept) ∧ Keeps kept h h' := by
  have hsource : (constContainer k h this).type = (k.empty : Data D).type := by
    rw [constContainer]
    cases (getBlock this).bind h.get? with
    | none => rfl
    | some b =>
      dsimp only
      split_ifs with htype
      · exact htype
      · rfl
  have hempty : (k.empty : Data D).type ≠ .stringType := by cases k <;> simp [Container.empty, Data.type]
  have hreach : ∀ a ∈ this.pointers, Reach (this.pointers ++ kept) h a :=
    fun a ha => .root (List.mem_append_left _ ha)
  have hlive := constContainer_live (k := k) hreach (.refl _ h) hs
  obtain ⟨h', data, c, hrun, hb, hc, hs', hkeep, -⟩ := detach_spec _ hs hlive
  refine ⟨h', data, c, ?_, hb, by rwa [hc, hsource], hs', hkeep⟩
  cases k <;> exact hrun

/-- Access, and then an edit -/
lemma access_edit_spec {k : Container} {h : Heap (Data D)} {this : Cell D} {kept : List ℕ}
    {f : Heap (Data D) → Data D → Option (Heap (Data D) × Data D)}
    (hs : h.Sound (this.pointers ++ kept))
    (hf : ∀ (h₁ : Heap (Data D)) (data : ℕ) (c : Data D), toContainer k h this = some (h₁, data) →
      h₁.get? data = some ⟨1, c⟩ → c.type ≠ .stringType →
        (h₁.write data none).Sound (Content.pointers c ++ kept) →
          ∃ h₂ c', f (h₁.write data none) c = some (h₂, c') ∧
            h₂.Sound (Content.pointers c' ++ kept) ∧ Keeps kept (h₁.write data none) h₂) :
    ∃ h₁ data h', toContainer k h this = some (h₁, data) ∧ edit h₁ data f = some h' ∧
      h'.Sound (data :: kept) ∧ Keeps kept h h' := by
  obtain ⟨h₁, data, c, hrun, hb, hc, hs₁, hkeep₁⟩ := toContainer_spec (k := k) hs
  obtain ⟨h', hedit, hs', hkeep⟩ := edit_spec hs₁ hb fun hs₂ _ => hf h₁ data c hrun hb hc hs₂
  exact ⟨h₁, data, h', hrun, hedit, hs', hkeep₁.trans hkeep⟩

end Sharing

end Nstd.Variant
