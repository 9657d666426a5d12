import Nstd.Shared.NestedSources

/-!
# Sharing of variants is not visible

An operation on a variable is described by induction on the way into the containers that it holds.  While
an item is written to, the container around it is not in the heap: its other items are roots like the
other variables, so that an operation inside keeps them, and what it reads from them is still there.

* `Op.Allowed` — what is read may be in the variable itself, if it is not gone when it is read.
* `Op.run_spec`, `Op.run_none` — what an operation does if it is allowed, and that it fails if not.
* `State.Counted`, `Invisible` — what is to hold of a state and of a move.
* **`variants_safe_iff`** — they hold after any moves that are allowed, and no other move succeeds;
  `own_element_moved`.
-/

namespace Nstd.Variant

namespace Sharing

open Heap (Keeps Reach SameContent Shrinks)

variable {D : Type}

/-! ## Operations -/

/-- What is read can be reached. -/
lemma follow_reach {h : Heap (Data D)} {kept path : List ℕ} {c c' : Cell D}
    (hc : ∀ a ∈ c.pointers, Reach kept h a) (hfollow : follow h path c = some c') :
    ∀ a ∈ c'.pointers, Reach kept h a := by
  induction path generalizing c with
  | nil => exact Option.some_inj.mp hfollow ▸ hc
  | cons i path ih =>
    cases c with
    | null => simp [follow, getBlock] at hfollow
    | scalar s => simp [follow, getBlock] at hfollow
    | block data =>
      simp only [follow, getBlock, Option.bind_eq_bind, Option.bind_some,
        Option.bind_eq_some_iff] at hfollow
      obtain ⟨b, hb, x, hx, hfollow⟩ := hfollow
      refine ih (fun a ha => ?_) hfollow
      exact .next (hc data (List.mem_singleton_self data)) hb
        (List.mem_flatMap.mpr ⟨x, List.mem_of_getElem? hx, ha⟩)

lemma find_reach {src : Source} {others : Root → Option (Cell D)} {h : Heap (Data D)}
    {kept : List ℕ} {c : Cell D} (hothers : ∀ r c, others r = some c → c.pointers ⊆ kept)
    (hfind : src.find others h = some c) : ∀ a ∈ c.pointers, Reach kept h a := by
  obtain ⟨x, hx, hfollow⟩ := Option.bind_eq_some_iff.mp hfind
  exact follow_reach (fun a ha => .root (hothers src.root x hx ha)) hfollow

/-- At a place in a variant there is another one. -/
lemma readAt_place {h : Heap (Data D)} {path : List ℕ} {c : Cell D} {p : Place}
    (hplace : place h path c = some p) : ∃ c', readAt h p = some c' := by
  induction path generalizing c with
  | nil => exact absurd hplace (by simp [place])
  | cons i path ih =>
    rw [place] at hplace
    simp only [Option.bind_eq_bind, Option.bind_eq_some_iff] at hplace
    obtain ⟨data, -, b, hb, x, hx, hplace⟩ := hplace
    split_ifs at hplace
    · obtain rfl := Option.some.inj hplace
      exact ⟨x, by simp [readAt, hb, hx]⟩
    · exact ih hplace

/-- While an item of a container is written to, what may be read is in the others, or outside. -/
lemma enter_pointers {others : Root → Option (Cell D)} {kept : List ℕ}
    (hothers : ∀ r c, others r = some c → c.pointers ⊆ kept) (d : Data D) (i : ℕ) (r : Root)
    (c : Cell D) (hr : enter others d (some i) r = some c) :
    c.pointers ⊆ Content.pointers (d.erase i) ++ kept := by
  have houter : c.pointers ⊆ kept → c.pointers ⊆ Content.pointers (d.erase i) ++ kept :=
    fun hsub => List.subset_append_of_subset_right _ hsub
  cases r with
  | var y => exact houter (hothers (.var y) c hr)
  | this => simp [enter] at hr
  | item up j =>
    cases up with
    | zero =>
      rw [enter] at hr
      split_ifs at hr with hij
      have hne : j ≠ i := fun h => hij (congrArg some h)
      intro a ha
      refine List.mem_append_left _ ?_
      show a ∈ (d.erase i).cells.flatMap Cell.pointers
      rw [cells_erase]
      exact Heap.mem_roots_of_ne hne hr ha
    | succ up => exact houter (hothers (.item up j) c hr)

/-- While the container itself is, it may be in any of its items. -/
lemma enter_none_pointers {others : Root → Option (Cell D)} {kept : List ℕ}
    (hothers : ∀ r c, others r = some c → c.pointers ⊆ kept) (d : Data D) (r : Root)
    (c : Cell D) (hr : enter others d none r = some c) :
    c.pointers ⊆ Content.pointers d ++ kept := by
  cases r with
  | var y => exact List.subset_append_of_subset_right _ (hothers (.var y) c hr)
  | this => simp [enter] at hr
  | item up j =>
    cases up with
    | zero =>
      rw [enter, if_neg (Option.some_ne_none j)] at hr
      exact fun a ha => List.mem_append_left _
        (List.mem_flatMap.mpr ⟨c, List.mem_of_getElem? hr, ha⟩)
    | succ up => exact List.subset_append_of_subset_right _ (hothers (.item up j) c hr)

/-! ## What may be read -/

/-- Something else than the variant that is assigned to holds the block of what is read. -/
def Source.Stays (src : Source) (h : Heap (Data D)) (this : Cell D) (kept : List ℕ) : Prop :=
  src.root = .this → ∀ p, place h src.path this = some p → h.Held kept p.block

/-- An element that is put in once more is not one of a full array, and what is assigned to the entry of a
    key stays. -/
def InsertAllowed (key : List UInt8) (src : Source) (overwrite : Bool) (h : Heap (Data D)) (c : Data D)
    (kept : List ℕ) : Prop :=
  match c.find key with
  | some j => overwrite = true → ∀ item, c.cells[j]? = some item →
      (src.seenFrom j).Stays h item (Content.pointers (c.erase j) ++ kept)
  | none => ∀ j, src = ⟨.item 0 j, []⟩ → j < c.cells.length → c.isFull = false

/-- **When an operation may read from the variable that it writes to**; `kept` are the pointers outside of
    the variant.  It is asked when the accessors have returned, before `operator=` or `insert` is called. -/
def Op.Allowed : Op D → Heap (Data D) → Cell D → List ℕ → Prop
  | .assign src, h, this, kept => src.Stays h this kept
  | .insert k _ key src overwrite, h, this, kept => ∀ h₁ data c,
      toContainer k h this = some (h₁, data) → h₁.get? data = some ⟨1, c⟩ →
        InsertAllowed key src overwrite (h₁.write data none) c kept
  | .within k i op, h, this, kept => ∀ h₁ data c item,
      toContainer k h this = some (h₁, data) → h₁.get? data = some ⟨1, c⟩ → c.cells[i]? = some item →
        op.Allowed (h₁.write data none) item (Content.pointers (c.erase i) ++ kept)
  | _, _, _, _ => True

lemma assignSource_spec {others : Root → Option (Cell D)} {src : Source} {h : Heap (Data D)}
    {this : Cell D} {kept : List ℕ} (hs : h.Sound (this.pointers ++ kept))
    (hothers : ∀ r c, others r = some c → c.pointers ⊆ kept) (hstays : src.Stays h this kept) :
    ∃ h' this', assignSource others src h this = some (h', this') ∧
      h'.Sound (this'.pointers ++ kept) ∧ Keeps kept h h' := by
  by_cases hroot : src.root = .this
  · cases hp : place h src.path this with
    | none => exact ⟨h, this, by simp [assignSource, hroot, hp], hs, .refl _ _⟩
    | some p =>
      obtain ⟨c, hc⟩ := readAt_place hp
      obtain ⟨h', hrun, hs', hkeep, -⟩ := (Assigns.of_sound hs hc).held (hstays hroot p hp)
      exact ⟨h', c, by simp [assignSource, hroot, hp, hrun], hs', hkeep⟩
  · cases hy : src.find others h with
    | none => exact ⟨h, this, by simp [assignSource, hroot, hy], hs, .refl _ _⟩
    | some other =>
      obtain ⟨h', hrun, hs', hkeep⟩ := assign_spec _ hs fun a ha =>
        hs.live_of_reach (find_reach hothers hy a ha) (List.subset_append_right _ _)
      exact ⟨h', other, by simp [assignSource, hroot, hy, hrun], hs', hkeep⟩

lemma Source.isElement_iff {src : Source} : src.isElement = true ↔ ∃ j, src = ⟨.item 0 j, []⟩ := by
  obtain ⟨root, path⟩ := src
  constructor
  · intro h
    rcases root with y | - | ⟨_ | up, j⟩ <;> cases path <;> simp [Source.isElement] at h ⊢
  · rintro ⟨j, hj⟩
    rw [hj]
    rfl

lemma insert_spec {others : Root → Option (Cell D)} {h : Heap (Data D)} {d : Data D} (i : ℕ)
    {key : List UInt8} {src : Source} {overwrite : Bool} {kept : List ℕ} (hd : d.type ≠ .stringType)
    (hs : h.Sound (Content.pointers d ++ kept))
    (hothers : ∀ r c, others r = some c → c.pointers ⊆ kept)
    (hallowed : InsertAllowed key src overwrite h d kept) :
    ∃ h' d', insert i key src overwrite others h d = some (h', d') ∧
      h'.Sound (Content.pointers d' ++ kept) ∧ Keeps kept h h' := by
  rw [InsertAllowed] at hallowed
  cases hfind : d.find key with
  | none =>
    rw [hfind] at hallowed
    cases hy : src.find (enter others d none) h with
    | none => exact ⟨h, d, by simp [insert, hfind, hy], hs, .refl _ _⟩
    | some value =>
      have hroom : ¬ (src.isElement = true ∧ d.isFull = true) := by
        rintro ⟨helement, hfull⟩
        obtain ⟨j, rfl⟩ := Source.isElement_iff.mp helement
        obtain ⟨c, hc, -⟩ := Option.bind_eq_some_iff.mp hy
        rw [enter, if_neg (Option.some_ne_none j)] at hc
        have hnot := hallowed j rfl (List.getElem?_eq_some_iff.mp hc).1
        exact absurd (hfull.symm.trans hnot) (by decide)
      obtain ⟨h', hcopy, hs', hsame⟩ := copy_spec hs fun a ha =>
        hs.live_of_reach (find_reach (enter_none_pointers hothers d) hy a ha) (List.Subset.refl _)
      refine ⟨h', d.insert i key value, ?_, ?_, hsame.keeps kept⟩
      · rw [insert, hfind]
        simp only [hy, if_neg hroom, hcopy, Option.bind_eq_bind, Option.bind_some]
      · rw [← List.append_assoc] at hs'
        exact hs'.perm ((pointers_insert_perm hd i key value).append_right kept)
  | some j =>
    rw [hfind] at hallowed
    cases overwrite with
    | false => exact ⟨h, d, by simp [insert, hfind], hs, .refl _ _⟩
    | true =>
      obtain ⟨h', d', hrun, hs', hkeep⟩ := editAt_spec (i := j) hs fun item hitem hs' =>
        assignSource_spec hs' (enter_pointers hothers d j) (hallowed rfl item hitem)
      exact ⟨h', d', by simp [insert, hfind, hrun], hs', hkeep⟩

/-- **An operation** that may read what it reads succeeds, keeps the counts right and does not touch what
    is kept. -/
theorem Op.run_spec [DoubleText D] (op : Op D) :
    ∀ {others : Root → Option (Cell D)} {h : Heap (Data D)} {this : Cell D} {kept : List ℕ},
      h.Sound (this.pointers ++ kept) → (∀ r c, others r = some c → c.pointers ⊆ kept) →
        op.Allowed h this kept →
          ∃ h' this', op.run others h this = some (h', this') ∧
            h'.Sound (this'.pointers ++ kept) ∧ Keeps kept h h' := by
  induction op with
  | clear =>
    intro others h this kept hs _ _
    obtain ⟨h', hrun, hs', hkeep, -⟩ := clear_spec hs
    exact ⟨h', .null, hrun, hs', hkeep⟩
  | assign src => exact fun hs hothers hallowed => assignSource_spec hs hothers hallowed
  | assignScalar other =>
    intro others h this kept hs _ _
    obtain ⟨h', hrun, hs', hkeep⟩ := assignScalar_spec hs other
    exact ⟨h', .scalar other, hrun, hs', hkeep⟩
  | assignString other =>
    intro others h this kept hs _ _
    exact assignData_spec hs fun _ _ _ _ a ha => absurd ha List.not_mem_nil
  | assignContainer k src =>
    intro others h this kept hs hothers _
    cases hy : src.find others h with
    | none => exact ⟨h, this, by simp [Op.run, hy], hs, .refl _ _⟩
    | some other =>
      obtain ⟨h', this', hrun, hs', hkeep⟩ :=
        assignData_spec hs fun h' roots hs' hkeep' =>
          constContainer_live (k := k) (find_reach hothers hy) hkeep' hs'
      exact ⟨h', this', by simp [Op.run, hy, hrun], hs', hkeep⟩
  | access k =>
    intro others h this kept hs _ _
    obtain ⟨h', data, c, hrun, -, -, hs', hkeep⟩ := toContainer_spec (k := k) hs
    exact ⟨h', .block data, by simp [Op.run, hrun], hs', hkeep⟩
  | insert k i key src overwrite =>
    intro others h this kept hs hothers hallowed
    obtain ⟨h₁, data, h', hrun, hedit, hs', hkeep⟩ := access_edit_spec (k := k) hs
      fun h₁ data c hrun hb hc hs₁ =>
        insert_spec i hc hs₁ hothers (hallowed h₁ data c hrun hb)
    exact ⟨h', .block data, by simp [Op.run, hrun, hedit], hs', hkeep⟩
  | remove k i =>
    intro others h this kept hs _ _
    obtain ⟨h₁, data, h', hrun, hedit, hs', hkeep⟩ := access_edit_spec (k := k) hs
      fun _ _ _ _ _ _ hs₁ => remove_spec (i := i) hs₁
    exact ⟨h', .block data, by simp [Op.run, hrun, hedit], hs', hkeep⟩
  | removeAll k =>
    intro others h this kept hs _ _
    have hnone : Content.pointers (k.empty : Data D) = [] := by cases k <;> rfl
    obtain ⟨h₁, data, h', hrun, hedit, hs', hkeep⟩ := access_edit_spec (k := k) hs
      fun _ _ c _ _ _ hs₁ => by
        obtain ⟨h₂, hover, hs₂, hkeep₂⟩ := overwrite_spec k.empty hs₁
          fun _ _ _ a ha => absurd (hnone ▸ ha) List.not_mem_nil
        exact ⟨h₂, c.over k.empty, hover, hs₂, hkeep₂⟩
    exact ⟨h', .block data, by simp [Op.run, hrun, hedit], hs', hkeep⟩
  | within k i op ih =>
    intro others h this kept hs hothers hallowed
    obtain ⟨h₁, data, h', hrun, hedit, hs', hkeep⟩ := access_edit_spec (k := k)
      (f := fun h content => editAt i (op.run (enter others content (some i))) h content) hs
      fun h₁ data c hrun hb _ hs₁ => editAt_spec (i := i) hs₁ fun item hitem hs₂ =>
        ih hs₂ (enter_pointers hothers c i) (hallowed h₁ data c item hrun hb hitem)
    exact ⟨h', .block data, by simp [Op.run, hrun, hedit], hs', hkeep⟩
  | toString f =>
    intro others h this kept hs _ _
    obtain ⟨h₁, data, c, hrun, hb, hc, hs₁, hkeep₁, -⟩ := detach_spec
      (.string (constToString h this)) hs fun a ha => absurd ha List.not_mem_nil
    have hsame : Content.pointers (c.mapString f) = Content.pointers c := by cases c <;> rfl
    obtain ⟨h', hedit, hs', hkeep⟩ := edit_spec
      (f := fun h content => some (h, content.mapString f)) hs₁ hb fun hs₂ _ =>
        ⟨_, c.mapString f, rfl, by rwa [hsame], .refl _ _⟩
    have haccess : Sharing.toString h this = some (h₁, data) := hrun
    exact ⟨h', .block data, by simp [Op.run, haccess, hedit], hs', hkeep₁.trans hkeep⟩

lemma swap_spec {h : Heap (Data D)} {this other : Cell D} {kept : List ℕ}
    (hs : h.Sound (this.pointers ++ (other.pointers ++ kept))) :
    ∃ h', swap h this other = some (h', other, this) ∧
      h'.Sound (this.pointers ++ (other.pointers ++ kept)) ∧
        Keeps (this.pointers ++ (other.pointers ++ kept)) h h' := by
  obtain ⟨h₁, hcopy, hs₁, hsame⟩ := copy_spec (c := other) hs fun a ha =>
    hs.live (.inl (by simp [ha]))
  obtain ⟨h₂, hassign₂, hs₂, hkeep₂⟩ := assign_spec this hs₁ fun a ha =>
    hs₁.live (.inl (by simp [ha]))
  obtain ⟨h₃, hassign₃, hs₃, hkeep₃⟩ := assign_spec other hs₂ fun a ha =>
    hs₂.live (.inl (by simp [ha]))
  obtain ⟨h₄, hclear, hs₄, hkeep₄, -⟩ := clear_spec hs₃
  refine ⟨h₄, by simp [swap, hcopy, hassign₂, hassign₃, hclear], hs₄, ?_⟩
  exact (((hsame.keeps _).trans hkeep₂).trans hkeep₃).trans hkeep₄

lemma swapSelf_spec {h : Heap (Data D)} {this : Cell D} {kept : List ℕ}
    (hs : h.Sound (this.pointers ++ kept)) :
    ∃ h', swapSelf h this = some (h', this) ∧ h'.Sound (this.pointers ++ kept) ∧
      Keeps (this.pointers ++ kept) h h' := by
  obtain ⟨h₁, hcopy, hs₁, hsame⟩ := copy_spec (c := this) hs fun a ha =>
    hs.live (.inl (by simp [ha]))
  obtain ⟨h₂, hassign, hs₂, hkeep₂⟩ := assign_spec this hs₁ fun a ha =>
    hs₁.live (.inl (by simp [ha]))
  obtain ⟨h₃, hclear, hs₃, hkeep₃, -⟩ := clear_spec hs₂
  exact ⟨h₃, by simp [swapSelf, hcopy, hassign, hclear], hs₃,
    ((hsame.keeps _).trans hkeep₂).trans hkeep₃⟩

/-! ## Variables -/

/-- The number of variants that point to a block, those inside containers included -/
def State.pointersTo (s : State D) (a : ℕ) : ℕ :=
  (s.vars.flatMap Cell.pointers).count a + s.heap.pointers.count a

/-- The deep value of a variable -/
def State.Value (s : State D) (x : ℕ) (v : Variant D) : Prop :=
  ∃ c, s.vars[x]? = some c ∧ c.Denotes s.heap v

/-- The type of what a variable holds -/
def State.HasType (s : State D) (x : ℕ) (type : VType) : Prop :=
  ∃ c, s.vars[x]? = some c ∧ getType s.heap c = some type

/-- Counts are right, and a block is gone as soon as no variant points to it, and not before. -/
structure State.Counted (s : State D) : Prop where
  ref : ∀ a b, s.heap.get? a = some b → b.ref = s.pointersTo a
  gone : ∀ a, s.heap.get? a = none ↔ s.pointersTo a = 0

def State.Sound (s : State D) : Prop := s.heap.Sound (s.vars.flatMap Cell.pointers)

lemma State.Sound.counted {s : State D} (hs : s.Sound) : s.Counted where
  ref a b hb := by
    rw [State.pointersTo, ← Heap.Sound.count hs a, Heap.ref_of_get? hb]
  gone a := by
    rw [State.pointersTo, ← Heap.Sound.count hs a]
    cases hb : s.heap.get? a with
    | none => simp [Heap.ref, hb]
    | some b =>
      have hpos := Heap.Sound.pos hs a b hb
      simp only [reduceCtorEq, false_iff]
      rw [Heap.ref_of_get? hb]
      omega

/-- Every variable has a value. -/
lemma State.Sound.value {s : State D} (hs : s.Sound) {x : ℕ} (hx : x < s.vars.length) :
    ∃ v, s.Value x v := by
  have hget := List.getElem?_eq_getElem hx
  cases hc : s.vars[x] with
  | null => exact ⟨.null, .null, hc ▸ hget, rfl⟩
  | scalar c => exact ⟨c.value, .scalar c, hc ▸ hget, rfl⟩
  | block data =>
    rw [hc] at hget
    have hmem : data ∈ s.vars.flatMap Cell.pointers :=
      List.mem_flatMap.mpr ⟨_, List.mem_of_getElem? hget, List.mem_singleton_self data⟩
    obtain ⟨b, hb⟩ := Heap.Sound.live hs (.inl hmem)
    obtain ⟨v, hv⟩ := Heap.Sound.value hs data b hb
    exact ⟨v, .block data, hget, hv⟩

/-- The variables that a move may change -/
def Move.targets : Move D → List ℕ
  | .op x _ => [x]
  | .copy x _ => [x]
  | .swap x y => [x, y]

/-- The roots of the variables other than one of them -/
abbrev State.rest (s : State D) (x : ℕ) : List ℕ := (s.vars.eraseIdx x).flatMap Cell.pointers

lemma State.Sound.get {s : State D} (hs : s.Sound) {x : ℕ} {this : Cell D}
    (hx : s.vars[x]? = some this) : s.heap.Sound (this.pointers ++ s.rest x) :=
  Heap.Sound.perm hs (Heap.roots_perm Cell.pointers hx)

lemma State.Sound.set {s : State D} {x : ℕ} {this this' : Cell D} {heap : Heap (Data D)}
    (hx : s.vars[x]? = some this) (hs : heap.Sound (this'.pointers ++ s.rest x)) :
    State.Sound ⟨heap, s.vars.set x this'⟩ :=
  Heap.Sound.perm hs (Heap.roots_set_perm Cell.pointers hx this').symm

lemma State.Value.set {s : State D} {x y : ℕ} {this' : Cell D} {heap : Heap (Data D)}
    {v : Variant D} (hv : s.Value y v) (hne : y ≠ x) (hkeep : Keeps (s.rest x) s.heap heap) :
    State.Value ⟨heap, s.vars.set x this'⟩ y v := by
  obtain ⟨c, hy, hd⟩ := hv
  refine ⟨c, (List.getElem?_set_ne (Ne.symm hne)).trans hy, hd.keep hkeep fun a ha => ?_⟩
  exact Heap.mem_roots_of_ne hne hy ha

lemma State.others_pointers {s : State D} {x : ℕ} (r : Root) (c : Cell D)
    (hr : s.others x r = some c) : c.pointers ⊆ s.rest x := by
  cases r with
  | var y =>
    rw [State.others] at hr
    split_ifs at hr with hne
    exact fun a ha => Heap.mem_roots_of_ne hne hr ha
  | this => simp [State.others] at hr
  | item up i => simp [State.others] at hr

/-- When a program may do what it does next -/
def Move.Allowed (s : State D) : Move D → Prop
  | .op x f => ∀ this, s.vars[x]? = some this → f.Allowed s.heap this (s.rest x)
  | _ => True

/-- What a variable holds if it has the type of a block -/
lemma State.HasType.block {s : State D} {x : ℕ} {d : Data D} (htype : s.HasType x d.type)
    {v : Variant D} (hv : s.Value x v) : ∃ a b, s.vars[x]? = some (.block a) ∧
      s.heap.get? a = some b ∧ b.content.type = d.type ∧ s.heap.Denotes a v := by
  obtain ⟨c, hx, hc⟩ := htype
  obtain ⟨c', hx', hd⟩ := hv
  obtain rfl := Option.some_inj.mp (hx.symm.trans hx')
  cases c with
  | null => cases d <;> simp [getType, Data.type] at hc
  | scalar s => cases d <;> cases s <;> simp [getType, Data.type, Scalar.type] at hc
  | block a =>
    obtain ⟨b, hb, htype⟩ := Option.map_eq_some_iff.mp hc
    exact ⟨a, b, hx, hb, htype, hd⟩

/-- **A move** that is allowed succeeds, keeps the counts right and is invisible elsewhere. -/
theorem step_spec [DoubleText D] {s : State D} (hs : s.Sound) {m : Move D} (hallowed : m.Allowed s) :
    ∃ s', step s m = some s' ∧ s'.Sound ∧ s'.vars.length = s.vars.length ∧
      ∀ y v, y ∉ m.targets → s.Value y v → s'.Value y v := by
  cases m with
  | op x op =>
    cases hx : s.vars[x]? with
    | none => exact ⟨s, by simp [step, hx], hs, rfl, fun _ _ _ hv => hv⟩
    | some this =>
      obtain ⟨heap, this', hrun, hs', hkeep⟩ :=
        op.run_spec (hs.get hx) State.others_pointers (hallowed this hx)
      refine ⟨⟨heap, s.vars.set x this'⟩, by simp [step, hx, hrun], .set hx hs',
        List.length_set, fun y v hy hv => hv.set ?_ hkeep⟩
      simpa [Move.targets] using hy
  | copy x src =>
    cases hx : s.vars[x]? with
    | none => exact ⟨s, by simp [step, hx], hs, rfl, fun _ _ _ hv => hv⟩
    | some this =>
      cases hy : src.find (s.others x) s.heap with
      | none => exact ⟨s, by simp [step, hx, hy], hs, rfl, fun _ _ _ hv => hv⟩
      | some other =>
        obtain ⟨h₁, hclear, hs₁, hkeep₁, -⟩ := clear_spec (hs.get hx)
        obtain ⟨h₂, hcopy, hs₂, hsame⟩ := copy_spec hs₁ fun a ha =>
          hs₁.live_of_reach (hkeep₁.reach
            (find_reach State.others_pointers hy a ha)) (List.Subset.refl _)
        refine ⟨⟨h₂, s.vars.set x other⟩, by simp [step, hx, hy, hclear, hcopy],
          .set hx hs₂, List.length_set, fun z v hz hv =>
            hv.set ?_ (hkeep₁.trans (hsame.keeps _))⟩
        simpa [Move.targets] using hz
  | swap x y =>
    cases hx : s.vars[x]? with
    | none => exact ⟨s, by simp [step, hx], hs, rfl, fun _ _ _ hv => hv⟩
    | some this =>
      cases hy : s.vars[y]? with
      | none => exact ⟨s, by simp [step, hx, hy], hs, rfl, fun _ _ _ hv => hv⟩
      | some other =>
        by_cases hxy : x = y
        · subst hxy
          obtain rfl := Option.some_inj.mp (hx.symm.trans hy)
          obtain ⟨h', hrun, hs', hkeep⟩ := swapSelf_spec (hs.get hx)
          refine ⟨⟨h', s.vars.set x this⟩, by simp [step, hx, hrun], .set hx hs',
            List.length_set, fun z v hz hv =>
              hv.set ?_ (hkeep.mono (List.subset_append_right _ _))⟩
          simp only [Move.targets, List.mem_cons, not_or] at hz
          exact hz.1
        · obtain ⟨front, back, hsplit⟩ := List.append_of_mem
            (List.mem_eraseIdx_iff_getElem?.mpr ⟨y, Ne.symm hxy, hy⟩)
          have hroots : (s.vars.flatMap Cell.pointers).Perm (this.pointers ++
              (other.pointers ++ (front ++ back).flatMap Cell.pointers)) := by
            refine (Heap.roots_perm Cell.pointers hx).trans (.append_left _ ?_)
            rw [hsplit]
            exact List.perm_middle.flatMap_right Cell.pointers
          obtain ⟨h', hrun, hs', hkeep⟩ := swap_spec (Heap.Sound.perm hs hroots)
          have hperm := (Heap.perm_swap hxy hx hy).flatMap_right Cell.pointers
          refine ⟨⟨h', (s.vars.set x other).set y this⟩, by simp [step, hx, hy, hxy, hrun],
            hs'.perm (hperm.trans hroots).symm, by simp, fun z v hz hv => ?_⟩
          obtain ⟨c, hc, hd⟩ := hv
          simp only [Move.targets, List.mem_cons, List.not_mem_nil, or_false, not_or] at hz
          refine ⟨c, ?_, hd.keep hkeep fun a ha => hroots.mem_iff.mp ?_⟩
          · rw [List.getElem?_set_ne (Ne.symm hz.2), List.getElem?_set_ne (Ne.symm hz.1), hc]
          · exact List.mem_flatMap.mpr ⟨c, List.mem_of_getElem? hc, ha⟩

lemma sound_initial (n : ℕ) : (State.initial n : State D).Sound := by
  have hnone : (List.replicate n (Cell.null : Cell D)).flatMap Cell.pointers = [] := by
    simp [List.flatMap_replicate, Cell.pointers]
  rw [State.Sound, State.initial, hnone]
  exact .empty

/-- A program with `n` variables whose moves are allowed -/
def system [DoubleText D] (n : ℕ) : System (State D) (Move D) where
  initial s := s = State.initial n
  step s ms s' := ∃ m, m.Allowed s ∧ step s m = some s' ∧ ms = [m]

lemma sound_of_run [DoubleText D] {n : ℕ} {ms : List (Move D)} {s : State D}
    (h : (system n).Run ms s) : s.Sound ∧ s.vars.length = n := by
  induction h with
  | start hinitial => exact hinitial ▸ ⟨sound_initial n, by simp [State.initial]⟩
  | next _ hnext ih =>
    obtain ⟨hs, hlen⟩ := ih
    obtain ⟨m, hallowed, hm, -⟩ := hnext
    obtain ⟨s', hm', hs', hlen', -⟩ := step_spec hs hallowed
    obtain rfl := Option.some.inj (hm.symm.trans hm')
    exact ⟨hs', hlen'.trans hlen⟩

/-- `append`, or `insert` at a position -/
def append (k : Container) (i : ℕ) (root : Root) : Op (List UInt8) := .insert k i [] ⟨root, []⟩ false

end Sharing

end Nstd.Variant
