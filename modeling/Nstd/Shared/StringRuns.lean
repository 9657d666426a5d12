import Nstd.Shared.StringValues

/-!
# Sharing of strings is not visible

* `Op.run_yields`, `Init.run_yields` — what is done to a string comes to some bytes, in a block that is
  ended if the condition `Op.Ends` holds.
* `State.Value` — the bytes of a variable; `State.Sets` — a call gives one variable a value and leaves
  the others.
* `detach_spec` — after `detach` the string points to a block that is its own, and large enough.
* **`step_spec`** — a move succeeds, keeps the counts right and changes no other string.
-/

namespace Nstd.Strings

open Heap (Keeps SameContent Shrinks)

variable (memory : ℕ → ℕ → UInt8)

/-- What `detach` gives -/
def Detached (kept : List ℕ) (h : Heap Data) (this : Cell) (copyLength minCapacity : ℕ)
    (result : Option (Heap Data × ℕ)) : Prop :=
  ∃ h' data c, result = some (h', data) ∧ h'.get? data = some ⟨1, c⟩ ∧ c.len = copyLength ∧
    minCapacity ≤ c.capacity ∧ (lenOf h this = some copyLength → c.str[copyLength]? = some 0) ∧
      h'.Sound (data :: kept) ∧ Wf h' ∧ Keeps kept h h'

/-- **After `detach`** the string has a block that nothing else points to, of the length and at least
    of the capacity that were asked for.  If the length is the old one, it ends with a zero. -/
theorem detach_spec {h : Heap Data} {this : Cell} {kept : List ℕ} {copyLength minCapacity : ℕ}
    (hs : h.Sound (this.pointers ++ kept)) (hwf : Wf h) (hle : copyLength ≤ minCapacity) :
    Detached kept h this copyLength minCapacity (detach memory h this copyLength minCapacity) := by
  obtain ⟨v, hv⟩ := Cell.exists_shows hwf this fun a ha => hs.live (.inl (List.mem_append_left _ ha))
  obtain ⟨h', data, c, hrun, hb, hlen, hroom, -, hended, -, hs', hwf', hkeep⟩ :=
    detach_shows memory hs hwf hv hle
  refine ⟨h', data, c, hrun, hb, hlen, hroom, fun hsame => ?_, hs', hwf', hkeep⟩
  have hlength : v.length = copyLength := Option.some_inj.mp (hv.1.symm.trans hsame)
  have hzero : c.Ended := by
    refine hended ?_
    by_cases hne : v = []
    · exact Or.inr (Or.inl (by rw [← hlength, hne]; rfl))
    · exact Or.inl hne
  rwa [Data.Ended, hlen] at hzero

/-! ## Operations -/

/-- When the end of a string stays behind its bytes: an empty string is not made longer where it has no
    room of its own, and bytes are written in front of the end only. -/
def Op.Ends (h : Heap Data) (this : Cell) : Op → Prop
  | .resize length => lenOf h this ≠ some 0 ∨ length = 0 ∨ this.Fits h length
  | .write writes => ∀ n, lenOf h this = some n → ∀ w ∈ writes, w.1 < n
  | _ => True

/-- **An operation** succeeds, keeps the counts right, does not touch what is kept, and leaves a block
    that is ended if the string and the arguments were. -/
theorem Op.run_yields (arg : ℕ → Option Arg) {h : Heap Data} {this : Cell} {kept : List ℕ}
    (op : Op) (hs : h.Sound (this.pointers ++ kept)) (hwf : Wf h)
    (hargs : ∀ y a, arg y = some a → a.Kept kept) :
    ∃ u, Yields kept h (fun c => this.Has h Data.Ended →
      (∀ y a, arg y = some a → (a.cell this).Has h Data.Ended) → op.Ends h this → c.Ended) u
        (op.run memory arg h this) := by
  obtain ⟨v, hv⟩ := Cell.exists_shows hwf this fun a ha => hs.live (.inl (List.mem_append_left _ ha))
  have hnothing : ∃ u, Yields kept h (fun c => this.Has h Data.Ended →
      (∀ y a, arg y = some a → (a.cell this).Has h Data.Ended) → op.Ends h this → c.Ended) u
        (some (h, this)) :=
    ⟨v, h, this, rfl, hv, fun data hdata b hb hthis _ _ => hthis data hdata b hb, hs, hwf, .refl _ _⟩
  have hshown : ∀ y a, arg y = some a → ∃ w, (a.cell this).Shows h w := fun y a hy =>
    Cell.exists_shows hwf _ ((hargs y a hy).live this hs)
  cases op with
  | assign y =>
    cases hy : arg y with
    | none => simpa [Op.run, hy] using hnothing
    | some other =>
      obtain ⟨w, hw⟩ := hshown y other hy
      refine ⟨w, ?_⟩
      simp only [Op.run, hy]
      exact assign_yields memory hs hwf (hargs y other hy) hw
        (fun data hdata b hb _ hall _ => hall y other hy data hdata b hb) fun _ hc _ _ _ => hc
  | attach str => exact ⟨str, attach_yields str hs hwf _⟩
  | detach => exact ⟨v, (detachAll_yields memory hs hwf hv).mono fun _ hc _ _ _ => hc⟩
  | clear => exact ⟨[], (clear_yields hs hwf).mono fun _ hc _ _ _ => hc⟩
  | resize length =>
    obtain ⟨u, -, -, hyields⟩ := resize_yields memory length hs hwf hv
    refine ⟨u, hyields.mono fun c hc _ _ hends => hc.2 ?_⟩
    refine hends.imp_left fun hlen hnil => hlen ?_
    rw [hv.1, hnil]
    rfl
  | reserve size => exact ⟨v, (reserve_yields memory size hs hwf hv).mono fun _ hc _ _ _ => hc⟩
  | append y =>
    cases hy : arg y with
    | none => simpa [Op.run, hy] using hnothing
    | some str =>
      obtain ⟨w, hw⟩ := hshown y str hy
      refine ⟨v ++ w, ?_⟩
      simp only [Op.run, hy]
      exact (append_yields memory hs hwf (hargs y str hy) hv hw).mono fun _ hc _ _ _ => hc
  | appendBytes str =>
    exact ⟨v ++ str, (appendBytes_yields memory str hs hwf hv).mono fun _ hc _ _ _ => hc⟩
  | prepend y =>
    cases hy : arg y with
    | none => simpa [Op.run, hy] using hnothing
    | some str =>
      obtain ⟨w, hw⟩ := hshown y str hy
      obtain ⟨u, hyields, -⟩ := prepend_yields memory hs hwf (hargs y str hy) hv hw
      refine ⟨u, ?_⟩
      simp only [Op.run, hy]
      exact hyields.mono fun _ hc _ _ _ => hc
  | prependBytes str =>
    exact ⟨str ++ v, (prependBytes_yields memory str hs hwf hv).mono fun _ hc _ _ _ => hc⟩
  | toLowerCase =>
    exact ⟨_, (replaceWith_yields memory _ hs hwf hv).mono fun _ hc _ _ _ => hc⟩
  | toUpperCase =>
    exact ⟨_, (replaceWith_yields memory _ hs hwf hv).mono fun _ hc _ _ _ => hc⟩
  | replace needle replacement =>
    exact ⟨_, (replaceWith_yields memory _ hs hwf hv).mono fun _ hc _ _ _ => hc⟩
  | write writes =>
    obtain ⟨u, -, hyields⟩ := writeBytes_yields memory writes hs hwf hv
    exact ⟨u, hyields.mono fun _ hc _ _ hends => hc (hends _ hv.1)⟩

/-! ## Variables -/

/-- The pointer of a variable -/
def pointersOf (c : Option Cell) : List ℕ := c.elim [] Cell.pointers

/-- The bytes of a string -/
def State.Value (s : State) (x : ℕ) (v : List UInt8) : Prop :=
  ∃ c len str, s.get x = some c ∧ lenOf s.heap c = some len ∧ strOf s.heap c = some str ∧
    v = str.take len

/-- What holds of the block of a variable, if it has one -/
def State.Has (s : State) (x : ℕ) (p : Data → Prop) : Prop := ∀ c, s.get x = some c → c.Has s.heap p

/-- The number of strings that point to a block -/
def State.pointersTo (s : State) (a : ℕ) : ℕ := (s.vars.flatMap pointersOf).count a

/-- Counts are right, and a block is gone as soon as no string points to it, and not before. -/
structure State.Counted (s : State) : Prop where
  ref : ∀ a b, s.heap.get? a = some b → b.ref = s.pointersTo a
  gone : ∀ a, s.heap.get? a = none ↔ s.pointersTo a = 0

/-- Counts are right, and blocks are large enough. -/
structure State.Sound (s : State) : Prop where
  heap : s.heap.Sound (s.vars.flatMap pointersOf)
  wf : Wf s.heap

lemma State.Sound.counted {s : State} (hs : s.Sound) : s.Counted := by
  have hcount : ∀ a, s.heap.ref a = s.pointersTo a := by
    intro a
    have hnone : s.heap.pointers = [] := by
      refine List.flatMap_eq_nil_iff.mpr fun b _ => ?_
      cases b <;> rfl
    rw [hs.heap.count a, hnone, State.pointersTo]
    rfl
  refine ⟨fun a b hb => ?_, fun a => ?_⟩
  · rw [← hcount, Heap.ref_of_get? hb]
  · rw [← hcount]
    cases hb : s.heap.get? a with
    | none => simp [Heap.ref, hb]
    | some b =>
      have hpos := hs.heap.pos a b hb
      rw [Heap.ref_of_get? hb]
      simp only [reduceCtorEq, false_iff]
      omega

lemma State.vars_of_get {s : State} {x : ℕ} {c : Cell} (hx : s.get x = some c) :
    s.vars[x]? = some (some c) := by
  cases hc : s.vars[x]? with
  | none => simp [State.get, hc] at hx
  | some o =>
    obtain rfl : o = some c := by simpa [State.get, hc] using hx
    rfl

/-- The block of a variable is there. -/
lemma State.Sound.live {s : State} (hs : s.Sound) {x : ℕ} {c : Cell} (hx : s.get x = some c) :
    ∀ a ∈ c.pointers, ∃ b, s.heap.get? a = some b := fun _ ha =>
  hs.heap.live (.inl (List.mem_flatMap.mpr
    ⟨some c, List.mem_of_getElem? (State.vars_of_get hx), ha⟩))

/-- The bytes of a variable are those that its string shows. -/
lemma State.Sound.value_iff {s : State} (hs : s.Sound) {x : ℕ} {v : List UInt8} :
    s.Value x v ↔ ∃ c, s.get x = some c ∧ c.Shows s.heap v := by
  refine ⟨?_, ?_⟩
  · rintro ⟨c, len, str, hx, hlen, hstr, rfl⟩
    obtain ⟨v, hv⟩ := Cell.exists_shows hs.wf c (hs.live hx)
    obtain ⟨hlen', str', hstr', hbegins⟩ := id hv
    obtain rfl := Option.some.inj (hlen.symm.trans hlen')
    obtain rfl := Option.some.inj (hstr.symm.trans hstr')
    rw [← List.prefix_iff_eq_take.mp hbegins]
    exact ⟨c, hx, hv⟩
  · rintro ⟨c, hx, hlen, str, hstr, hbegins⟩
    exact ⟨c, v.length, str, hx, hlen, hstr, List.prefix_iff_eq_take.mp hbegins⟩

/-- Every string has a value. -/
lemma State.Sound.value {s : State} (hs : s.Sound) {x : ℕ} {c : Cell} (hx : s.get x = some c) :
    ∃ v, s.Value x v := by
  obtain ⟨v, hv⟩ := Cell.exists_shows hs.wf c (hs.live hx)
  exact ⟨v, hs.value_iff.mpr ⟨c, hx, hv⟩⟩

lemma State.Value.unique {s : State} {x : ℕ} {v w : List UInt8} (hv : s.Value x v)
    (hw : s.Value x w) : v = w := by
  obtain ⟨c, len, str, hx, hlen, hstr, rfl⟩ := hv
  obtain ⟨c', len', str', hx', hlen', hstr', rfl⟩ := hw
  obtain rfl := Option.some.inj (hx.symm.trans hx')
  rw [Option.some.inj (hlen.symm.trans hlen'), Option.some.inj (hstr.symm.trans hstr')]

/-- The roots of the variables other than one of them -/
abbrev State.rest (s : State) (x : ℕ) : List ℕ := (s.vars.eraseIdx x).flatMap pointersOf

lemma State.Sound.at {s : State} (hs : s.Sound) {x : ℕ} {c : Option Cell}
    (hx : s.vars[x]? = some c) : s.heap.Sound (pointersOf c ++ s.rest x) :=
  hs.heap.perm (Heap.roots_perm pointersOf hx)

lemma State.Sound.set {s : State} {x : ℕ} {c : Option Cell} (c' : Option Cell) {heap : Heap Data}
    (hx : s.vars[x]? = some c) (hs : heap.Sound (pointersOf c' ++ s.rest x)) (hwf : Wf heap) :
    State.Sound ⟨heap, s.vars.set x c'⟩ :=
  ⟨hs.perm (Heap.roots_set_perm pointersOf hx c').symm, hwf⟩

lemma State.arg_kept {s : State} {x y : ℕ} {a : Arg} (ha : s.arg x y = some a) : a.Kept (s.rest x) := by
  rw [State.arg] at ha
  split_ifs at ha with hne
  · obtain rfl := Option.some_inj.mp ha
    trivial
  · obtain ⟨c, hc, rfl⟩ := Option.map_eq_some_iff.mp ha
    exact fun a ha => Heap.mem_roots_of_ne hne (State.vars_of_get hc) ha

/-- The string of an argument is that of its variable. -/
lemma State.arg_cell {s : State} {x y : ℕ} {a : Arg} {this : Cell} (hx : s.get x = some this)
    (ha : s.arg x y = some a) : s.get y = some (a.cell this) := by
  rw [State.arg] at ha
  split_ifs at ha with hne
  · obtain rfl := Option.some_inj.mp ha
    rw [hne]
    exact hx
  · obtain ⟨c, hc, rfl⟩ := Option.map_eq_some_iff.mp ha
    exact hc

/-- **A call leaves variables** other than `x` and keeps the counts right. -/
structure State.Leaves (s : State) (x : ℕ) (s' : State) : Prop where
  sound : s'.Sound
  length : s'.vars.length = s.vars.length
  get : ∀ y, y ≠ x → s'.get y = s.get y
  value : ∀ y v, y ≠ x → s.Value y v → s'.Value y v
  has : ∀ y p, y ≠ x → s.Has y p → s'.Has y p

/-- **A call gives a variable** certain bytes, in a block of which something holds if it is in a block. -/
structure State.Sets (s : State) (x : ℕ) (p : Data → Prop) (v : List UInt8) (s' : State) :
    Prop extends State.Leaves s x s' where
  sets : s'.Value x v
  block : s'.Has x p

lemma State.Sound.leaves_self {s : State} (hs : s.Sound) (x : ℕ) : s.Leaves x s :=
  ⟨hs, rfl, fun _ _ => rfl, fun _ _ _ hv => hv, fun _ _ _ hp => hp⟩

lemma State.Leaves.trans {s₁ s₂ s₃ : State} {x : ℕ} (h : s₁.Leaves x s₂) (h' : s₂.Leaves x s₃) :
    s₁.Leaves x s₃ :=
  ⟨h'.sound, h'.length.trans h.length, fun y hy => (h'.get y hy).trans (h.get y hy),
    fun y v hy hv => h'.value y v hy (h.value y v hy hv),
    fun y p hy hp => h'.has y p hy (h.has y p hy hp)⟩

/-- One variable gets another string. -/
lemma State.Sound.leaves {s : State} (hs : s.Sound) {x : ℕ} {c : Option Cell} (c' : Option Cell)
    {heap : Heap Data} (hx : s.vars[x]? = some c) (hs' : heap.Sound (pointersOf c' ++ s.rest x))
    (hwf : Wf heap) (hkeep : Keeps (s.rest x) s.heap heap) :
    s.Leaves x ⟨heap, s.vars.set x c'⟩ := by
  have hsound : State.Sound ⟨heap, s.vars.set x c'⟩ := .set c' hx hs' hwf
  have hget : ∀ y, y ≠ x → State.get ⟨heap, s.vars.set x c'⟩ y = s.get y := by
    intro y hy
    rw [State.get, State.get, List.getElem?_set_ne (Ne.symm hy)]
  have hkept : ∀ y c, y ≠ x → s.get y = some c → c.pointers ⊆ s.rest x := fun y c hy hc a ha =>
    Heap.mem_roots_of_ne hy (State.vars_of_get hc) ha
  refine ⟨hsound, List.length_set, hget, fun y v hy hv => ?_, fun y p hy hp c hc => ?_⟩
  · obtain ⟨c, hc, hshows⟩ := hs.value_iff.mp hv
    exact hsound.value_iff.mpr ⟨c, (hget y hy).trans hc, hshows.keep hkeep (hkept y c hy hc)⟩
  · rw [hget y hy] at hc
    exact (hp c hc).keep hkeep (hkept y c hy hc) (hs.live hc)

lemma State.get_set {s : State} {heap : Heap Data} {x : ℕ} {c : Option Cell} (c' : Option Cell)
    (hx : s.vars[x]? = some c) : State.get ⟨heap, s.vars.set x c'⟩ x = c' := by
  rw [State.get, List.getElem?_set_self (List.getElem?_eq_some_iff.mp hx).1]
  rfl

/-- What a function yields is the string of the variable after the call. -/
lemma State.Sound.sets {s : State} (hs : s.Sound) {x : ℕ} {c : Option Cell} {p : Data → Prop}
    {v : List UInt8} {result : Option (Heap Data × Cell)} (hx : s.vars[x]? = some c)
    (hy : Yields (s.rest x) s.heap p v result) : ∃ heap this, result = some (heap, this)
      ∧ s.Sets x p v ⟨heap, s.vars.set x (some this)⟩ := by
  obtain ⟨heap, this, hrun, hv, hp, hs', hwf, hkeep⟩ := hy
  have hleaves := hs.leaves (some this) hx hs' hwf hkeep
  have hget := @State.get_set s heap x c (some this) hx
  refine ⟨heap, this, hrun, hleaves, hleaves.sound.value_iff.mpr ⟨this, hget, hv⟩, fun c' hc' => ?_⟩
  obtain rfl := Option.some.inj (hget.symm.trans hc')
  exact hp

/-- **A string is constructed**, with a block that is like those of the other strings. -/
lemma Init.run_spec {s : State} {roots : List ℕ} (init : Init) (hs : s.heap.Sound roots)
    (hwf : Wf s.heap)
    (hlive : ∀ y c, s.get y = some c → ∀ a ∈ c.pointers, ∃ b, s.heap.get? a = some b) :
    ∃ heap this, init.run memory s = some (heap, this) ∧ heap.Sound (pointersOf this ++ roots) ∧
      Wf heap ∧ Keeps roots s.heap heap
        ∧ ((∀ y, s.Has y Data.Ended) → ∀ c, this = some c → c.Has heap Data.Ended) := by
  have hyields : ∀ {v : List UInt8} {p : Data → Prop} {result : Option (Heap Data × Cell)},
      ((∀ y, s.Has y Data.Ended) → ∀ c, p c → c.Ended) → Yields roots s.heap p v result →
        ∃ heap this, (result.bind fun made => some (made.1, some made.2)) = some (heap, this)
          ∧ heap.Sound (pointersOf this ++ roots) ∧ Wf heap ∧ Keeps roots s.heap heap
          ∧ ((∀ y, s.Has y Data.Ended) → ∀ c, this = some c → c.Has heap Data.Ended) := by
    rintro v p _ hp ⟨heap, this, rfl, -, hhas, hs', hwf', hkeep⟩
    refine ⟨heap, some this, rfl, hs', hwf', hkeep, fun hall c hc => ?_⟩
    obtain rfl := Option.some.inj hc
    exact hhas.mono (hp hall)
  cases init with
  | default =>
    refine ⟨s.heap, some .empty, rfl, hs, hwf, .refl _ _, fun _ c hc => ?_⟩
    obtain rfl := Option.some.inj hc
    exact Cell.has_of_pointers rfl
  | attach str =>
    refine ⟨s.heap, some (.attached str), rfl, hs, hwf, .refl _ _, fun _ c hc => ?_⟩
    obtain rfl := Option.some.inj hc
    exact Cell.has_of_pointers rfl
  | copy y =>
    cases hy : s.get y with
    | none =>
      exact ⟨s.heap, none, by simp [Init.run, hy], hs, hwf, .refl _ _,
        fun _ c hc => absurd hc (Option.some_ne_none c).symm⟩
    | some c =>
      obtain ⟨v, hv⟩ := Cell.exists_shows hwf c (hlive y c hy)
      simp only [Init.run, hy]
      refine hyields (p := fun d => (∀ y, s.Has y Data.Ended) → d.Ended) (fun hall d hd => hd hall)
        (copy_yields memory hs hwf (hlive y c hy) hv (fun data hdata b hb hall => ?_)
          fun _ hd _ => hd)
      exact hall y c hy data hdata b hb
  | ofBytes str => exact hyields (fun _ _ hc => hc) (ofBytes_yields memory str hs hwf)
  | ofChar length c => exact hyields (fun _ _ hc => hc) (ofChar_yields memory length c hs hwf)
  | ofCapacity capacity => exact hyields (fun _ _ hc => hc) (ofCapacity_yields memory capacity hs hwf)

/-- When the ends of all strings stay behind their bytes -/
def Move.Ends (s : State) : Move → Prop
  | .op x operation => ∀ this, s.get x = some this → operation.Ends s.heap this
  | _ => True

/-- **A move** succeeds, keeps the counts right and changes no other string. -/
theorem step_spec {s : State} (hs : s.Sound) (m : Move) :
    ∃ s', step memory s m = some s' ∧ s.Leaves m.target s'
      ∧ ((∀ y, s.Has y Data.Ended) → m.Ends s → s'.Has m.target Data.Ended) := by
  have hnothing : s.Leaves m.target s
      ∧ ((∀ y, s.Has y Data.Ended) → m.Ends s → s.Has m.target Data.Ended) :=
    ⟨hs.leaves_self _, fun hall _ => hall _⟩
  cases m with
  | construct x init =>
    by_cases hx : s.vars[x]? = some none
    · obtain ⟨heap, this, hrun, hs', hwf', hkeep, hended⟩ :=
        Init.run_spec memory init (hs.at hx) hs.wf fun y c hy => hs.live hy
      refine ⟨⟨heap, s.vars.set x this⟩, by simp [step, hx, hrun],
        hs.leaves this hx hs' hwf' hkeep, fun hall _ c hc => ?_⟩
      rw [Move.target, State.get_set this hx] at hc
      exact hended hall c hc
    · exact ⟨s, by simp [step, hx], hnothing⟩
  | op x op =>
    cases hx : s.get x with
    | none => exact ⟨s, by simp [step, hx], hnothing⟩
    | some this =>
      have hvar := State.vars_of_get hx
      obtain ⟨u, hyields⟩ := Op.run_yields memory (s.arg x) op (hs.at hvar) hs.wf
        fun y a => State.arg_kept
      obtain ⟨heap, this', hrun, hsets⟩ := hs.sets hvar hyields
      refine ⟨⟨heap, s.vars.set x (some this')⟩, by simp [step, hx, hrun], hsets.toLeaves,
        fun hall hends c hc => ?_⟩
      refine (hsets.block c hc).mono fun d hd => hd (hall x this hx) (fun y a ha => ?_) (hends this hx)
      exact hall y _ (State.arg_cell hx ha)
  | destroy x =>
    cases hx : s.get x with
    | none => exact ⟨s, by simp [step, hx], hnothing⟩
    | some this =>
      have hvar := State.vars_of_get hx
      obtain ⟨heap, hrun, hs', hwf', hkeep, -⟩ := release_spec this (hs.at hvar) hs.wf
      refine ⟨⟨heap, s.vars.set x none⟩, by simp [step, hx, hrun],
        hs.leaves none hvar hs' hwf' hkeep, fun _ _ c hc => ?_⟩
      rw [Move.target, State.get_set none hvar] at hc
      exact nomatch hc

/-- What a move that was made leaves -/
lemma State.Sound.leaves_of_step {s s' : State} (hs : s.Sound) {m : Move}
    (h : step memory s m = some s') : s.Leaves m.target s' := by
  obtain ⟨s'', hstep, hleaves, -⟩ := step_spec memory hs m
  obtain rfl := Option.some.inj (h.symm.trans hstep)
  exact hleaves

lemma State.Sound.initial (n : ℕ) : (State.initial n).Sound := by
  have hnone : (State.initial n).vars.flatMap pointersOf = [] := by
    simp [State.initial, List.flatMap_replicate, pointersOf]
  refine ⟨?_, fun a b hb => ?_⟩
  · rw [hnone]
    exact .empty
  · simp [State.initial, Heap.empty, Heap.get?] at hb

/-- The states that moves lead to -/
lemma State.Sound.run {n : ℕ} (ms : List Move) :
    ∃ s : State, ms.foldlM (step memory) (State.initial n) = some s ∧ s.Sound := by
  refine exists_foldlM (fun s m hs => ?_) ms (State.Sound.initial n)
  obtain ⟨s', hm, hleaves, -⟩ := step_spec memory hs m
  exact ⟨s', hm, hleaves.sound⟩

end Nstd.Strings
