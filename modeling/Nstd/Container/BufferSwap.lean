import Mathlib.Logic.Equiv.Basic
import Nstd.Container.BufferRuns

/-!
# Several `Buffer`s

* `swap` — the code.
* `Objects`, `Action`, `Action.run` — several objects, and what is done to them.
* `area`, `Uses`, `Separate` — memory is for the fields of one object or for the block of one.
* `Own`, `Tidy` — pointers of a `Buffer` are in its own block or at its own `_capacity`.
* `Keeps` — when a `swap` exchanges blocks only.
* **`tidy_iff`** — in every run in which every `swap` does, no pointer is in another `Buffer`, and
  what is done to one leaves the others alone; any other `swap` breaks that.
* `swap_untidy` — a `swap` with a `Buffer` that has no block.

A `Buffer` without a block points at its own field `_capacity`, and `swap` hands such a pointer to the
other object.
-/

namespace Nstd

/-- `swap`: all fields are exchanged, pointers as they are. -/
def Buffer.swap (b other : Buffer) : Buffer × Buffer :=
  ({ b with
      buffer := other.buffer, attached := other.attached, bufferStart := other.bufferStart,
      bufferEnd := other.bufferEnd, capacity := other.capacity },
    { other with
      buffer := b.buffer, attached := b.attached, bufferStart := b.bufferStart,
      bufferEnd := b.bufferEnd, capacity := b.capacity })

namespace Buffers

open Buffer

/-- Objects by number; one that was not constructed, or was destroyed, is `none`. -/
abbrev Objects := ℕ → Option Buffer

/-- What is done to the objects.  Bytes that an operation reads may be those of any of them. -/
inductive Action
  | own (i : ℕ) (op : Op)
  | swap (i j : ℕ)
  | destroy (i : ℕ)

/-- The objects that are meant -/
def Action.operands : Action → List ℕ
  | .own i _ => [i]
  | .swap i j => [i, j]
  | .destroy i => [i]

/-- One action.  `none` is also an access to memory that is not in the block of the object. -/
def Action.run (A : Allocator) (w : Objects) : Action → Option Objects
  | .own i op => do
    let b ← op.run A (w i)
    some (Function.update w i (some b))
  | .swap i j => do
    let b ← w i
    let other ← w j
    let (b, other) := b.swap other
    some (Function.update (Function.update w i (some b)) j (some other))
  | .destroy i => do
    let _ ← w i
    some (Function.update w i none)

/-! ## Memory -/

/-- Parts of memory: the fields of an object, and its block -/
inductive Area
  | fields (i : ℕ)
  | block (i : ℕ)

/-- Where an object is that has its `_capacity` there: four fields of 8 bytes, of which it is the
    last -/
def fieldsPlace (capacityField : ℕ) : ℕ × ℕ := (capacityField - 24, 32)

/-- The address of an area, and its number of bytes -/
def area (w : Objects) : Area → Option (ℕ × ℕ)
  | .fields i => (w i).map fun b => fieldsPlace b.capacityField
  | .block i => (w i).bind blockPlace

/-- An address is one of those of a place. -/
def Within (p : ℕ × ℕ) (addr : ℕ) : Prop := p.1 ≤ addr ∧ addr < p.1 + p.2

/-- The byte at an address belongs to an area. -/
def Uses (w : Objects) (x : Area) (addr : ℕ) : Prop := ∃ p ∈ area w x, Within p addr

/-- **No byte belongs to two areas.** -/
def Separate (w : Objects) : Prop := ∀ x y addr, Uses w x addr → Uses w y addr → x = y

/-- A place of which no byte belongs to an area, but for one -/
def Free (w : Objects) (p : ℕ × ℕ) (own : Area) : Prop :=
  ∀ x addr, Uses w x addr → Within p addr → x = own

/-- What is given to an operation is free: the place of an object that is constructed, and a block.
    A block may be where that of the object was, which is deleted. -/
structure Grants (A : Allocator) (w : Objects) (i : ℕ) (op : Op) : Prop where
  object : ∀ f ∈ op.place, Free w (fieldsPlace f) (.fields i)
  block : ∀ n ∈ op.request (w i), Free w (A.address n, n) (.block i)
  apart : ∀ f ∈ op.place, ∀ n ∈ op.request (w i), ∀ addr, Within (fieldsPlace f) addr →
    ¬ Within (A.address n, n) addr

/-! ## Pointers -/

/-- **The pointers of a `Buffer`** are in its own block or, while it has none and is empty, at its own
    `_capacity`. -/
def Own (b : Buffer) : Prop :=
  match b.buffer with
  | some k => k.address ≤ b.bufferStart ∧ b.bufferStart ≤ b.bufferEnd
      ∧ b.bufferEnd < k.address + k.bytes.length
  | none => b.bufferStart = b.capacityField ∧ b.bufferEnd = b.capacityField

/-- The addresses that a `Buffer` has -/
def pointers (b : Buffer) : List ℕ :=
  b.bufferStart :: b.bufferEnd :: (b.buffer.map MemoryBlock.address).toList

/-- Every `Buffer` has its own pointers, and none to what would go with another one. -/
structure Tidy (w : Objects) : Prop where
  own : ∀ i, ∀ b ∈ w i, Own b
  others : ∀ i j, i ≠ j → ∀ b ∈ w j, ∀ addr ∈ pointers b,
    ¬ Uses w (.fields i) addr ∧ ¬ Uses w (.block i) addr

/-- What every action keeps: every `Buffer` holds bytes, and memory is separate. -/
structure Holding (w : Objects) : Prop where
  holds : ∀ i, ∀ b ∈ w i, ∃ l, b.Holds l
  separate : Separate w

lemma within_fieldsPlace (f : ℕ) : Within (fieldsPlace f) f :=
  ⟨Nat.sub_le f 24, by rw [fieldsPlace]; omega⟩

lemma own_of_holds {b : Buffer} {l : List UInt8} (h : b.Holds l) : Own b := by
  cases h with
  | null hf => exact ⟨rfl, rfl⟩
  | @laid f a gap l room hf ha hroom hle =>
    refine ⟨Nat.le_add_right _ _, Nat.le_add_right _ _, ?_⟩
    change a + gap.length + l.length < a + (gap ++ l ++ room).length
    rw [List.length_append, List.length_append]
    omega

/-- The pointers of a `Buffer` are in one of its own areas. -/
lemma pointers_own {w : Objects} {j : ℕ} {b : Buffer} (hb : b ∈ w j) {l : List UInt8}
    (h : b.Holds l) {addr : ℕ} (haddr : addr ∈ pointers b) :
    Uses w (.fields j) addr ∨ Uses w (.block j) addr := by
  rw [Option.mem_def] at hb
  cases h with
  | @null f hf =>
    left
    refine ⟨fieldsPlace f, by rw [area, hb]; rfl, ?_⟩
    have heq : addr = f := by simpa [pointers, null] using haddr
    rw [heq]
    exact within_fieldsPlace f
  | @laid f a gap l room hf ha hroom hle =>
    right
    refine ⟨(a, (gap ++ l ++ room).length), by rw [area, hb]; rfl, ?_⟩
    have hcases : addr = a + gap.length ∨ addr = a + gap.length + l.length ∨ addr = a := by
      simpa [pointers] using haddr
    rw [Within, List.length_append, List.length_append]
    dsimp only
    omega

lemma Holding.tidy {w : Objects} (h : Holding w) : Tidy w := by
  refine ⟨fun i b hb => ?_, fun i j hne b hb addr haddr => ?_⟩
  · obtain ⟨l, hl⟩ := h.holds i b hb
    exact own_of_holds hl
  · obtain ⟨l, hl⟩ := h.holds j b hb
    have hnot : ∀ x, x ≠ .fields j → x ≠ .block j → ¬ Uses w x addr := by
      intro x hfields hblock hx
      rcases pointers_own hb hl haddr with hj | hj
      · exact hfields (h.separate _ _ addr hx hj)
      · exact hblock (h.separate _ _ addr hx hj)
    exact ⟨hnot _ (by simp [hne]) (by simp), hnot _ (by simp) (by simp [hne])⟩

/-! ## Separate memory -/

/-- Areas that are renamed stay separate. -/
lemma Separate.renamed {w w' : Objects} (h : Separate w) {ρ : Area → Area}
    (hρ : Function.Injective ρ) (hle : ∀ x, ∀ p ∈ area w' x, p ∈ area w (ρ x)) : Separate w' := by
  rintro x y addr ⟨p, hp, hin⟩ ⟨q, hq, hin'⟩
  exact hρ (h _ _ addr ⟨p, hle x p hp, hin⟩ ⟨q, hle y q hq, hin'⟩)

/-- Areas that are added in free places, and apart from each other, are separate from the others. -/
lemma Separate.added {w w' : Objects} (h : Separate w) {new : Area → ℕ × ℕ → Prop}
    (hle : ∀ x, ∀ p ∈ area w' x, p ∈ area w x ∨ new x p) (hfree : ∀ x p, new x p → Free w p x)
    (hapart : ∀ x y p q, new x p → new y q → x ≠ y → ∀ addr, Within p addr → ¬ Within q addr) :
    Separate w' := by
  rintro x y addr ⟨p, hp, hin⟩ ⟨q, hq, hin'⟩
  rcases hle x p hp with hold | hnew
  · rcases hle y q hq with hold' | hnew'
    · exact h x y addr ⟨p, hold, hin⟩ ⟨q, hold', hin'⟩
    · exact hfree y q hnew' x addr ⟨p, hold, hin⟩ hin'
  · rcases hle y q hq with hold' | hnew'
    · exact (hfree x p hnew y addr ⟨q, hold', hin'⟩ hin).symm
    · by_contra hne
      exact hapart x y p q hnew hnew' hne addr hin hin'

/-- The areas that an operation is given -/
def Granted (A : Allocator) (w : Objects) (i : ℕ) (op : Op) : Area → ℕ × ℕ → Prop
  | .fields j, p => j = i ∧ ∃ f ∈ op.place, p = fieldsPlace f
  | .block j, p => j = i ∧ ∃ n ∈ op.request (w i), p = (A.address n, n)

lemma area_own {A : Allocator} {w : Objects} {i : ℕ} {op : Op} {b' : Buffer}
    (h : op.run A (w i) = some b') (x : Area) {p : ℕ × ℕ}
    (hp : p ∈ area (Function.update w i (some b')) x) : p ∈ area w x ∨ Granted A w i op x p := by
  cases x with
  | fields j =>
    by_cases hj : j = i
    · subst hj
      rw [area, Function.update_self, Option.map_some] at hp
      obtain rfl := Option.some_inj.mp hp
      cases hw : w j with
      | none =>
        rw [hw] at h
        obtain ⟨f, hf, hmoves⟩ := run_made h
        have hfield : b'.capacityField = f := hmoves.1
        exact Or.inr ⟨rfl, f, hf, by rw [hfield]⟩
      | some b =>
        rw [hw] at h
        left
        rw [area, hw, (run_moves h).1]
        rfl
    · rw [area, Function.update_of_ne hj] at hp
      exact Or.inl hp
  | block j =>
    by_cases hj : j = i
    · subst hj
      rw [area, Function.update_self, Option.bind_some] at hp
      cases hw : w j with
      | none =>
        rw [hw] at h
        obtain ⟨f, -, hmoves⟩ := run_made h
        rcases hmoves.2 p hp with hnone | hnew
        · exact absurd hnone.symm (Option.some_ne_none p)
        · exact Or.inr ⟨rfl, by rw [hw]; exact hnew⟩
      | some b =>
        rw [hw] at h
        refine ((run_moves h).2 p hp).imp (fun hold => ?_) fun hnew => ⟨rfl, by rw [hw]; exact hnew⟩
        rw [area, hw]
        exact hold
    · rw [area, Function.update_of_ne hj] at hp
      exact Or.inl hp

/-- The memory of an object after an operation is its own. -/
lemma Separate.own {A : Allocator} {w : Objects} (h : Separate w) {i : ℕ} {op : Op} {b' : Buffer}
    (hgrants : Grants A w i op) (hrun : op.run A (w i) = some b') :
    Separate (Function.update w i (some b')) := by
  refine h.added (fun x p hp => area_own hrun x hp) ?_ ?_
  · rintro (j | j) p ⟨rfl, hp⟩
    · obtain ⟨f, hf, rfl⟩ := hp
      exact hgrants.object f hf
    · obtain ⟨n, hn, rfl⟩ := hp
      exact hgrants.block n hn
  · rintro (j | j) (k | k) p q ⟨rfl, hp⟩ ⟨hk, hq⟩ hne addr hin hin'
    · exact hne (by rw [hk])
    · obtain ⟨f, hf, rfl⟩ := hp
      obtain ⟨n, hn, rfl⟩ := hq
      exact hgrants.apart f hf n hn addr hin hin'
    · obtain ⟨n, hn, rfl⟩ := hp
      obtain ⟨f, hf, rfl⟩ := hq
      exact hgrants.apart f hf n hn addr hin' hin
    · exact hne (by rw [hk])

/-- What a `swap` does to areas: the blocks are those of the other object. -/
def exchange (i j : ℕ) : Area → Area
  | .fields k => .fields k
  | .block k => .block (Equiv.swap i j k)

lemma exchange_injective (i j : ℕ) : Function.Injective (exchange i j) := by
  rintro (k | k) (m | m) h
  · exact h
  · exact absurd h (by simp [exchange])
  · exact absurd h (by simp [exchange])
  · have hk : Equiv.swap i j k = Equiv.swap i j m := by simpa [exchange] using h
    rw [(Equiv.swap i j).injective hk]

/-- The objects after a `swap` of two -/
def swapped (w : Objects) (i j : ℕ) (b c : Buffer) : Objects :=
  Function.update (Function.update w i (some (b.swap c).1)) j (some (b.swap c).2)

section Swapped

variable {w : Objects} {i j : ℕ} {b c : Buffer}

lemma run_swap (A : Allocator) (hb : w i = some b) (hc : w j = some c) :
    (Action.swap i j).run A w = some (swapped w i j b c) := by
  rw [Action.run, hb, hc]
  rfl

lemma swapped_right : swapped w i j b c j = some (b.swap c).2 := Function.update_self ..

lemma swapped_left (hne : i ≠ j) : swapped w i j b c i = some (b.swap c).1 := by
  rw [swapped, Function.update_of_ne hne, Function.update_self]

lemma swapped_other {k : ℕ} (hi : k ≠ i) (hj : k ≠ j) : swapped w i j b c k = w k := by
  rw [swapped, Function.update_of_ne hj, Function.update_of_ne hi]

lemma swapped_same (hb : w i = some b) : swapped w i i b b = w := by
  funext k
  by_cases hk : k = i
  · rw [hk, swapped_right, hb]
    rfl
  · exact swapped_other hk hk

lemma area_swapped (hb : w i = some b) (hc : w j = some c) (hne : i ≠ j) (x : Area) :
    area (swapped w i j b c) x = area w (exchange i j x) := by
  cases x with
  | fields k =>
    rw [exchange, area, area]
    by_cases hj : k = j
    · rw [hj, swapped_right, hc]
      rfl
    · by_cases hi : k = i
      · rw [hi, swapped_left hne, hb]
        rfl
      · rw [swapped_other hi hj]
  | block k =>
    rw [exchange, area, area]
    by_cases hj : k = j
    · rw [hj, swapped_right, Equiv.swap_apply_right, hb]
      rfl
    · by_cases hi : k = i
      · rw [hi, swapped_left hne, Equiv.swap_apply_left, hc]
        rfl
      · rw [swapped_other hi hj, Equiv.swap_apply_of_ne_of_ne hi hj]

/-- A block is as good for another object. -/
lemma holds_swap {l : List UInt8} (h : c.Holds l) (hblock : c.buffer.isSome)
    (hplace : Place b.capacityField) : (b.swap c).1.Holds l := by
  cases h with
  | null hf => exact absurd hblock Bool.false_ne_true
  | laid hf ha hroom hle => exact .laid hplace ha hroom hle

/-- **A `swap` of two blocks** -/
lemma Holding.swapped (h : Holding w) (hb : w i = some b) (hc : w j = some c) (hne : i ≠ j)
    (hblock : b.buffer.isSome) (hblock' : c.buffer.isSome) : Holding (swapped w i j b c) := by
  obtain ⟨l, hl⟩ := h.holds i b hb
  obtain ⟨l', hl'⟩ := h.holds j c hc
  refine ⟨fun k d hd => ?_, h.separate.renamed (exchange_injective i j) fun x p hp => ?_⟩
  · rw [Option.mem_def] at hd
    by_cases hj : k = j
    · rw [hj, swapped_right] at hd
      obtain rfl := Option.some_inj.mp hd
      exact ⟨l, holds_swap hl hblock hl'.place⟩
    · by_cases hi : k = i
      · rw [hi, swapped_left hne] at hd
        obtain rfl := Option.some_inj.mp hd
        exact ⟨l', holds_swap hl' hblock' hl.place⟩
      · rw [swapped_other hi hj] at hd
        exact h.holds k d hd
  · rwa [area_swapped hb hc hne] at hp

/-- **A `swap` with a `Buffer` without a block** leaves the other one with a pointer to its
    `_capacity`. -/
lemma not_own_swap (h : Holding w) (hb : w i = some b) (hc : w j = some c) (hne : i ≠ j)
    (hblock : ¬ c.buffer.isSome) : ¬ Own (b.swap c).1 := by
  obtain ⟨l', hl'⟩ := h.holds j c hc
  cases hl' with
  | laid hf ha hroom hle => exact absurd rfl hblock
  | @null f hf =>
    intro hown
    have hsame : f = b.capacityField := hown.1
    have huses : Uses w (.fields i) b.capacityField :=
      ⟨_, by rw [area, hb]; rfl, within_fieldsPlace _⟩
    have huses' : Uses w (.fields j) b.capacityField :=
      ⟨fieldsPlace f, by rw [area, hc]; rfl, hsame ▸ within_fieldsPlace f⟩
    have heq := h.separate _ _ _ huses huses'
    exact hne (by simpa using heq)

end Swapped

/-! ## Steps and runs -/

/-- What a program has to see to: an object is constructed once and first, in free memory; blocks that
    are allocated are free. -/
def Action.Allowed (A : Allocator) (w : Objects) : Action → Prop
  | .own i op => Called (w i) op ∧ Grants A w i op
  | .swap i j => (w i).isSome ∧ (w j).isSome
  | .destroy i => (w i).isSome

/-- No sum that an operation makes reaches `2 ^ 64`. -/
def Action.Fits (w : Objects) : Action → Prop
  | .own i op => SumsFit (w i) op
  | _ => True

/-- **When an action keeps pointers where they belong**: both operands of `swap` have a block, or they
    are the same. -/
def Keeps (w : Objects) : Action → Prop
  | .swap i j => i = j ∨ ∀ k ∈ [i, j], (area w (.block k)).isSome
  | _ => True

lemma area_block {w : Objects} {i : ℕ} {b : Buffer} (hb : w i = some b) :
    (area w (.block i)).isSome ↔ b.buffer.isSome := by
  rw [area, hb, Option.bind_some, blockPlace, Option.isSome_map]

/-- What is done to objects leaves the others alone. -/
lemma run_others {A : Allocator} {w w' : Objects} {act : Action} (h : act.run A w = some w') :
    ∀ k ∉ act.operands, w' k = w k := by
  intro k hk
  cases act with
  | own i op =>
    obtain ⟨b, -, hw⟩ := Option.bind_eq_some_iff.mp h
    obtain rfl := Option.some_inj.mp hw
    exact Function.update_of_ne (fun heq => hk (List.mem_singleton.mpr heq)) _ _
  | swap i j =>
    obtain ⟨b, -, h⟩ := Option.bind_eq_some_iff.mp h
    obtain ⟨c, -, hw⟩ := Option.bind_eq_some_iff.mp h
    obtain rfl := Option.some_inj.mp hw
    have hi : k ≠ i := fun heq => hk (heq ▸ List.mem_cons_self)
    have hj : k ≠ j := fun heq => hk (heq ▸ List.mem_cons_of_mem _ (List.mem_singleton_self _))
    exact swapped_other hi hj
  | destroy i =>
    obtain ⟨b, -, hw⟩ := Option.bind_eq_some_iff.mp h
    obtain rfl := Option.some_inj.mp hw
    exact Function.update_of_ne (fun heq => hk (List.mem_singleton.mpr heq)) _ _

/-- **An action** that keeps pointers where they belong stays in its own memory. -/
theorem step_holding {A : Allocator} {w : Objects} (h : Holding w) {act : Action}
    (hop : act.Allowed A w) (hfits : act.Fits w) (hkeeps : Keeps w act) :
    ∃ w', act.run A w = some w' ∧ Holding w' := by
  cases act with
  | own i op =>
    obtain ⟨hcalled, hgrants⟩ := hop
    have hstate : ∃ l, StateHolds (w i) l := by
      cases hw : w i with
      | none => exact ⟨[], rfl⟩
      | some b => exact h.holds i b hw
    obtain ⟨l, hl⟩ := hstate
    obtain ⟨b', l', hrun, hb', -⟩ := step_sums A hl hcalled hfits
    refine ⟨Function.update w i (some b'), by rw [Action.run, hrun]; rfl, fun k d hd => ?_,
      h.separate.own hgrants hrun⟩
    rw [Option.mem_def] at hd
    by_cases hk : k = i
    · rw [hk, Function.update_self] at hd
      obtain rfl := Option.some_inj.mp hd
      exact ⟨l', hb'⟩
    · rw [Function.update_of_ne hk] at hd
      exact h.holds k d hd
  | swap i j =>
    obtain ⟨b, hb⟩ := Option.isSome_iff_exists.mp hop.1
    obtain ⟨c, hc⟩ := Option.isSome_iff_exists.mp hop.2
    refine ⟨_, run_swap A hb hc, ?_⟩
    by_cases hne : i = j
    · subst hne
      obtain rfl := Option.some_inj.mp (hb.symm.trans hc)
      rwa [swapped_same hb]
    · have hblocks := hkeeps.resolve_left hne
      exact h.swapped hb hc hne ((area_block hb).mp (hblocks i (by simp)))
        ((area_block hc).mp (hblocks j (by simp)))
  | destroy i =>
    obtain ⟨b, hb⟩ := Option.isSome_iff_exists.mp hop
    have hless : ∀ k d, Function.update w i none k = some d → w k = some d := by
      intro k d hd
      by_cases hk : k = i
      · rw [hk, Function.update_self] at hd
        exact absurd hd.symm (Option.some_ne_none d)
      · rwa [Function.update_of_ne hk] at hd
    refine ⟨Function.update w i none, by rw [Action.run, hb]; rfl,
      fun k d hd => h.holds k d (hless k d hd),
      h.separate.renamed Function.injective_id fun x p hp => ?_⟩
    cases x with
    | fields k =>
      obtain ⟨d, hd, hp⟩ := Option.map_eq_some_iff.mp hp
      rw [id, area, hless k d hd, Option.map_some, hp]
      rfl
    | block k =>
      obtain ⟨d, hd, hp⟩ := Option.bind_eq_some_iff.mp hp
      rw [id, area, hless k d hd, Option.bind_some]
      exact hp

/-- A `swap` of two of which one has no block does not keep pointers where they belong. -/
lemma not_tidy_swap {w : Objects} (h : Holding w) {i j : ℕ} {b c : Buffer} (hb : w i = some b)
    (hc : w j = some c) (htidy : Tidy (swapped w i j b c)) : Keeps w (.swap i j) := by
  by_cases hne : i = j
  · exact Or.inl hne
  · right
    intro k hk
    rcases List.mem_cons.mp hk with rfl | hk
    · refine (area_block hb).mpr (not_not.mp fun hblock => ?_)
      exact not_own_swap h hc hb (Ne.symm hne) hblock (htidy.own j _ swapped_right)
    · obtain rfl := List.mem_singleton.mp hk
      refine (area_block hc).mpr (not_not.mp fun hblock => ?_)
      exact not_own_swap h hb hc hne hblock (htidy.own i _ (swapped_left hne))

/-- The program, as far as its actions are `ok` -/
def objectsSystem (ok : Objects → Action → Prop) : System Objects Action where
  initial w := w = fun _ => none
  step w acts w' := ∃ A act, act.Allowed A w ∧ act.Fits w ∧ ok w act ∧ act.run A w = some w'
    ∧ acts = [act]

/-- **Every run** in which each `swap` exchanges two blocks leaves every `Buffer` with pointers of its
    own only.  In each of its states any action whose sums fit does so, stays in the memory of its
    operands and leaves the other objects alone, unless it is a `swap` with a `Buffer` without a
    block. -/
theorem tidy_iff {acts : List Action} {w : Objects} (h : (objectsSystem Keeps).Run acts w) :
    Tidy w ∧ ∀ A (act : Action), act.Allowed A w → act.Fits w →
      ((∃ w', act.run A w = some w' ∧ Tidy w' ∧ ∀ k ∉ act.operands, w' k = w k)
        ↔ Keeps w act) := by
  have hinv : Holding w := by
    refine @System.Run.invariant _ _ (objectsSystem Keeps) (fun _ w => Holding w) ?_ ?_ _ _ h
    · rintro w rfl
      refine ⟨fun _ b hb => absurd hb.symm (Option.some_ne_none b), ?_⟩
      rintro (i | i) y addr ⟨p, hp, -⟩
      · exact absurd hp.symm (Option.some_ne_none p)
      · exact absurd hp.symm (Option.some_ne_none p)
    · rintro trace w es w' hw ⟨A, act, hop, hfits, hkeeps, hrun, -⟩
      obtain ⟨w₁, hrun', hw₁⟩ := step_holding hw hop hfits hkeeps
      rwa [← Option.some_inj.mp (hrun'.symm.trans hrun)]
  refine ⟨hinv.tidy, fun A act hop hfits => ⟨?_, fun hkeeps => ?_⟩⟩
  · rintro ⟨w', hrun, htidy, -⟩
    cases act with
    | swap i j =>
      obtain ⟨b, hb⟩ := Option.isSome_iff_exists.mp hop.1
      obtain ⟨c, hc⟩ := Option.isSome_iff_exists.mp hop.2
      rw [run_swap A hb hc] at hrun
      obtain rfl := Option.some_inj.mp hrun
      exact not_tidy_swap hinv hb hc htidy
    | _ => trivial
  · obtain ⟨w', hrun, hw'⟩ := step_holding hinv hop hfits hkeeps
    exact ⟨w', hrun, hw'.tidy, run_others hrun⟩

/-- Two bytes are elsewhere than more. -/
def elsewhereAddress (n : ℕ) : ℕ := if n = 2 then 16 else 1

lemma elsewhereAddress_pos (n : ℕ) : 0 < elsewhereAddress n := by
  rw [elsewhereAddress]
  split_ifs
  · decide
  · decide

lemma elsewhereAddress_le (n : ℕ) (h : n < 2 ^ 64) : elsewhereAddress n + n ≤ 2 ^ 64 := by
  rw [elsewhereAddress]
  split_ifs
  · omega
  · omega

/-- An allocator that gives away two bytes elsewhere than more -/
def elsewhere : Allocator :=
  { Allocator.first with
    address := elsewhereAddress
    address_pos := elsewhereAddress_pos
    address_le := elsewhereAddress_le }

/-- An object with two bytes -/
def one : Objects := Function.update (fun _ => none) 0 (some (laid 4096 1 [] [97, 98] [0]))

lemma uses_one {x : Area} {addr : ℕ} (h : Uses one x addr) : addr < 4 ∨ 4072 ≤ addr ∧ addr < 4104 := by
  obtain ⟨p, hp, hin⟩ := h
  cases x with
  | fields i =>
    by_cases hi : i = 0
    · rw [area, one, hi, Function.update_self] at hp
      obtain rfl := Option.some_inj.mp hp
      exact Or.inr hin
    · rw [area, one, Function.update_of_ne hi] at hp
      exact absurd hp.symm (Option.some_ne_none p)
  | block i =>
    by_cases hi : i = 0
    · rw [area, one, hi, Function.update_self] at hp
      obtain rfl := Option.some_inj.mp hp
      exact Or.inl hin.2
    · rw [area, one, Function.update_of_ne hi] at hp
      exact absurd hp.symm (Option.some_ne_none p)

/-- The first object is constructed. -/
lemma step_one (ok : Objects → Action → Prop)
    (hok : ok (fun _ => none) (.own 0 (.ofBytes 4096 ⟨12288, [97, 98]⟩))) :
    (objectsSystem ok).step (fun _ => none) [.own 0 (.ofBytes 4096 ⟨12288, [97, 98]⟩)] one := by
  have hfree : ∀ p x, Free (fun _ => none) p x := by
    rintro p x (i | i) addr ⟨q, hq, -⟩
    · exact absurd hq.symm (Option.some_ne_none q)
    · exact absurd hq.symm (Option.some_ne_none q)
  have hgrants : Grants .first (fun _ => none) 0 (.ofBytes 4096 ⟨12288, [97, 98]⟩) := by
    refine ⟨fun _ _ => hfree _ _, fun _ _ => hfree _ _, ?_⟩
    intro f hf n hn addr hin hin'
    obtain rfl := Option.some_inj.mp hf
    obtain rfl := Option.some_inj.mp hn
    have hlow : addr < 4 := hin'.2
    have hhigh : 4072 ≤ addr := hin.1
    omega
  exact ⟨.first, .own 0 (.ofBytes 4096 ⟨12288, [97, 98]⟩), ⟨⟨by decide, by decide⟩, hgrants⟩,
    show 2 + 1 < 2 ^ 64 by decide, hok, rfl, rfl⟩

/-- A terminator is not written by way of a pointer to other memory. -/
lemma append_stray (A : Allocator) {b : Buffer} (hbuffer : b.buffer = none)
    (hattached : b.attached = none) (hempty : b.bufferEnd = b.bufferStart)
    (hstray : b.bufferEnd ≠ b.capacityField) : b.append A [] = none := by
  have hsize : b.size = 0 := by
    rw [size, wrapSub, hempty, Nat.add_sub_cancel_left, Nat.mod_self]
  have hresize : b.resize A (wrapAdd b.size ([] : List UInt8).length) = some b := by
    have hzero : wrapAdd 0 ([] : List UInt8).length = 0 := rfl
    rw [hsize, hzero, resize, if_neg (Nat.not_lt_zero _), hbuffer]
  have hnothing : ∀ addr, b.write addr [] = some b := by
    intro addr
    rw [write, hbuffer, hattached]
    rfl
  have hzero : b.terminate = none := by
    rw [terminate, if_neg (fun h => hstray h.2), write, hbuffer, hattached]
    rfl
  rw [append, hresize]
  simp only [hnothing, hzero, Option.bind_eq_bind, Option.bind_some]

/-- There is room for a second object, and for a block of two bytes. -/
lemma grants_second {A : Allocator} {op : Op} (hplace : op.place = some 8192)
    (hrequest : ∀ n ∈ op.request (one 1), A.address n = 16 ∧ n = 2) : Grants A one 1 op := by
  refine ⟨fun f hf x addr hx hin => ?_, fun n hn x addr hx hin => ?_, fun f hf n hn addr hin hin' => ?_⟩
  · obtain rfl := Option.some_inj.mp (hplace.symm.trans hf)
    have hhigh : 8168 ≤ addr := hin.1
    have huses := uses_one hx
    omega
  · obtain ⟨haddress, rfl⟩ := hrequest n hn
    have hlow : A.address 2 ≤ addr ∧ addr < A.address 2 + 2 := hin
    have huses := uses_one hx
    omega
  · obtain rfl := Option.some_inj.mp (hplace.symm.trans hf)
    obtain ⟨haddress, rfl⟩ := hrequest n hn
    have hhigh : 8168 ≤ addr := hin.1
    have hlow : A.address 2 ≤ addr ∧ addr < A.address 2 + 2 := hin'
    omega

/-- Two objects with bytes exchange their blocks. -/
theorem tidy_iff_two : ∃ w, (objectsSystem Keeps).Run
      [.own 0 (.ofBytes 4096 ⟨12288, [97, 98]⟩), .own 1 (.ofBytes 8192 ⟨12288, [99]⟩)] w
    ∧ ∃ w', (Action.swap 0 1).run .first w = some w' ∧ Tidy w' := by
  have hgrants : Grants elsewhere one 1 (.ofBytes 8192 ⟨12288, [99]⟩) := by
    refine grants_second rfl fun n hn => ?_
    obtain rfl := Option.some_inj.mp hn
    exact ⟨rfl, rfl⟩
  have hsecond : (objectsSystem Keeps).step one [.own 1 (.ofBytes 8192 ⟨12288, [99]⟩)]
      (Function.update one 1 (some (laid 8192 16 [] [99] [0]))) :=
    ⟨elsewhere, .own 1 (.ofBytes 8192 ⟨12288, [99]⟩), ⟨⟨by decide, by decide⟩, hgrants⟩,
      show 1 + 1 < 2 ^ 64 by decide, trivial, rfl, rfl⟩
  have hrun := (System.Run.start rfl |>.next (step_one Keeps trivial)).next hsecond
  refine ⟨_, hrun, ?_⟩
  obtain ⟨w', hswap, htidy, -⟩ :=
    ((tidy_iff hrun).2 .first (.swap 0 1) ⟨rfl, rfl⟩ trivial).mpr (Or.inr (by decide))
  exact ⟨w', hswap, htidy⟩

/-- **After a `swap` with a `Buffer` without a block** the first object, which is empty and has no
    block, has pointers to the `_capacity` of the second, which is 2; the terminator of an `append` of
    nothing to the first is written there. -/
theorem swap_untidy : ∃ w b c, (objectsSystem fun _ _ => True).Run
      [.own 0 (.ofBytes 4096 ⟨12288, [97, 98]⟩), .own 1 (.null 8192), .swap 0 1] w
    ∧ w 0 = some b ∧ w 1 = some c ∧ b.buffer = none ∧ b.bufferEnd = c.capacityField
    ∧ c.capacity = 2 ∧ Uses w (.fields 1) b.bufferEnd ∧ ¬ Tidy w
    ∧ ∀ A, (Action.own 0 (.append ⟨12288, []⟩)).run A w = none := by
  have hgrants : Grants .first one 1 (.null 8192) :=
    grants_second rfl fun n hn => absurd hn.symm (Option.some_ne_none n)
  have hsecond : (objectsSystem fun _ _ => True).step one [.own 1 (.null 8192)]
      (Function.update one 1 (some (null 8192))) :=
    ⟨.first, .own 1 (.null 8192), ⟨⟨by decide, by decide⟩, hgrants⟩, trivial, trivial, rfl, rfl⟩
  have hswap : (objectsSystem fun _ _ => True).step (Function.update one 1 (some (null 8192)))
      [.swap 0 1] (swapped (Function.update one 1 (some (null 8192))) 0 1
        (laid 4096 1 [] [97, 98] [0]) (null 8192)) :=
    ⟨.first, .swap 0 1, ⟨rfl, rfl⟩, trivial, trivial, run_swap .first rfl rfl, rfl⟩
  have hrun := ((System.Run.start rfl |>.next (step_one _ trivial)).next hsecond).next hswap
  refine ⟨_, _, _, hrun, rfl, rfl, rfl, rfl, rfl, ⟨_, rfl, by decide, by decide⟩, ?_, fun A => ?_⟩
  · intro htidy
    have hown := htidy.own 0 _ rfl
    exact absurd hown.1 (by decide)
  · have hstray : append A { null 4096 with bufferStart := 8192, bufferEnd := 8192 } [] = none :=
      append_stray A rfl rfl rfl (by decide)
    have hfirst : swapped (Function.update one 1 (some (null 8192))) 0 1
        (laid 4096 1 [] [97, 98] [0]) (null 8192) 0
        = some { null 4096 with bufferStart := 8192, bufferEnd := 8192 } := rfl
    rw [Action.run, hfirst, Op.run, hstray]
    rfl

end Buffers

end Nstd
