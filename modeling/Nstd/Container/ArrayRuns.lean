import Mathlib.Tactic.ByContra
import Mathlib.Tactic.SplitIfs
import Nstd.Container.ArrayData
import Nstd.Core.System

/-!
# What an `Array` is for

* `Holds` — an `Array` with its elements: they are the objects of the first slots, and no other slot
  has one; constructions and destructions balance.
* `ReserveFits` — no allocation is of `2 ^ 64` bytes or more.
* `reserve_spec`, `assign_spec`, `removeAt_spec`, … — what an operation does to the elements.
* **`array_refines`** — in every run whose operations fit, arrays are lists.

The slots with an object are always the first ones, so every loop of the code runs over objects only or
over free slots only, and what it does to the elements can be read off.
-/

namespace Nstd.ArrayData

variable {T : Type}

/-- **An `Array` and its elements** -/
structure Holds (a : ArrayData T) (l : List T) : Prop where
  size : a.size = l.length
  bound : l.length ≤ a.capacity
  null : a.storage = none → l = []
  objects : ∀ m ∈ a.storage, m.objects = l.map some ++ List.replicate (a.capacity - l.length) none
  balanced : ∀ m ∈ a.storage, m.constructed = m.destroyed + l.length

/-- An allocation, if there is one, is of less than `2 ^ 64` bytes. -/
def ReserveFits (sizeofT : ℕ) (a : ArrayData T) (size : ℕ) : Prop :=
  size > a.capacity ∨ (a.storage.isNone ∧ size > 0) → sizeofT * a.newCapacity size < 2 ^ 64

instance (sizeofT : ℕ) (a : ArrayData T) (size : ℕ) : Decidable (a.ReserveFits sizeofT size) :=
  inferInstanceAs (Decidable (_ → _))

lemma null_holds : (null : ArrayData T).Holds [] :=
  ⟨rfl, Nat.le_refl _, fun _ => rfl, fun _ h => absurd h.symm (Option.some_ne_none _),
    fun _ h => absurd h.symm (Option.some_ne_none _)⟩

lemma ofCapacity_holds (capacity : ℕ) : (ofCapacity capacity : ArrayData T).Holds [] :=
  ⟨rfl, Nat.zero_le _, fun _ => rfl, fun _ h => absurd h.symm (Option.some_ne_none _),
    fun _ h => absurd h.symm (Option.some_ne_none _)⟩

/-- Elements in slots that are seen as the first and the others -/
lemma holds_some {m : Slots T} {l : List T} {size capacity room : ℕ} (hsize : size = l.length)
    (hcapacity : capacity = l.length + room)
    (hobjects : m.objects = l.map some ++ List.replicate room none)
    (hbalanced : m.constructed = m.destroyed + l.length) :
    Holds ⟨some m, size, capacity⟩ l := by
  refine ⟨hsize, by simp only; omega, fun h => absurd h (Option.some_ne_none _), ?_, ?_⟩
  · rintro m' hm'
    obtain rfl := Option.some.inj hm'
    rw [hobjects, hcapacity, Nat.add_sub_cancel_left]
  · rintro m' hm'
    obtain rfl := Option.some.inj hm'
    exact hbalanced

/-- The slots of an `Array`: its elements, and room -/
lemma Holds.storage {a : ArrayData T} {l : List T} (h : a.Holds l) {m : Slots T}
    (hm : a.storage = some m) : ∃ room, a.capacity = l.length + room ∧
      m.objects = l.map some ++ List.replicate room none ∧
      m.constructed = m.destroyed + l.length := by
  have hbound := h.bound
  exact ⟨a.capacity - l.length, by omega, h.objects m hm, h.balanced m hm⟩

lemma newCapacity_le (a : ArrayData T) (size : ℕ) :
    size ≤ a.newCapacity size ∧ a.capacity ≤ a.newCapacity size := by
  rw [newCapacity]
  split_ifs with hsize
  · exact ⟨Nat.left_le_or, Nat.le_trans (Nat.le_of_lt hsize) Nat.left_le_or⟩
  · exact ⟨Nat.le_trans (Nat.not_lt.mp hsize) Nat.left_le_or, Nat.left_le_or⟩

/-- An allocation of less than `2 ^ 64` bytes has the slots. -/
lemma allocate_eq {sizeofT capacity : ℕ} (hpos : 0 < sizeofT)
    (h : sizeofT * capacity < 2 ^ 64) : (allocate sizeofT capacity : Slots T) = .raw capacity := by
  rw [allocate, Nat.mod_eq_of_lt h, Nat.mul_div_cancel_left _ hpos]

/-- **`reserve`** leaves the elements, with storage for so many. -/
lemma reserve_spec {sizeofT : ℕ} (hpos : 0 < sizeofT) {a : ArrayData T} {l : List T}
    (h : a.Holds l) {size : ℕ} (hfits : a.ReserveFits sizeofT size) :
    ∃ a', a.reserve sizeofT size = some a' ∧ a'.Holds l ∧ size ≤ a'.capacity ∧
      (0 < size → a'.storage.isSome) := by
  rw [reserve]
  split_ifs with hallocate
  · obtain ⟨hsize, hcapacity⟩ := a.newCapacity_le size
    have hbound := h.bound
    obtain ⟨room, hroom⟩ := Nat.exists_eq_add_of_le (Nat.le_trans hbound hcapacity)
    have hraw := allocate_eq (T := T) hpos (hfits hallocate)
    cases hm : a.storage with
    | none =>
      obtain rfl := h.null hm
      refine ⟨_, rfl, holds_some rfl hroom ?_ ?_, hsize, fun _ => rfl⟩
      · rw [hraw, hroom, List.length_nil, Nat.zero_add]
        rfl
      · rw [hraw]
        rfl
    | some m =>
      obtain ⟨room', -, hobjects, hbalanced⟩ := h.storage hm
      have hnew : (allocate sizeofT (a.newCapacity size) : Slots T).objects =
          [] ++ (List.replicate l.length none ++ List.replicate room none) := by
        rw [hraw, hroom, List.nil_append, ← List.replicate_add]
        rfl
      have hold : m.objects = [] ++ (l.map some ++ List.replicate room' none) := hobjects
      have hrun := Slots.moveAll_spec hold hnew rfl
      rw [List.length_nil] at hrun
      simp only [h.size, hrun, Option.bind_eq_bind, Option.bind_some, List.nil_append]
      refine ⟨_, rfl, holds_some rfl hroom rfl ?_, hsize, fun _ => rfl⟩
      rw [hraw]
      simp only [Slots.raw]
      omega
  · refine ⟨a, rfl, h, by omega, fun hsize => ?_⟩
    cases hm : a.storage with
    | some m => rfl
    | none => exact absurd (Or.inr ⟨by rw [hm]; rfl, hsize⟩) hallocate

/-- Copies of the elements of an array are objects of their values. -/
lemma copyAll_elements {src : ArrayData T} {l : List T} (h : src.Holds l) {m : Slots T}
    (hm : src.storage = some m) (m' : Slots T) (i : ℕ) :
    Slots.copyAll m 0 m' i src.size = m'.constructAll i l := by
  obtain ⟨room, -, hobjects, -⟩ := h.storage hm
  have hsrc : m.objects = [] ++ (l.map some ++ List.replicate room none) := hobjects
  have hcopy := Slots.copyAll_eq hsrc m' i
  rwa [List.length_nil, ← h.size] at hcopy

/-- Objects are constructed behind the elements. -/
lemma construct_spec {a : ArrayData T} {l : List T} (h : a.Holds l) {m : Slots T}
    (hm : a.storage = some m) (vs : List T) (hroom : l.length + vs.length ≤ a.capacity) :
    ∃ m', m.constructAll a.size vs = some m' ∧
      Holds ⟨some m', a.size + vs.length, a.capacity⟩ (l ++ vs) := by
  obtain ⟨room, hcapacity, hobjects, hbalanced⟩ := h.storage hm
  obtain ⟨room', rfl⟩ : ∃ room', room = vs.length + room' :=
    Nat.exists_eq_add_of_le (by omega)
  have hsplit : m.objects =
      l.map some ++ (List.replicate vs.length none ++ List.replicate room' none) := by
    rw [hobjects, List.replicate_add]
  have hrun := Slots.constructAll_spec hsplit
  rw [List.length_map, ← h.size] at hrun
  refine ⟨_, hrun, @holds_some _ _ _ _ _ room' ?_ ?_ ?_ ?_⟩
  · rw [h.size, List.length_append]
  · rw [hcapacity, List.length_append, Nat.add_assoc]
  · rw [List.map_append, List.append_assoc]
  · rw [List.length_append, hbalanced, Nat.add_assoc]

/-- Objects behind some of the elements are destroyed. -/
lemma destroyAll_spec {a : ArrayData T} {l vs : List T} (h : a.Holds (l ++ vs)) {m : Slots T}
    (hm : a.storage = some m) : ∃ m', m.destroyAll l.length vs.length = some m' ∧
      Holds ⟨some m', l.length, a.capacity⟩ l := by
  obtain ⟨room, hcapacity, hobjects, hbalanced⟩ := h.storage hm
  rw [List.length_append] at hcapacity hbalanced
  have hsplit : m.objects = l.map some ++ (vs.map some ++ List.replicate room none) := by
    rw [hobjects, List.map_append, List.append_assoc]
  have hrun := Slots.destroyAll_spec hsplit
  rw [List.length_map] at hrun
  refine ⟨_, hrun, @holds_some _ _ _ _ _ (vs.length + room) rfl ?_ ?_ ?_⟩
  · rw [hcapacity, Nat.add_assoc]
  · rw [List.replicate_add]
  · simp only
    omega

lemma clear_spec {a : ArrayData T} {l : List T} (h : a.Holds l) :
    ∃ a', a.clear = some a' ∧ a'.Holds [] ∧ a'.capacity = a.capacity ∧
      a'.storage.isNone = a.storage.isNone := by
  rw [clear]
  cases hm : a.storage with
  | none =>
    obtain rfl := h.null hm
    exact ⟨a, rfl, h, rfl, by rw [hm]⟩
  | some m =>
    have hnil : a.Holds ([] ++ l) := h
    obtain ⟨m', hrun, hm'⟩ := destroyAll_spec hnil hm
    rw [List.length_nil, ← h.size] at hrun
    refine ⟨⟨some m', 0, a.capacity⟩, ?_, hm', rfl, rfl⟩
    simp only [hrun, Option.bind_eq_bind, Option.bind_some]

/-- As many objects are destroyed as were constructed. -/
lemma destruct_spec {a : ArrayData T} {l : List T} (h : a.Holds l) : ∃ n, a.destruct = some (n, n) := by
  rw [destruct]
  cases hm : a.storage with
  | none => exact ⟨0, rfl⟩
  | some m =>
    have hnil : a.Holds ([] ++ l) := h
    obtain ⟨m', hrun, hm'⟩ := destroyAll_spec hnil hm
    rw [List.length_nil, ← h.size] at hrun
    have hbalanced : m'.constructed = m'.destroyed := hm'.balanced m' rfl
    refine ⟨m'.destroyed, ?_⟩
    simp only [hrun, Option.bind_eq_bind, Option.bind_some, hbalanced]

/-- The elements of another array are copied to one that is empty. -/
lemma copyItems_spec {a other : ArrayData T} {l : List T} (ha : a.Holds []) (ho : other.Holds l)
    (hcapacity : l.length ≤ a.capacity) (hstorage : 0 < l.length → a.storage.isSome) :
    ∃ a', a.copyItems other = some a' ∧ a'.Holds l := by
  rw [copyItems]
  cases hsrc : other.storage with
  | none =>
    obtain rfl := ho.null hsrc
    have hsize : other.size = 0 := ho.size
    have hself : { a with size := 0 } = a := by
      obtain ⟨storage, size, capacity⟩ := a
      obtain rfl : size = 0 := ha.size
      rfl
    refine ⟨a, ?_, ha⟩
    cases hm : a.storage with
    | none => simp only [hsize, if_true, ← hm, hself]
    | some m => simp only [hsize, if_true, ← hm, hself]
  | some src =>
    cases hm : a.storage with
    | none =>
      have hnil : l = [] := by
        cases l with
        | nil => rfl
        | cons v l =>
          rw [hm] at hstorage
          exact absurd (hstorage (Nat.succ_pos _)) Bool.false_ne_true
      subst hnil
      have hsize : other.size = 0 := ho.size
      have hself : { a with size := 0 } = a := by
        obtain ⟨storage, size, capacity⟩ := a
        obtain rfl : size = 0 := ha.size
        rfl
      exact ⟨a, by simp only [hsize, if_true, ← hm, hself], ha⟩
    | some m =>
      obtain ⟨m', hrun, hm'⟩ := construct_spec ha hm l (by simpa using hcapacity)
      have hzero : a.size = 0 := ha.size
      rw [hzero] at hrun hm'
      rw [Nat.zero_add, List.nil_append] at hm'
      refine ⟨⟨some m', l.length, a.capacity⟩, ?_, hm'⟩
      simp only [copyAll_elements ho hsrc, hrun, Option.bind_eq_bind, Option.bind_some]
      rw [ho.size]

/-- **`operator=`** -/
lemma assign_spec {sizeofT : ℕ} (hpos : 0 < sizeofT) {a other : ArrayData T} {l l' : List T}
    (ha : a.Holds l) (ho : other.Holds l') (hfits : a.ReserveFits sizeofT other.capacity) :
    ∃ a', a.assign sizeofT other = some a' ∧ a'.Holds l' := by
  obtain ⟨a₁, hclear, ha₁, hcapacity, hstorage⟩ := clear_spec ha
  have hfits₁ : a₁.ReserveFits sizeofT other.capacity := by
    rw [ReserveFits, newCapacity, hcapacity, hstorage]
    exact hfits
  obtain ⟨a₂, hreserve, ha₂, hle, hsome⟩ := reserve_spec hpos ha₁ hfits₁
  obtain ⟨a₃, hcopy, ha₃⟩ := copyItems_spec ha₂ ho (Nat.le_trans ho.bound hle)
    fun hl => hsome (Nat.lt_of_lt_of_le hl ho.bound)
  refine ⟨a₃, ?_, ha₃⟩
  rw [assign, hclear]
  simp only [Option.bind_eq_bind, Option.bind_some, hreserve, hcopy]

/-- **The copy constructor** -/
lemma copy_spec {sizeofT : ℕ} (hpos : 0 < sizeofT) {other : ArrayData T} {l : List T}
    (ho : other.Holds l) (hfits : (null : ArrayData T).ReserveFits sizeofT other.capacity) :
    ∃ a', copy sizeofT other = some a' ∧ a'.Holds l := by
  obtain ⟨a₂, hreserve, ha₂, hle, hsome⟩ := reserve_spec hpos null_holds hfits
  obtain ⟨a₃, hcopy, ha₃⟩ := copyItems_spec ha₂ ho (Nat.le_trans ho.bound hle)
    fun hl => hsome (Nat.lt_of_lt_of_le hl ho.bound)
  refine ⟨a₃, ?_, ha₃⟩
  rw [copy, hreserve]
  simp only [Option.bind_eq_bind, Option.bind_some, hcopy]

/-- What `append` does in all its forms: there is storage, and objects are constructed in it. -/
lemma append_room {sizeofT : ℕ} (hpos : 0 < sizeofT) {a : ArrayData T} {l : List T} (h : a.Holds l)
    (vs : List T) (hlt : a.size + vs.length < 2 ^ 64)
    (hfits : a.ReserveFits sizeofT (a.size + vs.length)) :
    ∃ a₁, a.reserve sizeofT ((a.size + vs.length) % 2 ^ 64) = some a₁ ∧ a₁.Holds l ∧
      (vs ≠ [] → a₁.storage.isSome) ∧ ∀ m, a₁.storage = some m →
        ∃ m', m.constructAll a₁.size vs = some m' ∧
          Holds ⟨some m', a₁.size + vs.length, a₁.capacity⟩ (l ++ vs) := by
  obtain ⟨a₁, hreserve, ha₁, hle, hsome⟩ := reserve_spec hpos h hfits
  rw [Nat.mod_eq_of_lt hlt]
  refine ⟨a₁, hreserve, ha₁, fun hne => hsome ?_, fun m hm => ?_⟩
  · have := List.length_pos_of_ne_nil hne
    omega
  · rw [h.size] at hle
    exact construct_spec ha₁ hm vs hle

lemma append_spec {sizeofT : ℕ} (hpos : 0 < sizeofT) {a : ArrayData T} {l : List T} (h : a.Holds l)
    (value : T) (hlt : a.size + 1 < 2 ^ 64) (hfits : a.ReserveFits sizeofT (a.size + 1)) :
    ∃ a', a.append sizeofT value = some a' ∧ a'.Holds (l ++ [value]) := by
  obtain ⟨a₁, hreserve, ha₁, hsome, hconstruct⟩ := append_room hpos h [value] hlt hfits
  rw [List.length_singleton] at hreserve
  obtain ⟨m, hm⟩ := Option.isSome_iff_exists.mp (hsome (List.cons_ne_nil _ _))
  obtain ⟨m', hrun, hm'⟩ := hconstruct m hm
  have hone : m.construct a₁.size value = some m' := by
    rw [Slots.constructAll] at hrun
    obtain ⟨m₁, hm₁, hrun⟩ := Option.bind_eq_some_iff.mp hrun
    rw [hm₁, ← Option.some.inj hrun]
  refine ⟨⟨some m', a₁.size + 1, a₁.capacity⟩, ?_, hm'⟩
  rw [append, hreserve]
  have hsize : a.size = a₁.size := h.size.trans ha₁.size.symm
  simp only [Option.bind_eq_bind, Option.bind_some, hm, hone]

lemma appendRange_spec {sizeofT : ℕ} (hpos : 0 < sizeofT) {a : ArrayData T} {l : List T}
    (h : a.Holds l) (values : List T) (hlt : a.size + values.length < 2 ^ 64)
    (hfits : a.ReserveFits sizeofT (a.size + values.length)) :
    ∃ a', a.appendRange sizeofT values = some a' ∧ a'.Holds (l ++ values) := by
  obtain ⟨a₁, hreserve, ha₁, hsome, hconstruct⟩ := append_room hpos h values hlt hfits
  rw [appendRange, hreserve]
  simp only [Option.bind_eq_bind, Option.bind_some]
  cases hm : a₁.storage with
  | none =>
    have hnil : values = [] := by
      by_contra hne
      rw [hm] at hsome
      exact Bool.false_ne_true (hsome hne)
    subst hnil
    exact ⟨a₁, if_pos rfl, by rwa [List.append_nil]⟩
  | some m =>
    obtain ⟨m', hrun, hm'⟩ := hconstruct m hm
    exact ⟨_, by simp only [hrun, Option.bind_some], hm'⟩

lemma appendArray_spec {sizeofT : ℕ} (hpos : 0 < sizeofT) {a other : ArrayData T} {l l' : List T}
    (h : a.Holds l) (ho : other.Holds l') (hlt : a.size + other.size < 2 ^ 64)
    (hfits : a.ReserveFits sizeofT (a.size + other.size)) :
    ∃ a', a.appendArray sizeofT other = some a' ∧ a'.Holds (l ++ l') := by
  have hlt' : a.size + l'.length < 2 ^ 64 := ho.size ▸ hlt
  have hfits' : a.ReserveFits sizeofT (a.size + l'.length) := ho.size ▸ hfits
  obtain ⟨a₁, hreserve, ha₁, hsome, hconstruct⟩ := append_room hpos h l' hlt' hfits'
  rw [← ho.size] at hreserve
  rw [appendArray, hreserve]
  simp only [Option.bind_eq_bind, Option.bind_some]
  cases hsrc : other.storage with
  | none =>
    obtain rfl := ho.null hsrc
    have hsize : other.size = 0 := ho.size
    rw [List.append_nil]
    cases hm : a₁.storage with
    | none => exact ⟨a₁, if_pos hsize, ha₁⟩
    | some m => exact ⟨a₁, if_pos hsize, ha₁⟩
  | some src =>
    cases hm : a₁.storage with
    | none =>
      have hnil : l' = [] := by
        by_contra hne
        rw [hm] at hsome
        exact Bool.false_ne_true (hsome hne)
      subst hnil
      rw [List.append_nil]
      exact ⟨a₁, if_pos ho.size, ha₁⟩
    | some m =>
      obtain ⟨m', hrun, hm'⟩ := hconstruct m hm
      rw [← ho.size] at hm'
      have hsize : a.size = a₁.size := h.size.trans ha₁.size.symm
      refine ⟨_, ?_, hm'⟩
      simp only [copyAll_elements ho hsrc, hrun, Option.bind_some]

/-- **`resize`** -/
lemma resize_spec {sizeofT : ℕ} (hpos : 0 < sizeofT) {a : ArrayData T} {l : List T} (h : a.Holds l)
    (size : ℕ) (value : T) (hfits : a.size ≤ size → a.ReserveFits sizeofT size) :
    ∃ a', a.resize sizeofT size value = some a' ∧
      a'.Holds (l.take size ++ List.replicate (size - l.length) value) := by
  rw [resize]
  split_ifs with hsize
  · have hlt : size < l.length := h.size ▸ hsize
    rw [Nat.sub_eq_zero_of_le (Nat.le_of_lt hlt), List.replicate_zero, List.append_nil]
    cases hm : a.storage with
    | none =>
      obtain rfl := h.null hm
      exact absurd hlt (Nat.not_lt_zero _)
    | some m =>
      have hsplit : a.Holds (l.take size ++ l.drop size) := by rwa [List.take_append_drop]
      obtain ⟨m', hrun, hm'⟩ := destroyAll_spec hsplit hm
      rw [List.length_take_of_le (Nat.le_of_lt hlt), List.length_drop, ← h.size] at hrun
      rw [List.length_take_of_le (Nat.le_of_lt hlt)] at hm'
      exact ⟨_, by simp only [hrun, Option.bind_eq_bind, Option.bind_some], hm'⟩
  · have hle : l.length ≤ size := h.size ▸ Nat.not_lt.mp hsize
    obtain ⟨a₁, hreserve, ha₁, hcapacity, hsome⟩ := reserve_spec hpos h (hfits (Nat.not_lt.mp hsize))
    rw [hreserve, List.take_of_length_le hle]
    simp only [Option.bind_eq_bind, Option.bind_some]
    cases hm : a₁.storage with
    | none =>
      obtain rfl := ha₁.null hm
      obtain rfl : size = 0 := by
        by_contra hne
        rw [hm] at hsome
        exact Bool.false_ne_true (hsome (Nat.pos_of_ne_zero hne))
      exact ⟨a₁, if_pos ha₁.size.symm, ha₁⟩
    | some m =>
      have hroom : l.length + (List.replicate (size - l.length) value).length ≤ a₁.capacity := by
        rw [List.length_replicate]
        omega
      obtain ⟨m', hrun, hm'⟩ := construct_spec ha₁ hm _ hroom
      rw [← Slots.fillAll_eq, ← ha₁.size] at hrun
      rw [List.length_replicate, ha₁.size, Nat.add_sub_cancel' hle] at hm'
      exact ⟨_, by simp only [hrun, Option.bind_some], hm'⟩

/-- **`remove` of a position** -/
lemma removeAt_spec {a : ArrayData T} {l : List T} (h : a.Holds l) {pos : ℕ}
    (hpos : pos < l.length) : ∃ a', a.removeAt pos = some a' ∧ a'.Holds (l.eraseIdx pos) := by
  obtain ⟨xs, v, vs, rfl, rfl⟩ : ∃ xs v vs, l = xs ++ v :: vs ∧ pos = xs.length :=
    ⟨l.take pos, l[pos], l.drop (pos + 1), by rw [List.getElem_cons_drop, List.take_append_drop],
      by rw [List.length_take_of_le (Nat.le_of_lt hpos)]⟩
  have herase : (xs ++ v :: vs).eraseIdx xs.length = xs ++ vs := by
    rw [List.eraseIdx_append_of_length_le (Nat.le_refl _), Nat.sub_self, List.eraseIdx_cons_zero]
  have hsize := h.size
  rw [List.length_append, List.length_cons] at hsize
  rw [removeAt, herase]
  cases hm : a.storage with
  | none => exact absurd (h.null hm) (List.append_ne_nil_of_right_ne_nil _ (List.cons_ne_nil _ _))
  | some m =>
    obtain ⟨room, hcapacity, hobjects, hbalanced⟩ := h.storage hm
    rw [List.length_append, List.length_cons] at hcapacity hbalanced
    have hsplit : m.objects =
        xs.map some ++ some v :: (vs.map some ++ List.replicate room none) := by
      rw [hobjects, List.map_append, List.map_cons, List.append_assoc, List.cons_append]
    obtain ⟨w, hshift⟩ := Slots.shift_spec hsplit
    have hdestroy := Slots.destroy_middle (m := { m with
      objects := (xs.map some ++ vs.map some) ++ some w :: List.replicate room none }) rfl
    have hcount : a.size - 1 - xs.length = vs.length := by omega
    rw [List.length_map] at hshift
    rw [List.length_append, List.length_map, List.length_map] at hdestroy
    have hafter : Holds ⟨some ⟨(xs.map some ++ vs.map some) ++ none :: List.replicate room none,
        m.constructed, m.destroyed + 1⟩, a.size - 1, a.capacity⟩ (xs ++ vs) := by
      refine @holds_some _ _ _ _ _ (room + 1) ?_ ?_ ?_ ?_
      · rw [List.length_append]
        omega
      · rw [hcapacity, List.length_append]
        omega
      · rw [List.map_append, List.replicate_succ]
      · rw [List.length_append]
        simp only
        omega
    refine ⟨_, ?_, hafter⟩
    simp only [hcount, hshift, hdestroy, Option.bind_eq_bind, Option.bind_some]

lemma remove_spec {a : ArrayData T} {l : List T} (h : a.Holds l) (index : ℕ) :
    ∃ a', a.remove index = some a' ∧ a'.Holds (l.eraseIdx index) := by
  rw [remove]
  split_ifs with hindex
  · exact removeAt_spec h (h.size ▸ hindex)
  · rw [List.eraseIdx_of_length_le (h.size ▸ Nat.not_lt.mp hindex)]
    exact ⟨a, rfl, h⟩

lemma removeFront_spec {a : ArrayData T} {l : List T} (h : a.Holds l) (hpos : 0 < a.size) :
    ∃ a', a.removeFront = some a' ∧ a'.Holds l.tail := by
  rw [← List.eraseIdx_zero]
  exact removeAt_spec h (h.size ▸ hpos)

lemma removeBack_spec {a : ArrayData T} {l : List T} (h : a.Holds l) (hpos : 0 < a.size) :
    ∃ a', a.removeBack = some a' ∧ a'.Holds l.dropLast := by
  have hsize := h.size
  rw [List.dropLast_eq_eraseIdx (Nat.sub_add_cancel (hsize ▸ hpos)), removeBack, hsize]
  exact removeAt_spec h (by omega)

/-! ## Programs -/

/-- What an operation needs of a program: arrays that were constructed are there, a constructor gets
    a new one, other arrays are others, numbers are 64 bits wide, iterators are valid, and only what
    is there is removed. -/
def Op.Allowed (s : State T) : Op T → Prop
  | .create a => s a = none
  | .createCapacity a capacity => s a = none ∧ capacity < 2 ^ 64
  | .createCopy a other => s a = none ∧ (s other).isSome
  | .assign a other | .appendArray a other => (s a).isSome ∧ (s other).isSome ∧ a ≠ other
  | .reserve a size | .resize a size _ => (s a).isSome ∧ size < 2 ^ 64
  | .append a _ | .remove a _ | .clear a | .destroy a => (s a).isSome
  | .appendRange a values => (s a).isSome ∧ values.length < 2 ^ 64
  | .removeAt a pos => ∃ x, s a = some x ∧ pos < x.size
  | .removeFront a | .removeBack a => ∃ x, s a = some x ∧ 0 < x.size
  | .swap a other => (s a).isSome ∧ (s other).isSome

/-- **When an operation is right**: the new size is a number of 64 bits, and so is the number of bytes
    that are allocated, if any are. -/
def Op.Fits (sizeofT : ℕ) (s : State T) : Op T → Prop
  | .createCopy _ other => ∀ y ∈ s other, (null : ArrayData T).ReserveFits sizeofT y.capacity
  | .assign a other => ∀ x ∈ s a, ∀ y ∈ s other, x.ReserveFits sizeofT y.capacity
  | .reserve a size => ∀ x ∈ s a, x.ReserveFits sizeofT size
  | .resize a size _ => ∀ x ∈ s a, x.size ≤ size → x.ReserveFits sizeofT size
  | .append a _ => ∀ x ∈ s a, x.size + 1 < 2 ^ 64 ∧ x.ReserveFits sizeofT (x.size + 1)
  | .appendArray a other => ∀ x ∈ s a, ∀ y ∈ s other,
      x.size + y.size < 2 ^ 64 ∧ x.ReserveFits sizeofT (x.size + y.size)
  | .appendRange a values => ∀ x ∈ s a, x.size + values.length < 2 ^ 64
      ∧ x.ReserveFits sizeofT (x.size + values.length)
  | _ => True

/-- Arrays as lists -/
abbrev Contents (T : Type) := ℕ → Option (List T)

/-- A list is replaced by what an operation makes of it. -/
def Contents.change (c : Contents T) (a : ℕ) (f : List T → List T) : Contents T :=
  Function.update c a ((c a).map f)

/-- What an operation does to lists -/
def Contents.next (c : Contents T) : Op T → Contents T
  | .create a | .createCapacity a _ => Function.update c a (some [])
  | .createCopy a other | .assign a other => Function.update c a (c other)
  | .reserve _ _ => c
  | .resize a size value =>
    c.change a fun l => l.take size ++ List.replicate (size - l.length) value
  | .append a value => c.change a (· ++ [value])
  | .appendArray a other => c.change a (· ++ (c other).getD [])
  | .appendRange a values => c.change a (· ++ values)
  | .remove a index => c.change a (·.eraseIdx index)
  | .removeAt a pos => c.change a (·.eraseIdx pos)
  | .removeFront a => c.change a List.tail
  | .removeBack a => c.change a List.dropLast
  | .clear a => c.change a fun _ => []
  | .swap a other => Function.update (Function.update c a (c other)) other (c a)
  | .destroy a => Function.update c a none

/-- The lists after some operations -/
def contents (ops : List (Op T)) : Contents T := ops.foldl Contents.next fun _ => none

/-- Arrays that hold lists -/
def Refines (s : State T) (c : Contents T) : Prop := ∀ a, Option.Rel Holds (s a) (c a)

namespace Refines

variable {s : State T} {c : Contents T}

lemma get (h : Refines s c) {a : ℕ} {x : ArrayData T} (ha : s a = some x) :
    ∃ l, c a = some l ∧ x.Holds l := by
  have hrel := h a
  rw [ha] at hrel
  cases hc : c a with
  | none =>
    rw [hc] at hrel
    nomatch hrel
  | some l =>
    rw [hc] at hrel
    cases hrel with
    | some hx => exact ⟨l, rfl, hx⟩

lemma update (h : Refines s c) (a : ℕ) {x : Option (ArrayData T)} {l : Option (List T)}
    (hx : Option.Rel Holds x l) : Refines (Function.update s a x) (Function.update c a l) := by
  intro b
  by_cases hb : b = a
  · subst hb
    rwa [Function.update_self, Function.update_self]
  · rw [Function.update_of_ne hb, Function.update_of_ne hb]
    exact h b

/-- An operation on one array -/
lemma change (h : Refines s c) {a : ℕ} {x : ArrayData T} (ha : s a = some x)
    {f : ArrayData T → Option (ArrayData T)} {g : List T → List T}
    (hf : ∀ l, c a = some l → x.Holds l → ∃ x', f x = some x' ∧ x'.Holds (g l)) :
    ∃ s', s.change a f = some s' ∧ Refines s' (c.change a g) := by
  obtain ⟨l, hl, hx⟩ := h.get ha
  obtain ⟨x', hrun, hx'⟩ := hf l hl hx
  refine ⟨Function.update s a (some x'), ?_, ?_⟩
  · rw [State.change, ha]
    simp only [Option.bind_eq_bind, Option.bind_some, hrun]
  · rw [Contents.change, hl]
    exact h.update a (.some hx')

end Refines

/-- **One operation** that fits -/
theorem exec_spec {sizeofT : ℕ} (hpos : 0 < sizeofT) {s : State T} {c : Contents T}
    (h : Refines s c) {op : Op T} (hop : op.Allowed s) (hfits : op.Fits sizeofT s) :
    ∃ s', exec sizeofT s op = some s' ∧ Refines s' (c.next op) := by
  cases op with
  | create a => exact ⟨_, rfl, h.update a (.some null_holds)⟩
  | createCapacity a capacity => exact ⟨_, rfl, h.update a (.some (ofCapacity_holds capacity))⟩
  | createCopy a other =>
    obtain ⟨y, hy⟩ := Option.isSome_iff_exists.mp hop.2
    obtain ⟨l, hl, hyl⟩ := h.get hy
    obtain ⟨x, hrun, hx⟩ := copy_spec hpos hyl (hfits y hy)
    refine ⟨Function.update s a (some x), ?_, ?_⟩
    · simp only [exec, hy, hrun, Option.bind_eq_bind, Option.bind_some]
    · rw [Contents.next, hl]
      exact h.update a (.some hx)
  | assign a other =>
    obtain ⟨x, hx⟩ := Option.isSome_iff_exists.mp hop.1
    obtain ⟨y, hy⟩ := Option.isSome_iff_exists.mp hop.2.1
    obtain ⟨l, hl, hyl⟩ := h.get hy
    obtain ⟨l₁, hl₁, -⟩ := h.get hx
    obtain ⟨s', hrun, hs'⟩ := h.change hx (f := fun x => x.assign sizeofT y)
      (g := fun _ => l)
      fun _ _ hxl => assign_spec hpos hxl hyl (hfits x hx y hy)
    refine ⟨s', ?_, ?_⟩
    · simp only [exec, hy, Option.bind_some, hrun]
    · rw [Contents.change, hl₁] at hs'
      rwa [Contents.next, hl]
  | reserve a size =>
    obtain ⟨x, hx⟩ := Option.isSome_iff_exists.mp hop.1
    obtain ⟨s', hrun, hs'⟩ := h.change hx (f := fun x => x.reserve sizeofT size)
      (g := id) fun l _ hxl => by
      obtain ⟨x', hrun, hx', -⟩ := reserve_spec hpos hxl (hfits x hx)
      exact ⟨x', hrun, hx'⟩
    refine ⟨s', hrun, ?_⟩
    rwa [Contents.change, Option.map_id, id, Function.update_eq_self] at hs'
  | resize a size value =>
    obtain ⟨x, hx⟩ := Option.isSome_iff_exists.mp hop.1
    exact h.change hx fun l _ hxl => resize_spec hpos hxl size value (hfits x hx)
  | append a value =>
    obtain ⟨x, hx⟩ := Option.isSome_iff_exists.mp hop
    obtain ⟨hlt, hreserve⟩ := hfits x hx
    exact h.change hx fun l _ hxl => append_spec hpos hxl value hlt hreserve
  | appendArray a other =>
    obtain ⟨x, hx⟩ := Option.isSome_iff_exists.mp hop.1
    obtain ⟨y, hy⟩ := Option.isSome_iff_exists.mp hop.2.1
    obtain ⟨l, hl, hyl⟩ := h.get hy
    obtain ⟨hlt, hreserve⟩ := hfits x hx y hy
    obtain ⟨s', hrun, hs'⟩ := h.change hx (f := fun x => x.appendArray sizeofT y)
      (g := (· ++ l))
      fun _ _ hxl => appendArray_spec hpos hxl hyl hlt hreserve
    refine ⟨s', ?_, ?_⟩
    · simp only [exec, hy, Option.bind_some, hrun]
    · rwa [Contents.next, hl]
  | appendRange a values =>
    obtain ⟨x, hx⟩ := Option.isSome_iff_exists.mp hop.1
    obtain ⟨hlt, hreserve⟩ := hfits x hx
    exact h.change hx fun l _ hxl => appendRange_spec hpos hxl values hlt hreserve
  | remove a index =>
    obtain ⟨x, hx⟩ := Option.isSome_iff_exists.mp hop
    exact h.change hx fun l _ hxl => remove_spec hxl index
  | removeAt a pos =>
    obtain ⟨x, hx, hpos⟩ := hop
    exact h.change hx fun l _ hxl => removeAt_spec hxl (hxl.size ▸ hpos)
  | removeFront a =>
    obtain ⟨x, hx, hpos⟩ := hop
    exact h.change hx fun l _ hxl => removeFront_spec hxl hpos
  | removeBack a =>
    obtain ⟨x, hx, hpos⟩ := hop
    exact h.change hx fun l _ hxl => removeBack_spec hxl hpos
  | clear a =>
    obtain ⟨x, hx⟩ := Option.isSome_iff_exists.mp hop
    exact h.change hx fun l _ hxl => by
      obtain ⟨x', hrun, hx', -⟩ := clear_spec hxl
      exact ⟨x', hrun, hx'⟩
  | swap a other =>
    obtain ⟨x, hx⟩ := Option.isSome_iff_exists.mp hop.1
    obtain ⟨y, hy⟩ := Option.isSome_iff_exists.mp hop.2
    refine ⟨Function.update (Function.update s a (some y)) other (some x), ?_, ?_⟩
    · simp only [exec, hx, hy, Option.bind_eq_bind, Option.bind_some]
    · rw [← hx, ← hy]
      exact (h.update a (h other)).update other (h a)
  | destroy a =>
    obtain ⟨x, hx⟩ := Option.isSome_iff_exists.mp hop
    obtain ⟨l, -, hxl⟩ := h.get hx
    obtain ⟨n, hrun⟩ := destruct_spec hxl
    refine ⟨Function.update s a none, ?_, h.update a .none⟩
    simp only [exec, hx, hrun, Option.bind_eq_bind, Option.bind_some]

/-- Programs with arrays of elements of `sizeofT` bytes, whose operations fit -/
def system (T : Type) (sizeofT : ℕ) : System (State T) (Op T) where
  initial s := s = fun _ => none
  step s es s' := ∃ op : Op T, es = [op] ∧ op.Allowed s ∧ op.Fits sizeofT s
    ∧ exec sizeofT s op = some s'

/-- Runs keep to the lists. -/
lemma run_refines {sizeofT : ℕ} (hpos : 0 < sizeofT) {ops : List (Op T)} {s : State T}
    (h : (system T sizeofT).Run ops s) : Refines s (contents ops) := by
  refine @System.Run.invariant _ _ (system T sizeofT) (fun ops s => Refines s (contents ops))
    ?_ ?_ _ _ h
  · rintro s rfl a
    exact .none
  · rintro trace s es s' ih ⟨op, rfl, hop, hfits, hrun⟩
    obtain ⟨s₁, hrun₁, hs₁⟩ := exec_spec hpos ih hop hfits
    obtain rfl := Option.some.inj (hrun.symm.trans hrun₁)
    rwa [contents, List.foldl_append]

/-- **Arrays are lists** in every run whose operations fit: the first slots of an array are objects,
    those of its list, and no other slot is one; the next operation that fits touches no slot in the
    wrong way; and what was constructed for an array is destroyed, once, when it is. -/
theorem array_refines {sizeofT : ℕ} (hpos : 0 < sizeofT) {ops : List (Op T)} {s : State T}
    (h : (system T sizeofT).Run ops s) :
    Refines s (contents ops)
      ∧ (∀ op : Op T, op.Allowed s → op.Fits sizeofT s → (exec sizeofT s op).isSome)
      ∧ ∀ a x, s a = some x → ∃ n, x.destruct = some (n, n) := by
  have hs := run_refines hpos h
  refine ⟨hs, fun op hop hfits => ?_, fun a x hx => ?_⟩
  · obtain ⟨s', hrun, -⟩ := exec_spec hpos hs hop hfits
    rw [hrun]
    rfl
  · obtain ⟨l, -, hxl⟩ := hs.get hx
    exact destruct_spec hxl

/-- A copy is made, and the original has an element removed. -/
theorem array_refines_copy : ∃ (s : State ℕ) (x : ArrayData ℕ), Refines s (contents
      [.create 0, .append 0 7, .append 0 8, .createCopy 1 0, .removeFront 0])
    ∧ s 1 = some x ∧ x.destruct = some (2, 2) := by
  obtain ⟨h, -, hdestruct⟩ := array_refines (T := ℕ) (by decide : 0 < 4) (.next (.next (.next
    (.next (.next (.start rfl) ⟨.create 0, rfl, rfl, trivial, rfl⟩)
      ⟨.append 0 7, rfl, rfl, by rintro x ⟨⟩; decide, rfl⟩)
      ⟨.append 0 8, rfl, rfl, by rintro x ⟨⟩; decide, rfl⟩)
      ⟨.createCopy 1 0, rfl, ⟨rfl, rfl⟩, by rintro x ⟨⟩; decide, rfl⟩)
      ⟨.removeFront 0, rfl, ⟨_, rfl, by decide⟩, trivial, rfl⟩)
  exact ⟨_, _, h, rfl, rfl⟩

/-- A capacity for which the number of bytes is more than `2 ^ 64`: there are slots for three elements
    of 4 bytes, and the fourth is constructed behind them. -/
theorem append_outside : ∃ (s : State ℕ) (m : Slots ℕ),
    [Op.createCapacity 0 (2 ^ 62), .append 0 1, .append 0 2, .append 0 3].foldlM (exec 4)
        (fun _ => none) = some s
      ∧ s 0 = some ⟨some m, 3, 2 ^ 62 + 3⟩ ∧ m.objects = [some 1, some 2, some 3]
      ∧ (Op.append 0 4).Allowed s ∧ exec 4 s (.append 0 4) = none :=
  ⟨_, _, rfl, rfl, rfl, rfl, rfl⟩

end Nstd.ArrayData
