import Nstd.Container.ArrayRuns

/-!
# `Array::operator=`, of another array or of the same one

* `State.assign` — the code, which reads the other array when this one is cleared.
* `Shows` — what can be read of an array; `slotsAfter` — the slots that `reserve` leaves.
* **`assigning_iff`** — which assignments are right.
-/

namespace Nstd.ArrayData

variable {T : Type}

/-- `operator=`: the other array is read when this one was cleared, and again when it has room. -/
def State.assign (sizeofT : ℕ) (s : State T) (a other : ℕ) : Option (State T) := do
  let s ← s.change a clear
  let y ← s other
  let s ← s.change a fun x => x.reserve sizeofT y.capacity
  let y ← s other
  s.change a fun x => x.copyItems y

/-- The elements are objects that can be read. -/
def Shows (a : ArrayData T) (l : List T) : Prop :=
  a.size = l.length ∧ ∀ i (hi : i < l.length), ∃ m, a.storage = some m ∧ m.read i = some l[i]

/-- The number of slots after a `reserve` -/
def slotsAfter (sizeofT : ℕ) (a : ArrayData T) (size : ℕ) : ℕ :=
  if size > a.capacity ∨ (a.storage.isNone ∧ size > 0) then
    sizeofT * a.newCapacity size % 2 ^ 64 / sizeofT
  else a.capacity

lemma read_objects {m : Slots T} {l : List T} {rest : List (Option T)}
    (h : m.objects = l.map some ++ rest) {i : ℕ} (hi : i < l.length) : m.read i = some l[i] := by
  have hget : m.objects[i]? = some (some l[i]) := by
    rw [h, List.getElem?_append_left (by rwa [List.length_map]), List.getElem?_map,
      List.getElem?_eq_getElem hi]
    rfl
  rw [Slots.read, hget]

lemma shows_of_objects {m : Slots T} {l : List T} {rest : List (Option T)} {size capacity : ℕ}
    (hsize : size = l.length) (h : m.objects = l.map some ++ rest) :
    Shows ⟨some m, size, capacity⟩ l :=
  ⟨hsize, fun _ hi => ⟨m, rfl, read_objects h hi⟩⟩

lemma shows_nil {a : ArrayData T} (h : a.size = 0) : a.Shows [] :=
  ⟨h, fun _ hi => absurd hi (Nat.not_lt_zero _)⟩

/-- What is constructed behind the elements, if there are slots for it -/
lemma constructAll_room {m : Slots T} {l : List T} {room : ℕ}
    (h : m.objects = l.map some ++ List.replicate room none) (vs : List T) :
    (vs.length ≤ room → ∃ m', m.constructAll l.length vs = some m'
      ∧ m'.objects = (l ++ vs).map some ++ List.replicate (room - vs.length) none)
    ∧ (room < vs.length → m.constructAll l.length vs = none) := by
  constructor
  · intro hle
    have hsplit : m.objects = l.map some
        ++ (List.replicate vs.length none ++ List.replicate (room - vs.length) none) := by
      rw [h, ← List.replicate_add, Nat.add_sub_cancel' hle]
    have hrun := Slots.constructAll_spec hsplit
    rw [List.length_map] at hrun
    refine ⟨_, hrun, ?_⟩
    rw [List.map_append, List.append_assoc]
  · intro hlt
    have hrun := Slots.constructAll_eq_none h hlt
    rwa [List.length_map] at hrun

/-- **`reserve`** of an array that was cleared -/
lemma reserve_empty (sizeofT : ℕ) {a : ArrayData T} (h : a.Holds []) (size : ℕ) :
    ∃ a', a.reserve sizeofT size = some a' ∧ a'.size = 0 ∧ (a'.storage = none → size = 0)
      ∧ ∀ m ∈ a'.storage, m.objects = List.replicate (a.slotsAfter sizeofT size) none := by
  rw [reserve, slotsAfter]
  split_ifs with hallocate
  · cases hm : a.storage with
    | none =>
      refine ⟨_, rfl, rfl, fun hnone => absurd hnone (Option.some_ne_none _), ?_⟩
      rintro m hm'
      rw [← Option.some.inj hm']
      rfl
    | some m =>
      have hsize : a.size = 0 := h.size
      simp only [hsize, Slots.moveAll, Option.bind_eq_bind, Option.bind_some]
      refine ⟨_, rfl, rfl, fun hnone => absurd hnone (Option.some_ne_none _), ?_⟩
      rintro m' hm'
      rw [← Option.some.inj hm']
      rfl
  · refine ⟨a, rfl, h.size, fun hnone => ?_, fun m hm => ?_⟩
    · rw [hnone] at hallocate
      exact Nat.eq_zero_of_not_pos fun hpos => hallocate (Or.inr ⟨rfl, hpos⟩)
    · rw [h.objects m hm]
      rfl

/-- **The copy of another array** -/
lemma copyItems_room {a y : ArrayData T} {l : List T} {room : ℕ}
    (hroom : ∀ m ∈ a.storage, m.objects = List.replicate room none)
    (hnone : a.storage = none → l = []) (hy : y.Holds l) :
    (l.length ≤ room → ∃ a', a.copyItems y = some a' ∧ a'.Shows l)
    ∧ (room < l.length → a.copyItems y = none) := by
  rw [copyItems]
  cases hsrc : y.storage with
  | none =>
    obtain rfl := hy.null hsrc
    have hzero : y.size = 0 := hy.size
    refine ⟨fun _ => ⟨{ a with size := 0 }, ?_, shows_nil rfl⟩, fun hlt => ?_⟩
    · cases a.storage <;> exact if_pos hzero
    · exact absurd hlt (Nat.not_lt_zero _)
  | some src =>
    cases hm : a.storage with
    | none =>
      obtain rfl := hnone hm
      exact ⟨fun _ => ⟨⟨none, 0, a.capacity⟩, if_pos hy.size, shows_nil rfl⟩,
        fun hlt => absurd hlt (Nat.not_lt_zero _)⟩
    | some m =>
      have hobjects : m.objects = ([] : List T).map some ++ List.replicate room none :=
        hroom m hm
      obtain ⟨hsome, hfails⟩ := constructAll_room hobjects l
      simp only [copyAll_elements hy hsrc, Option.bind_eq_bind]
      constructor
      · intro hle
        obtain ⟨m', hrun, hm'⟩ := hsome hle
        rw [List.length_nil] at hrun
        refine ⟨_, by rw [hrun]; rfl, shows_of_objects hy.size hm'⟩
      · intro hlt
        have hrun := hfails hlt
        rw [List.length_nil] at hrun
        rw [hrun]
        rfl

/-- **What an assignment is for**: the elements are those that the other array has now, and no other
    array is changed. -/
def Assigning (sizeofT : ℕ) (s : State T) (a other : ℕ) (l : List T) : Prop :=
  ∃ s' x, s.assign sizeofT a other = some s' ∧ s' a = some x ∧ x.Shows l
    ∧ ∀ b, b ≠ a → s' b = s b

lemma change_eq {s : State T} {a : ℕ} {x : ArrayData T} (hx : s a = some x)
    (f : ArrayData T → Option (ArrayData T)) :
    s.change a f = (f x).map fun x => Function.update s a (some x) := by
  rw [State.change, hx]
  simp only [Option.bind_eq_bind, Option.bind_some]
  cases f x <;> rfl

/-- **`operator=`** is right just when another array is assigned for whose elements there are slots, or
    an empty one. -/
lemma assigning_iff (sizeofT : ℕ) {s : State T} {a other : ℕ} {x y : ArrayData T} {l l' : List T}
    (hx : s a = some x) (hxl : x.Holds l) (hy : s other = some y) (hyl : y.Holds l') :
    Assigning sizeofT s a other l'
      ↔ (other ≠ a ∧ l'.length ≤ x.slotsAfter sizeofT y.capacity) ∨ l' = [] := by
  obtain ⟨x₁, hclear, hx₁, hcapacity, hstorage⟩ := clear_spec hxl
  have hslots : ∀ size, x₁.slotsAfter sizeofT size = x.slotsAfter sizeofT size := by
    intro size
    rw [slotsAfter, slotsAfter, newCapacity, newCapacity, hcapacity, hstorage]
  by_cases hne : other = a
  · subst hne
    obtain ⟨x₂, hreserve, hsize, -, -⟩ := reserve_empty sizeofT hx₁ x₁.capacity
    obtain ⟨x₃, hcopy, hx₃⟩ : ∃ x₃, x₂.copyItems x₂ = some x₃ ∧ x₃.size = 0 := by
      rw [copyItems]
      cases x₂.storage with
      | none => exact ⟨⟨none, 0, x₂.capacity⟩, if_pos hsize, rfl⟩
      | some m =>
        rw [hsize]
        exact ⟨_, rfl, rfl⟩
    have hrun : s.assign sizeofT other other = some (Function.update s other (some x₃)) := by
      rw [State.assign, change_eq hx, hclear]
      simp only [Option.map_some, Option.bind_eq_bind, Option.bind_some, Function.update_self]
      rw [change_eq (Function.update_self ..), hreserve]
      simp only [Option.map_some, Option.bind_some, Function.update_self]
      rw [change_eq (Function.update_self ..), hcopy, Option.map_some, Function.update_idem,
        Function.update_idem]
    constructor
    · rintro ⟨s', x', hrun', hx', hshows, -⟩
      rw [← Option.some.inj (hrun.symm.trans hrun'), Function.update_self] at hx'
      rw [← Option.some.inj hx'] at hshows
      exact Or.inr (List.length_eq_zero_iff.mp (hshows.1.symm.trans hx₃))
    · rintro (⟨hne, -⟩ | rfl)
      · exact absurd rfl hne
      · exact ⟨_, x₃, hrun, Function.update_self .., shows_nil hx₃,
          fun b hb => Function.update_of_ne hb ..⟩
  · obtain ⟨x₂, hreserve, hsize, hnone, hroom⟩ := reserve_empty sizeofT hx₁ y.capacity
    obtain ⟨hsome, hfails⟩ := copyItems_room hroom (fun hstorage => by
      have hbound := hyl.bound
      rw [hnone hstorage] at hbound
      exact List.length_eq_zero_iff.mp (Nat.le_zero.mp hbound)) hyl
    rw [hslots] at hsome hfails
    have hrun : s.assign sizeofT a other
        = (x₂.copyItems y).map fun x => Function.update s a (some x) := by
      rw [State.assign, change_eq hx, hclear]
      simp only [Option.map_some, Option.bind_eq_bind, Option.bind_some,
        Function.update_of_ne hne, hy]
      rw [change_eq (Function.update_self ..), hreserve]
      simp only [Option.map_some, Option.bind_some, Function.update_of_ne hne, hy]
      rw [change_eq (Function.update_self ..)]
      simp only [Function.update_idem]
    constructor
    · rintro ⟨s', x', hrun', -⟩
      refine Or.inl ⟨hne, Nat.le_of_not_lt fun hlt => ?_⟩
      rw [hrun, hfails hlt] at hrun'
      exact Option.some_ne_none _ hrun'.symm
    · intro hcases
      have hle : l'.length ≤ x.slotsAfter sizeofT y.capacity := by
        rcases hcases with ⟨-, hle⟩ | rfl
        · exact hle
        · exact Nat.zero_le _
      obtain ⟨x₃, hcopy, hx₃⟩ := hsome hle
      exact ⟨_, x₃, by rw [hrun, hcopy]; rfl, Function.update_self .., hx₃,
        fun b hb => Function.update_of_ne hb ..⟩

end Nstd.ArrayData
