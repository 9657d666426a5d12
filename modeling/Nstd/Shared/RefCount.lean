import Mathlib.Algebra.Ring.Nat
import Mathlib.Data.List.Count
import Mathlib.Data.Nat.Notation
import Mathlib.Logic.Function.Basic
import Mathlib.Tactic.Lemma
import Mathlib.Tactic.SplitIfs
import Nstd.Core.System

/-!
# `RefCount::Ptr`

A `Ptr` counts through `refObj` and gives access through `obj`.  The operations that construct,
assign and destroy keep the two together; `swap` exchanges `obj` and leaves `refObj` where it is.

* `Ptr.copy`, `Ptr.ofObject`, `Ptr.assign`, `Ptr.assignObject`, `Ptr.swap`, `Ptr.destroy`.
* `Sound` — both pointers are the same, and every count is right.
* `Counted.retain`, `Counted.release` — what one increment and one decrement do to the counts.
* **`ptrs_sound`** — in every run without a `swap` of pointers to different objects all is well; and
  such a `swap` is what breaks it.
* **`swap_unsound`** — a run where an object is deleted that a `Ptr` points to.
-/

namespace Nstd.RefCount

/-- The `ref` of every object that has not been deleted -/
abbrev Refs := ℕ → Option ℕ

/-- `if(refObj) Atomic::increment(refObj->ref)` -/
def retain (h : Refs) : Option ℕ → Option Refs
  | none => some h
  | some o => do
    let ref ← h o
    some (Function.update h o (some (ref + 1)))

/-- `Atomic::decrement(refObj->ref)`, which wraps at zero -/
def decrement (ref : ℕ) : ℕ := if ref = 0 then 2 ^ 64 - 1 else ref - 1

/-- `if(refObj && Atomic::decrement(refObj->ref) == 0) delete refObj` -/
def release (h : Refs) : Option ℕ → Option Refs
  | none => some h
  | some o => do
    let ref ← h o
    some (Function.update h o (if decrement ref = 0 then none else some (decrement ref)))

/-- A `Ptr`; an object is the same one whatever class it is seen as. -/
structure Ptr where
  refObj : Option ℕ
  obj : Option ℕ
  deriving DecidableEq

namespace Ptr

/-- `Ptr()` -/
def null : Ptr := ⟨none, none⟩

/-- `Ptr(D* obj)` -/
def ofObject (h : Refs) (obj : Option ℕ) : Option (Refs × Ptr) := do
  let h ← retain h obj
  some (h, ⟨obj, obj⟩)

/-- `Ptr(const Ptr& other)`, and `Ptr(const Ptr<D>& other)` with the same text -/
def copy (h : Refs) (other : Ptr) : Option (Refs × Ptr) := do
  let h ← retain h other.refObj
  some (h, ⟨other.refObj, other.obj⟩)

/-- `~Ptr()` -/
def destroy (h : Refs) (this : Ptr) : Option Refs := release h this.refObj

/-- `operator=(const Ptr& other)`, and `operator=(const Ptr<D>& other)` with the same text -/
def assign (h : Refs) (this other : Ptr) : Option (Refs × Ptr) := do
  let h ← retain h other.refObj
  let h ← release h this.refObj
  some (h, ⟨other.refObj, other.obj⟩)

/-- `operator=(C* obj)` -/
def assignObject (h : Refs) (this : Ptr) (obj : Option ℕ) : Option (Refs × Ptr) := do
  let h ← retain h obj
  let h ← release h this.refObj
  some (h, ⟨obj, obj⟩)

/-- `swap` -/
def swap (this other : Ptr) : Ptr × Ptr :=
  let tmp := other.obj
  let other := { other with obj := this.obj }
  ({ this with obj := tmp }, other)

end Ptr

/-- Objects and variables.  Objects below `next` have been made at some time; `none` is a variable
    in which no `Ptr` is constructed. -/
structure State where
  refs : Refs
  next : ℕ
  ptrs : List (Option Ptr)

/-- No object, and `n` variables -/
def State.initial (n : ℕ) : State := ⟨fun _ => none, 0, List.replicate n none⟩

/-- What a program may do with its objects and variables -/
inductive Move
  /-- an object is made, with a count of zero -/
  | newObject
  | null (x : ℕ)
  | ofObject (x : ℕ) (obj : Option ℕ)
  | copy (x y : ℕ)
  | destroy (x : ℕ)
  | assign (x y : ℕ)
  | assignObject (x : ℕ) (obj : Option ℕ)
  | swap (x y : ℕ)

namespace State

/-- The `Ptr` in a variable -/
def get? (s : State) (x : ℕ) : Option Ptr := s.ptrs[x]?.join

/-- The variable is there, and no `Ptr` is constructed in it. -/
def Vacant (s : State) (x : ℕ) : Prop := s.ptrs[x]? = some none

/-- An object that has not been deleted -/
def Live (s : State) (o : ℕ) : Prop := ∃ ref, s.refs o = some ref

/-- Puts a `Ptr` in a variable. -/
def put (s : State) (refs : Refs) (x : ℕ) (p : Option Ptr) : State :=
  { s with refs, ptrs := s.ptrs.set x p }

/-- What a program has to see to: a `Ptr` is constructed once and used in between, and raw pointers
    point to objects. -/
def Allowed (s : State) : Move → Prop
  | .newObject => True
  | .null x => s.Vacant x
  | .ofObject x obj => s.Vacant x ∧ ∀ o ∈ obj, s.Live o
  | .copy x y => s.Vacant x ∧ (s.get? y).isSome
  | .destroy x => (s.get? x).isSome
  | .assign x y => (s.get? x).isSome ∧ (s.get? y).isSome
  | .assignObject x obj => (s.get? x).isSome ∧ ∀ o ∈ obj, s.Live o
  | .swap x y => (s.get? x).isSome ∧ (s.get? y).isSome

/-- A move; `none` is the use of an object that was deleted. -/
def step (s : State) : Move → Option State
  | .newObject => some { s with refs := Function.update s.refs s.next (some 0), next := s.next + 1 }
  | .null x => some (s.put s.refs x (some .null))
  | .ofObject x obj => do
    let (h, p) ← Ptr.ofObject s.refs obj
    some (s.put h x (some p))
  | .copy x y => do
    let other ← s.get? y
    let (h, p) ← Ptr.copy s.refs other
    some (s.put h x (some p))
  | .destroy x => do
    let this ← s.get? x
    let h ← this.destroy s.refs
    some (s.put h x none)
  | .assign x y => do
    let this ← s.get? x
    let other ← s.get? y
    let (h, p) ← this.assign s.refs other
    some (s.put h x (some p))
  | .assignObject x obj => do
    let this ← s.get? x
    let (h, p) ← this.assignObject s.refs obj
    some (s.put h x (some p))
  | .swap x y => do
    let this ← s.get? x
    let other ← s.get? y
    let (this, other) := this.swap other
    some ((s.put s.refs x (some this)).put s.refs y (some other))

/-- The number of variables with an `obj` that points to the object -/
def holders (s : State) (o : ℕ) : ℕ := s.ptrs.countP fun p => (p.bind Ptr.obj) = some o

/-- **A sound state**: both pointers of a `Ptr` are the same, counts are right, and no `Ptr` points
    to an object that was deleted. -/
structure Sound (s : State) : Prop where
  same : ∀ x p, s.get? x = some p → p.refObj = p.obj
  ref : ∀ o ref, s.refs o = some ref → ref = s.holders o
  live : ∀ o, 0 < s.holders o → s.Live o

/-- The object is deleted just then when the last `Ptr` that points to it goes away. -/
def DeletesLast (s s' : State) : Prop :=
  ∀ o, s.Live o → (s'.refs o = none ↔ 0 < s.holders o ∧ s'.holders o = 0)

/-- The step leaves no `Ptr` with two different pointers: if it is a `swap`, both point to the same
    object. -/
def Together (s : State) : Move → Prop
  | .swap x y => (s.get? x).bind Ptr.obj = (s.get? y).bind Ptr.obj
  | _ => True

end State

/-! ## Counts -/

/-- What a pointer adds to the count of an object -/
def held (p : Option ℕ) (o : ℕ) : ℕ := if p = some o then 1 else 0

/-- Every count is the number `c` says, and what is counted is there. -/
structure Counted (h : Refs) (c : ℕ → ℕ) : Prop where
  ref : ∀ o ref, h o = some ref → ref = c o
  live : ∀ o, 0 < c o → ∃ ref, h o = some ref

lemma Counted.retain {h : Refs} {c : ℕ → ℕ} (hc : Counted h c) {p : Option ℕ}
    (hp : ∀ o ∈ p, ∃ ref, h o = some ref) :
    ∃ h', retain h p = some h' ∧ Counted h' (fun o => c o + held p o)
      ∧ ∀ o, h' o = none ↔ h o = none := by
  cases p with
  | none =>
    have hzero : (fun o => c o + held none o) = c := by
      funext o
      simp [held]
    exact ⟨h, rfl, hzero ▸ hc, fun o => Iff.rfl⟩
  | some a =>
    obtain ⟨ref, href⟩ := hp a rfl
    refine ⟨Function.update h a (some (ref + 1)), by simp [RefCount.retain, href], ⟨?_, ?_⟩, ?_⟩
    · intro o r hr
      by_cases ho : o = a
      · subst ho
        rw [Function.update_self] at hr
        rw [held, if_pos rfl, ← hc.ref o ref href]
        exact (Option.some_inj.mp hr).symm
      · rw [Function.update_of_ne ho] at hr
        rw [held, if_neg fun he => ho (Option.some_inj.mp he).symm, hc.ref o r hr, Nat.add_zero]
    · intro o ho
      by_cases hoa : o = a
      · subst hoa
        exact ⟨_, Function.update_self ..⟩
      · rw [held, if_neg fun he => hoa (Option.some_inj.mp he).symm] at ho
        rw [Function.update_of_ne hoa]
        exact hc.live o ho
    · intro o
      by_cases ho : o = a
      · subst ho
        simp [href]
      · rw [Function.update_of_ne ho]

lemma Counted.release {h : Refs} {c : ℕ → ℕ} (hc : Counted h c) {p : Option ℕ} (hp : ∀ o ∈ p, 0 < c o) :
    ∃ h', release h p = some h' ∧ Counted h' (fun o => c o - held p o)
      ∧ ∀ o, h' o = none ↔ h o = none ∨ p = some o ∧ c o = 1 := by
  cases p with
  | none =>
    have hzero : (fun o => c o - held none o) = c := by
      funext o
      simp [held]
    exact ⟨h, rfl, hzero ▸ hc, fun o => by simp⟩
  | some a =>
    have hpos := hp a rfl
    obtain ⟨ref, href⟩ := hc.live a hpos
    have hca := hc.ref a ref href
    have hdec : decrement ref = c a - 1 := by rw [decrement, if_neg (by omega), hca]
    refine ⟨Function.update h a (if c a - 1 = 0 then none else some (c a - 1)),
      by simp [RefCount.release, href, hdec], ⟨?_, ?_⟩, ?_⟩
    · intro o r hr
      by_cases ho : o = a
      · subst ho
        rw [Function.update_self] at hr
        split_ifs at hr
        rw [held, if_pos rfl]
        exact (Option.some_inj.mp hr).symm
      · rw [Function.update_of_ne ho] at hr
        rw [held, if_neg fun he => ho (Option.some_inj.mp he).symm, hc.ref o r hr, Nat.sub_zero]
    · intro o ho
      by_cases hoa : o = a
      · subst hoa
        rw [held, if_pos rfl] at ho
        exact ⟨c o - 1, by rw [Function.update_self, if_neg (by omega)]⟩
      · rw [held, if_neg fun he => hoa (Option.some_inj.mp he).symm, Nat.sub_zero] at ho
        rw [Function.update_of_ne hoa]
        exact hc.live o ho
    · intro o
      by_cases ho : o = a
      · subst ho
        rw [Function.update_self, href]
        constructor
        · intro hnone
          refine Or.inr ⟨rfl, ?_⟩
          by_contra hne
          rw [if_neg (by omega)] at hnone
          exact absurd hnone (Option.some_ne_none _)
        · rintro (hnone | ⟨-, hone⟩)
          · exact absurd hnone (Option.some_ne_none _)
          · rw [if_pos (by omega)]
      · rw [Function.update_of_ne ho]
        constructor
        · exact Or.inl
        · rintro (hnone | ⟨he, -⟩)
          · exact hnone
          · exact absurd (Option.some_inj.mp he).symm ho

/-! ## Moves -/

namespace State

lemma sound_iff {s : State} : s.Sound ↔
    (∀ x p, s.get? x = some p → p.refObj = p.obj) ∧ Counted s.refs s.holders :=
  ⟨fun h => ⟨h.same, h.ref, h.live⟩, fun h => ⟨h.1, h.2.ref, h.2.live⟩⟩

lemma get?_eq_some {s : State} {x : ℕ} {p : Ptr} : s.get? x = some p ↔ s.ptrs[x]? = some (some p) :=
  Option.join_eq_some_iff

/-- The `Ptr` in another variable is as it was, and the one in this variable is the new one. -/
lemma get?_put {s : State} {h : Refs} {x y : ℕ} {p : Option Ptr} {q : Ptr}
    (hq : (s.put h x p).get? y = some q) : s.get? y = some q ∧ x ≠ y ∨ p = some q := by
  rw [get?_eq_some, put, List.getElem?_set] at hq
  split_ifs at hq with hxy
  · exact Or.inr (Option.some_inj.mp hq)
  · exact Or.inl ⟨get?_eq_some.mpr hq, hxy⟩

/-- What a new `Ptr` in a variable does to the number of holders -/
lemma holders_put {s : State} {x : ℕ} {old : Option Ptr} (hx : s.ptrs[x]? = some old) (h : Refs)
    (p : Option Ptr) (o : ℕ) :
    (s.put h x p).holders o + held (old.bind Ptr.obj) o
      = s.holders o + held (p.bind Ptr.obj) o := by
  obtain ⟨hlt, hget⟩ := List.getElem?_eq_some_iff.mp hx
  have hle : s.ptrs[x] ∈ s.ptrs := List.getElem_mem hlt
  rw [holders, put, List.countP_set hlt, hget, holders, held, held]
  simp only [decide_eq_true_eq]
  by_cases hold : old.bind Ptr.obj = some o
  · have hpos : 0 < s.ptrs.countP fun p => decide (p.bind Ptr.obj = some o) :=
      List.countP_pos_iff.mpr ⟨old, hget ▸ hle, decide_eq_true hold⟩
    simp only [if_pos hold]
    omega
  · simp only [if_neg hold]
    omega

/-- An object that a `Ptr` points to has a holder. -/
lemma holders_pos {s : State} {x o : ℕ} {p : Ptr} (hx : s.get? x = some p) (hp : p.obj = some o) :
    0 < s.holders o :=
  List.countP_pos_iff.mpr ⟨some p, List.mem_of_getElem? (get?_eq_some.mp hx), decide_eq_true hp⟩

/-- The end of every move that changes one variable: its old `Ptr` gave up its object after the new
    one took hold of its own. -/
lemma Sound.put {s : State} (hs : s.Sound) {x : ℕ} {old p : Option Ptr} {h₁ h₂ : Refs}
    (hx : s.ptrs[x]? = some old) (hp : ∀ q, p = some q → q.refObj = q.obj)
    (h₁none : ∀ o, h₁ o = none ↔ s.refs o = none)
    (hc : Counted h₂ fun o => s.holders o + held (p.bind Ptr.obj) o - held (old.bind Ptr.obj) o)
    (h₂none : ∀ o, h₂ o = none ↔ h₁ o = none ∨
      old.bind Ptr.obj = some o ∧ s.holders o + held (p.bind Ptr.obj) o = 1) :
    (s.put h₂ x p).Sound ∧ s.DeletesLast (s.put h₂ x p) := by
  have hholders : (s.put h₂ x p).holders
      = fun o => s.holders o + held (p.bind Ptr.obj) o - held (old.bind Ptr.obj) o := by
    funext o
    have := holders_put hx h₂ p o
    omega
  refine ⟨sound_iff.mpr ⟨fun y q hq => ?_, hholders ▸ hc⟩, fun o ho => ?_⟩
  · rcases get?_put hq with ⟨hq, -⟩ | hq
    · exact hs.same y q hq
    · exact hp q hq
  · obtain ⟨ref, href⟩ := ho
    have hput := holders_put hx h₂ p o
    have hlast : held (old.bind Ptr.obj) o ≤ s.holders o := by
      by_cases hold : old.bind Ptr.obj = some o
      · cases old with
        | none => exact absurd hold (by simp)
        | some q =>
          rw [held, if_pos hold]
          exact holders_pos (get?_eq_some.mpr hx) hold
      · rw [held, if_neg hold]
        exact Nat.zero_le _
    rw [show (s.put h₂ x p).refs o = h₂ o from rfl, h₂none, h₁none, href]
    constructor
    · rintro (hnone | ⟨hold, hone⟩)
      · exact absurd hnone (Option.some_ne_none _)
      · rw [held, if_pos hold] at hput hlast
        omega
    · rintro ⟨hpos, hzero⟩
      by_cases hold : old.bind Ptr.obj = some o
      · refine Or.inr ⟨hold, ?_⟩
        rw [held, if_pos hold] at hput
        omega
      · rw [held, if_neg hold] at hput
        omega

/-- Every move that changes one variable counts its new object first and the old one after. -/
lemma Sound.replace {s : State} (hs : s.Sound) {x : ℕ} {old p : Option Ptr}
    (hx : s.ptrs[x]? = some old) (hp : ∀ q, p = some q → q.refObj = q.obj)
    (hlive : ∀ o ∈ p.bind Ptr.obj, s.Live o) :
    ∃ h₁ h₂, retain s.refs (p.bind Ptr.obj) = some h₁ ∧ release h₁ (old.bind Ptr.obj) = some h₂
      ∧ (s.put h₂ x p).Sound ∧ s.DeletesLast (s.put h₂ x p)
      ∧ ∀ o, s.refs o = none → h₂ o = none := by
  obtain ⟨h₁, hretain, hc₁, hnone₁⟩ := (sound_iff.mp hs).2.retain hlive
  have hpos : ∀ o ∈ old.bind Ptr.obj, 0 < s.holders o + held (p.bind Ptr.obj) o := by
    intro o ho
    cases old with
    | none => exact absurd ho (by simp)
    | some q => exact Nat.add_pos_left (holders_pos (get?_eq_some.mpr hx) ho) _
  obtain ⟨h₂, hrelease, hc₂, hnone₂⟩ := hc₁.release hpos
  obtain ⟨hs', hdel⟩ := hs.put hx hp hnone₁ hc₂ hnone₂
  refine ⟨h₁, h₂, hretain, hrelease, hs', hdel, fun o ho => ?_⟩
  rw [hnone₂, hnone₁]
  exact Or.inl ho

/-- Objects that were not made yet are not there. -/
def Fresh (s : State) : Prop := ∀ o, s.next ≤ o → s.refs o = none

/-- The state after an object was made -/
def made (s : State) : State :=
  { s with refs := Function.update s.refs s.next (some 0), next := s.next + 1 }

lemma made_refs_self (s : State) : s.made.refs s.next = some 0 := Function.update_self ..

lemma made_refs_ne {s : State} {o : ℕ} (h : o ≠ s.next) : s.made.refs o = s.refs o :=
  Function.update_of_ne h ..

/-- A new object has no holder yet. -/
lemma Sound.newObject {s : State} (hs : s.Sound) (hf : s.Fresh) :
    s.made.Sound ∧ s.DeletesLast s.made ∧ s.made.Fresh := by
  have hgone : s.refs s.next = none := hf s.next (Nat.le_refl _)
  have hzero : s.made.holders s.next = 0 := by
    by_contra hne
    obtain ⟨ref, href⟩ := hs.live s.next (Nat.pos_of_ne_zero hne)
    exact absurd (hgone.symm.trans href).symm (Option.some_ne_none ref)
  refine ⟨⟨hs.same, fun o ref href => ?_, fun o ho => ?_⟩, fun o ⟨ref, href⟩ => ?_, fun o ho => ?_⟩
  · by_cases hon : o = s.next
    · subst hon
      rw [made_refs_self] at href
      exact (Option.some_inj.mp href).symm.trans hzero.symm
    · rw [made_refs_ne hon] at href
      exact hs.ref o ref href
  · by_cases hon : o = s.next
    · subst hon
      exact ⟨0, s.made_refs_self⟩
    · obtain ⟨ref, href⟩ := hs.live o ho
      exact ⟨ref, (made_refs_ne hon).trans href⟩
  · have hon : o ≠ s.next := by
      rintro rfl
      exact absurd (hgone.symm.trans href).symm (Option.some_ne_none ref)
    refine iff_of_false ?_ fun ⟨hpos, hholders⟩ => absurd hholders (Nat.ne_of_gt hpos)
    rw [made_refs_ne hon, href]
    exact Option.some_ne_none ref
  · exact (made_refs_ne (Nat.ne_of_gt ho)).trans (hf o (Nat.le_of_succ_le ho))

/-- `swap` of two pointers to the same object does nothing. -/
lemma swap_same {s : State} {x y : ℕ} {p q : Ptr} (hx : s.get? x = some p) (hy : s.get? y = some q)
    (hobj : p.obj = q.obj) : s.step (.swap x y) = some s := by
  have hset : (s.ptrs.set x (some p)).set y (some q) = s.ptrs := by
    refine List.ext_getElem? fun i => ?_
    rw [List.getElem?_set, List.getElem?_set, List.length_set]
    have hx' := get?_eq_some.mp hx
    have hy' := get?_eq_some.mp hy
    split_ifs with h₁ h₂ h₃ h₄
    · rw [← h₁, hy']
    · rw [← h₁, List.getElem?_eq_none (Nat.le_of_not_lt h₂)]
    · rw [← h₃, hx']
    · rw [← h₃, List.getElem?_eq_none (Nat.le_of_not_lt h₄)]
    · rfl
  simp only [step, hx, hy, Option.bind_eq_bind, Option.bind_some, Ptr.swap, put, Option.some.injEq]
  rw [hobj]
  nth_rewrite 1 [← hobj]
  rw [hset]

/-- **One move.**  It does not use an object that was deleted.  Counts are right after it, and an object
    was deleted if nothing points to it any more, just when the move keeps the pointers together. -/
theorem step_spec {s : State} (hs : s.Sound) (hf : s.Fresh) (m : Move) (hm : s.Allowed m) :
    ∃ s', s.step m = some s' ∧ ((s'.Sound ∧ s.DeletesLast s') ↔ s.Together m)
      ∧ (s.Together m → s'.Fresh) := by
  have hput : ∀ {x : ℕ} {p : Option Ptr} {h₂ : Refs}, s.Together m →
      (s.put h₂ x p).Sound ∧ s.DeletesLast (s.put h₂ x p) ∧ (∀ o, s.refs o = none → h₂ o = none) →
      s.step m = some (s.put h₂ x p) →
      ∃ s', s.step m = some s' ∧ ((s'.Sound ∧ s.DeletesLast s') ↔ s.Together m)
        ∧ (s.Together m → s'.Fresh) := by
    intro x p h₂ htogether ⟨hs', hdel, hnone⟩ hrun
    exact ⟨_, hrun, iff_of_true ⟨hs', hdel⟩ htogether, fun _ o ho => hnone o (hf o ho)⟩
  have hself : ∀ {x : ℕ} {p : Ptr}, s.get? x = some p → ∀ o ∈ p.obj, s.Live o := fun hx o ho =>
    hs.live o (holders_pos hx ho)
  cases m with
  | newObject =>
    obtain ⟨hs', hdel, hf'⟩ := hs.newObject hf
    exact ⟨_, rfl, iff_of_true ⟨hs', hdel⟩ trivial, fun _ => hf'⟩
  | null x =>
    obtain ⟨h₁, h₂, hretain, hrelease, hdone⟩ := hs.replace (p := some Ptr.null) hm
      (fun q hq => by rw [← Option.some_inj.mp hq]; rfl) (by simp [Ptr.null])
    obtain rfl := Option.some_inj.mp hretain
    obtain rfl := Option.some_inj.mp hrelease
    exact hput trivial hdone rfl
  | ofObject x obj =>
    obtain ⟨h₁, h₂, hretain, hrelease, hdone⟩ := hs.replace (p := some ⟨obj, obj⟩) hm.1
      (fun q hq => by rw [← Option.some_inj.mp hq]) hm.2
    obtain rfl := Option.some_inj.mp hrelease
    refine hput trivial hdone ?_
    simp only [Option.bind_some] at hretain
    simp [step, Ptr.ofObject, hretain]
  | copy x y =>
    obtain ⟨q, hq⟩ := Option.isSome_iff_exists.mp hm.2
    have hsame := hs.same y q hq
    obtain ⟨h₁, h₂, hretain, hrelease, hdone⟩ := hs.replace (p := some q) hm.1
      (fun q' hq' => Option.some_inj.mp hq' ▸ hsame) (hself hq)
    obtain rfl := Option.some_inj.mp hrelease
    refine hput trivial hdone ?_
    simp only [Option.bind_some, ← hsame] at hretain
    simp [step, hq, Ptr.copy, hretain]
  | destroy x =>
    obtain ⟨p, hp⟩ := Option.isSome_iff_exists.mp hm
    obtain ⟨h₁, h₂, hretain, hrelease, hdone⟩ := hs.replace (p := none) (get?_eq_some.mp hp)
      (fun q hq => absurd hq (by simp)) (by simp)
    obtain rfl := Option.some_inj.mp hretain
    refine hput trivial hdone ?_
    simp only [Option.bind_some, ← hs.same x p hp] at hrelease
    simp [step, hp, Ptr.destroy, hrelease]
  | assign x y =>
    obtain ⟨p, hp⟩ := Option.isSome_iff_exists.mp hm.1
    obtain ⟨q, hq⟩ := Option.isSome_iff_exists.mp hm.2
    have hsame := hs.same y q hq
    obtain ⟨h₁, h₂, hretain, hrelease, hdone⟩ := hs.replace (p := some q) (get?_eq_some.mp hp)
      (fun q' hq' => Option.some_inj.mp hq' ▸ hsame) (hself hq)
    refine hput trivial hdone ?_
    simp only [Option.bind_some, ← hsame] at hretain
    simp only [Option.bind_some, ← hs.same x p hp] at hrelease
    simp [step, hp, hq, Ptr.assign, hretain, hrelease]
  | assignObject x obj =>
    obtain ⟨p, hp⟩ := Option.isSome_iff_exists.mp hm.1
    obtain ⟨h₁, h₂, hretain, hrelease, hdone⟩ := hs.replace (p := some ⟨obj, obj⟩)
      (get?_eq_some.mp hp) (fun q hq => by rw [← Option.some_inj.mp hq]) hm.2
    refine hput trivial hdone ?_
    simp only [Option.bind_some] at hretain
    simp only [Option.bind_some, ← hs.same x p hp] at hrelease
    simp [step, hp, Ptr.assignObject, hretain, hrelease]
  | swap x y =>
    obtain ⟨p, hp⟩ := Option.isSome_iff_exists.mp hm.1
    obtain ⟨q, hq⟩ := Option.isSome_iff_exists.mp hm.2
    by_cases hobj : p.obj = q.obj
    · refine ⟨s, swap_same hp hq hobj, iff_of_true ⟨hs, fun o ho => ?_⟩ ?_, fun _ => hf⟩
      · obtain ⟨ref, href⟩ := ho
        refine iff_of_false ?_ fun ⟨hpos, hzero⟩ => absurd hzero (Nat.ne_of_gt hpos)
        rw [href]
        exact Option.some_ne_none ref
      · rw [Together, hp, hq]
        exact hobj
    · have hnot : ¬ s.Together (.swap x y) := by
        rw [Together, hp, hq]
        exact hobj
      refine ⟨(s.put s.refs x (some ⟨p.refObj, q.obj⟩)).put s.refs y (some ⟨q.refObj, p.obj⟩),
        by simp [step, hp, hq, Ptr.swap], iff_of_false ?_ hnot, fun h => absurd h hnot⟩
      rintro ⟨hs', -⟩
      have hlt : y < s.ptrs.length := (List.getElem?_eq_some_iff.mp (get?_eq_some.mp hq)).1
      have hsame := hs'.same y ⟨q.refObj, p.obj⟩ (get?_eq_some.mpr (by
        simp [put, hlt]))
      exact hobj (hsame.symm.trans (hs.same y q hq))

end State

/-! ## Runs -/

/-- The program, as far as its moves are `ok` -/
def system (ok : State → Move → Prop) (n : ℕ) : System State Move where
  initial s := s = .initial n
  step s ms s' := ∃ m, s.Allowed m ∧ ok s m ∧ s.step m = some s' ∧ ms = [m]

lemma sound_initial (n : ℕ) : (State.initial n).Sound := by
  have hnone : ∀ x, (State.initial n).get? x = none := by
    intro x
    rw [State.get?, State.initial, List.getElem?_replicate]
    split_ifs
    · rfl
    · rfl
  have hzero : ∀ o, (State.initial n).holders o = 0 := by
    intro o
    rw [State.holders, List.countP_eq_zero]
    intro p hp
    rw [List.eq_of_mem_replicate hp]
    simp
  refine ⟨fun x p hx => ?_, fun o ref href => ?_, fun o ho => ?_⟩
  · rw [hnone] at hx
    exact absurd hx.symm (Option.some_ne_none p)
  · exact absurd href.symm (Option.some_ne_none ref)
  · rw [hzero] at ho
    exact absurd ho (Nat.lt_irrefl 0)

/-- **Every run** in which `swap` is only used on pointers to the same object keeps both pointers of
    every `Ptr` together, counts right, and deletes an object when the last `Ptr` to it goes away.
    Any other `swap` ends that at once. -/
theorem ptrs_sound {n : ℕ} {ms : List Move} {s : State}
    (h : (system State.Together n).Run ms s) : s.Sound ∧ ∀ m, s.Allowed m →
      ∃ s', s.step m = some s' ∧ ((s'.Sound ∧ s.DeletesLast s') ↔ s.Together m) := by
  have hstep : ∀ (trace : List Move) (s : State) (es : List Move) (s' : State),
      s.Sound ∧ s.Fresh → (system State.Together n).step s es s' → s'.Sound ∧ s'.Fresh := by
    rintro trace s es s' ⟨hs, hf⟩ ⟨m, hm, htogether, hrun, -⟩
    obtain ⟨s₁, hrun₁, hiff, hfresh⟩ := State.step_spec hs hf m hm
    obtain rfl := Option.some_inj.mp (hrun₁.symm.trans hrun)
    exact ⟨(hiff.mpr htogether).1, hfresh htogether⟩
  have hinitial : ∀ s, (system State.Together n).initial s → s.Sound ∧ s.Fresh := by
    rintro s rfl
    exact ⟨sound_initial n, fun _ _ => rfl⟩
  have hinv := h.invariant hinitial hstep
  refine ⟨hinv.1, fun m hm => ?_⟩
  obtain ⟨s', hrun, hiff, -⟩ := State.step_spec hinv.1 hinv.2 m hm
  exact ⟨s', hrun, hiff⟩

/-- Two variables and a pointer to one new object in the first -/
theorem ptrs_sound_pointer : ∃ s : State, s.Sound ∧ s.get? 0 = some ⟨some 0, some 0⟩ := by
  have hrun := ((System.Run.start rfl : (system State.Together 2).Run [] (State.initial 2)).next
    ⟨.newObject, trivial, trivial, rfl, rfl⟩).next
    ⟨.ofObject 0 (some 0), ⟨rfl, by rintro o ⟨⟩; exact ⟨0, rfl⟩⟩, trivial, rfl, rfl⟩
  exact ⟨_, (ptrs_sound hrun).1, rfl⟩

/-- **`swap` leaves `refObj` behind**: two objects, a pointer to each, and a `swap`; when the first
    pointer goes, the object goes that the second one points to. -/
theorem swap_unsound : ∃ s : State, (system (fun _ _ => True) 2).Run [.newObject, .newObject,
    .ofObject 0 (some 0), .ofObject 1 (some 1), .swap 0 1, .destroy 0] s ∧ ¬ s.Sound
      ∧ s.get? 1 = some ⟨some 1, some 0⟩ ∧ s.refs 0 = none := by
  have hrun := ((((((System.Run.start rfl : (system (fun _ _ => True) 2).Run []
    (State.initial 2)).next ⟨.newObject, trivial, trivial, rfl, rfl⟩).next
    ⟨.newObject, trivial, trivial, rfl, rfl⟩).next
    ⟨.ofObject 0 (some 0), ⟨rfl, by rintro o ⟨⟩; exact ⟨0, rfl⟩⟩, trivial, rfl, rfl⟩).next
    ⟨.ofObject 1 (some 1), ⟨rfl, by rintro o ⟨⟩; exact ⟨0, rfl⟩⟩, trivial, rfl, rfl⟩).next
    ⟨.swap 0 1, ⟨rfl, rfl⟩, trivial, rfl, rfl⟩).next ⟨.destroy 0, rfl, trivial, rfl, rfl⟩
  refine ⟨_, hrun, fun hs => ?_, rfl, rfl⟩
  exact absurd (hs.same 1 ⟨some 1, some 0⟩ rfl) (by decide)

end Nstd.RefCount
