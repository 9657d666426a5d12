import Nstd.Core.HeldBlocks
import Nstd.Shared.RefCount
import Nstd.Shared.VariantSpecs

/-!
# Assignments from what the target keeps alive

`operator=` of a `Variant` and of a `Ptr` counts the new block before it releases the old one, but then
it reads its argument again, which may have been in the old one.

* `Variant.Sharing.assignFrom`, `RefCount.assignFrom` — the code, for an argument at a `Place`: in a
  block of variants, or in an object that has `Ptr`s for members.
* `Variant.Sharing.assigning_iff`, `RefCount.assigning_iff` — for one of the two.
* **`nested_assign_iff`** — an assignment is right just when something else holds the block of the
  argument.
-/

namespace Nstd

namespace Variant

namespace Sharing

variable {D : Type}

/-- **What an assignment is for**: the variant has the value that the other one had, and all counts are
    right. -/
def Assigning (h : Heap (Data D)) (this : Cell D) (kept : List ℕ) (other : Place) : Prop :=
  ∃ h' this', assignFrom h this other = some (h', this') ∧ h'.Sound (this'.pointers ++ kept)
    ∧ ∀ c ∈ readAt h other, ∀ v, c.Denotes h v → this'.Denotes h' v

/-- A place in a block that is still there -/
lemma readAt_remains {h h' : Heap (Data D)} {p : Place} {c : Cell D} {x : Block (Data D)}
    (hc : readAt h p = some c) (hx : h'.get? p.block = some x)
    (hcontent : ∀ y, h.get? p.block = some y → y.content = x.content) : readAt h' p = some c := by
  obtain ⟨b, hb, hcell⟩ := Option.bind_eq_some_iff.mp hc
  rw [readAt, hx, Option.bind_eq_bind, Option.bind_some, ← hcontent b hb]
  exact hcell

lemma readAt_gone {h : Heap (Data D)} {p : Place} (hnone : h.get? p.block = none) :
    readAt h p = none := by
  rw [readAt, hnone]
  rfl

/-- What is left of the heap when a variant is cleared, and of a place in it -/
lemma clear_readAt {h : Heap (Data D)} {this c : Cell D} {kept : List ℕ} {p : Place}
    (hs : h.Sound (this.pointers ++ kept)) (hc : readAt h p = some c) :
    ∃ h', clear h this = some (h', .null) ∧ h'.Sound kept
      ∧ Heap.Keeps kept h h'
      ∧ (h.Held kept p.block → readAt h' p = some c)
      ∧ (¬ h.Held kept p.block → readAt h' p = none) := by
  obtain ⟨h', hrun, hs', hkeep, hshrinks⟩ := clear_spec hs
  have hrelease : h.release this.pointers = some h' := by
    cases this with
    | null =>
      rw [← (Prod.mk.inj (Option.some.inj hrun)).1]
      exact Heap.release_nil h
    | scalar s =>
      rw [← (Prod.mk.inj (Option.some.inj hrun)).1]
      exact Heap.release_nil h
    | block data =>
      obtain ⟨h₁, hrun₁, heq⟩ := Option.bind_eq_some_iff.mp hrun
      rw [← (Prod.mk.inj (Option.some.inj heq)).1]
      exact hrun₁
  have hiff := hs.counted.release_iff hrelease p.block
  refine ⟨h', hrun, hs', hkeep, fun hheld => ?_, fun hheld => ?_⟩
  · obtain ⟨x, hx⟩ := hiff.mpr hheld
    refine readAt_remains hc hx fun y hy => ?_
    obtain ⟨z, hz, hcontent, -⟩ := hshrinks p.block x hx
    rw [Option.some.inj (hy.symm.trans hz), hcontent]
  · refine readAt_gone (Option.eq_none_iff_forall_ne_some.mpr fun x hx => ?_)
    exact hheld (hiff.mp ⟨x, hx⟩)

/-- What `assignFrom` does when something else holds the block that it reads from, and when nothing does -/
structure Assigns (h : Heap (Data D)) (this : Cell D) (kept : List ℕ) (other : Place) (c : Cell D) :
    Prop where
  held : h.Held kept other.block → ∃ h', assignFrom h this other = some (h', c)
    ∧ h'.Sound (c.pointers ++ kept) ∧ Heap.Keeps kept h h' ∧ ∀ v, c.Denotes h v → c.Denotes h' v
  lost : ¬ h.Held kept other.block → assignFrom h this other = none

/-- Null or a scalar is assigned. -/
lemma Assigns.of_scalar {h : Heap (Data D)} {this c : Cell D} {kept : List ℕ} {other : Place}
    (hs : h.Sound (this.pointers ++ kept)) (hc : readAt h other = some c) (hpointers : c.pointers = []) :
    Assigns h this kept other c := by
  obtain ⟨h₁, hclear, hs₁, hkeep, hheld, hlost⟩ := clear_readAt hs hc
  have hrun : assignFrom h this other = (readAt h₁ other).map fun data => (h₁, data) := by
    rw [assignFrom, hc]
    cases c with
    | block data => exact absurd hpointers (List.cons_ne_nil data [])
    | null =>
      simp only [Option.bind_eq_bind, Option.bind_some, hclear]
      cases readAt h₁ other <;> rfl
    | scalar s =>
      simp only [Option.bind_eq_bind, Option.bind_some, hclear]
      cases readAt h₁ other <;> rfl
  refine ⟨fun hother => ⟨h₁, by rw [hrun, hheld hother]; rfl, by rwa [hpointers], hkeep, ?_⟩, ?_⟩
  · intro v hd
    cases c with
    | block data => exact absurd hpointers (List.cons_ne_nil data [])
    | null => exact hd
    | scalar s => exact hd
  · intro hnot
    rw [hrun, hlost hnot]
    rfl

/-- **`operator=`** is right if something else holds the container that the other variant is in, and
    reads what is gone if nothing does. -/
lemma Assigns.of_sound {h : Heap (Data D)} {this c : Cell D} {kept : List ℕ} {other : Place}
    (hs : h.Sound (this.pointers ++ kept)) (hc : readAt h other = some c) :
    Assigns h this kept other c := by
  obtain ⟨b, hb, hcell⟩ := Option.bind_eq_some_iff.mp hc
  cases c with
  | block data =>
    have hdata : data ∈ Content.pointers b.content :=
      List.mem_flatMap.mpr ⟨_, List.mem_of_getElem? hcell, List.mem_singleton_self data⟩
    obtain ⟨x, hx⟩ := hs.live (.inr (Heap.mem_pointers hb hdata))
    obtain ⟨h₁, hincrement, hs₁, hsame⟩ := hs.increment hx
    have hs₁' : h₁.Sound (this.pointers ++ data :: kept) := hs₁.perm List.perm_middle.symm
    obtain ⟨y, hy, hcontent⟩ := Option.map_eq_some_iff.mp
      (show (h₁.get? other.block).map Block.content = some b.content by rw [hsame.2, hb]; rfl)
    have hc₁ : readAt h₁ other = some (.block data) := readAt_remains hc hy fun z hz => by
      rw [Option.some.inj (hz.symm.trans hb), hcontent]
    obtain ⟨h₂, hclear, hs₂, hkeep, hheld, hlost⟩ := clear_readAt hs₁' hc₁
    have hiff : h₁.Held (data :: kept) other.block ↔ h.Held kept other.block := by
      rw [Heap.held_increment hincrement]
      refine ⟨hs.held_of_cons hb hdata, ?_⟩
      rintro ⟨K, ha, hK⟩
      exact ⟨K, ha, fun b hb =>
        ⟨(hK b hb).1, (hK b hb).2.imp_left (List.mem_cons_of_mem data)⟩⟩
    have hrun : assignFrom h this other = (readAt h₂ other).map fun data => (h₂, data) := by
      rw [assignFrom, hc]
      simp only [Option.bind_eq_bind, Option.bind_some, hincrement, hclear]
      cases readAt h₂ other <;> rfl
    refine ⟨fun hother => ⟨h₂, by rw [hrun, hheld (hiff.mpr hother)]; rfl, hs₂, ?_, ?_⟩, ?_⟩
    · exact (hsame.keeps kept).trans (hkeep.mono (List.subset_cons_self data kept))
    · intro v hd
      exact hkeep.value List.mem_cons_self (Heap.Denotes.of_content hd hsame.2)
    · intro hnot
      rw [hrun, hlost (mt hiff.mp hnot)]
      rfl
  | null => exact .of_scalar hs hc rfl
  | scalar s => exact .of_scalar hs hc rfl

/-- An assignment does what it is for just when something else holds the container. -/
lemma assigning_iff {h : Heap (Data D)} {this c : Cell D} {kept : List ℕ} {other : Place}
    (hs : h.Sound (this.pointers ++ kept)) (hc : readAt h other = some c) :
    Assigning h this kept other ↔ h.Held kept other.block := by
  have hassigns := Assigns.of_sound hs hc
  constructor
  · rintro ⟨h', this', hrun, -⟩
    by_contra hnot
    rw [hassigns.lost hnot] at hrun
    exact Option.some_ne_none _ hrun.symm
  · intro hother
    obtain ⟨h', hrun, hs', -, hvalue⟩ := hassigns.held hother
    refine ⟨h', c, hrun, hs', fun c' hc' => ?_⟩
    obtain rfl := Option.some.inj (hc.symm.trans hc')
    exact hvalue

end Sharing

end Variant

namespace RefCount

/-- An object: the `Ptr`s that are members of it, which its destructor destroys -/
structure Object where
  members : List Ptr

instance : Content Object Unit where
  pointers o := o.members.flatMap fun p => p.refObj.toList
  value _ _ := ()

/-- The `Ptr` at a place -/
def readAt (h : Heap Object) (p : Place) : Option Ptr := do
  let o ← h.get? p.block
  o.content.members[p.index]?

/-- `if(refObj) Atomic::increment(refObj->ref)` -/
def retainObject (h : Heap Object) : Option ℕ → Option (Heap Object)
  | none => some h
  | some o => h.increment o

/-- `if(refObj && Atomic::decrement(refObj->ref) == 0) delete refObj`, with the members of the object -/
def releaseObject (h : Heap Object) (refObj : Option ℕ) : Option (Heap Object) :=
  h.release refObj.toList

/-- `operator=(const Ptr& other)` for an `other` in an object: it is read once more when the old object
    was released. -/
def assignFrom (h : Heap Object) (this : Ptr) (other : Place) : Option (Heap Object × Ptr) := do
  let p ← readAt h other
  let h ← retainObject h p.refObj
  let h ← releaseObject h this.refObj
  let p ← readAt h other
  some (h, ⟨p.refObj, p.obj⟩)

/-- **What an assignment is for**: the `Ptr` points to what the other one pointed to, and all counts are
    right. -/
def Assigning (h : Heap Object) (this : Ptr) (kept : List ℕ) (other : Place) : Prop :=
  ∃ h' this', assignFrom h this other = some (h', this') ∧ h'.Counted (this'.refObj.toList ++ kept)
    ∧ readAt h other = some this'

lemma retainObject_spec {h : Heap Object} {p : Ptr} {roots : List ℕ} (hs : h.Counted roots)
    (hlive : ∀ o ∈ p.refObj, ∃ x, h.get? o = some x) :
    ∃ h', retainObject h p.refObj = some h' ∧ h'.Counted (p.refObj.toList ++ roots)
      ∧ h.SameContent h'
      ∧ ∀ kept a, h'.Held (p.refObj.toList ++ kept) a ↔ h.Held (p.refObj.toList ++ kept) a := by
  cases hp : p.refObj with
  | none => exact ⟨h, rfl, hs, ⟨Nat.le_refl _, fun _ => rfl⟩, fun _ _ => Iff.rfl⟩
  | some o =>
    obtain ⟨x, hx⟩ := hlive o hp
    obtain ⟨h', hrun, hs', hsame⟩ := hs.increment hx
    exact ⟨h', hrun, hs', hsame, Heap.held_increment hrun⟩

/-- **`operator=`** is right just when what the other `Ptr` points to, or something else, holds the object
    that the other `Ptr` is in. -/
lemma assigning_iff {h : Heap Object} {this p : Ptr} {kept : List ℕ} {other : Place}
    (hs : h.Counted (this.refObj.toList ++ kept)) (hp : readAt h other = some p) :
    Assigning h this kept other ↔ h.Held (p.refObj.toList ++ kept) other.block := by
  obtain ⟨b, hb, hmember⟩ := Option.bind_eq_some_iff.mp hp
  have hlive : ∀ o ∈ p.refObj, ∃ x, h.get? o = some x := by
    intro o ho
    refine hs.live_of_mem (Heap.mem_pointers hb (List.mem_flatMap.mpr
      ⟨p, List.mem_of_getElem? hmember, ?_⟩))
    rw [Option.mem_def.mp ho]
    exact List.mem_singleton_self o
  obtain ⟨h₁, hretain, hs₁, hsame, hheld⟩ := retainObject_spec hs hlive
  have hs₁' : h₁.Counted (this.refObj.toList ++ (p.refObj.toList ++ kept)) := by
    refine hs₁.perm ?_
    rw [← List.append_assoc, ← List.append_assoc]
    exact List.perm_append_comm.append_right kept
  obtain ⟨h₂, hrelease, hs₂, hremains⟩ := hs₁'.release
  have hrun : assignFrom h this other = (readAt h₂ other).map fun p => (h₂, p) := by
    rw [assignFrom, hp]
    simp only [Option.bind_eq_bind, Option.bind_some, hretain, releaseObject, hrelease]
    cases readAt h₂ other <;> rfl
  rw [← hheld, ← hs₁'.release_iff hrelease]
  constructor
  · rintro ⟨h', this', hrun', -⟩
    cases hx : h₂.get? other.block with
    | some x => exact ⟨x, rfl⟩
    | none =>
      rw [hrun, readAt, hx] at hrun'
      exact absurd hrun'.symm (Option.some_ne_none _)
  · rintro ⟨x, hx⟩
    obtain ⟨y, hy, hcontent, -⟩ := hremains _ x hx
    have hmap : (h₁.get? other.block).map Block.content = some b.content := by
      rw [hsame.2, hb]
      rfl
    rw [hy] at hmap
    have hread : readAt h₂ other = some p := by
      rw [readAt, hx, Option.bind_eq_bind, Option.bind_some, ← hcontent, Option.some.inj hmap]
      exact hmember
    exact ⟨h₂, p, by rw [hrun, hread]; rfl, hs₂, hp⟩

end RefCount

/-- **Assignments of what is stored in the target's own container or object** are right just when
    something else holds the block that the argument is in, so that it is still there after the old
    value of the target was released. -/
theorem nested_assign_iff (D : Type) :
    (∀ (h : Heap (Variant.Sharing.Data D)) (v : Variant.Sharing.Cell D) (kept : List ℕ)
      (w : Place), h.Sound (v.pointers ++ kept) → (Variant.Sharing.readAt h w).isSome →
        (Variant.Sharing.Assigning h v kept w ↔ h.Held kept w.block))
    ∧ ∀ (h : Heap RefCount.Object) (p : RefCount.Ptr) (kept : List ℕ) (q : Place),
      h.Counted (p.refObj.toList ++ kept) → ∀ other, RefCount.readAt h q = some other →
        (RefCount.Assigning h p kept q ↔ h.Held (other.refObj.toList ++ kept) q.block) := by
  constructor
  · intro h v kept w hs hw
    obtain ⟨c, hc⟩ := Option.isSome_iff_exists.mp hw
    exact Variant.Sharing.assigning_iff hs hc
  · intro h p kept q hs other hother
    exact RefCount.assigning_iff hs hother

/-- A list of the number 7 that two variants share: one of them is assigned what is in the list. -/
theorem nested_assign_iff_shared :
    let h : Heap (Variant.Sharing.Data ℕ) := ⟨[some ⟨2, .list [.scalar (.int 7)]⟩]⟩
    h.Sound [0, 0] ∧ Variant.Sharing.Assigning h (.block 0) [0] ⟨0, 0⟩ := by
  intro h
  have hnew : (⟨[some ⟨1, .list [.scalar (.int 7)]⟩]⟩ : Heap (Variant.Sharing.Data ℕ)).Sound [0] :=
    (Heap.Sound.new (c := Variant.Sharing.Data.list [.scalar (.int 7)]) Heap.Sound.empty).1
  obtain ⟨h', hrun, hs, -⟩ := hnew.increment (a := 0) rfl
  obtain rfl : h = h' := Option.some.inj hrun
  refine ⟨hs, ((nested_assign_iff ℕ).1 h (.block 0) [0] ⟨0, 0⟩ hs rfl).mpr ?_⟩
  refine ⟨fun b => b = 0, rfl, ?_⟩
  rintro b rfl
  exact ⟨⟨_, rfl⟩, Or.inl (List.mem_singleton_self 0)⟩

/-- **A list of the number 7 that one variant owns**, and an object with a `Ptr` to another object that
    one `Ptr` keeps: what is in the list is assigned to the variant, and the member to the `Ptr`, and
    both are read when they were destroyed. -/
theorem nested_assign_released :
    let h : Heap (Variant.Sharing.Data ℕ) := ⟨[some ⟨1, .list [.scalar (.int 7)]⟩]⟩
    let g : Heap RefCount.Object := ⟨[some ⟨1, ⟨[⟨some 1, some 1⟩]⟩⟩, some ⟨1, ⟨[]⟩⟩]⟩
    h.Sound [0] ∧ Variant.Sharing.readAt h ⟨0, 0⟩ = some (.scalar (.int 7))
      ∧ Variant.Sharing.assignFrom h (.block 0) ⟨0, 0⟩ = none
      ∧ g.Counted [0] ∧ RefCount.readAt g ⟨0, 0⟩ = some ⟨some 1, some 1⟩
      ∧ RefCount.assignFrom g ⟨some 0, some 0⟩ ⟨0, 0⟩ = none := by
  intro h g
  refine ⟨?_, rfl, ?_, ?_, rfl, ?_⟩
  · exact (Heap.Sound.new (c := Variant.Sharing.Data.list [.scalar (.int 7)]) Heap.Sound.empty).1
  · have hrelease : h.release [0] = some ⟨[none]⟩ :=
      (Heap.release_one rfl []).trans (Heap.release_nil _)
    unfold Variant.Sharing.assignFrom
    rw [show Variant.Sharing.readAt h ⟨0, 0⟩ = some (.scalar (.int 7)) from rfl]
    simp only [Variant.Sharing.clear, hrelease, Option.bind_eq_bind, Option.bind_some]
    rfl
  · intro a
    rcases a with _ | _ | a
    · rfl
    · rfl
    · rfl
  · have hincrement : g.increment 1
        = some ⟨[some ⟨1, ⟨[⟨some 1, some 1⟩]⟩⟩, some ⟨2, ⟨[]⟩⟩]⟩ := rfl
    have hrelease : Heap.release
        (⟨[some ⟨1, ⟨[⟨some 1, some 1⟩]⟩⟩, some ⟨2, ⟨[]⟩⟩]⟩ : Heap RefCount.Object) [0]
        = some ⟨[none, some ⟨1, ⟨[]⟩⟩]⟩ :=
      (Heap.release_one rfl []).trans ((Heap.release_succ rfl []).trans (Heap.release_nil _))
    unfold RefCount.assignFrom
    rw [show RefCount.readAt g ⟨0, 0⟩ = some ⟨some 1, some 1⟩ from rfl]
    simp only [RefCount.retainObject, RefCount.releaseObject, Option.toList_some, hincrement, hrelease,
      Option.bind_eq_bind, Option.bind_some]
    rfl

end Nstd
