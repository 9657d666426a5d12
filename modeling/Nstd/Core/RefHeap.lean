import Mathlib.Algebra.Ring.Nat
import Mathlib.Data.List.Count
import Mathlib.Data.Nat.Notation
import Mathlib.Tactic.Lemma

/-!
# Heaps of counted blocks

Blocks that hold pointers to other blocks, each with the number of pointers to it.  Addresses are
never used again.

* `Content` — what a block holds: its pointers, and its value given theirs.
* `Heap.new`, `Heap.increment`, `Heap.release` — the operations; the last two fail on a block that
  is gone.  `Heap.release` also gives up the pointers in blocks that nothing points to any more.
* `Denotes` — the value behind an address.
* `Keeps` — what can be reached from some roots has not changed.
* `Sound` — every count is right, as seen from a list of pointers from outside, the roots.
* **`Sound.new`**, **`Sound.increment`**, **`Sound.release`** — the operations succeed, keep the
  counts right and do not touch the values behind other roots.
* **`Sound.take`**, **`Sound.put`**, **`Sound.edit`** — a block that nothing else points to may be
  taken out, changed and put in again.
-/

namespace Nstd

/-- What a block may hold.  `pointers` are the addresses in it, and `value` is its value if those
    have values. -/
class Content (C : Type) (V : outParam Type) where
  pointers : C → List ℕ
  value : C → (ℕ → V) → V

/-- A block, and the number of pointers to it -/
structure Block (C : Type) where
  ref : ℕ
  content : C
  deriving DecidableEq

/-- Blocks by address, `none` where a block is gone -/
structure Heap (C : Type) where
  blocks : List (Option (Block C))

namespace Heap

variable {C V : Type} [Content C V]

/-- The block at an address -/
def get? (h : Heap C) (a : ℕ) : Option (Block C) := h.blocks[a]?.join

/-- Puts a block in place of another one. -/
def write (h : Heap C) (a : ℕ) (b : Option (Block C)) : Heap C := ⟨h.blocks.set a b⟩

/-- No block at all -/
def empty : Heap C := ⟨[]⟩

/-- A new block, with one pointer to it -/
def new (h : Heap C) (c : C) : Heap C × ℕ := (⟨h.blocks ++ [some ⟨1, c⟩]⟩, h.blocks.length)

/-- One more pointer to a block -/
def increment (h : Heap C) (a : ℕ) : Option (Heap C) := do
  let b ← h.get? a
  some (h.write a (some { b with ref := b.ref + 1 }))

/-- The block that was at an address is gone. -/
def Gone (h : Heap C) (a : ℕ) : Prop := a < h.blocks.length ∧ h.get? a = none

/-- The count of an address, 0 where there is no block -/
def ref (h : Heap C) (a : ℕ) : ℕ := (h.get? a).elim 0 Block.ref

/-- The pointers in a block that may be gone -/
def pointersOf (b : Option (Block C)) : List ℕ := b.elim [] fun b => Content.pointers b.content

/-- All pointers that are in blocks -/
def pointers (h : Heap C) : List ℕ := h.blocks.flatMap pointersOf

/-- The sum of all counts -/
def refs (h : Heap C) : ℕ := (h.blocks.map fun b => b.elim 0 Block.ref).sum

lemma get?_eq_some {h : Heap C} {a : ℕ} {b : Block C} :
    h.get? a = some b ↔ h.blocks[a]? = some (some b) := by
  cases hblock : h.blocks[a]? with
  | none => simp [get?, hblock]
  | some b' => simp [get?, hblock]

lemma lt_of_get? {h : Heap C} {a : ℕ} {b : Block C} (hb : h.get? a = some b) : a < h.blocks.length :=
  (List.getElem?_eq_some_iff.mp (get?_eq_some.mp hb)).1

lemma get?_write {h : Heap C} {a : ℕ} (ha : a < h.blocks.length) (x : Option (Block C)) :
    (h.write a x).get? a = x := by
  simp [get?, write, ha]

lemma get?_write_of_ne {h : Heap C} {a b : ℕ} (hne : b ≠ a) (x : Option (Block C)) :
    (h.write a x).get? b = h.get? b := by
  simp [get?, write, Ne.symm hne]

lemma Gone.write {h : Heap C} {a x : ℕ} (ha : h.Gone a) (hne : a ≠ x) (b : Option (Block C)) :
    (h.write x b).Gone a :=
  ⟨by simpa [Heap.write] using ha.1, (get?_write_of_ne hne b).trans ha.2⟩

/-- Sums change by what is set. -/
lemma sum_map_set {A : Type} (f : A → ℕ) {l : List A} {i : ℕ} {y : A} (h : l[i]? = some y)
    (x : A) : ((l.set i x).map f).sum + f y = (l.map f).sum + f x := by
  induction l generalizing i with
  | nil => simp at h
  | cons z zs ih =>
    cases i with
    | zero =>
      obtain rfl : z = y := by simpa using h
      simp only [List.set_cons_zero, List.map_cons, List.sum_cons]
      omega
    | succ i =>
      have hrest := ih (i := i) (by simpa using h)
      simp only [List.set_cons_succ, List.map_cons, List.sum_cons]
      omega

lemma getElem?_blocks {h : Heap C} {a : ℕ} (ha : a < h.blocks.length) :
    h.blocks[a]? = some (h.get? a) := by
  simp [get?, ha]

lemma refs_write {h : Heap C} {a : ℕ} (ha : a < h.blocks.length) (x : Option (Block C)) :
    (h.write a x).refs + (h.get? a).elim 0 Block.ref = h.refs + x.elim 0 Block.ref :=
  sum_map_set (fun b : Option (Block C) => b.elim 0 Block.ref) (getElem?_blocks ha) x

lemma count_pointers_write {h : Heap C} {a : ℕ} (ha : a < h.blocks.length)
    (x : Option (Block C)) (p : ℕ) :
    (h.write a x).pointers.count p + (pointersOf (h.get? a)).count p =
      h.pointers.count p + (pointersOf x).count p := by
  rw [pointers, pointers, List.count_flatMap, List.count_flatMap]
  exact sum_map_set (List.count p ∘ pointersOf) (getElem?_blocks ha) x

lemma mem_pointers {h : Heap C} {a p : ℕ} {b : Block C} (hb : h.get? a = some b)
    (hp : p ∈ Content.pointers b.content) : p ∈ h.pointers :=
  List.mem_flatMap.mpr ⟨some b, List.mem_of_getElem? (get?_eq_some.mp hb), hp⟩

/-- Gives up pointers.  A block that nothing points to any more is gone, and the pointers in it
    are given up as well. -/
def release (h : Heap C) : List ℕ → Option (Heap C)
  | [] => some h
  | a :: as =>
    match hb : h.get? a with
    | none => none
    | some ⟨0, _⟩ => none
    | some ⟨1, c⟩ => (h.write a none).release (Content.pointers c ++ as)
    | some ⟨n + 2, c⟩ => (h.write a (some ⟨n + 1, c⟩)).release as
  termination_by h.refs
  decreasing_by
    · have hrefs := refs_write (lt_of_get? hb) none
      simp only [hb, Option.elim_some, Option.elim_none] at hrefs
      omega
    · have hrefs := refs_write (lt_of_get? hb) (some ⟨n + 1, c⟩)
      simp only [hb, Option.elim_some] at hrefs
      omega

lemma release_nil (h : Heap C) : h.release [] = some h := by rw [release]

lemma release_one {h : Heap C} {a : ℕ} {c : C} (hb : h.get? a = some ⟨1, c⟩) (as : List ℕ) :
    h.release (a :: as) = (h.write a none).release (Content.pointers c ++ as) := by
  rw [release]
  split <;> simp_all

lemma release_succ {h : Heap C} {a n : ℕ} {c : C} (hb : h.get? a = some ⟨n + 2, c⟩)
    (as : List ℕ) : h.release (a :: as) = (h.write a (some ⟨n + 1, c⟩)).release as := by
  rw [release]
  split <;> simp_all

/-! ## Values -/

/-- The value behind an address -/
inductive Denotes (h : Heap C) : ℕ → V → Prop
  | block {a : ℕ} {b : Block C} {f : ℕ → V} : h.get? a = some b →
      (∀ p ∈ Content.pointers b.content, Denotes h p (f p)) →
        Denotes h a (Content.value b.content f)

/-- Values stay if contents do. -/
lemma Denotes.of_content {h h' : Heap C} {a : ℕ} {v : V} (hd : h.Denotes a v)
    (hsame : ∀ b, (h'.get? b).map Block.content = (h.get? b).map Block.content) :
    h'.Denotes a v := by
  induction hd with
  | @block a b f hb _ ih =>
    have hmap : (h'.get? a).map Block.content = some b.content := by rw [hsame, hb]; rfl
    obtain ⟨b', hb', hcontent⟩ := Option.map_eq_some_iff.mp hmap
    rw [← hcontent] at ih ⊢
    exact .block hb' ih

/-- Values stay if a block is changed that no block points to. -/
lemma Denotes.of_ne {h h' : Heap C} {x : ℕ} (hx : x ∉ h.pointers)
    (hsame : ∀ b, b ≠ x → h'.get? b = h.get? b) {a : ℕ} {v : V} (hd : h.Denotes a v)
    (hne : a ≠ x) : h'.Denotes a v := by
  induction hd with
  | block hb _ ih =>
    refine .block ((hsame _ hne).trans hb) fun p hp => ih p hp ?_
    rintro rfl
    exact hx (mem_pointers hb hp)

/-! ## Counts -/

/-- Every count is right if `roots` are the pointers from outside, and every block has a value. -/
structure Sound (roots : List ℕ) (h : Heap C) : Prop where
  count : ∀ a, h.ref a = roots.count a + h.pointers.count a
  pos : ∀ a b, h.get? a = some b → 0 < b.ref
  value : ∀ a b, h.get? a = some b → ∃ v : V, h.Denotes a v

/-- An address that pointers lead to from the roots -/
inductive Reach (roots : List ℕ) (h : Heap C) : ℕ → Prop
  | root {a : ℕ} : a ∈ roots → Reach roots h a
  | next {a p : ℕ} {b : Block C} : Reach roots h a → h.get? a = some b →
      p ∈ Content.pointers b.content → Reach roots h p

/-- The blocks that can be reached from some roots are still there; blocks that are gone stay so. -/
structure Keeps (roots : List ℕ) (h h' : Heap C) : Prop where
  content : ∀ a, Reach roots h a → ∀ b, h.get? a = some b →
    ∃ b', h'.get? a = some b' ∧ b'.content = b.content
  gone : ∀ a, h.Gone a → h'.Gone a

lemma ref_of_get? {h : Heap C} {a : ℕ} {b : Block C} (hb : h.get? a = some b) : h.ref a = b.ref := by
  rw [ref, hb]
  rfl

lemma Reach.mono {roots roots' : List ℕ} {h : Heap C} {a : ℕ} (hr : Reach roots' h a)
    (hsub : roots' ⊆ roots) : Reach roots h a := by
  induction hr with
  | root ha => exact .root (hsub ha)
  | next _ hb hp ih => exact .next ih hb hp

lemma Keeps.reach {roots : List ℕ} {h h' : Heap C} (hk : Keeps roots h h') {a : ℕ}
    (hr : Reach roots h a) : Reach roots h' a := by
  induction hr with
  | root ha => exact .root ha
  | next hr hb hp ih =>
    obtain ⟨b', hb', hcontent⟩ := hk.content _ hr _ hb
    rw [← hcontent] at hp
    exact .next ih hb' hp

/-- The values behind the roots stay. -/
lemma Keeps.value {roots : List ℕ} {h h' : Heap C} (hk : Keeps roots h h') {a : ℕ}
    (ha : a ∈ roots) {v : V} (hd : h.Denotes a v) : h'.Denotes a v := by
  have hr : Reach roots h a := .root ha
  clear ha
  induction hd with
  | @block a b f hb _ ih =>
    obtain ⟨b', hb', hcontent⟩ := hk.content a hr b hb
    have hchildren : ∀ p ∈ Content.pointers b'.content, h'.Denotes p (f p) := by
      intro p hp
      rw [hcontent] at hp
      exact ih p hp (.next hr hb hp)
    rw [← hcontent]
    exact .block hb' hchildren

lemma Keeps.refl (roots : List ℕ) (h : Heap C) : Keeps roots h h :=
  ⟨fun _ _ b hb => ⟨b, hb, rfl⟩, fun _ ha => ha⟩

lemma Keeps.trans {roots : List ℕ} {h h' h'' : Heap C} (hk : Keeps roots h h')
    (hk' : Keeps roots h' h'') : Keeps roots h h'' := by
  refine ⟨fun a hr b hb => ?_, fun a ha => hk'.gone a (hk.gone a ha)⟩
  obtain ⟨b', hb', hcontent⟩ := hk.content a hr b hb
  obtain ⟨b'', hb'', hcontent'⟩ := hk'.content a (hk.reach hr) b' hb'
  exact ⟨b'', hb'', hcontent'.trans hcontent⟩

lemma Keeps.mono {roots roots' : List ℕ} {h h' : Heap C} (hk : Keeps roots h h')
    (hsub : roots' ⊆ roots) : Keeps roots' h h' :=
  ⟨fun a hr => hk.content a (hr.mono hsub), hk.gone⟩

/-- The contents of two heaps are the same; there may be more addresses in the second one. -/
def SameContent (h h' : Heap C) : Prop :=
  h.blocks.length ≤ h'.blocks.length ∧
    ∀ a, (h'.get? a).map Block.content = (h.get? a).map Block.content

lemma SameContent.keeps {h h' : Heap C} (hsame : SameContent h h') (roots : List ℕ) :
    Keeps roots h h' := by
  refine ⟨fun a _ b hb => ?_, fun a ha => ⟨?_, ?_⟩⟩
  · have hmap : (h'.get? a).map Block.content = some b.content := by rw [hsame.2, hb]; rfl
    exact Option.map_eq_some_iff.mp hmap
  · exact Nat.lt_of_lt_of_le ha.1 hsame.1
  · have hmap : (h'.get? a).map Block.content = none := by rw [hsame.2, ha.2]; rfl
    exact Option.map_eq_none_iff.mp hmap

/-- The values behind roots stay when another block is written that no block points to. -/
lemma Keeps.of_write {h : Heap C} {roots : List ℕ} {x : ℕ} {b : Option (Block C)}
    (hx : x ∉ h.pointers) (hroots : x ∉ roots) (hgone : ∀ a, h.Gone a → (h.write x b).Gone a) :
    Keeps roots h (h.write x b) := by
  have hne : ∀ a, Reach roots h a → a ≠ x := by
    rintro a hr rfl
    cases hr with
    | root ha => exact hroots ha
    | next _ hb hp => exact hx (mem_pointers hb hp)
  exact ⟨fun a hr b' hb' => ⟨b', (get?_write_of_ne (hne a hr) b).trans hb', rfl⟩, hgone⟩

lemma Sound.perm {roots roots' : List ℕ} {h : Heap C} (hs : Sound roots h)
    (hperm : roots.Perm roots') : Sound roots' h :=
  { hs with count := fun a => by rw [hs.count a, hperm.count_eq] }

lemma Sound.empty : Sound [] (Heap.empty : Heap C) where
  count _ := rfl
  pos a b hb := by simp [get?, Heap.empty] at hb
  value a b hb := by simp [get?, Heap.empty] at hb

/-- A pointer leads to a block. -/
lemma Sound.live {roots : List ℕ} {h : Heap C} (hs : Sound roots h) {a : ℕ}
    (ha : a ∈ roots ∨ a ∈ h.pointers) : ∃ b, h.get? a = some b := by
  have hcount := hs.count a
  have hpos : 0 < roots.count a + h.pointers.count a := by
    obtain ha | ha := ha
    · have := List.count_pos_iff.mpr ha
      omega
    · have := List.count_pos_iff.mpr ha
      omega
  cases hb : h.get? a with
  | none =>
    rw [ref, hb, Option.elim_none] at hcount
    omega
  | some b => exact ⟨b, rfl⟩

lemma Sound.live_of_reach {roots roots' : List ℕ} {h : Heap C} (hs : Sound roots h) {a : ℕ}
    (hr : Reach roots' h a) (hsub : roots' ⊆ roots) : ∃ b, h.get? a = some b := by
  cases hr with
  | root ha => exact hs.live (.inl (hsub ha))
  | next _ hb hp => exact hs.live (.inr (mem_pointers hb hp))

/-- A root with a count of 1 is the only pointer to its block. -/
lemma Sound.unshared {a : ℕ} {roots : List ℕ} {h : Heap C} (hs : Sound (a :: roots) h)
    {b : Block C} (hb : h.get? a = some b) (hone : b.ref = 1) : a ∉ roots ∧ a ∉ h.pointers := by
  have hcount := hs.count a
  rw [ref_of_get? hb, hone, List.count_cons_self] at hcount
  constructor
  · intro ha
    have := List.count_pos_iff.mpr ha
    omega
  · intro ha
    have := List.count_pos_iff.mpr ha
    omega

/-! ## The operations -/

/-- Writing a block keeps the counts right if they add up. -/
lemma Sound.write {roots roots' : List ℕ} {h : Heap C} (hs : Sound roots h) {a : ℕ}
    (ha : a < h.blocks.length) {x : Option (Block C)}
    (hother : ∀ p, p ≠ a → roots'.count p + (pointersOf x).count p =
      roots.count p + (pointersOf (h.get? a)).count p)
    (hself : roots'.count a + (pointersOf x).count a + h.ref a =
      roots.count a + (pointersOf (h.get? a)).count a + x.elim 0 Block.ref)
    (hpos : ∀ b, x = some b → 0 < b.ref)
    (hvalue : ∀ b, x = some b → ∃ v : V, (h.write a x).Denotes a v)
    (hkeep : ∀ (p : ℕ) (v : V), p ≠ a → h.Denotes p v → (h.write a x).Denotes p v) :
    Sound roots' (h.write a x) where
  count p := by
    have hold := hs.count p
    have hpointers := count_pointers_write ha x p
    by_cases hp : p = a
    · subst hp
      have href : (h.write p x).ref p = x.elim 0 Block.ref := by rw [ref, get?_write ha]
      omega
    · have href : (h.write a x).ref p = h.ref p := by rw [ref, ref, get?_write_of_ne hp]
      have := hother p hp
      omega
  pos p b hb := by
    by_cases hp : p = a
    · subst hp
      rw [get?_write ha] at hb
      exact hpos b hb
    · rw [get?_write_of_ne hp] at hb
      exact hs.pos p b hb
  value p b hb := by
    by_cases hp : p = a
    · subst hp
      rw [get?_write ha] at hb
      exact hvalue b hb
    · rw [get?_write_of_ne hp] at hb
      obtain ⟨v, hd⟩ := hs.value p b hb
      exact ⟨v, hkeep p v hp hd⟩

/-- Contents stay when only a count is written. -/
lemma sameContent_write {h : Heap C} {a : ℕ} {b : Block C} (hb : h.get? a = some b) (r : ℕ) :
    SameContent h (h.write a (some ⟨r, b.content⟩)) := by
  refine ⟨by simp [Heap.write], fun p => ?_⟩
  by_cases hp : p = a
  · subst hp
    rw [get?_write (lt_of_get? hb), hb]
    rfl
  · rw [get?_write_of_ne hp]

/-- Pointers have values. -/
lemma Sound.values [Inhabited V] {roots : List ℕ} {h : Heap C} (hs : Sound roots h) {as : List ℕ}
    (has : ∀ a ∈ as, a ∈ roots ∨ a ∈ h.pointers) : ∃ f : ℕ → V, ∀ a ∈ as, h.Denotes a (f a) := by
  have hall : ∀ a : ℕ, ∃ v : V, a ∈ as → h.Denotes a v := by
    intro a
    by_cases ha : a ∈ as
    · obtain ⟨b, hb⟩ := hs.live (has a ha)
      obtain ⟨v, hv⟩ := hs.value a b hb
      exact ⟨v, fun _ => hv⟩
    · exact ⟨default, fun h => absurd h ha⟩
  choose f hf using hall
  exact ⟨f, hf⟩

/-- **Taking a block out** that has a count of 1: the pointers in it become roots. -/
theorem Sound.take {a : ℕ} {c : C} {roots : List ℕ} {h : Heap C} (hs : Sound (a :: roots) h)
    (hb : h.get? a = some ⟨1, c⟩) : Sound (Content.pointers c ++ roots) (h.write a none) ∧
      Keeps roots h (h.write a none) ∧ (h.write a none).Gone a := by
  obtain ⟨hroots, hin⟩ := hs.unshared hb rfl
  have hlt := lt_of_get? hb
  have hgone : (h.write a none).Gone a := ⟨by simpa [Heap.write] using hlt, get?_write hlt _⟩
  have hkeep : ∀ (p : ℕ) (v : V), p ≠ a → h.Denotes p v → (h.write a none).Denotes p v :=
    fun p v hp hd => hd.of_ne hin (fun p hp => get?_write_of_ne hp none) hp
  refine ⟨hs.write hlt (fun p hp => ?_) ?_ ?_ ?_ hkeep, .of_write hin hroots fun p hp => ?_, hgone⟩
  · simp only [List.count_cons_of_ne (Ne.symm hp), List.count_append, pointersOf, hb,
      Option.elim_none, Option.elim_some, List.count_nil]
    omega
  · simp only [List.count_cons_self, List.count_append, pointersOf, ref, hb, Option.elim_none,
      Option.elim_some, List.count_nil]
    omega
  · rintro _ ⟨⟩
  · rintro _ ⟨⟩
  · by_cases hne : p = a
    · exact hne ▸ hgone
    · exact hp.write hne none

/-- **Putting a block in** where one is gone: it takes pointers over from the roots, and is a root
    itself. -/
theorem Sound.put [Inhabited V] {a : ℕ} {c : C} {roots : List ℕ} {h : Heap C}
    (hs : Sound (Content.pointers c ++ roots) h) (ha : h.Gone a) :
    Sound (a :: roots) (h.write a (some ⟨1, c⟩)) ∧
      ∀ f : ℕ → V, (∀ p ∈ Content.pointers c, h.Denotes p (f p)) →
        (h.write a (some ⟨1, c⟩)).Denotes a (Content.value c f) := by
  have hcount := hs.count a
  have hin : a ∉ h.pointers := by
    intro hin
    have hpos := List.count_pos_iff.mpr hin
    rw [ref, ha.2, Option.elim_none] at hcount
    omega
  have hkeep : ∀ (p : ℕ) (v : V), h.Denotes p v → (h.write a (some ⟨1, c⟩)).Denotes p v := by
    intro p v hd
    refine hd.of_ne hin (fun p hp => get?_write_of_ne hp _) ?_
    rintro rfl
    obtain ⟨hb, -⟩ := hd
    rw [ha.2] at hb
    cases hb
  have hvalue : ∀ f : ℕ → V, (∀ p ∈ Content.pointers c, h.Denotes p (f p)) →
      (h.write a (some ⟨1, c⟩)).Denotes a (Content.value c f) :=
    fun f hf => .block (b := ⟨1, c⟩) (get?_write ha.1 _) fun p hp => hkeep p _ (hf p hp)
  refine ⟨hs.write ha.1 (fun p hp => ?_) ?_ ?_ ?_ fun p v _ => hkeep p v, hvalue⟩
  · simp only [List.count_cons_of_ne (Ne.symm hp), List.count_append, pointersOf, ha.2,
      Option.elim_none, Option.elim_some, List.count_nil]
    omega
  · simp only [List.count_cons_self, List.count_append, pointersOf, ref, ha.2, Option.elim_none,
      Option.elim_some, List.count_nil]
    omega
  · rintro _ ⟨⟩
    exact Nat.one_pos
  · rintro _ ⟨⟩
    obtain ⟨f, hf⟩ := hs.values fun p (hp : p ∈ Content.pointers c) =>
      .inl (List.mem_append_left _ hp)
    exact ⟨_, hvalue f hf⟩

lemma get?_room (h : Heap C) (p : ℕ) : (⟨h.blocks ++ [none]⟩ : Heap C).get? p = h.get? p := by
  by_cases hlt : p < h.blocks.length
  · simp [get?, List.getElem?_append_left hlt]
  · rw [get?, get?, List.getElem?_append_right (Nat.le_of_not_lt hlt),
      List.getElem?_eq_none (Nat.le_of_not_lt hlt)]
    cases p - h.blocks.length <;> simp

/-- Room for one more block -/
lemma Sound.room {roots : List ℕ} {h : Heap C} (hs : Sound roots h) :
    Sound roots (⟨h.blocks ++ [none]⟩ : Heap C) where
  count p := by
    have hpointers : (⟨h.blocks ++ [none]⟩ : Heap C).pointers = h.pointers := by
      simp [pointers, pointersOf]
    rw [ref, get?_room, hpointers]
    exact hs.count p
  pos p b hb := hs.pos p b (get?_room h p ▸ hb)
  value p b hb := by
    obtain ⟨v, hd⟩ := hs.value p b (get?_room h p ▸ hb)
    exact ⟨v, hd.of_content fun p => by rw [get?_room]⟩

/-- A new block is one that is put in at a new address. -/
lemma new_eq (h : Heap C) (c : C) : h.new c =
    ((⟨h.blocks ++ [none]⟩ : Heap C).write h.blocks.length (some ⟨1, c⟩), h.blocks.length) := by
  simp [Heap.new, Heap.write]

lemma get?_new_of_ne {h : Heap C} {a : ℕ} (c : C) (hne : a ≠ (h.new c).2) :
    (h.new c).1.get? a = h.get? a := by
  rw [new_eq] at hne ⊢
  rw [get?_write_of_ne hne, get?_room]

/-- **A new block** takes pointers over from the roots, and is a root itself. -/
theorem Sound.new [Inhabited V] {c : C} {roots : List ℕ} {h : Heap C}
    (hs : Sound (Content.pointers c ++ roots) h) :
    Sound ((h.new c).2 :: roots) (h.new c).1 ∧
      Keeps (Content.pointers c ++ roots) h (h.new c).1 ∧
      (h.new c).1.get? (h.new c).2 = some ⟨1, c⟩ ∧
      ∀ f : ℕ → V, (∀ p ∈ Content.pointers c, h.Denotes p (f p)) →
        (h.new c).1.Denotes (h.new c).2 (Content.value c f) := by
  have hget := get?_room h
  have hsame : SameContent h ⟨h.blocks ++ [none]⟩ := ⟨by simp, fun p => by rw [hget]⟩
  have hgone : (⟨h.blocks ++ [none]⟩ : Heap C).Gone h.blocks.length := by
    refine ⟨by simp, ?_⟩
    rw [hget]
    simp [get?]
  obtain ⟨hs', hvalue⟩ := hs.room.put hgone
  have hne : ∀ p b, h.get? p = some b → p ≠ h.blocks.length :=
    fun p b hb => Nat.ne_of_lt (lt_of_get? hb)
  rw [new_eq]
  refine ⟨hs', ⟨fun p _ b hb => ?_, fun p hp => ?_⟩, get?_write hgone.1 _,
    fun f hf => hvalue f fun p hp => (hf p hp).of_content hsame.2⟩
  · exact ⟨b, by rw [get?_write_of_ne (hne p b hb), hget, hb], rfl⟩
  · have hroomGone : (⟨h.blocks ++ [none]⟩ : Heap C).Gone p :=
      ⟨Nat.lt_of_lt_of_le hp.1 hsame.1, (hget p).trans hp.2⟩
    exact hroomGone.write (Nat.ne_of_lt hp.1) _

/-- **One more pointer** to a block -/
theorem Sound.increment {a : ℕ} {b : Block C} {roots : List ℕ} {h : Heap C} (hs : Sound roots h)
    (hb : h.get? a = some b) :
    ∃ h', h.increment a = some h' ∧ Sound (a :: roots) h' ∧ SameContent h h' := by
  obtain ⟨v, hd⟩ := hs.value a b hb
  have hsame := sameContent_write hb (b.ref + 1)
  refine ⟨_, by rw [Heap.increment, hb]; rfl, hs.write (lt_of_get? hb) (fun p hp => ?_) ?_ ?_ ?_ ?_,
    hsame⟩
  · rw [List.count_cons_of_ne (Ne.symm hp), hb]
    rfl
  · simp only [List.count_cons_self, pointersOf, ref, hb, Option.elim_some]
    omega
  · rintro _ ⟨⟩
    exact Nat.succ_pos _
  · exact fun _ _ => ⟨v, hd.of_content hsame.2⟩
  · exact fun p v _ hd => hd.of_content hsame.2

/-- One of several pointers to a block is given up. -/
lemma Sound.decrement {a n : ℕ} {c : C} {roots : List ℕ} {h : Heap C}
    (hs : Sound (a :: roots) h) (hb : h.get? a = some ⟨n + 2, c⟩) :
    Sound roots (h.write a (some ⟨n + 1, c⟩)) := by
  obtain ⟨v, hd⟩ := hs.value a _ hb
  have hsame := sameContent_write hb (n + 1)
  refine hs.write (lt_of_get? hb) (fun p hp => ?_) ?_ ?_ ?_ ?_
  · rw [List.count_cons_of_ne (Ne.symm hp), hb]
    rfl
  · simp only [List.count_cons_self, pointersOf, ref, hb, Option.elim_some]
    omega
  · rintro _ ⟨⟩
    exact Nat.succ_pos _
  · exact fun _ _ => ⟨v, hd.of_content hsame.2⟩
  · exact fun p v _ hd => hd.of_content hsame.2

/-- Blocks may have gone, and counts have become smaller. -/
def Shrinks (h h' : Heap C) : Prop :=
  ∀ a b', h'.get? a = some b' → ∃ b, h.get? a = some b ∧ b.content = b'.content ∧ b'.ref ≤ b.ref

lemma Shrinks.refl (h : Heap C) : Shrinks h h := fun _ b hb => ⟨b, hb, rfl, Nat.le_refl _⟩

lemma Shrinks.trans {h h' h'' : Heap C} (hs : Shrinks h h') (hs' : Shrinks h' h'') : Shrinks h h'' := by
  intro a b'' hb''
  obtain ⟨b', hb', hcontent', hle'⟩ := hs' a b'' hb''
  obtain ⟨b, hb, hcontent, hle⟩ := hs a b' hb'
  exact ⟨b, hb, hcontent.trans hcontent', Nat.le_trans hle' hle⟩

lemma Shrinks.of_write {h : Heap C} {a : ℕ} {b : Block C} (hb : h.get? a = some b)
    {x : Option (Block C)} (hx : ∀ b', x = some b' → b.content = b'.content ∧ b'.ref ≤ b.ref) :
    Shrinks h (h.write a x) := by
  intro p b' hb'
  by_cases hp : p = a
  · subst hp
    rw [get?_write (lt_of_get? hb)] at hb'
    exact ⟨b, hb, hx b' hb'⟩
  · rw [get?_write_of_ne hp] at hb'
    exact ⟨b', hb', rfl, Nat.le_refl _⟩

/-- Giving up pointers that succeeds changes the content of no block. -/
lemma Shrinks.of_release {as : List ℕ} {h h' : Heap C} (hrun : h.release as = some h') :
    Shrinks h h' := by
  induction h, as using Heap.release.induct with
  | case1 h =>
    obtain rfl := Option.some.inj ((release_nil h).symm.trans hrun)
    exact .refl _
  | case2 h a as hb =>
    rw [Heap.release] at hrun
    split at hrun <;> simp_all
  | case3 h a as c hb =>
    rw [Heap.release] at hrun
    split at hrun <;> simp_all
  | case4 h a as c hb ih =>
    rw [release_one hb] at hrun
    exact (Shrinks.of_write hb fun _ hx => by cases hx).trans (ih hrun)
  | case5 h a as n c hb ih =>
    rw [release_succ hb] at hrun
    refine (Shrinks.of_write hb ?_).trans (ih hrun)
    rintro _ ⟨⟩
    exact ⟨rfl, Nat.le_succ _⟩

/-- **Giving up roots** succeeds. -/
theorem Sound.release {as roots : List ℕ} {h : Heap C} (hs : Sound (as ++ roots) h) :
    ∃ h', h.release as = some h' ∧ Sound roots h' ∧ Keeps roots h h' ∧ Shrinks h h' := by
  induction h, as using Heap.release.induct with
  | case1 h => exact ⟨h, release_nil h, hs, .refl _ _, .refl _⟩
  | case2 h a as hb =>
    obtain ⟨b, hb'⟩ := hs.live (a := a) (.inl (by simp))
    rw [hb] at hb'
    cases hb'
  | case3 h a as c hb => exact absurd (hs.pos a _ hb) (by simp)
  | case4 h a as c hb ih =>
    rw [List.cons_append] at hs
    obtain ⟨htake, hfirst, -⟩ := hs.take hb
    rw [← List.append_assoc] at htake
    obtain ⟨h', hrun, hs', hkeep, hshrinks⟩ := ih htake
    have hroots := hfirst.mono (List.subset_append_right as roots)
    have hsmaller : Shrinks h (h.write a none) := .of_write hb fun _ hx => by cases hx
    exact ⟨h', (release_one hb as).trans hrun, hs', hroots.trans hkeep, hsmaller.trans hshrinks⟩
  | case5 h a as n c hb ih =>
    obtain ⟨h', hrun, hs', hkeep, hshrinks⟩ := ih (hs.decrement hb)
    have hfirst := (sameContent_write hb (n + 1)).keeps roots
    have hsmaller : Shrinks h (h.write a (some ⟨n + 1, c⟩)) := by
      refine .of_write hb ?_
      rintro _ ⟨⟩
      exact ⟨rfl, Nat.le_succ _⟩
    exact ⟨h', (release_succ hb as).trans hrun, hs', hfirst.trans hkeep, hsmaller.trans hshrinks⟩

/-- **What is done to a block** that was taken out, and is put in again -/
theorem Sound.edit [Inhabited V] {a : ℕ} {c c' : C} {roots : List ℕ} {h h' : Heap C}
    (hs : Sound (a :: roots) h) (hb : h.get? a = some ⟨1, c⟩)
    (hs' : Sound (Content.pointers c' ++ roots) h') (hkeep : Keeps roots (h.write a none) h') :
    Sound (a :: roots) (h'.write a (some ⟨1, c'⟩)) ∧
      Keeps roots h (h'.write a (some ⟨1, c'⟩)) ∧
      (h'.write a (some ⟨1, c'⟩)).get? a = some ⟨1, c'⟩ := by
  obtain ⟨hroots, hin⟩ := hs.unshared hb rfl
  obtain ⟨-, hfirst, htaken⟩ := hs.take hb
  have hgone := hkeep.gone a htaken
  have hboth := hfirst.trans hkeep
  refine ⟨(hs'.put hgone).1, ⟨fun p hr b hb' => ?_, fun p hp => ?_⟩, get?_write hgone.1 _⟩
  · have hne : p ≠ a := by
      rintro rfl
      cases hr with
      | root ha => exact hroots ha
      | next _ hb hp => exact hin (mem_pointers hb hp)
    obtain ⟨b', hb'', hcontent⟩ := hboth.content p hr b hb'
    exact ⟨b', (get?_write_of_ne hne _).trans hb'', hcontent⟩
  · have hne : p ≠ a := by
      rintro rfl
      rw [hp.2] at hb
      cases hb
    exact (hboth.gone p hp).write hne _

/-- **Writing to a block** in place, where the pointers in it stay -/
theorem Sound.rewrite [Inhabited V] {a : ℕ} {c : C} (c' : C) {roots : List ℕ} {h : Heap C}
    (hs : Sound (a :: roots) h) (hb : h.get? a = some ⟨1, c⟩)
    (hsame : Content.pointers c' = Content.pointers c) :
    Sound (a :: roots) (h.write a (some ⟨1, c'⟩)) ∧ Keeps roots h (h.write a (some ⟨1, c'⟩)) ∧
      (h.write a (some ⟨1, c'⟩)).get? a = some ⟨1, c'⟩ := by
  have htwice : (h.write a none).write a (some ⟨1, c'⟩) = h.write a (some ⟨1, c'⟩) := by
    simp [Heap.write]
  have htake := (hs.take hb).1
  rw [← hsame] at htake
  rw [← htwice]
  exact hs.edit hb htake (.refl _ _)

/-! ## Roots in variables -/

/-- One of several variables, and the other ones -/
lemma perm_eraseIdx {A : Type} {vars : List A} {i : ℕ} {x : A} (hi : vars[i]? = some x) :
    vars.Perm (x :: vars.eraseIdx i) := by
  induction vars generalizing i with
  | nil => simp at hi
  | cons y ys ih =>
    cases i with
    | zero =>
      obtain rfl : y = x := by simpa using hi
      exact .refl _
    | succ i =>
      have hrest := ih (i := i) (by simpa using hi)
      exact (hrest.cons y).trans (.swap x y _)

lemma perm_set {A : Type} {vars : List A} {i : ℕ} {x : A} (hi : vars[i]? = some x) (y : A) :
    (vars.set i y).Perm (y :: vars.eraseIdx i) := by
  have hlt : i < vars.length := (List.getElem?_eq_some_iff.mp hi).1
  have hset := perm_eraseIdx (List.getElem?_set_self (a := y) hlt)
  rwa [List.eraseIdx_set_eq] at hset

/-- Two variables swap what they hold. -/
lemma perm_swap {A : Type} {vars : List A} {i j : ℕ} {x y : A} (hne : i ≠ j)
    (hi : vars[i]? = some x) (hj : vars[j]? = some y) : ((vars.set i y).set j x).Perm vars := by
  have hj' : (vars.set i y)[j]? = some y := (List.getElem?_set_ne hne).trans hj
  have hrest : ((vars.set i y).eraseIdx j).Perm (vars.eraseIdx i) :=
    ((perm_eraseIdx hj').symm.trans (perm_set hi y)).cons_inv
  exact ((perm_set hj' x).trans (hrest.cons x)).trans (perm_eraseIdx hi).symm

/-- The roots of variables, those of one of them first -/
lemma roots_perm {A : Type} (f : A → List ℕ) {vars : List A} {i : ℕ} {x : A}
    (hi : vars[i]? = some x) : (vars.flatMap f).Perm (f x ++ (vars.eraseIdx i).flatMap f) :=
  (perm_eraseIdx hi).flatMap_right f

/-- The roots of variables after one of them was set -/
lemma roots_set_perm {A : Type} (f : A → List ℕ) {vars : List A} {i : ℕ} {x : A}
    (hi : vars[i]? = some x) (y : A) :
    ((vars.set i y).flatMap f).Perm (f y ++ (vars.eraseIdx i).flatMap f) :=
  (perm_set hi y).flatMap_right f

/-- The roots of another variable -/
lemma mem_roots_of_ne {A : Type} {f : A → List ℕ} {vars : List A} {i j a : ℕ} {x : A}
    (hne : j ≠ i) (hj : vars[j]? = some x) (ha : a ∈ f x) : a ∈ (vars.eraseIdx i).flatMap f :=
  List.mem_flatMap.mpr ⟨x, List.mem_eraseIdx_iff_getElem?.mpr ⟨j, hne, hj⟩, ha⟩

end Heap

end Nstd
