import Nstd.Core.RefHeap
import Nstd.Document.XmlParser

/-!
# `Xml::Variant` and its blocks

* `Data` — a block: an element or a text; elements hold variants in turn.
* `toElement` — access for writing.  It makes room for a copy of a shared element, but constructs
  the copy on top of the element itself.
* `Detached` — what the caller of `toElement` counts on.
* **`detached_iff`** — it is so if and only if no other variant shares the block.
-/

namespace Nstd.Xml

namespace Sharing

/-- A `Xml::Variant`: its block, `none` for `nullData` -/
abbrev Handle := Option ℕ

/-- `Xml::Element` in a block, or on its way into one -/
structure Stored where
  line : Int32
  column : ℕ
  type : List UInt8
  attributes : List (List UInt8 × List UInt8)
  content : List Handle
  deriving DecidableEq

/-- A default-constructed element -/
def Stored.empty : Stored := ⟨0, 0, [], [], []⟩

/-- What is behind the type and the count of a block -/
inductive Data
  /-- room for an element in which none was constructed -/
  | room
  | element (e : Stored)
  | text (s : List UInt8)
  deriving DecidableEq

/-- The value of a variant -/
def Handle.value (this : Handle) (f : ℕ → Variant) : Variant := this.elim .null f

/-- The pointers in a block -/
def Data.pointers : Data → List ℕ
  | .room => []
  | .element e => e.content.flatMap Option.toList
  | .text _ => []

/-- The value of what is in a block -/
def Data.value : Data → (ℕ → Variant) → Variant
  | .room, _ => .null
  | .element e, f =>
    .element ⟨e.line, e.column, e.type, e.attributes, e.content.map (Handle.value · f)⟩
  | .text s, _ => .text s

instance : Inhabited Variant := ⟨.null⟩

instance : Nstd.Content Data Variant where
  pointers := Data.pointers
  value := Data.value

/-! ## The functions -/

/-- `Variant(const Variant&)` -/
def copy (h : Heap Data) : Handle → Option (Heap Data × Handle)
  | none => some (h, none)
  | some data => do
    let h ← h.increment data
    some (h, some data)

/-- `Variant(const Variant&)` for each one in a list -/
def copyAll (h : Heap Data) : List Handle → Option (Heap Data × List Handle)
  | [] => some (h, [])
  | this :: rest => do
    let (h, this) ← copy h this
    let (h, rest) ← copyAll h rest
    some (h, this :: rest)

/-- `Variant(const Element&)` -/
def ofElement (h : Heap Data) (val : Stored) : Option (Heap Data × Handle) := do
  let (h, content) ← copyAll h val.content
  let (h, data) := h.new (.element { val with content })
  some (h, some data)

/-- `Variant(const String&)` -/
def ofText (h : Heap Data) (val : List UInt8) : Heap Data × Handle :=
  let (h, data) := h.new (.text val)
  (h, some data)

/-- `clear` -/
def clear (h : Heap Data) : Handle → Option (Heap Data × Handle)
  | none => some (h, none)
  | some data => do
    let h ← h.release [data]
    some (h, none)

/-- `new(element) Element(*(const Element*)(data + 1))`.  Where `element` is that element itself, the
    constructors of `attributes` and `content` make them empty before they copy what is in them. -/
def construct (h : Heap Data) (element data : ℕ) : Option (Heap Data) := do
  let source ← h.get? data
  let dest ← h.get? element
  match source.content with
  | .element e =>
    if element = data then
      some (h.write element (some { dest with
        content := .element { e with attributes := [], content := [] } }))
    else
      let (h, content) ← copyAll h e.content
      some (h.write element (some { dest with content := .element { e with content } }))
  | _ => none

/-- `toElement`: the heap, the variant, and the block that the returned reference is in -/
def toElement (h : Heap Data) (this : Handle) : Option (Heap Data × Handle × ℕ) :=
  match this.bind h.get? with
  | none | some ⟨_, .text _⟩ => do
    let (h, _) ← clear h this
    let (h, data) := h.new (.element .empty)
    some (h, some data, data)
  | some ⟨ref, _⟩ => do
    let data ← this
    if ref > 1 then
      let (h, newData) := h.new .room
      let h ← construct h data data
      let (h, _) ← clear h (some data)
      some (h, some newData, data)
    else some (h, some data, data)

/-! ## What it promises -/

/-- Variants, and their blocks -/
structure State where
  heap : Heap Data
  vars : List Handle

/-- Every count is the number of variants that point to the block. -/
def State.Sound (s : State) : Prop := s.heap.Sound (s.vars.flatMap Option.toList)

/-- The variant `i` had the value `v`.  Now it has been made ready for writing to the block `data`,
    in which its element is, equal to what it was.  No other variant shares it. -/
structure Detached (s : State) (i : ℕ) (v : Variant) (s' : State) (data : ℕ) : Prop where
  /-- The other variants are where they were. -/
  others : ∃ this, s'.vars = s.vars.set i this
  /-- The returned reference is to the element of the variant. -/
  own : s'.vars[i]? = some (some data)
  alone : s'.heap.ref data = 1
  equal : s'.heap.Denotes data v
  sound : s'.Sound
  /-- No other variant has changed. -/
  kept : ∀ j a w, j ≠ i → s.vars[j]? = some (some a) → s.heap.Denotes a w → s'.heap.Denotes a w
  /-- No other variant changes, whatever is written to the element. -/
  apart : ∀ b j a w, j ≠ i → s'.vars[j]? = some (some a) → s'.heap.Denotes a w →
    (s'.heap.write data b).Denotes a w

/-- `toElement` of the variant `i` -/
def State.toElement (s : State) (i : ℕ) : Option (State × ℕ) := do
  let this ← s.vars[i]?
  let (heap, this, data) ← Sharing.toElement s.heap this
  some (⟨heap, s.vars.set i this⟩, data)

/-- An element that is not shared is written to where it is. -/
lemma toElement_of_unshared {h : Heap Data} {data : ℕ} {e : Stored}
    (hb : h.get? data = some ⟨1, .element e⟩) :
    Sharing.toElement h (some data) = some (h, some data, data) := by
  simp [Sharing.toElement, hb]

/-- For a shared element, the reference that is returned is to the old block. -/
lemma toElement_of_shared {h h' : Heap Data} {this : Handle} {data r n : ℕ} {e : Stored}
    (hb : h.get? data = some ⟨n, .element e⟩) (hn : 1 < n)
    (hrun : Sharing.toElement h (some data) = some (h', this, r)) : this ≠ some r := by
  have hlt : data < h.blocks.length := Heap.lt_of_get? hb
  simp only [Sharing.toElement, Option.bind_some, hb, gt_iff_lt, if_pos hn,
    Option.bind_eq_bind, Option.bind_eq_some_iff] at hrun
  obtain ⟨h₁, -, ⟨h₂, _⟩, -, hrun⟩ := hrun
  simp only [Heap.new, Option.some.injEq, Prod.mk.injEq] at hrun
  obtain ⟨-, rfl, rfl⟩ := hrun
  simp only [ne_eq, Option.some.injEq]
  omega

/-- So a shared element is never detached. -/
lemma not_detached_of_shared {s s' : State} {i data r n : ℕ} {e : Stored} {v : Variant}
    (hi : s.vars[i]? = some (some data)) (hb : s.heap.get? data = some ⟨n, .element e⟩)
    (hn : 1 < n) (hrun : s.toElement i = some (s', r)) : ¬ Detached s i v s' r := by
  intro hdetached
  simp only [State.toElement, hi, Option.bind_eq_bind, Option.bind_some,
    Option.bind_eq_some_iff] at hrun
  obtain ⟨⟨h', this, r'⟩, hrun', hend⟩ := hrun
  obtain ⟨rfl, rfl⟩ := Prod.mk.inj (Option.some_inj.mp hend)
  have hown := hdetached.own
  have hlt : i < s.vars.length := (List.getElem?_eq_some_iff.mp hi).1
  rw [List.getElem?_set_self hlt] at hown
  exact toElement_of_shared hb hn hrun' (Option.some_inj.mp hown)

/-- **`toElement` is right** if and only if no other variant shares the block. -/
theorem detached_iff {s : State} {i data n : ℕ} {e : Stored} {v : Variant} (hs : s.Sound)
    (hi : s.vars[i]? = some (some data)) (hb : s.heap.get? data = some ⟨n, .element e⟩)
    (hv : s.heap.Denotes data v) :
    (∃ s' r, s.toElement i = some (s', r) ∧ Detached s i v s' r) ↔ n = 1 := by
  have hpos : 0 < n := hs.pos data _ hb
  constructor
  · rintro ⟨s', r, hrun, hdetached⟩
    by_contra hne
    exact not_detached_of_shared hi hb (by omega) hrun hdetached
  · rintro rfl
    have hset : s.vars.set i (some data) = s.vars := by
      obtain ⟨hlt, hget⟩ := List.getElem?_eq_some_iff.mp hi
      rw [← hget, List.set_getElem_self hlt]
    have hrun : s.toElement i = some (s, data) := by
      simp [State.toElement, hi, toElement_of_unshared hb, hset]
    have halone : Heap.Sound (data :: (s.vars.eraseIdx i).flatMap Option.toList) s.heap :=
      Heap.Sound.perm hs (Heap.roots_perm Option.toList hi)
    obtain ⟨hroots, hin⟩ := halone.unshared hb rfl
    refine ⟨s, data, hrun, ⟨some data, hset.symm⟩, hi, Heap.ref_of_get? hb, hv, hs,
      fun _ _ _ _ _ hd => hd, fun b j a w hj ha hd => ?_⟩
    have hmem := Heap.mem_roots_of_ne (f := Option.toList) hj ha (a := a) (by simp)
    have hne : a ≠ data := by
      rintro rfl
      exact hroots hmem
    exact hd.of_ne hin (fun p hp => Heap.get?_write_of_ne hp b) hne

/-- An element with an attribute and a text in it -/
def sample : Stored := ⟨1, 1, bytes "a", [(bytes "k", bytes "v")], [some 0]⟩

/-- A variant with that element, alone -/
def single : State := ⟨⟨[some ⟨1, .text (bytes "x")⟩, some ⟨1, .element sample⟩]⟩, [some 1]⟩

/-- Such a variant and a copy of it -/
def shared : State :=
  ⟨⟨[some ⟨1, .text (bytes "x")⟩, some ⟨2, .element sample⟩]⟩, [some 1, some 1]⟩

/-- How a program comes to that state -/
lemma shared_built : (do
    let (h, text) := ofText .empty (bytes "x")
    let (h, element) ← ofElement h { sample with content := [text] }
    let (h, _) ← clear h text
    let (h, other) ← copy h element
    some ⟨h, [element, other]⟩) = some shared := by
  have hcleared : clear ⟨[some ⟨2, .text (bytes "x")⟩, some ⟨1, .element sample⟩]⟩ (some 0) =
      some (single.heap, none) := by
    rw [clear, Heap.release_succ rfl, Heap.release_nil]
    rfl
  show (do
    let (h, _) ← clear ⟨[some ⟨2, .text (bytes "x")⟩, some ⟨1, .element sample⟩]⟩ (some 0)
    let (h, other) ← copy h (some 1)
    some (⟨h, [some 1, other]⟩ : State)) = some shared
  rw [hcleared]
  rfl

lemma single_sound : single.Sound := by
  have htext : Heap.Sound [0] (Heap.empty.new (Data.text (bytes "x"))).1 :=
    (Heap.Sound.new (c := Data.text (bytes "x")) .empty).1
  exact (Heap.Sound.new (c := Data.element sample) htext).1

lemma shared_sound : shared.Sound := by
  obtain ⟨h, hh, hs, -⟩ := single_sound.increment (a := 1) rfl
  obtain rfl := Option.some_inj.mp hh
  exact hs

lemma denotes_text {h : Heap Data} {data n : ℕ} {s : List UInt8}
    (hb : h.get? data = some ⟨n, .text s⟩) : h.Denotes data (.text s) := by
  have hnone : ∀ p ∈ Content.pointers (Data.text s), h.Denotes p ((fun _ => Variant.null) p) :=
    fun p hp => absurd hp List.not_mem_nil
  exact .block hb hnone

/-- The value of that element -/
def sampleValue : Variant :=
  .element ⟨1, 1, bytes "a", [(bytes "k", bytes "v")], [.text (bytes "x")]⟩

lemma denotes_sample {h : Heap Data} {n m : ℕ} (htext : h.get? 0 = some ⟨n, .text (bytes "x")⟩)
    (helement : h.get? 1 = some ⟨m, .element sample⟩) : h.Denotes 1 sampleValue := by
  have hcontent : ∀ p ∈ Content.pointers (Data.element sample),
      h.Denotes p ((fun _ => Variant.text (bytes "x")) p) := by
    intro p hp
    obtain rfl := List.mem_singleton.mp hp
    exact denotes_text htext
  exact .block helement hcontent

/-- `toElement` of a variant that shares nothing -/
theorem detached_iff_single :
    ∃ s' r, single.toElement 0 = some (s', r) ∧ Detached single 0 sampleValue s' r :=
  (detached_iff single_sound rfl rfl (denotes_sample rfl rfl)).mpr rfl

/-- After `toElement` of the copy -/
def damaged : State :=
  ⟨⟨[some ⟨1, .text (bytes "x")⟩, some ⟨1, .element ⟨1, 1, bytes "a", [], []⟩⟩,
    some ⟨1, .room⟩]⟩, [some 1, some 2]⟩

lemma shared_toElement : shared.toElement 1 = some (damaged, 1) := by
  have hcleared : clear ⟨[some ⟨1, .text (bytes "x")⟩,
      some ⟨2, .element ⟨1, 1, bytes "a", [], []⟩⟩, some ⟨1, .room⟩]⟩ (some 1) =
        some (damaged.heap, none) := by
    rw [clear, Heap.release_succ rfl, Heap.release_nil]
    rfl
  show (do
    let (heap, this, data) ← (do
      let (h, _) ← clear ⟨[some ⟨1, .text (bytes "x")⟩,
        some ⟨2, .element ⟨1, 1, bytes "a", [], []⟩⟩, some ⟨1, .room⟩]⟩ (some 1)
      some (h, some 2, 1))
    some ((⟨heap, [some 1, this]⟩ : State), data)) = _
  rw [hcleared]
  rfl

/-- **`toElement` of a copy**: the returned reference is to the element of the other variant, in
    which the attribute and the text are gone, and the variant itself has a block in which no
    element was constructed. -/
theorem toElement_copy : shared.Sound ∧ shared.vars = [some 1, some 1] ∧
    shared.heap.Denotes 1 sampleValue ∧ shared.toElement 1 = some (damaged, 1) ∧
      damaged.vars = [some 1, some 2] ∧
        damaged.heap.Denotes 1 (.element ⟨1, 1, bytes "a", [], []⟩) ∧
          damaged.heap.get? 2 = some ⟨1, .room⟩ ∧ ¬ Detached shared 1 sampleValue damaged 1 := by
  have hempty : ∀ p ∈ Content.pointers (Data.element ⟨1, 1, bytes "a", [], []⟩),
      damaged.heap.Denotes p ((fun _ => Variant.null) p) :=
    fun p hp => absurd hp List.not_mem_nil
  have hbroken : damaged.heap.Denotes 1 (.element ⟨1, 1, bytes "a", [], []⟩) :=
    .block (C := Data) (b := ⟨1, Data.element ⟨1, 1, bytes "a", [], []⟩⟩) rfl hempty
  exact ⟨shared_sound, rfl, denotes_sample rfl rfl, shared_toElement, rfl, hbroken, rfl,
    not_detached_of_shared rfl rfl (by decide) shared_toElement⟩

end Sharing

end Nstd.Xml
