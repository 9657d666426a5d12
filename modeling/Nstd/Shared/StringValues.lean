import Nstd.Core.System
import Nstd.Shared.Strings

/-!
# What the functions of `String` come to

* `Wf` — the memory of every block is as large as its capacity says, and its length is within.
* `Shows` — the bytes of a string; `Has` — what is in its block, if it has one.
* `Yields` — a function succeeds, keeps the counts right, does not touch what is kept, and leaves
  certain bytes.
* `Ended`, `Fine` — a block with a zero behind its bytes, or at least at their beginning.
* **`detach_shows`** — after `detach` the string has a block of its own, which is ended if the string
  was not empty, or if it had that block before.
* `append_yields`, `prepend_yields` and so on — one function each.
-/

namespace Nstd.Strings

open Heap (Keeps SameContent Shrinks)

variable (memory : ℕ → ℕ → UInt8)

/-- There is room for the bytes and for the end of the string. -/
structure Data.Ok (c : Data) : Prop where
  str : c.str.length = c.capacity + 1
  len : c.len ≤ c.capacity

/-- The byte behind the bytes of the string is its end. -/
def Data.Ended (c : Data) : Prop := c.str[c.len]? = some 0

/-- There is an end somewhere: behind the bytes, or at their beginning. -/
def Data.Fine (c : Data) : Prop := c.Ended ∨ c.str[0]? = some 0

/-- All blocks are large enough. -/
def Wf (h : Heap Data) : Prop := ∀ a b, h.get? a = some b → b.content.Ok

/-! ## Memory -/

/-- Bytes are put behind others. -/
lemma put_eq {str a : List UInt8} (bytes : List UInt8) (ha : a <+: str)
    (h : a.length + bytes.length ≤ str.length) : ∃ s, put str a.length bytes = some s
      ∧ s.length = str.length ∧ a ++ bytes <+: s
      ∧ ∀ i, a.length + bytes.length ≤ i → s[i]? = str[i]? := by
  obtain ⟨rest, rfl⟩ := ha
  have hdrop : (a ++ rest).drop (a.length + bytes.length) = rest.drop bytes.length := by
    rw [List.drop_append, List.drop_of_length_le (Nat.le_add_right _ _), List.nil_append,
      Nat.add_sub_cancel_left]
  refine ⟨a ++ bytes ++ rest.drop bytes.length, ?_, ?_, List.prefix_append _ _, fun i hi => ?_⟩
  · rw [put, if_pos h, List.take_left, hdrop]
  · rw [List.length_append] at h
    simp only [List.length_append, List.length_drop]
    omega
  · rw [List.getElem?_append_right (by rw [List.length_append]; exact hi), List.getElem?_drop,
      List.getElem?_append_right (by omega), List.length_append]
    congr 1
    omega

/-- The end of a string is put behind its bytes. -/
lemma put_end (str : List UInt8) (i : ℕ) (h : i < str.length) :
    ∃ s, put str i [0] = some s ∧ s.length = str.length ∧ s[i]? = some 0
      ∧ (∀ j, j ≠ i → s[j]? = str[j]?) ∧ ∀ a : List UInt8, a <+: str → a.length ≤ i → a <+: s := by
  have hi : (str.take i).length = i := List.length_take_of_le (Nat.le_of_lt h)
  obtain ⟨s, hput, hlength, hbegins, hbehind⟩ := put_eq [0] (List.take_prefix i str) (by rw [hi]; exact h)
  rw [hi] at hput hbehind
  have hget : ∀ j, j < i + 1 → s[j]? = (str.take i ++ [0])[j]? := by
    intro j hj
    obtain ⟨rest, rfl⟩ := hbegins
    rw [List.getElem?_append_left]
    rw [List.length_append, hi]
    exact hj
  refine ⟨s, hput, hlength, ?_, fun j hj => ?_, fun a ha hle => ?_⟩
  · rw [hget i (Nat.lt_succ_self i), List.getElem?_append_right (by rw [hi]), hi, Nat.sub_self]
    rfl
  · by_cases hji : j < i
    · rw [hget j (Nat.lt_succ_of_lt hji), List.getElem?_append_left (by rw [hi]; exact hji),
        List.getElem?_take_of_lt hji]
    · exact hbehind j (Nat.lt_of_le_of_ne (Nat.not_lt.mp hji) (Ne.symm hj))
  · exact ((List.prefix_take_iff.mpr ⟨ha, hle⟩).trans (List.prefix_append _ [0])).trans hbegins

lemma take_eq {str v : List UInt8} (hv : v <+: str) : take str v.length = some v := by
  rw [take, if_pos hv.length_le, ← List.prefix_iff_eq_take.mp hv]

/-- The bytes up to the first zero are replaced. -/
def replaceText (f : UInt8 → UInt8) : List UInt8 → List UInt8
  | [] => []
  | c :: v => if c = 0 then c :: v else f c :: replaceText f v

lemma replaceText_length (f : UInt8 → UInt8) (v : List UInt8) : (replaceText f v).length = v.length := by
  induction v with
  | nil => rfl
  | cons c v ih =>
    rw [replaceText]
    split_ifs
    · rfl
    · rw [List.length_cons, List.length_cons, ih]

/-- The bytes of a string that ends behind them -/
lemma replaceBytes_eq (f : UInt8 → UInt8) (v rest : List UInt8) :
    replaceBytes f (v ++ 0 :: rest) = some (replaceText f v ++ 0 :: rest) := by
  induction v with
  | nil => simp [replaceBytes, replaceText]
  | cons c v ih =>
    by_cases hc : c = 0
    · simp [replaceBytes, replaceText, hc]
    · simp [replaceBytes, replaceText, hc, ih]

/-! ## Strings -/

/-- The bytes of a string -/
def Cell.Shows (h : Heap Data) (c : Cell) (v : List UInt8) : Prop :=
  lenOf h c = some v.length ∧ ∃ str, strOf h c = some str ∧ v <+: str

/-- What holds of the block of a string, if it has one -/
def Cell.Has (h : Heap Data) (p : Data → Prop) (c : Cell) : Prop :=
  ∀ data, c = .block data → ∀ b, h.get? data = some b → p b.content

lemma Cell.Shows.unique {h : Heap Data} {c : Cell} {v w : List UInt8} (hv : c.Shows h v)
    (hw : c.Shows h w) : v = w := by
  obtain ⟨hlen, str, hstr, hbegins⟩ := hv
  obtain ⟨hlen', str', hstr', hbegins'⟩ := hw
  obtain rfl := Option.some.inj (hstr.symm.trans hstr')
  have hlength : v.length = w.length := Option.some.inj (hlen.symm.trans hlen')
  rw [List.prefix_iff_eq_take.mp hbegins, List.prefix_iff_eq_take.mp hbegins', hlength]

lemma Cell.shows_block {h : Heap Data} {data : ℕ} {b : Block Data} {v : List UInt8}
    (hb : h.get? data = some b) (hlen : b.content.len = v.length) (hv : v <+: b.content.str) :
    (Cell.block data).Shows h v :=
  ⟨by rw [lenOf, hb, Option.map_some, hlen], b.content.str, by rw [strOf, hb]; rfl, hv⟩

lemma Cell.Shows.block {h : Heap Data} {data : ℕ} {b : Block Data} {v : List UInt8}
    (hv : (Cell.block data).Shows h v) (hb : h.get? data = some b) :
    b.content.len = v.length ∧ v <+: b.content.str := by
  obtain ⟨hlen, str, hstr, hbegins⟩ := hv
  rw [lenOf, hb] at hlen
  rw [strOf, hb] at hstr
  obtain rfl : b.content.str = str := Option.some.inj hstr
  exact ⟨Option.some.inj hlen, hbegins⟩

lemma Cell.has_block {h : Heap Data} {data : ℕ} {b : Block Data} {p : Data → Prop}
    (hb : h.get? data = some b) (hp : p b.content) : (Cell.block data).Has h p := by
  rintro _ ⟨⟩ b' hb'
  rwa [← Option.some.inj (hb.symm.trans hb')]

lemma Cell.has_of_pointers {h : Heap Data} {c : Cell} {p : Data → Prop} (hc : c.pointers = []) :
    c.Has h p := by
  rintro data rfl
  exact absurd hc (List.cons_ne_nil _ _)

lemma Cell.Has.mono {h : Heap Data} {c : Cell} {p q : Data → Prop} (hc : c.Has h p)
    (hpq : ∀ x, p x → q x) : c.Has h q := fun data hdata b hb => hpq _ (hc data hdata b hb)

/-- Every string shows some bytes. -/
lemma Cell.exists_shows {h : Heap Data} (hwf : Wf h) (this : Cell)
    (hlive : ∀ a ∈ this.pointers, ∃ b, h.get? a = some b) : ∃ v, this.Shows h v := by
  cases this with
  | empty => exact ⟨[], rfl, [0], rfl, List.nil_prefix⟩
  | attached str => exact ⟨str, rfl, str, rfl, List.prefix_refl str⟩
  | block data =>
    obtain ⟨b, hb⟩ := hlive data (List.mem_singleton_self data)
    have hok := hwf data b hb
    have hle : b.content.len ≤ b.content.str.length := by
      have hlen := hok.len
      have hstr := hok.str
      omega
    exact ⟨b.content.str.take b.content.len, Cell.shows_block hb
      (List.length_take_of_le hle).symm (List.take_prefix _ _)⟩

/-- What is kept shows the same bytes. -/
lemma Cell.Shows.keep {h h' : Heap Data} {kept : List ℕ} (hkeep : Keeps kept h h') {c : Cell}
    (hc : c.pointers ⊆ kept) {v : List UInt8} (hv : c.Shows h v) : c.Shows h' v := by
  cases c with
  | empty => exact hv
  | attached str => exact hv
  | block data =>
    obtain ⟨b, hb, -⟩ := Option.map_eq_some_iff.mp hv.1
    obtain ⟨hlength, hbegins⟩ := hv.block hb
    obtain ⟨b', hb', hcontent⟩ :=
      hkeep.content data (.root (hc (List.mem_singleton_self data))) b hb
    exact Cell.shows_block hb' (hcontent ▸ hlength) (hcontent ▸ hbegins)

/-- The same holds of its block. -/
lemma Cell.Has.keep {h h' : Heap Data} {kept : List ℕ} (hkeep : Keeps kept h h') {c : Cell}
    (hc : c.pointers ⊆ kept) (hlive : ∀ a ∈ c.pointers, ∃ b, h.get? a = some b) {p : Data → Prop}
    (hp : c.Has h p) : c.Has h' p := by
  rintro data rfl b' hb'
  obtain ⟨b, hb⟩ := hlive data (List.mem_singleton_self data)
  obtain ⟨b'', hb'', hcontent⟩ :=
    hkeep.content data (.root (hc (List.mem_singleton_self data))) b hb
  obtain rfl := Option.some.inj (hb'.symm.trans hb'')
  rw [hcontent]
  exact hp data rfl b hb

/-! ## Blocks -/

lemma Wf.shrinks {h h' : Heap Data} (hwf : Wf h) (hs : Shrinks h h') : Wf h' := by
  intro a b' hb'
  obtain ⟨b, hb, hcontent, -⟩ := hs a b' hb'
  exact hcontent ▸ hwf a b hb

lemma Wf.sameContent {h h' : Heap Data} (hwf : Wf h) (hs : SameContent h h') : Wf h' := by
  intro a b' hb'
  have hmap : (h.get? a).map Block.content = some b'.content := by rw [← hs.2, hb']; rfl
  obtain ⟨b, hb, hcontent⟩ := Option.map_eq_some_iff.mp hmap
  exact hcontent ▸ hwf a b hb

/-- **A function succeeds** and leaves a string of certain bytes, in a block of which something holds if
    it is in a block.  It keeps the counts right if the string was all that pointed to its block besides
    `kept`, blocks are large enough, and what is kept is not touched. -/
def Yields (kept : List ℕ) (h : Heap Data) (p : Data → Prop) (v : List UInt8)
    (result : Option (Heap Data × Cell)) : Prop :=
  ∃ h' this, result = some (h', this) ∧ this.Shows h' v ∧ this.Has h' p
    ∧ h'.Sound (this.pointers ++ kept) ∧ Wf h' ∧ Keeps kept h h'

lemma Yields.mono {kept : List ℕ} {h : Heap Data} {p q : Data → Prop} {v : List UInt8}
    {result : Option (Heap Data × Cell)} (hy : Yields kept h p v result) (hpq : ∀ x, p x → q x) :
    Yields kept h q v result := by
  obtain ⟨h', this, hrun, hv, hp, hs, hwf, hkeep⟩ := hy
  exact ⟨h', this, hrun, hv, hp.mono hpq, hs, hwf, hkeep⟩

lemma release_spec {h : Heap Data} (this : Cell) {kept : List ℕ}
    (hs : h.Sound (this.pointers ++ kept)) (hwf : Wf h) :
    ∃ h', release h this = some h' ∧ h'.Sound kept ∧ Wf h' ∧ Keeps kept h h' ∧ Shrinks h h' := by
  cases this with
  | empty => exact ⟨h, rfl, hs, hwf, .refl _ _, .refl _⟩
  | attached str => exact ⟨h, rfl, hs, hwf, .refl _ _, .refl _⟩
  | block data =>
    obtain ⟨h', hrun, hs', hkeep, hshrinks⟩ := hs.release
    exact ⟨h', hrun, hs', hwf.shrinks hshrinks, hkeep, hshrinks⟩

lemma create_spec {h : Heap Data} {kept : List ℕ} {capacity len : ℕ}
    (write : List UInt8 → Option (List UInt8)) (hs : h.Sound kept) (hwf : Wf h)
    (hlen : len ≤ capacity) {p : List UInt8 → Prop}
    (hwrite : ∀ s : List UInt8, s.length = capacity + 1 →
      (∀ i, i < capacity + 1 → s[i]? = some (memory h.blocks.length i)) →
        ∃ s', write s = some s' ∧ s'.length = capacity + 1 ∧ p s') :
    ∃ h' data str, create memory h capacity len write = some (h', data) ∧
      h'.get? data = some ⟨1, ⟨str, len, capacity⟩⟩ ∧ p str ∧ h'.Sound (data :: kept) ∧ Wf h' ∧
        Keeps kept h h' := by
  obtain ⟨str, hstr, hlength, hp⟩ := hwrite
    ((List.range (capacity + 1)).map (memory h.blocks.length)) (by simp) fun i hi => by
      rw [List.getElem?_map, List.getElem?_range hi]
      rfl
  obtain ⟨hs', hkeep, hget, -⟩ := Heap.Sound.new (c := (⟨str, len, capacity⟩ : Data)) hs
  refine ⟨_, _, str, by rw [create, Usize.unbounded_wrap, Nat.add_sub_cancel, hstr]; rfl, hget, hp, hs', fun a b hb => ?_, hkeep⟩
  by_cases ha : a = (h.new (⟨str, len, capacity⟩ : Data)).2
  · rw [ha, hget] at hb
    obtain rfl := Option.some_inj.mp hb
    exact ⟨hlength, hlen⟩
  · rw [Heap.get?_new_of_ne _ ha] at hb
    exact hwf a b hb

/-- Writing to a block that nothing else points to -/
lemma edit_spec {h : Heap Data} {data : ℕ} {c : Data} {kept : List ℕ} (f : Data → Option Data)
    (hs : h.Sound (data :: kept)) (hwf : Wf h) (hb : h.get? data = some ⟨1, c⟩)
    (hf : ∃ c', f c = some c' ∧ c'.Ok) :
    ∃ h' c', edit h data f = some h' ∧ f c = some c' ∧ h'.get? data = some ⟨1, c'⟩ ∧
      h'.Sound (data :: kept) ∧ Wf h' ∧ Keeps kept h h' := by
  obtain ⟨c', hc', hok⟩ := hf
  obtain ⟨hs', hkeep, hget⟩ := hs.rewrite c' hb rfl
  refine ⟨_, c', by simp [edit, hb, hc'], hc', hget, hs', fun a b ha => ?_, hkeep⟩
  by_cases hne : a = data
  · rw [hne, hget] at ha
    obtain rfl := Option.some_inj.mp ha
    exact hok
  · rw [Heap.get?_write_of_ne hne] at ha
    exact hwf a b ha

/-! ## The functions -/

lemma Yields.of_block {h h' : Heap Data} {kept : List ℕ} {data n : ℕ} {c : Data} {p : Data → Prop}
    {v : List UInt8} {result : Option (Heap Data × Cell)} (hrun : result = some (h', .block data))
    (hb : h'.get? data = some ⟨n, c⟩) (hlen : c.len = v.length) (hv : v <+: c.str) (hp : p c)
    (hs : h'.Sound (data :: kept)) (hwf : Wf h') (hkeep : Keeps kept h h') :
    Yields kept h p v result :=
  ⟨h', .block data, hrun, Cell.shows_block hb hlen hv, Cell.has_block hb hp, hs, hwf, hkeep⟩

lemma putString_eq (bytes str : List UInt8) (h : bytes.length < str.length) :
    ∃ s, putString bytes str = some s ∧ s.length = str.length ∧ bytes <+: s
      ∧ s[bytes.length]? = some 0 := by
  obtain ⟨s₁, hput, hlen₁, hbegins, -⟩ := put_eq bytes (List.nil_prefix (l := str))
    (by rw [List.length_nil]; omega)
  rw [List.length_nil] at hput
  obtain ⟨s₂, hend, hlen₂, hzero, -, hkeep⟩ := put_end s₁ bytes.length (by omega)
  exact ⟨s₂, by simp [putString, hput, hend], by omega, hkeep bytes hbegins (Nat.le_refl _), hzero⟩

/-- **`String(const char*, usize)`** -/
lemma ofBytes_yields {h : Heap Data} {kept : List ℕ} (str : List UInt8) (hs : h.Sound kept)
    (hwf : Wf h) : Yields kept h Data.Ended str (ofBytes memory h str) := by
  have hle : str.length ≤ str.length ||| 3 := Nat.left_le_or
  obtain ⟨h', data, s, hrun, hb, ⟨hbegins, hzero⟩, hs', hwf', hkeep⟩ := create_spec memory
    (putString str) (p := fun s => str <+: s ∧ s[str.length]? = some 0) hs hwf hle
    fun s hlen _ => by
      obtain ⟨s', hput, hlen', hbegins, hzero⟩ := putString_eq str s (by omega)
      exact ⟨s', hput, by omega, hbegins, hzero⟩
  exact .of_block (by simp [ofBytes, hrun]) hb rfl hbegins hzero hs' hwf' hkeep

/-- **`String(usize, char)`** -/
lemma ofChar_yields {h : Heap Data} {kept : List ℕ} (length : ℕ) (c : UInt8) (hs : h.Sound kept)
    (hwf : Wf h) :
    Yields kept h Data.Ended (List.replicate length c) (ofChar memory h length c) := by
  have hbytes : ofChar memory h length c = ofBytes memory h (List.replicate length c) := by
    rw [ofChar, ofBytes, List.length_replicate]
  rw [hbytes]
  exact ofBytes_yields memory _ hs hwf

/-- **`String(usize)`** -/
lemma ofCapacity_yields {h : Heap Data} {kept : List ℕ} (capacity : ℕ) (hs : h.Sound kept)
    (hwf : Wf h) : Yields kept h Data.Ended [] (ofCapacity memory h capacity) := by
  obtain ⟨h', data, s, hrun, hb, hzero, hs', hwf', hkeep⟩ := create_spec memory (put · 0 [0])
    (p := fun s => s[0]? = some 0) hs hwf (Nat.zero_le capacity) fun s hlen _ => by
      obtain ⟨s', hput, hlen', hzero, -⟩ := put_end s 0 (by omega)
      exact ⟨s', hput, by omega, hzero⟩
  exact .of_block (by simp [ofCapacity, hrun]) hb rfl List.nil_prefix hzero hs' hwf' hkeep

/-- **`String(const String&)`** -/
lemma copy_yields {h : Heap Data} {c : Cell} {kept : List ℕ} {p : Data → Prop} {v : List UInt8}
    (hs : h.Sound kept) (hwf : Wf h) (hlive : ∀ a ∈ c.pointers, ∃ b, h.get? a = some b)
    (hv : c.Shows h v) (hp : c.Has h p) (hended : ∀ x : Data, x.Ended → p x) :
    Yields kept h p v (copy memory h c) := by
  cases c with
  | empty => exact ⟨h, .empty, rfl, hv, hp, hs, hwf, .refl _ _⟩
  | attached str =>
    obtain rfl : str = v := (show (Cell.attached str).Shows h str from
      ⟨rfl, str, rfl, List.prefix_refl str⟩).unique hv
    obtain ⟨h', this, hrun, hshows, hhas, hs', hwf', hkeep⟩ := ofBytes_yields memory str hs hwf
    exact ⟨h', this, hrun, hshows, hhas.mono hended, hs', hwf', hkeep⟩
  | block data =>
    obtain ⟨b, hb⟩ := hlive data (List.mem_singleton_self data)
    obtain ⟨h', hrun, hs', hsame⟩ := hs.increment hb
    have hkeep : Keeps [data] h h' := hsame.keeps [data]
    exact ⟨h', .block data, by simp [copy, hrun], hv.keep hkeep (List.Subset.refl _),
      hp.keep hkeep (List.Subset.refl _) hlive, hs', hwf.sameContent hsame, hsame.keeps kept⟩

lemma putDetached_eq {bytes v : List UInt8} (hv : v <+: bytes) (str : List UInt8) {copyLength : ℕ}
    (hroom : copyLength < str.length) : ∃ s, putDetached bytes v.length copyLength str = some s
      ∧ s.length = str.length ∧ v.take copyLength <+: s
      ∧ (v ≠ [] ∨ copyLength = 0 → s[copyLength]? = some 0)
      ∧ (v.take copyLength = [] → s[0]? = some 0 ∧ ∀ i, i ≠ 0 → s[i]? = str[i]?) := by
  cases v with
  | nil =>
    obtain ⟨s, hend, hlength, hzero, hsame, -⟩ := put_end str 0 (by omega)
    refine ⟨s, by simp [putDetached, hend], hlength, by simp, ?_, fun _ => ⟨hzero, hsame⟩⟩
    rintro (hne | rfl)
    · exact absurd rfl hne
    · exact hzero
  | cons c v =>
    have hmin : (if (c :: v).length < copyLength then (c :: v).length else copyLength)
        = ((c :: v).take copyLength).length := by
      rw [List.length_take, Nat.min_def]
      split_ifs <;> omega
    have htake := take_eq ((List.take_prefix copyLength (c :: v)).trans hv)
    have hle : ((c :: v).take copyLength).length ≤ copyLength := List.length_take_le ..
    obtain ⟨s₁, hput, hlen₁, hbegins, hbehind⟩ := put_eq ((c :: v).take copyLength)
      (List.nil_prefix (l := str)) (by rw [List.length_nil]; omega)
    rw [List.length_nil] at hput hbehind
    obtain ⟨s₂, hend, hlen₂, hzero, hsame, hkeep⟩ :=
      put_end s₁ copyLength (by omega)
    refine ⟨s₂, ?_, by omega, hkeep _ hbegins hle, fun _ => hzero, fun hnil => ?_⟩
    swap
    · obtain rfl : copyLength = 0 := by
        rcases List.take_eq_nil_iff.mp hnil with hzero | hcons
        · exact hzero
        · exact absurd hcons (List.cons_ne_nil c v)
      exact ⟨hzero, fun i hi => (hsame i hi).trans (hbehind i (Nat.zero_le _))⟩
    rw [putDetached, if_pos (show (c :: v).length > 0 from Nat.succ_pos _), hmin, htake]
    simp only [Option.bind_eq_bind, Option.bind_some, hput, hend]

/-- The string has a block of its own that is large enough. -/
def Cell.Fits (h : Heap Data) (this : Cell) (minCapacity : ℕ) : Prop :=
  ∃ data c, this = .block data ∧ h.get? data = some ⟨1, c⟩ ∧ minCapacity ≤ c.capacity

/-- What `detach` gives a string that shows `v` -/
def Detaches (kept : List ℕ) (h : Heap Data) (this : Cell) (v : List UInt8)
    (copyLength minCapacity : ℕ) (result : Option (Heap Data × ℕ)) : Prop :=
  ∃ h' data c, result = some (h', data) ∧ h'.get? data = some ⟨1, c⟩ ∧ c.len = copyLength
    ∧ minCapacity ≤ c.capacity ∧ v.take copyLength <+: c.str
    ∧ (v ≠ [] ∨ copyLength = 0 ∨ this.Fits h minCapacity → c.Ended) ∧ c.Fine
    ∧ h'.Sound (data :: kept) ∧ Wf h' ∧ Keeps kept h h'

/-- What is in the new block; when nothing is copied to it, that is the memory it was made of. -/
lemma detachNew_memory {h : Heap Data} {this : Cell} {kept : List ℕ} {v : List UInt8}
    {copyLength minCapacity : ℕ} (hs : h.Sound (this.pointers ++ kept)) (hwf : Wf h)
    (hv : this.Shows h v) (hle : copyLength ≤ minCapacity) : ∃ h' data c,
      detachNew memory h this copyLength minCapacity = some (h', data)
        ∧ h'.get? data = some ⟨1, c⟩ ∧ c.len = copyLength ∧ minCapacity ≤ c.capacity
        ∧ v.take copyLength <+: c.str ∧ (v ≠ [] ∨ copyLength = 0 → c.Ended)
        ∧ (v.take copyLength = [] → c.str[0]? = some 0 ∧ ∀ i, i ≠ 0 → i ≤ minCapacity →
          c.str[i]? = some (memory h.blocks.length i))
        ∧ h'.Sound (data :: kept) ∧ Wf h' ∧ Keeps kept h h' := by
  obtain ⟨hlen, str, hstr, hbegins⟩ := hv
  have hcapacity : minCapacity ≤ minCapacity ||| 3 := Nat.left_le_or
  obtain ⟨h₁, data, s, hcreate, hget, ⟨hcopy, hzero, hfirst⟩, hs₁, hwf₁, hkeep₁⟩ := create_spec memory
    (putDetached str v.length copyLength)
    (p := fun s => v.take copyLength <+: s ∧ (v ≠ [] ∨ copyLength = 0 → s[copyLength]? = some 0)
      ∧ (v.take copyLength = [] → s[0]? = some 0 ∧ ∀ i, i ≠ 0 → i ≤ minCapacity →
        s[i]? = some (memory h.blocks.length i)))
    hs hwf (Nat.le_trans hle hcapacity) fun s hlength hs => by
      obtain ⟨s', hput, hlength', hcopy, hzero, hmemory⟩ :=
        putDetached_eq hbegins s (show copyLength < s.length by omega)
      refine ⟨s', hput, by omega, hcopy, hzero, fun hnil => ⟨(hmemory hnil).1, fun i hi hle => ?_⟩⟩
      rw [(hmemory hnil).2 i hi, hs i (by omega)]
  obtain ⟨h₂, hrelease, hs₂, hwf₂, hkeep₂, hshrinks⟩ :=
    release_spec _ (hs₁.perm List.perm_middle.symm) hwf₁
  obtain ⟨⟨ref, c⟩, hget₂, rfl⟩ := hkeep₂.content _ (.root List.mem_cons_self) _ hget
  obtain rfl : ref = 1 := by
    have hpos := hs₂.pos _ _ hget₂
    obtain ⟨b, hb, -, hone⟩ := hshrinks _ _ hget₂
    obtain rfl := Option.some_inj.mp (hb.symm.trans hget)
    dsimp only at hpos hone
    omega
  refine ⟨h₂, data, _, ?_, hget₂, rfl, hcapacity, hcopy, hzero, hfirst, hs₂, hwf₂, ?_⟩
  · simp [detachNew, hstr, hlen, hcreate, hrelease]
  · exact (hkeep₁.mono (List.subset_append_right _ _)).trans
      (hkeep₂.mono (List.subset_cons_self _ _))

/-- A string without a large enough block of its own gets a new one. -/
lemma detach_eq_new [Usize] {h : Heap Data} {this : Cell} {copyLength minCapacity : ℕ}
    (hlive : ∀ a ∈ this.pointers, ∃ b, h.get? a = some b) (hfits : ¬ this.Fits h minCapacity) :
    detach memory h this copyLength minCapacity
      = detachNew memory h this copyLength minCapacity := by
  cases this with
  | empty => rfl
  | attached str => rfl
  | block data =>
    obtain ⟨⟨ref, c⟩, hb⟩ := hlive data (List.mem_singleton_self data)
    have hnot : ¬ (ref = 1 ∧ minCapacity ≤ c.capacity) := by
      rintro ⟨rfl, hroom⟩
      exact hfits ⟨data, c, rfl, hb, hroom⟩
    simp [detach, hb, hnot]

/-- A block that nothing else points to is kept if it is large enough. -/
lemma detach_here {h : Heap Data} {kept : List ℕ} {data : ℕ} {c : Data}
    {copyLength minCapacity : ℕ} (hs : h.Sound (data :: kept)) (hwf : Wf h)
    (hb : h.get? data = some ⟨1, c⟩) (hle : copyLength ≤ minCapacity)
    (hroom : minCapacity ≤ c.capacity) :
    ∃ h' str, detach memory h (.block data) copyLength minCapacity = some (h', data)
      ∧ h'.get? data = some ⟨1, { c with str, len := copyLength }⟩ ∧ str[copyLength]? = some 0
      ∧ (∀ a : List UInt8, a <+: c.str → a.length ≤ copyLength → a <+: str)
      ∧ h'.Sound (data :: kept) ∧ Wf h' ∧ Keeps kept h h' := by
  have hlength := (hwf data _ hb).str
  dsimp only at hlength
  obtain ⟨s, hend, hlen', hzero, -, hkeep⟩ := put_end c.str copyLength (by omega)
  have hc' : detachHere copyLength c = some { c with str := s, len := copyLength } := by
    simp [detachHere, hend]
  obtain ⟨h', c', hedit, hc'', hget, hs', hwf', hkeeps⟩ := edit_spec _ hs hwf hb
    ⟨_, hc', ⟨by simpa [hlen'] using hlength, Nat.le_trans hle hroom⟩⟩
  obtain rfl := Option.some_inj.mp (hc'.symm.trans hc'')
  exact ⟨h', s, by simp [detach, hb, hroom, hedit], hget, hzero, hkeep, hs', hwf', hkeeps⟩

/-- **After `detach`** the string has a block that nothing else points to, of the length and at least of
    the capacity that were asked for, with what it showed up to that length. -/
theorem detach_shows {h : Heap Data} {this : Cell} {kept : List ℕ} {v : List UInt8}
    {copyLength minCapacity : ℕ} (hs : h.Sound (this.pointers ++ kept)) (hwf : Wf h)
    (hv : this.Shows h v) (hle : copyLength ≤ minCapacity) :
    Detaches kept h this v copyLength minCapacity
      (detach memory h this copyLength minCapacity) := by
  by_cases hfits : this.Fits h minCapacity
  · -- in place
    obtain ⟨data, c, rfl, hb, hroom⟩ := hfits
    obtain ⟨hlen, hbegins⟩ := hv.block hb
    obtain ⟨h', str, hrun, hget, hzero, hkeep, hs', hwf', hkeeps⟩ :=
      detach_here memory hs hwf hb hle hroom
    refine ⟨h', data, _, hrun, hget, rfl, hroom, ?_, fun _ => hzero, Or.inl hzero, hs', hwf', hkeeps⟩
    exact hkeep _ ((List.take_prefix _ _).trans hbegins) (List.length_take_le ..)
  · -- a new block
    obtain ⟨h', data, c, hrun, hget, hlen, hroom, hbegins, hzero, hfirst, hs', hwf', hkeep⟩ :=
      detachNew_memory memory hs hwf hv hle
    have hnew := @detach_eq_new memory _ _ _ copyLength _
      (fun a ha => hs.live (.inl (List.mem_append_left _ ha))) hfits
    refine ⟨h', data, c, hnew.trans hrun, hget, hlen, hroom, hbegins, ?_, ?_, hs', hwf', hkeep⟩
    · rintro (hne | hnil | hfits')
      · exact hzero (Or.inl hne)
      · exact hzero (Or.inr hnil)
      · exact absurd hfits' hfits
    · by_cases hne : v = []
      · exact Or.inr (hfirst (by rw [hne, List.take_nil])).1
      · exact Or.inl (hzero (Or.inl hne))

/-- **`clear`** -/
lemma clear_yields {h : Heap Data} {this : Cell} {kept : List ℕ}
    (hs : h.Sound (this.pointers ++ kept)) (hwf : Wf h) :
    Yields kept h Data.Ended [] (clear h this) := by
  have hempty : ∀ h : Heap Data, Cell.empty.Shows h [] := fun h => ⟨rfl, [0], rfl, List.nil_prefix⟩
  cases this with
  | empty => exact ⟨h, .empty, rfl, hempty h, Cell.has_of_pointers rfl, hs, hwf, .refl _ _⟩
  | attached str => exact ⟨h, .empty, rfl, hempty h, Cell.has_of_pointers rfl, hs, hwf, .refl _ _⟩
  | block data =>
    obtain ⟨⟨ref, c⟩, hb⟩ := hs.live (a := data) (.inl (by simp [Cell.pointers]))
    by_cases hone : ref = 1
    · subst hone
      have hlength := (hwf data _ hb).str
      dsimp only at hlength
      obtain ⟨s, hend, hlen, hzero, -⟩ := put_end c.str 0 (by omega)
      have hc' : detachHere 0 c = some { c with str := s, len := 0 } := by simp [detachHere, hend]
      obtain ⟨h', c', hedit, hc'', hget, hs', hwf', hkeep⟩ := edit_spec (detachHere 0) hs hwf hb
        ⟨_, hc', ⟨by simpa [hlen] using hlength, Nat.zero_le _⟩⟩
      obtain rfl := Option.some_inj.mp (hc'.symm.trans hc'')
      exact .of_block (by simp [clear, hb, hedit]) hget rfl List.nil_prefix hzero hs' hwf' hkeep
    · obtain ⟨h', hrelease, hs', hwf', hkeep, -⟩ := release_spec _ hs hwf
      exact ⟨h', .empty, by simp [clear, hb, hone, hrelease], hempty h', Cell.has_of_pointers rfl, hs',
        hwf', hkeep⟩

/-- **`attach`** -/
lemma attach_yields {h : Heap Data} {this : Cell} {kept : List ℕ} (str : List UInt8)
    (hs : h.Sound (this.pointers ++ kept)) (hwf : Wf h) (p : Data → Prop) :
    Yields kept h p str (attach h this str) := by
  obtain ⟨h', hrelease, hs', hwf', hkeep, -⟩ := release_spec _ hs hwf
  exact ⟨h', .attached str, by simp [attach, hrelease], ⟨rfl, str, rfl, List.prefix_refl str⟩,
    Cell.has_of_pointers rfl, hs', hwf', hkeep⟩

/-- The pointer of an argument is that of the string itself, or one that is kept. -/
def Arg.Kept (kept : List ℕ) : Arg → Prop
  | .self => True
  | .other c => c.pointers ⊆ kept

lemma Arg.Kept.pointers {kept : List ℕ} {arg : Arg} (h : arg.Kept kept) (this : Cell) :
    (arg.cell this).pointers ⊆ this.pointers ++ kept := by
  cases arg with
  | self => exact List.subset_append_left _ _
  | other c => exact fun a ha => List.mem_append_right _ (h ha)

/-- The block of an argument is there. -/
lemma Arg.Kept.live {kept : List ℕ} {arg : Arg} (h : arg.Kept kept) {heap : Heap Data}
    (this : Cell) (hs : heap.Sound (this.pointers ++ kept)) :
    ∀ a ∈ (arg.cell this).pointers, ∃ b, heap.get? a = some b :=
  fun _ ha => hs.live (.inl (h.pointers this ha))

/-- **`operator=`** -/
lemma assign_yields {h : Heap Data} {this : Cell} {other : Arg} {kept : List ℕ} {p : Data → Prop}
    {w : List UInt8} (hs : h.Sound (this.pointers ++ kept)) (hwf : Wf h) (hother : other.Kept kept)
    (hw : (other.cell this).Shows h w) (hp : (other.cell this).Has h p)
    (hended : ∀ x : Data, x.Ended → p x) : Yields kept h p w (assign memory h this other) := by
  have hlive := hother.live _ hs
  have hattached : ∀ str : List UInt8, (Cell.attached str).Shows h w ∨ str = [] ∧ w = [] →
      ∀ h₁ : Heap Data, h₁.Sound kept → Wf h₁ → Keeps kept h h₁ →
        Yields kept h p w (ofBytes memory h₁ str) := by
    intro str hstr h₁ hs₁ hwf₁ hkeep₁
    obtain rfl : str = w := by
      rcases hstr with hshows | ⟨rfl, rfl⟩
      · exact (show (Cell.attached str).Shows h str from
          ⟨rfl, str, rfl, List.prefix_refl str⟩).unique hshows
      · rfl
    obtain ⟨h₂, this', hrun, hshows, hhas, hs₂, hwf₂, hkeep₂⟩ := ofBytes_yields memory str hs₁ hwf₁
    exact ⟨h₂, this', hrun, hshows, hhas.mono hended, hs₂, hwf₂, hkeep₁.trans hkeep₂⟩
  cases hcell : other.cell this with
  | empty =>
    obtain ⟨h₁, hrelease, hs₁, hwf₁, hkeep₁, -⟩ := release_spec _ hs hwf
    rw [hcell] at hw
    have hnil : w = [] := List.length_eq_zero_iff.mp (Option.some.inj hw.1).symm
    rw [assign, hcell]
    simp only [hrelease, Option.bind_eq_bind, Option.bind_some]
    exact hattached [] (Or.inr ⟨rfl, hnil⟩) h₁ hs₁ hwf₁ hkeep₁
  | attached str =>
    obtain ⟨h₁, hrelease, hs₁, hwf₁, hkeep₁, -⟩ := release_spec _ hs hwf
    rw [hcell] at hw
    rw [assign, hcell]
    simp only [hrelease, Option.bind_eq_bind, Option.bind_some]
    exact hattached str (Or.inl hw) h₁ hs₁ hwf₁ hkeep₁
  | block data =>
    rw [hcell] at hlive hw hp
    obtain ⟨b, hb⟩ := hlive data (List.mem_singleton_self data)
    obtain ⟨h₁, hincrement, hs₁, hsame⟩ := hs.increment hb
    obtain ⟨h₂, hrelease, hs₂, hwf₂, hkeep₂, -⟩ :=
      release_spec _ (hs₁.perm List.perm_middle.symm) (hwf.sameContent hsame)
    have hkeep : Keeps (data :: kept) h h₂ := (hsame.keeps _).trans hkeep₂
    have hsub : (Cell.block data).pointers ⊆ data :: kept := by
      simp [Cell.pointers]
    exact ⟨h₂, .block data, by simp [assign, hcell, hincrement, hrelease], hw.keep hkeep hsub,
      hp.keep hkeep hsub hlive, hs₂, hwf₂, hkeep.mono (List.subset_cons_self _ _)⟩

/-- Bytes are put behind others, and behind them the end. -/
lemma fill_eq {c : Data} (hok : c.Ok) {a bytes : List UInt8} {newLen : ℕ} (ha : a <+: c.str)
    (hfits : a.length + bytes.length ≤ newLen) (hroom : newLen ≤ c.capacity) :
    ∃ c', fill a.length bytes newLen c = some c' ∧ c'.Ok ∧ c'.len = newLen ∧ c'.Ended
      ∧ a ++ bytes <+: c'.str
      ∧ ∀ i, a.length + bytes.length ≤ i → i ≠ newLen → c'.str[i]? = c.str[i]? := by
  have hlength := hok.str
  obtain ⟨s₁, hput, hlen₁, hbegins, hbehind⟩ := put_eq bytes ha (by omega)
  obtain ⟨s₂, hend, hlen₂, hzero, hsame, hkeep⟩ := put_end s₁ newLen (by omega)
  refine ⟨{ c with str := s₂, len := newLen }, by simp [fill, hput, hend], ⟨?_, hroom⟩, rfl, hzero,
    hkeep _ hbegins (by rwa [List.length_append]), fun i hi hne => ?_⟩
  · dsimp only
    omega
  · exact (hsame i hne).trans (hbehind i hi)

/-- What an argument shows once the string is detached -/
lemma Arg.Kept.shows {h h' : Heap Data} {kept : List ℕ} {this : Cell} {data copyLength : ℕ}
    {c : Data} {arg : Arg} {v w : List UInt8} (harg : arg.Kept kept) (hkeep : Keeps kept h h')
    (hw : (arg.cell this).Shows h w) (hb : h'.get? data = some ⟨1, c⟩)
    (hlen : c.len = copyLength) (hle : copyLength ≤ v.length) (hbegins : v.take copyLength <+: c.str) :
    (arg.cell (.block data)).Shows h' (match arg with | .self => v.take copyLength | .other _ => w) := by
  cases arg with
  | self => exact Cell.shows_block hb (by rw [List.length_take_of_le hle, hlen]) hbegins
  | other c => exact hw.keep hkeep harg

/-- **`append(const String&)`**, of another string or of the string itself -/
lemma append_yields {h : Heap Data} {this : Cell} {str : Arg} {kept : List ℕ} {v w : List UInt8}
    (hs : h.Sound (this.pointers ++ kept)) (hwf : Wf h) (hstr : str.Kept kept) (hv : this.Shows h v)
    (hw : (str.cell this).Shows h w) :
    Yields kept h Data.Ended (v ++ w) (append memory h this str) := by
  obtain ⟨h₁, data, c, hdetach, hb, hc, hroom, hbegins, -, -, hs₁, hwf₁, hkeep₁⟩ :=
    detach_shows memory hs hwf hv (Nat.le_add_right v.length w.length)
  have hw₁ : (str.cell (.block data)).Shows h₁ w := by
    have hshows := hstr.shows hkeep₁ hw hb hc (Nat.le_refl _) hbegins
    cases str with
    | self => rwa [List.take_length, hv.unique hw] at hshows
    | other c => exact hshows
  rw [List.take_length] at hbegins
  obtain ⟨hlen₁, bytes, hbytes, hwbytes⟩ := hw₁
  obtain ⟨c', hfill, hok, hlen, hended, hshows, -⟩ := fill_eq (hwf₁ data _ hb) hbegins
    (Nat.le_refl (v.length + w.length)) hroom
  obtain ⟨h₂, c'', hedit, hc'', hb₂, hs₂, hwf₂, hkeep₂⟩ :=
    edit_spec _ hs₁ hwf₁ hb ⟨c', hfill, hok⟩
  obtain rfl := Option.some.inj (hfill.symm.trans hc'')
  refine .of_block ?_ hb₂ (by rw [hlen, List.length_append]) hshows hended hs₂ hwf₂
    (hkeep₁.trans hkeep₂)
  simp [append, hv.1, hw.1, hdetach, hbytes, hlen₁, take_eq hwbytes, hedit]

/-- Bytes are appended as an attached string is. -/
lemma appendBytes_eq [Usize] (h : Heap Data) (this : Cell) (str : List UInt8) :
    appendBytes memory h this str = append memory h this (.other (.attached str)) := by
  simp [appendBytes, append, Arg.cell, strOf, lenOf, take]

lemma shows_attached (h : Heap Data) (str : List UInt8) : (Cell.attached str).Shows h str :=
  ⟨rfl, str, rfl, List.prefix_refl str⟩

/-- **`append(const char*, usize)`** -/
lemma appendBytes_yields {h : Heap Data} {this : Cell} {kept : List ℕ} {v : List UInt8}
    (str : List UInt8) (hs : h.Sound (this.pointers ++ kept)) (hwf : Wf h) (hv : this.Shows h v) :
    Yields kept h Data.Ended (v ++ str) (appendBytes memory h this str) := by
  rw [appendBytes_eq]
  exact append_yields memory hs hwf (List.nil_subset _) hv (shows_attached h str)

/-- Bytes are put at the beginning, and those of the copy behind them. -/
lemma prependFill_eq {c : Data} (hok : c.Ok) {newLen : ℕ} {bytes copyBytes : List UInt8}
    (hfits : bytes.length + copyBytes.length ≤ newLen) (hroom : newLen ≤ c.capacity) :
    ∃ c', prependFill bytes copyBytes newLen c = some c' ∧ c'.Ok ∧ c'.len = newLen ∧ c'.Ended
      ∧ bytes ++ copyBytes <+: c'.str
      ∧ ∀ i, bytes.length + copyBytes.length ≤ i → i ≠ newLen → c'.str[i]? = c.str[i]? := by
  have hlength := hok.str
  obtain ⟨s, hput, hlen, hbegins, hbehind⟩ := put_eq bytes (List.nil_prefix (l := c.str))
    (by rw [List.length_nil]; omega)
  rw [List.length_nil] at hput hbehind
  have hok' : ({ c with str := s } : Data).Ok := ⟨by simpa [hlen] using hlength, hok.len⟩
  obtain ⟨c', hfill, hok'', hlen', hended, hshows, hsame⟩ := fill_eq hok' hbegins hfits hroom
  refine ⟨c', by simpa [prependFill, hput] using hfill, hok'', hlen', hended, hshows,
    fun i hi hne => ?_⟩
  exact (hsame i hi hne).trans (hbehind i (by omega))

/-- A string and a copy of it: the string has no block of its own then. -/
lemma copy_not_fits {h h' : Heap Data} {this copy : Cell} {kept : List ℕ} {n : ℕ}
    (hcopy : Strings.copy memory h this = some (h', copy))
    (hs : h'.Sound (copy.pointers ++ (this.pointers ++ kept))) : ¬ this.Fits h' n := by
  rintro ⟨data, c, rfl, hb, -⟩
  obtain ⟨h₁, -, hrun⟩ := Option.bind_eq_some_iff.mp hcopy
  obtain rfl := (Prod.mk.inj (Option.some.inj hrun)).2
  exact (hs.unshared hb rfl).1 List.mem_cons_self

/-- As many bytes again behind the first ones -/
lemma take_twice {s w : List UInt8} (h : w <+: s) (hroom : w.length + w.length ≤ s.length) :
    ∃ rest, s.take (w.length + w.length) = w ++ rest ∧ rest.length = w.length
      ∧ ∀ i, i < w.length → rest[i]? = s[w.length + i]? := by
  obtain ⟨t, rfl⟩ := h
  rw [List.length_append] at hroom
  refine ⟨t.take w.length, List.take_length_add_append _, ?_, fun i hi => ?_⟩
  · exact List.length_take_of_le (by omega)
  · rw [List.getElem?_take_of_lt hi, List.getElem?_append_right (Nat.le_add_right _ _),
      Nat.add_sub_cancel_left]

/-- **`prepend(const String&)`**: the bytes of another string are put in front of the own ones.  The string
    itself is empty when it is copied, and behind its old bytes is what was in memory. -/
lemma prepend_yields {h : Heap Data} {this : Cell} {str : Arg} {kept : List ℕ} {v w : List UInt8}
    (hs : h.Sound (this.pointers ++ kept)) (hwf : Wf h) (hstr : str.Kept kept) (hv : this.Shows h v)
    (hw : (str.cell this).Shows h w) : ∃ u, Yields kept h Data.Ended u (prepend memory h this str)
      ∧ match str with
        | .other _ => u = w ++ v
        | .self => ∃ a rest, u = v ++ rest ∧ rest.length = v.length
            ∧ ∀ i, i < v.length → rest[i]? = some (memory a (v.length + i)) := by
  have hlive : ∀ a ∈ this.pointers, ∃ b, h.get? a = some b :=
    fun a ha => hs.live (.inl (List.mem_append_left _ ha))
  obtain ⟨h₁, copy, hcopy, hcv, -, hs₁, hwf₁, hkeep₁⟩ := copy_yields memory hs hwf hlive hv
    (p := fun _ => True) (fun _ _ _ _ => trivial) fun _ _ => trivial
  have hkept : kept ⊆ copy.pointers ++ kept := List.subset_append_right _ _
  have hstr₁ : str.Kept (copy.pointers ++ kept) := by
    cases str with
    | self => trivial
    | other c => exact List.Subset.trans hstr hkept
  have hs₁' : h₁.Sound (this.pointers ++ (copy.pointers ++ kept)) := by
    refine hs₁.perm ?_
    rw [← List.append_assoc, ← List.append_assoc]
    exact List.perm_append_comm.append_right kept
  have hv₁ : this.Shows h₁ v := hv.keep hkeep₁ (List.subset_append_left _ _)
  have hw₁ : (str.cell this).Shows h₁ w := hw.keep hkeep₁ (hstr.pointers this)
  obtain ⟨h₂, data, c, hdetach, hb, hc, hroom, -, -, hmemory, hs₂, hwf₂, hkeep₂⟩ :=
    detachNew_memory memory hs₁' hwf₁ hv₁ (Nat.zero_le (w.length + v.length))
  rw [← @detach_eq_new memory _ h₁ this 0 (w.length + v.length)
    (fun a ha => hs₁'.live (.inl (List.mem_append_left _ ha)))
    (copy_not_fits memory hcopy hs₁)] at hdetach
  obtain ⟨hlen, copyBytes, hcopyBytes, hvbytes⟩ :=
    hcv.keep hkeep₂ (List.subset_append_left copy.pointers kept)
  -- what is copied first: nothing if it is the string itself
  obtain ⟨bytes, hbytes, hother, hself⟩ : ∃ bytes, (str.cell (.block data)).Shows h₂ bytes
      ∧ (∀ x, str = .other x → bytes = w) ∧ (str = .self → bytes = [] ∧ w = v) := by
    have hshows := hstr₁.shows hkeep₂ hw₁ hb hc (Nat.zero_le v.length) List.nil_prefix
    cases str with
    | self => exact ⟨_, hshows, fun x hx => Arg.noConfusion hx, fun _ => ⟨rfl, hw₁.unique hv₁⟩⟩
    | other x => exact ⟨w, hshows, fun _ _ => rfl, fun hx => Arg.noConfusion hx⟩
  obtain ⟨hlen', m, hm, hbegins⟩ := hbytes
  have hfits : bytes.length + v.length ≤ w.length + v.length := by
    cases str with
    | self => rw [(hself rfl).1, List.length_nil]; omega
    | other x => rw [hother x rfl]
  obtain ⟨c', hfill, hok, hlength, hended, hshows, hsame⟩ :=
    prependFill_eq (hwf₂ data _ hb) hfits hroom
  obtain ⟨h₃, c'', hedit, hc'', hb₃, hs₃, hwf₃, hkeep₃⟩ :=
    edit_spec _ hs₂ hwf₂ hb ⟨c', hfill, hok⟩
  obtain rfl := Option.some.inj (hfill.symm.trans hc'')
  obtain ⟨h₄, hrelease, hs₄, hwf₄, hkeep₄, -⟩ :=
    release_spec _ (hs₃.perm List.perm_middle.symm) hwf₃
  obtain ⟨⟨ref, x⟩, hb₄, hx⟩ := hkeep₄.content data (.root List.mem_cons_self) _ hb₃
  dsimp only at hx
  subst hx
  have hrun : prepend memory h this str = some (h₄, .block data) := by
    simp [prepend, hcopy, hw₁.1, hcv.1, hdetach, hm, hlen', take_eq hbegins, hcopyBytes, take_eq hvbytes,
      hedit, hrelease]
  have hkeep : Keeps kept h h₄ := (((hkeep₁.mono (List.subset_append_right _ _)).trans
    (hkeep₂.mono hkept)).trans (hkeep₃.mono hkept)).trans (hkeep₄.mono (List.subset_cons_self _ _))
  have hend : w.length + v.length < x.str.length := by
    have hstr := hok.str
    have hle := hok.len
    omega
  have htake : (x.str.take (w.length + v.length)).length = w.length + v.length :=
    List.length_take_of_le (Nat.le_of_lt hend)
  refine ⟨x.str.take (w.length + v.length), .of_block hrun hb₄ (hlength.trans htake.symm)
    (List.take_prefix _ _) hended hs₄ hwf₄ hkeep, ?_⟩
  cases str with
  | other y =>
    rw [hother y rfl] at hshows
    rw [List.prefix_iff_eq_take.mp hshows, List.length_append]
  | self =>
    obtain ⟨rfl, rfl⟩ := hself rfl
    have hstart : w <+: x.str := hshows
    obtain ⟨rest, htwice, hrest, hbehind⟩ := take_twice hstart (Nat.le_of_lt hend)
    refine ⟨h₁.blocks.length, rest, htwice, hrest, fun i hi => ?_⟩
    rw [hbehind i hi, hsame _ (by rw [List.length_nil]; omega) (by omega)]
    exact (hmemory List.take_zero).2 _ (by omega) (by omega)

lemma prependBytes_eq [Usize] (h : Heap Data) (this : Cell) (str : List UInt8) :
    prependBytes memory h this str = prepend memory h this (.other (.attached str)) := by
  simp [prependBytes, prepend, Arg.cell, strOf, lenOf, take]

/-- **`prepend(const char*, usize)`** -/
lemma prependBytes_yields {h : Heap Data} {this : Cell} {kept : List ℕ} {v : List UInt8}
    (str : List UInt8) (hs : h.Sound (this.pointers ++ kept)) (hwf : Wf h) (hv : this.Shows h v) :
    Yields kept h Data.Ended (str ++ v) (prependBytes memory h this str) := by
  rw [prependBytes_eq]
  obtain ⟨u, hyields, rfl⟩ :=
    prepend_yields memory hs hwf (show Arg.Kept kept (.other (.attached str)) from List.nil_subset _)
      hv (shows_attached h str)
  exact hyields

/-- **`detach()`** gives memory that ends with a zero. -/
lemma detachAll_spec {h : Heap Data} {this : Cell} {kept : List ℕ} {v : List UInt8}
    (hs : h.Sound (this.pointers ++ kept)) (hwf : Wf h) (hv : this.Shows h v) :
    ∃ h' data c, detachAll memory h this = some (h', data) ∧ h'.get? data = some ⟨1, c⟩ ∧
      c.Ok ∧ c.len = v.length ∧ v <+: c.str ∧ c.Ended ∧ h'.Sound (data :: kept) ∧ Wf h' ∧
        Keeps kept h h' := by
  obtain ⟨h', data, c, hdetach, hb, hlen, -, hbegins, hended, -, hs', hwf', hkeep⟩ :=
    detach_shows memory hs hwf hv (Nat.le_refl v.length)
  rw [List.take_length] at hbegins
  refine ⟨h', data, c, by simp [detachAll, hv.1, hdetach], hb, hwf' data _ hb, hlen, hbegins,
    hended ?_, hs', hwf', hkeep⟩
  by_cases hne : v = []
  · exact Or.inr (Or.inl (by rw [hne]; rfl))
  · exact Or.inl hne

lemma detachAll_yields {h : Heap Data} {this : Cell} {kept : List ℕ} {v : List UInt8}
    (hs : h.Sound (this.pointers ++ kept)) (hwf : Wf h) (hv : this.Shows h v) :
    Yields kept h Data.Ended v (do
      let (h, data) ← detachAll memory h this
      some (h, .block data)) := by
  obtain ⟨h', data, c, hrun, hb, -, hlen, hbegins, hended, hs', hwf', hkeep⟩ :=
    detachAll_spec memory hs hwf hv
  exact .of_block (by simp [hrun]) hb hlen hbegins hended hs' hwf' hkeep

/-- **`resize`**: behind the old bytes are any bytes at all, and when there were none, the end of the
    string is at the beginning, unless the string keeps its block. -/
lemma resize_yields {h : Heap Data} {this : Cell} {kept : List ℕ} {v : List UInt8} (length : ℕ)
    (hs : h.Sound (this.pointers ++ kept)) (hwf : Wf h) (hv : this.Shows h v) :
    ∃ u, u.length = length ∧ v.take length <+: u
      ∧ Yields kept h (fun c => c.Fine ∧ (v ≠ [] ∨ length = 0 ∨ this.Fits h length → c.Ended)) u
        (resize memory h this length) := by
  obtain ⟨h', data, c, hdetach, hb, hlen, hroom, hbegins, hended, hfine, hs', hwf', hkeep⟩ :=
    detach_shows memory hs hwf hv (Nat.le_refl length)
  have hok := hwf' data _ hb
  have htake : (c.str.take length).length = length := by
    refine List.length_take_of_le ?_
    have hstr := hok.str
    dsimp only at hstr
    omega
  refine ⟨c.str.take length, htake, ?_, .of_block (by simp [resize, hdetach]) hb (hlen.trans htake.symm)
    (List.take_prefix _ _) ⟨hfine, hended⟩ hs' hwf' hkeep⟩
  exact List.prefix_take_iff.mpr ⟨hbegins, List.length_take_le ..⟩

/-- **`reserve`** -/
lemma reserve_yields {h : Heap Data} {this : Cell} {kept : List ℕ} {v : List UInt8} (size : ℕ)
    (hs : h.Sound (this.pointers ++ kept)) (hwf : Wf h) (hv : this.Shows h v) :
    Yields kept h Data.Ended v (reserve memory h this size) := by
  have hle : v.length ≤ if size < v.length then v.length else size := by split_ifs <;> omega
  obtain ⟨h', data, c, hdetach, hb, hlen, -, hbegins, hended, -, hs', hwf', hkeep⟩ :=
    detach_shows memory hs hwf hv hle
  rw [List.take_length] at hbegins
  refine .of_block (by simp [reserve, hv.1, hdetach]) hb hlen hbegins (hended ?_) hs' hwf' hkeep
  by_cases hne : v = []
  · exact Or.inr (Or.inl (by rw [hne]; rfl))
  · exact Or.inl hne

/-- **`toLowerCase`**, `toUpperCase` and `replace(char, char)` -/
lemma replaceWith_yields {h : Heap Data} {this : Cell} {kept : List ℕ} {v : List UInt8}
    (f : UInt8 → UInt8) (hs : h.Sound (this.pointers ++ kept)) (hwf : Wf h) (hv : this.Shows h v) :
    Yields kept h Data.Ended (replaceText f v) (replaceWith memory f h this) := by
  obtain ⟨h₁, data, c, hdetach, hb, hok, hlen, ⟨rest, hrest⟩, hended, hs₁, hwf₁, hkeep₁⟩ :=
    detachAll_spec memory hs hwf hv
  -- the end of the string is behind its bytes
  obtain ⟨rest, rfl⟩ : ∃ rest', rest = 0 :: rest' := by
    rw [Data.Ended, hlen, ← hrest, List.getElem?_append_right (Nat.le_refl _), Nat.sub_self] at hended
    obtain ⟨rest', hrest'⟩ := List.head?_eq_some_iff.mp ((List.head?_eq_getElem? ..).trans hended)
    exact ⟨rest', hrest'⟩
  have hlength := replaceText_length f v
  have hc' : replaceIn f c = some { c with str := replaceText f v ++ 0 :: rest } := by
    simp [replaceIn, ← hrest, replaceBytes_eq f]
  have hstr : (replaceText f v ++ 0 :: rest).length = c.capacity + 1 := by
    rw [List.length_append, hlength, ← List.length_append, hrest, hok.str]
  obtain ⟨h₂, c', hedit, hc'', hb₂, hs₂, hwf₂, hkeep₂⟩ := edit_spec (replaceIn f) hs₁ hwf₁ hb
    ⟨_, hc', ⟨hstr, hok.len⟩⟩
  obtain rfl := Option.some.inj (hc'.symm.trans hc'')
  refine .of_block (by simp [replaceWith, hdetach, hedit]) hb₂ (hlen.trans hlength.symm)
    (List.prefix_append _ _) ?_ hs₂ hwf₂ (hkeep₁.trans hkeep₂)
  rw [Data.Ended]
  dsimp only
  rw [hlen, ← hlength, List.getElem?_append_right (Nat.le_refl _), Nat.sub_self]
  rfl

/-- **`operator char*`** and writes; the end of the string stays if they are in front of it. -/
lemma writeBytes_yields {h : Heap Data} {this : Cell} {kept : List ℕ} {v : List UInt8}
    (writes : List (ℕ × UInt8)) (hs : h.Sound (this.pointers ++ kept)) (hwf : Wf h)
    (hv : this.Shows h v) : ∃ u, u.length = v.length ∧ Yields kept h
      (fun c => (∀ w ∈ writes, w.1 < v.length) → c.Ended) u (writeBytes memory writes h this) := by
  obtain ⟨h₁, data, c, hdetach, hb, hok, hlen, -, hended, hs₁, hwf₁, hkeep₁⟩ :=
    detachAll_spec memory hs hwf hv
  have hset : ∀ str : List UInt8, (writes.foldl (fun str w => str.set w.1 w.2) str).length = str.length
      ∧ ((∀ w ∈ writes, w.1 < v.length) →
        (writes.foldl (fun str w => str.set w.1 w.2) str)[v.length]? = str[v.length]?) := by
    induction writes with
    | nil => exact fun _ => ⟨rfl, fun _ => rfl⟩
    | cons w writes ih =>
      intro str
      obtain ⟨hlength, hsame⟩ := ih (str.set w.1 w.2)
      refine ⟨hlength.trans List.length_set, fun hall => ?_⟩
      rw [List.foldl_cons, hsame fun w' hw' => hall w' (List.mem_cons_of_mem w hw'),
        List.getElem?_set_ne (Nat.ne_of_lt (hall w List.mem_cons_self))]
  obtain ⟨hlength, hsame⟩ := hset c.str
  obtain ⟨h₂, c', hedit, hc', hb₂, hs₂, hwf₂, hkeep₂⟩ := edit_spec (setIn writes) hs₁ hwf₁ hb
    ⟨_, rfl, ⟨hlength.trans hok.str, hok.len⟩⟩
  obtain rfl := Option.some.inj hc'
  have htake : ((writes.foldl (fun str w => str.set w.1 w.2) c.str).take v.length).length
      = v.length := by
    refine List.length_take_of_le ?_
    rw [hlength]
    have hstr := hok.str
    have hle := hok.len
    omega
  refine ⟨_, htake, .of_block (by simp [writeBytes, hdetach, hedit]) hb₂
    (hlen.trans htake.symm) (List.take_prefix _ _) (fun hall => ?_) hs₂ hwf₂ (hkeep₁.trans hkeep₂)⟩
  rw [Data.Ended] at hended ⊢
  rw [hlen] at hended ⊢
  exact (hsame hall).trans hended

end Nstd.Strings
