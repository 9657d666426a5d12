import Mathlib.Tactic.ByContra
import Nstd.Text.Utf8

/-!
# What `Unicode::isValid` accepts

* `Groups` — a string that is made of groups; `Groups.unique` — in one way only.
* **`isValid_iff`** — these are what `isValid` accepts; it reads no byte behind the string.
* `Group.InRange` — the number of a group needs its length, and is one of a code point.
* `append_eq_iff` — the groups that `append` writes.
* **`isValid_exact_iff`** — `isValid` tells strings of code points from others unless a group is longer
  than it needs to be or its number too large.

`append` writes each code point in the shortest way, and `isValid` takes any group, whatever its number.
-/

namespace Nstd.Unicode

/-! ## Groups of a string -/

/-- A string that is made of groups, with their numbers -/
structure Groups (ps : List (List UInt8 × ℕ)) (s : List UInt8) : Prop where
  text : s = ps.flatMap Prod.fst
  group : ∀ p ∈ ps, Group p.1 p.2

lemma Groups.nil : Groups [] [] := ⟨rfl, fun _ hp => absurd hp List.not_mem_nil⟩

lemma Groups.cons {g s : List UInt8} {n : ℕ} {ps : List (List UInt8 × ℕ)} (h : Group g n)
    (hs : Groups ps s) : Groups ((g, n) :: ps) (g ++ s) := by
  refine ⟨by rw [List.flatMap_cons, ← hs.text], fun p hp => ?_⟩
  rcases List.mem_cons.mp hp with rfl | hp
  · exact h
  · exact hs.group p hp

/-- The first group of a string that is not empty -/
lemma Groups.first {c : UInt8} {s : List UInt8} {ps : List (List UInt8 × ℕ)}
    (h : Groups ps (c :: s)) : ∃ g n qs s', ps = (g, n) :: qs ∧ c :: s = g ++ s' ∧ Group g n
      ∧ Groups qs s' := by
  cases ps with
  | nil => exact absurd h.text (List.cons_ne_nil c s)
  | cons p ps =>
    refine ⟨p.1, p.2, ps, _, rfl, by rw [h.text, List.flatMap_cons], h.group p List.mem_cons_self,
      rfl, fun q hq => h.group q (List.mem_cons_of_mem p hq)⟩

/-- A group has one number. -/
lemma Group.number {g : List UInt8} {n m : ℕ} (h : Group g n) (h' : Group g m) : n = m := by
  cases h with
  | one _ => cases h'; rfl
  | two _ _ _ => cases h'; rfl
  | three _ _ _ _ => cases h'; rfl
  | four _ _ _ _ _ => cases h'; rfl

/-- The first byte tells where a group ends. -/
lemma Group.append_inj {g g' s s' : List UInt8} {n m : ℕ} (h : Group g n) (h' : Group g' m)
    (heq : g ++ s = g' ++ s') : g = g' ∧ n = m ∧ s = s' := by
  obtain ⟨c, r, rfl, hlength⟩ := h.length_eq
  obtain ⟨c', r', rfl, hlength'⟩ := h'.length_eq
  obtain rfl : c = c' := (List.cons.inj heq).1
  obtain ⟨hg, hs⟩ := List.append_inj heq (hlength.symm.trans hlength')
  rw [← hg] at h'
  exact ⟨hg, h.number h', hs⟩

/-- **A string is made of groups in one way.** -/
theorem Groups.unique {s : List UInt8} {ps : List (List UInt8 × ℕ)} (h : Groups ps s) :
    ∀ {qs : List (List UInt8 × ℕ)}, Groups qs s → ps = qs := by
  induction ps generalizing s with
  | nil =>
    intro qs h'
    cases qs with
    | nil => rfl
    | cons q qs =>
      have hpos := (h'.group q List.mem_cons_self).pos
      have htext := h'.text.symm.trans h.text
      rw [List.flatMap_cons, List.flatMap_nil, List.append_eq_nil_iff] at htext
      rw [htext.1] at hpos
      exact absurd hpos (Nat.lt_irrefl 0)
  | cons p ps ih =>
    intro qs h'
    obtain ⟨g, n⟩ := p
    have hgroup : Group g n := h.group (g, n) List.mem_cons_self
    have hrest : Groups ps (ps.flatMap Prod.fst) :=
      ⟨rfl, fun q hq => h.group q (List.mem_cons_of_mem _ hq)⟩
    have htext := h.text
    rw [List.flatMap_cons] at htext
    obtain ⟨c, r, hg, -⟩ := hgroup.length_eq
    have hs : s = c :: (r ++ ps.flatMap Prod.fst) := by rw [htext, hg]; rfl
    rw [hs] at h'
    obtain ⟨g', n', qs, s', rfl, heq, hgroup', hrest'⟩ := h'.first
    rw [← hs, htext] at heq
    obtain ⟨rfl, rfl, hsame⟩ := hgroup.append_inj hgroup' heq
    rw [ih hrest (hsame ▸ hrest')]

/-! ## What is accepted -/

/-- **The test of the bytes behind the first one** -/
lemma continues_iff {c : UInt8} {s : List UInt8} (hpos : length c ≠ 0)
    (hroom : length c ≤ (c :: s).length) : ∃ b, continues (c :: s) (length c) = some b
      ∧ (b = true ↔ ∃ n, Group ((c :: s).take (length c)) n) := by
  have hlength := length_eq c
  rw [List.length_cons] at hroom
  split_ifs at hlength with h₁ h₂ h₃ h₄ h₅
  · rw [hlength]
    exact ⟨true, rfl, fun _ => ⟨_, .one h₁⟩, fun _ => rfl⟩
  · exact absurd hlength hpos
  · rw [hlength] at hroom ⊢
    obtain ⟨x, s, rfl⟩ : ∃ x t, s = x :: t := List.exists_cons_of_length_pos (by omega)
    refine ⟨_, rfl, ?_⟩
    rw [decide_eq_true_iff, (and_0xc0 x).1]
    refine ⟨fun hx => ⟨_, .two (Nat.not_lt.mp h₂) h₃ hx⟩, ?_⟩
    rintro ⟨n, h⟩
    cases h with
    | two _ _ hx => exact hx
  · rw [hlength] at hroom ⊢
    obtain ⟨x, s, rfl⟩ : ∃ x t, s = x :: t := List.exists_cons_of_length_pos (by omega)
    rw [List.length_cons] at hroom
    obtain ⟨y, s, rfl⟩ : ∃ y t, s = y :: t := List.exists_cons_of_length_pos (by omega)
    refine ⟨_, rfl, ?_⟩
    rw [decide_eq_true_iff, packed_two_iff]
    refine ⟨fun hxy => ⟨_, .three (Nat.not_lt.mp h₃) h₄ hxy.1 hxy.2⟩, ?_⟩
    rintro ⟨n, h⟩
    cases h with
    | three _ _ hx hy => exact ⟨hx, hy⟩
  · rw [hlength] at hroom ⊢
    obtain ⟨x, s, rfl⟩ : ∃ x t, s = x :: t := List.exists_cons_of_length_pos (by omega)
    rw [List.length_cons] at hroom
    obtain ⟨y, s, rfl⟩ : ∃ y t, s = y :: t := List.exists_cons_of_length_pos (by omega)
    rw [List.length_cons] at hroom
    obtain ⟨z, s, rfl⟩ : ∃ z t, s = z :: t := List.exists_cons_of_length_pos (by omega)
    refine ⟨_, rfl, ?_⟩
    rw [decide_eq_true_iff, packed_iff]
    refine ⟨fun hxyz => ⟨_, .four (Nat.not_lt.mp h₄) h₅ hxyz.1 hxyz.2.1 hxyz.2.2⟩, ?_⟩
    rintro ⟨n, h⟩
    cases h with
    | four _ _ hx hy hz => exact ⟨hx, hy, hz⟩
  · exact absurd hlength hpos

/-- A group with a certain first byte is what is at the beginning. -/
lemma Group.take {g s s' : List UInt8} {c : UInt8} {n : ℕ} (h : Group g n) (hs : c :: s = g ++ s') :
    length c = g.length ∧ (c :: s).take (length c) = g := by
  obtain ⟨c', r, hg, hlength⟩ := h.length_eq
  obtain rfl : c = c' := by
    rw [hg] at hs
    exact (List.cons.inj hs).1
  exact ⟨hlength, by rw [hlength, hs, List.take_left]⟩

/-- What is at the beginning: a group, or something that is refused -/
lemma isValid_first (c : UInt8) (s : List UInt8) : (∃ g n s', c :: s = g ++ s' ∧ Group g n)
    ∨ isValid (c :: s) (c :: s).length = some false
      ∧ ¬ ∃ g n s', c :: s = g ++ s' ∧ Group g n := by
  have hlen : (c :: s).length ≠ 0 := Nat.succ_ne_zero _
  rw [isValid, dif_neg hlen]
  simp only [List.getElem?_cons_zero, Option.bind_eq_bind, Option.bind_some]
  by_cases hroom : (c :: s).length < length c
  · refine Or.inr ⟨if_pos hroom, ?_⟩
    rintro ⟨g, n, s', hs, hgroup⟩
    rw [(hgroup.take hs).1, hs, List.length_append] at hroom
    omega
  rw [if_neg hroom]
  by_cases hzero : length c = 0
  · refine Or.inr ⟨dif_pos hzero, ?_⟩
    rintro ⟨g, n, s', hs, hgroup⟩
    exact absurd ((hgroup.take hs).1.symm.trans hzero) (Nat.ne_of_gt hgroup.pos)
  rw [dif_neg hzero]
  obtain ⟨b, hcontinues, hb⟩ := continues_iff hzero (Nat.not_lt.mp hroom)
  rw [hcontinues, Option.bind_some]
  cases b with
  | true =>
    obtain ⟨n, hgroup⟩ := hb.mp rfl
    exact Or.inl ⟨_, n, _, (List.take_append_drop (length c) (c :: s)).symm, hgroup⟩
  | false =>
    refine Or.inr ⟨rfl, ?_⟩
    rintro ⟨g, n, s', hs, hgroup⟩
    refine Bool.false_ne_true (hb.mpr ⟨n, ?_⟩)
    rwa [(hgroup.take hs).2]

/-- **`isValid`** reads no byte behind a string, and accepts it if it is made of groups. -/
theorem isValid_iff (s : List UInt8) :
    ∃ b, isValid s s.length = some b ∧ (b = true ↔ ∃ ps, Groups ps s) := by
  -- on the length, as a step of the loop takes a group away
  induction hlen : s.length using Nat.strong_induction_on generalizing s with
  | _ len ih =>
    subst hlen
    cases s with
    | nil =>
      rw [isValid]
      exact ⟨true, rfl, fun _ => ⟨[], .nil⟩, fun _ => rfl⟩
    | cons c s =>
      rcases isValid_first c s with ⟨g, n, s', hs, hgroup⟩ | ⟨hfalse, hnone⟩
      · have hpos := hgroup.pos
        rw [hs] at ih ⊢
        rw [List.length_append] at ih ⊢
        obtain ⟨b, hvalid, hiff⟩ := ih s'.length (by omega) s' rfl
        rw [isValid_group hgroup]
        refine ⟨b, hvalid, hiff.trans ⟨?_, ?_⟩⟩
        · rintro ⟨ps, hps⟩
          exact ⟨_, .cons hgroup hps⟩
        · rintro ⟨ps, hps⟩
          rw [← hs] at hps
          obtain ⟨g', m, qs, s'', -, hs', hgroup', hqs⟩ := hps.first
          obtain ⟨-, -, rfl⟩ := hgroup.append_inj hgroup' (hs.symm.trans hs')
          exact ⟨qs, hqs⟩
      · refine ⟨false, hfalse, iff_of_false Bool.false_ne_true ?_⟩
        rintro ⟨ps, hps⟩
        obtain ⟨g, n, qs, s', -, hs, hgroup, -⟩ := hps.first
        exact hnone ⟨g, n, s', hs, hgroup⟩

/-! ## Code points -/

/-- The number of a group is that of a code point, and needs as many bytes. -/
structure InRange (g : List UInt8) (n : ℕ) : Prop where
  codePoint : n < 0x110000
  two : g.length = 2 → 0x80 ≤ n
  three : g.length = 3 → 0x800 ≤ n
  four : g.length = 4 → 0x10000 ≤ n

/-- A group of a certain length is known by its number. -/
lemma Group.bytes {g g' : List UInt8} {n m : ℕ} (h : Group g n) (h' : Group g' m) (hn : n = m)
    (hlength : g.length = g'.length) : g = g' := by
  cases h with
  | one _ =>
    cases h' with
    | one _ => rw [UInt8.toNat_inj.mp hn]
    | _ => simp at hlength
  | two _ _ hb =>
    cases h' with
    | two _ _ hb' =>
      simp only [List.cons.injEq, and_true, ← UInt8.toNat_inj]
      unfold Tail at hb hb'
      omega
    | _ => simp at hlength
  | three _ _ hb hc =>
    cases h' with
    | three _ _ hb' hc' =>
      simp only [List.cons.injEq, and_true, ← UInt8.toNat_inj]
      unfold Tail at hb hc hb' hc'
      omega
    | _ => simp at hlength
  | four _ _ hb hc hd =>
    cases h' with
    | four _ _ hb' hc' hd' =>
      simp only [List.cons.injEq, and_true, ← UInt8.toNat_inj]
      unfold Tail at hb hc hd hb' hc' hd'
      omega
    | _ => simp at hlength

/-- How many bytes `append` writes -/
lemma length_append {n : ℕ} (h : n < 0x110000) : (append n).length
    = if n < 0x80 then 1 else if n < 0x800 then 2 else if n < 0x10000 then 3 else 4 := by
  rw [append]
  split_ifs <;> rfl

/-- **The groups that `append` writes** -/
theorem append_eq_iff {g : List UInt8} {n : ℕ} (h : Group g n) : append n = g ↔ InRange g n := by
  constructor
  · intro heq
    have hvalid : n < 0x110000 := by
      by_contra hnot
      have hnil : append n = [] := by
        rw [append, if_neg (by omega), if_neg (by omega), if_neg (by omega), if_neg hnot]
      have hpos := h.pos
      rw [← heq, hnil] at hpos
      exact Nat.lt_irrefl 0 hpos
    have hlength := length_append hvalid
    rw [heq] at hlength
    refine ⟨hvalid, fun hg => ?_, fun hg => ?_, fun hg => ?_⟩ <;> rw [hg] at hlength <;>
      split_ifs at hlength <;> omega
  · rintro ⟨hvalid, htwo, hthree, hfour⟩
    refine (append_group hvalid).bytes h rfl ?_
    rw [length_append hvalid]
    cases h with
    | one ha => exact if_pos ha
    | two _ _ hb =>
      have hlow := htwo rfl
      obtain ⟨-, hb⟩ := hb
      rw [if_neg (by omega), if_pos (by omega)]
      rfl
    | three _ _ hb hc =>
      have hlow := hthree rfl
      obtain ⟨-, hb⟩ := hb
      obtain ⟨-, hc⟩ := hc
      rw [if_neg (by omega), if_neg (by omega), if_pos (by omega)]
      rfl
    | four _ _ _ _ _ =>
      have hlow := hfour rfl
      rw [if_neg (by omega), if_neg (by omega), if_neg (by omega)]
      rfl

/-- The encoding of code points -/
def IsEncoding (s : List UInt8) : Prop :=
  ∃ data : List UInt32, (∀ ch ∈ data, ch < 0x110000) ∧ s = encoding data

/-- The groups of an encoding -/
lemma encoding_groups {data : List UInt32} (h : ∀ ch ∈ data, ch < 0x110000) :
    Groups (data.map fun ch => (append ch.toNat, ch.toNat)) (encoding data) := by
  refine ⟨by rw [encoding, List.flatMap_map], fun p hp => ?_⟩
  obtain ⟨ch, hch, rfl⟩ := List.mem_map.mp hp
  exact append_group (UInt32.lt_iff_toNat_lt.mp (h ch hch))

/-- A string is an encoding if it is made of groups in range. -/
lemma isEncoding_iff {s : List UInt8} : IsEncoding s ↔ ∃ ps, Groups ps s ∧ ∀ p ∈ ps, InRange p.1 p.2 := by
  constructor
  · rintro ⟨data, h, rfl⟩
    refine ⟨_, encoding_groups h, fun p hp => ?_⟩
    have hgroup := (encoding_groups h).group p hp
    obtain ⟨ch, hch, rfl⟩ := List.mem_map.mp hp
    exact (append_eq_iff hgroup).mp rfl
  · rintro ⟨ps, hps, hrange⟩
    have hnumber : ∀ p ∈ ps, (UInt32.ofNat p.2).toNat = p.2 := fun p hp => by
      have hlt := (hrange p hp).codePoint
      rw [UInt32.toNat_ofNat', Nat.mod_eq_of_lt (by omega)]
    refine ⟨ps.map fun p => UInt32.ofNat p.2, fun ch hch => ?_, ?_⟩
    · obtain ⟨p, hp, rfl⟩ := List.mem_map.mp hch
      rw [UInt32.lt_iff_toNat_lt, hnumber p hp]
      exact (hrange p hp).codePoint
    · rw [encoding, List.flatMap_map, hps.text]
      refine List.flatMap_congr fun p hp => ?_
      rw [hnumber p hp]
      exact ((append_eq_iff (hps.group p hp)).mpr (hrange p hp)).symm

/-- **Which strings `isValid` tells apart.**  It reads no byte behind the string.  It accepts exactly the
    encodings of code points, except for strings that are made of groups of which one is longer than its
    number needs or has the number of no code point. -/
theorem isValid_exact_iff (s : List UInt8) : ∃ b, isValid s s.length = some b
    ∧ ((b = true ↔ IsEncoding s) ↔ ∀ ps, Groups ps s → ∀ p ∈ ps, InRange p.1 p.2) := by
  obtain ⟨b, hvalid, hb⟩ := isValid_iff s
  refine ⟨b, hvalid, ?_⟩
  rw [hb, isEncoding_iff]
  constructor
  · rintro hexact ps hps
    obtain ⟨qs, hqs, hrange⟩ := hexact.mp ⟨ps, hps⟩
    rwa [hps.unique hqs]
  · intro hrange
    exact ⟨fun ⟨ps, hps⟩ => ⟨ps, hps, hrange ps hps⟩, fun ⟨ps, hps, _⟩ => ⟨ps, hps⟩⟩

/-- `'\0'` in two bytes -/
theorem isValid_overlong : isValid [0xC0, 0x80] 2 = some true ∧ ¬ IsEncoding [0xC0, 0x80] := by
  have hgroup : Group [0xC0, 0x80] 0 := .two (by decide) (by decide) (by unfold Tail; decide)
  constructor
  · have hrun : isValid [0xC0, 0x80] 2 = isValid [] 0 := isValid_group hgroup [] 0
    rw [hrun, isValid]
    rfl
  · rw [isEncoding_iff]
    rintro ⟨ps, hps, hrange⟩
    have hall : Groups [([0xC0, 0x80], 0)] [0xC0, 0x80] := .cons hgroup .nil
    rw [hps.unique hall] at hrange
    exact absurd ((hrange _ List.mem_cons_self).two rfl) (by decide)

end Nstd.Unicode
