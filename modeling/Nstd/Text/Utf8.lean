import Nstd.Core.Bytes
import Nstd.Core.Unicode

/-!
# Strings of code points

* `appendAll`, `length`, `fromString`, `isValid` — the functions of `Unicode` for whole strings.
* `stringToConcharArray` — the loop of the console that takes a string apart again.
* `Group` — a first byte and as many bytes behind it as it announces, with the number of their bits.
* `append_group` — the bytes of a code point are a group with its number.
* `fromString_group`, `isValid_group` — what the functions do with a group.
* **`append_decode`** — code points are read as they were written.

A first byte tells how many bytes follow, so strings are read group by group, by induction on their code
points.
-/

namespace Nstd.Unicode

/-! ## Functions -/

/-- `append(uint32, String&)`: whether it succeeds, and the string -/
def appendChar (ch : UInt32) (str : List UInt8) : Bool × List UInt8 :=
  (ch < 0x110000, str ++ append ch.toNat)

/-- `append(const uint32*, usize, String&)` -/
def appendAll (data : List UInt32) (str : List UInt8) : Bool × List UInt8 :=
  data.foldl (fun r ch => let a := appendChar ch r.2; (r.1 && a.1, a.2)) (true, str)

/-- `length` -/
def length (ch : UInt8) : ℕ :=
  if ch &&& 0x80 = 0 then 1
  else if ch &&& 0xe0 = 0xc0 then 2
  else if ch &&& 0xf0 = 0xe0 then 3
  else if ch &&& 0xf8 = 0xf0 then 4
  else 0

/-- `utf8Offsets` -/
def utf8Offsets : List UInt32 := [0, 0, 0x00003080, 0x000E2080, 0x03C82080]

/-- The `switch` of `fromString`, which falls through; `none` if it reads beyond the bytes -/
def combine (ch : List UInt8) : ℕ → Option UInt32
  | 4 => do
    let c₀ ← ch[0]?
    let c₁ ← ch[1]?
    let c₂ ← ch[2]?
    let c₃ ← ch[3]?
    some ((((((c₀.toUInt32 <<< 6) + c₁.toUInt32) <<< 6) + c₂.toUInt32) <<< 6) + c₃.toUInt32)
  | 3 => do
    let c₀ ← ch[0]?
    let c₁ ← ch[1]?
    let c₂ ← ch[2]?
    some ((((c₀.toUInt32 <<< 6) + c₁.toUInt32) <<< 6) + c₂.toUInt32)
  | 2 => do
    let c₀ ← ch[0]?
    let c₁ ← ch[1]?
    some ((c₀.toUInt32 <<< 6) + c₁.toUInt32)
  | _ => ch[0]?.map UInt8.toUInt32

/-- `fromString(const char*, usize)` -/
def fromString (ch : List UInt8) (len : ℕ) : Option UInt32 :=
  if len = 0 then some 0
  else do
    let c ← ch[0]?
    if c &&& 0x80 = 0 then some c.toUInt32
    else
      let reqLen := length c
      if len < reqLen then some 0
      else do
        let result ← combine ch reqLen
        let offset ← utf8Offsets[reqLen]?
        some (result - offset)

/-- The `switch` of `isValid`: whether the bytes behind the first one continue it -/
def continues (ch : List UInt8) : ℕ → Option Bool
  | 4 => do
    let c₁ ← ch[1]?
    let c₂ ← ch[2]?
    let c₃ ← ch[3]?
    let packed := c₁.toUInt32 ||| (c₂.toUInt32 <<< 8) ||| (c₃.toUInt32 <<< 16)
    some (packed &&& 0xc0c0c0 = 0x808080)
  | 3 => do
    let c₁ ← ch[1]?
    let c₂ ← ch[2]?
    let packed := c₁.toUInt32 ||| (c₂.toUInt32 <<< 8)
    some (packed &&& 0xc0c0 = 0x8080)
  | 2 => do
    let c₁ ← ch[1]?
    some (c₁ &&& 0xc0 = 0x80)
  | _ => some true

/-- `isValid(const char*, usize)`; `none` if it reads beyond the bytes -/
def isValid (ch : List UInt8) (len : ℕ) : Option Bool :=
  if hlen : len = 0 then some true
  else do
    let c ← ch[0]?
    let minLen := length c
    if len < minLen then some false
    else if _hmin : minLen = 0 then some false
    else do
      let valid ← continues ch minLen
      if valid then isValid (ch.drop minLen) (len - minLen) else some false
termination_by len
decreasing_by exact Nat.sub_lt (Nat.pos_of_ne_zero hlen) (Nat.pos_of_ne_zero _hmin)

/-- The loop of `stringToConcharArray`; `none` if it reads beyond the bytes -/
def stringToConcharArray : List UInt8 → Option (List UInt32)
  | [] => some []
  | c :: i =>
    if _hlen : length c = 0 ∨ (c :: i).length < length c then stringToConcharArray i
    else do
      let ch ← fromString (c :: i) (length c)
      let result ← stringToConcharArray ((c :: i).drop (length c))
      some (ch :: result)
termination_by i => i.length
decreasing_by
  · exact Nat.lt_succ_self _
  · rw [List.length_drop]
    exact Nat.sub_lt (Nat.succ_pos _) (Nat.pos_of_ne_zero fun h => _hlen (Or.inl h))

/-! ## Groups of bytes -/

/-- A byte behind the first one of a group -/
def Tail (c : UInt8) : Prop := 0x80 ≤ c.toNat ∧ c.toNat < 0xC0

/-- **A group**: a first byte, as many others as it announces, and the number of their bits -/
inductive Group : List UInt8 → ℕ → Prop
  | one {a : UInt8} : a.toNat < 0x80 → Group [a] a.toNat
  | two {a b : UInt8} : 0xC0 ≤ a.toNat → a.toNat < 0xE0 → Tail b →
      Group [a, b] ((a.toNat - 0xC0) * 0x40 + (b.toNat - 0x80))
  | three {a b c : UInt8} : 0xE0 ≤ a.toNat → a.toNat < 0xF0 → Tail b → Tail c →
      Group [a, b, c] (((a.toNat - 0xE0) * 0x40 + (b.toNat - 0x80)) * 0x40 + (c.toNat - 0x80))
  | four {a b c d : UInt8} : 0xF0 ≤ a.toNat → a.toNat < 0xF8 → Tail b → Tail c → Tail d →
      Group [a, b, c, d] ((((a.toNat - 0xF0) * 0x40 + (b.toNat - 0x80)) * 0x40
        + (c.toNat - 0x80)) * 0x40 + (d.toNat - 0x80))

/-- The first byte announces the length. -/
lemma length_eq : ∀ c : UInt8, length c = if c.toNat < 0x80 then 1 else if c.toNat < 0xC0 then 0
    else if c.toNat < 0xE0 then 2 else if c.toNat < 0xF0 then 3 else if c.toNat < 0xF8 then 4 else 0 :=
  forall_byte (by decide +kernel)

lemma Group.length_eq {g : List UInt8} {n : ℕ} (h : Group g n) :
    ∃ c r, g = c :: r ∧ length c = g.length := by
  cases h with
  | one ha => exact ⟨_, _, rfl, by rw [Unicode.length_eq, if_pos ha]; rfl⟩
  | @two a b hlow hhigh _ =>
    refine ⟨_, _, rfl, ?_⟩
    rw [Unicode.length_eq, if_neg (by omega), if_neg (by omega), if_pos hhigh]
    rfl
  | @three a b c hlow hhigh _ _ =>
    refine ⟨_, _, rfl, ?_⟩
    rw [Unicode.length_eq, if_neg (by omega), if_neg (by omega), if_neg (by omega), if_pos hhigh]
    rfl
  | @four a b c d hlow hhigh _ _ _ =>
    refine ⟨_, _, rfl, ?_⟩
    rw [Unicode.length_eq, if_neg (by omega), if_neg (by omega), if_neg (by omega),
      if_neg (by omega), if_pos hhigh]
    rfl

/-- The last six bits of a number are those of a byte behind the first one. -/
lemma tail_mod (n : ℕ) : Tail (UInt8.ofNat ((n &&& 0x3F) ||| 0x80))
    ∧ (UInt8.ofNat ((n &&& 0x3F) ||| 0x80)).toNat - 0x80 = n % 0x40 := by
  rw [Tail, and_or_0x80, UInt8.toNat_ofNat', Nat.mod_eq_of_lt (by omega)]
  omega

/-- **The bytes of a code point** are a group with its number. -/
theorem append_group {n : ℕ} (h : n < 0x110000) : Group (append n) n := by
  obtain ⟨htwo, hthree, hfour⟩ := or_mark
  have hbyte : ∀ {i k : ℕ}, i + k < 256 → (UInt8.ofNat (i + k)).toNat = i + k := fun hlt => by
    rw [UInt8.toNat_ofNat', Nat.mod_eq_of_lt hlt]
  rw [append]
  simp only [Nat.shiftRight_eq_div_pow]
  split_ifs with h₁ h₂ h₃
  · have hone : (UInt8.ofNat n).toNat = n := hbyte (i := n) (k := 0) (by omega)
    have hgroup := Group.one (a := UInt8.ofNat n) (by omega)
    rwa [hone] at hgroup
  · obtain ⟨hb, hbval⟩ := tail_mod n
    rw [htwo _ (by omega)]
    have ha := hbyte (i := n / 2 ^ 6 % 32) (k := 0xC0) (by omega)
    have hgroup := Group.two (a := UInt8.ofNat (n / 2 ^ 6 % 32 + 0xC0)) (by omega) (by omega) hb
    rw [ha, hbval] at hgroup
    have hn : (n / 2 ^ 6 % 32 + 0xC0 - 0xC0) * 0x40 + n % 0x40 = n := by omega
    rwa [hn] at hgroup
  · obtain ⟨hb, hbval⟩ := tail_mod (n / 2 ^ 6)
    obtain ⟨hc, hcval⟩ := tail_mod n
    rw [hthree _ (by omega)]
    have ha := hbyte (i := n / 2 ^ 12 % 16) (k := 0xE0) (by omega)
    have hgroup := Group.three (a := UInt8.ofNat (n / 2 ^ 12 % 16 + 0xE0)) (by omega) (by omega) hb hc
    rw [ha, hbval, hcval] at hgroup
    have hn : ((n / 2 ^ 12 % 16 + 0xE0 - 0xE0) * 0x40 + n / 2 ^ 6 % 0x40) * 0x40 + n % 0x40 = n := by
      omega
    rwa [hn] at hgroup
  · obtain ⟨hb, hbval⟩ := tail_mod (n / 2 ^ 12)
    obtain ⟨hc, hcval⟩ := tail_mod (n / 2 ^ 6)
    obtain ⟨hd, hdval⟩ := tail_mod n
    rw [hfour _ (by omega)]
    have ha := hbyte (i := n / 2 ^ 18 % 8) (k := 0xF0) (by omega)
    have hgroup := Group.four (a := UInt8.ofNat (n / 2 ^ 18 % 8 + 0xF0)) (by omega) (by omega) hb hc hd
    rw [ha, hbval, hcval, hdval] at hgroup
    have hn : (((n / 2 ^ 18 % 8 + 0xF0 - 0xF0) * 0x40 + n / 2 ^ 12 % 0x40) * 0x40
        + n / 2 ^ 6 % 0x40) * 0x40 + n % 0x40 = n := by
      omega
    rwa [hn] at hgroup

/-! ## What the functions do with a group -/

lemma and_or (x y m : UInt32) : (x ||| y) &&& m = (x &&& m) ||| (y &&& m) := by
  rw [← UInt32.toBitVec_inj]
  simp only [UInt32.toBitVec_and, UInt32.toBitVec_or]
  exact BitVec.and_or_distrib_right

lemma and_0x80 : ∀ c : UInt8, c &&& 0x80 = 0 ↔ c.toNat < 0x80 :=
  forall_byte (by decide +kernel)

/-- The first two bits of a byte -/
lemma and_0xc0 : ∀ c : UInt8, (c &&& 0xc0 = 0x80 ↔ 0x80 ≤ c.toNat ∧ c.toNat < 0xC0)
    ∧ c &&& 0xc0 ∈ [0, 0x40, 0x80, 0xc0] :=
  forall_byte (by decide +kernel)

/-- The masks for packed bytes leave the first two bits of each of them. -/
lemma and_mask : ∀ c : UInt8, c.toUInt32 &&& (0xc0c0c0 : UInt32) = (c &&& 0xc0).toUInt32
    ∧ c.toUInt32 <<< (8 : UInt32) &&& (0xc0c0c0 : UInt32) = (c &&& 0xc0).toUInt32 <<< (8 : UInt32)
    ∧ c.toUInt32 <<< (16 : UInt32) &&& (0xc0c0c0 : UInt32) = (c &&& 0xc0).toUInt32 <<< (16 : UInt32)
    ∧ c.toUInt32 &&& (0xc0c0 : UInt32) = (c &&& 0xc0).toUInt32
    ∧ c.toUInt32 <<< (8 : UInt32) &&& (0xc0c0 : UInt32) = (c &&& 0xc0).toUInt32 <<< (8 : UInt32) :=
  forall_byte (by decide +kernel)

lemma packed_marks : ∀ x ∈ [(0 : UInt8), 0x40, 0x80, 0xc0], ∀ y ∈ [(0 : UInt8), 0x40, 0x80, 0xc0],
    (x.toUInt32 ||| y.toUInt32 <<< (8 : UInt32) = 0x8080 ↔ x = 0x80 ∧ y = 0x80)
    ∧ ∀ z ∈ [(0 : UInt8), 0x40, 0x80, 0xc0],
      (x.toUInt32 ||| y.toUInt32 <<< (8 : UInt32) ||| z.toUInt32 <<< (16 : UInt32) = 0x808080
        ↔ x = 0x80 ∧ y = 0x80 ∧ z = 0x80) := by
  decide +kernel

/-- **The packed masks** test each byte. -/
theorem packed_iff (b c d : UInt8) :
    (b.toUInt32 ||| c.toUInt32 <<< (8 : UInt32) ||| d.toUInt32 <<< (16 : UInt32))
        &&& (0xc0c0c0 : UInt32) = 0x808080 ↔ Tail b ∧ Tail c ∧ Tail d := by
  have hmarks := ((packed_marks _ (and_0xc0 b).2 _ (and_0xc0 c).2).2 _ (and_0xc0 d).2)
  rw [and_or, and_or, (and_mask b).1, (and_mask c).2.1, (and_mask d).2.2.1, hmarks, (and_0xc0 b).1,
    (and_0xc0 c).1, (and_0xc0 d).1]
  rfl

lemma packed_two_iff (b c : UInt8) :
    (b.toUInt32 ||| c.toUInt32 <<< (8 : UInt32)) &&& (0xc0c0 : UInt32) = 0x8080
      ↔ Tail b ∧ Tail c := by
  have hmarks := (packed_marks _ (and_0xc0 b).2 _ (and_0xc0 c).2).1
  rw [and_or, (and_mask b).2.2.2.1, (and_mask c).2.2.2.2, hmarks, (and_0xc0 b).1, (and_0xc0 c).1]
  rfl

lemma Group.pos {g : List UInt8} {n : ℕ} (h : Group g n) : 0 < g.length := by
  obtain ⟨c, r, rfl, -⟩ := h.length_eq
  exact Nat.succ_pos _

/-- Where the first byte says that there are others, all of them are combined. -/
lemma fromString_long {a : UInt8} {s : List UInt8} {len : ℕ} (hlong : 0x80 ≤ a.toNat)
    (hpos : 0 < len) (hroom : length a ≤ len) : fromString (a :: s) len = (do
      let result ← combine (a :: s) (length a)
      let offset ← utf8Offsets[length a]?
      some (result - offset)) := by
  have hmark : ¬ a &&& 0x80 = 0 := fun h => absurd ((and_0x80 a).mp h) (Nat.not_lt.mpr hlong)
  simp only [fromString, if_neg (Nat.ne_of_gt hpos), List.getElem?_cons_zero, Option.bind_eq_bind,
    Option.bind_some, if_neg hmark, if_neg (Nat.not_lt.mpr hroom)]

/-- **`fromString`** gives the number of a group. -/
theorem fromString_group {g : List UInt8} {n : ℕ} (h : Group g n) (s : List UInt8) {len : ℕ}
    (hlen : g.length ≤ len) : fromString (g ++ s) len = some (UInt32.ofNat n) := by
  obtain ⟨x, r, hg, hlength⟩ := h.length_eq
  have hpos := Nat.lt_of_lt_of_le h.pos hlen
  have hroom := Nat.le_trans (Nat.le_of_eq hlength) hlen
  cases h with
  | one ha => simp [fromString, Nat.ne_of_gt hpos, and_0x80, ha]
  | @two a b hlow _ hb =>
    obtain ⟨rfl, -⟩ := List.cons.inj hg
    obtain ⟨hb₁, -⟩ := hb
    rw [List.cons_append, fromString_long (by omega) hpos hroom, hlength]
    refine congrArg some (UInt32.toNat_inj.mp ?_)
    simp [UInt32.toNat_sub, UInt32.toNat_add, UInt32.toNat_shiftLeft, Nat.shiftLeft_eq]
    omega
  | @three a b c hlow _ hb hc =>
    obtain ⟨rfl, -⟩ := List.cons.inj hg
    obtain ⟨hb₁, -⟩ := hb
    obtain ⟨hc₁, -⟩ := hc
    rw [List.cons_append, fromString_long (by omega) hpos hroom, hlength]
    refine congrArg some (UInt32.toNat_inj.mp ?_)
    simp [UInt32.toNat_sub, UInt32.toNat_add, UInt32.toNat_shiftLeft, Nat.shiftLeft_eq]
    omega
  | @four a b c d hlow _ hb hc hd =>
    obtain ⟨rfl, -⟩ := List.cons.inj hg
    obtain ⟨hb₁, -⟩ := hb
    obtain ⟨hc₁, -⟩ := hc
    obtain ⟨hd₁, -⟩ := hd
    rw [List.cons_append, fromString_long (by omega) hpos hroom, hlength]
    refine congrArg some (UInt32.toNat_inj.mp ?_)
    simp [UInt32.toNat_sub, UInt32.toNat_add, UInt32.toNat_shiftLeft, Nat.shiftLeft_eq]
    omega

/-- The bytes behind the first one of a group continue it. -/
lemma continues_group {g : List UInt8} {n : ℕ} (h : Group g n) (s : List UInt8) :
    continues (g ++ s) g.length = some true := by
  cases h with
  | one _ => rfl
  | @two a b _ _ hb =>
    have hmark : b &&& 0xc0 = 0x80 := (and_0xc0 b).1.mpr hb
    simp [continues, hmark]
  | @three a b c _ _ hb hc =>
    have hpacked := (packed_two_iff b c).mpr ⟨hb, hc⟩
    simp [continues, hpacked]
  | @four a b c d _ _ hb hc hd =>
    have hpacked := (packed_iff b c d).mpr ⟨hb, hc, hd⟩
    simp [continues, hpacked]

/-- **`isValid`** goes on behind a group. -/
theorem isValid_group {g : List UInt8} {n : ℕ} (h : Group g n) (s : List UInt8) (len : ℕ) :
    isValid (g ++ s) (g.length + len) = isValid s len := by
  have hcontinues := continues_group h s
  have hpos := h.pos
  obtain ⟨c, r, rfl, hlength⟩ := h.length_eq
  rw [isValid, dif_neg (by omega)]
  simp only [List.cons_append, List.getElem?_cons_zero, Option.bind_eq_bind, Option.bind_some,
    hlength, Nat.not_lt.mpr (Nat.le_add_right _ len), if_false, Nat.ne_of_gt hpos, dite_false,
    Nat.add_sub_cancel_left]
  rw [← List.cons_append, hcontinues, Option.bind_some, if_pos rfl, List.drop_left]

/-- The loop of the console takes the number of a group. -/
lemma stringToConcharArray_group {g : List UInt8} {n : ℕ} (h : Group g n) (s : List UInt8) :
    stringToConcharArray (g ++ s) = (stringToConcharArray s).map (UInt32.ofNat n :: ·) := by
  have hread := fromString_group h s (Nat.le_refl _)
  have hpos := h.pos
  obtain ⟨c, r, rfl, hlength⟩ := h.length_eq
  have hroom : ¬ (length c = 0 ∨ (c :: (r ++ s)).length < length c) := by
    rw [hlength, ← List.cons_append, List.length_append]
    omega
  rw [List.cons_append, stringToConcharArray, dif_neg hroom, hlength, ← List.cons_append, hread,
    List.drop_left]
  cases stringToConcharArray s <;> rfl

/-- `fromString` does not read beyond as many bytes as the first one announces. -/
lemma fromString_isSome {c : UInt8} {s : List UInt8} (h : length c ≤ (c :: s).length) :
    ∃ ch, fromString (c :: s) (length c) = some ch := by
  rw [fromString]
  by_cases hzero : length c = 0
  · exact ⟨0, if_pos hzero⟩
  by_cases hascii : c &&& 0x80 = 0
  · exact ⟨c.toUInt32, by simp [hzero, hascii]⟩
  have hlen := length_eq c
  have hroom : length c ≤ s.length + 1 := h
  rcases s with _ | ⟨c₁, _ | ⟨c₂, _ | ⟨c₃, s⟩⟩⟩ <;> simp only [List.length_nil, List.length_cons] at hroom
  all_goals
    have hcases : length c = 1 ∨ length c = 2 ∨ length c = 3 ∨ length c = 4 := by
      split_ifs at hlen <;> omega
    rcases hcases with h' | h' | h' | h' <;> first | omega | simp [h', hascii, combine, utf8Offsets]

/-- The loop of the console stays within the bytes. -/
lemma stringToConcharArray_isSome (s : List UInt8) : ∃ data, stringToConcharArray s = some data := by
  induction hm : s.length using Nat.strongRecOn generalizing s with
  | _ m ih =>
    cases s with
    | nil => exact ⟨[], by rw [stringToConcharArray]⟩
    | cons c s =>
      rw [stringToConcharArray]
      split
      next => exact ih s.length (by rw [← hm]; exact Nat.lt_succ_self _) s rfl
      next hlen =>
        rcases fromString_isSome (Nat.not_lt.mp (not_or.mp hlen).2) with ⟨ch, hch⟩
        have hpos := Nat.pos_of_ne_zero (not_or.mp hlen).1
        rcases ih ((c :: s).drop (length c)).length
          (by rw [List.length_drop, ← hm, List.length_cons]; omega) _ rfl with ⟨data, hdata⟩
        exact ⟨ch :: data, by rw [hch, hdata]; rfl⟩

/-! ## Whole strings -/

/-- The bytes of code points -/
def encoding (data : List UInt32) : List UInt8 := data.flatMap fun ch => append ch.toNat

lemma appendAll_eq {data : List UInt32} (h : ∀ ch ∈ data, ch < 0x110000) (str : List UInt8) :
    appendAll data str = (true, str ++ encoding data) := by
  induction data generalizing str with
  | nil => simp [appendAll, encoding]
  | cons ch data ih =>
    have hch : ch < 0x110000 := h ch List.mem_cons_self
    have htail := ih (fun c hc => h c (List.mem_cons_of_mem ch hc)) (str ++ append ch.toNat)
    have hfirst : appendAll (ch :: data) str = appendAll data (str ++ append ch.toNat) := by
      simp [appendAll, appendChar, hch]
    rw [hfirst, htail, encoding, encoding, List.flatMap_cons, List.append_assoc]

/-- The loop of the console takes the bytes apart again. -/
lemma stringToConcharArray_encoding {data : List UInt32} (h : ∀ ch ∈ data, ch < 0x110000) :
    stringToConcharArray (encoding data) = some data := by
  induction data with
  | nil => rw [encoding, List.flatMap_nil, stringToConcharArray]
  | cons ch data ih =>
    have hdecode := ih fun c hc => h c (List.mem_cons_of_mem ch hc)
    have hgroup : Group (append ch.toNat) ch.toNat :=
      append_group (UInt32.lt_iff_toNat_lt.mp (h ch List.mem_cons_self))
    rw [encoding, List.flatMap_cons, ← encoding, stringToConcharArray_group hgroup, hdecode,
      UInt32.ofNat_toNat]
    rfl

/-- **Code points are read as they were written.**  `append` succeeds for all of them, what it writes is
    valid, and the loop of the console takes it apart again. -/
theorem append_decode {data : List UInt32} (h : ∀ ch ∈ data, ch < 0x110000) : ∃ str,
    appendAll data [] = (true, str) ∧ isValid str str.length = some true
      ∧ stringToConcharArray str = some data := by
  refine ⟨encoding data, by rw [appendAll_eq h, List.nil_append], ?_, stringToConcharArray_encoding h⟩
  induction data with
  | nil => rw [isValid]; rfl
  | cons ch data ih =>
    have hvalid := ih fun c hc => h c (List.mem_cons_of_mem ch hc)
    have hgroup : Group (append ch.toNat) ch.toNat :=
      append_group (UInt32.lt_iff_toNat_lt.mp (h ch List.mem_cons_self))
    rw [encoding, List.flatMap_cons, ← encoding, List.length_append, isValid_group hgroup]
    exact hvalid

/-- The last code points of the four lengths -/
theorem append_decode_bounds : ∃ str, appendAll [0x7F, 0x7FF, 0xFFFF, 0x10FFFF] [] = (true, str)
    ∧ isValid str str.length = some true
    ∧ stringToConcharArray str = some [0x7F, 0x7FF, 0xFFFF, 0x10FFFF] :=
  append_decode (forall_mem_of_all rfl)

end Nstd.Unicode
