import Mathlib.Tactic.ByContra
import Nstd.Shared.StringCalls

/-!
# The order of strings

* `State.equal`, `State.compare` — `operator==`, of lengths and bytes, and `compare`, of C strings.
* `compareChars_spec` — C strings are compared in lexicographic order.
* `compare_spec` — `compare` returns, and changes the value of no string.
* `State.Legal` — two strings are equal exactly if `compare` gives 0, and one of `<`, `==` and `>`
  holds.
* **`compare_iff`** — `<` is a strict order; two strings are ordered like the keys of a map exactly if
  they are equal or differ in front of the first zero.

Equality looks at all bytes and `compare` at those in front of the first zero, so they disagree about
strings that differ behind it only.
-/

namespace Nstd.Strings

/-! ## Functions -/

/-- The loop of `compare` -/
def compareChars : List UInt8 → List UInt8 → Option ℤ
  | c₁ :: s₁, c₂ :: s₂ =>
    if c₁ = c₂ then
      if c₁ = 0 then some 0 else compareChars s₁ s₂
    else some (c₁.toNat - c₂.toNat)
  | _, _ => none

section

variable (memory : ℕ → ℕ → UInt8) (behind : ℕ → Behind)

/-- `compare(const String&)` -/
def State.compare (s : State) (x y : ℕ) : Option (State × ℤ) := do
  let (s, s₁) ← s.constChars memory behind x
  let (s, s₂) ← s.constChars memory behind y
  let s₁ ← memoryOf s.heap (behind x) s₁
  let s₂ ← memoryOf s.heap (behind y) s₂
  let n ← compareChars s₁ s₂
  some (s, n)

/-- `operator==(const String&)` -/
def State.equal (s : State) (x y : ℕ) : Option Bool := do
  let this ← s.get x
  let other ← s.get y
  let len ← lenOf s.heap this
  let otherLen ← lenOf s.heap other
  if len = otherLen then do
    let str ← strOf s.heap this
    let otherStr ← strOf s.heap other
    let bytes ← take str len
    let otherBytes ← take otherStr len
    some (decide (bytes = otherBytes))
  else some false

/-- `operator<` -/
def State.Less (s : State) (x y : ℕ) : Prop :=
  ∃ s' n, s.compare memory behind x y = some (s', n) ∧ n < 0

def State.Equal (s : State) (x y : ℕ) : Prop := s.equal x y = some true

/-- What a map counts on for two keys: `compare` gives 0 exactly if they are equal, and exactly one of
    `<`, `==` and `>` holds. -/
structure State.Legal (s : State) (x y : ℕ) : Prop where
  zero : ∃ s' n, s.compare memory behind x y = some (s', n) ∧ (n = 0 ↔ s.Equal x y)
  some : s.Less memory behind x y ∨ s.Equal x y ∨ s.Less memory behind y x
  less : s.Less memory behind x y → ¬ s.Equal x y ∧ ¬ s.Less memory behind y x
  equal : s.Equal x y → ¬ s.Less memory behind y x

end

/-! ## Bytes -/

/-- What is in front of the first zero -/
def cBytes (v : List UInt8) : List UInt8 := v.takeWhile (· ≠ 0)

/-- They are a C string where those of a string and a zero are. -/
lemma cBytes_prefix {v l : List UInt8} (h : v ++ [0] <+: l) : 0 ∉ cBytes v ∧ cBytes v ++ [0] <+: l :=
  Texts.upTo_eq_some (Texts.upTo_of_prefix h)

/-- Different bytes are ordered like the numbers that they are. -/
lemma compareChars_of_ne {c d : UInt8} (hne : c ≠ d) (l₁ l₂ : List UInt8) :
    ∃ n, compareChars (c :: l₁) (d :: l₂) = some n ∧ n ≠ 0 ∧ (n < 0 ↔ c < d) := by
  have hnat : c.toNat ≠ d.toNat := fun h => hne (UInt8.toNat_inj.mp h)
  refine ⟨c.toNat - d.toNat, by rw [compareChars, if_neg hne], ?_, ?_⟩
  · omega
  · rw [UInt8.lt_iff_toNat_lt]
    omega

lemma compareChars_same {c : UInt8} (hc : c ≠ 0) (l₁ l₂ : List UInt8) :
    compareChars (c :: l₁) (c :: l₂) = compareChars l₁ l₂ := by
  rw [compareChars, if_pos rfl, if_neg hc]

/-- **C strings** are compared in lexicographic order. -/
theorem compareChars_spec {t u l₁ l₂ : List UInt8} (ht : 0 ∉ t) (hu : 0 ∉ u) (h₁ : t ++ [0] <+: l₁)
    (h₂ : u ++ [0] <+: l₂) :
    ∃ n, compareChars l₁ l₂ = some n ∧ (n = 0 ↔ t = u) ∧ (n < 0 ↔ t < u) := by
  obtain ⟨l₁, rfl⟩ := h₁
  obtain ⟨l₂, rfl⟩ := h₂
  induction t generalizing u with
  | nil =>
    cases u with
    | nil => exact ⟨0, by simp [compareChars], by simp, by simp⟩
    | cons d u =>
      have hd : d ≠ 0 := fun h => hu (h ▸ List.mem_cons_self)
      obtain ⟨n, hn, hzero, hlt⟩ := compareChars_of_ne hd.symm l₁ (u ++ [0] ++ l₂)
      refine ⟨n, hn, ⟨fun h => absurd h hzero, fun h => nomatch h⟩, ?_⟩
      exact ⟨fun _ => List.nil_lt_cons d u, fun _ => hlt.mpr (UInt8.pos_iff_ne_zero.mpr hd)⟩
  | cons c t ih =>
    have hc : c ≠ 0 := fun h => ht (h ▸ List.mem_cons_self)
    cases u with
    | nil =>
      obtain ⟨n, hn, hzero, hlt⟩ := compareChars_of_ne hc (t ++ [0] ++ l₁) l₂
      refine ⟨n, hn, ⟨fun h => absurd h hzero, fun h => nomatch h⟩, ?_⟩
      exact ⟨fun h => absurd (hlt.mp h) UInt8.not_lt_zero, fun h => absurd h (List.not_lt_nil _)⟩
    | cons d u =>
      by_cases hcd : c = d
      · subst hcd
        obtain ⟨n, hn, hzero, hlt⟩ := ih (fun h => ht (List.mem_cons_of_mem c h))
          fun h => hu (List.mem_cons_of_mem c h)
        refine ⟨n, (compareChars_same hc _ _).trans hn, by simp [hzero], ?_⟩
        rw [hlt, List.cons_lt_cons_iff]
        simp
      · obtain ⟨n, hn, hzero, hlt⟩ := compareChars_of_ne hcd (t ++ [0] ++ l₁) (u ++ [0] ++ l₂)
        refine ⟨n, hn, by simp [hzero, hcd], ?_⟩
        rw [hlt, List.cons_lt_cons_iff]
        simp [hcd]

/-! ## Strings -/

variable (memory : ℕ → ℕ → UInt8) (behind : ℕ → Behind)

/-- **Two conversions**: both strings end behind their bytes then, also when they are the same one. -/
lemma constChars_both {s : State} (hs : s.Sound) {x y : ℕ} {v w : List UInt8} (hv : s.Value x v)
    (hw : s.Value y w) : ∃ s₁ s₂ this other rest rest', s.constChars memory behind x = some (s₁, this)
      ∧ s₁.constChars memory behind y = some (s₂, other) ∧ s.Leaves x s₁ ∧ s₁.Value x v
      ∧ s₁.Leaves y s₂ ∧ s₂.Value y w ∧ memoryOf s₂.heap (behind x) this = some (v ++ 0 :: rest)
      ∧ memoryOf s₂.heap (behind y) other = some (w ++ 0 :: rest') := by
  obtain ⟨c, rest, hmemory⟩ := hs.inMemory behind hv
  obtain ⟨s₁, this, rest₁, hthis, hx₁, hleaves₁, hmemory₁, -⟩ := constChars_spec memory hs hmemory
  have hvalues₁ := hmemory₁.values hv hleaves₁
  obtain ⟨d, rest', hother⟩ := hleaves₁.sound.inMemory behind (hvalues₁ y w hw)
  obtain ⟨s₂, other, rest₂, hrun, hy₂, hleaves₂, hmemory₂, hsame, -⟩ :=
    constChars_spec memory hleaves₁.sound hother
  -- the first string is where it was, also when it is the other one
  have hfirst : s₂.InMemory behind x v (0 :: rest₁) ∧ s₂.get x = some this := by
    by_cases hxy : x = y
    · subst hxy
      have hd : d = 0 := by
        obtain rfl := hv.unique hw
        have heq := (hother.cell hx₁).symm.trans (hmemory₁.cell hx₁)
        exact (List.cons.inj (List.append_cancel_left (Option.some.inj heq))).1
      rw [(hsame hd).1]
      exact ⟨hmemory₁, hx₁⟩
    · exact ⟨hmemory₁.leaves hleaves₂ hxy, (hleaves₂.get x hxy).trans hx₁⟩
  exact ⟨s₁, s₂, this, other, rest₁, rest₂, hthis, hrun, hleaves₁, hmemory₁.value, hleaves₂,
    hmemory₂.value, hfirst.1.cell hfirst.2, hmemory₂.cell hy₂⟩

/-- **`compare`** returns, compares in lexicographic order what is in front of the first zeros, and
    changes no value. -/
theorem compare_spec {s : State} (hs : s.Sound) {x y : ℕ} {v w : List UInt8} (hv : s.Value x v)
    (hw : s.Value y w) : ∃ s' n, s.compare memory behind x y = some (s', n) ∧ s'.Sound
      ∧ (∀ z u, s.Value z u → s'.Value z u) ∧ (n = 0 ↔ cBytes v = cBytes w)
      ∧ (n < 0 ↔ cBytes v < cBytes w) := by
  obtain ⟨s₁, s₂, this, other, rest₁, rest₂, hthis, hother, hleaves₁, hv₁, hleaves₂, hw₂, hstr₁,
    hstr₂⟩ := constChars_both memory behind hs hv hw
  have hbegins : ∀ u rest : List UInt8, u ++ [0] <+: u ++ 0 :: rest := fun u rest =>
    ⟨rest, by rw [List.append_assoc]; rfl⟩
  obtain ⟨ht, hbegins₁⟩ := cBytes_prefix (hbegins v rest₁)
  obtain ⟨hu, hbegins₂⟩ := cBytes_prefix (hbegins w rest₂)
  obtain ⟨n, hn, hzero, hlt⟩ := compareChars_spec ht hu hbegins₁ hbegins₂
  refine ⟨s₂, n, ?_, hleaves₂.sound, fun z u hz => ?_, hzero, hlt⟩
  · simp [State.compare, hthis, hother, hstr₁, hstr₂, hn]
  · exact hleaves₂.values hw₂ (hleaves₁.values hv₁ hv hw) (hleaves₁.values hv₁ hv hz)

/-- **`operator==`** -/
lemma equal_iff {s : State} (hs : s.Sound) {x y : ℕ} {v w : List UInt8} (hv : s.Value x v)
    (hw : s.Value y w) : s.Equal x y ↔ v = w := by
  obtain ⟨c, hx, hlen, str, hstr, hbegins⟩ := hs.value_iff.mp hv
  obtain ⟨d, hy, hlen', str', hstr', hbegins'⟩ := hs.value_iff.mp hw
  rw [State.Equal, State.equal]
  by_cases hlength : v.length = w.length
  · have htake' : take str' v.length = some w := hlength ▸ take_eq hbegins'
    simp [hx, hy, hlen, hlen', hlength, hstr, hstr', hlength ▸ take_eq hbegins, hlength ▸ htake']
  · have hne : v ≠ w := fun h => hlength (h ▸ rfl)
    simp [hx, hy, hlen, hlen', hlength, hne]

/-- **`operator<`** -/
lemma less_iff {s : State} (hs : s.Sound) {x y : ℕ} {v w : List UInt8} (hv : s.Value x v)
    (hw : s.Value y w) : s.Less memory behind x y ↔ cBytes v < cBytes w := by
  obtain ⟨s', n, hrun, -, -, -, hlt⟩ := compare_spec memory behind hs hv hw
  refine ⟨fun ⟨s'', n', hrun', hneg⟩ => ?_, fun h => ⟨s', n, hrun, hlt.mpr h⟩⟩
  obtain ⟨rfl, rfl⟩ := Prod.mk.inj (Option.some.inj (hrun.symm.trans hrun'))
  exact hlt.mp hneg

/-- Only strings are compared. -/
lemma State.Less.values {s : State} (hs : s.Sound) {x y : ℕ} (h : s.Less memory behind x y) :
    ∃ v w, s.Value x v ∧ s.Value y w := by
  obtain ⟨s', n, h, -⟩ := h
  obtain ⟨⟨s₁, this⟩, hthis, h⟩ := Option.bind_eq_some_iff.mp h
  obtain ⟨⟨s₂, other⟩, hother, -⟩ := Option.bind_eq_some_iff.mp h
  obtain ⟨c, hx, -⟩ := Option.bind_eq_some_iff.mp hthis
  obtain ⟨d, hy, -⟩ := Option.bind_eq_some_iff.mp hother
  obtain ⟨v, hv⟩ := hs.value hx
  obtain ⟨_, _, hmemory⟩ := hs.inMemory behind hv
  obtain ⟨s₁', this', -, hthis', -, hleaves, -⟩ := constChars_spec memory hs hmemory
  obtain ⟨rfl, rfl⟩ := Prod.mk.inj (Option.some.inj (hthis.symm.trans hthis'))
  by_cases hyx : y = x
  · exact ⟨v, v, hv, hyx ▸ hv⟩
  · obtain ⟨w, hw⟩ := hs.value ((hleaves.get y hyx).symm.trans hy)
    exact ⟨v, w, hv, hw⟩

/-- Of two lists, one is less if they are not the same. -/
lemma less_or_less {t u : List UInt8} (hne : t ≠ u) : t < u ∨ u < t := by
  by_contra hnot
  obtain ⟨htu, hut⟩ := not_or.mp hnot
  exact hne (List.le_antisymm (List.not_lt.mp hut) (List.not_lt.mp htu))

/-- **The order of strings.**  After any moves, whatever is behind attached strings: `compare` of any two
    strings returns and changes no value, and `<` is irreflexive and transitive.  Two strings are keys
    that a map can tell apart exactly if they are equal or are different C strings. -/
theorem compare_iff (n : ℕ) (ms : List Move) {s : State}
    (hs : ms.foldlM (step memory) (State.initial n) = some s) :
    (∀ x y v w, s.Value x v → s.Value y w → ∃ s' n, s.compare memory behind x y = some (s', n)
      ∧ ∀ z u, s.Value z u → s'.Value z u)
    ∧ (∀ x, ¬ s.Less memory behind x x)
    ∧ (∀ x y z, s.Less memory behind x y → s.Less memory behind y z → s.Less memory behind x z)
    ∧ ∀ x y v w, s.Value x v → s.Value y w →
      (s.Legal memory behind x y ↔ v = w ∨ cBytes v ≠ cBytes w) := by
  obtain ⟨s₁, hrun, hsound⟩ := State.Sound.run memory (n := n) ms
  obtain rfl := Option.some.inj (hrun.symm.trans hs)
  refine ⟨fun x y v w hv hw => ?_, fun x hless => ?_, fun x y z hxy hyz => ?_,
    fun x y v w hv hw => ⟨fun hlegal => ?_, fun hor => ?_⟩⟩
  · obtain ⟨s', n, hcompare, -, hkeep, -⟩ := compare_spec memory behind hsound hv hw
    exact ⟨s', n, hcompare, hkeep⟩
  · obtain ⟨v, -, hv, -⟩ := hless.values memory behind hsound
    exact List.lt_irrefl _ ((less_iff memory behind hsound hv hv).mp hless)
  · obtain ⟨v, w, hv, hw⟩ := hxy.values memory behind hsound
    obtain ⟨-, u, -, hu⟩ := hyz.values memory behind hsound
    exact (less_iff memory behind hsound hv hu).mpr
      (List.lt_trans ((less_iff memory behind hsound hv hw).mp hxy)
        ((less_iff memory behind hsound hw hu).mp hyz))
  · obtain ⟨s', n, hcompare, hzero⟩ := hlegal.zero
    obtain ⟨s'', n', hcompare', -, -, hzero', -⟩ := compare_spec memory behind hsound hv hw
    obtain ⟨rfl, rfl⟩ := Prod.mk.inj (Option.some.inj (hcompare.symm.trans hcompare'))
    refine or_iff_not_imp_right.mpr fun hsame => ?_
    exact (equal_iff hsound hv hw).mp (hzero.mp (hzero'.mpr (not_not.mp hsame)))
  · have hiff : cBytes v = cBytes w ↔ v = w := by
      refine ⟨fun hsame => hor.resolve_right (not_not.mpr hsame), fun h => h ▸ rfl⟩
    obtain ⟨s', n, hcompare, -, -, hzero, -⟩ := compare_spec memory behind hsound hv hw
    have hless := less_iff memory behind hsound hv hw
    have hgreater := less_iff memory behind hsound hw hv
    have hequal := equal_iff hsound hv hw
    refine ⟨⟨s', n, hcompare, by rw [hzero, hiff, hequal]⟩, ?_, fun h => ⟨fun heq => ?_, fun h' => ?_⟩,
      fun heq h' => ?_⟩
    · rw [hless, hequal, hgreater]
      by_cases heq : v = w
      · exact Or.inr (Or.inl heq)
      · exact (less_or_less fun hsame => heq (hiff.mp hsame)).imp_right Or.inr
    · rw [hless, hequal.mp heq] at h
      exact List.lt_irrefl _ h
    · exact List.lt_asymm (hless.mp h) (hgreater.mp h')
    · rw [hgreater, hequal.mp heq] at h'
      exact List.lt_irrefl _ h'

theorem compare_iff_bytes : ∃ s,
    [.construct 0 (.ofBytes [120, 1]), .construct 1 (.ofBytes [120])].foldlM (step fun _ _ => 0)
      (State.initial 2) = some s
    ∧ (s.Legal (fun _ _ => 0) (fun _ => ⟨0, []⟩) 0 1
      ↔ [120, 1] = ([120] : List UInt8) ∨ cBytes [120, 1] ≠ cBytes [120]) := by
  obtain ⟨s, hs, -⟩ := State.Sound.run (fun _ _ => 0) (n := 2)
    [.construct 0 (.ofBytes [120, 1]), .construct 1 (.ofBytes [120])]
  have hvalues : s.Value 0 [120, 1] ∧ s.Value 1 [120] := by
    obtain rfl := Option.some.inj hs
    exact ⟨⟨_, _, _, rfl, rfl, rfl, rfl⟩, ⟨_, _, _, rfl, rfl, rfl, rfl⟩⟩
  exact ⟨s, hs, (compare_iff _ _ 2 _ hs).2.2.2 0 1 _ _ hvalues.1 hvalues.2⟩

/-- `"x\0y"` and `"x"` -/
theorem compare_nul : ∃ s,
    [.construct 0 (.ofBytes [120, 0, 121]), .construct 1 (.ofBytes [120])].foldlM (step fun _ _ => 0)
      (State.initial 2) = some s
    ∧ s.compare (fun _ _ => 0) (fun _ => ⟨0, []⟩) 0 1 = some (s, 0) ∧ s.equal 0 1 = some false
    ∧ ¬ s.Legal (fun _ _ => 0) (fun _ => ⟨0, []⟩) 0 1 := by
  refine ⟨_, rfl, rfl, rfl, fun hlegal => ?_⟩
  obtain ⟨s', n, hcompare, hzero⟩ := hlegal.zero
  obtain ⟨rfl, rfl⟩ := Prod.mk.inj (Option.some.inj hcompare.symm)
  exact absurd (Option.some.inj (hzero.mp rfl)) (by decide)

end Nstd.Strings
