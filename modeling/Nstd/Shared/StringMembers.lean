import Nstd.Core.CStrings
import Nstd.Shared.StringCalls

/-!
# What member functions read and return

* `State.chars`, `State.data` — the memory of a string, by `operator const char*` and by its pointer.
* `State.make`, `State.substr` — strings that are returned, each of which is a new variable.
* `State.Shows` — what the variables show, as a list of the bytes of each; this is the abstract state
  that functions are compared with.
* **`State.Shows.chars`**, **`State.Shows.data`**, **`State.Shows.substr`** — what is read depends on
  these bytes only, up to the end of the string.
-/

namespace Nstd.Strings

/-! ## Functions -/

/-- Where `substr` begins to copy, and how much; lengths are below `2 ^ 63`, so that nothing wraps. -/
def substrBounds (len : ℕ) (start length : ℤ) : ℕ × ℕ :=
  let start : ℕ :=
    if start < 0 then (if len + start < 0 then 0 else (len + start).toNat)
    else if start.toNat > len then len else start.toNat
  let stop : ℕ :=
    if length ≥ 0 then (if start + length.toNat > len then len else start + length.toNat) else len
  (start, stop - start)

section

variable (memory : ℕ → ℕ → UInt8) (behind : ℕ → Behind)

/-- `operator const char*`, and the memory that the pointer is to -/
def State.chars (s : State) (x : ℕ) : Option (State × List UInt8) := do
  let (s, this) ← s.constChars memory behind x
  let str ← memoryOf s.heap (behind x) this
  some (s, str)

/-- The memory that `data->str` points to, and `data->len` -/
def State.data (s : State) (x : ℕ) : Option (List UInt8 × ℕ) := do
  let this ← s.get x
  let str ← memoryOf s.heap (behind x) this
  let len ← lenOf s.heap this
  some (str, len)

/-- A function that reads the C string `*this` -/
def State.readChars {α : Type} (s : State) (x : ℕ) (read : List UInt8 → Option α) :
    Option (State × α) := do
  let (s, str) ← s.chars memory behind x
  let a ← read str
  some (s, a)

/-- A function that reads from `data->str`, up to `data->len` -/
def State.readData {α : Type} (s : State) (x : ℕ) (read : List UInt8 → ℕ → Option α) :
    Option (State × α) := do
  let (str, len) ← s.data behind x
  let a ← read str len
  some (s, a)

/-- `start >= data->len ? 0 : search(*this + start)` -/
def State.searchFrom (s : State) (x start : ℕ) (search : List UInt8 → Option (Option ℕ)) :
    Option (State × Option ℕ) := do
  let (_, len) ← s.data behind x
  if start ≥ len then some (s, none) else s.readChars memory behind x search

/-- A string that is returned is a new variable behind the others. -/
def State.make (s : State) (init : Init) : Option State :=
  step memory ⟨s.heap, s.vars ++ [none]⟩ (.construct s.vars.length init)

/-- `substr` -/
def State.substr (s : State) (x : ℕ) (start length : ℤ) : Option State := do
  let (str, len) ← s.data behind x
  let bounds := substrBounds len start length
  let bytes ← take (str.drop bounds.1) bounds.2
  s.make memory (.ofBytes bytes)

end

/-! ## What variables show -/

/-- The bytes of each variable, nothing where no string is constructed -/
abbrev Values := List (Option (List UInt8))

def Values.at (vs : Values) (x : ℕ) : Option (List UInt8) := vs[x]?.join

/-- **What the variables show**, whatever blocks they point to -/
structure State.Shows (s : State) (vs : Values) : Prop where
  sound : s.Sound
  length : s.vars.length = vs.length
  value : ∀ x v, vs.at x = some v → s.Value x v
  missing : ∀ x, vs.at x = none → s.get x = none

/-- The bytes that `substr` copies -/
def sub (v : List UInt8) (start length : ℤ) : List UInt8 :=
  (v.drop (substrBounds v.length start length).1).take (substrBounds v.length start length).2

variable {memory : ℕ → ℕ → UInt8} {behind : ℕ → Behind} {s s' : State} {vs : Values} {x : ℕ}
  {v : List UInt8}

lemma Values.lt_of_at (h : vs.at x = some v) : x < vs.length := by
  refine Nat.lt_of_not_le fun hle => ?_
  rw [Values.at, List.getElem?_eq_none hle] at h
  exact nomatch h

lemma Values.at_set (u : Option (List UInt8)) (hx : x < vs.length) (y : ℕ) :
    Values.at (vs.set x u) y = if y = x then u else vs.at y := by
  rw [Values.at, Values.at]
  by_cases hy : y = x
  · rw [hy, List.getElem?_set_self hx, if_pos rfl]
    rfl
  · rw [List.getElem?_set_ne (Ne.symm hy), if_neg hy]

lemma Values.at_push (u : Option (List UInt8)) (y : ℕ) :
    Values.at (vs ++ [u]) y = if y = vs.length then u else vs.at y := by
  rw [Values.at, Values.at]
  by_cases hy : y = vs.length
  · rw [hy, List.getElem?_append_right (Nat.le_refl _), Nat.sub_self, if_pos rfl]
    rfl
  · rw [if_neg hy, List.getElem?_append]
    split_ifs with hlt
    · rfl
    · rw [List.getElem?_eq_none (show [u].length ≤ y - vs.length by simp; omega),
        List.getElem?_eq_none (Nat.not_lt.mp hlt)]

/-- A new variable leaves the others. -/
lemma Values.at_append {ws : Values} (hx : vs.at x = some v) : Values.at (vs ++ ws) x = some v := by
  rw [Values.at, List.getElem?_append_left (Values.lt_of_at hx)]
  exact hx

/-- A variable has one value. -/
lemma State.Shows.at (h : s.Shows vs) (hv : s.Value x v) : vs.at x = some v := by
  cases hx : vs.at x with
  | none =>
    obtain ⟨c, hc, -⟩ := h.sound.value_iff.mp hv
    exact nomatch (h.missing x hx).symm.trans hc
  | some u => rw [(h.value x u hx).unique hv]

/-- Every state shows something. -/
lemma State.Sound.shows (hs : s.Sound) : ∃ vs, s.Shows vs := by
  classical
  have hall : ∀ x, ∃ u : Option (List UInt8), (∀ v, u = some v → s.Value x v) ∧
      (u = none → s.get x = none) := by
    intro x
    cases hx : s.get x with
    | none => exact ⟨none, fun v hv => absurd hv (by simp), fun _ => rfl⟩
    | some c =>
      obtain ⟨v, hv⟩ := hs.value hx
      exact ⟨some v, fun u hu => Option.some.inj hu ▸ hv, fun h => absurd h (by simp)⟩
  choose u hsome hnone using hall
  have hat : ∀ x, x < s.vars.length → Values.at ((List.range s.vars.length).map u) x = u x := by
    intro x hx
    rw [Values.at, List.getElem?_map, List.getElem?_range hx]
    rfl
  refine ⟨(List.range s.vars.length).map u, hs, by simp, fun x v hv => ?_, fun x hx => ?_⟩
  · have hlt : x < s.vars.length := by simpa using Values.lt_of_at hv
    exact hsome x v ((hat x hlt).symm.trans hv)
  · by_cases hlt : x < s.vars.length
    · exact hnone x ((hat x hlt).symm.trans hx)
    · rw [State.get, List.getElem?_eq_none (Nat.not_lt.mp hlt)]
      rfl

/-- **One variable is changed.** -/
lemma State.Shows.set (h : s.Shows vs) (hleaves : s.Leaves x s') (hv : s'.Value x v) :
    s'.Shows (vs.set x (some v)) := by
  have hx : x < vs.length := by
    obtain ⟨c, hc, -⟩ := hleaves.sound.value_iff.mp hv
    rw [← h.length, ← hleaves.length]
    exact State.get_lt hc
  refine ⟨hleaves.sound, by rw [hleaves.length, h.length, List.length_set], fun y u hu => ?_,
    fun y hy => ?_⟩
  · rw [Values.at_set _ hx] at hu
    split_ifs at hu with hyx
    · obtain rfl := Option.some.inj hu
      rwa [hyx]
    · exact hleaves.value y u hyx (h.value y u hu)
  · rw [Values.at_set _ hx] at hy
    split_ifs at hy with hyx
    rw [hleaves.get y hyx, h.missing y hy]

/-- One variable shows what it did. -/
lemma State.Shows.keep (h : s.Shows vs) (hx : vs.at x = some v) (hleaves : s.Leaves x s')
    (hv : s'.Value x v) : s'.Shows vs := by
  have hset := h.set hleaves hv
  have hlt := Values.lt_of_at hx
  refine ⟨hleaves.sound, hleaves.length.trans h.length, fun y u hu => hset.value y u ?_,
    fun y hy => hset.missing y ?_⟩
  · rw [Values.at_set _ hlt]
    split_ifs with hyx
    · rwa [hyx, hx] at hu
    · exact hu
  · rw [Values.at_set _ hlt]
    split_ifs with hyx
    · rw [hyx, hx] at hy
      exact nomatch hy
    · exact hy

/-- One variable is destroyed. -/
lemma State.Shows.destroy (memory : ℕ → ℕ → UInt8) (h : s.Shows vs) (x : ℕ) :
    ∃ s', step memory s (.destroy x) = some s' ∧ s'.Shows (vs.set x none) := by
  obtain ⟨s', hstep, hleaves, -⟩ := step_spec memory h.sound (.destroy x)
  have hat : ∀ y, Values.at (vs.set x none) y = if y = x then none else vs.at y := by
    intro y
    by_cases hx : x < vs.length
    · exact Values.at_set none hx y
    · rw [List.set_eq_of_length_le (Nat.not_lt.mp hx)]
      split_ifs with hyx
      · rw [hyx, Values.at, List.getElem?_eq_none (Nat.not_lt.mp hx)]
        rfl
      · rfl
  refine ⟨s', hstep, hleaves.sound, by rw [hleaves.length, h.length, List.length_set],
    fun y u hu => ?_, fun y hy => ?_⟩
  · rw [hat] at hu
    split_ifs at hu with hyx
    exact hleaves.value y u hyx (h.value y u hu)
  · rw [hat] at hy
    split_ifs at hy with hyx
    · rw [hyx]
      exact State.get_destroyed memory hstep
    · rw [hleaves.get y hyx, h.missing y hy]

/-- There is room for another variable. -/
lemma State.Shows.push (h : s.Shows vs) : State.Shows ⟨s.heap, s.vars ++ [none]⟩ (vs ++ [none]) := by
  refine ⟨State.sound_push.mpr h.sound, ?_, fun y u hu => ?_, fun y hy => ?_⟩
  · rw [List.length_append, List.length_append, h.length]
    rfl
  · rw [Values.at_push] at hu
    split_ifs at hu with hlast
    exact State.value_push.mpr (h.value y u hu)
  · rw [Values.at_push] at hy
    rw [State.get_push]
    split_ifs at hy with hlast
    · rw [hlast, State.get, ← h.length, List.getElem?_eq_none (Nat.le_refl _)]
      rfl
    · exact h.missing y hy

/-- The last variable is destroyed. -/
lemma State.Shows.pop (memory : ℕ → ℕ → UInt8) {u : Option (List UInt8)} (h : s.Shows (vs ++ [u])) :
    ∃ s', (do
      let s ← step memory s (.destroy vs.length)
      some (⟨s.heap, s.vars.take vs.length⟩ : State)) = some s' ∧ s'.Shows vs := by
  obtain ⟨s₁, hstep, h₁⟩ := h.destroy memory vs.length
  rw [List.set_append_right _ _ (Nat.le_refl _), Nat.sub_self, List.set_cons_zero] at h₁
  have hvars := State.vars_eq_push (r := vs.length) (by rw [h₁.length]; simp)
    (State.get_destroyed memory hstep)
  have hlength : (s₁.vars.take vs.length).length = vs.length := by
    rw [List.length_take, h₁.length]
    simp
  have hpop : s₁ = ⟨s₁.heap, s₁.vars.take vs.length ++ [none]⟩ := by
    cases s₁
    exact congrArg _ hvars
  rw [hpop] at h₁
  refine ⟨_, by rw [hstep]; rfl, State.sound_push.mp h₁.sound, hlength, fun y w hw => ?_,
    fun y hy => ?_⟩
  · exact State.value_push.mp (h₁.value y w (Values.at_append hw))
  · rw [← State.get_push, h₁.missing y]
    rw [Values.at_push]
    split_ifs
    · rfl
    · exact hy

/-! ## What is read -/

/-- **`operator const char*`** gives memory in which the end is behind the bytes. -/
theorem State.Shows.chars (memory : ℕ → ℕ → UInt8) (behind : ℕ → Behind) (h : s.Shows vs)
    (hx : vs.at x = some v) : ∃ s' rest, s.chars memory behind x = some (s', v ++ 0 :: rest) ∧
      s'.Shows vs ∧ s'.InMemory behind x v (0 :: rest) := by
  obtain ⟨c, rest, hmemory⟩ := h.sound.inMemory behind (h.value x v hx)
  obtain ⟨s', this, rest', hrun, hthis, hleaves, hmemory', -⟩ :=
    constChars_spec memory h.sound hmemory
  refine ⟨s', rest', ?_, h.keep hx hleaves hmemory'.value, hmemory'⟩
  simp [State.chars, hrun, hmemory'.cell hthis]

/-- **The pointer of a string** is to memory that begins with its bytes. -/
theorem State.Shows.data (behind : ℕ → Behind) (h : s.Shows vs) (hx : vs.at x = some v) :
    ∃ rest, s.data behind x = some (v ++ rest, v.length) := by
  obtain ⟨c, rest, this, hthis, hlen, hmemory⟩ := h.sound.inMemory behind (h.value x v hx)
  exact ⟨c :: rest, by simp [State.data, hthis, hmemory, hlen]⟩

lemma State.Shows.readChars (memory : ℕ → ℕ → UInt8) (behind : ℕ → Behind) (h : s.Shows vs)
    (hx : vs.at x = some v) {α : Type} {read : List UInt8 → Option α} {a : α}
    (hread : ∀ rest, read (v ++ 0 :: rest) = some a) :
    ∃ s', s.readChars memory behind x read = some (s', a) ∧ s'.Shows vs := by
  obtain ⟨s', rest, hchars, h', -⟩ := h.chars memory behind hx
  exact ⟨s', by simp [State.readChars, hchars, hread rest], h'⟩

lemma State.Shows.readData (behind : ℕ → Behind) (h : s.Shows vs) (hx : vs.at x = some v)
    {α : Type} {read : List UInt8 → ℕ → Option α} {a : α}
    (hread : ∀ rest, read (v ++ rest) v.length = some a) :
    s.readData behind x read = some (s, a) := by
  obtain ⟨rest, hdata⟩ := h.data behind hx
  simp [State.readData, hdata, hread rest]

lemma State.Shows.searchFrom (memory : ℕ → ℕ → UInt8) (behind : ℕ → Behind) (h : s.Shows vs)
    (hx : vs.at x = some v) {start : ℕ} {search : List UInt8 → Option (Option ℕ)} {r : Option ℕ}
    (hsearch : start ≤ v.length → ∀ rest, search (v ++ 0 :: rest) = some r) : ∃ s',
      s.searchFrom memory behind x start search = some (s', if start ≥ v.length then none else r)
        ∧ s'.Shows vs := by
  obtain ⟨rest, hdata⟩ := h.data behind hx
  by_cases hstart : start ≥ v.length
  · exact ⟨s, by simp [State.searchFrom, hdata, hstart], h⟩
  · obtain ⟨s', hrun, h'⟩ :=
      h.readChars memory behind hx (hsearch (Nat.le_of_lt (Nat.not_le.mp hstart)))
    exact ⟨s', by simp [State.searchFrom, hdata, hstart, hrun], h'⟩

/-- What a constructor gives is shown by a new variable. -/
lemma State.Shows.make (h : s.Shows vs) {init : Init}
    (hinit : ∀ s : State, s.Sound → s.vars[vs.length]? = some none →
      ∃ heap this, init.run memory s = some (heap, some this) ∧
        s.Sets vs.length (fun _ => True) v ⟨heap, s.vars.set vs.length (some this)⟩) :
    ∃ s', s.make memory init = some s' ∧ s'.Shows (vs ++ [some v]) := by
  have hroom : (s.vars ++ [none])[vs.length]? = some none := by
    rw [← h.length, List.getElem?_append_right (Nat.le_refl _), Nat.sub_self]
    rfl
  obtain ⟨heap, this, hrun, hsets⟩ :=
    hinit ⟨s.heap, s.vars ++ [none]⟩ (State.sound_push.mpr h.sound) hroom
  refine ⟨⟨heap, (s.vars ++ [none]).set vs.length (some this)⟩, ?_, ?_⟩
  · rw [State.make, h.length, step, if_pos hroom]
    simp only [hrun, Option.bind_eq_bind, Option.bind_some]
  · have hset := h.push.set hsets.toLeaves hsets.sets
    rwa [List.set_append_right _ _ (Nat.le_refl _), Nat.sub_self, List.set_cons_zero] at hset

/-- `String(const char*, usize)` -/
lemma State.Shows.ofBytes (memory : ℕ → ℕ → UInt8) (h : s.Shows vs) (bytes : List UInt8) :
    ∃ s', s.make memory (.ofBytes bytes) = some s' ∧ s'.Shows (vs ++ [some bytes]) := by
  refine h.make fun s hs hroom => ?_
  have hyields := (ofBytes_yields memory bytes (hs.at hroom) hs.wf).mono
    (q := fun _ => True) fun _ _ => trivial
  obtain ⟨heap, this, hrun, hsets⟩ := hs.sets hroom hyields
  exact ⟨heap, this, by simp [Init.run, hrun], hsets⟩

/-- `String()` -/
lemma State.Shows.empty (memory : ℕ → ℕ → UInt8) (h : s.Shows vs) :
    ∃ s', s.make memory .default = some s' ∧ s'.Shows (vs ++ [some []]) := by
  refine h.make fun s hs hroom => ?_
  have hyields : Yields (s.rest vs.length) s.heap (fun _ => True) [] (some (s.heap, Cell.empty)) :=
    ⟨s.heap, .empty, rfl, ⟨rfl, [0], rfl, List.nil_prefix⟩, Cell.has_of_pointers rfl, hs.at hroom,
      hs.wf, .refl _ _⟩
  obtain ⟨heap, this, hrun, hsets⟩ := hs.sets hroom hyields
  obtain ⟨rfl, rfl⟩ := Prod.mk.inj (Option.some.inj hrun)
  exact ⟨_, _, rfl, hsets⟩

lemma substrBounds_le (len : ℕ) (start length : ℤ) :
    (substrBounds len start length).1 + (substrBounds len start length).2 ≤ len := by
  rw [substrBounds]
  dsimp only
  split_ifs <;> omega

/-- **`substr`** returns some of the bytes. -/
theorem State.Shows.substr (memory : ℕ → ℕ → UInt8) (behind : ℕ → Behind) (h : s.Shows vs)
    (hx : vs.at x = some v) (start length : ℤ) : ∃ s',
      s.substr memory behind x start length = some s' ∧
        s'.Shows (vs ++ [some (sub v start length)]) := by
  obtain ⟨rest, hdata⟩ := h.data behind hx
  obtain ⟨s', hmake, hshows⟩ := h.ofBytes memory (sub v start length)
  have hle := substrBounds_le v.length start length
  have htake : take ((v ++ rest).drop (substrBounds v.length start length).1)
      (substrBounds v.length start length).2 = some (sub v start length) := by
    rw [take, if_pos (by rw [List.length_drop, List.length_append]; omega), sub,
      List.drop_append_of_le_length (by omega),
      List.take_append_of_le_length (by rw [List.length_drop]; omega)]
  exact ⟨s', by simp [State.substr, hdata, htake, hmake], hshows⟩

/-- From a place on, some bytes -/
lemma sub_of_le {i n : ℕ} (h : i + n ≤ v.length) : sub v i n = (v.drop i).take n := by
  have hbounds : substrBounds v.length i n = (i, n) := by
    rw [substrBounds]
    refine Prod.ext ?_ ?_
    all_goals
      dsimp only
      split_ifs <;> omega
  rw [sub, hbounds]

/-- From a place on, all of them -/
lemma sub_rest {i : ℕ} (h : i ≤ v.length) : sub v i (-1) = v.drop i := by
  have hbounds : substrBounds v.length i (-1) = (i, v.length - i) := by
    rw [substrBounds]
    refine Prod.ext ?_ ?_
    all_goals
      dsimp only
      split_ifs <;> omega
  rw [sub, hbounds, List.take_of_length_le (by rw [List.length_drop])]

end Nstd.Strings
