import Nstd.Core.Texts
import Nstd.Shared.StringSteps

/-!
# Strings that are read as C strings

* `Behind`, `memoryOf` — what is in memory behind the bytes of a string.
* `State.constChars` — `operator const char*`, which detaches a string that has no end.
* `State.strstr`, `State.replace`, `State.join` — functions that call others for several strings.
* `State.constChars_of_some`, `State.replaceLoop_of_some` and so on — what a call did that returned.
* `State.InMemory` — the bytes of a variable, and those behind them.
* **`constChars_spec`** — the end of a string is behind its bytes then, and nothing else is changed.
-/

namespace Nstd.Strings

open Texts (upTo find)

/-! ## Functions -/

/-- What is in memory behind the bytes of a string that are not its own: at least one byte that can
    be read. -/
structure Behind where
  next : UInt8
  rest : List UInt8

/-- The memory that a string points to -/
def memoryOf (h : Heap Data) (behind : Behind) : Cell → Option (List UInt8)
  | .attached str => some (str ++ behind.next :: behind.rest)
  | this => strOf h this

section

variable [Usize] (memory : ℕ → ℕ → UInt8) (behind : ℕ → Behind)

/-- `operator const char*`; the pointer is to the memory of the string that is returned. -/
def State.constChars (s : State) (x : ℕ) : Option (State × Cell) := do
  let this ← s.get x
  let str ← memoryOf s.heap (behind x) this
  let len ← lenOf s.heap this
  let c ← str[len]?
  let s ← (if c ≠ 0 then step memory s (.op x .detach) else some s)
  let this ← s.get x
  some (s, this)

/-- `strstr(p, needle)`, where `p` points to the memory of `str`, at `i`; `str` is what the string
    of `x` was. -/
def State.strstr (s : State) (x : ℕ) (str : Cell) (i y : ℕ) : Option (State × Option ℕ) := do
  let (s, needle) ← s.constChars memory behind y
  let str ← memoryOf s.heap (behind x) str
  let needle ← memoryOf s.heap (behind y) needle
  let text ← upTo 0 (str.drop i)
  let needle ← upTo 0 needle
  some (s, (find needle text).map (i + ·))

/-- `result.append(p, length)` -/
def State.appendFrom (s : State) (r x : ℕ) (str : Cell) (p length : ℕ) : Option State := do
  let str ← memoryOf s.heap (behind x) str
  let bytes ← take (str.drop p) length
  step memory s (.op r (.appendBytes bytes))

/-- The last round of the loop of `replace`.  The pointers of a difference have to be of the same
    memory, and no memory is as large as a length below zero. -/
def State.replaceEnd (s : State) (x r : ℕ) (str : Cell) (p : ℕ) : Option State := do
  let this ← s.get x
  let len ← lenOf s.heap this
  if this = str ∧ p ≤ len then do
    let s ← s.appendFrom memory behind r x str p (len - p)
    step memory s (.op x (.assign r))
  else none

/-- The loop of `replace`, for a number of rounds; `r` is `result`. -/
def State.replaceLoop (x y z r : ℕ) (str : Cell) : ℕ → State → ℕ → ℕ → Option State
  | 0, _, _, _ => none
  | n + 1, s, p, found => do
    let s ← s.appendFrom memory behind r x str p (found - p)
    let s ← step memory s (.op r (.append z))
    let needle ← s.get y
    let len ← lenOf s.heap needle
    let p := found + len
    let (s, found) ← s.strstr memory behind x str p y
    match found with
    | none => s.replaceEnd memory behind x r str p
    | some found => replaceLoop x y z r str n s p found

/-- `replace(const String&, const String&)`, where the loop goes round `n` times at most -/
def State.replace (s : State) (x y z n : ℕ) : Option State := do
  let str ← s.get x
  let (s, found) ← s.strstr memory behind x str 0 y
  match found with
  | none => some s
  | some found => do
    let this ← s.get x
    let len ← lenOf s.heap this
    let replacement ← s.get z
    let replacementLen ← lenOf s.heap replacement
    let r := s.vars.length
    let s ← step memory ⟨s.heap, s.vars ++ [none]⟩
      (.construct r (.ofCapacity (Usize.wrap (len + replacementLen * 10))))
    let s ← State.replaceLoop memory behind x y z r str n s 0 found
    let s ← step memory s (.destroy r)
    some ⟨s.heap, s.vars.take r⟩

/-- The loop of `join` -/
def State.joinLoop (x : ℕ) (separator : UInt8) : List ℕ → State → Option State
  | [], s => some s
  | [i], s => step memory s (.op x (.append i))
  | i :: j :: tokens, s => do
    let s ← step memory s (.op x (.append i))
    let s ← step memory s (.op x (.appendBytes [separator]))
    joinLoop x separator (j :: tokens) s

/-- `join` -/
def State.join (s : State) (x : ℕ) (tokens : List ℕ) (separator : UInt8) : Option State := do
  let s ← step memory s (.op x .clear)
  s.joinLoop memory x separator tokens

end

/-! ## What calls did that returned -/

section

variable [Usize] {memory : ℕ → ℕ → UInt8} {behind : ℕ → Behind} {s s' : State} {x y z r : ℕ}
  {str : Cell}

/-- `operator const char*` detaches the string or does nothing. -/
lemma State.constChars_of_some {this : Cell} (h : s.constChars memory behind x = some (s', this)) :
    s' = s ∨ step memory s (.op x .detach) = some s' := by
  obtain ⟨_, -, h⟩ := Option.bind_eq_some_iff.mp h
  obtain ⟨_, -, h⟩ := Option.bind_eq_some_iff.mp h
  obtain ⟨_, -, h⟩ := Option.bind_eq_some_iff.mp h
  obtain ⟨c, -, h⟩ := Option.bind_eq_some_iff.mp h
  obtain ⟨s₁, hdetach, h⟩ := Option.bind_eq_some_iff.mp h
  obtain ⟨_, -, h⟩ := Option.bind_eq_some_iff.mp h
  obtain ⟨rfl, -⟩ := Prod.mk.inj (Option.some.inj h)
  split_ifs at hdetach with hc
  · exact .inr hdetach
  · exact .inl (Option.some.inj hdetach).symm

/-- `strstr` does what the conversion of the needle does. -/
lemma State.strstr_of_some {i : ℕ} {found : Option ℕ}
    (h : s.strstr memory behind x str i y = some (s', found)) :
    ∃ needle, s.constChars memory behind y = some (s', needle) := by
  obtain ⟨⟨s₁, needle⟩, hconst, h⟩ := Option.bind_eq_some_iff.mp h
  obtain ⟨_, -, h⟩ := Option.bind_eq_some_iff.mp h
  obtain ⟨_, -, h⟩ := Option.bind_eq_some_iff.mp h
  obtain ⟨_, -, h⟩ := Option.bind_eq_some_iff.mp h
  obtain ⟨_, -, h⟩ := Option.bind_eq_some_iff.mp h
  obtain ⟨rfl, -⟩ := Prod.mk.inj (Option.some.inj h)
  exact ⟨needle, hconst⟩

lemma State.appendFrom_of_some {p length : ℕ}
    (h : s.appendFrom memory behind r x str p length = some s') :
    ∃ bytes, step memory s (.op r (.appendBytes bytes)) = some s' := by
  obtain ⟨_, -, h⟩ := Option.bind_eq_some_iff.mp h
  obtain ⟨bytes, -, h⟩ := Option.bind_eq_some_iff.mp h
  exact ⟨bytes, h⟩

/-- The last round: the string is where it was. -/
lemma State.replaceEnd_of_some {p : ℕ} (h : s.replaceEnd memory behind x r str p = some s') :
    s.get x = some str ∧ ∃ s₁ bytes, step memory s (.op r (.appendBytes bytes)) = some s₁
      ∧ step memory s₁ (.op x (.assign r)) = some s' := by
  obtain ⟨this, hx, h⟩ := Option.bind_eq_some_iff.mp h
  obtain ⟨len, -, h⟩ := Option.bind_eq_some_iff.mp h
  split_ifs at h with hsame
  obtain ⟨s₁, happend, h⟩ := Option.bind_eq_some_iff.mp h
  obtain ⟨bytes, hstep⟩ := State.appendFrom_of_some happend
  exact ⟨hsame.1 ▸ hx, s₁, bytes, hstep, h⟩

/-- A round of the loop writes to `result` twice and searches on. -/
lemma State.replaceLoop_of_some {n p found : ℕ}
    (h : State.replaceLoop memory behind x y z r str (n + 1) s p found = some s') :
    ∃ bytes s₁ s₂ s₃ needle, step memory s (.op r (.appendBytes bytes)) = some s₁
      ∧ step memory s₁ (.op r (.append z)) = some s₂
      ∧ s₂.constChars memory behind y = some (s₃, needle)
      ∧ ((∃ p, s₃.replaceEnd memory behind x r str p = some s')
        ∨ ∃ p found, State.replaceLoop memory behind x y z r str n s₃ p found = some s') := by
  obtain ⟨s₁, hpiece, h⟩ := Option.bind_eq_some_iff.mp h
  obtain ⟨s₂, hreplacement, h⟩ := Option.bind_eq_some_iff.mp h
  obtain ⟨_, -, h⟩ := Option.bind_eq_some_iff.mp h
  obtain ⟨len, -, h⟩ := Option.bind_eq_some_iff.mp h
  obtain ⟨⟨s₃, next⟩, hfind, h⟩ := Option.bind_eq_some_iff.mp h
  obtain ⟨bytes, hpiece⟩ := State.appendFrom_of_some hpiece
  obtain ⟨needle, hconst⟩ := State.strstr_of_some hfind
  refine ⟨bytes, s₁, s₂, s₃, needle, hpiece, hreplacement, hconst, ?_⟩
  cases next with
  | none => exact .inl ⟨_, h⟩
  | some next => exact .inr ⟨_, _, h⟩

end

/-! ## Memory -/

/-- The bytes of a variable in memory, and those behind them -/
def State.InMemory (behind : ℕ → Behind) (s : State) (x : ℕ) (v rest : List UInt8) : Prop :=
  ∃ c, s.get x = some c ∧ lenOf s.heap c = some v.length
    ∧ memoryOf s.heap (behind x) c = some (v ++ rest)

variable (memory : ℕ → ℕ → UInt8) {behind : ℕ → Behind}

/-- There is a byte behind those of a string. -/
lemma State.Sound.inMemory (behind : ℕ → Behind) {s : State} (hs : s.Sound) {x : ℕ}
    {v : List UInt8} (hv : s.Value x v) : ∃ c rest, s.InMemory behind x v (c :: rest) := by
  obtain ⟨this, hx, hshows⟩ := hs.value_iff.mp hv
  obtain ⟨hlen, str, hstr, hbegins⟩ := id hshows
  cases this with
  | empty =>
    obtain rfl : v = [] := List.length_eq_zero_iff.mp (Option.some.inj hlen).symm
    exact ⟨0, [], .empty, hx, rfl, rfl⟩
  | attached bytes =>
    obtain rfl := (shows_attached s.heap bytes).unique hshows
    exact ⟨_, _, _, hx, rfl, rfl⟩
  | block data =>
    obtain ⟨b, hb⟩ := hs.live hx data (List.mem_singleton_self data)
    have hok := hs.wf data b hb
    obtain ⟨hlength, ⟨rest, hrest⟩⟩ := hshows.block hb
    have hroom : v.length + rest.length = b.content.capacity + 1 := by
      rw [← List.length_append, hrest, hok.str]
    have hle := hok.len
    cases rest with
    | nil =>
      rw [List.length_nil] at hroom
      omega
    | cons c rest =>
      refine ⟨c, rest, .block data, hx, hlen, ?_⟩
      rw [hrest, memoryOf, strOf, hb]
      · rfl
      · exact fun str h => Cell.noConfusion h

lemma State.InMemory.value {s : State} {x : ℕ} {v rest : List UInt8}
    (h : s.InMemory behind x v rest) : s.Value x v := by
  obtain ⟨c, hx, hlen, hmemory⟩ := h
  cases c with
  | empty =>
    obtain rfl : v = [] := List.length_eq_zero_iff.mp (Option.some.inj hlen).symm
    exact ⟨_, _, _, hx, rfl, rfl, rfl⟩
  | attached str =>
    have hlength : str.length = v.length := Option.some.inj hlen
    have hbegins := (List.append_inj (Option.some.inj hmemory) hlength).1
    exact ⟨_, _, _, hx, rfl, rfl, by rw [List.take_length, hbegins]⟩
  | block data =>
    exact ⟨_, _, _, hx, hlen, hmemory, by rw [List.take_left]⟩

/-- It is the memory of the variable's string. -/
lemma State.InMemory.cell {s : State} {x : ℕ} {c : Cell} {v rest : List UInt8}
    (h : s.InMemory behind x v rest) (hx : s.get x = some c) :
    memoryOf s.heap (behind x) c = some (v ++ rest) := by
  obtain ⟨c', hx', -, hmemory⟩ := h
  obtain rfl := Option.some.inj (hx.symm.trans hx')
  exact hmemory

/-- No value is changed if that of one variable is the same and the others are left. -/
lemma State.Leaves.values {s s' : State} {x : ℕ} {v : List UInt8} (hleaves : s.Leaves x s')
    (hv' : s'.Value x v) (hv : s.Value x v) {y : ℕ} {u : List UInt8} (hu : s.Value y u) :
    s'.Value y u := by
  by_cases hy : y = x
  · subst hy
    rwa [hu.unique hv]
  · exact hleaves.value y u hy hu

lemma State.InMemory.values {s s' : State} {x : ℕ} {v rest : List UInt8}
    (h : s'.InMemory behind x v rest) (hv : s.Value x v) (hleaves : s.Leaves x s') :
    ∀ y u, s.Value y u → s'.Value y u := fun _ _ hu => hleaves.values h.value hv hu

/-- What is in memory stays there if another variable is changed. -/
lemma State.InMemory.leaves {s s' : State} {x y : ℕ} {v rest : List UInt8}
    (h : s.InMemory behind y v rest) (hleaves : s.Leaves x s') (hne : y ≠ x) :
    s'.InMemory behind y v rest := by
  obtain ⟨c', hx', hlen', -⟩ := hleaves.sound.value_iff.mp (hleaves.value y v hne h.value)
  obtain ⟨c, hx, hlen, hmemory⟩ := h
  obtain rfl := Option.some.inj (((hleaves.get y hne).trans hx).symm.trans hx')
  refine ⟨c, hx', hlen', ?_⟩
  cases c with
  | empty => exact hmemory
  | attached str => exact hmemory
  | block data =>
    obtain ⟨b', hb', -⟩ := Option.map_eq_some_iff.mp hlen'
    obtain ⟨b, hb, hstr⟩ := Option.map_eq_some_iff.mp hmemory
    have hhas : s.Has y fun d => d.str = v ++ rest := by
      intro c hc
      obtain rfl := Option.some.inj (hx.symm.trans hc)
      exact Cell.has_block hb hstr
    have hsame := hleaves.has y _ hne hhas _ hx' data rfl b' hb'
    rw [memoryOf, strOf, hb', Option.map_some, hsame]
    exact fun str h => Cell.noConfusion h

/-- After `detach()` the string is in a block. -/
lemma get_detached {s s' : State} {x : ℕ} {this : Cell} (hx : s.get x = some this)
    (h : step memory s (.op x .detach) = some s') : ∃ data,
      detachAll memory s.heap this = some (s'.heap, data) ∧ s'.get x = some (.block data) := by
  rw [step, hx] at h
  obtain ⟨⟨heap, this'⟩, hrun, hnext⟩ := Option.bind_eq_some_iff.mp h
  obtain ⟨⟨heap', data⟩, hdetach, hsame⟩ := Option.bind_eq_some_iff.mp hrun
  obtain ⟨rfl, rfl⟩ := Prod.mk.inj (Option.some.inj hsame)
  obtain rfl := Option.some.inj hnext
  exact ⟨data, hdetach, State.get_set _ (State.vars_of_get hx)⟩

/-- The end of a string is behind its bytes if the block is ended. -/
lemma State.InMemory.ended {s : State} {x data : ℕ} {v rest : List UInt8} {c : UInt8}
    (h : s.InMemory behind x v (c :: rest)) (hx : s.get x = some (.block data))
    (hended : s.Has x Data.Ended) : c = 0 := by
  obtain ⟨this, hx', hlen, hmemory⟩ := h
  obtain rfl := Option.some.inj (hx.symm.trans hx')
  obtain ⟨b, hb, hlength⟩ := Option.map_eq_some_iff.mp hlen
  have hzero := hended _ hx data rfl b hb
  have hstr : b.content.str = v ++ c :: rest := by
    rw [memoryOf, strOf, hb] at hmemory
    · exact Option.some.inj hmemory
    · exact fun str h => Cell.noConfusion h
  rw [Data.Ended, hlength, hstr, List.getElem?_append_right (Nat.le_refl _), Nat.sub_self] at hzero
  exact Option.some.inj hzero

/-- **`operator const char*`** puts the end of a string behind its bytes, if it is not there, and changes
    nothing else. -/
theorem constChars_spec {s : State} (hs : s.Sound) {x : ℕ} {v rest : List UInt8} {c : UInt8}
    (h : s.InMemory behind x v (c :: rest)) : ∃ s' this rest',
      s.constChars memory behind x = some (s', this) ∧ s'.get x = some this ∧ s.Leaves x s'
        ∧ s'.InMemory behind x v (0 :: rest') ∧ (c = 0 → s' = s ∧ rest' = rest)
        ∧ (c ≠ 0 → step memory s (.op x .detach) = some s') := by
  have hv := h.value
  obtain ⟨this, hx, hlen, hmemory⟩ := id h
  have hbehind : (v ++ c :: rest)[v.length]? = some c := by
    rw [List.getElem?_append_right (Nat.le_refl _), Nat.sub_self]
    rfl
  by_cases hc : c = 0
  · subst hc
    refine ⟨s, this, rest, ?_, hx, hs.leaves_self x, h, fun _ => ⟨rfl, rfl⟩, fun hne => absurd rfl hne⟩
    simp [State.constChars, hx, hmemory, hlen]
  · obtain ⟨s', hstep, hsets⟩ := step_detach memory hs hv
    obtain ⟨c', rest', hmemory'⟩ := hsets.sound.inMemory behind hsets.sets
    obtain ⟨this', hx', hlen', hstr'⟩ := id hmemory'
    obtain ⟨data, -, hblock⟩ := get_detached memory hx hstep
    obtain rfl := hmemory'.ended hblock hsets.block
    refine ⟨s', this', rest', ?_, hx', hsets.toLeaves, hmemory', fun hzero => absurd hzero hc,
      fun _ => hstep⟩
    simp [State.constChars, hx, hmemory, hlen, hc, hstep, hx']

/-! ## The variable `result` -/

lemma State.get_lt {s : State} {x : ℕ} {c : Cell} (hx : s.get x = some c) : x < s.vars.length :=
  (List.getElem?_eq_some_iff.mp (State.vars_of_get hx)).1

lemma State.get_push (h : Heap Data) (vars : List (Option Cell)) (y : ℕ) :
    State.get ⟨h, vars ++ [none]⟩ y = State.get ⟨h, vars⟩ y := by
  rw [State.get, State.get, List.getElem?_append]
  split_ifs with hy
  · rfl
  · rw [List.getElem?_eq_none (Nat.not_lt.mp hy)]
    cases y - vars.length <;> rfl

lemma State.sound_push {h : Heap Data} {vars : List (Option Cell)} :
    State.Sound ⟨h, vars ++ [none]⟩ ↔ State.Sound ⟨h, vars⟩ := by
  have hroots : (vars ++ [none]).flatMap pointersOf = vars.flatMap pointersOf := by
    simp [pointersOf]
  exact ⟨fun hs => ⟨hroots ▸ hs.heap, hs.wf⟩, fun hs => ⟨hroots.symm ▸ hs.heap, hs.wf⟩⟩

lemma State.value_push {h : Heap Data} {vars : List (Option Cell)} {y : ℕ} {v : List UInt8} :
    State.Value ⟨h, vars ++ [none]⟩ y v ↔ State.Value ⟨h, vars⟩ y v := by
  simp only [State.Value, State.get_push]

lemma State.inMemory_push {h : Heap Data} {vars : List (Option Cell)} {y : ℕ} {v rest : List UInt8} :
    State.InMemory behind ⟨h, vars ++ [none]⟩ y v rest ↔ State.InMemory behind ⟨h, vars⟩ y v rest := by
  simp only [State.InMemory, State.get_push]

/-- The last variable is not constructed. -/
lemma State.vars_eq_push {s : State} {r : ℕ} (hlength : s.vars.length = r + 1) (hr : s.get r = none) :
    s.vars = s.vars.take r ++ [none] := by
  have hlt : r < s.vars.length := by omega
  have hlast : s.vars[r] = none := by
    rw [State.get, List.getElem?_eq_getElem hlt] at hr
    exact hr
  have hall := List.take_append_getElem hlt
  rw [hlast] at hall
  rw [hall, List.take_of_length_le (by omega)]

lemma State.get_destroyed {s s' : State} {x : ℕ} (h : step memory s (.destroy x) = some s') :
    s'.get x = none := by
  rw [step] at h
  cases hx : s.get x with
  | none =>
    rw [hx] at h
    rwa [← Option.some.inj h]
  | some this =>
    rw [hx] at h
    obtain ⟨heap, -, h⟩ := Option.bind_eq_some_iff.mp h
    rw [← Option.some.inj h]
    exact State.get_set none (State.vars_of_get hx)

end Nstd.Strings
