import Nstd.Document.Variant
import Nstd.Shared.StringReplaceLoop
import Nstd.Shared.StringToken

/-!
# Functions that read strings

* `scanUp`, `scanDown` — loops over the bytes of a string, from both ends.
* `State.find`, `State.findString`, `State.trim`, `State.startsWith`, `State.hash` and so on — the member
  functions that search in strings, compare them and cut them.
* `Determined` — a function does the same in all states in which the strings show the same.
* `determined_readChars`, `determined_readData` — that is so if what it reads does not depend on what is
  behind a string.
* **`determined_trim`**, **`determined_compare`** and so on — one lemma for each kind of function.
-/

namespace Nstd.Strings

open CStrings (strpbrk strchr)
open Texts (upTo)

/-! ## Loops -/

/-- A loop over at most `n` bytes, from `i` on, up to one that has a property -/
def scanUp (p : UInt8 → Bool) (str : List UInt8) : ℕ → ℕ → Option (Option ℕ)
  | 0, _ => some none
  | n + 1, i => do
    let c ← str[i]?
    if p c then some (some i) else scanUp p str n (i + 1)

/-- A loop back over the bytes in front of a place, down to `lo` -/
def scanDown (p : UInt8 → Bool) (str : List UInt8) (lo : ℕ) : ℕ → Option (Option ℕ)
  | 0 => some none
  | n + 1 =>
    if n < lo then some none
    else do
      let c ← str[n]?
      if p c then some (some n) else scanDown p str lo n

/-- `strchr(chars, c)` finds something. -/
def isOneOf (chars : CString) (c : UInt8) : Bool := (strchr chars.memory c 0).join.isSome

/-- Both loops of `trim`: where the bytes begin that are kept, and how many they are -/
def trimBounds (chars : CString) (str : List UInt8) (len : ℕ) : Option (ℕ × ℕ) := do
  let p ← scanUp (fun c => !isOneOf chars c) str len 0
  let p := p.getD len
  let stop ← scanDown (fun c => !isOneOf chars c) str (p + 1) len
  let stop := stop.getD (if p < len then p else len - 1)
  some (p, stop + 1 - p)

/-- The loop of `compare` with a length -/
def compareCharsUpTo : ℕ → List UInt8 → List UInt8 → Option ℤ
  | 0, _, _ => some 0
  | n + 1, c₁ :: s₁, c₂ :: s₂ =>
    if c₁ = 0 ∨ c₁ ≠ c₂ then some (c₁.toNat - c₂.toNat) else compareCharsUpTo n s₁ s₂
  | _, _, _ => none

/-- A `char`, which has a sign, as a `usize` -/
def charBits (c : UInt8) : UInt64 := c.toInt8.toInt64.toUInt64

/-- `hash(const String&)`, of the bytes and the length -/
def hashChars (s : List UInt8) (len : ℕ) : Option UInt64 := do
  let first ← s[0]?
  let middle ← s[len / 2]?
  let last ← s[len - (if len ≠ 0 then 1 else 0)]?
  let hashCode := UInt64.ofNat len
  let hashCode := hashCode * 16807 ^^^ charBits first
  let hashCode := hashCode * 16807 ^^^ charBits middle
  some (hashCode * 16807 ^^^ charBits last)

/-! ## Member functions -/

section

variable (memory : ℕ → ℕ → UInt8) (behind : ℕ → Behind)

/-- `find(char)` -/
def State.find (s : State) (x : ℕ) (c : UInt8) : Option (State × Option ℕ) :=
  s.readData behind x fun str len => scanUp (· = c) str len 0

/-- `findLast(char)` -/
def State.findLast (s : State) (x : ℕ) (c : UInt8) : Option (State × Option ℕ) :=
  s.readData behind x fun str len => scanDown (· = c) str 0 len

/-- `find(const char*)` -/
def State.findString (s : State) (x : ℕ) (str : CString) : Option (State × Option ℕ) :=
  s.readChars memory behind x fun this => CStrings.strstr this str.memory 0

/-- `find(const char*, usize)` -/
def State.findStringFrom (s : State) (x : ℕ) (str : CString) (start : ℕ) : Option (State × Option ℕ) :=
  s.searchFrom memory behind x start fun this => CStrings.strstr this str.memory start

/-- `findOneOf(const char*)` -/
def State.findOneOf (s : State) (x : ℕ) (chars : CString) : Option (State × Option ℕ) :=
  s.readChars memory behind x fun this => strpbrk this chars.memory 0

/-- `findOneOf(const char*, usize)` -/
def State.findOneOfFrom (s : State) (x : ℕ) (chars : CString) (start : ℕ) : Option (State × Option ℕ) :=
  s.searchFrom memory behind x start fun this => strpbrk this chars.memory start

/-- `findLast(const char*)` -/
def State.findLastString (s : State) (x : ℕ) (str : CString) (n : ℕ) : Option (State × Option ℕ) :=
  s.readChars memory behind x fun this => Strings.findLast this str.memory n

/-- `findLastOf(const char*)` -/
def State.findLastOf (s : State) (x : ℕ) (chars : CString) (n : ℕ) : Option (State × Option ℕ) :=
  s.readChars memory behind x fun this => Strings.findLastOf this chars.memory n

/-- `toInt64` -/
def State.toInt64 (s : State) (x : ℕ) : Option (State × Int64) :=
  s.readChars memory behind x fun this => (upTo 0 this).map Nstd.toInt64

/-- `hash` -/
def State.hash (s : State) (x : ℕ) : Option (State × UInt64) := do
  let (_, len) ← s.data behind x
  s.readChars memory behind x fun str => hashChars str len

/-- `compare(const String&, usize)` -/
def State.compareUpTo (s : State) (x y len : ℕ) : Option (State × ℤ) := do
  let (s, s₁) ← s.constChars memory behind x
  let (s, s₂) ← s.constChars memory behind y
  let s₁ ← memoryOf s.heap (behind x) s₁
  let s₂ ← memoryOf s.heap (behind y) s₂
  let n ← compareCharsUpTo len s₁ s₂
  some (s, n)

/-- `startsWith(const String&)` -/
def State.startsWith (s : State) (x y : ℕ) : Option Bool := do
  let (str, len) ← s.data behind x
  let (other, otherLen) ← s.data behind y
  if len ≥ otherLen then do
    let bytes ← take str otherLen
    let otherBytes ← take other otherLen
    some (decide (bytes = otherBytes))
  else some false

/-- `endsWith(const String&)` -/
def State.endsWith (s : State) (x y : ℕ) : Option Bool := do
  let (str, len) ← s.data behind x
  let (other, otherLen) ← s.data behind y
  if len ≥ otherLen then do
    let bytes ← take (str.drop (len - otherLen)) otherLen
    let otherBytes ← take other otherLen
    some (decide (bytes = otherBytes))
  else some false

/-- `trim` -/
def State.trim (s : State) (x : ℕ) (chars : CString) : Option State := do
  let (str, len) ← s.data behind x
  if len = 0 then some s
  else do
    let (p, newLen) ← trimBounds chars str len
    if newLen = len then some s
    else do
      -- `*this = substr(p - start, newLen)`
      let result := s.vars.length
      let s ← s.substr memory behind x p newLen
      let s ← step memory s (.op x (.assign result))
      let s ← step memory s (.destroy result)
      some ⟨s.heap, s.vars.take result⟩

end

/-! ## What loops read -/

variable {v w : List UInt8} {p : UInt8 → Bool}

lemma scanUp_eq {n i : ℕ} (h : i + n ≤ v.length) : ∃ r, ∀ rest, scanUp p (v ++ rest) n i = some r := by
  induction n generalizing i with
  | zero => exact ⟨none, fun _ => rfl⟩
  | succ n ih =>
    have hi : i < v.length := by omega
    have hget : ∀ rest : List UInt8, (v ++ rest)[i]? = some v[i] := fun rest => by
      rw [List.getElem?_append_left hi, List.getElem?_eq_getElem]
    obtain ⟨r, hr⟩ := ih (i := i + 1) (by omega)
    refine ⟨if p v[i] then some i else r, fun rest => ?_⟩
    rw [scanUp, hget rest]
    simp only [Option.bind_eq_bind, Option.bind_some, hr rest]
    split_ifs <;> rfl

lemma scanDown_eq {n lo : ℕ} (h : n ≤ v.length) : ∃ r, ∀ rest, scanDown p (v ++ rest) lo n = some r := by
  induction n with
  | zero => exact ⟨none, fun _ => rfl⟩
  | succ n ih =>
    have hn : n < v.length := h
    have hget : ∀ rest : List UInt8, (v ++ rest)[n]? = some v[n] := fun rest => by
      rw [List.getElem?_append_left hn, List.getElem?_eq_getElem]
    obtain ⟨r, hr⟩ := ih (by omega)
    refine ⟨if n < lo then none else if p v[n] then some n else r, fun rest => ?_⟩
    rw [scanDown, hget rest]
    simp only [Option.bind_eq_bind, Option.bind_some, hr rest]
    split_ifs <;> rfl

lemma trimBounds_eq (chars : CString) (v : List UInt8) :
    ∃ r, ∀ rest, trimBounds chars (v ++ rest) v.length = some r := by
  obtain ⟨start, hstart⟩ := scanUp_eq (p := fun c => !isOneOf chars c)
    (show 0 + v.length ≤ v.length by omega)
  obtain ⟨stop, hstop⟩ : ∃ r, ∀ rest, scanDown (fun c => !isOneOf chars c) (v ++ rest)
      (start.getD v.length + 1) v.length = some r := scanDown_eq (Nat.le_refl v.length)
  refine ⟨(start.getD v.length, stop.getD (if start.getD v.length < v.length then start.getD v.length
    else v.length - 1) + 1 - start.getD v.length), fun rest => ?_⟩
  simp only [trimBounds, hstart rest, hstop rest, Option.bind_eq_bind, Option.bind_some]

lemma hashChars_eq (v : List UInt8) : ∃ r, ∀ rest, hashChars (v ++ 0 :: rest) v.length = some r := by
  have hget : ∀ i ≤ v.length, ∃ c, ∀ rest : List UInt8, (v ++ 0 :: rest)[i]? = some c := by
    intro i hi
    have hlt : i < (v ++ [0]).length := by
      rw [List.length_append]
      exact Nat.lt_succ_of_le hi
    refine ⟨(v ++ [0])[i], fun rest => ?_⟩
    rw [List.append_cons, List.getElem?_append_left hlt, List.getElem?_eq_getElem]
  obtain ⟨first, hfirst⟩ := hget 0 (Nat.zero_le _)
  obtain ⟨middle, hmiddle⟩ := hget (v.length / 2) (Nat.div_le_self _ _)
  obtain ⟨last, hlast⟩ := hget (v.length - (if v.length ≠ 0 then 1 else 0)) (Nat.sub_le _ _)
  exact ⟨_, fun rest => by simp only [hashChars, hfirst rest, hmiddle rest, hlast rest,
    Option.bind_eq_bind, Option.bind_some]; rfl⟩

lemma compareChars_eq (v w : List UInt8) :
    ∃ n, ∀ rest rest', compareChars (v ++ 0 :: rest) (w ++ 0 :: rest') = some n := by
  induction v generalizing w with
  | nil =>
    cases w with
    | nil => exact ⟨0, fun _ _ => rfl⟩
    | cons d w =>
      refine ⟨if 0 = d then 0 else (0 : UInt8).toNat - d.toNat, fun _ _ => ?_⟩
      simp only [List.nil_append, List.cons_append, compareChars]
      split_ifs <;> rfl
  | cons c v ih =>
    cases w with
    | nil =>
      refine ⟨if c = 0 then 0 else c.toNat - (0 : UInt8).toNat, fun _ _ => ?_⟩
      simp only [List.nil_append, List.cons_append, compareChars]
      split_ifs <;> rfl
    | cons d w =>
      obtain ⟨n, hn⟩ := ih w
      refine ⟨if c = d then if c = 0 then 0 else n else c.toNat - d.toNat, fun rest rest' => ?_⟩
      simp only [List.cons_append, compareChars, hn rest rest']
      split_ifs <;> rfl

lemma compareCharsUpTo_eq (len : ℕ) (v w : List UInt8) :
    ∃ n, ∀ rest rest', compareCharsUpTo len (v ++ 0 :: rest) (w ++ 0 :: rest') = some n := by
  induction len generalizing v w with
  | zero => exact ⟨0, fun _ _ => rfl⟩
  | succ len ih =>
    cases v with
    | nil =>
      cases w with
      | nil => exact ⟨0, fun _ _ => rfl⟩
      | cons d w => exact ⟨(0 : UInt8).toNat - d.toNat, fun _ _ => rfl⟩
    | cons c v =>
      cases w with
      | nil =>
        have hstop : c = 0 ∨ c ≠ 0 := em _
        refine ⟨c.toNat - (0 : UInt8).toNat, fun _ _ => ?_⟩
        simp only [List.nil_append, List.cons_append, compareCharsUpTo, if_pos hstop]
      | cons d w =>
        obtain ⟨n, hn⟩ := ih v w
        refine ⟨if c = 0 ∨ c ≠ d then c.toNat - d.toNat else n, fun rest rest' => ?_⟩
        simp only [List.cons_append, compareCharsUpTo, hn rest rest']
        split_ifs <;> rfl

/-- A string ends at its first zero, or behind its bytes. -/
lemma ended_split (v rest : List UInt8) : ∃ rest', v ++ 0 :: rest = cBytes v ++ 0 :: rest' := by
  have hbegins : v ++ [0] <+: v ++ 0 :: rest := ⟨rest, by rw [List.append_assoc]; rfl⟩
  obtain ⟨-, rest', hrest⟩ := cBytes_prefix hbegins
  exact ⟨rest', by rw [← hrest, List.append_assoc]; rfl⟩

/-! ## What functions do -/

/-- A function of a state that may go round its loops a number of times; what is in the memory of new
    blocks and what is behind strings may be anything. -/
abbrev Function (α : Type) : Type :=
  (ℕ → ℕ → UInt8) → (ℕ → Behind) → ℕ → State → Option (State × α)

/-- **A function is determined** by what the strings show: in all states in which they show the same, it
    returns the same, and they show the same afterwards. -/
def Determined {α : Type} (vs : Values) (f : Function α) : Prop :=
  ∃ vs' a, ∀ memory behind s, s.Shows vs →
    ∃ s', Returns (fun n => f memory behind n s) (s', a) ∧ s'.Shows vs'

variable {α β : Type} {vs : Values} {x y : ℕ}

lemma Determined.map {f : Function α} (h : Determined vs f) (g : α → β) :
    Determined vs fun memory behind n s => (f memory behind n s).map fun r => (r.1, g r.2) := by
  obtain ⟨vs', a, hall⟩ := h
  refine ⟨vs', g a, fun memory behind s hs => ?_⟩
  obtain ⟨s', hrun, h'⟩ := hall memory behind s hs
  exact ⟨s', hrun.map fun r => (r.1, g r.2), h'⟩

/-- **Functions without loops of their own** -/
lemma determined_of {f : (ℕ → ℕ → UInt8) → (ℕ → Behind) → State → Option (State × α)} (vs' : Values)
    (a : α) (h : ∀ memory behind s, s.Shows vs →
      ∃ s', f memory behind s = some (s', a) ∧ s'.Shows vs') :
    Determined vs fun memory behind _ s => f memory behind s := by
  refine ⟨vs', a, fun memory behind s hs => ?_⟩
  obtain ⟨s', hrun, h'⟩ := h memory behind s hs
  exact ⟨s', ⟨0, fun _ _ => hrun⟩, h'⟩

/-- **What reads the C string** of a string -/
lemma determined_readChars (hx : vs.at x = some v) {read : ℕ → List UInt8 → Option α}
    (hread : ∃ a, ∀ rest, Returns (fun n => read n (v ++ 0 :: rest)) a) :
    Determined vs fun memory behind n s => s.readChars memory behind x (read n) := by
  obtain ⟨a, hread⟩ := hread
  refine ⟨vs, a, fun memory behind s h => ?_⟩
  obtain ⟨s', rest, hchars, h', -⟩ := h.chars memory behind hx
  obtain ⟨k, hk⟩ := hread rest
  exact ⟨s', ⟨k, fun n hn => by simp [State.readChars, hchars, hk n hn]⟩, h'⟩

/-- **What reads the C string** without loops of its own -/
lemma determined_readOnce (hx : vs.at x = some v) {read : List UInt8 → Option α}
    (hread : ∃ a, ∀ rest, read (v ++ 0 :: rest) = some a) :
    Determined vs fun memory behind _ s => s.readChars memory behind x read := by
  obtain ⟨a, hread⟩ := hread
  exact determined_of vs a fun memory behind s h => h.readChars memory behind hx hread

/-- **What reads the bytes** of a string up to its length -/
lemma determined_readData (hx : vs.at x = some v) {read : List UInt8 → ℕ → Option α}
    (hread : ∃ a, ∀ rest, read (v ++ rest) v.length = some a) :
    Determined vs fun _ behind _ s => s.readData behind x read := by
  obtain ⟨a, hread⟩ := hread
  exact determined_of vs a fun _ behind s h => ⟨s, h.readData behind hx hread, h⟩

lemma determined_searchFrom (hx : vs.at x = some v) {start : ℕ}
    {search : List UInt8 → Option (Option ℕ)}
    (hsearch : start ≤ v.length → ∃ r, ∀ rest, search (v ++ 0 :: rest) = some r) :
    Determined vs fun memory behind _ s => s.searchFrom memory behind x start search := by
  by_cases hstart : start ≤ v.length
  · obtain ⟨r, hr⟩ := hsearch hstart
    exact determined_of vs _ fun memory behind s h => h.searchFrom memory behind hx fun _ => hr
  · exact determined_of vs _ fun memory behind s h =>
      h.searchFrom memory behind hx (r := none) fun hle => absurd hle hstart

/-- **`find(char)`** -/
lemma determined_find (hx : vs.at x = some v) (c : UInt8) :
    Determined vs fun _ behind _ s => s.find behind x c :=
  determined_readData hx (scanUp_eq (Nat.le_of_eq (Nat.zero_add _)))

/-- **`findLast(char)`** -/
lemma determined_findLast (hx : vs.at x = some v) (c : UInt8) :
    Determined vs fun _ behind _ s => s.findLast behind x c :=
  determined_readData hx (scanDown_eq (Nat.le_refl _))

/-- **`find(char, usize)`** -/
lemma determined_findFrom (hx : vs.at x = some v) (c : UInt8) (start : ℕ) :
    Determined vs fun memory behind _ s => s.findFrom memory behind x c start :=
  determined_searchFrom hx fun hstart => ⟨_, fun rest => CStrings.strchr_eq rest c hstart⟩

/-- **`find(const char*)`** -/
lemma determined_findString (hx : vs.at x = some v) (str : CString) :
    Determined vs fun memory behind _ s => s.findString memory behind x str :=
  determined_readOnce hx ⟨_, fun rest => CStrings.strstr_eq rest [] (Nat.zero_le _)⟩

/-- **`find(const char*, usize)`** -/
lemma determined_findStringFrom (hx : vs.at x = some v) (str : CString) (start : ℕ) :
    Determined vs fun memory behind _ s => s.findStringFrom memory behind x str start :=
  determined_searchFrom hx fun hstart => ⟨_, fun rest => CStrings.strstr_eq rest [] hstart⟩

/-- **`findOneOf(const char*)`** -/
lemma determined_findOneOf (hx : vs.at x = some v) (chars : CString) :
    Determined vs fun memory behind _ s => s.findOneOf memory behind x chars :=
  determined_readOnce hx ⟨_, fun rest => CStrings.strpbrk_eq rest [] (Nat.zero_le _)⟩

/-- **`findOneOf(const char*, usize)`** -/
lemma determined_findOneOfFrom (hx : vs.at x = some v) (chars : CString) (start : ℕ) :
    Determined vs fun memory behind _ s => s.findOneOfFrom memory behind x chars start :=
  determined_searchFrom hx fun hstart => ⟨_, fun rest => CStrings.strpbrk_eq rest [] hstart⟩

/-- **`toInt64`** -/
lemma determined_toInt64 (hx : vs.at x = some v) :
    Determined vs fun memory behind _ s => s.toInt64 memory behind x :=
  determined_readOnce hx ⟨_, fun rest => congrArg _ (CStrings.upTo_memory rest)⟩

/-- **`findLast(const char*)`** of a string that is not empty -/
lemma determined_findLastString (hx : vs.at x = some v) {str : CString} (hne : str.bytes ≠ []) :
    Determined vs fun memory behind n s => s.findLastString memory behind x str n := by
  obtain ⟨hnul, -⟩ := cBytes_prefix (List.prefix_refl (v ++ [0]))
  obtain ⟨r, hr, -⟩ := findLast_returns hnul str.noNul hne [] []
  refine determined_readChars hx ⟨r, fun rest => ?_⟩
  obtain ⟨rest', hrest⟩ := ended_split v rest
  obtain ⟨r', hr', hrun⟩ := findLast_returns hnul str.noNul hne rest' []
  obtain rfl := hr.unique hr'
  rw [hrest]
  exact hrun

/-- **`findLastOf(const char*)`** -/
lemma determined_findLastOf (hx : vs.at x = some v) (chars : CString) :
    Determined vs fun memory behind n s => s.findLastOf memory behind x chars n := by
  obtain ⟨hnul, -⟩ := cBytes_prefix (List.prefix_refl (v ++ [0]))
  obtain ⟨r, hr, -⟩ := findLastOf_returns hnul chars.noNul [] []
  refine determined_readChars hx ⟨r, fun rest => ?_⟩
  obtain ⟨rest', hrest⟩ := ended_split v rest
  obtain ⟨r', hr', hrun⟩ := findLastOf_returns hnul chars.noNul rest' []
  obtain rfl := hr.unique hr'
  rw [hrest]
  exact hrun

/-- **`hash`** -/
lemma determined_hash (hx : vs.at x = some v) :
    Determined vs fun memory behind _ s => s.hash memory behind x := by
  obtain ⟨r, hr⟩ := hashChars_eq v
  refine determined_of vs r fun memory behind s h => ?_
  obtain ⟨rest, hdata⟩ := h.data behind hx
  obtain ⟨s', hrun, h'⟩ : ∃ s', s.readChars memory behind x (fun str => hashChars str v.length)
      = some (s', r) ∧ s'.Shows vs := h.readChars memory behind hx hr
  exact ⟨s', by simp [State.hash, hdata, hrun], h'⟩

/-- Both conversions of a comparison -/
lemma State.Shows.both (memory : ℕ → ℕ → UInt8) (behind : ℕ → Behind) {s : State} (h : s.Shows vs)
    (hx : vs.at x = some v) (hy : vs.at y = some w) : ∃ s₁ s₂ this other rest rest',
      s.constChars memory behind x = some (s₁, this)
      ∧ s₁.constChars memory behind y = some (s₂, other) ∧ s₂.Shows vs
      ∧ memoryOf s₂.heap (behind x) this = some (v ++ 0 :: rest)
      ∧ memoryOf s₂.heap (behind y) other = some (w ++ 0 :: rest') := by
  obtain ⟨s₁, s₂, this, other, rest, rest', hthis, hother, hleaves₁, hv₁, hleaves₂, hw₂, hstr, hstr'⟩ :=
    constChars_both memory behind h.sound (h.value x v hx) (h.value y w hy)
  exact ⟨s₁, s₂, this, other, rest, rest', hthis, hother,
    (h.keep hx hleaves₁ hv₁).keep hy hleaves₂ hw₂, hstr, hstr'⟩

/-- **`compare(const String&)`** -/
lemma determined_compare (hx : vs.at x = some v) (hy : vs.at y = some w) :
    Determined vs fun memory behind _ s => s.compare memory behind x y := by
  obtain ⟨n, hn⟩ := compareChars_eq v w
  refine determined_of vs n fun memory behind s h => ?_
  obtain ⟨s₁, s₂, this, other, rest, rest', hthis, hother, h₂, hstr, hstr'⟩ :=
    h.both memory behind hx hy
  exact ⟨s₂, by simp [State.compare, hthis, hother, hstr, hstr', hn], h₂⟩

/-- **`compare(const String&, usize)`** -/
lemma determined_compareUpTo (hx : vs.at x = some v) (hy : vs.at y = some w) (len : ℕ) :
    Determined vs fun memory behind _ s => s.compareUpTo memory behind x y len := by
  obtain ⟨n, hn⟩ := compareCharsUpTo_eq len v w
  refine determined_of vs n fun memory behind s h => ?_
  obtain ⟨s₁, s₂, this, other, rest, rest', hthis, hother, h₂, hstr, hstr'⟩ :=
    h.both memory behind hx hy
  exact ⟨s₂, by simp [State.compareUpTo, hthis, hother, hstr, hstr', hn], h₂⟩

/-- Bytes of a string are there. -/
lemma take_string {i n : ℕ} (h : i + n ≤ v.length) (rest : List UInt8) :
    take ((v ++ rest).drop i) n = some ((v.drop i).take n) := by
  rw [take, if_pos (by rw [List.length_drop, List.length_append]; omega),
    List.drop_append_of_le_length (by omega),
    List.take_append_of_le_length (by rw [List.length_drop]; omega)]

/-- **`startsWith`** -/
lemma determined_startsWith (hx : vs.at x = some v) (hy : vs.at y = some w) :
    Determined vs fun _ behind _ s => (s.startsWith behind x y).map fun b => (s, b) := by
  refine determined_of vs (decide (w.length ≤ v.length ∧ v.take w.length = w))
    fun _ behind s h => ⟨s, ?_, h⟩
  obtain ⟨rest, hdata⟩ := h.data behind hx
  obtain ⟨rest', hdata'⟩ := h.data behind hy
  by_cases hle : v.length ≥ w.length
  · have hbytes := take_string (v := v) (i := 0) (n := w.length) (by omega) rest
    have hother := take_string (v := w) (i := 0) (n := w.length) (by omega) rest'
    simp only [List.drop_zero, List.take_length] at hbytes hother
    simp [State.startsWith, hdata, hdata', hle, hbytes, hother]
  · simp [State.startsWith, hdata, hdata', hle]

/-- **`endsWith`** -/
lemma determined_endsWith (hx : vs.at x = some v) (hy : vs.at y = some w) :
    Determined vs fun _ behind _ s => (s.endsWith behind x y).map fun b => (s, b) := by
  refine determined_of vs
    (decide (w.length ≤ v.length ∧ (v.drop (v.length - w.length)).take w.length = w))
    fun _ behind s h => ⟨s, ?_, h⟩
  obtain ⟨rest, hdata⟩ := h.data behind hx
  obtain ⟨rest', hdata'⟩ := h.data behind hy
  by_cases hle : v.length ≥ w.length
  · have hbytes := take_string (v := v) (i := v.length - w.length) (n := w.length) (by omega) rest
    have hother := take_string (v := w) (i := 0) (n := w.length) (by omega) rest'
    simp only [List.drop_zero, List.take_length] at hother
    simp only [State.endsWith, hdata, hdata', Option.bind_eq_bind, Option.bind_some]
    rw [if_pos hle, hbytes, hother]
    simp [hle]
  · simp [State.endsWith, hdata, hdata', hle]

/-- **`substr`** -/
lemma determined_substr (hx : vs.at x = some v) (start length : ℤ) (a : α) : Determined vs
    fun memory behind _ s => (s.substr memory behind x start length).map fun s => (s, a) := by
  refine determined_of (vs ++ [some (sub v start length)]) a fun memory behind s h => ?_
  obtain ⟨s', hrun, h'⟩ := h.substr memory behind hx start length
  exact ⟨s', by simp [hrun], h'⟩

/-- **`trim`** -/
lemma determined_trim (hx : vs.at x = some v) (chars : CString) (a : α) : Determined vs
    fun memory behind _ s => (s.trim memory behind x chars).map fun s => (s, a) := by
  obtain ⟨⟨p, newLen⟩, hbounds⟩ := trimBounds_eq chars v
  by_cases hsame : v.length = 0 ∨ newLen = v.length
  · refine determined_of vs a fun memory behind s h => ⟨s, ?_, h⟩
    obtain ⟨rest, hdata⟩ := h.data behind hx
    rcases hsame with hempty | hsame
    · simp [State.trim, hdata, hempty]
    · simp [State.trim, hdata, hbounds rest, hsame]
  · obtain ⟨hempty, hlen⟩ := not_or.mp hsame
    refine determined_of (vs.set x (some (sub v p newLen))) a fun memory behind s h => ?_
    obtain ⟨rest, hdata⟩ := h.data behind hx
    obtain ⟨s₁, hsubstr, h₁⟩ := h.substr memory behind hx p newLen
    have hnew : Values.at (vs ++ [some (sub v p newLen)]) vs.length = some (sub v p newLen) := by
      rw [Values.at_push, if_pos rfl]
    obtain ⟨s₂, hassign, hsets⟩ := step_assign memory h₁.sound
      (h₁.value x v (Values.at_append hx)) (h₁.value _ _ hnew) (p := fun _ => True)
      (fun _ _ _ _ _ _ => trivial) fun _ _ => trivial
    have h₂ := h₁.set hsets.toLeaves hsets.sets
    rw [List.set_append_left _ _ (Values.lt_of_at hx)] at h₂
    obtain ⟨s₃, hpop, h₃⟩ := h₂.pop memory
    rw [List.length_set] at hpop
    refine ⟨s₃, ?_, h₃⟩
    simp only [State.trim, hdata, Option.bind_eq_bind, Option.bind_some, if_neg hempty,
      hbounds rest, if_neg hlen, hsubstr, h.length, hassign] at hpop ⊢
    rw [hpop]
    rfl

/-- **`replace(char, char)`** -/
lemma determined_replaceChar (hx : vs.at x = some v) (needle replacement : UInt8) (a : α) :
    Determined vs fun memory _ _ s =>
      (step memory s (.op x (.replace needle replacement))).map fun s => (s, a) := by
  refine determined_of (vs.set x (some (replaceText (fun c => if c = needle then replacement else c) v)))
    a fun memory _ s h => ?_
  obtain ⟨s', hstep, hsets⟩ := step_replace memory h.sound (h.value x v hx) needle replacement
  exact ⟨s', by simp [hstep], h.set hsets.toLeaves hsets.sets⟩

/-- **`token`** with a character -/
lemma determined_tokenChar (hx : vs.at x = some v) (separator : UInt8) (start : ℕ) :
    Determined vs fun memory behind _ s => s.tokenChar memory behind x separator start :=
  determined_of _ _ fun memory behind _ h => h.tokenChar memory behind hx separator start

/-- **`split`**, into a list in which the string is not -/
lemma determined_split (hx : vs.at x = some v) {tokens : List ℕ} (hnot : x ∉ tokens)
    (separators : CString) (skipEmpty : Bool) : Determined vs
      fun memory behind n s => s.split memory behind x tokens separators skipEmpty n := by
  refine ⟨vs.clear tokens ++ (kept skipEmpty (pieces separators.bytes v)).map some,
    (List.range' (vs.clear tokens).length (kept skipEmpty (pieces separators.bytes v)).length,
      (kept skipEmpty (pieces separators.bytes v)).length), fun memory behind s h => ?_⟩
  obtain ⟨s', h', hrun⟩ := h.split memory behind hx hnot separators skipEmpty
  exact ⟨s', hrun, h'⟩

end Nstd.Strings
