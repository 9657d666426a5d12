import Nstd.Shared.StringFunctions

/-!
# What is behind strings

* `Query`, `Query.run` — the member functions that read strings, and what each of them returns.
* `programs` — programs that change strings and call these functions.
* `State.Same` — two states in which all strings have the same bytes.
* `Query.Regular` — what a call counts on: no match of `replace` goes on behind the string, the string
  that `findLast` searches for is not empty, `token` begins within the string, or finds the same.
* `Query.Regular.returns`, `Query.regular_of_returns` — what is behind strings has no influence on such
  calls, and on no others.
* **`results_iff`** — two runs in which all strings have the same bytes get the same results from a call
  exactly if it is regular.

All other functions read what is behind a string without deciding by it.
-/

namespace Nstd.Strings

open Texts (upTo)

/-! ## Calls -/

/-- The functions that read a string, with their other arguments; `y` and `z` are variables. -/
inductive Query
  | find (c : UInt8)
  | findFrom (c : UInt8) (start : ℕ)
  | findString (str : CString)
  | findStringFrom (str : CString) (start : ℕ)
  | findOneOf (chars : CString)
  | findOneOfFrom (chars : CString) (start : ℕ)
  | findLast (c : UInt8)
  | findLastString (str : CString)
  | findLastOf (chars : CString)
  | replace (needle replacement : UInt8)
  | replaceString (y z : ℕ)
  | trim (chars : CString)
  | split (tokens : List ℕ) (separators : CString) (skipEmpty : Bool)
  | tokenChar (separator : UInt8) (start : ℕ)
  | token (separators : CString) (start : ℕ)
  | compare (y : ℕ)
  | compareUpTo (y len : ℕ)
  | substr (start length : ℤ)
  | startsWith (y : ℕ)
  | endsWith (y : ℕ)
  | toInt64
  | hash

/-- What they return; strings that are returned are new variables, and pointers are to a place in the
    string. -/
inductive Answer
  | done
  | place (found : Option ℕ)
  | start (start : ℕ)
  | tokens (tokens : List ℕ) (size : ℕ)
  | order (n : ℤ)
  | truth (b : Bool)
  | number (value : Int64)
  | code (hashCode : UInt64)

/-- The other variables -/
def Query.names : Query → List ℕ
  | .replaceString y z => [y, z]
  | .compare y => [y]
  | .compareUpTo y _ => [y]
  | .startsWith y => [y]
  | .endsWith y => [y]
  | _ => []

/-- The result of a function, as an answer -/
def answer {α : Type} (g : α → Answer) (r : Option (State × α)) : Option (State × Answer) :=
  r.map fun r => (r.1, g r.2)

/-- **The call of a function**, with a number of rounds for its loops -/
def Query.run (q : Query) (x : ℕ) : Function Answer := fun memory behind n s =>
  match q with
  | .find c => answer .place (s.find behind x c)
  | .findFrom c start => answer .place (s.findFrom memory behind x c start)
  | .findString str => answer .place (s.findString memory behind x str)
  | .findStringFrom str start => answer .place (s.findStringFrom memory behind x str start)
  | .findOneOf chars => answer .place (s.findOneOf memory behind x chars)
  | .findOneOfFrom chars start => answer .place (s.findOneOfFrom memory behind x chars start)
  | .findLast c => answer .place (s.findLast behind x c)
  | .findLastString str => answer .place (s.findLastString memory behind x str n)
  | .findLastOf chars => answer .place (s.findLastOf memory behind x chars n)
  | .replace needle replacement =>
    (step memory s (.op x (.replace needle replacement))).map fun s => (s, .done)
  | .replaceString y z => (s.replace memory behind x y z n).map fun s => (s, .done)
  | .trim chars => (s.trim memory behind x chars).map fun s => (s, .done)
  | .split tokens separators skipEmpty =>
    answer (fun r =>
      Answer.tokens r.1 r.2) (s.split memory behind x tokens separators skipEmpty n)
  | .tokenChar separator start => answer .start (s.tokenChar memory behind x separator start)
  | .token separators start => answer .start (s.token memory behind x separators start)
  | .compare y => answer .order (s.compare memory behind x y)
  | .compareUpTo y len => answer .order (s.compareUpTo memory behind x y len)
  | .substr start length => (s.substr memory behind x start length).map fun s => (s, .done)
  | .startsWith y => answer .truth ((s.startsWith behind x y).map fun b => (s, b))
  | .endsWith y => answer .truth ((s.endsWith behind x y).map fun b => (s, b))
  | .toInt64 => answer .number (s.toInt64 memory behind x)
  | .hash => answer .code (s.hash memory behind x)

/-- All variables of a call are strings. -/
def Query.Named (q : Query) (x : ℕ) (s : State) : Prop := ∀ y ∈ x :: q.names, ∃ v, s.Value y v

/-- What a program does next -/
inductive Act
  | move (m : Move)
  | query (x : ℕ) (q : Query)

/-- **Programs** with strings; what is in new blocks and behind strings may be anything at any time. -/
def programs (n : ℕ) : System State Act where
  initial s := s = State.initial n
  step s acts s' := ∃ memory,
    (∃ m, acts = [.move m] ∧ step memory s m = some s') ∨
    ∃ behind x q a, acts = [.query x q] ∧ q.Named x s ∧
      Returns (fun n => q.run x memory behind n s) (s', a)

/-! ## Two runs -/

/-- All strings have the same bytes. -/
def State.Same (s₁ s₂ : State) : Prop :=
  s₁.vars.length = s₂.vars.length ∧ ∀ x v, s₁.Value x v ↔ s₂.Value x v

/-- From `start` on, the memory of a string has an end, and its first character of `chars` in front of
    that, if there is one, is `i` further on. -/
def State.Reaches (memory : ℕ → ℕ → UInt8) (behind : ℕ → Behind) (s : State) (x : ℕ) (chars : CString)
    (start : ℕ) (i : Option ℕ) : Prop :=
  ∃ s' str text, s.chars memory behind x = some (s', str) ∧ upTo 0 (str.drop start) = some text ∧
    text.findIdx? (· ∈ chars.bytes) = i

/-- All matches end within the string. -/
def State.Replaceable (behind : ℕ → Behind) (s : State) (x y : ℕ) : Prop :=
  ∃ v w, s.Value x v ∧ s.Value y w ∧ s.Confines behind x y v w

section

variable (memory₁ memory₂ : ℕ → ℕ → UInt8) (behind₁ behind₂ : ℕ → Behind)

/-- **What a call counts on** in two states -/
def Query.Regular (q : Query) (x : ℕ) (s₁ s₂ : State) : Prop :=
  match q with
  | .findLastString str => str.bytes ≠ []
  | .replaceString y _ => s₁.Replaceable behind₁ x y ∧ s₂.Replaceable behind₂ x y
  | .split tokens _ _ => x ∉ tokens
  | .token separators start => ∃ i, s₁.Reaches memory₁ behind₁ x separators start i ∧
      s₂.Reaches memory₂ behind₂ x separators start i
  | _ => True

/-- **A call returns the same** in two states, and leaves the same. -/
def Query.SameResults (q : Query) (x : ℕ) (s₁ s₂ : State) : Prop :=
  ∃ a s₁' s₂', Returns (fun n => q.run x memory₁ behind₁ n s₁) (s₁', a) ∧
    Returns (fun n => q.run x memory₂ behind₂ n s₂) (s₂', a) ∧ s₁'.Same s₂'

end

variable {s s' s₁ s₂ : State} {vs : Values} {x y z start : ℕ} {v w u : List UInt8} {a : Answer}

lemma State.Shows.same (h₁ : s₁.Shows vs) (h₂ : s₂.Shows vs) : s₁.Same s₂ :=
  ⟨h₁.length.trans h₂.length.symm, fun x v => ⟨fun hv => h₂.value x v (h₁.at hv),
    fun hv => h₁.value x v (h₂.at hv)⟩⟩

/-- States are the same exactly if they show the same. -/
lemma State.Same.shows (h : s₁.Same s₂) (h₁ : s₁.Shows vs) (hs₂ : s₂.Sound) : s₂.Shows vs := by
  refine ⟨hs₂, h.1.symm.trans h₁.length, fun x v hv => (h.2 x v).mp (h₁.value x v hv),
    fun x hx => Option.eq_none_iff_forall_not_mem.mpr fun c hc => ?_⟩
  obtain ⟨v, hv⟩ := hs₂.value hc
  exact nomatch hx.symm.trans (h₁.at ((h.2 x v).mpr hv))

/-! ## `token` -/

/-- In the string, only its bytes are reached. -/
lemma State.Shows.reaches_iff (memory : ℕ → ℕ → UInt8) (behind : ℕ → Behind) (h : s.Shows vs)
    (hx : vs.at x = some v) (hstart : start ≤ v.length) (chars : CString) (i : Option ℕ) :
    s.Reaches memory behind x chars start i
      ↔ (cBytes (v.drop start)).findIdx? (· ∈ chars.bytes) = i := by
  obtain ⟨s₁, rest, hchars, -⟩ := h.chars memory behind hx
  have htext : upTo 0 ((v ++ 0 :: rest).drop start) = some _ := upTo_ended hstart
  refine ⟨?_, fun hi => ⟨s₁, _, _, hchars, htext, hi⟩⟩
  rintro ⟨s₂, str, text, hchars', htext', hi⟩
  obtain ⟨rfl, rfl⟩ := Prod.mk.inj (Option.some.inj (hchars.symm.trans hchars'))
  obtain rfl := Option.some.inj (htext.symm.trans htext')
  exact hi

lemma strpbrk_memory (str : List UInt8) (chars : CString) (start : ℕ) :
    CStrings.strpbrk str chars.memory start
      = (upTo 0 (str.drop start)).map fun text =>
        (text.findIdx? (· ∈ chars.bytes)).map (start + ·) := by
  have hchars : upTo 0 chars.memory = some chars.bytes := by
    rw [CString.memory, CStrings.upTo_memory, Texts.takeWhile_of_not_mem chars.noNul]
  rw [CStrings.strpbrk, hchars]
  cases upTo 0 (str.drop start) <;> rfl

/-- **`token`** cuts at what is reached. -/
theorem State.Reaches.token {memory : ℕ → ℕ → UInt8} {behind : ℕ → Behind} {chars : CString}
    {i : Option ℕ} (hreaches : s.Reaches memory behind x chars start i) (h : s.Shows vs)
    (hx : vs.at x = some v) : ∃ s',
      s.token memory behind x chars start
        = some (s', (cutAt v start (i.map (start + ·))).2) ∧
      s'.Shows (vs ++ [some (cutAt v start (i.map (start + ·))).1]) := by
  obtain ⟨s₁, str, text, hchars, htext, rfl⟩ := hreaches
  obtain ⟨s₂, rest, hchars', h₂, -⟩ := h.chars memory behind hx
  obtain ⟨rfl, rfl⟩ := Prod.mk.inj (Option.some.inj (hchars.symm.trans hchars'))
  obtain ⟨s₃, hcut, h₃⟩ :=
    h₂.cut memory behind hx start ((text.findIdx? (· ∈ chars.bytes)).map (start + ·))
  refine ⟨s₃, ?_, h₃⟩
  simp only [State.token, hchars, strpbrk_memory, htext, Option.map_some, Option.bind_eq_bind,
    Option.bind_some, hcut]

/-- What returns has reached something. -/
lemma reaches_of_token {memory : ℕ → ℕ → UInt8} {behind : ℕ → Behind} {chars : CString}
    {r : State × ℕ} (hrun : s.token memory behind x chars start = some r) :
    ∃ i, s.Reaches memory behind x chars start i := by
  obtain ⟨⟨s₁, str⟩, hchars, hrun⟩ := Option.bind_eq_some_iff.mp hrun
  obtain ⟨endStr, hsearch, -⟩ := Option.bind_eq_some_iff.mp hrun
  rw [strpbrk_memory] at hsearch
  obtain ⟨text, htext, -⟩ := Option.map_eq_some_iff.mp hsearch
  exact ⟨_, s₁, str, text, hchars, htext, rfl⟩

/-- Behind the string, the new place tells what was reached. -/
lemma cutAt_inj {i j : Option ℕ} (hstart : v.length < start)
    (h : (cutAt v start (i.map (start + ·))).2 = (cutAt v start (j.map (start + ·))).2) : i = j := by
  cases i <;> cases j <;> simp only [Option.map_none, Option.map_some, cutAt] at h
  · rfl
  · omega
  · omega
  · exact congrArg some (by omega)

/-! ## Calls -/

variable {memory memory₁ memory₂ : ℕ → ℕ → UInt8} {behind behind₁ behind₂ : ℕ → Behind} {q : Query}

/-- What is destroyed stays so. -/
lemma Values.at_cleared {tokens : List ℕ} (hx : vs.at x = none ∨ x ∈ tokens) :
    Values.at (vs.clear tokens) x = none := by
  induction tokens generalizing vs with
  | nil => exact hx.resolve_right List.not_mem_nil
  | cons token tokens ih =>
    refine ih ?_
    by_cases heq : x = token
    · subst heq
      rw [Values.at, List.getElem?_set_self']
      exact .inl (by cases vs[x]? <;> rfl)
    · rw [Values.at, List.getElem?_set_ne (Ne.symm heq)]
      exact hx.imp id fun hmem => (List.mem_cons.mp hmem).resolve_left heq

/-- A string that is in its own list is gone. -/
lemma State.Shows.split_gone (h : s.Shows vs) {tokens : List ℕ} (hx : x ∈ tokens)
    (separators : CString) (skipEmpty : Bool) (n : ℕ) :
    s.split memory behind x tokens separators skipEmpty n = none := by
  obtain ⟨s₁, hclear, h₁⟩ := h.clearTokens memory tokens
  simp [State.split, hclear, State.chars, State.constChars, h₁.missing x (Values.at_cleared (.inr hx))]

lemma Determined.both {α : Type} {f : Function α} (h : Determined vs f)
    (memory₁ memory₂ : ℕ → ℕ → UInt8) (behind₁ behind₂ : ℕ → Behind) (h₁ : s₁.Shows vs)
    (h₂ : s₂.Shows vs) : ∃ a vs' s₁' s₂', Returns (fun n => f memory₁ behind₁ n s₁) (s₁', a) ∧
      Returns (fun n => f memory₂ behind₂ n s₂) (s₂', a) ∧ s₁'.Shows vs' ∧ s₂'.Shows vs' := by
  obtain ⟨vs', a, hall⟩ := h
  obtain ⟨s₁', hrun₁, h₁'⟩ := hall memory₁ behind₁ s₁ h₁
  obtain ⟨s₂', hrun₂, h₂'⟩ := hall memory₂ behind₂ s₂ h₂
  exact ⟨a, vs', s₁', s₂', hrun₁, hrun₂, h₁', h₂'⟩

/-- **`replace`** gives the same where all matches end within the string. -/
lemma replaceable_returns (h₁ : s₁.Shows vs) (h₂ : s₂.Shows vs) (hx : vs.at x = some v)
    (hz : vs.at z = some u) (hready₁ : s₁.Replaceable behind₁ x y)
    (hready₂ : s₂.Replaceable behind₂ x y) : ∃ vs' s₁' s₂',
      Returns (s₁.replace memory₁ behind₁ x y z) s₁' ∧
      Returns (s₂.replace memory₂ behind₂ x y z) s₂' ∧ s₁'.Shows vs' ∧ s₂'.Shows vs' := by
  obtain ⟨v₁, w, hv₁, hw₁, hconf₁⟩ := hready₁
  obtain ⟨v₂, w₂, hv₂, hw₂, hconf₂⟩ := hready₂
  obtain rfl := Option.some.inj (hx.symm.trans (h₁.at hv₁))
  obtain rfl := Option.some.inj (hx.symm.trans (h₂.at hv₂))
  obtain rfl := Option.some.inj ((h₁.at hw₁).symm.trans (h₂.at hw₂))
  have hy := h₁.at hw₁
  obtain ⟨out₁, s₁', hout₁, hshows₁, hrun₁⟩ := h₁.replace memory₁ hx hy hz hconf₁
  obtain ⟨out₂, s₂', hout₂, hshows₂, hrun₂⟩ := h₂.replace memory₂ hx hy hz hconf₂
  obtain rfl := hout₁.unique hout₂
  exact ⟨_, s₁', s₂', hrun₁, hrun₂, hshows₁, hshows₂⟩

/-- **Calls that are regular** return the same, whatever is behind the strings. -/
theorem Query.Regular.returns (h₁ : s₁.Shows vs) (h₂ : s₂.Shows vs)
    (hnamed : ∀ y ∈ x :: q.names, ∃ v, vs.at y = some v)
    (hreg : q.Regular memory₁ memory₂ behind₁ behind₂ x s₁ s₂) : ∃ a vs' s₁' s₂',
      Returns (fun n => q.run x memory₁ behind₁ n s₁) (s₁', a) ∧
      Returns (fun n => q.run x memory₂ behind₂ n s₂) (s₂', a) ∧ s₁'.Shows vs' ∧ s₂'.Shows vs' := by
  obtain ⟨⟨v, hx⟩, hother⟩ := List.forall_mem_cons.mp hnamed
  have hboth := fun h : Determined vs (q.run x) => h.both memory₁ memory₂ behind₁ behind₂ h₁ h₂
  cases q with
  | find c => exact hboth ((determined_find hx c).map Answer.place)
  | findFrom c start => exact hboth ((determined_findFrom hx c start).map Answer.place)
  | findString str => exact hboth ((determined_findString hx str).map Answer.place)
  | findStringFrom str start =>
    exact hboth ((determined_findStringFrom hx str start).map Answer.place)
  | findOneOf chars => exact hboth ((determined_findOneOf hx chars).map Answer.place)
  | findOneOfFrom chars start =>
    exact hboth ((determined_findOneOfFrom hx chars start).map Answer.place)
  | findLast c => exact hboth ((determined_findLast hx c).map Answer.place)
  | findLastString str => exact hboth ((determined_findLastString hx hreg).map Answer.place)
  | findLastOf chars => exact hboth ((determined_findLastOf hx chars).map Answer.place)
  | replace needle replacement => exact hboth (determined_replaceChar hx needle replacement Answer.done)
  | replaceString y z =>
    obtain ⟨w, hz⟩ := hother z (by simp [Query.names])
    obtain ⟨vs', s₁', s₂', hrun₁, hrun₂, hshows⟩ := replaceable_returns h₁ h₂ hx hz hreg.1 hreg.2
    exact ⟨.done, vs', s₁', s₂', hrun₁.map fun s => (s, Answer.done),
      hrun₂.map fun s => (s, Answer.done), hshows⟩
  | trim chars => exact hboth (determined_trim hx chars Answer.done)
  | split tokens separators skipEmpty =>
    exact hboth ((determined_split hx hreg separators skipEmpty).map fun r =>
      Answer.tokens r.1 r.2)
  | tokenChar separator start =>
    exact hboth ((determined_tokenChar hx separator start).map Answer.start)
  | token separators start =>
    obtain ⟨i, hreaches₁, hreaches₂⟩ := hreg
    obtain ⟨s₁', hrun₁, hshows₁⟩ := hreaches₁.token h₁ hx
    obtain ⟨s₂', hrun₂, hshows₂⟩ := hreaches₂.token h₂ hx
    exact ⟨_, _, s₁', s₂', ⟨0, fun _ _ => congrArg (answer Answer.start) hrun₁⟩,
      ⟨0, fun _ _ => congrArg (answer Answer.start) hrun₂⟩, hshows₁, hshows₂⟩
  | compare y =>
    obtain ⟨w, hy⟩ := hother y List.mem_cons_self
    exact hboth ((determined_compare hx hy).map Answer.order)
  | compareUpTo y len =>
    obtain ⟨w, hy⟩ := hother y List.mem_cons_self
    exact hboth ((determined_compareUpTo hx hy len).map Answer.order)
  | substr start length => exact hboth (determined_substr hx start length Answer.done)
  | startsWith y =>
    obtain ⟨w, hy⟩ := hother y List.mem_cons_self
    exact hboth ((determined_startsWith hx hy).map Answer.truth)
  | endsWith y =>
    obtain ⟨w, hy⟩ := hother y List.mem_cons_self
    exact hboth ((determined_endsWith hx hy).map Answer.truth)
  | toInt64 => exact hboth ((determined_toInt64 hx).map Answer.number)
  | hash => exact hboth ((determined_hash hx).map Answer.code)

/-! ## Calls that return -/

lemma replaceable_of_returns (h : s.Shows vs) (hx : vs.at x = some v) (hy : vs.at y = some w)
    (hz : vs.at z = some u)
    (hrun : Returns (fun n => (Query.replaceString y z).run x memory behind n s) (s', a)) :
    s.Replaceable behind x y := by
  obtain ⟨k, hk⟩ := hrun
  obtain ⟨s₁, hreplace, -⟩ := Option.map_eq_some_iff.mp (hk k (Nat.le_refl k))
  exact ⟨v, w, h.value x v hx, h.value y w hy, confines_of_replace memory h hx hy hz hreplace⟩

/-- `token` tells what it has reached. -/
lemma reaches_of_returns (h : s.Shows vs) (hx : vs.at x = some v) {separators : CString}
    (hrun : Returns (fun n => (Query.token separators start).run x memory behind n s) (s', a)) :
    ∃ i, s.Reaches memory behind x separators start i ∧
      a = .start (cutAt v start (i.map (start + ·))).2 := by
  obtain ⟨k, hk⟩ := hrun
  obtain ⟨⟨s₁, start'⟩, htoken, heq⟩ := Option.map_eq_some_iff.mp (hk k (Nat.le_refl k))
  obtain ⟨i, hreaches⟩ := reaches_of_token htoken
  obtain ⟨s₂, htoken', -⟩ := hreaches.token h hx
  obtain ⟨-, rfl⟩ := Prod.mk.inj (Option.some.inj (htoken.symm.trans htoken'))
  exact ⟨i, hreaches, (Prod.mk.inj heq).2.symm⟩

/-- **Calls that return the same** are regular. -/
theorem Query.regular_of_returns (h₁ : s₁.Shows vs) (h₂ : s₂.Shows vs)
    (hnamed : ∀ y ∈ x :: q.names, ∃ v, vs.at y = some v) {s₁' s₂' : State}
    (hrun₁ : Returns (fun n => q.run x memory₁ behind₁ n s₁) (s₁', a))
    (hrun₂ : Returns (fun n => q.run x memory₂ behind₂ n s₂) (s₂', a)) :
    q.Regular memory₁ memory₂ behind₁ behind₂ x s₁ s₂ := by
  obtain ⟨⟨v, hx⟩, hother⟩ := List.forall_mem_cons.mp hnamed
  cases q with
  | findLastString str =>
    intro hempty
    refine not_returns (fun n => ?_) hrun₁
    simp [Query.run, answer, State.findLastString, State.readChars, CString.memory, hempty,
      findLast_empty]
  | replaceString y z =>
    obtain ⟨w, hy⟩ := hother y (by simp [Query.names])
    obtain ⟨u, hz⟩ := hother z (by simp [Query.names])
    exact ⟨replaceable_of_returns h₁ hx hy hz hrun₁, replaceable_of_returns h₂ hx hy hz hrun₂⟩
  | split tokens separators skipEmpty =>
    intro hmem
    refine not_returns (fun n => ?_) hrun₁
    simp [Query.run, answer, h₁.split_gone hmem]
  | token separators start =>
    obtain ⟨i, hreaches₁, ha₁⟩ := reaches_of_returns h₁ hx hrun₁
    obtain ⟨j, hreaches₂, ha₂⟩ := reaches_of_returns h₂ hx hrun₂
    refine ⟨i, hreaches₁, ?_⟩
    have hsame : i = j := by
      by_cases hstart : start ≤ v.length
      · rw [h₁.reaches_iff memory₁ behind₁ hx hstart] at hreaches₁
        rw [h₂.reaches_iff memory₂ behind₂ hx hstart] at hreaches₂
        exact hreaches₁.symm.trans hreaches₂
      · exact cutAt_inj (Nat.not_le.mp hstart) (Answer.start.inj (ha₁.symm.trans ha₂))
    rwa [hsame]
  | _ => exact trivial

/-! ## The theorem -/

lemma Query.Named.values (h : s.Shows vs) (hnamed : q.Named x s) :
    ∀ y ∈ x :: q.names, ∃ v, vs.at y = some v := by
  intro y hy
  obtain ⟨v, hv⟩ := hnamed y hy
  exact ⟨v, h.at hv⟩

/-- What a call that returns leaves is sound. -/
lemma Query.Named.sound (hs : s.Sound) (hnamed : q.Named x s)
    (hrun : Returns (fun n => q.run x memory behind n s) (s', a)) : s'.Sound := by
  obtain ⟨vs, h⟩ := hs.shows
  have hreg := Query.regular_of_returns h h (hnamed.values h) hrun hrun
  obtain ⟨a', vs', s₁, -, hrun₁, -, hshows, -⟩ := hreg.returns h h (hnamed.values h)
  obtain ⟨rfl, -⟩ := Prod.mk.inj (hrun.unique hrun₁)
  exact hshows.sound

/-- Programs keep all strings sound. -/
theorem programs_sound {n : ℕ} {acts : List Act} (h : (programs n).Run acts s) : s.Sound := by
  refine @System.Run.invariant _ _ (programs n) (fun _ s => s.Sound) (fun s hs => ?_)
    (fun _ s _ s' hs => ?_) _ _ h
  · rw [show s = State.initial n from hs]
    exact .initial n
  · rintro ⟨memory, ⟨m, -, hstep⟩ | ⟨behind, x, q, a, -, hnamed, hrun⟩⟩
    · obtain ⟨s₁, hstep₁, hleaves, -⟩ := step_spec memory hs m
      obtain rfl := Option.some.inj (hstep.symm.trans hstep₁)
      exact hleaves.sound
    · exact hnamed.sound hs hrun

/-- **Results.**  After any two programs that leave the same bytes in all strings, whatever is behind
    attached strings and in new blocks: a call returns the same from both exactly if it is regular. -/
theorem results_iff {n₁ n₂ : ℕ} {acts₁ acts₂ : List Act} (hrun₁ : (programs n₁).Run acts₁ s₁)
    (hrun₂ : (programs n₂).Run acts₂ s₂) (hsame : s₁.Same s₂) (memory₁ memory₂ : ℕ → ℕ → UInt8)
    (behind₁ behind₂ : ℕ → Behind) (q : Query) {x : ℕ} (hnamed : q.Named x s₁) :
    q.SameResults memory₁ memory₂ behind₁ behind₂ x s₁ s₂
      ↔ q.Regular memory₁ memory₂ behind₁ behind₂ x s₁ s₂ := by
  obtain ⟨vs, h₁⟩ := (programs_sound hrun₁).shows
  have h₂ := hsame.shows h₁ (programs_sound hrun₂)
  refine ⟨?_, fun hreg => ?_⟩
  · rintro ⟨a, s₁', s₂', hreturns₁, hreturns₂, -⟩
    exact Query.regular_of_returns h₁ h₂ (hnamed.values h₁) hreturns₁ hreturns₂
  · obtain ⟨a, vs', s₁', s₂', hreturns₁, hreturns₂, h₁', h₂'⟩ :=
      hreg.returns h₁ h₂ (hnamed.values h₁)
    exact ⟨a, s₁', s₂', hreturns₁, hreturns₂, h₁'.same h₂'⟩

/-- Strings with different bytes behind them are compared. -/
theorem results_iff_compare : ∃ s acts, (programs 2).Run acts s ∧ s.Value 0 [97, 98] ∧
    s.Value 1 [97] ∧ (Query.compare 1).SameResults (fun _ _ => 0) (fun _ _ => 1)
      (fun _ => ⟨99, [0]⟩) (fun _ => ⟨0, []⟩) 0 s s := by
  obtain ⟨s, hrun, hv, hw⟩ : ∃ s, (programs 2).Run
      ([] ++ [.move (.construct 0 (.attach [97, 98]))] ++ [.move (.construct 1 (.attach [97]))]) s ∧
      s.Value 0 [97, 98] ∧ s.Value 1 [97] := by
    refine ⟨_, .next (.next (.start rfl) ⟨fun _ _ => 0, .inl ⟨_, rfl, rfl⟩⟩)
      ⟨fun _ _ => 0, .inl ⟨_, rfl, rfl⟩⟩, ⟨_, _, _, rfl, rfl, rfl, rfl⟩, ⟨_, _, _, rfl, rfl, rfl, rfl⟩⟩
  have hnamed : (Query.compare 1).Named 0 s := by
    intro y hy
    rcases List.mem_cons.mp hy with rfl | hy
    · exact ⟨_, hv⟩
    · rw [List.mem_singleton.mp hy]
      exact ⟨_, hw⟩
  exact ⟨s, _, hrun, hv, hw,
    (results_iff hrun hrun ⟨rfl, fun _ _ => Iff.rfl⟩ _ _ _ _ _ hnamed).mpr trivial⟩

/-- `"bc"` is found in `"ab"` in front of a `c`, and ends behind the string. -/
lemma not_confined_neighbour : ¬ Confined [98, 99] 2 [97, 98, 99, 0] 0 := by
  intro h
  have htext : upTo 0 ([97, 98, 99, 0] : List UInt8) = some [97, 98, 99] := by decide
  have hfind : Texts.find (cBytes [98, 99]) ([97, 98, 99] : List UInt8) = some 1 := by decide
  cases h with
  | last _ htext' hnone =>
    obtain rfl := Option.some.inj (htext.symm.trans htext')
    exact nomatch hnone.symm.trans hfind
  | next htext' hsome hlater =>
    obtain rfl := Option.some.inj (htext.symm.trans htext')
    obtain rfl := Option.some.inj (hfind.symm.trans hsome)
    exact absurd hlater.le (by decide)

/-- The string `"ab"` in front of a `c`: `replace` finds `"bc"`, and what it appends then is behind the
    string.  In front of a zero, it finds nothing. -/
theorem replace_neighbour : ∃ s acts, (programs 3).Run acts s ∧ s.Value 0 [97, 98] ∧
    s.Value 1 [98, 99] ∧ s.Value 2 [120] ∧
    (∀ n, s.replace (fun _ _ => 0) (fun _ => ⟨99, [0]⟩) 0 1 2 n = none) ∧
    Returns (s.replace (fun _ _ => 0) (fun _ => ⟨0, []⟩) 0 1 2) s ∧
    ¬ (Query.replaceString 1 2).SameResults (fun _ _ => 0) (fun _ _ => 0) (fun _ => ⟨99, [0]⟩)
      (fun _ => ⟨0, []⟩) 0 s s := by
  obtain ⟨s, hrun, hs⟩ : ∃ s, (programs 3).Run ([] ++ [.move (.construct 0 (.attach [97, 98]))] ++
      [.move (.construct 1 (.ofBytes [98, 99]))] ++ [.move (.construct 2 (.ofBytes [120]))]) s ∧
      [.construct 0 (.attach [97, 98]), .construct 1 (.ofBytes [98, 99]),
        .construct 2 (.ofBytes [120])].foldlM (step fun _ _ => 0) (State.initial 3) = some s := by
    exact ⟨_, .next (.next (.next (.start rfl) ⟨fun _ _ => 0, .inl ⟨_, rfl, rfl⟩⟩)
      ⟨fun _ _ => 0, .inl ⟨_, rfl, rfl⟩⟩) ⟨fun _ _ => 0, .inl ⟨_, rfl, rfl⟩⟩, rfl⟩
  obtain ⟨vs, h⟩ := (programs_sound hrun).shows
  obtain ⟨hv, hw, hu, hmemory, hother⟩ : s.Value 0 [97, 98] ∧ s.Value 1 [98, 99] ∧ s.Value 2 [120] ∧
      s.InMemory (fun _ => ⟨99, [0]⟩) 0 [97, 98] [99, 0] ∧
      Returns (s.replace (fun _ _ => 0) (fun _ => ⟨0, []⟩) 0 1 2) s := by
    obtain rfl := Option.some.inj hs
    exact ⟨⟨_, _, _, rfl, rfl, rfl, rfl⟩, ⟨_, _, _, rfl, rfl, rfl, rfl⟩,
      ⟨_, _, _, rfl, rfl, rfl, rfl⟩, ⟨_, rfl, rfl, rfl⟩, 0, fun _ _ => rfl⟩
  have hnone : ∀ n, s.replace (fun _ _ => 0) (fun _ => ⟨99, [0]⟩) 0 1 2 n = none := by
    intro n
    refine Option.eq_none_iff_forall_not_mem.mpr fun s' hs' => ?_
    obtain ⟨c, rest, hmemory', ⟨-, hconfined⟩ | ⟨hself, -⟩⟩ :=
      confines_of_replace _ h (h.at hv) (h.at hw) (h.at hu) hs'
    · obtain ⟨this, hthis, -, hmemory⟩ := hmemory
      rw [← Option.some.inj (hmemory.symm.trans (hmemory'.cell hthis))] at hconfined
      exact not_confined_neighbour hconfined
    · exact absurd hself (by decide)
  refine ⟨s, _, hrun, hv, hw, hu, hnone, hother, ?_⟩
  rintro ⟨a, s₁, s₂, hreturns, -⟩
  exact not_returns (fun n => by rw [Query.run, hnone n]; rfl) hreturns

end Nstd.Strings
