import Nstd.Shared.StringSplit

/-!
# Tokens one by one

* `State.tokenChar`, `State.token` — `token` with a character, and with a string of separators.
* `cutAt` — the token that ends at a place, and where the next one begins.
* `State.Shows.tokenChar`, `State.Shows.token` — both functions cut at the separator that their search
  finds.
* `Progress` — the next token begins further on, and nothing is lost.
* `tokenLoop_returns` — calling one of them until the end is reached.
* **`token_refines`** — both give the same tokens, which are the rest of the string.
-/

namespace Nstd.Strings

open CStrings (strpbrk strchr)

/-! ## Functions -/

section

variable (memory : ℕ → ℕ → UInt8) (behind : ℕ → Behind)

/-- `find(char, usize)` -/
def State.findFrom (s : State) (x : ℕ) (c : UInt8) (start : ℕ) : Option (State × Option ℕ) :=
  s.searchFrom memory behind x start fun str => strchr str c start

/-- What `token` does with the end of a token, if it has found one: the token, which is a new variable,
    and the new `start` -/
def State.cut (s : State) (x start : ℕ) : Option ℕ → Option (State × ℕ)
  | some endStr => do
    let len := endStr - start
    let s ← s.substr memory behind x start len
    some (s, start + (len + 1))
  | none => do
    let s ← s.substr memory behind x start (-1)
    let (_, len) ← s.data behind x
    some (s, len)

/-- `token(char separator, usize& start)` -/
def State.tokenChar (s : State) (x : ℕ) (separator : UInt8) (start : ℕ) : Option (State × ℕ) := do
  let (s, endStr) ← s.findFrom memory behind x separator start
  match endStr with
  | some endStr => do
    -- `*this + start`
    let (s, _) ← s.chars memory behind x
    s.cut memory behind x start (some endStr)
  | none => s.cut memory behind x start none

/-- `token(const char* separators, usize& start)` -/
def State.token (s : State) (x : ℕ) (separators : CString) (start : ℕ) : Option (State × ℕ) := do
  let (s, str) ← s.chars memory behind x
  let endStr ← strpbrk str separators.memory start
  s.cut memory behind x start endStr

/-- A loop that calls `token` until `start` is the length of the string, `n` times at most: the
    variables that are the tokens -/
def State.tokenLoop (x : ℕ) (token : State → ℕ → Option (State × ℕ)) :
    ℕ → State → ℕ → List ℕ → Option (State × List ℕ)
  | 0, _, _, _ => none
  | n + 1, s, start, tokens => do
    let (_, len) ← s.data behind x
    if start = len then some (s, tokens)
    else do
      let result := s.vars.length
      let (s, start) ← token s start
      tokenLoop x token n s start (tokens ++ [result])

end

/-! ## What they find -/

/-- The token that ends at a place, or with the string, and where the next one begins -/
def cutAt (v : List UInt8) (start : ℕ) : Option ℕ → List UInt8 × ℕ
  | some endStr => (sub v start ((endStr - start : ℕ) : ℤ), start + (endStr - start + 1))
  | none => (sub v start (-1), v.length)

/-- What `find(char, usize)` finds -/
def charFrom (v : List UInt8) (c : UInt8) (start : ℕ) : Option ℕ :=
  if start ≥ v.length then none
  else ((cBytes (v.drop start) ++ [0]).findIdx? (· = c)).map (start + ·)

/-- What `strpbrk` finds from a place in the string on -/
def oneOfFrom (v chars : List UInt8) (start : ℕ) : Option ℕ :=
  ((cBytes (v.drop start)).findIdx? (· ∈ chars)).map (start + ·)

variable {memory : ℕ → ℕ → UInt8} {behind : ℕ → Behind} {s : State} {vs : Values} {x : ℕ}
  {v : List UInt8} {start : ℕ}

lemma State.Shows.findFrom (memory : ℕ → ℕ → UInt8) (behind : ℕ → Behind) (h : s.Shows vs)
    (hx : vs.at x = some v) (c : UInt8) (start : ℕ) : ∃ s',
      s.findFrom memory behind x c start = some (s', charFrom v c start) ∧ s'.Shows vs :=
  h.searchFrom memory behind hx fun hstart rest => CStrings.strchr_eq rest c hstart

lemma State.Shows.cut (memory : ℕ → ℕ → UInt8) (behind : ℕ → Behind) (h : s.Shows vs)
    (hx : vs.at x = some v) (start : ℕ) (endStr : Option ℕ) : ∃ s',
      s.cut memory behind x start endStr = some (s', (cutAt v start endStr).2) ∧
        s'.Shows (vs ++ [some (cutAt v start endStr).1]) := by
  cases endStr with
  | some endStr =>
    obtain ⟨s', hrun, h'⟩ := h.substr memory behind hx start ((endStr - start : ℕ) : ℤ)
    exact ⟨s', by simp only [State.cut, hrun]; rfl, h'⟩
  | none =>
    obtain ⟨s', hrun, h'⟩ := h.substr memory behind hx start (-1)
    obtain ⟨rest, hdata⟩ := h'.data behind (Values.at_append hx)
    exact ⟨s', by simp only [State.cut, hrun, hdata, Option.bind_eq_bind, Option.bind_some]; rfl, h'⟩

/-- **`token(char, usize&)`** -/
theorem State.Shows.tokenChar (memory : ℕ → ℕ → UInt8) (behind : ℕ → Behind) (h : s.Shows vs)
    (hx : vs.at x = some v) (c : UInt8) (start : ℕ) : ∃ s',
      s.tokenChar memory behind x c start
        = some (s', (cutAt v start (charFrom v c start)).2) ∧
      s'.Shows (vs ++ [some (cutAt v start (charFrom v c start)).1]) := by
  obtain ⟨s₁, hfind, h₁⟩ := h.findFrom memory behind hx c start
  cases hfound : charFrom v c start with
  | none =>
    obtain ⟨s₂, hcut, h₂⟩ := h₁.cut memory behind hx start none
    exact ⟨s₂, by simp [State.tokenChar, hfind, hfound, hcut], h₂⟩
  | some endStr =>
    obtain ⟨s₂, rest, hchars, h₂, -⟩ := h₁.chars memory behind hx
    obtain ⟨s₃, hcut, h₃⟩ := h₂.cut memory behind hx start (some endStr)
    exact ⟨s₃, by simp [State.tokenChar, hfind, hfound, hchars, hcut], h₃⟩

/-- **`token(const char*, usize&)`**, from a place in the string on -/
theorem State.Shows.token (memory : ℕ → ℕ → UInt8) (behind : ℕ → Behind) (h : s.Shows vs)
    (hx : vs.at x = some v) (separators : CString) (hstart : start ≤ v.length) : ∃ s',
      s.token memory behind x separators start
        = some (s', (cutAt v start (oneOfFrom v separators.bytes start)).2) ∧
      s'.Shows (vs ++ [some (cutAt v start (oneOfFrom v separators.bytes start)).1]) := by
  obtain ⟨s₁, rest, hchars, h₁, -⟩ := h.chars memory behind hx
  have hsearch := CStrings.strpbrk_eq (w := separators.bytes) rest [] hstart
  rw [Texts.takeWhile_of_not_mem separators.noNul] at hsearch
  obtain ⟨s₂, hcut, h₂⟩ :=
    h₁.cut memory behind hx start (oneOfFrom v separators.bytes start)
  refine ⟨s₂, ?_, h₂⟩
  simp only [State.token, hchars, CString.memory, hsearch, Option.bind_eq_bind, Option.bind_some]
  exact hcut

/-! ## Progress -/

/-- Both search for a separator in what is left. -/
lemma charFrom_eq {c : UInt8} (hc : c ≠ 0) (hv : 0 ∉ v) : charFrom v c start = oneOfFrom v [c] start := by
  have hleft : cBytes (v.drop start) = v.drop start :=
    Texts.takeWhile_of_not_mem fun hmem => hv (List.mem_of_mem_drop hmem)
  rw [charFrom, oneOfFrom, hleft]
  split_ifs with hend
  · rw [List.drop_of_length_le hend]
    rfl
  · have hzero : [(0 : UInt8)].findIdx? (· = c) = none := by simp [hc.symm]
    rw [List.findIdx?_append, hzero]
    simp

/-- The token from a place on, and where the next one begins, for one separator -/
def nextToken (v : List UInt8) (c : UInt8) (start : ℕ) : List UInt8 × ℕ :=
  cutAt v start (oneOfFrom v [c] start)

/-- **What a token is**: what is left, or what is in front of a separator. -/
lemma nextToken_cases {c : UInt8} (hv : 0 ∉ v) (hstart : start ≤ v.length) :
    nextToken v c start = (v.drop start, v.length) ∨
      ∃ w, nextToken v c start = (w, start + w.length + 1) ∧ start + w.length + 1 ≤ v.length ∧
        v.drop start = w ++ c :: v.drop (start + w.length + 1) := by
  have hleft : cBytes (v.drop start) = v.drop start :=
    Texts.takeWhile_of_not_mem fun hmem => hv (List.mem_of_mem_drop hmem)
  rw [nextToken, oneOfFrom, hleft]
  cases hfind : (v.drop start).findIdx? (· ∈ [c]) with
  | none =>
    left
    rw [Option.map_none, cutAt, sub_rest hstart]
  | some i =>
    right
    obtain ⟨hlt, hsep, -⟩ := List.findIdx?_eq_some_iff_getElem.mp hfind
    have hlt' := hlt
    rw [List.length_drop] at hlt'
    have hc : (v.drop start)[i] = c := List.mem_singleton.mp (of_decide_eq_true hsep)
    have hlength : ((v.drop start).take i).length = i := List.length_take_of_le (Nat.le_of_lt hlt)
    refine ⟨(v.drop start).take i, ?_, by omega, ?_⟩
    · rw [Option.map_some, cutAt, Nat.add_sub_cancel_left, sub_of_le (by omega), hlength,
        Nat.add_assoc]
    · have hsplit : v.drop start = (v.drop start).take i ++ (v.drop start)[i]
          :: (v.drop start).drop (i + 1) := by
        rw [List.getElem_cons_drop, List.take_append_drop]
      rw [hc, List.drop_drop, ← Nat.add_assoc] at hsplit
      rwa [hlength]

/-- The next token begins behind this one, and within the string. -/
lemma nextToken_progress {c : UInt8} (hv : 0 ∉ v) (hstart : start ≤ v.length) :
    start ≤ (nextToken v c start).2 ∧ (nextToken v c start).2 ≤ v.length ∧
      (start < v.length → start < (nextToken v c start).2) := by
  rcases nextToken_cases (c := c) hv hstart with hnext | ⟨w, hnext, hle, -⟩
  · rw [hnext]
    exact ⟨hstart, Nat.le_refl _, id⟩
  · rw [hnext]
    exact ⟨by omega, hle, fun _ => by omega⟩

/-- Tokens joined are a text, up to one separator behind it. -/
def Covers (c : UInt8) (ws : List (List UInt8)) (text : List UInt8) : Prop :=
  [c].intercalate ws = text ∨ [c].intercalate ws ++ [c] = text

/-- One more token in front -/
lemma Covers.cons {c : UInt8} {ws : List (List UInt8)} (hv : 0 ∉ v) (hstart : start ≤ v.length)
    (h : Covers c ws (v.drop (nextToken v c start).2))
    (hnil : ws = [] ↔ (nextToken v c start).2 = v.length) :
    Covers c ((nextToken v c start).1 :: ws) (v.drop start) := by
  rcases nextToken_cases (c := c) hv hstart with hnext | ⟨w, hnext, hle, hdrop⟩
  · rw [hnext] at hnil ⊢
    rw [hnil.mpr rfl]
    exact .inl (List.intercalate_singleton)
  · rw [hnext] at h hnil ⊢
    dsimp only at h hnil ⊢
    rw [hdrop]
    by_cases hws : ws = []
    · right
      rw [hws, List.intercalate_singleton, hnil.mp hws, List.drop_length]
    · have hjoin : [c].intercalate (w :: ws) = w ++ [c] ++ [c].intercalate ws :=
        List.intercalate_cons_of_ne_nil hws
      rw [Covers, hjoin, List.append_assoc, List.append_assoc, List.append_cancel_left_eq,
        List.append_assoc, List.append_cancel_left_eq]
      simpa [Covers] using h

/-! ## The loop -/

/-- `token` gives the next token. -/
def GivesNext (x : ℕ) (v : List UInt8) (c : UInt8) (token : State → ℕ → Option (State × ℕ)) : Prop :=
  ∀ (s : State) (vs : Values) (start : ℕ), s.Shows vs → vs.at x = some v → start ≤ v.length →
    ∃ s', token s start = some (s', (nextToken v c start).2) ∧
      s'.Shows (vs ++ [some (nextToken v c start).1])

lemma tokenChar_givesNext (memory : ℕ → ℕ → UInt8) (behind : ℕ → Behind) {c : UInt8} (hc : c ≠ 0)
    (hv : 0 ∉ v) : GivesNext x v c fun s => s.tokenChar memory behind x c := by
  intro s vs start h hx hstart
  have hrun := h.tokenChar memory behind hx c start
  rwa [charFrom_eq hc hv] at hrun

lemma token_givesNext (memory : ℕ → ℕ → UInt8) (behind : ℕ → Behind) {c : UInt8} (hc : c ≠ 0) :
    GivesNext x v c fun s => s.token memory behind x (.single c hc) :=
  fun _ _ _ h hx hstart => h.token memory behind hx (.single c hc) hstart

/-- **The loop ends**, and its tokens are what is left. -/
theorem tokenLoop_returns (behind : ℕ → Behind) {c : UInt8}
    {token : State → ℕ → Option (State × ℕ)} (htoken : GivesNext x v c token) (hv : 0 ∉ v) {k : ℕ} :
    ∀ {s : State} {vs : Values} {start : ℕ} (tokens : List ℕ), s.Shows vs → vs.at x = some v →
      v.length - start < k → start ≤ v.length → ∃ r ws, Appends vs tokens ws r ∧
        Returns (fun n => State.tokenLoop behind x token n s start tokens) r ∧
        Covers c ws (v.drop start) ∧ (ws = [] ↔ start = v.length) := by
  induction k with
  | zero => exact fun _ _ _ hk => absurd hk (Nat.not_lt_zero _)
  | succ k ih =>
    intro s vs start tokens h hx hk hstart
    obtain ⟨rest, hdata⟩ := h.data behind hx
    by_cases hend : start = v.length
    · refine ⟨(s, tokens), [], ⟨by simpa using h, by simp⟩, .stop fun n => ?_, .inl ?_, by simp [hend]⟩
      · simp [State.tokenLoop, hdata, hend]
      · rw [hend, List.drop_length]
        rfl
    · obtain ⟨s₁, hrun, h₁⟩ := htoken s vs start h hx hstart
      obtain ⟨hle, hle', hlt⟩ := nextToken_progress (c := c) hv hstart
      have hlt := hlt (Nat.lt_of_le_of_ne hstart hend)
      obtain ⟨r, ws, happends, hlater, hcovers, hnil⟩ := ih (tokens ++ [vs.length]) h₁
        (Values.at_append hx) (by omega) hle'
      refine ⟨r, (nextToken v c start).1 :: ws, ?_, hlater.next fun n => ?_,
        hcovers.cons hv hstart hnil, by simp [hend]⟩
      · have hfirst : Appends vs tokens [(nextToken v c start).1] (s₁, tokens ++ [vs.length]) :=
          ⟨h₁, rfl⟩
        exact hfirst.trans happends
      · rw [State.tokenLoop, hdata]
        simp only [Option.bind_eq_bind, Option.bind_some, if_neg hend, hrun, h.length]

/-! ## The theorem -/

/-- **Tokens.**  After any moves, whatever is behind attached strings: from any place in a string without
    zeros on, both functions give the same token and the same new place, which is not in front of the
    old one and is behind it in front of the end; and a loop that calls either of them until the end
    is reached ends, with tokens that are the rest of the string when they are joined, up to one
    separator behind them. -/
theorem token_refines (memory : ℕ → ℕ → UInt8) (behind : ℕ → Behind) (n : ℕ) (ms : List Move)
    {s : State} (hs : ms.foldlM (step memory) (State.initial n) = some s) {x : ℕ} {v : List UInt8}
    (hv : s.Value x v) (hnul : 0 ∉ v) {c : UInt8} (hc : c ≠ 0) {start : ℕ}
    (hstart : start ≤ v.length) :
    (∃ s₁ s₂ t start', s.tokenChar memory behind x c start = some (s₁, start') ∧
      s.token memory behind x (.single c hc) start = some (s₂, start') ∧
      s₁.Value s.vars.length t ∧ s₂.Value s.vars.length t ∧
      start ≤ start' ∧ start' ≤ v.length ∧ (start < v.length → start < start')) ∧
    ∀ token ∈ [fun s : State => s.tokenChar memory behind x c,
        fun s : State => s.token memory behind x (.single c hc)], ∃ r ws,
      Returns (fun rounds => State.tokenLoop behind x token rounds s start []) r ∧
        List.Forall₂ r.1.Value r.2 ws ∧ Covers c ws (v.drop start) := by
  obtain ⟨s₁, hrun, hsound⟩ := State.Sound.run memory (n := n) ms
  obtain rfl := Option.some.inj (hrun.symm.trans hs)
  obtain ⟨vs, h⟩ := hsound.shows
  have hx := h.at hv
  have hchar := tokenChar_givesNext (x := x) memory behind hc hnul
  have hstring := token_givesNext (x := x) (v := v) memory behind hc
  refine ⟨?_, fun token htoken => ?_⟩
  · obtain ⟨s₁, hrun₁, h₁⟩ := hchar _ vs start h hx hstart
    obtain ⟨s₂, hrun₂, h₂⟩ := hstring _ vs start h hx hstart
    have hnew : Values.at (vs ++ [some (nextToken v c start).1]) vs.length
        = some (nextToken v c start).1 := by
      rw [Values.at_push, if_pos rfl]
    rw [h.length]
    exact ⟨s₁, s₂, _, _, hrun₁, hrun₂, h₁.value _ _ hnew, h₂.value _ _ hnew,
      nextToken_progress hnul hstart⟩
  · have hnext : GivesNext x v c token := by
      rcases List.mem_cons.mp htoken with rfl | htoken
      · exact hchar
      · rw [List.mem_singleton.mp htoken]
        exact hstring
    obtain ⟨r, ws, ⟨hshows, htokens⟩, hloop, hcovers, -⟩ :=
      tokenLoop_returns behind hnext hnul [] h hx (Nat.lt_succ_self _) hstart
    rw [List.nil_append] at htokens
    exact ⟨r, ws, hloop, htokens ▸ hshows.newValues, hcovers⟩

/-- The second token of `"a,b"` -/
theorem token_refines_comma : ∃ s, [.construct 0 (.attach [97, 44, 98])].foldlM
      (step fun _ _ => 0) (State.initial 1) = some s ∧
    ∃ s₁ s₂ t start', s.tokenChar (fun _ _ => 0) (fun _ => ⟨44, []⟩) 0 44 2 = some (s₁, start') ∧
      s.token (fun _ _ => 0) (fun _ => ⟨44, []⟩) 0 (.single 44 (by decide)) 2 = some (s₂, start') ∧
      s₁.Value s.vars.length t ∧ s₂.Value s.vars.length t ∧
      2 ≤ start' ∧ start' ≤ 3 ∧ (2 < 3 → 2 < start') := by
  obtain ⟨s, hs, -⟩ :=
    State.Sound.run (fun _ _ => 0) (n := 1) [.construct 0 (.attach [97, 44, 98])]
  have hvalue : s.Value 0 [97, 44, 98] := by
    obtain rfl := Option.some.inj hs
    exact ⟨_, _, _, rfl, rfl, rfl, rfl⟩
  exact ⟨s, hs, (token_refines _ (fun _ => ⟨44, []⟩) 1 _ hs hvalue (by decide)
    (show (44 : UInt8) ≠ 0 by decide) (show 2 ≤ [97, 44, (98 : UInt8)].length by decide)).1⟩

end Nstd.Strings
