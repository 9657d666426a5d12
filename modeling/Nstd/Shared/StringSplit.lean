import Mathlib.Data.List.Forall2
import Nstd.Core.Pieces
import Nstd.Shared.StringCompare
import Nstd.Shared.StringMembers
import Nstd.Shared.StringSearch

/-!
# Splitting and joining

* `State.split` — `split` into a list, whose strings are variables.
* `pieces` — what is between separators; behind a zero is no separator.
* `splitLoop_returns` — the loop appends the pieces of what is left.
* `State.Shows.split`, `State.Shows.join` — what the strings show afterwards.
* **`split_join`** — joining is the inverse of splitting at one character, and the other way round;
  without empty tokens the result are the maximal pieces.

A piece has no separator inside and ends at one, so joining the pieces puts back what was taken away.
-/

namespace Nstd

/-- A C string of one character -/
def CString.single (c : UInt8) (hc : c ≠ 0) : CString := ⟨[c], by simpa using hc.symm⟩

namespace Strings

open CStrings (strpbrk)

/-! ## Functions -/

section

variable (memory : ℕ → ℕ → UInt8) (behind : ℕ → Behind)

/-- `tokens.append(substr(start, length))`: the new variable is the string in the list. -/
def State.appendSubstr (s : State) (tokens : List ℕ) (x : ℕ) (start length : ℤ) :
    Option (State × List ℕ) := do
  let token := s.vars.length
  let s ← s.substr memory behind x start length
  some (s, tokens ++ [token])

/-- `if(!skipEmpty) tokens.append(String())` -/
def State.appendEmpty (s : State) (tokens : List ℕ) (skipEmpty : Bool) : Option (State × List ℕ) :=
  if !skipEmpty then do
    let token := s.vars.length
    let s ← s.make memory .default
    some (s, tokens ++ [token])
  else some (s, tokens)

/-- The loop of `split`, for a number of rounds; `str` is the memory that `start` points to. -/
def State.splitLoop (x : ℕ) (str separators : List UInt8) (skipEmpty : Bool) :
    ℕ → State → List ℕ → ℕ → Option (State × List ℕ)
  | 0, _, _, _ => none
  | n + 1, s, tokens, p => do
    let endStr ← strpbrk str separators p
    match endStr with
    | some endStr =>
      let len := endStr - p
      if len ≠ 0 then do
        let (s, tokens) ← s.appendSubstr memory behind tokens x p len
        splitLoop x str separators skipEmpty n s tokens (endStr + 1)
      else do
        let (s, tokens) ← s.appendEmpty memory tokens skipEmpty
        splitLoop x str separators skipEmpty n s tokens (p + 1)
    | none => do
      let (_, len) ← s.data behind x
      if p < len then s.appendSubstr memory behind tokens x p (-1)
      else s.appendEmpty memory tokens skipEmpty

/-- `split(List<String>& tokens, const char* separators, bool skipEmpty)`: what is in the list, and its
    size.  `tokens` are the variables that are the strings of the list. -/
def State.split (s : State) (x : ℕ) (tokens : List ℕ) (separators : CString) (skipEmpty : Bool)
    (n : ℕ) : Option (State × List ℕ × ℕ) := do
  -- `tokens.clear()`
  let s ← tokens.foldlM (fun s token => step memory s (.destroy token)) s
  let (s, str) ← s.chars memory behind x
  let (s, tokens) ← s.splitLoop memory behind x str separators.memory skipEmpty n [] 0
  some (s, tokens, tokens.length)

end

/-! ## Pieces -/

/-- What is between separators; the search for them ends at the first zero. -/
def pieces (separators : List UInt8) : List UInt8 → List (List UInt8)
  | [] => [[]]
  | c :: v =>
    if c = 0 then [c :: v]
    else if c ∈ separators then [] :: pieces separators v
    else (pieces separators v).modifyHead (c :: ·)

/-- The tokens that are in the list -/
def kept (skipEmpty : Bool) (ws : List (List UInt8)) : List (List UInt8) :=
  if skipEmpty then ws.filter (· ≠ []) else ws

variable {separators v : List UInt8}

lemma pieces_eq (h : 0 ∉ v) : pieces separators v = v.splitOnP (· ∈ separators) := by
  induction v with
  | nil => rfl
  | cons c v ih =>
    have hc : c ≠ 0 := fun hc => h (hc ▸ List.mem_cons_self)
    rw [pieces, if_neg hc, ih fun hmem => h (List.mem_cons_of_mem c hmem),
      List.splitOnP_cons_eq_if_modifyHead]
    simp only [decide_eq_true_eq]

lemma pieces_of_none (h : (cBytes v).findIdx? (· ∈ separators) = none) : pieces separators v = [v] := by
  induction v with
  | nil => rfl
  | cons c v ih =>
    by_cases hc : c = 0
    · rw [pieces, if_pos hc]
    · rw [cBytes, List.takeWhile_cons_of_pos (by simpa using hc), List.findIdx?_cons] at h
      split_ifs at h with hsep
      rw [pieces, if_neg hc, if_neg (by simpa using hsep),
        ih (by simpa [cBytes] using h), List.modifyHead_cons]

lemma pieces_of_some {i : ℕ} (h : (cBytes v).findIdx? (· ∈ separators) = some i) :
    pieces separators v = v.take i :: pieces separators (v.drop (i + 1)) ∧ i < v.length := by
  induction v generalizing i with
  | nil => simp [cBytes] at h
  | cons c v ih =>
    by_cases hc : c = 0
    · simp [cBytes, hc] at h
    · rw [cBytes, List.takeWhile_cons_of_pos (by simpa using hc), List.findIdx?_cons] at h
      rw [pieces, if_neg hc]
      split_ifs at h with hsep
      · obtain rfl := Option.some.inj h
        rw [if_pos (by simpa using hsep)]
        exact ⟨rfl, Nat.succ_pos _⟩
      · obtain ⟨j, hj, rfl⟩ := Option.map_eq_some_iff.mp h
        obtain ⟨hpieces, hlt⟩ := ih hj
        rw [if_neg (by simpa using hsep), hpieces, List.modifyHead_cons]
        exact ⟨rfl, Nat.succ_lt_succ hlt⟩

/-! ## Splitting -/

variable {memory : ℕ → ℕ → UInt8} {behind : ℕ → Behind} {s : State} {vs : Values} {x : ℕ}
  {rest : List UInt8} {tokens : List ℕ} {skipEmpty : Bool}

lemma State.Shows.appendSubstr (memory : ℕ → ℕ → UInt8) (behind : ℕ → Behind) (h : s.Shows vs)
    (hx : vs.at x = some v) (tokens : List ℕ) (start length : ℤ) : ∃ s',
      s.appendSubstr memory behind tokens x start length = some (s', tokens ++ [vs.length]) ∧
        s'.Shows (vs ++ [some (sub v start length)]) := by
  obtain ⟨s', hrun, hshows⟩ := h.substr memory behind hx start length
  exact ⟨s', by simp [State.appendSubstr, hrun, h.length], hshows⟩

/-- **Tokens are appended**: the new variables show them, and are in the list. -/
def Appends (vs : Values) (tokens : List ℕ) (ws : List (List UInt8)) (r : State × List ℕ) : Prop :=
  r.1.Shows (vs ++ ws.map some) ∧ r.2 = tokens ++ List.range' vs.length ws.length

lemma Appends.trans {ws ws' : List (List UInt8)} {r r' : State × List ℕ}
    (h : Appends vs tokens ws r) (h' : Appends (vs ++ ws.map some) r.2 ws' r') :
    Appends vs tokens (ws ++ ws') r' := by
  obtain ⟨hshows, htokens⟩ := h'
  refine ⟨?_, ?_⟩
  · rwa [List.map_append, ← List.append_assoc]
  · rw [htokens, h.2, List.append_assoc, List.length_append, List.length_map, List.length_append,
      ← List.range'_append_1]

/-- **A token** is appended if it is not empty, or if empty ones are kept. -/
lemma State.Shows.appendToken (memory : ℕ → ℕ → UInt8) (behind : ℕ → Behind) (h : s.Shows vs)
    (hx : vs.at x = some v) (tokens : List ℕ) (skipEmpty : Bool) {p : Prop} [Decidable p]
    {start length : ℤ} {w : List UInt8} (hw : sub v start length = w) (hp : p ↔ w ≠ []) : ∃ r,
      (if p then s.appendSubstr memory behind tokens x start length
        else s.appendEmpty memory tokens skipEmpty) = some r ∧
      Appends vs tokens (kept skipEmpty [w]) r := by
  by_cases hnil : w = []
  · rw [if_neg (mt hp.mp (not_not.mpr hnil)), hnil]
    cases skipEmpty with
    | true => exact ⟨(s, tokens), rfl, by simpa [kept] using h, by simp [kept]⟩
    | false =>
      obtain ⟨s', hrun, hshows⟩ := h.empty memory
      exact ⟨(s', tokens ++ [vs.length]), by simp [State.appendEmpty, hrun, h.length], hshows, rfl⟩
  · have hkept : kept skipEmpty [w] = [w] := by cases skipEmpty <;> simp [kept, hnil]
    obtain ⟨s', hrun, hshows⟩ := h.appendSubstr memory behind hx tokens start length
    rw [if_pos (hp.mpr hnil), hkept]
    rw [hw] at hshows
    exact ⟨_, hrun, hshows, rfl⟩

lemma kept_cons (skipEmpty : Bool) (w : List UInt8) (ws : List (List UInt8)) :
    kept skipEmpty (w :: ws) = kept skipEmpty [w] ++ kept skipEmpty ws := by
  cases skipEmpty with
  | true =>
    simp only [kept, if_true]
    exact List.filter_append [w] ws
  | false => rfl

/-- **The loop** appends the pieces of what is left. -/
theorem splitLoop_returns (memory : ℕ → ℕ → UInt8) (behind : ℕ → Behind) (separators : CString)
    (skipEmpty : Bool) (rest : List UInt8) {k : ℕ} : ∀ {s : State} {vs : Values} {p : ℕ}
      (tokens : List ℕ), s.Shows vs → vs.at x = some v → v.length - p < k → p ≤ v.length → ∃ r,
        Appends vs tokens (kept skipEmpty (pieces separators.bytes (v.drop p))) r ∧
          Returns (fun n => s.splitLoop memory behind x (v ++ 0 :: rest) separators.memory skipEmpty n
            tokens p) r := by
  induction k with
  | zero => exact fun _ _ _ hk => absurd hk (Nat.not_lt_zero _)
  | succ k ih =>
    intro s vs p tokens h hx hk hp
    have hsearch := CStrings.strpbrk_eq (w := separators.bytes) rest [] hp
    rw [Texts.takeWhile_of_not_mem separators.noNul] at hsearch
    cases hfind : (cBytes (v.drop p)).findIdx? (· ∈ separators.bytes) with
    | none =>
      rw [← cBytes, hfind] at hsearch
      obtain ⟨rest', hdata⟩ := h.data behind hx
      have hend : p < v.length ↔ v.drop p ≠ [] := by
        rw [ne_eq, List.drop_eq_nil_iff, Nat.not_le]
      obtain ⟨r, hrun, happends⟩ :=
        h.appendToken memory behind hx tokens skipEmpty (sub_rest hp) hend
      rw [pieces_of_none hfind]
      refine ⟨r, happends, .stop fun n => ?_⟩
      rw [State.splitLoop, CString.memory, hsearch]
      simpa [hdata] using hrun
    | some i =>
      rw [← cBytes, hfind] at hsearch
      obtain ⟨hpieces, hlt⟩ := pieces_of_some hfind
      rw [List.length_drop] at hlt
      have htoken : i ≠ 0 ↔ (v.drop p).take i ≠ [] := by
        rw [ne_eq, ne_eq, ← List.length_eq_zero_iff,
          List.length_take_of_le (by rw [List.length_drop]; omega)]
      obtain ⟨r, hrun, happends⟩ := h.appendToken memory behind hx tokens skipEmpty
        (sub_of_le (i := p) (n := i) (by omega)) htoken
      obtain ⟨r', happends', hlater⟩ := ih r.2 happends.1 (p := p + i + 1)
        (Values.at_append hx) (by omega) (by omega)
      rw [hpieces, kept_cons, List.drop_drop, ← Nat.add_assoc]
      refine ⟨r', happends.trans happends', hlater.next fun n => ?_⟩
      rw [State.splitLoop, CString.memory, hsearch]
      simp only [Option.map_some, Option.bind_eq_bind, Option.bind_some, Nat.add_sub_cancel_left]
      -- both branches go on behind the separator
      by_cases hi : i = 0
      · subst hi
        simp only [ne_eq, not_true_eq_false, if_false] at hrun ⊢
        rw [hrun]
        rfl
      · rw [if_pos hi] at hrun ⊢
        rw [hrun]
        rfl

/-- The strings of a list are destroyed. -/
def Values.clear (vs : Values) (tokens : List ℕ) : Values :=
  tokens.foldl (fun vs token => vs.set token none) vs

lemma State.Shows.clearTokens (memory : ℕ → ℕ → UInt8) (h : s.Shows vs) (tokens : List ℕ) : ∃ s',
    tokens.foldlM (fun s token => step memory s (.destroy token)) s = some s' ∧
      s'.Shows (vs.clear tokens) := by
  induction tokens generalizing s vs with
  | nil => exact ⟨s, rfl, h⟩
  | cons token tokens ih =>
    obtain ⟨s₁, hstep, hshows₁⟩ := h.destroy memory token
    obtain ⟨s₂, hrun, hshows₂⟩ := ih hshows₁
    exact ⟨s₂, by rw [List.foldlM_cons, hstep]; exact hrun, hshows₂⟩

lemma Values.at_clear (hx : vs.at x = some v) (hnot : x ∉ tokens) :
    Values.at (vs.clear tokens) x = some v := by
  induction tokens generalizing vs with
  | nil => exact hx
  | cons token tokens ih =>
    refine ih ?_ fun hmem => hnot (List.mem_cons_of_mem token hmem)
    have hne : token ≠ x := fun heq => hnot (heq ▸ List.mem_cons_self)
    rw [Values.at, List.getElem?_set_ne hne]
    exact hx

/-- `split` gives a list of strings, which are new variables, and their number. -/
def State.Splits (memory : ℕ → ℕ → UInt8) (behind : ℕ → Behind) (s : State) (x : ℕ)
    (old : List ℕ) (separators : CString) (skipEmpty : Bool) (s' : State) (tokens : List ℕ)
    (ws : List (List UInt8)) : Prop :=
  Returns (s.split memory behind x old separators skipEmpty) (s', tokens, ws.length) ∧
    List.Forall₂ s'.Value tokens ws

/-- The new variables of a state -/
lemma State.Shows.newValues {ws : List (List UInt8)} (h : s.Shows (vs ++ ws.map some)) :
    List.Forall₂ s.Value (List.range' vs.length ws.length) ws := by
  refine List.forall₂_iff_get.mpr ⟨List.length_range', fun i hi hi' => h.value _ _ ?_⟩
  rw [Values.at, List.get_eq_getElem, List.getElem_range', List.getElem?_append_right (by omega)]
  simp [List.getElem?_eq_getElem hi']

/-- **`split`**, into a list in which the string itself is not -/
theorem State.Shows.split (memory : ℕ → ℕ → UInt8) (behind : ℕ → Behind) (h : s.Shows vs)
    (hx : vs.at x = some v) (hnot : x ∉ tokens) (separators : CString) (skipEmpty : Bool) : ∃ s',
      s'.Shows (vs.clear tokens ++ (kept skipEmpty (pieces separators.bytes v)).map some) ∧
        Returns (s.split memory behind x tokens separators skipEmpty) (s',
          List.range' (vs.clear tokens).length (kept skipEmpty (pieces separators.bytes v)).length,
          (kept skipEmpty (pieces separators.bytes v)).length) := by
  obtain ⟨s₁, hclear, h₁⟩ := h.clearTokens memory tokens
  have hx₁ := Values.at_clear hx hnot
  obtain ⟨s₂, rest, hchars, h₂, -⟩ := h₁.chars memory behind hx₁
  obtain ⟨⟨s₃, tokens'⟩, ⟨h₃, htokens⟩, k, hloop⟩ := splitLoop_returns memory behind separators
    skipEmpty rest [] h₂ hx₁ (Nat.lt_succ_self _) (Nat.zero_le _)
  rw [List.drop_zero] at h₃ htokens
  simp only [List.nil_append] at htokens
  refine ⟨s₃, h₃, k, fun n hn => ?_⟩
  have hlength : tokens'.length = (kept skipEmpty (pieces separators.bytes v)).length := by
    rw [htokens, List.length_range']
  rw [State.split, hclear]
  simp [hchars, hloop n hn, htokens]

/-! ## Joining -/

/-- What `join` appends -/
lemma State.Shows.joinLoop (memory : ℕ → ℕ → UInt8) (separator : UInt8) {ws : List (List UInt8)}
    (hws : List.Forall₂ (fun token w => vs.at token = some w) tokens ws) :
    ∀ {s : State} {acc : List UInt8}, x < vs.length → s.Shows (vs.set x (some acc)) → x ∉ tokens →
      ∃ s', s.joinLoop memory x separator tokens = some s' ∧
        s'.Shows (vs.set x (some (acc ++ [separator].intercalate ws))) := by
  -- the strings of the list are as they were
  have hother : ∀ {acc w : List UInt8} {token : ℕ}, x < vs.length → token ≠ x →
      vs.at token = some w → Values.at (vs.set x (some acc)) token = some w := by
    intro acc w token hx hne hw
    rw [Values.at_set _ hx, if_neg hne, hw]
  have hself : ∀ {acc : List UInt8}, x < vs.length → Values.at (vs.set x (some acc)) x = some acc := by
    intro acc hx
    rw [Values.at_set _ hx, if_pos rfl]
  induction hws with
  | nil => exact fun _ h _ => ⟨_, rfl, by simpa using h⟩
  | @cons token w tokens ws hw hws ih =>
    intro s acc hx h hnot
    obtain ⟨hne, hnot⟩ := not_or.mp (mt List.mem_cons.mpr hnot)
    have hv := h.value x acc (hself hx)
    have hw' := h.value token w (hother hx (Ne.symm hne) hw)
    obtain ⟨s₁, happend, hsets₁⟩ := step_append memory h.sound hv hw'
    have h₁ := h.set hsets₁.toLeaves hsets₁.sets
    rw [List.set_set] at h₁
    cases hws with
    | nil => exact ⟨s₁, happend, by simpa using h₁⟩
    | @cons token' w' tokens ws hw' hws =>
      obtain ⟨s₂, hseparator, hsets₂⟩ := step_appendBytes memory h₁.sound [separator]
        (h₁.value x _ (hself hx))
      have h₂ := h₁.set hsets₂.toLeaves hsets₂.sets
      rw [List.set_set] at h₂
      obtain ⟨s₃, hrun, h₃⟩ := ih hx h₂ hnot
      refine ⟨s₃, ?_, ?_⟩
      · rw [State.joinLoop, happend]
        simp only [Option.bind_eq_bind, Option.bind_some, hseparator]
        exact hrun
      · rw [List.intercalate_cons_cons]
        simpa only [List.append_assoc] using h₃

/-- **`join`** of a list in which the string itself is not -/
theorem State.Shows.join (memory : ℕ → ℕ → UInt8) (separator : UInt8) (h : s.Shows vs)
    (hx : vs.at x = some v) {ws : List (List UInt8)}
    (hws : List.Forall₂ (fun token w => vs.at token = some w) tokens ws) (hnot : x ∉ tokens) :
    ∃ s', s.join memory x tokens separator = some s' ∧
      s'.Shows (vs.set x (some ([separator].intercalate ws))) := by
  obtain ⟨s₁, hclear, hsets⟩ := step_clear memory h.sound (h.value x v hx)
  obtain ⟨s₂, hrun, h₂⟩ := State.Shows.joinLoop memory separator hws (Values.lt_of_at hx)
    (h.set hsets.toLeaves hsets.sets) hnot
  exact ⟨s₂, by simp [State.join, hclear, hrun], h₂⟩

/-! ## The theorem -/

/-- One separator -/
lemma kept_pieces_single {c : UInt8} (hc : c ≠ 0) (hv : 0 ∉ v) :
    kept false (pieces (CString.single c hc).bytes v) = v.splitOn c := by
  have hsep : (fun d => decide (d ∈ (CString.single c hc).bytes)) = fun d => d == c := by
    funext d
    simp [CString.single, beq_eq_decide]
  rw [kept, if_neg Bool.false_ne_true, pieces_eq hv, hsep, List.splitOn_eq_splitOnP]

lemma noNul_intercalate {c : UInt8} (hc : c ≠ 0) {ws : List (List UInt8)} (h : ∀ w ∈ ws, 0 ∉ w) :
    0 ∉ [c].intercalate ws := by
  induction ws with
  | nil => simp
  | cons w ws ih =>
    cases ws with
    | nil => simpa using h
    | cons w' ws =>
      obtain ⟨hw, hws⟩ := List.forall_mem_cons.mp h
      rw [List.intercalate_cons_cons]
      simp only [List.mem_append, List.mem_singleton, not_or]
      exact ⟨⟨hw, hc.symm⟩, ih hws⟩

/-- **Splitting and joining.**  After any moves, whatever is behind attached strings: what `split` gives
    for a string without zeros and one separator, empty tokens included, is joined to the string
    again; a list that is not empty is what the string that it is joined to is split into, if the
    separator and zeros are not in its tokens; and without empty tokens `split` gives the maximal
    pieces, for any separators.  The number that is returned is that of the tokens. -/
theorem split_join (memory : ℕ → ℕ → UInt8) (behind : ℕ → Behind) (n : ℕ) (ms : List Move)
    {s : State} (hs : ms.foldlM (step memory) (State.initial n) = some s) :
    (∀ (c : UInt8) (hc : c ≠ 0) (x : ℕ) (v : List UInt8) (old : List ℕ), s.Value x v → 0 ∉ v →
      x ∉ old → ∃ s' tokens ws, s.Splits memory behind x old (.single c hc) false s' tokens ws ∧
        ∀ r u, s'.Value r u → r ∉ tokens →
          ∃ s'', s'.join memory r tokens c = some s'' ∧ s''.Value r v) ∧
    (∀ (c : UInt8) (hc : c ≠ 0) (r : ℕ) (u : List UInt8) (tokens : List ℕ) (ws : List (List UInt8)),
      List.Forall₂ s.Value tokens ws → ws ≠ [] → (∀ w ∈ ws, 0 ∉ w ∧ c ∉ w) → s.Value r u →
      r ∉ tokens → ∃ s', s.join memory r tokens c = some s' ∧ ∀ old, r ∉ old →
        ∃ s'' tokens', s'.Splits memory behind r old (.single c hc) false s'' tokens' ws) ∧
    ∀ (separators : CString) (x : ℕ) (v : List UInt8) (old : List ℕ), s.Value x v → 0 ∉ v →
      x ∉ old → ∃ s' tokens ws, s.Splits memory behind x old separators true s' tokens ws ∧
        Pieces.Maximal (· ∈ separators.bytes) v ws := by
  obtain ⟨s₁, hrun, hsound⟩ := State.Sound.run memory (n := n) ms
  obtain rfl := Option.some.inj (hrun.symm.trans hs)
  obtain ⟨vs, h⟩ := hsound.shows
  refine ⟨fun c hc x v old hv hnul hnot => ?_,
    fun c hc r u tokens ws hws hne hnone hu hnot => ?_,
    fun separators x v old hv hnul hnot => ?_⟩
  · obtain ⟨s', h', hsplit⟩ := h.split memory behind (h.at hv) hnot (.single c hc) false
    rw [kept_pieces_single hc hnul] at h' hsplit
    have htokens := h'.newValues
    refine ⟨s', _, _, ⟨hsplit, htokens⟩, fun r u hu hr => ?_⟩
    obtain ⟨s'', hjoin, h''⟩ :=
      h'.join memory c (h'.at hu) (htokens.imp fun _ _ hw => h'.at hw) hr
    rw [List.intercalate_splitOn] at h''
    refine ⟨s'', hjoin, h''.value r v ?_⟩
    rw [Values.at_set _ (Values.lt_of_at (h'.at hu)), if_pos rfl]
  · obtain ⟨s', hjoin, h'⟩ := h.join memory c (h.at hu) (hws.imp fun _ _ hw => h.at hw) hnot
    refine ⟨s', hjoin, fun old hold => ?_⟩
    have hr : Values.at (vs.set r (some ([c].intercalate ws))) r = some ([c].intercalate ws) := by
      rw [Values.at_set _ (Values.lt_of_at (h.at hu)), if_pos rfl]
    obtain ⟨s'', h'', hsplit⟩ := h'.split memory behind hr hold (.single c hc) false
    rw [kept_pieces_single hc (noNul_intercalate hc fun w hw => (hnone w hw).1),
      List.splitOn_intercalate c (fun w hw => (hnone w hw).2) hne] at h'' hsplit
    exact ⟨s'', _, hsplit, h''.newValues⟩
  · obtain ⟨s', h', hsplit⟩ := h.split memory behind (h.at hv) hnot separators true
    refine ⟨s', _, _, ⟨hsplit, h'.newValues⟩, ?_⟩
    rw [kept, if_pos rfl, pieces_eq hnul]
    exact Pieces.pieces_splitOnP _ v

/-- `",a,"`, split at commas -/
theorem split_join_commas : ∃ s, [.construct 0 (.ofBytes [44, 97, 44]), .construct 1 .default].foldlM
      (step fun _ _ => 0) (State.initial 2) = some s ∧
    ∃ s' tokens ws, s.Splits (fun _ _ => 0) (fun _ => ⟨0, []⟩) 0 [] (.single 44 (by decide)) false
        s' tokens ws ∧
      ∀ r u, s'.Value r u → r ∉ tokens →
        ∃ s'', s'.join (fun _ _ => 0) r tokens 44 = some s'' ∧ s''.Value r [44, 97, 44] := by
  obtain ⟨s, hs, -⟩ := State.Sound.run (fun _ _ => 0) (n := 2)
    [.construct 0 (.ofBytes [44, 97, 44]), .construct 1 .default]
  have hvalue : s.Value 0 [44, 97, 44] := by
    obtain rfl := Option.some.inj hs
    exact ⟨_, _, _, rfl, rfl, rfl, rfl⟩
  exact ⟨s, hs, (split_join _ (fun _ => ⟨0, []⟩) 2 _ hs).1 44 (by decide) 0 _ [] hvalue (by decide)
    List.not_mem_nil⟩

end Strings

end Nstd
