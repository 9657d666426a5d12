import Nstd.Document.JsonLexer

/-!
# Line numbers of the JSON parser

* `Mode`, `mode` — whether a text ends in a string, and whether behind a backslash there.
* `Overlooked` — a line ends directly behind such a backslash.
* `Reached` — the parser's positions, with the lines that it has counted.
* `parse_ends` — whatever the beginning of the text is taken to be, the parser ends alike, and reports
  errors at such positions.
* **`line_iff`** — the line of an error is right exactly if no line end in front of it is overlooked and
  its number is an `int`.
-/

namespace Nstd.Json

/-! ## Counting lines -/

/-- Where a byte can be -/
inductive Mode
  | outside
  | string
  | escape
  deriving DecidableEq

/-- Behind the byte `c` -/
def Mode.next (m : Mode) (c : UInt8) : Mode :=
  match m with
  | outside => if c = ch '"' then string else outside
  | string => if c = ch '\\' then escape else if c = ch '"' then outside else string
  | escape => string

/-- Behind a text -/
def mode (u : List UInt8) : Mode := u.foldl Mode.next .outside

lemma mode_append (u v : List UInt8) : mode (u ++ v) = v.foldl Mode.next (mode u) :=
  List.foldl_append

/-- In `u`, in front of `s`, a line ends directly behind a backslash in a string. -/
def Overlooked (u s : List UInt8) : Prop :=
  ∃ v c w, u = v ++ c :: w ∧ mode v = .escape ∧ EndsLine c (w ++ s)

lemma not_overlooked_nil (s : List UInt8) : ¬ Overlooked [] s := by
  rintro ⟨v, c, w, h, -⟩
  exact absurd h (by simp)

lemma overlooked_append_singleton (u : List UInt8) (c : UInt8) (s : List UInt8) :
    Overlooked (u ++ [c]) s ↔ Overlooked u (c :: s) ∨ mode u = .escape ∧ EndsLine c s := by
  constructor
  · rintro ⟨v, d, w, h, hmode, hends⟩
    rcases List.eq_nil_or_concat w with rfl | ⟨w, e, rfl⟩
    · obtain ⟨rfl, hd⟩ := List.append_inj' h rfl
      obtain rfl := (List.cons.inj hd).1
      exact Or.inr ⟨hmode, hends⟩
    · rw [List.concat_eq_append, ← List.cons_append, ← List.append_assoc] at h
      obtain ⟨rfl, he⟩ := List.append_inj' h rfl
      obtain rfl := (List.cons.inj he).1
      refine Or.inl ⟨v, d, w, rfl, hmode, ?_⟩
      rwa [List.concat_eq_append, List.append_assoc] at hends
  · rintro (⟨v, d, w, rfl, hmode, hends⟩ | ⟨hmode, hends⟩)
    · exact ⟨v, d, w ++ [c], by simp, hmode, by rwa [List.append_assoc]⟩
    · exact ⟨u, c, [], rfl, hmode, hends⟩

/-- The parser gets to `pos`, with all lines counted but those that are overlooked. -/
def Reached (text : List UInt8) (m : Mode) (pos : Position) : Prop :=
  ∃ u n k, text = u ++ pos.pos ∧ mode u = m ∧ pos.line = further 1 n ∧
    n + k = lineEnds u pos.pos ∧ (k = 0 ↔ ¬ Overlooked u pos.pos)

variable {text : List UInt8} {m : Mode} {line : Int32} {c : UInt8} {s : List UInt8}

lemma reached_start (text : List UInt8) : Reached text .outside ⟨1, text⟩ :=
  ⟨[], 0, 0, rfl, rfl, rfl, rfl, iff_of_true rfl (not_overlooked_nil text)⟩

/-- A byte that is no line end, or one that is counted -/
lemma Reached.count (h : Reached text m ⟨line, c :: s⟩) (hm : m ≠ .escape) :
    Reached text (m.next c) ⟨further line (lineEnds [c] s), s⟩ := by
  obtain ⟨u, n, k, htext, rfl, hline, hn, hiff⟩ := h
  refine ⟨u ++ [c], n + lineEnds [c] s, k, by rw [htext, List.append_assoc]; rfl, mode_append u [c],
    ?_, ?_, ?_⟩
  · rw [← further_further, ← hline]
  · rw [lineEnds_append, List.singleton_append]
    dsimp only at hn ⊢
    omega
  · rw [hiff, overlooked_append_singleton]
    simp [hm]

/-- A byte behind a backslash -/
lemma Reached.escape (h : Reached text .escape ⟨line, c :: s⟩) : Reached text .string ⟨line, s⟩ := by
  obtain ⟨u, n, k, htext, hmode, hline, hn, hiff⟩ := h
  refine ⟨u ++ [c], n, k + lineEnds [c] s, by rw [htext, List.append_assoc]; rfl, ?_, hline, ?_, ?_⟩
  · rw [mode_append, hmode]
    rfl
  · rw [lineEnds_append, List.singleton_append]
    dsimp only at hn ⊢
    omega
  · rw [Nat.add_eq_zero_iff, hiff, lineEnds_singleton_eq_zero, overlooked_append_singleton]
    simp [hmode, not_or]

/-- Bytes that are no line ends and do not change the mode -/
lemma Reached.pass {u : List UInt8} (hm : m ≠ .escape)
    (hu : ∀ c ∈ u, (c ≠ ch '\r' ∧ c ≠ ch '\n') ∧ m.next c = m) :
    Reached text m ⟨line, u ++ s⟩ → Reached text m ⟨line, s⟩ := by
  induction u with
  | nil => exact id
  | cons c u ih =>
    intro h
    obtain ⟨⟨hcr, hlf⟩, hnext⟩ := hu c List.mem_cons_self
    have hcount := h.count hm
    rw [hnext, lineEnds_other hcr hlf] at hcount
    exact ih (fun d hd => hu d (List.mem_cons_of_mem c hd)) hcount

lemma Mode.next_outside (h : c ≠ ch '"') : Mode.outside.next c = .outside := if_neg h

lemma Mode.next_string (hb : c ≠ ch '\\') (hq : c ≠ ch '"') : Mode.string.next c = .string := by
  rw [Mode.next, if_neg hb, if_neg hq]

/-! ## How scanners end -/

/-- How parsing fails, with the position of the error -/
inductive Report
  | syntaxError (pos : Position) (error : String)
  | overrun
  | outOfCalls

/-- The failure, for a text that begins at `start` -/
def Report.failure (start : List UInt8) : Report → Failure
  | .syntaxError pos error => .syntaxError pos.line (column start pos.pos) error
  | .overrun => .overrun
  | .outOfCalls => .outOfCalls

/-- Errors are reported where the parser got to. -/
def Fails (text : List UInt8) : Report → Prop
  | .syntaxError pos _ => ∃ m, Reached text m pos
  | _ => True

lemma exists_overrun (text : List UInt8) : ∀ e : Failure, e = .overrun →
    ∃ i, Fails text i ∧ ∀ start, e = Report.failure start i := by
  rintro e rfl
  exact ⟨.overrun, trivial, fun _ => rfl⟩

lemma skipSpace_ends (s : List UInt8) : ∀ line, Reached text .outside ⟨line, s⟩ →
    Ends (Reached text .outside) (fun e => e = .overrun) (skipSpace line s) := by
  induction s with
  | nil => exact fun _ _ => .error rfl
  | cons c s ih =>
    intro line h
    by_cases hc : isSpace c
    · cases s with
      | nil =>
        -- behind the last byte there is none
        rw [skipSpace.eq_def]
        dsimp only
        split_ifs <;> exact .error rfl
      | cons d s =>
        rw [skipSpace_cons hc (List.cons_ne_nil d s)]
        have hquote : c ≠ ch '"' := by
          rintro rfl
          exact absurd hc (by decide)
        have hcount := h.count (by simp)
        rw [Mode.next_outside hquote] at hcount
        exact ih _ hcount
    · rw [skipSpace_stop (by simpa using hc)]
      exact .ok h

lemma compareLiteral_ends (s k : List UInt8) :
    Ends (fun same => same = true → k <+: s) (fun e => e = .overrun) (compareLiteral s k) := by
  induction k generalizing s with
  | nil =>
    rw [compareLiteral.eq_def]
    exact .ok fun _ => List.nil_prefix
  | cons d k ih =>
    cases s with
    | nil => exact .error rfl
    | cons c s =>
      rw [compareLiteral]
      split_ifs with hc
      · exact .ok fun h => absurd h (by simp)
      · obtain ⟨-, rfl⟩ : c ≠ 0 ∧ c = d := by simpa using hc
        exact (ih s).mono fun same h hsame => List.cons_prefix_cons.mpr ⟨rfl, h hsame⟩

lemma readNumber_ends (s : List UInt8) : Ends
    (fun r => ∃ u, s = u ++ r.2.2 ∧ ∀ c ∈ u, isNumberByte c) (fun e => e = .overrun) (readNumber s) := by
  induction s with
  | nil => exact .error rfl
  | cons c s ih =>
    have hmore : ∀ {r : List UInt8}, isNumberByte c → (∃ u, s = u ++ r ∧ ∀ c ∈ u, isNumberByte c) →
        ∃ u, c :: s = u ++ r ∧ ∀ c ∈ u, isNumberByte c := by
      rintro r hc ⟨u, rfl, hu⟩
      exact ⟨c :: u, rfl, List.forall_mem_cons.mpr ⟨hc, hu⟩⟩
    rw [readNumber]
    split_ifs with hc hpoint
    · exact ih.bind fun r hr => .ok (hmore (by simp [isNumberByte]; tauto) hr)
    · exact ih.bind fun r hr => .ok (hmore (by simp [isNumberByte, hpoint]) hr)
    · exact .ok ⟨[], rfl, by simp⟩

/-! ### Scanners in strings -/

section

variable {ρ : Type} {α β : Type} {place : List UInt8 → α → β} {ok : α → Prop} {pos : Position}

lemma syntaxError_alike (h : Reached text m pos) (error : String) :
    EndsAlike place Report.failure ok (Fails text) fun start => syntaxError start pos error :=
  .error (i := .syntaxError pos error) ⟨m, h⟩ fun _ => rfl

lemma overrun_alike : EndsAlike place Report.failure ok (Fails text) fun _ => .error .overrun :=
  .error (i := .overrun) trivial fun _ => rfl

lemma outOfCalls_alike : EndsAlike place Report.failure ok (Fails text) fun _ => .error .outOfCalls :=
  .error (i := .outOfCalls) trivial fun _ => rfl

end

/-- Wherever the text begins, a scanner ends with the same result, which is `ok`, or with the same
    error. -/
abbrev Scans {α : Type} (text : List UInt8) (ok : α → Prop) (f : List UInt8 → Except Failure α) :
    Prop := EndsAlike (fun _ a => a) Report.failure ok (Fails text) f

lemma hexDigit_passes (h : isHexDigit c) : (c ≠ ch '\r' ∧ c ≠ ch '\n') ∧ Mode.string.next c = .string :=
  forall_byte (p := fun c => isHexDigit c → (c ≠ ch '\r' ∧ c ≠ ch '\n') ∧
    Mode.string.next c = .string) (by decide +kernel) c h

lemma Reached.byte (h : Reached text m ⟨line, c :: s⟩) (hm : m ≠ .escape)
    (hc : (c ≠ ch '\r' ∧ c ≠ ch '\n') ∧ m.next c = m) : Reached text m ⟨line, s⟩ := by
  refine Reached.pass (u := [c]) hm (fun d hd => ?_) h
  obtain rfl := List.mem_singleton.mp hd
  exact hc

lemma readHexDigits_scans (i : ℕ) : ∀ {p : Position}, Reached text .string p →
    Scans text (fun r => Reached text .string r.2) fun start => readHexDigits start i p := by
  induction i with
  | zero => exact fun h => .ok h fun _ => rfl
  | succ i ih =>
    intro p h
    obtain ⟨line, s⟩ := p
    cases s with
    | nil => exact overrun_alike
    | cons c s =>
      simp only [readHexDigits]
      refine .ite (fun hc => ?_) fun _ => syntaxError_alike h _
      have hnext := h.byte (by simp) (hexDigit_passes hc)
      exact (ih hnext).bind fun r hr => .ok (a := (c :: r.1, r.2)) hr fun _ => rfl

lemma readUnicode_scans {p : Position} (h : Reached text .string p) :
    Scans text (fun r => Reached text .string r.2) fun start => readUnicode start p := by
  refine (readHexDigits_scans 4 h).bind fun r hr => ?_
  obtain ⟨k, line, s⟩ := r
  have hr : Reached text .string ⟨line, s⟩ := hr
  dsimp only
  cases scanHex k with
  | none => exact syntaxError_alike h _
  | some w₁ =>
    dsimp only
    refine .ite (fun _ => ?_) fun _ => .ok (a := (_, ⟨line, s⟩)) hr fun _ => rfl
    match s with
    | [] => exact overrun_alike
    | [c] => exact .ite (fun _ => syntaxError_alike hr _) fun _ => overrun_alike
    | c :: d :: s =>
      refine .ite (fun _ => syntaxError_alike hr _) fun hcd => ?_
      obtain ⟨rfl, rfl⟩ : c = ch '\\' ∧ d = ch 'u' := by simpa [not_or] using hcd
      have hslash : Reached text .escape ⟨line, ch 'u' :: s⟩ := hr.count (by simp)
      have hu : Reached text .string ⟨line, s⟩ := hslash.escape
      refine (readHexDigits_scans 4 hu).bind fun r hr' => ?_
      obtain ⟨k', q⟩ := r
      dsimp only
      cases scanHex k' with
      | none => exact syntaxError_alike hu _
      | some w₂ =>
        have hr' : Reached text .string q := hr'
        exact .ite (fun _ => syntaxError_alike hr _) fun _ => .ok (a := (_, q)) hr' fun _ => rfl

lemma readEscape_scans {p : Position} (h : Reached text .escape p) :
    Scans text (fun r => Reached text .string r.2) fun start => readEscape start p := by
  obtain ⟨line, s⟩ := p
  cases s with
  | nil => exact overrun_alike
  | cons c s =>
    have hok : ∀ b : List UInt8, Scans text (fun r => Reached text .string r.2)
        fun _ => .ok (b, ⟨line, s⟩) := fun b => .ok h.escape fun _ => rfl
    simp only [readEscape]
    refine .ite (fun _ => hok _) fun _ => .ite (fun _ => hok _) fun _ => .ite (fun _ => hok _)
      fun _ => .ite (fun _ => hok _) fun _ => .ite (fun _ => hok _) fun _ => .ite (fun _ => hok _)
      fun _ => .ite (fun _ => readUnicode_scans h.escape) fun _ => hok _

/-- The loop over the bytes of a string counts the lines that end there, if no backslash is in front. -/
lemma readString_scans (n : ℕ) : ∀ {p : Position} (value : List UInt8), Reached text .string p →
    Scans text (fun r => Reached text .outside r.2) fun start => readString start n p value := by
  induction n with
  | zero => exact fun _ _ => outOfCalls_alike
  | succ n ih =>
    intro p value h
    obtain ⟨line, s⟩ := p
    cases s with
    | nil => exact overrun_alike
    | cons c s =>
      simp only [readString]
      refine .ite (fun _ => syntaxError_alike h _) fun _ => .ite (fun hcr => ?_) fun hcr =>
        .ite (fun hlf => ?_) fun hlf => .ite (fun hslash => ?_) fun hslash =>
          .ite (fun hquote => ?_) fun hquote => ?_
      · subst hcr
        cases s with
        | nil => exact overrun_alike
        | cons d s =>
          have hcount :
              Reached text .string ⟨further line (lineEnds [ch '\r'] (d :: s)), d :: s⟩ :=
            h.count (by simp)
          refine ih value ?_
          split_ifs with hd
          · subst hd
            rw [lineEnds_crlf, further_zero] at hcount
            have hlf : Reached text .string ⟨further line (lineEnds [ch '\n'] s), s⟩ :=
              hcount.count (by simp)
            rwa [lineEnds_lf, further_one] at hlf
          · rwa [lineEnds_cr (by simpa using hd), further_one] at hcount
      · subst hlf
        have hcount : Reached text .string ⟨further line (lineEnds [ch '\n'] s), s⟩ :=
          h.count (by simp)
        rw [lineEnds_lf, further_one] at hcount
        exact ih value hcount
      · subst hslash
        have hescape : Reached text .escape ⟨line, s⟩ := h.count (by simp)
        exact (readEscape_scans hescape).bind fun r hr => ih _ hr
      · subst hquote
        have houtside : Reached text .outside ⟨line, s⟩ := h.count (by simp)
        exact .ok (a := (value, ⟨line, s⟩)) houtside fun _ => rfl
      · exact ih _ (h.byte (by simp) ⟨⟨hcr, hlf⟩, Mode.next_string hslash hquote⟩)

/-! ## How tokens and values end -/

variable {D : Type} [DoubleText D]

/-- Wherever the text begins, a call leaves the parser with the same token and at the same position
    outside of strings, or ends with the same error. -/
abbrev Parses (text : List UInt8) (f : List UInt8 → Except Failure (Private D)) : Prop :=
  EndsAlike (fun start (q : Private D) => { q with start }) Report.failure
    (fun q => Reached text .outside q.pos) (Fails text) f

/-- The same of a call that also has a result -/
abbrev Yields {α : Type} (text : List UInt8) (f : List UInt8 → Except Failure (Private D × α)) : Prop :=
  EndsAlike (fun start (r : Private D × α) => ({ r.1 with start }, r.2)) Report.failure
    (fun r => Reached text .outside r.1.pos) (Fails text) f

lemma numberByte_passes (h : isNumberByte c) :
    (c ≠ ch '\r' ∧ c ≠ ch '\n') ∧ Mode.outside.next c = .outside :=
  forall_byte (p := fun c => isNumberByte c → (c ≠ ch '\r' ∧ c ≠ ch '\n') ∧
    Mode.outside.next c = .outside) (by decide +kernel) c h

/-- A literal is passed over. -/
lemma Reached.literal {k : List UInt8} (h : Reached text .outside ⟨line, s⟩)
    (hk : ∀ c ∈ k, (c ≠ ch '\r' ∧ c ≠ ch '\n') ∧ Mode.outside.next c = .outside) (hs : k <+: s) :
    Reached text .outside ⟨line, s.drop k.length⟩ := by
  obtain ⟨t, rfl⟩ := hs
  rw [List.drop_left]
  exact h.pass (by simp) hk

omit [DoubleText D] in
/-- The branches of `switchToken` for literals -/
lemma literal_parses (k : List UInt8) (token : Token D) (hread : Reached text .outside ⟨line, s⟩)
    (hk : ∀ c ∈ k, (c ≠ ch '\r' ∧ c ≠ ch '\n') ∧ Mode.outside.next c = .outside) :
    Parses text fun start => compareLiteral s k >>= fun same =>
      if same then .ok ⟨token, start, ⟨line, s.drop k.length⟩⟩
      else syntaxError start ⟨line, s⟩ "Expected character" := by
  refine ((compareLiteral_ends s k).alike (exists_overrun text)).bind fun same hsame => ?_
  refine .ite (fun h => ?_) fun _ => syntaxError_alike hread _
  exact .ok (a := ⟨token, [], ⟨line, s.drop k.length⟩⟩) (hread.literal hk (hsame h)) fun _ => rfl

lemma switchToken_parses (p : Private D) {pos : Position} (h : Reached text .outside pos) :
    Parses text fun start => switchToken { p with start } pos := by
  obtain ⟨line, s⟩ := pos
  cases s with
  | nil => exact overrun_alike
  | cons c s =>
    simp only [switchToken]
    refine .ite (fun _ => ?_) fun _ => .ite (fun hpunctuation => ?_) fun hpunctuation =>
      .ite (fun hquote => ?_) fun hquote => .ite (fun htrue => ?_) fun htrue =>
        .ite (fun hfalse => ?_) fun hfalse => .ite (fun hnull => ?_) fun hnull =>
          .ite (fun hnumber => ?_) fun hnumber => syntaxError_alike h _
    · exact .ok (a := ⟨_, [], ⟨line, c :: s⟩⟩) h fun _ => rfl
    · have hmem : c ∈ punctuation := by simpa [punctuation] using hpunctuation
      have hpass : ∀ d ∈ punctuation,
          (d ≠ ch '\r' ∧ d ≠ ch '\n') ∧ Mode.outside.next d = .outside := by decide +kernel
      exact .ok (a := ⟨_, [], ⟨line, s⟩⟩) (h.byte (by simp) (hpass c hmem)) fun _ => rfl
    · subst hquote
      have hstring : Reached text .string ⟨line, s⟩ := h.count (by simp)
      exact (readString_scans s.length [] hstring).bind fun r hr =>
        .ok (a := ⟨_, [], r.2⟩) hr fun _ => rfl
    · exact literal_parses (bytes "true") _ h (by decide +kernel)
    · exact literal_parses (bytes "false") _ h (by decide +kernel)
    · exact literal_parses (bytes "null") _ h (by decide +kernel)
    · refine ((readNumber_ends (c :: s)).alike (exists_overrun text)).bind fun r hr => ?_
      obtain ⟨n, isDouble, rest⟩ := r
      obtain ⟨u, hu, hbytes⟩ := hr
      have hrest : Reached text .outside ⟨line, rest⟩ :=
        Reached.pass (by simp) (fun c hc => numberByte_passes (hbytes c hc)) (hu ▸ h)
      exact .ok (a := ⟨_, [], ⟨line, rest⟩⟩) hrest fun _ => rfl

lemma readToken_parses {p : Private D} (h : Reached text .outside p.pos) :
    Parses text fun start => readToken { p with start } :=
  ((skipSpace_ends p.pos.pos p.pos.line h).alike (exists_overrun text)).bind fun _ hpos =>
    switchToken_parses p hpos

/-- All functions of the recursion end so. -/
structure ParseEnds (D : Type) [DoubleText D] (text : List UInt8) (n : ℕ) : Prop where
  value : ∀ {p : Private D} (result : Variant D), Reached text .outside p.pos →
    Yields text fun start => parseValue n { p with start } result
  array : ∀ {p : Private D} (result : Variant D), Reached text .outside p.pos →
    Yields text fun start => parseArray n { p with start } result
  object : ∀ {p : Private D} (result : Variant D), Reached text .outside p.pos →
    Yields text fun start => parseObject n { p with start } result
  elements : ∀ {p : Private D} (list : List (Variant D)), Reached text .outside p.pos →
    Yields text fun start => parseElements n { p with start } list
  members : ∀ {p : Private D} (object : List (List UInt8 × Variant D)),
    Reached text .outside p.pos → Yields text fun start => parseMembers n { p with start } object

lemma value_parses {n : ℕ} (ih : ParseEnds D text n) {p : Private D} (result : Variant D)
    (h : Reached text .outside p.pos) :
    Yields text fun start => parseValue (n + 1) { p with start } result := by
  simp only [parseValue]
  refine .ite (fun _ => ?_) fun _ => .ite (fun _ => ih.array result h) fun _ =>
    .ite (fun _ => ih.object result h) fun _ => syntaxError_alike h _
  exact (readToken_parses h).bind fun q hq => .ok (a := (q, _)) hq fun _ => rfl

lemma array_parses {n : ℕ} (ih : ParseEnds D text n) {p : Private D} (result : Variant D)
    (h : Reached text .outside p.pos) :
    Yields text fun start => parseArray (n + 1) { p with start } result := by
  simp only [parseArray]
  refine .ite (fun _ => syntaxError_alike h _) fun _ => ?_
  refine (readToken_parses h).bind fun q hq => ?_
  refine (ih.elements _ hq).bind fun r hr => ?_
  exact (readToken_parses hr).bind fun q hq => .ok (a := (q, .list r.2)) hq fun _ => rfl

lemma object_parses {n : ℕ} (ih : ParseEnds D text n) {p : Private D} (result : Variant D)
    (h : Reached text .outside p.pos) :
    Yields text fun start => parseObject (n + 1) { p with start } result := by
  simp only [parseObject]
  refine .ite (fun _ => syntaxError_alike h _) fun _ => ?_
  refine (readToken_parses h).bind fun q hq => ?_
  refine (ih.members _ hq).bind fun r hr => ?_
  exact (readToken_parses hr).bind fun q hq => .ok (a := (q, .map r.2)) hq fun _ => rfl

lemma elements_parses {n : ℕ} (ih : ParseEnds D text n) {p : Private D} (list : List (Variant D))
    (h : Reached text .outside p.pos) :
    Yields text fun start => parseElements (n + 1) { p with start } list := by
  simp only [parseElements]
  refine .ite (fun _ => .ok (a := (p, list)) h fun _ => rfl) fun _ => ?_
  refine (ih.value .null h).bind fun r hr => ?_
  dsimp only
  refine .ite (fun _ => ?_) fun _ => .ite (fun _ => syntaxError_alike hr _) fun _ => ?_
  · exact .ok (a := (r.1, list ++ [r.2])) hr fun _ => rfl
  · exact (readToken_parses hr).bind fun q hq => ih.elements _ hq

lemma members_parses {n : ℕ} (ih : ParseEnds D text n) {p : Private D}
    (object : List (List UInt8 × Variant D)) (h : Reached text .outside p.pos) :
    Yields text fun start => parseMembers (n + 1) { p with start } object := by
  simp only [parseMembers]
  refine .ite (fun _ => ?_) fun _ => .ite (fun _ => syntaxError_alike h _) fun _ => ?_
  · exact .ok (a := (p, object)) h fun _ => rfl
  refine (readToken_parses h).bind fun q hq => ?_
  dsimp only
  refine .ite (fun _ => syntaxError_alike hq _) fun _ => ?_
  refine (readToken_parses hq).bind fun q hq => ?_
  refine (ih.value .null hq).bind fun r hr => ?_
  dsimp only
  refine .ite (fun _ => ?_) fun _ => .ite (fun _ => syntaxError_alike hr _) fun _ => ?_
  · exact .ok (a := (r.1, HashMap.append _ r.2 object)) hr fun _ => rfl
  · exact (readToken_parses hr).bind fun q hq => ih.members _ hq

lemma parseEnds (text : List UInt8) (n : ℕ) : ParseEnds D text n := by
  induction n with
  | zero =>
    exact ⟨fun _ _ => outOfCalls_alike, fun _ _ => outOfCalls_alike, fun _ _ => outOfCalls_alike,
      fun _ _ => outOfCalls_alike, fun _ _ => outOfCalls_alike⟩
  | succ n ih =>
    exact ⟨value_parses ih, array_parses ih, object_parses ih, elements_parses ih,
      members_parses ih⟩

/-! ## The parser -/

/-- `parse`, of a text whose beginning is taken to be `start` -/
def parseFrom (start : List UInt8) (data : CString) (result : Variant D) :
    Except Failure (Private D × Variant D) := do
  let p ← readToken { Private.initial data with start }
  parseValue (3 * data.bytes.length + 1) p result

lemma parse_eq (data : CString) (result : Variant D) :
    parse data result = parseFrom (data.bytes ++ [0]) data result := rfl

/-- An error is reported at `pos`: wherever the text begins, the line is that of `pos`, and the column
    is how far `pos` is behind the last line break. -/
def ReportedAt (data : CString) (result : Variant D) (pos : Position) (error : String) : Prop :=
  ∀ start, parseFrom start data result = syntaxError start pos error

lemma parse_parses (data : CString) (result : Variant D) :
    Yields (data.bytes ++ [0]) fun start => parseFrom start data result := by
  refine (readToken_parses ?_).bind fun q hq => (parseEnds _ _).value result hq
  exact reached_start _

omit [DoubleText D] in
lemma column_replicate (n : ℕ) (s : List UInt8) :
    column (List.replicate n (ch 'a')) s = 1 + (n - s.length) := by
  have hall : ∀ c ∈ List.replicate (n - s.length) (ch 'a'),
      decide (c ≠ ch '\n' ∧ c ≠ ch '\r') = true := by
    intro c hc
    rw [List.eq_of_mem_replicate hc]
    decide
  rw [column, List.length_replicate, List.take_replicate, Nat.min_eq_left (Nat.sub_le _ _),
    List.reverse_replicate, List.takeWhile_eq_self_iff.mpr hall, List.length_replicate]

/-- An error is reported at one position. -/
lemma ReportedAt.unique {data : CString} {result : Variant D} {pos pos' : Position}
    {error error' : String} (h : ReportedAt data result pos error)
    (h' : ReportedAt data result pos' error') :
    pos.line = pos'.line ∧ pos.pos.length = pos'.pos.length := by
  have heq := (h (List.replicate (pos.pos.length + pos'.pos.length) (ch 'a'))).symm.trans (h' _)
  obtain ⟨hline, hcolumn, -⟩ := Failure.syntaxError.inj (Except.error.inj heq)
  rw [column_replicate, column_replicate] at hcolumn
  exact ⟨hline, by omega⟩

/-- Where an error is reported -/
lemma parse_reportedAt {data : CString} {result : Variant D} {line : Int32} {column : ℕ} {error : String}
    (h : parse data result = .error (.syntaxError line column error)) :
    ∃ pos m, ReportedAt data result pos error ∧ line = pos.line ∧
      Reached (data.bytes ++ [0]) m pos := by
  rw [parse_eq] at h
  rcases parse_parses data result with ⟨-, hok⟩ | ⟨hfails, herror⟩
  · exact absurd (h.symm.trans (hok _)) (by simp)
  · rename_i i
    rw [herror] at h
    cases i with
    | syntaxError pos text =>
      obtain ⟨rfl, -, rfl⟩ := Failure.syntaxError.inj (Except.error.inj h)
      obtain ⟨m, hreached⟩ := hfails
      exact ⟨pos, m, herror, rfl, hreached⟩
    | overrun => exact absurd (Except.error.inj h) (by simp [Report.failure])
    | outOfCalls => exact absurd (Except.error.inj h) (by simp [Report.failure])

/-- **The line of an error** is right if no line end in front of it is overlooked and its number is an
    `int`, and only then. -/
lemma line_iff {data : CString} {result : Variant D} {line : Int32} {column : ℕ} {error : String}
    (h : parse data result = .error (.syntaxError line column error)) {pos : Position}
    {u : List UInt8} (hpos : ReportedAt data result pos error)
    (hu : data.bytes ++ [0] = u ++ pos.pos) :
    line.toInt = 1 + lineEnds u pos.pos ↔
      ¬ Overlooked u pos.pos ∧ 1 + lineEnds u pos.pos < 2 ^ 31 := by
  obtain ⟨pos', m, hpos', rfl, u', n, k, hu', -, hline, hn, hiff⟩ := parse_reportedAt h
  obtain ⟨-, hlength⟩ := hpos.unique hpos'
  obtain ⟨rfl, hrest⟩ := List.append_inj' (hu.symm.trans hu') hlength
  rw [hrest, ← hiff, hline, further_toInt_eq_iff (Nat.le.intro hn)]
  omega

end Nstd.Json
