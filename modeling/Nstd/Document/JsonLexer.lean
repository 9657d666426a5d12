import Mathlib.Tactic.Common
import Nstd.Core.Calls
import Nstd.Core.LineEnds
import Nstd.Core.Pieces
import Nstd.Document.JsonGrammar

/-!
# Tokens

`readToken` against the grammar, in both directions.  The text at a read position is `t ++ [0]`,
with `0` not in `t`.

* `readString_body`, `readEscape_escape`, `readToken_scalar`, ... — what the grammar has, the parser
  reads.
* `readString_cases`, `readEscape_cases`, `readToken_cases` — whatever the text is, the parser reads
  what the grammar has, or runs past the terminator from a backslash right before it, or reports an
  error.
-/

namespace Nstd.Json

/-- The outcome is an error of the source. -/
def IsSyntaxError {α : Type} (r : Except Failure α) : Prop :=
  ∃ line column error, r = .error (.syntaxError line column error)

lemma isSyntaxError {α : Type} (start : List UInt8) (p : Position) (error : String) :
    IsSyntaxError (syntaxError start p error : Except Failure α) := ⟨_, _, _, rfl⟩

lemma IsSyntaxError.bind {α β : Type} {r : Except Failure α} (h : IsSyntaxError r)
    (f : α → Except Failure β) : IsSyntaxError (r >>= f) := by
  obtain ⟨line, column, error, rfl⟩ := h
  exact ⟨line, column, error, rfl⟩

/-! ## White space -/

lemma isSpace_zero : isSpace 0 = false := by decide

/-- One byte of white space moves the position on, and the line if it ends there. -/
lemma skipSpace_cons {c : UInt8} (hc : isSpace c) {s : List UInt8} (hs : s ≠ []) (line : Int32) :
    skipSpace line (c :: s) = skipSpace (further line (lineEnds [c] s)) s := by
  obtain ⟨d, s, rfl⟩ := List.exists_cons_of_ne_nil hs
  rw [skipSpace.eq_def]
  by_cases hcr : c = ch '\r'
  · simp only [if_pos hcr]
    subst hcr
    by_cases hd : d = ch '\n'
    · subst hd
      have hne : ¬ ch '\n' = ch '\r' := by decide
      rw [lineEnds_crlf, skipSpace.eq_def (further line 0)]
      simp only [if_neg hne, if_true, further_zero]
    · rw [lineEnds_cr (by simpa using hd), further_one, if_neg hd]
  · simp only [if_neg hcr]
    by_cases hlf : c = ch '\n'
    · subst hlf
      rw [lineEnds_lf, further_one, if_pos rfl]
    · rw [lineEnds_other hcr hlf, if_neg hlf, if_pos hc, further_zero]

lemma skipSpace_stop {c : UInt8} (hc : isSpace c = false) (s : List UInt8) (line : Int32) :
    skipSpace line (c :: s) = .ok ⟨line, c :: s⟩ := by
  have hcr : c ≠ ch '\r' := fun h => absurd hc (by rw [h]; decide)
  have hlf : c ≠ ch '\n' := fun h => absurd hc (by rw [h]; decide)
  rw [skipSpace.eq_def]
  simp only [if_neg hcr, if_neg hlf, hc, Bool.false_eq_true, if_false]

/-- White space is skipped up to the first byte that is none. -/
lemma skipSpace_append {w : List UInt8} (hw : Space w) {c : UInt8} (hc : isSpace c = false)
    (s : List UInt8) (line : Int32) :
    ∃ line', skipSpace line (w ++ c :: s) = .ok ⟨line', c :: s⟩ := by
  induction w generalizing line with
  | nil => exact ⟨line, skipSpace_stop hc s line⟩
  | cons d w ih =>
    obtain ⟨line', hrest⟩ := ih (fun e he => hw e (List.mem_cons_of_mem _ he)) _
    refine ⟨line', ?_⟩
    rw [List.cons_append, skipSpace_cons (hw d List.mem_cons_self)
      (List.append_ne_nil_of_right_ne_nil w (List.cons_ne_nil c s)), hrest]

/-- Any text is white space and something that does not begin with it. -/
lemma exists_space (t : List UInt8) : ∃ w x, t = w ++ x ∧ Space w ∧ ∀ c ∈ x.head?, isSpace c = false :=
  exists_takeWhile isSpace t

/-! ## Escapes -/

lemma isHexDigit_zero : isHexDigit 0 = false := by decide

lemma readHexDigits_append (start : List UInt8) {k : List UInt8} (hk : ∀ c ∈ k, isHexDigit c)
    (r : List UInt8) (line : Int32) :
    readHexDigits start k.length ⟨line, k ++ r⟩ = .ok (k, ⟨line, r⟩) := by
  induction k with
  | nil => rfl
  | cons c k ih =>
    simp only [List.length_cons, readHexDigits, List.cons_append,
      hk c List.mem_cons_self, if_true, ih fun d hd => hk d (List.mem_cons_of_mem _ hd), ok_bind]

lemma readHexDigits_cases (start : List UInt8) (i : ℕ) (t : List UInt8) (line : Int32) :
    (∃ k t', t = k ++ t' ∧ k.length = i ∧ (∀ c ∈ k, isHexDigit c) ∧
      readHexDigits start i ⟨line, t ++ [0]⟩ = .ok (k, ⟨line, t' ++ [0]⟩)) ∨
    IsSyntaxError (readHexDigits start i ⟨line, t ++ [0]⟩) := by
  induction i generalizing t with
  | zero => exact Or.inl ⟨[], t, rfl, rfl, by simp, rfl⟩
  | succ i ih =>
    cases t with
    | nil =>
      right
      simp only [readHexDigits, List.nil_append, isHexDigit_zero, Bool.false_eq_true, if_false]
      exact isSyntaxError _ _ _
    | cons c t =>
      simp only [readHexDigits, List.cons_append]
      by_cases hc : isHexDigit c
      · simp only [hc, if_true]
        rcases ih t with ⟨k, t', rfl, hlen, hk, hok⟩ | herr
        · left
          refine ⟨c :: k, t', rfl, by rw [List.length_cons, hlen], ?_, by rw [hok]; rfl⟩
          intro d hd
          rcases List.mem_cons.mp hd with rfl | hd
          · exact hc
          · exact hk d hd
        · exact Or.inr (herr.bind _)
      · simp only [hc, Bool.false_eq_true, if_false]
        exact Or.inr (isSyntaxError _ _ _)

lemma scanHex_eq {k : List UInt8} (hk : HexDigits k) : scanHex k = some (hexValue k) := by
  have hne : k ≠ [] := by
    rintro rfl
    exact absurd hk.1 (by simp)
  have htake : k.takeWhile isHexDigit = k := List.takeWhile_eq_self_iff.mpr hk.2
  simp only [scanHex, htake, if_neg hne, hexValue]

lemma readUnicode_unit (start : List UInt8) {k : List UInt8} (hk : HexDigits k)
    (hhigh : isHighSurrogate (hexValue k) = false) (r : List UInt8) (line : Int32) :
    readUnicode start ⟨line, k ++ r⟩ = .ok (Unicode.append (hexValue k), ⟨line, r⟩) := by
  have hread := readHexDigits_append start hk.2 r line
  rw [hk.1] at hread
  have hno : ¬ (hexValue k &&& 0xF800 = 0xD800 ∧ hexValue k &&& 0xFC00 = 0xD800) := by
    simpa [isHighSurrogate] using hhigh
  simp only [readUnicode, hread, ok_bind, scanHex_eq hk, if_neg hno]

lemma readUnicode_pair (start : List UInt8) {k₁ k₂ : List UInt8} (hk₁ : HexDigits k₁)
    (hhigh : isHighSurrogate (hexValue k₁)) (hk₂ : HexDigits k₂)
    (hlow : isLowSurrogate (hexValue k₂)) (r : List UInt8) (line : Int32) :
    readUnicode start ⟨line, k₁ ++ ch '\\' :: ch 'u' :: k₂ ++ r⟩ =
      .ok (Unicode.append (surrogatePair (hexValue k₁) (hexValue k₂)), ⟨line, r⟩) := by
  have hread₁ := readHexDigits_append start hk₁.2 (ch '\\' :: ch 'u' :: (k₂ ++ r)) line
  have hread₂ := readHexDigits_append start hk₂.2 r line
  rw [hk₁.1] at hread₁
  rw [hk₂.1] at hread₂
  have hyes : hexValue k₁ &&& 0xF800 = 0xD800 ∧ hexValue k₁ &&& 0xFC00 = 0xD800 := by
    simpa [isHighSurrogate] using hhigh
  have hlow' : hexValue k₂ &&& 0xFC00 = 0xDC00 := by simpa [isLowSurrogate] using hlow
  simp only [readUnicode, List.append_assoc, List.cons_append, hread₁, ok_bind, scanHex_eq hk₁,
    if_pos hyes, ne_eq, not_true_eq_false, or_self, if_false, hread₂, scanHex_eq hk₂, hlow',
    surrogatePair]

/-- After `\u` the parser reads an escape of the grammar or reports an error. -/
lemma readUnicode_cases (start t : List UInt8) (line : Int32) :
    (∃ e b t', t = e ++ t' ∧ Escape (ch 'u' :: e) b ∧
      readUnicode start ⟨line, t ++ [0]⟩ = .ok (b, ⟨line, t' ++ [0]⟩)) ∨
    IsSyntaxError (readUnicode start ⟨line, t ++ [0]⟩) := by
  rcases readHexDigits_cases start 4 t line with ⟨k, t₁, rfl, hlen, hk, hread⟩ | herr
  · have hdigits : HexDigits k := ⟨hlen, hk⟩
    simp only [readUnicode, hread, ok_bind, scanHex_eq hdigits]
    by_cases hhigh : hexValue k &&& 0xF800 = 0xD800 ∧ hexValue k &&& 0xFC00 = 0xD800
    · rw [if_pos hhigh]
      rcases t₁ with - | ⟨c, - | ⟨d, t₂⟩⟩
      · right
        simp only [List.nil_append]
        rw [if_pos (by decide)]
        exact isSyntaxError _ _ _
      · right
        simp only [List.cons_append, List.nil_append]
        rw [if_pos (Or.inr (by decide))]
        exact isSyntaxError _ _ _
      · simp only [List.cons_append]
        by_cases hcd : c ≠ ch '\\' ∨ d ≠ ch 'u'
        · rw [if_pos hcd]
          exact Or.inr (isSyntaxError _ _ _)
        · rw [if_neg hcd]
          simp only [ne_eq, not_or, not_not] at hcd
          rcases readHexDigits_cases start 4 t₂ line with ⟨k₂, t₃, rfl, hlen₂, hk₂, hread₂⟩ | herr
          · have hdigits₂ : HexDigits k₂ := ⟨hlen₂, hk₂⟩
            simp only [hread₂, ok_bind, scanHex_eq hdigits₂]
            by_cases hlow : hexValue k₂ &&& 0xFC00 = 0xDC00
            · left
              rw [if_neg (not_not.mpr hlow)]
              refine ⟨k ++ ch '\\' :: ch 'u' :: k₂, _, t₃, by simp [hcd.1, hcd.2],
                .pair hdigits ?_ hdigits₂ ?_, rfl⟩
              · simpa [isHighSurrogate] using hhigh
              · simpa [isLowSurrogate] using hlow
            · right
              rw [if_pos hlow]
              exact isSyntaxError _ _ _
          · exact Or.inr (herr.bind _)
    · left
      rw [if_neg hhigh]
      refine ⟨k, _, t₁, rfl, .unit hdigits ?_, rfl⟩
      simpa [isHighSurrogate] using hhigh
  · exact Or.inr (herr.bind _)

/-- The escapes of one letter -/
lemma readEscape_simple (start : List UInt8) {c d : UInt8} (h : (c, d) ∈ simpleEscapes)
    (r : List UInt8) (line : Int32) : readEscape start ⟨line, c :: r⟩ = .ok ([d], ⟨line, r⟩) := by
  simp only [simpleEscapes, List.mem_cons, Prod.mk.injEq, List.not_mem_nil, or_false] at h
  rcases h with ⟨rfl, rfl⟩ | ⟨rfl, rfl⟩ | ⟨rfl, rfl⟩ | ⟨rfl, rfl⟩ | ⟨rfl, rfl⟩ | ⟨rfl, rfl⟩ |
    ⟨rfl, rfl⟩ | ⟨rfl, rfl⟩ <;> rfl

/-- Any other byte but `u` stays as it is, with its backslash. -/
lemma readEscape_other (start : List UInt8) {c : UInt8} (hu : c ≠ ch 'u')
    (h : ∀ e ∈ simpleEscapes, e.1 ≠ c) (r : List UInt8) (line : Int32) :
    readEscape start ⟨line, c :: r⟩ = .ok ([ch '\\', c], ⟨line, r⟩) := by
  simp only [simpleEscapes, List.mem_cons, List.not_mem_nil, or_false, forall_eq_or_imp,
    forall_eq] at h
  simp [readEscape, hu, Ne.symm h.1, Ne.symm h.2.1, Ne.symm h.2.2.1, Ne.symm h.2.2.2.1,
    Ne.symm h.2.2.2.2.1, Ne.symm h.2.2.2.2.2.1, Ne.symm h.2.2.2.2.2.2.1, Ne.symm h.2.2.2.2.2.2.2]

lemma readEscape_unicode (start r : List UInt8) (line : Int32) :
    readEscape start ⟨line, ch 'u' :: r⟩ = readUnicode start ⟨line, r⟩ := rfl

/-- An escape of the grammar is read. -/
lemma readEscape_escape (start : List UInt8) {e b : List UInt8} (h : Escape e b) (r : List UInt8)
    (line : Int32) : readEscape start ⟨line, e ++ r⟩ = .ok (b, ⟨line, r⟩) := by
  cases h with
  | simple hc => exact readEscape_simple start hc r line
  | unit hk hhigh =>
    rw [List.cons_append, readEscape_unicode, readUnicode_unit start hk hhigh]
  | pair hk₁ hhigh hk₂ hlow =>
    rw [List.cons_append, readEscape_unicode, readUnicode_pair start hk₁ hhigh hk₂ hlow]
  | other _ hu hc => exact readEscape_other start hu hc r line

/-- After a backslash the parser reads an escape of the grammar, or the terminator, or reports an
    error. -/
lemma readEscape_cases (start : List UInt8) {t : List UInt8} (ht : 0 ∉ t) (line : Int32) :
    (∃ e b t', t = e ++ t' ∧ e ≠ [] ∧ Escape e b ∧
      readEscape start ⟨line, t ++ [0]⟩ = .ok (b, ⟨line, t' ++ [0]⟩)) ∨
    (t = [] ∧ ∃ b, readEscape start ⟨line, t ++ [0]⟩ = .ok (b, ⟨line, []⟩)) ∨
    IsSyntaxError (readEscape start ⟨line, t ++ [0]⟩) := by
  cases t with
  | nil => exact Or.inr (Or.inl ⟨rfl, [ch '\\', 0], rfl⟩)
  | cons c t =>
    by_cases hu : c = ch 'u'
    · subst hu
      rcases readUnicode_cases start t line with ⟨e, b, t', rfl, hesc, hok⟩ | herr
      · exact Or.inl ⟨ch 'u' :: e, b, t', rfl, List.cons_ne_nil _ _, hesc, hok⟩
      · exact Or.inr (Or.inr herr)
    · left
      by_cases hsimple : ∃ d, (c, d) ∈ simpleEscapes
      · obtain ⟨d, hd⟩ := hsimple
        refine ⟨[c], [d], t, rfl, List.cons_ne_nil _ _, .simple hd, ?_⟩
        rw [List.cons_append, readEscape_simple start hd]
      · have hother : ∀ e ∈ simpleEscapes, e.1 ≠ c := by
          rintro ⟨c', d⟩ he rfl
          exact hsimple ⟨d, he⟩
        have hzero : c ≠ 0 := fun h => ht (by rw [h]; exact List.mem_cons_self)
        refine ⟨[c], _, t, rfl, List.cons_ne_nil _ _, .other hzero hu hother, ?_⟩
        rw [List.cons_append, readEscape_other start hu hother]

/-! ## Strings -/

/-- A byte that stands for itself -/
lemma readString_plain (start : List UInt8) {c : UInt8} (h₀ : c ≠ 0) (hq : c ≠ ch '"')
    (hb : c ≠ ch '\\') (hcr : c ≠ ch '\r') (hlf : c ≠ ch '\n') (n : ℕ) (s value : List UInt8)
    (line : Int32) : readString start (n + 1) ⟨line, c :: s⟩ value =
      readString start n ⟨line, s⟩ (value ++ [c]) := by
  simp only [readString, if_neg h₀, if_neg hq, if_neg hb, if_neg hcr, if_neg hlf]

lemma readString_lf (start : List UInt8) (n : ℕ) (s value : List UInt8) (line : Int32) :
    readString start (n + 1) ⟨line, ch '\n' :: s⟩ value =
      readString start n ⟨line + 1, s⟩ value := rfl

/-- A line break is left out.  A line feed after a carriage return goes with it, so that the number
    of rounds that are left is not the same. -/
lemma readString_lineBreak (start : List UInt8) {c : UInt8} (hc : c = ch '\r' ∨ c = ch '\n')
    {s : List UInt8} (hs : s ≠ []) (n : ℕ) (value : List UInt8) (line : Int32) :
    ∃ line', readString start (n + 1) ⟨line, c :: s⟩ value =
        readString start n ⟨line', s⟩ value ∨
      readString start (n + 1) ⟨line, c :: s⟩ value =
        readString start (n + 1) ⟨line', s⟩ value := by
  obtain ⟨d, s, rfl⟩ := List.exists_cons_of_ne_nil hs
  rcases hc with rfl | rfl
  · by_cases hd : d = ch '\n'
    · subst hd
      exact ⟨line, Or.inr rfl⟩
    · refine ⟨line + 1, Or.inl ?_⟩
      have h₀ : ¬ ch '\r' = 0 := by decide
      simp only [readString, if_neg h₀, if_true, if_neg hd]
  · exact ⟨line + 1, Or.inl (readString_lf start n (d :: s) value line)⟩

lemma readString_escape (start : List UInt8) (n : ℕ) (s value : List UInt8) (line : Int32) :
    readString start (n + 1) ⟨line, ch '\\' :: s⟩ value =
      readEscape start ⟨line, s⟩ >>= fun r => readString start n r.2 (value ++ r.1) := rfl

lemma readString_quote (start : List UInt8) (n : ℕ) (s value : List UInt8) (line : Int32) :
    readString start (n + 1) ⟨line, ch '"' :: s⟩ value = .ok (value, ⟨line, s⟩) := rfl

/-- The inside of a literal is read, and what it stands for is added to the value. -/
lemma readString_body (start : List UInt8) {b v : List UInt8} (h : StringBody b v)
    {r : List UInt8} (hr : r ≠ []) {n : ℕ} (hn : b.length ≤ n) (value : List UInt8) (line : Int32) :
    ∃ n' line', readString start n ⟨line, b ++ r⟩ value =
      readString start n' ⟨line', r⟩ (value ++ v) ∧ n - b.length ≤ n' := by
  induction h generalizing n value line with
  | nil => exact ⟨n, line, by rw [List.append_nil, List.nil_append], le_rfl⟩
  | @plain c s v h₀ hq hb hcr hlf _ ih =>
    obtain ⟨m, rfl⟩ := Nat.exists_eq_add_of_le hn
    obtain ⟨n', line', hread, hle⟩ := ih (n := s.length + m) (Nat.le_add_right _ _)
      (value ++ [c]) line
    refine ⟨n', line', ?_, ?_⟩
    · rw [List.length_cons, Nat.add_right_comm, List.cons_append,
        readString_plain start h₀ hq hb hcr hlf, hread, List.append_assoc]
      rfl
    · simp only [List.length_cons]
      omega
  | @lineBreak c s v hc _ ih =>
    obtain ⟨m, rfl⟩ := Nat.exists_eq_add_of_le hn
    have hs : s ++ r ≠ [] := List.append_ne_nil_of_right_ne_nil s hr
    obtain ⟨line₁, hstep | hstep⟩ :=
      readString_lineBreak start hc hs (s.length + m) value line
    · obtain ⟨n', line', hread, hle⟩ := ih (n := s.length + m) (Nat.le_add_right _ _) value line₁
      refine ⟨n', line', ?_, ?_⟩
      · rw [List.length_cons, Nat.add_right_comm, List.cons_append, hstep, hread]
      · simp only [List.length_cons]
        omega
    · obtain ⟨n', line', hread, hle⟩ := ih (n := s.length + m + 1) (by omega) value line₁
      refine ⟨n', line', ?_, ?_⟩
      · rw [List.length_cons, Nat.add_right_comm, List.cons_append, hstep, hread]
      · simp only [List.length_cons]
        omega
  | @escape e b s v he _ ih =>
    obtain ⟨m, rfl⟩ := Nat.exists_eq_add_of_le hn
    obtain ⟨n', line', hread, hle⟩ := ih (n := (e ++ s).length + m)
      (by rw [List.length_append]; omega) (value ++ b) line
    refine ⟨n', line', ?_, ?_⟩
    · rw [List.length_cons, Nat.add_right_comm, List.cons_append, readString_escape,
        List.append_assoc, readEscape_escape start he, ok_bind, hread, List.append_assoc]
    · simp only [List.length_cons, List.length_append] at hle ⊢
      omega

/-- A literal is read. -/
lemma readString_literal (start : List UInt8) {b v : List UInt8} (h : StringBody b v)
    (r : List UInt8) {n : ℕ} (hn : b.length < n) (line : Int32) :
    ∃ line', readString start n ⟨line, b ++ ch '"' :: r⟩ [] = .ok (v, ⟨line', r⟩) := by
  obtain ⟨n', line', hread, hle⟩ :=
    readString_body start h (List.cons_ne_nil (ch '"') r) hn.le [] line
  have hone : 1 ≤ n' := by omega
  obtain ⟨m, rfl⟩ := Nat.exists_eq_add_of_le' hone
  exact ⟨line', by rw [hread, List.nil_append, readString_quote]⟩

/-- A literal that ends right after a backslash is read past the terminator. -/
lemma readString_dangling (start : List UInt8) {b v : List UInt8} (h : StringBody b v)
    {n : ℕ} (hn : b.length + 2 ≤ n) (line : Int32) :
    readString start n ⟨line, b ++ [ch '\\', 0]⟩ [] = .error .overrun := by
  obtain ⟨n', line', hread, hle⟩ :=
    readString_body start h (List.cons_ne_nil (ch '\\') [0]) (n := n) (by omega) [] line
  have htwo : 2 ≤ n' := by omega
  obtain ⟨m, rfl⟩ := Nat.exists_eq_add_of_le' htwo
  rw [hread]
  rfl

/-- How reading the rest `t` of a literal ends: at the closing quote, past the terminator from a
    backslash right before it, or with an error -/
def StringOutcome (value t : List UInt8) (r : Except Failure (List UInt8 × Position)) : Prop :=
  (∃ b v t' line, t = b ++ ch '"' :: t' ∧ StringBody b v ∧
    r = .ok (value ++ v, ⟨line, t' ++ [0]⟩)) ∨
  (∃ b v, t = b ++ [ch '\\'] ∧ StringBody b v ∧ r = .error .overrun) ∨
  IsSyntaxError r

lemma StringOutcome.append {value t x w : List UInt8}
    {r : Except Failure (List UInt8 × Position)} (h : StringOutcome (value ++ w) t r)
    (hx : ∀ {s v}, StringBody s v → StringBody (x ++ s) (w ++ v)) :
    StringOutcome value (x ++ t) r := by
  rcases h with ⟨b, v, t', line, rfl, hb, rfl⟩ | ⟨b, v, rfl, hb, rfl⟩ | herr
  · exact Or.inl ⟨x ++ b, w ++ v, t', line, by rw [List.append_assoc], hx hb,
      by rw [List.append_assoc]⟩
  · exact Or.inr (Or.inl ⟨x ++ b, w ++ v, by rw [List.append_assoc], hx hb, rfl⟩)
  · exact Or.inr (Or.inr herr)

/-- However the text goes on inside a literal, reading it ends in one of the three ways. -/
lemma readString_cases (start : List UInt8) {n : ℕ} {t : List UInt8} (ht : 0 ∉ t)
    (hn : t.length < n) (value : List UInt8) (line : Int32) :
    StringOutcome value t (readString start n ⟨line, t ++ [0]⟩ value) := by
  induction n generalizing t value line with
  | zero => exact absurd hn (by simp)
  | succ n ih =>
    cases t with
    | nil => exact Or.inr (Or.inr (isSyntaxError _ _ _))
    | cons c t =>
      have h₀ : c ≠ 0 := fun h => ht (by rw [h]; exact List.mem_cons_self)
      have ht' : 0 ∉ t := fun h => ht (List.mem_cons_of_mem _ h)
      have hlen : t.length < n := Nat.lt_of_succ_lt_succ hn
      rw [List.cons_append]
      by_cases hq : c = ch '"'
      · subst hq
        exact Or.inl ⟨[], [], t, line, rfl, .nil, by rw [readString_quote, List.append_nil]⟩
      by_cases hb : c = ch '\\'
      · subst hb
        rw [readString_escape]
        rcases readEscape_cases start ht' line with
          ⟨e, b, t', rfl, hne, hesc, hok⟩ | ⟨rfl, b, hok⟩ | herr
        · have hpos := List.length_pos_of_ne_nil hne
          rw [List.length_append] at hlen
          rw [hok, ok_bind, ← List.cons_append]
          refine (ih (fun h => ht' (List.mem_append_right e h)) (by omega) (value ++ b)
            line).append fun hs => ?_
          exact .escape hesc hs
        · obtain ⟨m, rfl⟩ := Nat.exists_eq_add_of_le' (Nat.succ_le_of_lt hlen)
          refine Or.inr (Or.inl ⟨[], [], rfl, .nil, ?_⟩)
          rw [hok, ok_bind]
          rfl
        · exact Or.inr (Or.inr (herr.bind _))
      by_cases hlf : c = ch '\n'
      · subst hlf
        rw [readString_lf]
        refine (StringOutcome.append (x := [ch '\n']) (w := []) ?_
          fun hs => .lineBreak (Or.inr rfl) hs)
        rw [List.append_nil]
        exact ih ht' hlen value (line + 1)
      by_cases hcr : c = ch '\r'
      · subst hcr
        have hbreak : ch '\r' = ch '\r' ∨ ch '\r' = ch '\n' := Or.inl rfl
        have hskip : ∀ {s v}, StringBody s v → StringBody ([ch '\r'] ++ s) ([] ++ v) :=
          fun hs => .lineBreak hbreak hs
        cases t with
        | nil =>
          refine StringOutcome.append (x := [ch '\r']) (w := []) ?_ hskip
          rw [List.append_nil]
          exact ih ht' hlen value (line + 1)
        | cons d t =>
          by_cases hd : d = ch '\n'
          · subst hd
            refine StringOutcome.append (x := [ch '\r', ch '\n']) (w := []) ?_
              fun hs => .lineBreak hbreak (.lineBreak (Or.inr rfl) hs)
            rw [List.append_nil]
            exact ih (fun h => ht' (List.mem_cons_of_mem _ h)) (Nat.lt_of_succ_lt hlen)
              value (line + 1)
          · refine StringOutcome.append (x := [ch '\r']) (w := []) ?_ hskip
            have hstep : readString start (n + 1) ⟨line, ch '\r' :: (d :: t ++ [0])⟩ value =
                readString start n ⟨line + 1, d :: t ++ [0]⟩ value := by
              simp only [readString, List.cons_append, if_neg h₀, if_true, if_neg hd]
            rw [List.append_nil, hstep]
            exact ih ht' hlen value (line + 1)
      · rw [readString_plain start h₀ hq hb hcr hlf]
        exact (ih ht' hlen (value ++ [c]) line).append (x := [c]) fun hs =>
          .plain h₀ hq hb hcr hlf hs

/-! ## Keywords and numbers -/

lemma compareLiteral_append {k : List UInt8} (hk : 0 ∉ k) (r : List UInt8) :
    compareLiteral (k ++ r) k = .ok true := by
  induction k with
  | nil => cases r <;> rfl
  | cons c k ih =>
    simp only [List.mem_cons, not_or] at hk
    have hc : ¬ (c = 0 ∨ c ≠ c) := by simpa using Ne.symm hk.1
    rw [List.cons_append, compareLiteral, if_neg hc, ih hk.2]

lemma compareLiteral_cases {k t : List UInt8} (hk : 0 ∉ k) (ht : 0 ∉ t) :
    (∃ r, t = k ++ r ∧ compareLiteral (t ++ [0]) k = .ok true) ∨
    compareLiteral (t ++ [0]) k = .ok false := by
  induction k generalizing t with
  | nil => exact Or.inl ⟨t, rfl, by cases t <;> rfl⟩
  | cons c k ih =>
    simp only [List.mem_cons, not_or] at hk
    cases t with
    | nil => exact Or.inr rfl
    | cons d t =>
      simp only [List.mem_cons, not_or] at ht
      rw [List.cons_append, compareLiteral]
      by_cases hd : d = c
      · subst hd
        rw [if_neg (by simpa using Ne.symm hk.1)]
        rcases ih hk.2 ht.2 with ⟨r, rfl, hok⟩ | hok
        · exact Or.inl ⟨r, rfl, hok⟩
        · exact Or.inr hok
      · exact Or.inr (if_pos (Or.inr hd))

/-- A number does not go on here. -/
def NumberEnds (r : List UInt8) : Prop := ∀ c ∈ r.head?, isNumberByte c = false

lemma NumberEnds.nil : NumberEnds [] := fun _ h => absurd h (by simp)

lemma readNumber_append {n r : List UInt8} (hn : ∀ c ∈ n, isNumberByte c) (hr : NumberEnds r) :
    readNumber (n ++ (r ++ [0])) = .ok (n, decide (ch '.' ∈ n), r ++ [0]) := by
  induction n with
  | nil =>
    have hstop : ∀ (c : UInt8) (s : List UInt8), isNumberByte c = false →
        readNumber (c :: s) = .ok ([], false, c :: s) := by
      intro c s hc
      simp only [isNumberByte, decide_eq_false_iff_not, not_or] at hc
      simp [readNumber, hc]
    cases r with
    | nil => rfl
    | cons c r => exact hstop c (r ++ [0]) (hr c rfl)
  | cons c n ih =>
    have hc := hn c List.mem_cons_self
    rw [List.cons_append, readNumber, ih fun d hd => hn d (List.mem_cons_of_mem _ hd)]
    by_cases hdot : c = ch '.'
    · subst hdot
      rfl
    · have hother : c = ch 'E' ∨ c = ch 'e' ∨ c = ch '-' ∨ c = ch '+' ∨ isDigit c := by
        simpa [isNumberByte, hdot, or_assoc] using hc
      rw [if_pos hother]
      simp [Ne.symm hdot]

/-! ## Tokens -/

/-- A token: its text, its `token.token`, and the value it sets -/
inductive Lexeme {D : Type} [DoubleText D] : List UInt8 → UInt8 → Option (Variant D) → Prop
  | punctuation {c : UInt8} : c ∈ punctuation → Lexeme [c] c none
  | scalar {x : List UInt8} {c : UInt8} {v : Variant D} : Scalar x c v → Lexeme x c (some v)

/-- The parser has just read the first token of a text. -/
inductive Looks {D : Type} [DoubleText D] (q : Private D) : List UInt8 → Prop
  | atEnd {w : List UInt8} : Space w → q.token.token = 0 → q.pos.pos = [0] → Looks q w
  | token {w x r : List UInt8} {c : UInt8} {v : Option (Variant D)} : Space w → Lexeme x c v →
      q.token.token = c → (∀ u ∈ v, q.token.value = u) → q.pos.pos = r ++ [0] → Looks q (w ++ x ++ r)

variable {D : Type} [DoubleText D]

lemma readToken_eq {p : Private D} {w : List UInt8} (hw : Space w) {c : UInt8}
    (hc : isSpace c = false) {s : List UInt8} (hp : p.pos.pos = w ++ c :: s) :
    ∃ line, readToken p = switchToken p ⟨line, c :: s⟩ := by
  obtain ⟨line, hskip⟩ := skipSpace_append hw hc s p.pos.line
  exact ⟨line, by rw [readToken, hp, hskip, ok_bind]⟩

/-- Reading at the end of the text -/
lemma readToken_end {p : Private D} {w : List UInt8} (hw : Space w) (hp : p.pos.pos = w ++ [0]) :
    ∃ q, readToken p = .ok q ∧ q.token.token = 0 ∧ q.pos.pos = [0] := by
  obtain ⟨line, hread⟩ := readToken_eq hw isSpace_zero hp
  exact ⟨_, hread, rfl, rfl⟩

lemma startsNumber_other : ∀ c, startsNumber c → c ≠ 0 ∧ c ∉ punctuation ∧ c ≠ ch '"' ∧
    c ≠ ch 't' ∧ c ≠ ch 'f' ∧ c ≠ ch 'n' ∧ isSpace c = false := forall_byte (by decide +kernel)

lemma isSpace_of_mem_punctuation : ∀ c ∈ punctuation, isSpace c = false := by decide +kernel

/-- The first byte of a token -/
lemma exists_head_of_lexeme {x : List UInt8} {c : UInt8} {v : Option (Variant D)}
    (h : Lexeme x c v) : ∃ d y, x = d :: y ∧ isSpace d = false := by
  cases h with
  | punctuation hc => exact ⟨c, [], rfl, isSpace_of_mem_punctuation c hc⟩
  | scalar hs =>
    cases hs with
    | string _ => exact ⟨_, _, rfl, by decide⟩
    | true => exact ⟨_, _, rfl, by decide⟩
    | false => exact ⟨_, _, rfl, by decide⟩
    | null => exact ⟨_, _, rfl, by decide⟩
    | number hn _ =>
      obtain ⟨d, hd, hstart⟩ := hn
      obtain ⟨y, rfl⟩ : ∃ y, x = d :: y := List.head?_eq_some_iff.mp hd
      exact ⟨d, y, rfl, (startsNumber_other d hstart).2.2.2.2.2.2⟩

lemma switchToken_punctuation (p : Private D) {c : UInt8} (hc : c ∈ punctuation) (s : List UInt8)
    (line : Int32) : switchToken p ⟨line, c :: s⟩ =
      .ok { p with token := ⟨c, p.token.value, ⟨line, c :: s⟩⟩, pos := ⟨line, s⟩ } := by
  simp only [punctuation, List.mem_cons, List.not_mem_nil, or_false] at hc
  have hzero : c ≠ 0 := by rcases hc with h | h | h | h | h | h <;> rw [h] <;> decide
  rw [switchToken]
  simp only [if_neg hzero, if_pos hc]

/-- At a quote, `switchToken` reads a string. -/
lemma switchToken_quote (p : Private D) (s : List UInt8) (line : Int32) :
    switchToken p ⟨line, ch '"' :: s⟩ = (readString p.start s.length ⟨line, s⟩ [] >>= fun r =>
      .ok { p with token := ⟨ch '"', .string r.1, ⟨line, ch '"' :: s⟩⟩, pos := r.2 }) := rfl

/-- At the first byte of a number, `switchToken` reads a number. -/
lemma switchToken_number (p : Private D) {d : UInt8} (hstart : startsNumber d) (s : List UInt8)
    (line : Int32) : switchToken p ⟨line, d :: s⟩ = (readNumber (d :: s) >>= fun r =>
      .ok { p with token := ⟨ch '#', numberValue r.1 r.2.1, ⟨line, d :: s⟩⟩
                   pos := ⟨line, r.2.2⟩ }) := by
  obtain ⟨h₀, hp, hq, ht, hf, hn, -⟩ := startsNumber_other d hstart
  simp only [punctuation, List.mem_cons, List.not_mem_nil, or_false] at hp
  have hnum : d = ch '-' ∨ isDigit d := by simpa [startsNumber] using hstart
  rw [switchToken]
  simp only [if_neg h₀, if_neg hp, if_neg hq, if_neg ht, if_neg hf, if_neg hn, if_pos hnum]

lemma switchToken_true (p : Private D) (s : List UInt8) (line : Int32) :
    switchToken p ⟨line, bytes "true" ++ s⟩ =
      .ok { p with token := ⟨ch 't', .bool true, ⟨line, bytes "true" ++ s⟩⟩, pos := ⟨line, s⟩ } := by
  have hcmp := compareLiteral_append (k := bytes "true") (by decide) s
  show (compareLiteral (bytes "true" ++ s) (bytes "true") >>= _) = _
  rw [hcmp]
  rfl

lemma switchToken_false (p : Private D) (s : List UInt8) (line : Int32) :
    switchToken p ⟨line, bytes "false" ++ s⟩ =
      .ok { p with token := ⟨ch 'f', .bool false, ⟨line, bytes "false" ++ s⟩⟩
                   pos := ⟨line, s⟩ } := by
  have hcmp := compareLiteral_append (k := bytes "false") (by decide) s
  show (compareLiteral (bytes "false" ++ s) (bytes "false") >>= _) = _
  rw [hcmp]
  rfl

lemma switchToken_null (p : Private D) (s : List UInt8) (line : Int32) :
    switchToken p ⟨line, bytes "null" ++ s⟩ =
      .ok { p with token := ⟨ch 'n', .null, ⟨line, bytes "null" ++ s⟩⟩, pos := ⟨line, s⟩ } := by
  have hcmp := compareLiteral_append (k := bytes "null") (by decide) s
  show (compareLiteral (bytes "null" ++ s) (bytes "null") >>= _) = _
  rw [hcmp]
  rfl

/-- **A token of the grammar is read.** -/
lemma readToken_lexeme {p : Private D} {w x r : List UInt8} {c : UInt8} {v : Option (Variant D)}
    (hw : Space w) (hx : Lexeme x c v) (hr : c = ch '#' → NumberEnds r)
    (hp : p.pos.pos = w ++ (x ++ (r ++ [0]))) :
    ∃ q, readToken p = .ok q ∧ q.token.token = c ∧ (∀ u ∈ v, q.token.value = u) ∧
      q.pos.pos = r ++ [0] := by
  obtain ⟨d, y, hdy, hspace⟩ := exists_head_of_lexeme hx
  obtain ⟨line, hread⟩ := readToken_eq hw hspace (s := y ++ (r ++ [0])) (by rw [hp, hdy]; rfl)
  rw [hread, ← List.cons_append, ← hdy]
  cases hx with
  | punctuation hc =>
    exact ⟨_, switchToken_punctuation p hc (r ++ [0]) line, rfl, by simp, rfl⟩
  | scalar hs =>
    cases hs with
    | @string b v hb =>
      obtain ⟨line', hstr⟩ := readString_literal p.start hb (r ++ [0])
        (n := (b ++ ch '"' :: (r ++ [0])).length) (by simp) line
      have htext : literalText b ++ (r ++ [0]) = ch '"' :: (b ++ ch '"' :: (r ++ [0])) := by
        simp [literalText]
      rw [htext, switchToken_quote, hstr, ok_bind]
      exact ⟨_, rfl, rfl, by simp, rfl⟩
    | true => exact ⟨_, switchToken_true p (r ++ [0]) line, rfl, by simp, rfl⟩
    | false => exact ⟨_, switchToken_false p (r ++ [0]) line, rfl, by simp, rfl⟩
    | null => exact ⟨_, switchToken_null p (r ++ [0]) line, rfl, by simp, rfl⟩
    | number hstart hn =>
      obtain ⟨e, he, hstart⟩ := hstart
      obtain ⟨z, rfl⟩ : ∃ z, x = e :: z := List.head?_eq_some_iff.mp he
      rw [List.cons_append, switchToken_number p hstart, ← List.cons_append,
        readNumber_append hn (hr rfl), ok_bind]
      exact ⟨_, rfl, rfl, by simp, rfl⟩

/-- A literal that ends right after a backslash takes the parser past the terminator. -/
lemma readToken_dangling {p : Private D} {t : List UInt8} (ht : Dangling t)
    (hp : p.pos.pos = t ++ [0]) : readToken p = .error .overrun := by
  obtain ⟨w, b, v, rfl, hw, hb⟩ := ht
  have hspace : isSpace (ch '"') = false := by decide
  obtain ⟨line, hread⟩ := readToken_eq hw hspace (s := b ++ [ch '\\', 0]) (by rw [hp]; simp)
  rw [hread, switchToken_quote, readString_dangling p.start hb (by simp)]
  rfl

/-- How `switchToken` ends at a text: it reads a token of the grammar, or runs past the terminator
    from a backslash right before it in a literal, or reports an error. -/
def SwitchOutcome (t : List UInt8) (r : Except Failure (Private D)) : Prop :=
  (∃ q x c v s, t = x ++ s ∧ Lexeme x c v ∧ r = .ok q ∧ q.token.token = c ∧
    (∀ u ∈ v, q.token.value = u) ∧ q.pos.pos = s ++ [0]) ∨
  (∃ b v, t = ch '"' :: (b ++ [ch '\\']) ∧ StringBody b v ∧ r = .error .overrun) ∨
  IsSyntaxError r

/-- At the first byte of a keyword, there is the keyword or an error. -/
lemma switchToken_keyword (p : Private D) {k s : List UInt8} {c d : UInt8} {v : Variant D}
    (hk : 0 ∉ k) (hs : 0 ∉ c :: s) (hlex : Lexeme k d (some v)) (line : Int32)
    (hyes : ∀ r, ∃ pos, switchToken p ⟨line, k ++ r⟩ =
      .ok { p with token := ⟨d, v, pos⟩, pos := ⟨line, r⟩ })
    {after : Bool → Except Failure (Private D)}
    (hcmp : switchToken p ⟨line, c :: s ++ [0]⟩ = compareLiteral (c :: s ++ [0]) k >>= after)
    (hno : IsSyntaxError (after false)) :
    SwitchOutcome (c :: s) (switchToken p ⟨line, c :: s ++ [0]⟩) := by
  rcases compareLiteral_cases hk hs with ⟨r, hr, -⟩ | hfalse
  · obtain ⟨pos, hpos⟩ := hyes (r ++ [0])
    have hok : switchToken p ⟨line, c :: s ++ [0]⟩ =
        .ok { p with token := ⟨d, v, pos⟩, pos := ⟨line, r ++ [0]⟩ } := by
      rw [hr, List.append_assoc, hpos]
    exact Or.inl ⟨_, k, d, some v, r, hr, hlex, hok, rfl, by simp, rfl⟩
  · rw [hcmp, hfalse]
    exact Or.inr (Or.inr hno)

lemma switchToken_cases (p : Private D) {c : UInt8} {s : List UInt8} (hs : 0 ∉ c :: s) (line : Int32) :
    SwitchOutcome (c :: s) (switchToken p ⟨line, c :: s ++ [0]⟩) := by
  by_cases hp : c ∈ punctuation
  · rw [List.cons_append, switchToken_punctuation p hp]
    exact Or.inl ⟨_, [c], c, none, s, rfl, .punctuation hp, rfl, rfl, by simp, rfl⟩
  by_cases hq : c = ch '"'
  · subst hq
    have hs' : 0 ∉ s := fun h => hs (List.mem_cons_of_mem _ h)
    rw [List.cons_append, switchToken_quote]
    rcases readString_cases p.start hs' (n := (s ++ [0]).length) (by simp) [] line with
      ⟨b, v, r, line', rfl, hb, hok⟩ | ⟨b, v, rfl, hb, hok⟩ | herr
    · rw [hok, ok_bind]
      exact Or.inl ⟨_, literalText b, _, some (.string v), r, by simp [literalText],
        .scalar (.string hb), rfl, rfl, by simp, rfl⟩
    · rw [hok]
      exact Or.inr (Or.inl ⟨b, v, rfl, hb, rfl⟩)
    · exact Or.inr (Or.inr (herr.bind _))
  by_cases ht : c = ch 't'
  · subst ht
    exact switchToken_keyword p (by decide) hs (.scalar .true) line
      (fun r => ⟨_, switchToken_true p r line⟩) rfl (isSyntaxError _ _ _)
  by_cases hf : c = ch 'f'
  · subst hf
    exact switchToken_keyword p (by decide) hs (.scalar .false) line
      (fun r => ⟨_, switchToken_false p r line⟩) rfl (isSyntaxError _ _ _)
  by_cases hn : c = ch 'n'
  · subst hn
    exact switchToken_keyword p (by decide) hs (.scalar .null) line
      (fun r => ⟨_, switchToken_null p r line⟩) rfl (isSyntaxError _ _ _)
  by_cases hstart : startsNumber c
  · obtain ⟨n, r, rfl, hn', hr⟩ := exists_takeWhile isNumberByte s
    have hall : ∀ d ∈ c :: n, isNumberByte d := by
      intro d hd
      rcases List.mem_cons.mp hd with rfl | hd
      · simp only [startsNumber, decide_eq_true_eq] at hstart
        rcases hstart with h | h <;> simp [isNumberByte, h]
      · exact hn' d hd
    have hread := readNumber_append hall hr
    rw [List.cons_append] at hread
    rw [List.cons_append, switchToken_number p hstart, List.append_assoc, hread, ok_bind]
    exact Or.inl ⟨_, c :: n, ch '#', some (numberValue (c :: n) (decide (ch '.' ∈ c :: n))), r, rfl,
      .scalar (.number ⟨c, rfl, hstart⟩ hall), rfl, rfl, by simp, rfl⟩
  · have h₀ : c ≠ 0 := fun h => hs (by rw [h]; exact List.mem_cons_self)
    have hnum : ¬ (c = ch '-' ∨ isDigit c) := by simpa [startsNumber] using hstart
    simp only [punctuation, List.mem_cons, List.not_mem_nil, or_false] at hp
    right
    right
    rw [List.cons_append, switchToken]
    simp only [if_neg h₀, if_neg hp, if_neg hq, if_neg ht, if_neg hf, if_neg hn, if_neg hnum]
    exact isSyntaxError _ _ _

/-- **Whatever the text**, `readToken` reads its first token, or runs past the terminator from a
    backslash right before it, or reports an error. -/
lemma readToken_cases {p : Private D} {t : List UInt8} (ht : 0 ∉ t) (hp : p.pos.pos = t ++ [0]) :
    (∃ q, readToken p = .ok q ∧ Looks q t) ∨ (Dangling t ∧ readToken p = .error .overrun) ∨
    IsSyntaxError (readToken p) := by
  obtain ⟨w, x, rfl, hw, hx⟩ := exists_space t
  cases x with
  | nil =>
    obtain ⟨q, hq, htok, hpos⟩ := readToken_end hw (by rw [hp, List.append_nil])
    rw [List.append_nil]
    exact Or.inl ⟨q, hq, .atEnd hw htok hpos⟩
  | cons c s =>
    obtain ⟨line, hread⟩ := readToken_eq hw (hx c rfl) (s := s ++ [0]) (by rw [hp]; simp)
    rw [hread, ← List.cons_append]
    rcases switchToken_cases p (fun h => ht (List.mem_append_right w h)) line with
      ⟨q, x, d, v, r, hxr, hlex, hq, htok, hval, hpos⟩ | ⟨b, v, hb, hbody, hover⟩ | herr
    · have hlooks : Looks q (w ++ (x ++ r)) := by
        rw [← List.append_assoc]
        exact .token hw hlex htok hval hpos
      exact Or.inl ⟨q, hq, hxr ▸ hlooks⟩
    · exact Or.inr (Or.inl ⟨⟨w, b, v, by rw [hb], hw, hbody⟩, hover⟩)
    · exact Or.inr (Or.inr herr)

end Nstd.Json
