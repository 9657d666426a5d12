import Mathlib.Data.List.TakeWhile
import Nstd.Core.Calls
import Nstd.Core.LineEnds
import Nstd.Document.XmlParser

/-!
# What the scanners of the XML parser do

* `skipBlank_cons` and the lemmas after it — the loops of `skipSpace`, byte by byte.
* `Blank`, `skipSpace_spec` — `skipSpace` passes over white space and comments, and counts their lines.
* `skipText_spec` — `parseText` stops at the next `<`.
* `readToken_spec` — a token, and the text before and after it.
-/

namespace Nstd.Xml

/-! ## Calls -/

lemma syntaxError_ne_ok {α : Type} {p : Private} {pos : Position} {error : List UInt8} {a : α} :
    syntaxError p pos error ≠ .ok a := by
  simp [syntaxError]

/-! ## White space and comments -/

/-- What a comment begins with -/
def commentBegin : List UInt8 := bytes "<!--"

/-- What a comment ends with -/
def commentEnd : List UInt8 := bytes "-->"

/-- The inside of a comment: the first end of a comment is the one after it. -/
def CommentBody (b : List UInt8) : Prop := ∀ p s, b ++ commentEnd = p ++ commentEnd ++ s → s = []

/-- White space and comments -/
inductive Blank : List UInt8 → Prop
  | nil : Blank []
  | space {c : UInt8} {w : List UInt8} : isSpace c → Blank w → Blank (c :: w)
  | comment {b w : List UInt8} : CommentBody b → Blank w →
      Blank (commentBegin ++ b ++ commentEnd ++ w)

lemma skipBlank_lf (s : List UInt8) (line : Int32) (lineStart : List UInt8) :
    skipBlank line lineStart (ch '\n' :: s) = skipBlank (line + 1) s s := by
  have hne : ch '\n' ≠ ch '\r' := by decide
  rw [skipBlank.eq_def]
  simp [hne]

lemma skipBlank_cons {c : UInt8} (hc : isSpace c) (s : List UInt8) (line : Int32)
    (lineStart : List UInt8) : ∃ lineStart',
      skipBlank line lineStart (c :: s) = skipBlank (further line (lineEnds [c] s)) lineStart' s := by
  by_cases hcr : c = ch '\r'
  · subst hcr
    cases s with
    | nil => exact ⟨[], rfl⟩
    | cons d s =>
      by_cases hlf : d = ch '\n'
      · subst hlf
        rw [lineEnds_crlf, further_zero]
        exact ⟨[], by rw [skipBlank, if_pos rfl, if_pos rfl, skipBlank_lf]⟩
      · rw [lineEnds_cr (by simpa using hlf), further_one]
        exact ⟨d :: s, by rw [skipBlank, if_pos rfl, if_neg hlf]⟩
  · by_cases hlf : c = ch '\n'
    · subst hlf
      rw [lineEnds_lf, further_one]
      exact ⟨s, skipBlank_lf s line lineStart⟩
    · have hlt : c ≠ ch '<' := by
        rintro rfl
        exact absurd hc (by decide)
      rw [lineEnds_other hcr hlf, further_zero]
      exact ⟨lineStart, by rw [skipBlank.eq_def]; simp [hcr, hlf, hlt, hc]⟩

lemma skipBlank_comment (s : List UInt8) (line : Int32) (lineStart : List UInt8) :
    skipBlank line lineStart (commentBegin ++ s) = skipComment line lineStart s := rfl

lemma skipBlank_stop {c : UInt8} {s : List UInt8} (hc : isSpace c = false)
    (hcomment : ¬ commentBegin <+: c :: s) (line : Int32) (lineStart : List UInt8) :
    skipBlank line lineStart (c :: s) = ⟨line, c :: s, lineStart⟩ := by
  have hcr : c ≠ ch '\r' := fun h => absurd hc (by rw [h]; decide)
  have hlf : c ≠ ch '\n' := fun h => absurd hc (by rw [h]; decide)
  by_cases hlt : c = ch '<'
  · subst hlt
    match s with
    | [] => rfl
    | [d] => rfl
    | [d, e] => rfl
    | d :: e :: f :: s =>
      have hopen : ¬ (d = ch '!' ∧ e = ch '-' ∧ f = ch '-') := by
        rintro ⟨rfl, rfl, rfl⟩
        exact hcomment ⟨s, rfl⟩
      rw [skipBlank, if_neg hcr, if_neg hlf, if_pos rfl]
      exact if_neg hopen
  · rw [skipBlank.eq_def]
    simp [hcr, hlf, hlt, hc]

lemma skipComment_end (s : List UInt8) (line : Int32) (lineStart : List UInt8) :
    skipComment line lineStart (commentEnd ++ s) = skipBlank line lineStart s := rfl

lemma skipComment_lf (s : List UInt8) (line : Int32) (lineStart : List UInt8) :
    skipComment line lineStart (ch '\n' :: s) = skipComment (line + 1) s s := by
  have hne : ch '\n' ≠ ch '\r' := by decide
  rw [skipComment.eq_def]
  simp [hne]

lemma skipComment_cons {c : UInt8} {s : List UInt8} (hend : ¬ commentEnd <+: c :: s) (line : Int32)
    (lineStart : List UInt8) : ∃ lineStart',
      skipComment line lineStart (c :: s) = skipComment (further line (lineEnds [c] s)) lineStart' s := by
  by_cases hcr : c = ch '\r'
  · subst hcr
    cases s with
    | nil => exact ⟨[], rfl⟩
    | cons d s =>
      by_cases hlf : d = ch '\n'
      · subst hlf
        rw [lineEnds_crlf, further_zero]
        exact ⟨[], by rw [skipComment, if_pos rfl, if_pos rfl, skipComment_lf]⟩
      · rw [lineEnds_cr (by simpa using hlf), further_one]
        exact ⟨d :: s, by rw [skipComment, if_pos rfl, if_neg hlf]⟩
  · by_cases hlf : c = ch '\n'
    · subst hlf
      rw [lineEnds_lf, further_one]
      exact ⟨s, skipComment_lf s line lineStart⟩
    · rw [lineEnds_other hcr hlf, further_zero]
      by_cases hdash : c = ch '-'
      · subst hdash
        match s with
        | [] => exact ⟨lineStart, rfl⟩
        | [d] => exact ⟨lineStart, rfl⟩
        | d :: e :: s =>
          have hopen : ¬ (d = ch '-' ∧ e = ch '>') := by
            rintro ⟨rfl, rfl⟩
            exact hend ⟨s, rfl⟩
          refine ⟨lineStart, ?_⟩
          rw [skipComment, if_neg hcr, if_neg hlf, if_pos rfl]
          exact if_neg hopen
      · exact ⟨lineStart, by rw [skipComment.eq_def]; simp [hcr, hlf, hdash]⟩

/-- Where `skipSpace` stops: at no white space and at no comment -/
def Stops (r : List UInt8) : Prop :=
  (∀ c ∈ r.head?, isSpace c = false) ∧ ¬ commentBegin <+: r

lemma lineEnds_commentBegin (s : List UInt8) : lineEnds commentBegin s = 0 :=
  lineEnds_eq_zero (by decide +kernel) s

lemma lineEnds_commentEnd (s : List UInt8) : lineEnds commentEnd s = 0 :=
  lineEnds_eq_zero (by decide +kernel) s

lemma CommentBody.cons {c : UInt8} {b s : List UInt8} (hb : CommentBody b)
    (hend : ¬ commentEnd <+: c :: (b ++ commentEnd ++ s)) : CommentBody (c :: b) := by
  intro p t h
  cases p with
  | nil =>
    refine absurd ⟨t ++ s, ?_⟩ hend
    rw [← List.append_assoc, ← List.cons_append, ← List.cons_append, h]
    rfl
  | cons d p => exact hb p t (List.cons.inj h).2

/-- From `s` on, what is passed over up to `r` is `passed`, or all there is; its lines are counted. -/
def Skips (passed : List UInt8 → Prop) (line : Int32) (s : List UInt8) (r : Position) : Prop :=
  ∃ w, s = w ++ r.pos ∧ (r.pos ≠ [] → passed w) ∧ Stops r.pos ∧ r.line = further line (lineEnds w r.pos)

lemma Skips.stop {passed : List UInt8 → Prop} {s : List UInt8} (h : Stops s)
    (hpassed : s ≠ [] → passed []) (line : Int32) (lineStart : List UInt8) :
    Skips passed line s ⟨line, s, lineStart⟩ := ⟨[], rfl, hpassed, h, rfl⟩

/-- Something in front of what is passed over -/
lemma Skips.append {passed passed' : List UInt8 → Prop} {u s : List UInt8} {line line' : Int32}
    {r : Position} (h : Skips passed line' s r) (hline' : line' = further line (lineEnds u s))
    (hpassed : ∀ w, s = w ++ r.pos → passed w → passed' (u ++ w)) :
    Skips passed' line (u ++ s) r := by
  obtain ⟨w, hw, hblank, hstops, hline⟩ := h
  refine ⟨u ++ w, by rw [List.append_assoc, ← hw], fun hr => hpassed w hw (hblank hr), hstops, ?_⟩
  rw [lineEnds_append, ← hw, ← further_further, ← hline', hline]

/-- The rest of a comment, and blanks behind it -/
def CommentRest (w : List UInt8) : Prop := ∃ b w', w = b ++ commentEnd ++ w' ∧ CommentBody b ∧ Blank w'

lemma commentBody_nil : CommentBody [] := by
  intro p s h
  have := congrArg List.length h
  simp only [List.length_append, List.nil_append] at this
  exact List.length_eq_zero_iff.mp (by omega)

lemma length_of_append {u t s : List UInt8} {n : ℕ} (h : u ++ t = s) (hu : u ≠ [])
    (hs : s.length ≤ n + 1) : t.length ≤ n := by
  have hpos := List.length_pos_of_ne_nil hu
  rw [← h, List.length_append] at hs
  omega

/-- What the two loops of `skipSpace` pass over.  The induction is on the length of the text. -/
lemma skip_spec (n : ℕ) : ∀ s : List UInt8, s.length ≤ n →
    (∀ line lineStart, Skips Blank line s (skipBlank line lineStart s)) ∧
      ∀ line lineStart, Skips CommentRest line s (skipComment line lineStart s) := by
  have hnil : Stops [] := ⟨by simp, by decide⟩
  induction n with
  | zero =>
    intro s hs
    obtain rfl := List.length_eq_zero_iff.mp (Nat.le_zero.mp hs)
    exact ⟨.stop hnil fun h => absurd rfl h, .stop hnil fun h => absurd rfl h⟩
  | succ n ih =>
    intro s hs
    refine ⟨fun line lineStart => ?_, fun line lineStart => ?_⟩
    · match s with
      | [] => exact .stop hnil (fun h => absurd rfl h) line lineStart
      | c :: s =>
        by_cases hc : isSpace c
        · obtain ⟨lineStart', hskip⟩ := skipBlank_cons hc s line lineStart
          have hrest := (ih s (Nat.le_of_succ_le_succ hs)).1 (further line (lineEnds [c] s)) lineStart'
          rw [hskip]
          exact hrest.append rfl fun w _ hw => .space hc hw
        · have hc' : isSpace c = false := by simpa using hc
          by_cases hcomment : commentBegin <+: c :: s
          · obtain ⟨t, ht⟩ := hcomment
            have hrest := (ih t (length_of_append ht (by decide) hs)).2 line lineStart
            rw [← ht, skipBlank_comment]
            refine hrest.append (by rw [lineEnds_commentBegin, further_zero]) ?_
            rintro w - ⟨b, w, rfl, hb, hw⟩
            rw [← List.append_assoc, ← List.append_assoc]
            exact .comment hb hw
          · rw [skipBlank_stop hc' hcomment]
            refine .stop ⟨?_, hcomment⟩ (fun _ => .nil) line lineStart
            rintro d hd
            obtain rfl : c = d := Option.some_inj.mp hd
            exact hc'
    · match s with
      | [] => exact .stop hnil (fun h => absurd rfl h) line lineStart
      | c :: s =>
        by_cases hend : commentEnd <+: c :: s
        · obtain ⟨t, ht⟩ := hend
          have hrest := (ih t (length_of_append ht (by decide) hs)).1 line lineStart
          rw [← ht, skipComment_end]
          refine hrest.append (by rw [lineEnds_commentEnd, further_zero]) fun w _ hw => ?_
          exact ⟨[], w, rfl, commentBody_nil, hw⟩
        · obtain ⟨lineStart', hskip⟩ := skipComment_cons hend line lineStart
          have hrest := (ih s (Nat.le_of_succ_le_succ hs)).2 (further line (lineEnds [c] s)) lineStart'
          rw [hskip]
          refine hrest.append rfl ?_
          rintro w hw ⟨b, w', rfl, hb, hw'⟩
          rw [hw, List.append_assoc] at hend
          exact ⟨c :: b, w', rfl, hb.cons hend, hw'⟩

lemma skipSpace_spec (pos : Position) : ∃ w, pos.pos = w ++ (skipSpace pos).pos ∧
    ((skipSpace pos).pos ≠ [] → Blank w) ∧ Stops (skipSpace pos).pos ∧
    (skipSpace pos).line = further pos.line (lineEnds w (skipSpace pos).pos) :=
  (skip_spec pos.pos.length pos.pos le_rfl).1 pos.line pos.lineStart

lemma length_skipSpace (pos : Position) : (skipSpace pos).pos.length ≤ pos.pos.length := by
  obtain ⟨w, hw, -, -⟩ := skipSpace_spec pos
  rw [hw, List.length_append]
  omega

/-- At no white space and no comment, `skipSpace` stays. -/
lemma skipSpace_stays {pos : Position} (h : Stops pos.pos) : skipSpace pos = pos := by
  obtain ⟨line, s, lineStart⟩ := pos
  cases s with
  | nil => rfl
  | cons c s => exact skipBlank_stop (h.1 c rfl) h.2 line lineStart

/-! ## Text -/

lemma skipText_lf (s : List UInt8) (line : Int32) (lineStart : List UInt8) :
    skipText line lineStart (ch '\n' :: s) = skipText (line + 1) s s := by
  have hlt : ch '\n' ≠ ch '<' := by decide
  have hcr : ch '\n' ≠ ch '\r' := by decide
  rw [skipText.eq_def]
  simp [hlt, hcr]

lemma skipText_cons {c : UInt8} (hc : c ≠ ch '<') (s : List UInt8) (line : Int32)
    (lineStart : List UInt8) : ∃ lineStart',
      skipText line lineStart (c :: s) = skipText (further line (lineEnds [c] s)) lineStart' s := by
  by_cases hcr : c = ch '\r'
  · subst hcr
    cases s with
    | nil => exact ⟨[], rfl⟩
    | cons d s =>
      by_cases hlf : d = ch '\n'
      · subst hlf
        rw [lineEnds_crlf, further_zero]
        exact ⟨[], by rw [skipText, if_neg hc, if_pos rfl, if_pos rfl, skipText_lf]⟩
      · rw [lineEnds_cr (by simpa using hlf), further_one]
        exact ⟨d :: s, by rw [skipText, if_neg hc, if_pos rfl, if_neg hlf]⟩
  · by_cases hlf : c = ch '\n'
    · subst hlf
      rw [lineEnds_lf, further_one]
      exact ⟨s, skipText_lf s line lineStart⟩
    · rw [lineEnds_other hcr hlf, further_zero]
      exact ⟨lineStart, by rw [skipText.eq_def]; simp [hc, hcr, hlf]⟩

lemma skipText_stop (s : List UInt8) (line : Int32) (lineStart : List UInt8) :
    skipText line lineStart (ch '<' :: s) = ⟨line, ch '<' :: s, lineStart⟩ := by
  rw [skipText.eq_def]
  simp

/-- At `<`, `parseText` reads nothing. -/
lemma parseText_nil {p : Private} (h : p.pos.pos.head? = some (ch '<')) : parseText p = .ok (p, []) := by
  obtain ⟨token, ⟨line, t, lineStart⟩, errorLine, errorColumn, errorString⟩ := p
  obtain ⟨s, rfl⟩ : ∃ s, t = ch '<' :: s := List.head?_eq_some_iff.mp h
  rw [parseText]
  simp [skipText_stop, unescapeString]

/-- The loop of `parseText` stops at the next `<`, or at the end. -/
lemma skipText_pos (s : List UInt8) (line : Int32) (lineStart : List UInt8) :
    (skipText line lineStart s).pos = s.dropWhile fun c => c ≠ ch '<' := by
  induction s generalizing line lineStart with
  | nil => rfl
  | cons c s ih =>
    by_cases hc : c = ch '<'
    · subst hc
      rw [skipText_stop]
      simp
    · obtain ⟨lineStart', hskip⟩ := skipText_cons hc s line lineStart
      rw [hskip, ih, List.dropWhile_cons_of_pos (by simpa using hc)]

/-- `parseText` reads up to the next `<`. -/
lemma parseText_append {p : Private} {x r : List UInt8} (hx : ch '<' ∉ x)
    (hp : p.pos.pos = x ++ ch '<' :: r) : ∃ q, parseText p = .ok (q, unescapeString x) ∧
      q.pos.pos = ch '<' :: r := by
  have hdrop : (x ++ ch '<' :: r).dropWhile (fun c => c ≠ ch '<') = ch '<' :: r := by
    rw [List.dropWhile_append_of_pos fun c hc => by simpa using fun h : c = ch '<' => hx (h ▸ hc)]
    simp
  have hpos : (skipText p.pos.line p.pos.lineStart p.pos.pos).pos = ch '<' :: r := by
    rw [skipText_pos, hp, hdrop]
  have htake : (x ++ ch '<' :: r).take ((x ++ ch '<' :: r).length - (ch '<' :: r).length) = x := by
    rw [List.length_append, Nat.add_sub_cancel, List.take_left]
  refine ⟨{ p with pos := skipText p.pos.line p.pos.lineStart p.pos.pos }, ?_, hpos⟩
  rw [parseText]
  simp only [hpos, List.cons_ne_nil, if_false]
  rw [hp, htake]

/-- How `parseText` ends: at the next `<`, or with an error -/
lemma parseText_cases (p : Private) :
    (∃ q x r, p.pos.pos = x ++ ch '<' :: r ∧ ch '<' ∉ x ∧
      parseText p = .ok (q, unescapeString x) ∧ q.pos.pos = ch '<' :: r) ∨
    ∃ q, parseText p = .error (.syntaxError q) := by
  by_cases hlt : ch '<' ∈ p.pos.pos
  · obtain ⟨x, r, hxr, hx⟩ := List.eq_append_cons_of_mem hlt
    obtain ⟨q, hq, hpos⟩ := parseText_append hx hxr
    exact Or.inl ⟨q, x, r, hxr, hx, hq, hpos⟩
  · have hpos : (skipText p.pos.line p.pos.lineStart p.pos.pos).pos = [] := by
      rw [skipText_pos, List.dropWhile_eq_nil_iff]
      intro c hc
      simpa using fun h : c = ch '<' => hlt (h ▸ hc)
    right
    rw [parseText]
    simp only [hpos, if_true]
    exact ⟨_, rfl⟩

/-! ## Tokens -/

/-- The text of a token, with its type and value; the value of most tokens is what was left there by
    the token before. -/
inductive Lexeme : TokenType → List UInt8 → List UInt8 → Prop
  | startTagBegin {v : List UInt8} : Lexeme .startTagBegin (bytes "<") v
  | tagEnd {v : List UInt8} : Lexeme .tagEnd (bytes ">") v
  | endTagBegin {v : List UInt8} : Lexeme .endTagBegin (bytes "</") v
  | emptyTagEnd {v : List UInt8} : Lexeme .emptyTagEnd (bytes "/>") v
  | equalsSign {v : List UInt8} : Lexeme .equalsSign (bytes "=") v
  | string {c : UInt8} {b : List UInt8} : c = ch '"' ∨ c = ch '\x27' →
      (∀ d ∈ b, d ∉ [c, ch '\r', ch '\n']) → Lexeme .string (c :: (b ++ [c])) (unescapeString b)
  | name {x : List UInt8} : x ≠ [] → (∀ c ∈ x, isNameByte c) →
      (∀ c ∈ x.head?, c ∉ [ch '<', ch '"', ch '\x27']) → Lexeme .name x x

lemma Lexeme.ne_nil {type : TokenType} {x v : List UInt8} (h : Lexeme type x v) : x ≠ [] := by
  cases h with
  | string _ _ => exact List.cons_ne_nil _ _
  | name h _ _ => exact h
  | _ => decide

/-- How `switchToken` ends: with a token of the grammar, or with an error where it began, which is not
    at `<` -/
lemma switchToken_cases (p : Private) :
    (∃ q x, switchToken p = .ok q ∧ p.pos.pos = x ++ q.pos.pos ∧
      Lexeme q.token.type x q.token.value ∧ q.token.pos = p.token.pos ∧ q.pos.line = p.pos.line) ∨
    ∃ error, switchToken p = syntaxError p p.pos error ∧ p.pos.pos.head? ≠ some (ch '<') := by
  obtain ⟨token, ⟨line, t, lineStart⟩, errorLine, errorColumn, errorString⟩ := p
  cases t with
  | nil => exact Or.inr ⟨_, rfl, by simp⟩
  | cons c s =>
    rw [switchToken.eq_def]
    dsimp only
    split_ifs with hlt hslash hgt heq hquote hempty hname
    · subst hlt
      obtain ⟨s', rfl⟩ := List.head?_eq_some_iff.mp hslash
      exact Or.inl ⟨_, bytes "</", rfl, rfl, .endTagBegin, rfl, rfl⟩
    · subst hlt
      exact Or.inl ⟨_, bytes "<", rfl, rfl, .startTagBegin, rfl, rfl⟩
    · subst hgt
      exact Or.inl ⟨_, bytes ">", rfl, rfl, .tagEnd, rfl, rfl⟩
    · subst heq
      exact Or.inl ⟨_, bytes "=", rfl, rfl, .equalsSign, rfl, rfl⟩
    · rcases findOneOf_cases [c, ch '\r', ch '\n'] s with
        ⟨b, e, d, rfl, hb, hd, hfind⟩ | ⟨hnone, -⟩
      · rw [hfind]
        dsimp only
        split_ifs with hnewline
        · exact Or.inr ⟨_, rfl, by simpa using hlt⟩
        · obtain rfl : d = c := by simpa using hnewline
          have htake : (b ++ d :: e).take ((b ++ d :: e).length - (d :: e).length) = b := by
            rw [List.length_append, Nat.add_sub_cancel, List.take_left]
          rw [htake]
          exact Or.inl ⟨_, d :: (b ++ [d]), rfl, by simp, .string hquote hb, rfl, rfl⟩
      · rw [hnone]
        exact Or.inr ⟨_, rfl, by simpa using hlt⟩
    · obtain ⟨rfl, hgt'⟩ := hempty
      obtain ⟨s', rfl⟩ := List.head?_eq_some_iff.mp hgt'
      exact Or.inl ⟨_, bytes "/>", rfl, rfl, .emptyTagEnd, rfl, rfl⟩
    · exact Or.inr ⟨_, rfl, by simpa using hlt⟩
    · refine Or.inl ⟨_, (c :: s).takeWhile isNameByte, rfl,
        List.takeWhile_append_dropWhile.symm, .name hname (fun d hd => ?_) fun d hd => ?_, rfl, rfl⟩
      · exact List.mem_takeWhile_imp hd
      · have hbyte : isNameByte c := by
          by_contra hnot
          exact hname (List.takeWhile_cons_of_neg hnot)
        rw [List.takeWhile_cons_of_pos hbyte] at hd
        obtain rfl : c = d := Option.some_inj.mp hd
        simpa [hlt] using hquote

/-- How `readToken` ends -/
lemma readToken_cases (p : Private) :
    (∃ q w x, readToken p = .ok q ∧ p.pos.pos = w ++ x ++ q.pos.pos ∧ Blank w ∧
      Lexeme q.token.type x q.token.value ∧ q.token.pos = skipSpace p.pos) ∨
    ∃ q, readToken p = .error (.syntaxError q) ∧ q.pos = skipSpace p.pos ∧
      q.pos.pos.head? ≠ some (ch '<') := by
  obtain ⟨w, hw, hblank, -⟩ := skipSpace_spec p.pos
  rw [readToken]
  rcases switchToken_cases { p with pos := skipSpace p.pos, token.pos := skipSpace p.pos } with
    ⟨q, x, hq, hx, hlex, hpos, -⟩ | ⟨error, hq, hhead⟩
  · refine Or.inl ⟨q, w, x, hq, ?_, hblank ?_, hlex, hpos⟩
    · rw [hw, List.append_assoc]
      exact congrArg (w ++ ·) hx
    · intro h
      have hx' : [] = x ++ q.pos.pos := h ▸ hx
      exact hlex.ne_nil (List.append_eq_nil_iff.mp hx'.symm).1
  · exact Or.inr ⟨_, hq, rfl, hhead⟩

/-- A token takes the parser on. -/
lemma readToken_lt {p q : Private} (h : readToken p = .ok q) : q.pos.pos.length < p.pos.pos.length := by
  rcases readToken_cases p with ⟨q', w, x, hq, hpos, -, hlex, -⟩ | ⟨q', hq, -, -⟩
  · rw [h] at hq
    obtain rfl := Except.ok.inj hq
    have := List.length_pos_of_ne_nil hlex.ne_nil
    rw [hpos, List.length_append, List.length_append]
    omega
  · rw [h] at hq
    exact absurd hq (by simp)

/-! ## Reading a token that is there -/

lemma skipBlank_append {w r : List UInt8} (hw : ∀ c ∈ w, isSpace c) (hr : Stops r) (line : Int32)
    (lineStart : List UInt8) : (skipBlank line lineStart (w ++ r)).pos = r := by
  induction w generalizing line lineStart with
  | nil =>
    have hstays : skipSpace ⟨line, r, lineStart⟩ = ⟨line, r, lineStart⟩ := skipSpace_stays hr
    exact congrArg Position.pos hstays
  | cons c w ih =>
    obtain ⟨lineStart', hskip⟩ :=
      skipBlank_cons (hw c List.mem_cons_self) (w ++ r) line lineStart
    rw [List.cons_append, hskip]
    exact ih (fun d hd => hw d (List.mem_cons_of_mem c hd)) _ lineStart'

/-- What has to follow the text of a token, so that this is where the token ends -/
def Follows : TokenType → List UInt8 → List UInt8 → Prop
  | .startTagBegin, _, r => r.head? ≠ some (ch '/') ∧ ¬ bytes "!--" <+: r
  | .name, _, r => ∀ c ∈ r.head?, isNameByte c = false
  | _, _, _ => True

lemma isSpace_of_isNameByte {c : UInt8} (h : isNameByte c) : isSpace c = false := by
  simp only [isNameByte, decide_eq_true_eq] at h
  simpa using h.2.2.2

lemma Lexeme.stops {type : TokenType} {x v r : List UInt8} (h : Lexeme type x v)
    (hr : Follows type x r) : Stops (x ++ r) := by
  have hfirst : ∀ {c : UInt8} {s : List UInt8}, isSpace c = false → c ≠ ch '<' →
      Stops (c :: s) := by
    intro c s hc hlt
    refine ⟨fun d hd => ?_, fun hcomment => ?_⟩
    · obtain rfl : c = d := Option.some_inj.mp hd
      exact hc
    · obtain ⟨t, ht⟩ := hcomment
      exact hlt (List.cons.inj ht).1.symm
  cases h with
  | startTagBegin =>
    refine ⟨fun c hc => ?_, fun hcomment => hr.2 ?_⟩
    · obtain rfl : ch '<' = c := Option.some_inj.mp hc
      decide
    · obtain ⟨t, ht⟩ := hcomment
      exact ⟨t, (List.cons.inj ht).2⟩
  | endTagBegin =>
    refine ⟨fun c hc => ?_, fun hcomment => ?_⟩
    · obtain rfl : ch '<' = c := Option.some_inj.mp hc
      decide
    · obtain ⟨t, ht⟩ := hcomment
      have hslash : ch '!' = ch '/' := (List.cons.inj (List.cons.inj ht).2).1
      exact absurd hslash (by decide)
  | tagEnd | emptyTagEnd | equalsSign => exact hfirst (by decide) (by decide)
  | string hquote _ =>
    rcases hquote with rfl | rfl
    · exact hfirst (by decide) (by decide)
    · exact hfirst (by decide) (by decide)
  | name hne hall hhead =>
    obtain ⟨c, s, rfl⟩ := List.exists_cons_of_ne_nil hne
    refine hfirst (isSpace_of_isNameByte (hall c List.mem_cons_self)) fun h => ?_
    exact hhead c rfl (by simp [h])

/-- Does a token of this type have a value of its own? -/
def TokenType.hasValue (type : TokenType) : Bool := type = .string ∨ type = .name

lemma while_of_head {f : UInt8 → Bool} {r : List UInt8} (h : ∀ c ∈ r.head?, f c = false) :
    r.takeWhile f = [] ∧ r.dropWhile f = r := by
  cases r with
  | nil => exact ⟨rfl, rfl⟩
  | cons c r =>
    have hc : ¬ f c := by simpa using h c rfl
    exact ⟨List.takeWhile_cons_of_neg hc, List.dropWhile_cons_of_neg hc⟩

lemma switchToken_lexeme {p : Private} {type : TokenType} {x v r : List UInt8}
    (hx : Lexeme type x v) (hr : Follows type x r) (hp : p.pos.pos = x ++ r) :
    ∃ q, switchToken p = .ok q ∧ q.token.type = type ∧
      (type.hasValue → q.token.value = v) ∧ q.pos.pos = r := by
  obtain ⟨token, ⟨line, t, lineStart⟩, errorLine, errorColumn, errorString⟩ := p
  obtain rfl : t = x ++ r := hp
  cases hx with
  | startTagBegin =>
    have htext : bytes "<" ++ r = ch '<' :: r := rfl
    rw [htext, switchToken.eq_def]
    dsimp only
    rw [if_pos rfl, if_neg hr.1]
    exact ⟨_, rfl, rfl, fun h => absurd h (by decide), rfl⟩
  | endTagBegin =>
    have htext : bytes "</" ++ r = ch '<' :: ch '/' :: r := rfl
    rw [htext, switchToken.eq_def]
    dsimp only
    rw [if_pos rfl, if_pos (by rfl)]
    exact ⟨_, rfl, rfl, fun h => absurd h (by decide), rfl⟩
  | tagEnd =>
    have hlt : ch '>' ≠ ch '<' := by decide
    have htext : bytes ">" ++ r = ch '>' :: r := rfl
    rw [htext, switchToken.eq_def]
    dsimp only
    rw [if_neg hlt, if_pos rfl]
    exact ⟨_, rfl, rfl, fun h => absurd h (by decide), rfl⟩
  | equalsSign =>
    have hlt : ch '=' ≠ ch '<' := by decide
    have hgt : ch '=' ≠ ch '>' := by decide
    have htext : bytes "=" ++ r = ch '=' :: r := rfl
    rw [htext, switchToken.eq_def]
    dsimp only
    rw [if_neg hlt, if_neg hgt, if_pos rfl]
    exact ⟨_, rfl, rfl, fun h => absurd h (by decide), rfl⟩
  | emptyTagEnd =>
    have hlt : ch '/' ≠ ch '<' := by decide
    have hgt : ch '/' ≠ ch '>' := by decide
    have heq : ch '/' ≠ ch '=' := by decide
    have hquote : ¬ (ch '/' = ch '"' ∨ ch '/' = ch '\x27') := by decide
    have htext : bytes "/>" ++ r = ch '/' :: ch '>' :: r := rfl
    rw [htext, switchToken.eq_def]
    dsimp only
    rw [if_neg hlt, if_neg hgt, if_neg heq, if_neg hquote, if_pos ⟨rfl, rfl⟩]
    exact ⟨_, rfl, rfl, fun h => absurd h (by decide), rfl⟩
  | @string c b hquote hb =>
    have hother : c ≠ ch '<' ∧ c ≠ ch '>' ∧ c ≠ ch '=' := by
      rcases hquote with rfl | rfl <;> decide
    have hfind : findOneOf id [c, ch '\r', ch '\n'] (b ++ c :: r) = some (c :: r) :=
      findOneOf_append hb List.mem_cons_self
    have htake : (b ++ c :: r).take ((b ++ c :: r).length - (c :: r).length) = b := by
      rw [List.length_append, Nat.add_sub_cancel, List.take_left]
    have htext : (c :: (b ++ [c])) ++ r = c :: (b ++ c :: r) := by simp
    rw [htext, switchToken.eq_def]
    dsimp only
    rw [if_neg hother.1, if_neg hother.2.1, if_neg hother.2.2, if_pos hquote, hfind]
    have hsame : ¬ (c :: r).head? ≠ some c := not_not.mpr rfl
    dsimp only
    rw [if_neg hsame, htake]
    exact ⟨_, rfl, rfl, fun _ => rfl, rfl⟩
  | name hne hall hhead =>
    have hnext : ∀ c ∈ r.head?, isNameByte c = false := hr
    obtain ⟨c, s, rfl⟩ := List.exists_cons_of_ne_nil hne
    have hc := hall c List.mem_cons_self
    have hfirst := hhead c rfl
    simp only [List.mem_cons, List.not_mem_nil, or_false, not_or] at hfirst
    simp only [isNameByte, decide_eq_true_eq] at hc
    have htake : ((c :: s) ++ r).takeWhile isNameByte = c :: s := by
      rw [List.takeWhile_append_of_pos hall, (while_of_head hnext).1, List.append_nil]
    have hdrop : ((c :: s) ++ r).dropWhile isNameByte = r := by
      rw [List.dropWhile_append_of_pos hall, (while_of_head hnext).2]
    rw [List.cons_append, switchToken.eq_def]
    dsimp only
    rw [if_neg hfirst.1, if_neg hc.2.1, if_neg hc.2.2.1, if_neg (by simpa using hfirst.2),
      if_neg fun h => hc.1 h.1]
    rw [← List.cons_append, htake, hdrop, if_neg (List.cons_ne_nil c s)]
    exact ⟨_, rfl, rfl, fun _ => rfl, rfl⟩

/-- **A token that is there** is read. -/
lemma readToken_lexeme {p : Private} {type : TokenType} {w x v r : List UInt8}
    (hw : ∀ c ∈ w, isSpace c) (hx : Lexeme type x v) (hr : Follows type x r)
    (hp : p.pos.pos = w ++ (x ++ r)) : ∃ q, readToken p = .ok q ∧ q.token.type = type ∧
      (type.hasValue → q.token.value = v) ∧ q.pos.pos = r := by
  have hpos : (skipSpace p.pos).pos = x ++ r := by
    rw [skipSpace, hp]
    exact skipBlank_append hw (hx.stops hr) _ _
  exact switchToken_lexeme hx hr hpos

end Nstd.Xml
