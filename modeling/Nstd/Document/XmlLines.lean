import Mathlib.Logic.Relation
import Nstd.Document.XmlResult
import Nstd.Document.XmlRuns

/-!
# Line numbers of the XML parser

* `Counts` — from one position to another, the lines between are counted.
* `readToken_ends`, `parseText_ends`, ... — so are those that the scanners and the loops pass over, also
  if they end with an error.
-/

namespace Nstd.Xml

/-! ## Counting lines -/

/-- From `pos` to `pos'` all lines but `k` are counted. -/
def Misses (k : ℕ) (pos pos' : Position) : Prop :=
  ∃ u n, pos.pos = u ++ pos'.pos ∧ pos'.line = further pos.line n ∧ n + k = lineEnds u pos'.pos

/-- From `pos` to `pos'` all lines are counted. -/
def Counts (pos pos' : Position) : Prop := Misses 0 pos pos'

lemma Misses.trans {k l : ℕ} {p q r : Position} (h : Misses k p q) (h' : Misses l q r) :
    Misses (k + l) p r := by
  obtain ⟨u, n, hp, hq, hn⟩ := h
  obtain ⟨v, m, hq', hr, hm⟩ := h'
  refine ⟨u ++ v, n + m, by rw [hp, hq', List.append_assoc], ?_, ?_⟩
  · rw [← further_further, ← hq, hr]
  · rw [lineEnds_append, ← hq']
    omega

lemma Misses.length_le {k : ℕ} {p q : Position} (h : Misses k p q) : q.pos.length ≤ p.pos.length := by
  obtain ⟨u, _, hp, -⟩ := h
  rw [hp, List.length_append]
  exact Nat.le_add_left _ _

lemma Counts.refl (pos : Position) : Counts pos pos := ⟨[], 0, rfl, rfl, rfl⟩

lemma Counts.trans {p q r : Position} (h : Counts p q) (h' : Counts q r) : Counts p r :=
  Misses.trans h h'

lemma Counts.misses {p q : Position} (h : Counts p q) : Misses 0 p q := h

lemma skipSpace_counts (pos : Position) : Counts pos (skipSpace pos) := by
  obtain ⟨w, hw, -, -, hline⟩ := skipSpace_spec pos
  exact ⟨w, _, hw, hline, rfl⟩

lemma skipText_counts (s : List UInt8) (line : Int32) (lineStart : List UInt8) :
    Counts ⟨line, s, lineStart⟩ (skipText line lineStart s) := by
  induction s generalizing line lineStart with
  | nil => exact .refl _
  | cons c s ih =>
    by_cases hc : c = ch '<'
    · subst hc
      rw [skipText_stop]
      exact .refl _
    · obtain ⟨lineStart', hskip⟩ := skipText_cons hc s line lineStart
      rw [hskip]
      exact Counts.trans ⟨[c], _, rfl, rfl, rfl⟩ (ih _ lineStart')

/-- No line ends in a token. -/
lemma Lexeme.no_lineEnds {type : TokenType} {x v : List UInt8} (h : Lexeme type x v) :
    ∀ c ∈ x, c ≠ ch '\r' ∧ c ≠ ch '\n' := by
  cases h with
  | string hc hb =>
    rename_i c b
    have hquote : c ≠ ch '\r' ∧ c ≠ ch '\n' := by
      rcases hc with rfl | rfl <;> decide
    intro d hd
    simp only [List.mem_cons, List.mem_append, List.not_mem_nil, or_false] at hd
    rcases hd with rfl | hd | rfl
    · exact hquote
    · have hnone := hb d hd
      simp only [List.mem_cons, List.not_mem_nil, or_false, not_or] at hnone
      exact hnone.2
    · exact hquote
  | name _ hx _ =>
    intro c hc
    have hbyte := hx c hc
    constructor
    · rintro rfl
      exact absurd hbyte (by decide)
    · rintro rfl
      exact absurd hbyte (by decide)
  | _ => decide +kernel

/-! ## How calls end -/

/-- The lines are counted up to the last token and up to where the parser is. -/
structure Tracked (start : Position) (p : Private) : Prop where
  token : Counts start p.token.pos
  pos : Counts start p.pos

/-- Errors are reported at the last token or at the end of the text. -/
def Fails (start : Position) : Failure → Prop
  | .syntaxError q => Tracked start q ∧ ∃ pos, (pos = q.token.pos ∨ pos = q.pos ∧ pos.pos = []) ∧
      q.errorLine = pos.line ∧ q.errorColumn = pos.column
  | .outOfCalls => True

variable {start : Position} {p : Private}

lemma syntaxError_ends {α : Type} {ok : α → Prop} {pos : Position} (hp : Tracked start p)
    (hpos : pos = p.token.pos ∨ pos = p.pos ∧ pos.pos = []) (error : List UInt8) :
    Ends ok (Fails start) (syntaxError p pos error) :=
  .error ⟨⟨hp.token, hp.pos⟩, pos, hpos, rfl, rfl⟩

lemma readToken_ends (hp : Counts start p.pos) : Ends (Tracked start) (Fails start) (readToken p) := by
  have hskip : Counts start (skipSpace p.pos) := hp.trans (skipSpace_counts p.pos)
  rw [readToken]
  rcases switchToken_cases { p with pos := skipSpace p.pos, token.pos := skipSpace p.pos } with
    ⟨q, x, hq, hx, hlex, htoken, hline⟩ | ⟨error, hq, -⟩
  · refine hq ▸ .ok ⟨htoken ▸ hskip, hskip.trans ⟨x, 0, hx, hline, ?_⟩⟩
    rw [lineEnds_eq_zero hlex.no_lineEnds]
  · exact hq ▸ syntaxError_ends ⟨hskip, hskip⟩ (Or.inl rfl) error

lemma parseText_ends (hp : Tracked start p) :
    Ends (fun r => Tracked start r.1) (Fails start) (parseText p) := by
  have hskip : Counts start (skipText p.pos.line p.pos.lineStart p.pos.pos) :=
    hp.pos.trans (skipText_counts _ _ _)
  rw [parseText]
  dsimp only
  split_ifs with hend
  · refine syntaxError_ends ?_ (Or.inr ⟨rfl, hend⟩) _
    exact ⟨hp.token, hskip⟩
  · exact .ok ⟨hp.token, hskip⟩

lemma parseAttributes_ends (n : ℕ) : ∀ {p : Private} (as : List (List UInt8 × List UInt8)),
    Tracked start p →
      Ends (fun r => Tracked start r.1) (Fails start) (parseAttributes n p as) := by
  induction n with
  | zero => exact fun _ _ => .error trivial
  | succ n ih =>
    intro p as hp
    rw [parseAttributes]
    refine (readToken_ends hp.pos).bind fun q hq => ?_
    split_ifs
    · exact .ok hq
    · exact .ok hq
    · refine (readToken_ends hq.pos).bind fun r hr => ?_
      split_ifs
      · exact syntaxError_ends hr (Or.inl rfl) _
      · refine (readToken_ends hr.pos).bind fun s hs => ?_
        split_ifs
        · exact syntaxError_ends hs (Or.inl rfl) _
        · exact ih _ hs
    · exact ih as hq

lemma parseEndTag_ends (hp : Tracked start p) (type : List UInt8) :
    Ends (Tracked start) (Fails start) (parseEndTag p type) := by
  rw [parseEndTag]
  refine (readToken_ends hp.pos).bind fun q hq => ?_
  split_ifs
  · exact syntaxError_ends hq (Or.inl rfl) _
  · exact syntaxError_ends hq (Or.inl rfl) _
  · refine (readToken_ends hq.pos).bind fun r hr => ?_
    split_ifs
    · exact syntaxError_ends hr (Or.inl rfl) _
    · exact .ok hr

/-- The calls for an element, and for the loop over its content -/
structure ElementEnds (start : Position) (n : ℕ) : Prop where
  element : ∀ {p : Private} (e : Element), Tracked start p →
    Ends (fun r => Tracked start r.1) (Fails start) (parseElement n p e)
  content : ∀ {p : Private} (c : List Variant), Tracked start p →
    Ends (fun r => Tracked start r.1) (Fails start) (parseContent n p c)

lemma element_ends {n : ℕ} (ih : ElementEnds start n) (e : Element) (hp : Tracked start p) :
    Ends (fun r => Tracked start r.1) (Fails start) (parseElement (n + 1) p e) := by
  rw [parseElement]
  refine (readToken_ends hp.pos).bind fun q hq => ?_
  split_ifs
  · exact syntaxError_ends hq (Or.inl rfl) _
  · refine (parseAttributes_ends n _ hq).bind fun r hr => ?_
    obtain ⟨r, as, more⟩ := r
    cases more with
    | false => exact .ok hr
    | true =>
      refine (ih.content _ hr).bind fun s hs => ?_
      exact (parseEndTag_ends hs _).bind fun t ht => .ok ht

lemma content_ends {n : ℕ} (ih : ElementEnds start n) (c : List Variant) (hp : Tracked start p) :
    Ends (fun r => Tracked start r.1) (Fails start) (parseContent (n + 1) p c) := by
  rw [parseContent]
  have hread := readToken_ends hp.pos
  cases hq : readToken p with
  | error e =>
    rw [hq] at hread
    cases e with
    | outOfCalls => exact .error trivial
    | syntaxError q =>
      refine (parseText_ends hread.of_error.1).bind fun r hr => ?_
      exact ih.content _ hr
  | ok q =>
    rw [hq] at hread
    have hq := hread.of_ok
    dsimp only
    split_ifs
    · exact .ok hq
    · exact (ih.element _ hq).bind fun r hr => ih.content _ hr
    · refine (@parseText_ends start { q with pos := p.pos } ⟨hq.token, hp.pos⟩).bind fun r hr => ?_
      exact ih.content _ hr

lemma elementEnds (start : Position) (n : ℕ) : ElementEnds start n := by
  induction n with
  | zero => exact ⟨fun _ _ => .error trivial, fun _ _ => .error trivial⟩
  | succ n ih => exact ⟨element_ends ih, content_ends ih⟩

/-! ## Elements -/

/-- In `p` the parser has read the `<` of an element: of the root, or of one in the content of another -/
inductive Opened (data : CString) : Private → Prop
  | root {p : Private} : Root data p → Opened data p
  | child {p u v : Private} : Opened data p → Content p u → readToken u = .ok v →
      v.token.type = .startTagBegin → Opened data v

/-- An element, or one inside it -/
inductive Within : Element → Element → Prop
  | self {x : Element} : Within x x
  | child {x y z : Element} : .element z ∈ x.content → Within y z → Within y x

/-- The parser made the element `x`, from one that was there, behind its `<`. -/
def Makes (data : CString) (p : Private) (x : Element) : Prop :=
  Opened data p ∧ ∃ n e q, parseElement n p e = .ok (q, x)

/-- An element has the line of its `<`. -/
lemma parseElement_line {n : ℕ} {p q : Private} {e x : Element}
    (h : parseElement n p e = .ok (q, x)) : x.line = p.token.pos.line := by
  cases n with
  | zero => exact absurd h (by simp [parseElement])
  | succ n =>
    rw [parseElement] at h
    obtain ⟨r, -, h⟩ := exists_of_bind_ok h
    split_ifs at h
    · exact absurd h syntaxError_ne_ok
    · obtain ⟨⟨s, as, more⟩, -, h⟩ := exists_of_bind_ok h
      cases more with
      | false =>
        obtain ⟨-, rfl⟩ := Prod.mk.inj (Except.ok.inj h)
        rfl
      | true =>
        obtain ⟨t, -, h⟩ := exists_of_bind_ok h
        obtain ⟨v, -, h⟩ := exists_of_bind_ok h
        obtain ⟨-, rfl⟩ := Prod.mk.inj (Except.ok.inj h)
        rfl

/-- The elements in what the loop over the content adds -/
lemma content_makes {data : CString} {n : ℕ} {p : Private} (hp : Opened data p) :
    ∀ {u v : Private} {c c' : List Variant}, Content p u → parseContent n u c = .ok (v, c') →
      ∀ z, .element z ∈ c' → .element z ∈ c ∨
        ∃ r m q, Opened data r ∧ parseElement m r .empty = .ok (q, z) := by
  induction n with
  | zero => exact fun _ h => absurd h (by simp [parseContent])
  | succ n ih =>
    intro u v c c' hu h z hz
    -- a text is no element
    have htext : ∀ {w : Private} {s : List UInt8}, Content p w →
        parseContent n w (c ++ [.text s]) = .ok (v, c') → .element z ∈ c ∨
          ∃ r m q, Opened data r ∧ parseElement m r .empty = .ok (q, z) := by
      intro w s hw h
      refine (ih hw h z hz).imp_left fun hmem => ?_
      simpa using hmem
    rw [parseContent] at h
    cases hread : readToken u with
    | error e =>
      rw [hread] at h
      cases e with
      | outOfCalls => exact absurd h (by simp)
      | syntaxError q =>
        obtain ⟨⟨w, s⟩, hw, h⟩ := exists_of_bind_ok h
        exact htext (.noToken hu hread hw) h
    | ok q =>
      rw [hread] at h
      dsimp only at h
      split_ifs at h with hend hstart
      · obtain ⟨-, rfl⟩ := Prod.mk.inj (Except.ok.inj h)
        exact Or.inl hz
      · obtain ⟨⟨w, x⟩, hw, h⟩ := exists_of_bind_ok h
        have hcloses := (sound_all n).element hw
        rcases ih (.child hu hread hstart hcloses) h z hz with hmem | hmakes
        · simp only [List.mem_append, List.mem_singleton, Variant.element.injEq] at hmem
          refine hmem.imp_right ?_
          rintro rfl
          exact ⟨q, n, w, .child hp hu hread hstart, hw⟩
        · exact Or.inr hmakes
      · obtain ⟨⟨w, s⟩, hw, h⟩ := exists_of_bind_ok h
        exact htext (.text hu hread (by simp [hend, hstart]) hw) h

/-- The elements in the content of an element -/
lemma element_makes {data : CString} {n : ℕ} {p q : Private} {e x : Element} (hp : Opened data p)
    (h : parseElement n p e = .ok (q, x)) : ∀ z, .element z ∈ x.content → .element z ∈ e.content ∨
      ∃ r m q, Opened data r ∧ parseElement m r .empty = .ok (q, z) := by
  cases n with
  | zero => exact absurd h (by simp [parseElement])
  | succ n =>
    rw [parseElement] at h
    obtain ⟨r, hr, h⟩ := exists_of_bind_ok h
    split_ifs at h with hname
    · exact absurd h syntaxError_ne_ok
    · obtain ⟨⟨s, as, more⟩, hs, h⟩ := exists_of_bind_ok h
      cases more with
      | false =>
        obtain ⟨-, rfl⟩ := Prod.mk.inj (Except.ok.inj h)
        exact fun z hz => Or.inl hz
      | true =>
        obtain ⟨⟨t, c⟩, ht, h⟩ := exists_of_bind_ok h
        obtain ⟨v, -, h⟩ := exists_of_bind_ok h
        obtain ⟨-, rfl⟩ := Prod.mk.inj (Except.ok.inj h)
        exact content_makes hp (.first hr (not_not.mp hname) (attributes_sound hs)) ht

/-- **Every element** of the result was there before, or was made behind its `<`. -/
lemma within_makes {data : CString} {x y : Element} (hy : Within y x) : ∀ {n : ℕ} {p q : Private}
    {e : Element}, Opened data p → parseElement n p e = .ok (q, x) →
      (∃ z, .element z ∈ e.content ∧ Within y z) ∨ ∃ r, Makes data r y := by
  induction hy with
  | self => exact fun hp h => Or.inr ⟨_, hp, _, _, _, h⟩
  | child hz hy ih =>
    intro n p q e hp h
    rcases element_makes hp h _ hz with hmem | ⟨r, m, s, hr, hs⟩
    · exact Or.inl ⟨_, hmem, hy⟩
    · rcases ih hr hs with ⟨z, hmem, -⟩ | hmakes
      · exact absurd hmem List.not_mem_nil
      · exact Or.inr hmakes

/-! ### Where elements are -/

lemma readToken_tracked {q : Private} (h : readToken p = .ok q) (hp : Counts start p.pos) :
    Tracked start q := (h ▸ readToken_ends hp).of_ok

lemma Attributes.tracked {q : Private} {more : Bool} (h : Attributes p more q) :
    Counts start p.pos → Tracked start q := by
  induction h with
  | emptyTag hq _ => exact readToken_tracked hq
  | tag hq _ => exact readToken_tracked hq
  | pair hq _ hr _ hs _ _ ih =>
    intro hp
    have hq := readToken_tracked hq hp
    have hr := readToken_tracked hr hq.pos
    exact ih (readToken_tracked hs hr.pos).pos
  | other hq _ _ ih => exact fun hp => ih (readToken_tracked hq hp).pos

mutual

theorem Content.tracked {p u : Private} : Content p u → Counts start p.pos → Tracked start u
  | .first hq _ hattributes, hp => hattributes.tracked (readToken_tracked hq hp).pos
  | .child hu hread _ hcloses, hp =>
    hcloses.tracked (readToken_tracked hread (hu.tracked hp).pos).pos
  | @Content.text _ u v _ _ hu hread _ htext, hp => by
    have hu := hu.tracked hp
    have hv := readToken_tracked hread hu.pos
    have hends := @parseText_ends start { v with pos := u.pos } ⟨hv.token, hu.pos⟩
    exact (htext ▸ hends).of_ok
  | @Content.noToken _ u v _ _ hu hread htext, hp => by
    have hv : Tracked start v := (hread ▸ readToken_ends (hu.tracked hp).pos).of_error.1
    exact (htext ▸ parseText_ends hv).of_ok

theorem Closes.tracked {p s : Private} : Closes p s → Counts start p.pos → Tracked start s
  | .emptyTag hq _ hattributes, hp => hattributes.tracked (readToken_tracked hq hp).pos
  | .endTag _ hu hread _ hend, hp =>
    (hend ▸ parseEndTag_ends (readToken_tracked hread (hu.tracked hp).pos) _).of_ok

end

/-! ## Processing instructions -/

/-- Where the search for the end of a processing instruction stops -/
abbrev instructionStops : List UInt8 := [ch '\r', ch '\n', ch '?']

/-- The search that begins at `pos` goes on behind the line end at `e`, and the line is not counted. -/
inductive Overlooks : Position → List UInt8 → Prop
  | here {pos : Position} {c : UInt8} {e : List UInt8} :
      findOneOf id instructionStops pos.pos = some (c :: e) → EndsLine c e → Overlooks pos (c :: e)
  | later {pos : Position} {c : UInt8} {e r : List UInt8} :
      findOneOf id instructionStops pos.pos = some (c :: e) →
        ¬ (c = ch '?' ∧ e.head? = some (ch '>')) → Overlooks (skipSpace { pos with pos := e }) r →
          Overlooks pos r

/-- What the search passes over, up to and with the byte where it stops -/
lemma findOneOf_misses {pos : Position} {c : UInt8} {e : List UInt8}
    (h : findOneOf id instructionStops pos.pos = some (c :: e)) :
    Misses (lineEnds [c] e) pos { pos with pos := e } := by
  obtain ⟨b, e', c', hpos, hb, -, hfind⟩ | ⟨hfind, -⟩ := findOneOf_cases instructionStops pos.pos
  · obtain ⟨rfl, rfl⟩ := List.cons.inj (Option.some.inj (hfind.symm.trans h))
    have hnone : ∀ d ∈ b, d ≠ ch '\r' ∧ d ≠ ch '\n' := by
      intro d hd
      have := hb d hd
      simp only [instructionStops, List.mem_cons, List.not_mem_nil, or_false, not_or] at this
      exact ⟨this.1, this.2.1⟩
    refine ⟨b ++ [c'], 0, by rw [hpos, List.append_assoc]; rfl, rfl, ?_⟩
    rw [lineEnds_append, lineEnds_eq_zero hnone]
  · exact absurd (hfind.symm.trans h) (Option.some_ne_none _).symm

/-- A search that stops is done, or goes on behind what it stopped at. -/
lemma overlooks_iff {pos : Position} {c : UInt8} {e : List UInt8}
    (h : findOneOf id instructionStops pos.pos = some (c :: e)) (r : List UInt8) :
    Overlooks pos r ↔ (EndsLine c e ∧ r = c :: e) ∨
      ¬ (c = ch '?' ∧ e.head? = some (ch '>')) ∧ Overlooks (skipSpace { pos with pos := e }) r := by
  constructor
  · rintro (⟨hfind, hends⟩ | ⟨hfind, hopen, hr⟩)
    · obtain ⟨rfl, rfl⟩ := List.cons.inj (Option.some.inj (h.symm.trans hfind))
      exact Or.inl ⟨hends, rfl⟩
    · obtain ⟨rfl, rfl⟩ := List.cons.inj (Option.some.inj (h.symm.trans hfind))
      exact Or.inr ⟨hopen, hr⟩
  · rintro (⟨hends, rfl⟩ | ⟨hopen, hr⟩)
    · exact .here h hends
    · exact .later h hopen hr

lemma Overlooks.length_le {pos : Position} {r : List UInt8} (h : Overlooks pos r) :
    r.length ≤ pos.pos.length := by
  induction h with
  | here hfind _ => exact length_findOneOf hfind
  | @later pos c e r hfind _ _ ih =>
    have hlt := length_findOneOf hfind
    have hskip := length_skipSpace { pos with pos := e }
    exact (ih.trans hskip).trans (Nat.le_of_succ_le hlt)

lemma skipInstruction_fails {startPos : Position} {n : ℕ} : ∀ {p q : Private},
    skipInstruction startPos n p = .error (.syntaxError q) →
      q.errorLine = startPos.line ∧ q.errorColumn = startPos.column := by
  induction n with
  | zero => exact fun h => absurd h (by simp [skipInstruction])
  | succ n ih =>
    intro p q h
    rw [skipInstruction] at h
    cases hfind : findOneOf id instructionStops p.pos.pos with
    | none =>
      rw [hfind] at h
      obtain rfl := Failure.syntaxError.inj (Except.error.inj h)
      exact ⟨rfl, rfl⟩
    | some e =>
      rw [hfind] at h
      dsimp only at h
      split_ifs at h
      exact ih h

/-- **A processing instruction** counts all lines but those that its search overlooks, which are in front
    of its end. -/
lemma skipInstruction_misses {startPos : Position} {n : ℕ} : ∀ {p q : Private},
    skipInstruction startPos n p = .ok q → ∃ k, Misses k p.pos q.pos ∧
      (k = 0 ↔ ∀ r, ¬ Overlooks p.pos r) ∧ ∀ r, Overlooks p.pos r → q.pos.pos.length < r.length := by
  induction n with
  | zero => exact fun h => absurd h (by simp [skipInstruction])
  | succ n ih =>
    intro p q h
    rw [skipInstruction] at h
    cases hfind : findOneOf id instructionStops p.pos.pos with
    | none =>
      rw [hfind] at h
      exact absurd h syntaxError_ne_ok
    | some e =>
      rw [hfind] at h
      obtain ⟨c, e, rfl⟩ := List.exists_cons_of_ne_nil (findOneOf_ne_nil hfind)
      have hpass := findOneOf_misses hfind
      simp only [List.head?_cons, Option.some.injEq, List.tail_cons] at h
      split_ifs at h with hend
      · obtain ⟨rfl, hhead⟩ := hend
        obtain ⟨t, rfl⟩ := List.head?_eq_some_iff.mp hhead
        obtain rfl := Except.ok.inj h
        have hnone : ∀ r, ¬ Overlooks p.pos r := by
          intro r hr
          rw [overlooks_iff hfind] at hr
          rcases hr with ⟨hends, -⟩ | ⟨hopen, -⟩
          · exact not_endsLine (by decide) (by decide) _ hends
          · exact hopen ⟨rfl, rfl⟩
        refine ⟨0, ?_, by simpa using hnone, fun r hr => absurd hr (hnone r)⟩
        have hclose : Misses 0 { p.pos with pos := ch '>' :: t } { p.pos with pos := t } :=
          ⟨[ch '>'], 0, rfl, rfl, by rw [lineEnds_other (by decide) (by decide)]⟩
        rw [lineEnds_other (by decide) (by decide)] at hpass
        exact hpass.trans hclose
      · obtain ⟨k, hrest, hiff, hlt⟩ := ih h
        have hskip := (skipSpace_counts { p.pos with pos := e }).misses
        have hlength : q.pos.pos.length < (c :: e).length :=
          Nat.lt_succ_of_le (hskip.trans hrest).length_le
        refine ⟨lineEnds [c] e + (0 + k), hpass.trans (hskip.trans hrest), ?_, fun r hr => ?_⟩
        · rw [Nat.add_eq_zero_iff, Nat.zero_add, lineEnds_singleton_eq_zero, hiff]
          simp [overlooks_iff hfind, hend, not_or, forall_and]
        · rcases (overlooks_iff hfind r).mp hr with ⟨-, rfl⟩ | ⟨-, hr⟩
          · exact hlength
          · exact hlt r hr

/-! ### All of them -/

/-- The parser is at a processing instruction. -/
def AtInstruction (p : Private) : Prop :=
  p.pos.pos.head? = some (ch '<') ∧ p.pos.pos.tail.head? = some (ch '?')

/-- The parser behind the `<?` -/
def Private.inside (p : Private) : Private := { p with pos.pos := p.pos.pos.tail.tail }

/-- An iteration of the loop over processing instructions -/
def SkipsOne (p q : Private) : Prop :=
  AtInstruction p ∧ ∃ n r, skipInstruction p.pos n p.inside = .ok r ∧
    q = { r with pos := skipSpace r.pos }

/-- One of the instructions from `p` on overlooks the line end at `r`. -/
def PrologOverlooks (p : Private) (r : List UInt8) : Prop :=
  ∃ q, Relation.ReflTransGen SkipsOne p q ∧ AtInstruction q ∧ Overlooks q.inside.pos r

/-- All lines from `p` to `pos` are counted, unless an instruction overlooks one that ends there. -/
def Tallies (p : Private) (pos : Position) : Prop :=
  ∃ k, Misses k p.pos pos ∧ (k = 0 ↔ ∀ r, PrologOverlooks p r → r.length ≤ pos.pos.length)

lemma inside_counts (h : AtInstruction p) : Counts p.pos p.inside.pos := by
  obtain ⟨hlt, hquestion⟩ := h
  obtain ⟨s, hs⟩ := List.head?_eq_some_iff.mp hlt
  rw [hs, List.tail_cons] at hquestion
  obtain ⟨t, rfl⟩ := List.head?_eq_some_iff.mp hquestion
  refine ⟨bytes "<?", 0, by rw [Private.inside, hs]; rfl, rfl, ?_⟩
  rw [lineEnds_eq_zero (by decide +kernel)]

lemma skipInstruction_unique {startPos : Position} {n m : ℕ} {q r : Private}
    (h : skipInstruction startPos n p = .ok q) (h' : skipInstruction startPos m p = .ok r) :
    q = r := by
  rcases skipInstruction_mono startPos h m with hout | hok
  · exact absurd (hout.symm.trans h') (by simp)
  · exact Except.ok.inj (hok.symm.trans h')

lemma SkipsOne.unique {q r : Private} (h : SkipsOne p q) (h' : SkipsOne p r) : q = r := by
  obtain ⟨-, n, s, hs, rfl⟩ := h
  obtain ⟨-, m, t, ht, rfl⟩ := h'
  rw [skipInstruction_unique hs ht]

/-- The first instruction overlooks the line end, or one behind it. -/
lemma SkipsOne.overlooks_iff {q : Private} (h : SkipsOne p q) (r : List UInt8) :
    PrologOverlooks p r ↔ Overlooks p.inside.pos r ∨ PrologOverlooks q r := by
  constructor
  · rintro ⟨s, hs, hat, hr⟩
    rcases hs.cases_head with rfl | ⟨t, ht, hs⟩
    · exact Or.inl hr
    · obtain rfl := h.unique ht
      exact Or.inr ⟨s, hs, hat, hr⟩
  · rintro (hr | ⟨s, hs, hat, hr⟩)
    · exact ⟨p, .refl, h.1, hr⟩
    · exact ⟨s, hs.head h, hat, hr⟩

/-- Only the last instruction can overlook a line end if nothing is behind it. -/
lemma overlooks_of_last (h : ∀ q, ¬ SkipsOne p q) {r : List UInt8} (hr : PrologOverlooks p r) :
    AtInstruction p ∧ Overlooks p.inside.pos r := by
  obtain ⟨s, hs, hat, hr⟩ := hr
  rcases hs.cases_head with rfl | ⟨t, ht, -⟩
  · exact ⟨hat, hr⟩
  · exact absurd ht (h t)

lemma SkipsOne.misses {q : Private} (h : SkipsOne p q) : ∃ k, Misses k p.pos q.pos ∧
    (k = 0 ↔ ∀ r, ¬ Overlooks p.inside.pos r) ∧
      ∀ r, Overlooks p.inside.pos r → q.pos.pos.length < r.length := by
  obtain ⟨hat, n, s, hs, rfl⟩ := h
  obtain ⟨k, hk, hiff, hlt⟩ := skipInstruction_misses hs
  have hskip := skipSpace_counts s.pos
  refine ⟨0 + k + 0, ((inside_counts hat).misses.trans hk).trans hskip.misses, ?_, fun r hr => ?_⟩
  · rw [Nat.add_zero, Nat.zero_add, hiff]
  · exact hskip.misses.length_le.trans_lt (hlt r hr)

lemma Tallies.next {q : Private} {pos : Position} (h : SkipsOne p q) (hq : Tallies q pos) :
    Tallies p pos := by
  obtain ⟨k, hk, hiff, hlt⟩ := h.misses
  obtain ⟨l, hl, hiff'⟩ := hq
  refine ⟨k + l, hk.trans hl, ?_⟩
  rw [Nat.add_eq_zero_iff, hiff, hiff']
  constructor
  · rintro ⟨hnone, hrest⟩ r hr
    rcases (h.overlooks_iff r).mp hr with hr | hr
    · exact absurd hr (hnone r)
    · exact hrest r hr
  · intro hall
    refine ⟨fun r hr => ?_, fun r hr => hall r ((h.overlooks_iff r).mpr (Or.inr hr))⟩
    -- what the first instruction overlooks is in front of all that follows
    have hle := hall r ((h.overlooks_iff r).mpr (Or.inl hr))
    exact absurd (hlt r hr) (not_lt.mpr (hle.trans hl.length_le))

/-- If nothing is behind `p`, all lines to a place that is not behind its instruction are counted. -/
lemma Tallies.last {pos : Position} (h : ∀ q, ¬ SkipsOne p q) (hpos : Counts p.pos pos)
    (hat : AtInstruction p → p.pos.pos.length ≤ pos.pos.length) : Tallies p pos := by
  refine ⟨0, hpos.misses, iff_of_true rfl fun r hr => ?_⟩
  obtain ⟨hp, hr⟩ := overlooks_of_last h hr
  exact (hr.length_le.trans (inside_counts hp).misses.length_le).trans (hat hp)

/-- At `pos` is a processing instruction that has no end, which leaves the parser as `q`. -/
def Unclosed (p q : Private) (pos : Position) : Prop :=
  ∃ r n, Relation.ReflTransGen SkipsOne p r ∧ AtInstruction r ∧
    skipInstruction r.pos n r.inside = .error (.syntaxError q) ∧ pos = r.pos

lemma Unclosed.next {q r : Private} {pos : Position} (h : SkipsOne p r) (hr : Unclosed r q pos) :
    Unclosed p q pos := by
  obtain ⟨s, n, hs, hat, hfails, rfl⟩ := hr
  exact ⟨s, n, hs.head h, hat, hfails, rfl⟩

lemma Unclosed.tallies {q : Private} {pos : Position} (h : Unclosed p q pos) : Tallies p pos := by
  obtain ⟨r, n, hr, hat, hfails, rfl⟩ := h
  induction hr using Relation.ReflTransGen.head_induction_on with
  | refl =>
    have hlast : ∀ s, ¬ SkipsOne r s := by
      rintro s ⟨-, m, t, ht, -⟩
      rcases skipInstruction_mono r.pos ht n with hout | hok
      · exact absurd (hout.symm.trans hfails) (by simp)
      · exact absurd (hok.symm.trans hfails) (by simp)
    exact .last hlast (.refl _) fun _ => le_rfl
  | head hone _ ih => exact ih.next hone

/-- The loop over processing instructions ends behind all of them, or fails at one of them. -/
lemma skipInstructions_ends (n : ℕ) : ∀ p : Private,
    Ends (fun q => ∀ pos, Counts q.pos pos → Tallies p pos)
      (fun f => ∀ q, f = .syntaxError q → ∃ pos, Unclosed p q pos ∧ q.errorLine = pos.line ∧
        q.errorColumn = pos.column) (skipInstructions n p) := by
  induction n with
  | zero => exact fun p => .error fun q h => absurd h (by simp)
  | succ n ih =>
    intro p
    rw [skipInstructions]
    split_ifs with hat
    · show Ends _ _ (skipInstruction p.pos n p.inside >>= _)
      cases hskip : skipInstruction p.pos n p.inside with
      | error f =>
        refine .error ?_
        rintro q rfl
        exact ⟨p.pos, ⟨p, n, .refl, hat, hskip, rfl⟩, skipInstruction_fails hskip⟩
      | ok r =>
        have hone : SkipsOne p { r with pos := skipSpace r.pos } := ⟨hat, n, r, hskip, rfl⟩
        rw [ok_bind]
        rcases (ih { r with pos := skipSpace r.pos }).ok_or_error with
          ⟨q, hq, hrest⟩ | ⟨f, hf, hrest⟩
        · exact hq ▸ .ok fun pos hpos => (hrest pos hpos).next hone
        · refine hf ▸ .error fun q hq => ?_
          obtain ⟨pos, hpos, hfails⟩ := hrest q hq
          exact ⟨pos, hpos.next hone, hfails⟩
    · have hlast : ∀ r, ¬ SkipsOne p r := fun r h => hat h.1
      exact .ok fun pos hpos => .last hlast hpos fun h => absurd h hat

/-! ## The parser -/

/-- The parser in front of the processing instructions -/
def Private.begin (data : CString) : Private :=
  { Private.initial data with pos := skipSpace (Private.initial data).pos }

/-- In front of `s` a processing instruction overlooks the end of a line. -/
def Overlooked (data : CString) (s : List UInt8) : Prop :=
  ∃ r, PrologOverlooks (Private.begin data) r ∧ s.length < r.length

/-- The error that left `q` is reported at `pos`: behind the processing instructions where the last
    token is, or at the end of the text; or at a processing instruction that has no end. -/
def ReportedAt (data : CString) (q : Private) (pos : Position) : Prop :=
  ((∃ n p, skipInstructions n (Private.begin data) = .ok p) ∧
      (pos = q.token.pos ∨ pos = q.pos ∧ pos.pos = []) ∨
    Unclosed (Private.begin data) q pos) ∧
  q.errorLine = pos.line ∧ q.errorColumn = pos.column

/-- A line number is right if no line end in front of it is overlooked and it is an `int`, and only
    then. -/
lemma Tallies.line_iff {data : CString} {pos : Position} (h : Tallies (Private.begin data) pos) :
    ∃ u, data.bytes = u ++ pos.pos ∧
      (pos.line.toInt = 1 + lineEnds u pos.pos ↔
        ¬ Overlooked data pos.pos ∧ 1 + lineEnds u pos.pos < 2 ^ 31) := by
  obtain ⟨k, hk, hiff⟩ := h
  have hbegin : Counts (Private.initial data).pos (Private.begin data).pos := skipSpace_counts _
  obtain ⟨u, n, hu, hline, hn⟩ := hbegin.misses.trans hk
  have hnone : k = 0 ↔ ¬ Overlooked data pos.pos := by
    rw [hiff]
    simp [Overlooked, not_lt]
  refine ⟨u, hu, ?_⟩
  rw [← hnone, show pos.line = further 1 n from hline, further_toInt_eq_iff (by omega)]
  omega

/-- How the parser fails behind the processing instructions -/
lemma parse_fails {n : ℕ} {data : CString} {element : Element} {p q : Private}
    (hp : skipInstructions n (Private.begin data) = .ok p)
    (h : parse n data element = .error (.syntaxError q)) : Fails p.pos (.syntaxError q) := by
  have hparse : parse n data element = skipInstructions n (Private.begin data) >>= fun p =>
      readToken p >>= fun p =>
        if p.token.type ≠ .startTagBegin then syntaxError p p.token.pos (bytes "Expected '<'")
        else parseElement n p element := rfl
  have hends : Ends (fun r => Tracked p.pos r.1) (Fails p.pos) (parse n data element) := by
    rw [hparse, hp, ok_bind]
    refine (readToken_ends (.refl _)).bind fun r hr => ?_
    split_ifs
    · exact syntaxError_ends hr (Or.inl rfl) _
    · exact (elementEnds p.pos n).element _ hr
  exact (h ▸ hends).of_error

/-- An error is reported somewhere. -/
lemma exists_reportedAt {n : ℕ} {data : CString} {element : Element} {q : Private}
    (h : parse n data element = .error (.syntaxError q)) : ∃ pos, ReportedAt data q pos := by
  rcases (skipInstructions_ends n (Private.begin data)).ok_or_error with ⟨p, hp, -⟩ | ⟨f, hf, hfails⟩
  · obtain ⟨-, pos, hpos, hfails⟩ := parse_fails hp h
    exact ⟨pos, Or.inl ⟨⟨n, p, hp⟩, hpos⟩, hfails⟩
  · have hparse : parse n data element = .error f :=
      show skipInstructions n (Private.begin data) >>= _ = _ by rw [hf]; rfl
    obtain ⟨pos, hpos, hfails⟩ := hfails q (Except.error.inj (hparse.symm.trans h))
    exact ⟨pos, Or.inr hpos, hfails⟩

/-- **Where an error is reported**, all lines are counted that are not overlooked. -/
lemma ReportedAt.tallies {n : ℕ} {data : CString} {element : Element} {q : Private} {pos : Position}
    (hpos : ReportedAt data q pos) (h : parse n data element = .error (.syntaxError q)) :
    Tallies (Private.begin data) pos := by
  obtain ⟨⟨⟨m, p, hp⟩, hpos⟩ | hunclosed, -⟩ := hpos
  · have hprolog := skipInstructions_ends n (Private.begin data)
    rcases skipInstructions_mono hp n with hout | hok
    · have hparse : parse n data element = .error .outOfCalls :=
        show skipInstructions n (Private.begin data) >>= _ = _ by rw [hout]; rfl
      exact absurd (hparse.symm.trans h) (by simp)
    · obtain ⟨htracked, -⟩ := parse_fails hok h
      have hcounts := (hok ▸ hprolog).of_ok
      rcases hpos with rfl | ⟨rfl, -⟩
      · exact hcounts _ htracked.token
      · exact hcounts _ htracked.pos
  · exact hunclosed.tallies

/-- **Where an element is** -/
lemma Opened.tallies {data : CString} {p : Private} (h : Opened data p) :
    Tallies (Private.begin data) p.token.pos := by
  have htracked : ∃ start, (∀ pos, Counts start pos → Tallies (Private.begin data) pos) ∧
      Tracked start p := by
    induction h with
    | root hroot =>
      obtain ⟨n, q, hq, hread, -⟩ := hroot
      have hprolog := skipInstructions_ends n (Private.begin data)
      exact ⟨q.pos, (hq ▸ hprolog).of_ok, readToken_tracked hread (.refl _)⟩
    | child _ hu hread _ ih =>
      obtain ⟨start, hstart, hp⟩ := ih
      exact ⟨start, hstart, readToken_tracked hread (hu.tracked hp.pos).pos⟩
  obtain ⟨start, hstart, hp⟩ := htracked
  exact hstart _ hp.token

/-- The root of a text that is parsed -/
lemma parse_root {n : ℕ} {data : CString} {element x : Element} {q : Private}
    (h : parse n data element = .ok (q, x)) :
    ∃ p, Root data p ∧ parseElement n p element = .ok (q, x) := by
  rw [parse] at h
  obtain ⟨r, hr, h⟩ := exists_of_bind_ok h
  obtain ⟨p, hp, h⟩ := exists_of_bind_ok h
  split_ifs at h with htype
  · exact absurd h syntaxError_ne_ok
  · exact ⟨p, ⟨n, r, hr, hp, not_not.mp htype⟩, h⟩

end Nstd.Xml
