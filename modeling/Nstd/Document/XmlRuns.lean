import Nstd.Document.XmlReading

/-!
# Does the XML parser return?

Which places the loop over the content of an element gets to, token by token, and at which of them
it stays for ever.

* `Attributes`, `Content`, `Closes` — from `<` to the end of the start tag, to an iteration of the
  loop over the content, to the end of the element.
* `Visits` — the iterations of this loop in an element and the elements inside it.
* `Stuck` — an iteration that reads nothing and leaves the parser as it was: at a comment with text
  behind it.
* `element_sound`, `content_complete` — the parser and these relations agree.
* **`parse_returns_iff`** — the parser returns if it visits no stuck iteration, and only then.  It
  does not in `comment_before_text`.

A stuck iteration leaves the parser as it was, so the loop repeats it for ever; any other one reads on,
and the text ends.
-/

namespace Nstd.Xml

/-! ## The relations -/

/-- The rest of a start tag, from behind the tag's name; does content follow? -/
inductive Attributes : Private → Bool → Private → Prop
  | emptyTag {p q : Private} : readToken p = .ok q → q.token.type = .emptyTagEnd →
      Attributes p false q
  | tag {p q : Private} : readToken p = .ok q → q.token.type = .tagEnd → Attributes p true q
  | pair {p q r s t : Private} {more : Bool} : readToken p = .ok q → q.token.type = .name →
      readToken q = .ok r → r.token.type = .equalsSign → readToken r = .ok s →
      s.token.type = .string → Attributes s more t → Attributes p more t
  | other {p q t : Private} {more : Bool} : readToken p = .ok q →
      q.token.type ∉ [.emptyTagEnd, .tagEnd, .name] → Attributes q more t → Attributes p more t

mutual

/-- In the element whose `<` was read last in `p`, an iteration over the content begins in `u`. -/
inductive Content : Private → Private → Prop
  | first {p q u : Private} : readToken p = .ok q → q.token.type = .name → Attributes q true u →
      Content p u
  | child {p u v w : Private} : Content p u → readToken u = .ok v →
      v.token.type = .startTagBegin → Closes v w → Content p w
  | text {p u v w : Private} {s : List UInt8} : Content p u → readToken u = .ok v →
      v.token.type ∉ [.startTagBegin, .endTagBegin] →
      parseText { v with pos := u.pos } = .ok (w, s) → Content p w
  | noToken {p u v w : Private} {s : List UInt8} : Content p u →
      readToken u = .error (.syntaxError v) → parseText v = .ok (w, s) → Content p w

/-- The element whose `<` was read last in `p` ends in `s`. -/
inductive Closes : Private → Private → Prop
  | emptyTag {p q s : Private} : readToken p = .ok q → q.token.type = .name →
      Attributes q false s → Closes p s
  | endTag {p q u v s : Private} : readToken p = .ok q → Content p u → readToken u = .ok v →
      v.token.type = .endTagBegin → parseEndTag v q.token.value = .ok s → Closes p s

end

/-- An iteration over the content begins in `u`, in the element whose `<` was read last in `p` or
    in an element inside it. -/
inductive Visits : Private → Private → Prop
  | own {p u : Private} : Content p u → Visits p u
  | nested {p u v w : Private} : Content p u → readToken u = .ok v →
      v.token.type = .startTagBegin → Visits v w → Visits p w

/-- A comment, and behind it a token that is neither `<` nor `</` -/
def Stuck (u : Private) : Prop :=
  commentBegin <+: u.pos.pos ∧
    ∃ v, readToken u = .ok v ∧ v.token.type ∉ [.startTagBegin, .endTagBegin]

/-! ## How far the parser gets -/

/-- The length of the rest of the text -/
def Private.left (p : Private) : ℕ := p.pos.pos.length

lemma Attributes.left_lt {p q : Private} {more : Bool} (h : Attributes p more q) : q.left < p.left := by
  induction h with
  | emptyTag hq _ => exact readToken_lt hq
  | tag hq _ => exact readToken_lt hq
  | pair hq _ hr _ hs _ _ ih =>
    exact ih.trans ((readToken_lt hs).trans ((readToken_lt hr).trans (readToken_lt hq)))
  | other hq _ _ ih => exact ih.trans (readToken_lt hq)

/-- `readToken` returns, and takes the parser on if it returns true. -/
lemma readToken_returns (p : Private) : (∃ q, readToken p = .ok q ∧ q.left < p.left) ∨
    ∃ q, readToken p = .error (.syntaxError q) := by
  rcases readToken_cases p with ⟨q, _, _, hq, -⟩ | ⟨q, hq, -⟩
  · exact Or.inl ⟨q, hq, readToken_lt hq⟩
  · exact Or.inr ⟨q, hq⟩

lemma parseEndTag_returns (p : Private) (type : List UInt8) :
    (∃ q, parseEndTag p type = .ok q ∧ q.left < p.left) ∨
    ∃ q, parseEndTag p type = .error (.syntaxError q) := by
  rw [parseEndTag]
  rcases readToken_returns p with ⟨q, hq, hlt⟩ | ⟨q, hq⟩
  · rw [hq, ok_bind]
    split_ifs
    · exact Or.inr ⟨_, rfl⟩
    · exact Or.inr ⟨_, rfl⟩
    · rcases readToken_returns q with ⟨r, hr, hlt'⟩ | ⟨r, hr⟩
      · rw [hr, ok_bind]
        split_ifs
        · exact Or.inr ⟨_, rfl⟩
        · exact Or.inl ⟨r, rfl, hlt'.trans hlt⟩
      · rw [hr]
        exact Or.inr ⟨r, rfl⟩
  · rw [hq]
    exact Or.inr ⟨q, rfl⟩

/-- `parseText` takes the parser on if it is not at `<`. -/
lemma parseText_left {p q : Private} {s : List UInt8} (h : parseText p = .ok (q, s)) :
    q.left ≤ p.left ∧ (p.pos.pos.head? ≠ some (ch '<') → q.left < p.left) := by
  rcases parseText_cases p with ⟨q', x, r, hx, -, hq, hpos⟩ | ⟨q', hq⟩
  · obtain ⟨rfl, -⟩ : q = q' ∧ _ := by simpa [h] using hq
    have hlen := congrArg List.length hx
    rw [← hpos, List.length_append] at hlen
    refine ⟨by simp only [Private.left]; omega, fun hhead => ?_⟩
    have hne : x ≠ [] := by
      rintro rfl
      rw [hx] at hhead
      exact hhead rfl
    have := List.length_pos_of_ne_nil hne
    simp only [Private.left]
    omega
  · exact absurd (h.symm.trans hq) (by simp)

/-- A call of `readToken` that returns false leaves the parser behind white space, not at `<`. -/
lemma readToken_error {p q : Private} (h : readToken p = .error (.syntaxError q)) :
    q.left ≤ p.left ∧ q.pos.pos.head? ≠ some (ch '<') := by
  rcases readToken_cases p with ⟨q', _, _, hq, -⟩ | ⟨q', hq, hpos, hhead⟩
  · exact absurd (h.symm.trans hq) (by simp)
  · obtain rfl : q = q' := by simpa [h] using hq
    exact ⟨by rw [Private.left, hpos]; exact length_skipSpace p.pos, hhead⟩

/-! ### The loop over attributes -/

lemma attributes_sound {n : ℕ} : ∀ {p q : Private} {as as' : List (List UInt8 × List UInt8)}
    {more : Bool}, parseAttributes n p as = .ok (q, as', more) → Attributes p more q := by
  induction n with
  | zero =>
    intro p q as as' more h
    exact absurd h (by simp [parseAttributes])
  | succ n ih =>
    intro p q as as' more h
    rw [parseAttributes] at h
    obtain ⟨r, hr, h⟩ := exists_of_bind_ok h
    split_ifs at h with hempty htag hname
    · obtain ⟨rfl, -, rfl⟩ : r = q ∧ as = as' ∧ false = more := by simpa using h
      exact .emptyTag hr hempty
    · obtain ⟨rfl, -, rfl⟩ : r = q ∧ as = as' ∧ true = more := by simpa using h
      exact .tag hr htag
    · obtain ⟨s, hs, h⟩ := exists_of_bind_ok h
      split_ifs at h with heq
      · exact absurd h syntaxError_ne_ok
      · obtain ⟨t, ht, h⟩ := exists_of_bind_ok h
        split_ifs at h with hstring
        · exact absurd h syntaxError_ne_ok
        · exact .pair hr hname hs (not_not.mp heq) ht (not_not.mp hstring) (ih h)
    · exact .other hr (by simp [hempty, htag, hname]) (ih h)

/-- The loop ends where `Attributes` says, if there are calls enough. -/
lemma attributes_complete {p q : Private} {more : Bool} (h : Attributes p more q) :
    ∀ n as, parseAttributes n p as = .error .outOfCalls ∨
      ∃ as', parseAttributes n p as = .ok (q, as', more) := by
  induction h with
  | @emptyTag p q hq htype =>
    intro n as
    cases n with
    | zero => exact Or.inl rfl
    | succ n => exact Or.inr ⟨as, by rw [parseAttributes, hq, ok_bind, if_pos htype]⟩
  | @tag p q hq htype =>
    intro n as
    cases n with
    | zero => exact Or.inl rfl
    | succ n =>
      have hempty : ¬ q.token.type = .emptyTagEnd := by rw [htype]; decide
      exact Or.inr ⟨as, by rw [parseAttributes, hq, ok_bind, if_neg hempty, if_pos htype]⟩
  | @pair p q r s t more hq hname hr heq hs hstring _ ih =>
    intro n as
    cases n with
    | zero => exact Or.inl rfl
    | succ n =>
      have hempty : ¬ q.token.type = .emptyTagEnd := by rw [hname]; decide
      have htag : ¬ q.token.type = .tagEnd := by rw [hname]; decide
      rw [parseAttributes, hq, ok_bind, if_neg hempty, if_neg htag, if_pos hname]
      dsimp only
      rw [hr, ok_bind, if_neg (not_not.mpr heq), hs, ok_bind, if_neg (not_not.mpr hstring)]
      exact ih n _
  | @other p q t more hq htype _ ih =>
    intro n as
    cases n with
    | zero => exact Or.inl rfl
    | succ n =>
      simp only [List.mem_cons, List.not_mem_nil, or_false, not_or] at htype
      rw [parseAttributes, hq, ok_bind, if_neg htype.1, if_neg htype.2.1, if_neg htype.2.2]
      exact ih n as

/-- As many calls as there are bytes left are enough for the loop. -/
lemma attributes_returns {n : ℕ} : ∀ {p : Private} {as : List (List UInt8 × List UInt8)},
    p.left < n → parseAttributes n p as ≠ .error .outOfCalls := by
  induction n with
  | zero =>
    intro p as hn
    exact absurd hn (by simp)
  | succ n ih =>
    intro p as hn
    rw [parseAttributes]
    rcases readToken_returns p with ⟨q, hq, hlt⟩ | ⟨q, hq⟩
    · rw [hq, ok_bind]
      split_ifs
      · simp
      · simp
      · dsimp only
        rcases readToken_returns q with ⟨r, hr, hlt'⟩ | ⟨r, hr⟩
        · rw [hr, ok_bind]
          split_ifs
          · simp [syntaxError]
          · rcases readToken_returns r with ⟨s, hs, hlt''⟩ | ⟨s, hs⟩
            · rw [hs, ok_bind]
              split_ifs
              · simp [syntaxError]
              · exact ih (by omega)
            · simp [hs, error_bind]
        · simp [hr, error_bind]
      · exact ih (by omega)
    · simp [hq, error_bind]

/-! ### Elements -/

/-- What the parser reads is what the relations say, if `n` calls inside each other are enough. -/
structure Sound (n : ℕ) : Prop where
  element : ∀ {p s : Private} {e e' : Element}, parseElement n p e = .ok (s, e') → Closes p s
  content : ∀ {p u v : Private} {c c' : List Variant}, Content p u →
    parseContent n u c = .ok (v, c') →
      ∃ w, Content p w ∧ readToken w = .ok v ∧ v.token.type = .endTagBegin

lemma element_sound {n : ℕ} (ih : Sound n) {p s : Private} {e e' : Element}
    (h : parseElement (n + 1) p e = .ok (s, e')) : Closes p s := by
  rw [parseElement] at h
  obtain ⟨q, hq, h⟩ := exists_of_bind_ok h
  split_ifs at h with hname
  · exact absurd h syntaxError_ne_ok
  · obtain ⟨⟨r, as, more⟩, hr, h⟩ := exists_of_bind_ok h
    have hattributes := attributes_sound hr
    cases more with
    | true =>
      obtain ⟨⟨v, c⟩, hv, h⟩ := exists_of_bind_ok h
      obtain ⟨s', hs, h⟩ := exists_of_bind_ok h
      obtain ⟨rfl, -⟩ : s' = s ∧ _ = e' := by simpa using h
      obtain ⟨w, hw, hread, htype⟩ :=
        ih.content (.first hq (not_not.mp hname) hattributes) hv
      exact .endTag hq hw hread htype hs
    | false =>
      obtain ⟨rfl, -⟩ : r = s ∧ _ = e' := by simpa using h
      exact .emptyTag hq (not_not.mp hname) hattributes

lemma content_sound {n : ℕ} (ih : Sound n) {p u v : Private} {c c' : List Variant}
    (hu : Content p u) (h : parseContent (n + 1) u c = .ok (v, c')) :
    ∃ w, Content p w ∧ readToken w = .ok v ∧ v.token.type = .endTagBegin := by
  rw [parseContent] at h
  cases hread : readToken u with
  | error e =>
    rw [hread] at h
    cases e with
    | outOfCalls => exact absurd h (by simp)
    | syntaxError q =>
      obtain ⟨⟨w, s⟩, hw, h⟩ := exists_of_bind_ok h
      exact ih.content (.noToken hu hread hw) h
  | ok q =>
    rw [hread] at h
    dsimp only at h
    split_ifs at h with hend hstart
    · obtain ⟨rfl, -⟩ : q = v ∧ c = c' := by simpa using h
      exact ⟨u, hu, hread, hend⟩
    · obtain ⟨⟨w, e⟩, hw, h⟩ := exists_of_bind_ok h
      exact ih.content (.child hu hread hstart (ih.element hw)) h
    · obtain ⟨⟨w, s⟩, hw, h⟩ := exists_of_bind_ok h
      exact ih.content (.text hu hread (by simp [hend, hstart]) hw) h

lemma sound_all (n : ℕ) : Sound n := by
  induction n with
  | zero =>
    refine ⟨fun h => ?_, fun _ h => ?_⟩
    · exact absurd h (by simp [parseElement])
    · exact absurd h (by simp [parseContent])
  | succ n ih => exact ⟨element_sound ih, content_sound ih⟩

mutual

/-- If the loop over the content gets to `u`, the parser goes on from there, or has run out of
    calls before. -/
theorem Content.complete {p u : Private} : Content p u → ∀ n e,
    parseElement n p e = .error .outOfCalls ∨ ∃ (q : Private) (m : ℕ) (c : List Variant)
      (f : List Variant → Element), readToken p = .ok q ∧
      parseElement n p e = parseContent m u c >>= fun r =>
        parseEndTag r.1 q.token.value >>= fun s => .ok (s, f r.2)
  | .first hq hname hattributes, n, e => by
    cases n with
    | zero => exact Or.inl rfl
    | succ n =>
      rw [parseElement, hq, ok_bind, if_neg (not_not.mpr hname)]
      dsimp only
      rcases attributes_complete hattributes n e.attributes with hout | ⟨as, has⟩
      · exact Or.inl (by rw [hout]; rfl)
      · exact Or.inr ⟨_, n, e.content, _, rfl, by rw [has]; rfl⟩
  | @Content.child _ t v _ hu hread htype hcloses, n, e => by
    have hend : ¬ v.token.type = .endTagBegin := by rw [htype]; decide
    rcases hu.complete n e with hout | ⟨q, m, c, f, hq, hm⟩
    · exact Or.inl hout
    · cases m with
      | zero => exact Or.inl (by rw [hm]; rfl)
      | succ m =>
        rw [hm, parseContent, hread]
        dsimp only
        rw [if_neg hend, if_pos htype]
        rcases hcloses.complete m .empty with hout | ⟨e', he'⟩
        · exact Or.inl (by rw [hout]; rfl)
        · exact Or.inr ⟨q, m, c ++ [.element e'], f, hq, by rw [he']; rfl⟩
  | @Content.text _ t v _ s hu hread htype htext, n, e => by
    simp only [List.mem_cons, List.not_mem_nil, or_false, not_or] at htype
    rcases hu.complete n e with hout | ⟨q, m, c, f, hq, hm⟩
    · exact Or.inl hout
    · cases m with
      | zero => exact Or.inl (by rw [hm]; rfl)
      | succ m =>
        rw [hm, parseContent, hread]
        dsimp only
        rw [if_neg htype.2, if_neg htype.1, htext]
        exact Or.inr ⟨q, m, c ++ [.text s], f, hq, rfl⟩
  | @Content.noToken _ t v _ s hu hread htext, n, e => by
    rcases hu.complete n e with hout | ⟨q, m, c, f, hq, hm⟩
    · exact Or.inl hout
    · cases m with
      | zero => exact Or.inl (by rw [hm]; rfl)
      | succ m =>
        rw [hm, parseContent, hread]
        dsimp only
        rw [htext]
        exact Or.inr ⟨q, m, c ++ [.text s], f, hq, rfl⟩

/-- If an element ends in `s`, the parser is there after it, or has run out of calls before. -/
theorem Closes.complete {p s : Private} : Closes p s → ∀ n e,
    parseElement n p e = .error .outOfCalls ∨ ∃ e', parseElement n p e = .ok (s, e')
  | .emptyTag hq hname hattributes, n, e => by
    cases n with
    | zero => exact Or.inl rfl
    | succ n =>
      rw [parseElement, hq, ok_bind, if_neg (not_not.mpr hname)]
      dsimp only
      rcases attributes_complete hattributes n e.attributes with hout | ⟨as, has⟩
      · exact Or.inl (by rw [hout]; rfl)
      · rw [has]
        exact Or.inr ⟨_, rfl⟩
  | @Closes.endTag _ q u v _ hq hu hread htype hend, n, e => by
    rcases hu.complete n e with hout | ⟨q', m, c, f, hq', hm⟩
    · exact Or.inl hout
    · obtain rfl : q' = q := Except.ok.inj (hq'.symm.trans hq)
      cases m with
      | zero => exact Or.inl (by rw [hm]; rfl)
      | succ m =>
        rw [hm, parseContent, hread]
        dsimp only
        rw [if_pos htype, ok_bind]
        dsimp only
        rw [hend]
        exact Or.inr ⟨_, rfl⟩

end

mutual

theorem Content.left_le {p u : Private} : Content p u → u.left ≤ p.left
  | .first hq _ hattributes => (hattributes.left_lt.trans (readToken_lt hq)).le
  | .child hu hread _ hcloses => (hcloses.left_le.trans (readToken_lt hread).le).trans hu.left_le
  | .text hu _ _ htext => (parseText_left htext).1.trans hu.left_le
  | .noToken hu hread htext =>
    ((parseText_left htext).1.trans (readToken_error hread).1).trans hu.left_le

theorem Closes.left_le {p s : Private} : Closes p s → s.left ≤ p.left
  | .emptyTag hq _ hattributes => (hattributes.left_lt.trans (readToken_lt hq)).le
  | @Closes.endTag _ q u v s _ hu hread _ hend => by
    rcases parseEndTag_returns v q.token.value with ⟨s', hs, hlt⟩ | ⟨s', hs⟩
    · obtain rfl : s = s' := Except.ok.inj (hend.symm.trans hs)
      exact (hlt.trans (readToken_lt hread)).le.trans hu.left_le
    · exact absurd (hend.symm.trans hs) (by simp)

end

/-! ## Stuck iterations -/

lemma switchToken_congr {p p' q : Private} (hpos : p.pos = p'.pos) (h : switchToken p = .ok q) :
    ∃ q', switchToken p' = .ok q' ∧ q'.token.type = q.token.type := by
  rw [switchToken.eq_def] at h ⊢
  rw [← hpos]
  cases ht : p.pos.pos with
  | nil =>
    simp only [ht] at h
    exact absurd h syntaxError_ne_ok
  | cons c s =>
    simp only [ht] at h ⊢
    split_ifs at h ⊢
    all_goals first
      | exact ⟨_, rfl, by rw [← Except.ok.inj h]⟩
      | exact absurd h syntaxError_ne_ok
      | skip
    cases hfind : findOneOf id [c, ch '\r', ch '\n'] s with
    | none =>
      rw [hfind] at h
      exact absurd h syntaxError_ne_ok
    | some e =>
      rw [hfind] at h
      dsimp only at h ⊢
      split_ifs at h ⊢
      · exact absurd h syntaxError_ne_ok
      · exact ⟨_, rfl, by rw [← Except.ok.inj h]⟩

/-- What kind of token comes next depends only on the position. -/
lemma readToken_congr {p p' q : Private} (hpos : p.pos = p'.pos) (h : readToken p = .ok q) :
    ∃ q', readToken p' = .ok q' ∧ q'.token.type = q.token.type := by
  rw [readToken] at h ⊢
  rw [hpos] at h
  refine switchToken_congr ?_ h
  rfl

/-- In a stuck iteration the parser reads an empty text and is back where it was. -/
lemma Stuck.step {u : Private} (h : Stuck u) (n : ℕ) (c : List Variant) : ∃ u', Stuck u' ∧
    parseContent (n + 1) u c = parseContent n u' (c ++ [.text []]) := by
  obtain ⟨⟨s, hs⟩, v, hread, htype⟩ := h
  have hpos : u.pos = ({ v with pos := u.pos } : Private).pos := rfl
  obtain ⟨v', hread', htype'⟩ := readToken_congr hpos hread
  have htext : parseText { v with pos := u.pos } = .ok ({ v with pos := u.pos }, []) :=
    parseText_nil (by rw [← hpos, ← hs]; rfl)
  refine ⟨{ v with pos := u.pos }, ⟨⟨s, hs⟩, v', hread', by rw [htype']; exact htype⟩, ?_⟩
  simp only [List.mem_cons, List.not_mem_nil, or_false, not_or] at htype
  rw [parseContent, hread]
  dsimp only
  rw [if_neg htype.2, if_neg htype.1, htext]
  rfl

lemma Stuck.loops {n : ℕ} : ∀ {u : Private}, Stuck u → ∀ c, parseContent n u c = .error .outOfCalls := by
  induction n with
  | zero => exact fun _ _ => rfl
  | succ n ih =>
    intro u h c
    obtain ⟨u', hu', hstep⟩ := h.step n c
    rw [hstep]
    exact ih hu' _

/-- A stuck iteration keeps the parser in its element for ever. -/
lemma visits_loops {p u : Private} (h : Visits p u) (hu : Stuck u) :
    ∀ n e, parseElement n p e = .error .outOfCalls := by
  induction h with
  | own hcontent =>
    intro n e
    rcases hcontent.complete n e with hout | ⟨q, m, c, f, -, hm⟩
    · exact hout
    · rw [hm, hu.loops]
      rfl
  | @nested p u v w hcontent hread htype _ ih =>
    intro n e
    have hend : ¬ v.token.type = .endTagBegin := by rw [htype]; decide
    rcases hcontent.complete n e with hout | ⟨q, m, c, f, -, hm⟩
    · exact hout
    · cases m with
      | zero => rw [hm]; rfl
      | succ m =>
        rw [hm, parseContent, hread]
        dsimp only
        rw [if_neg hend, if_pos htype, ih hu]
        rfl

/-! ## When the parser returns -/

/-- In an iteration that is not stuck, what is neither a tag nor the start of one is more than no
    text. -/
lemma head_of_not_stuck {u v : Private} (hu : ¬ Stuck u) (hread : readToken u = .ok v)
    (htype : v.token.type ∉ [.startTagBegin, .endTagBegin]) : u.pos.pos.head? ≠ some (ch '<') := by
  intro hhead
  have hcomment : ¬ commentBegin <+: u.pos.pos := fun h => hu ⟨h, v, hread, htype⟩
  have hspace : isSpace (ch '<') = false := by decide
  have hstops : Stops u.pos.pos := by
    refine ⟨fun c hc => ?_, hcomment⟩
    obtain rfl : ch '<' = c := Option.some_inj.mp (hhead.symm.trans hc)
    exact hspace
  obtain ⟨s, hs⟩ : ∃ s, u.pos.pos = ch '<' :: s := List.head?_eq_some_iff.mp hhead
  rw [readToken, skipSpace_stays hstops, switchToken.eq_def] at hread
  simp only [hs, if_true] at hread
  split_ifs at hread
  · rw [← Except.ok.inj hread] at htype
    exact htype (by simp)
  · rw [← Except.ok.inj hread] at htype
    exact htype (by simp)

/-- Without stuck iterations the parser returns, if `n` calls inside each other are enough. -/
structure Returns (n : ℕ) : Prop where
  element : ∀ {p : Private} {e : Element}, (∀ u, Visits p u → ¬ Stuck u) → p.left < n →
    parseElement n p e ≠ .error .outOfCalls
  content : ∀ {p u : Private} {c : List Variant}, (∀ u, Visits p u → ¬ Stuck u) → Content p u →
    u.left < n → parseContent n u c ≠ .error .outOfCalls

lemma readToken_ne_outOfCalls (p : Private) : readToken p ≠ .error .outOfCalls := by
  rcases readToken_returns p with ⟨q, hq, -⟩ | ⟨q, hq⟩ <;> simp [hq]

lemma parseEndTag_ne_outOfCalls (p : Private) (type : List UInt8) :
    parseEndTag p type ≠ .error .outOfCalls := by
  rcases parseEndTag_returns p type with ⟨q, hq, -⟩ | ⟨q, hq⟩ <;> simp [hq]

lemma parseText_ne_outOfCalls (p : Private) : parseText p ≠ .error .outOfCalls := by
  rcases parseText_cases p with ⟨q, x, r, -, -, hq, -⟩ | ⟨q, hq⟩ <;> simp [hq]

lemma element_returns {n : ℕ} (ih : Returns n) {p : Private} {e : Element}
    (hp : ∀ u, Visits p u → ¬ Stuck u) (hn : p.left < n + 1) :
    parseElement (n + 1) p e ≠ .error .outOfCalls := by
  rw [parseElement]
  refine bind_ne_error (readToken_ne_outOfCalls p) fun q hq => ?_
  have hlt : q.left < p.left := readToken_lt hq
  split_ifs with hname
  · simp [syntaxError]
  · refine bind_ne_error (attributes_returns (by omega)) fun a has => ?_
    obtain ⟨r, as, more⟩ := a
    have hattributes := attributes_sound has
    have hleft := hattributes.left_lt
    cases more with
    | false => simp
    | true =>
      have hfirst : Content p r := .first hq (not_not.mp hname) hattributes
      refine bind_ne_error (ih.content hp hfirst (by omega)) fun a _ => ?_
      exact bind_ne_error (parseEndTag_ne_outOfCalls _ _) fun s _ => by simp

lemma content_returns {n : ℕ} (ih : Returns n) {p u : Private} {c : List Variant}
    (hp : ∀ u, Visits p u → ¬ Stuck u) (hu : Content p u) (hn : u.left < n + 1) :
    parseContent (n + 1) u c ≠ .error .outOfCalls := by
  rw [parseContent]
  rcases readToken_returns u with ⟨q, hq, hlt⟩ | ⟨q, hq⟩
  · rw [hq]
    dsimp only
    split_ifs with hend hstart
    · simp
    · have hnested : ∀ w, Visits q w → ¬ Stuck w := fun w hw => hp w (.nested hu hq hstart hw)
      refine bind_ne_error (ih.element hnested (by omega)) fun a he => ?_
      have hcloses := (sound_all n).element he
      have hleft := hcloses.left_le
      exact ih.content hp (.child hu hq hstart hcloses) (by omega)
    · have htype : q.token.type ∉ [.startTagBegin, .endTagBegin] := by simp [hend, hstart]
      have hhead := head_of_not_stuck (hp u (.own hu)) hq htype
      refine bind_ne_error (parseText_ne_outOfCalls _) fun a ht => ?_
      have hleft : a.1.left < u.left := (parseText_left ht).2 hhead
      exact ih.content hp (.text hu hq htype ht) (by omega)
  · rw [hq]
    dsimp only
    obtain ⟨hle, hhead⟩ := readToken_error hq
    refine bind_ne_error (parseText_ne_outOfCalls q) fun a ht => ?_
    have hleft := (parseText_left ht).2 hhead
    exact ih.content hp (.noToken hu hq ht) (by omega)

lemma returns_all (n : ℕ) : Returns n := by
  induction n with
  | zero =>
    refine ⟨fun _ h => ?_, fun _ _ h => ?_⟩
    · exact absurd h (by simp)
    · exact absurd h (by simp)
  | succ n ih => exact ⟨element_returns ih, content_returns ih⟩

/-! ## Processing instructions -/

lemma skipInstruction_returns (startPos : Position) {n : ℕ} : ∀ {p : Private}, p.left < n →
    (∃ q, skipInstruction startPos n p = .ok q ∧ q.left ≤ p.left) ∨
    ∃ q, skipInstruction startPos n p = .error (.syntaxError q) := by
  induction n with
  | zero =>
    intro p hn
    exact absurd hn (by simp)
  | succ n ih =>
    intro p hn
    rw [skipInstruction]
    rcases findOneOf_cases [ch '\r', ch '\n', ch '?'] p.pos.pos with
      ⟨b, e, c, hpos, -, -, hfind⟩ | ⟨hnone, -⟩
    · have hlen := congrArg List.length hpos
      simp only [List.length_append, List.length_cons] at hlen
      simp only [hfind]
      by_cases hclose : (c :: e).head? = some (ch '?') ∧ (c :: e).tail.head? = some (ch '>')
      · rw [if_pos hclose]
        refine Or.inl ⟨_, rfl, ?_⟩
        simp only [Private.left, List.tail_cons, List.length_tail]
        omega
      · rw [if_neg hclose]
        have hskip := length_skipSpace { p.pos with pos := e }
        dsimp only at hskip
        simp only [Private.left] at hn
        rcases ih (p := { p with pos := skipSpace { p.pos with pos := e } })
          (by simp only [Private.left]; omega) with ⟨q, hq, hle⟩ | herr
        · refine Or.inl ⟨q, hq, ?_⟩
          simp only [Private.left] at hle ⊢
          omega
        · exact Or.inr herr
    · rw [hnone]
      exact Or.inr ⟨_, rfl⟩

/-- What a processing instruction leaves does not depend on the number of calls. -/
lemma skipInstruction_mono (startPos : Position) {n : ℕ} : ∀ {p q : Private},
    skipInstruction startPos n p = .ok q → ∀ m, skipInstruction startPos m p = .error .outOfCalls ∨
      skipInstruction startPos m p = .ok q := by
  induction n with
  | zero =>
    intro p q h
    exact absurd h (by simp [skipInstruction])
  | succ n ih =>
    intro p q h m
    cases m with
    | zero => exact Or.inl rfl
    | succ m =>
      rw [skipInstruction] at h ⊢
      cases hfind : findOneOf id [ch '\r', ch '\n', ch '?'] p.pos.pos with
      | none =>
        rw [hfind] at h
        exact absurd h syntaxError_ne_ok
      | some e =>
        rw [hfind] at h
        dsimp only at h ⊢
        by_cases hclose : e.head? = some (ch '?') ∧ e.tail.head? = some (ch '>')
        · rw [if_pos hclose] at h ⊢
          exact Or.inr h
        · rw [if_neg hclose] at h ⊢
          exact ih h m

lemma skipInstructions_returns {n : ℕ} : ∀ {p : Private}, p.left < n →
    (∃ q, skipInstructions n p = .ok q ∧ q.left ≤ p.left) ∨
    ∃ q, skipInstructions n p = .error (.syntaxError q) := by
  induction n with
  | zero =>
    intro p hn
    exact absurd hn (by simp)
  | succ n ih =>
    intro p hn
    rw [skipInstructions]
    by_cases hopen : p.pos.pos.head? = some (ch '<') ∧ p.pos.pos.tail.head? = some (ch '?')
    · rw [if_pos hopen]
      obtain ⟨s, hs⟩ : ∃ s, p.pos.pos = ch '<' :: s := List.head?_eq_some_iff.mp hopen.1
      have hlen : ({ p with pos.pos := p.pos.pos.tail.tail } : Private).left < p.left := by
        simp only [Private.left, hs, List.length_tail, List.length_cons]
        omega
      rcases skipInstruction_returns p.pos (n := n)
        (p := { p with pos.pos := p.pos.pos.tail.tail }) (by omega) with ⟨q, hq, hle⟩ | ⟨q, hq⟩
      · have hskip := length_skipSpace q.pos
        rw [hq, ok_bind]
        rcases ih (p := { q with pos := skipSpace q.pos })
          (by simp only [Private.left] at *; omega) with ⟨r, hr, hle'⟩ | herr
        · refine Or.inl ⟨r, hr, ?_⟩
          simp only [Private.left] at *
          omega
        · exact Or.inr herr
      · rw [hq]
        exact Or.inr ⟨q, rfl⟩
    · rw [if_neg hopen]
      exact Or.inl ⟨p, rfl, le_rfl⟩

lemma skipInstructions_mono {n : ℕ} : ∀ {p q : Private}, skipInstructions n p = .ok q →
    ∀ m, skipInstructions m p = .error .outOfCalls ∨ skipInstructions m p = .ok q := by
  induction n with
  | zero =>
    intro p q h
    exact absurd h (by simp [skipInstructions])
  | succ n ih =>
    intro p q h m
    cases m with
    | zero => exact Or.inl rfl
    | succ m =>
      rw [skipInstructions] at h ⊢
      by_cases hopen : p.pos.pos.head? = some (ch '<') ∧ p.pos.pos.tail.head? = some (ch '?')
      · rw [if_pos hopen] at h ⊢
        obtain ⟨r, hr, h⟩ := exists_of_bind_ok h
        rcases skipInstruction_mono p.pos hr m with hout | hr'
        · exact Or.inl (by rw [hout]; rfl)
        · rw [hr', ok_bind]
          exact ih h m
      · rw [if_neg hopen] at h ⊢
        exact Or.inr h

/-! ## The parser -/

/-- In `p` the parser has read the `<` of the root element. -/
def Root (data : CString) (p : Private) : Prop :=
  ∃ n q, skipInstructions n
      { Private.initial data with pos := skipSpace (Private.initial data).pos } = .ok q ∧
    readToken q = .ok p ∧ p.token.type = .startTagBegin

/-- The parser does not return if it visits a stuck iteration. -/
lemma parse_loops {data : CString} {p u : Private} (hroot : Root data p) (hu : Visits p u)
    (hstuck : Stuck u) (n : ℕ) (element : Element) :
    parse n data element = .error .outOfCalls := by
  obtain ⟨m, q, hq, hread, htype⟩ := hroot
  rw [parse]
  rcases skipInstructions_mono hq n with hout | hq'
  · rw [hout]
    rfl
  · rw [hq', ok_bind, hread, ok_bind, if_neg (not_not.mpr htype)]
    exact visits_loops hu hstuck n element

/-- **The parser returns** if it visits no stuck iteration, and only then. -/
theorem parse_returns_iff (data : CString) (element : Element) :
    (∃ n, parse n data element ≠ .error .outOfCalls) ↔
      ∀ p u, Root data p → Visits p u → ¬ Stuck u := by
  constructor
  · rintro ⟨n, hn⟩ p u hroot hu hstuck
    exact hn (parse_loops hroot hu hstuck n element)
  · intro h
    refine ⟨data.bytes.length + 1, ?_⟩
    rw [parse]
    have hskip := length_skipSpace (Private.initial data).pos
    have hleft : ({ Private.initial data with pos := skipSpace (Private.initial data).pos } :
        Private).left < data.bytes.length + 1 := Nat.lt_succ_of_le hskip
    rcases skipInstructions_returns hleft with ⟨q, hq, hle⟩ | ⟨q, hq⟩
    · rw [hq, ok_bind]
      refine bind_ne_error (readToken_ne_outOfCalls q) fun p hp => ?_
      split_ifs with htype
      · simp [syntaxError]
      · have hlt : p.left < q.left := readToken_lt hp
        have hroot : Root data p := ⟨_, q, hq, hp, not_not.mp htype⟩
        exact (returns_all _).element (fun u hu => h p u hroot hu) (by omega)
    · rw [hq]
      simp [error_bind]

lemma stuck_comment {u : Private} (hu : u.pos.pos = bytes "<!---->b</a>") : Stuck u := by
  have hstops : Stops (bytes "b</a>") := ⟨by decide +kernel, by decide⟩
  have hskip : (skipSpace u.pos).pos = bytes "b</a>" := by
    have hcomment : bytes "<!---->b</a>" = commentBegin ++ (commentEnd ++ bytes "b</a>") := rfl
    rw [skipSpace, hu, hcomment, skipBlank_comment, skipComment_end]
    exact skipBlank_append (w := []) (by simp) hstops _ _
  have hname : Lexeme .name (bytes "b<") (bytes "b<") :=
    .name (by decide) (by decide +kernel) (by decide +kernel)
  have hfollows : ∀ c ∈ (bytes "/a>").head?, isNameByte c = false := by decide +kernel
  obtain ⟨v, hv, htype, -, -⟩ := switchToken_lexeme (r := bytes "/a>")
    (p := { u with pos := skipSpace u.pos, token.pos := skipSpace u.pos }) hname
    hfollows hskip
  exact ⟨⟨_, hu.symm⟩, v, hv, by rw [htype]; decide⟩

lemma comment_loops {data : CString} (hdata : data.bytes = bytes "<a><!---->b</a>") (n : ℕ)
    (element : Element) : parse n data element = .error .outOfCalls := by
  have hnil : ∀ c ∈ ([] : List UInt8), isSpace c := by simp
  have hname : Lexeme .name (bytes "a") (bytes "a") :=
    .name (by decide) (by decide +kernel) (by decide +kernel)
  have hfollows : ∀ c ∈ (bytes "><!---->b</a>").head?, isNameByte c = false := by decide +kernel
  have hbegin : Lexeme .startTagBegin (bytes "<") [] := .startTagBegin
  have hend : Lexeme .tagEnd (bytes ">") [] := .tagEnd
  have hstops : Stops (Private.initial data).pos.pos := by
    show Stops data.bytes
    rw [hdata]
    exact ⟨by decide +kernel, by decide⟩
  have hskip := skipSpace_stays hstops
  have hfirst : skipInstructions 1
      { Private.initial data with pos := skipSpace (Private.initial data).pos } =
        .ok (Private.initial data) := by
    rw [hskip, skipInstructions, if_neg]
    show ¬ (data.bytes.head? = _ ∧ data.bytes.tail.head? = _)
    rw [hdata]
    decide
  obtain ⟨p, hp, hptype, -, hppos⟩ := readToken_lexeme (r := bytes "a><!---->b</a>")
    (p := Private.initial data) hnil hbegin ⟨by decide, by decide⟩ hdata
  obtain ⟨q, hq, hqtype, -, hqpos⟩ := readToken_lexeme (r := bytes "><!---->b</a>") (p := p)
    hnil hname hfollows hppos
  obtain ⟨u, hu, hutype, -, hupos⟩ := readToken_lexeme (r := bytes "<!---->b</a>") (p := q)
    hnil hend trivial hqpos
  have hroot : Root data p := ⟨1, _, hfirst, hp, hptype⟩
  have hcontent : Content p u := .first hq hqtype (.tag hu hutype)
  exact parse_loops hroot (.own hcontent) (stuck_comment hupos) n element

/-- A comment with text behind it -/
theorem comment_before_text :
    ¬ ∃ n, parse n ⟨bytes "<a><!---->b</a>", by decide⟩ .empty ≠ .error .outOfCalls := by
  rintro ⟨n, hn⟩
  exact hn (comment_loops rfl n .empty)

end Nstd.Xml
