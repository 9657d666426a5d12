import Nstd.Document.XmlRuns

/-!
# What the XML parser accepts

* `StartTagText`, `ElementText`, `ContentText` — the grammar of elements.  In a loose one, other
  tokens may stand between the attributes of a start tag.
* `Instructions` — processing instructions.
* `Document` — a text that begins with an element of this grammar.
* **`accepted_document`** — accepted texts begin with a loose element.  Its start tags need not be
  strict, and anything may follow it (`loose_documents`).

The parser reads one lexeme after the other, and every way in which it goes on is a rule of the loose
grammar; the strict one lacks those that it should not take.
-/

namespace Nstd.Xml

/-! ## The grammar -/

/-- The rest of a start tag, from behind the tag's name; does content follow? -/
inductive StartTagText (loose : Prop) : List UInt8 → Bool → Prop
  | emptyTag {w : List UInt8} : Blank w → StartTagText loose (w ++ bytes "/>") false
  | tag {w : List UInt8} : Blank w → StartTagText loose (w ++ bytes ">") true
  | pair {w x w' w'' s v r : List UInt8} {more : Bool} : Blank w → Lexeme .name x x → Blank w' →
      Blank w'' → Lexeme .string s v → StartTagText loose r more →
      StartTagText loose (w ++ x ++ w' ++ bytes "=" ++ w'' ++ s ++ r) more
  | other {type : TokenType} {w x v r : List UInt8} {more : Bool} : loose → Blank w →
      Lexeme type x v → type ∉ [.emptyTagEnd, .tagEnd, .name] → StartTagText loose r more →
      StartTagText loose (w ++ x ++ r) more

mutual

/-- An element -/
inductive ElementText (loose : Prop) : List UInt8 → Prop
  | emptyTag {w x a : List UInt8} : Blank w → Lexeme .name x x → StartTagText loose a false →
      ElementText loose (bytes "<" ++ w ++ x ++ a)
  | endTag {w x a c w' w'' u : List UInt8} : Blank w → Lexeme .name x x →
      StartTagText loose a true → ContentText loose c → Blank w' → Blank w'' → Blank u →
      ElementText loose (bytes "<" ++ w ++ x ++ a ++ c ++ w' ++ bytes "</" ++ w'' ++ x ++ u ++
        bytes ">")

/-- The content of an element: elements and texts -/
inductive ContentText (loose : Prop) : List UInt8 → Prop
  | nil : ContentText loose []
  | element {c w e : List UInt8} : ContentText loose c → Blank w → ElementText loose e →
      ContentText loose (c ++ w ++ e)
  | text {c w s : List UInt8} : ContentText loose c → Blank w → ch '<' ∉ s →
      ContentText loose (c ++ w ++ s)

end

/-- The inside of a processing instruction.  Behind a line break or a question mark, comments are
    passed over. -/
inductive InstructionBody : List UInt8 → Prop
  | last {b : List UInt8} : (∀ d ∈ b, d ∉ [ch '\r', ch '\n', ch '?']) → InstructionBody b
  | more {b w s : List UInt8} {c : UInt8} : (∀ d ∈ b, d ∉ [ch '\r', ch '\n', ch '?']) →
      c ∈ [ch '\r', ch '\n', ch '?'] → (c = ch '?' → (w ++ s).head? ≠ some (ch '>')) → Blank w →
      InstructionBody s → InstructionBody (b ++ c :: (w ++ s))

/-- Processing instructions, and blanks behind them -/
inductive Instructions : List UInt8 → Prop
  | nil : Instructions []
  | cons {b w s : List UInt8} : InstructionBody b → Blank w → Instructions s →
      Instructions (bytes "<?" ++ b ++ bytes "?>" ++ w ++ s)

/-- Processing instructions, an element, and the rest of the text -/
def Document (loose : Prop) (rest : List UInt8 → Prop) (s : List UInt8) : Prop :=
  ∃ w i w' e r, s = w ++ i ++ w' ++ e ++ r ∧ Blank w ∧ Instructions i ∧ Blank w' ∧
    ElementText loose e ∧ rest r

/-! ## What is read -/

/-- A token and the blanks in front of it -/
lemma readToken_text {p q : Private} (h : readToken p = .ok q) : ∃ w x, Blank w ∧
    Lexeme q.token.type x q.token.value ∧ p.pos.pos = w ++ x ++ q.pos.pos := by
  rcases readToken_cases p with ⟨q', w, x, hq, hpos, hw, hlex, -⟩ | ⟨q', hq, -⟩
  · obtain rfl : q = q' := Except.ok.inj (h.symm.trans hq)
    exact ⟨w, x, hw, hlex, hpos⟩
  · exact absurd (h.symm.trans hq) (by simp)

/-- The texts of the tokens without a value -/
lemma Lexeme.text_eq {type : TokenType} {x v : List UInt8} (h : Lexeme type x v) :
    (type = .startTagBegin → x = bytes "<") ∧ (type = .tagEnd → x = bytes ">") ∧
      (type = .endTagBegin → x = bytes "</") ∧ (type = .emptyTagEnd → x = bytes "/>") ∧
        (type = .equalsSign → x = bytes "=") := by
  cases h <;> simp

lemma Lexeme.name_eq {x v : List UInt8} (h : Lexeme .name x v) : v = x := by
  cases h
  rfl

lemma Attributes.text {p q : Private} {more : Bool} (h : Attributes p more q) :
    ∃ a, StartTagText True a more ∧ p.pos.pos = a ++ q.pos.pos := by
  induction h with
  | @emptyTag p q hq htype =>
    obtain ⟨w, x, hw, hlex, hpos⟩ := readToken_text hq
    rw [hlex.text_eq.2.2.2.1 htype] at hpos
    exact ⟨_, .emptyTag hw, hpos⟩
  | @tag p q hq htype =>
    obtain ⟨w, x, hw, hlex, hpos⟩ := readToken_text hq
    rw [hlex.text_eq.2.1 htype] at hpos
    exact ⟨_, .tag hw, hpos⟩
  | @pair p q r s t more hq hname hr hequal hs hstring _ ih =>
    obtain ⟨a, ha, hpos⟩ := ih
    obtain ⟨w, x, hw, hlex, hp⟩ := readToken_text hq
    obtain ⟨w', y, hw', hlex', hq⟩ := readToken_text hr
    obtain ⟨w'', z, hw'', hlex'', hr⟩ := readToken_text hs
    rw [hlex'.text_eq.2.2.2.2 hequal] at hq
    rw [hname] at hlex
    rw [hlex.name_eq] at hlex
    rw [hstring] at hlex''
    refine ⟨_, .pair hw hlex hw' hw'' hlex'' ha, ?_⟩
    rw [hp, hq, hr, hpos]
    simp
  | @other p q t more hq htype _ ih =>
    obtain ⟨a, ha, hpos⟩ := ih
    obtain ⟨w, x, hw, hlex, hp⟩ := readToken_text hq
    refine ⟨_, .other trivial hw hlex htype ha, ?_⟩
    rw [hp, hpos]
    simp

lemma parseEndTag_text {p q : Private} {type : List UInt8} (h : parseEndTag p type = .ok q) :
    ∃ w u, Blank w ∧ Blank u ∧ p.pos.pos = w ++ type ++ u ++ bytes ">" ++ q.pos.pos := by
  rw [parseEndTag] at h
  obtain ⟨r, hr, h⟩ := exists_of_bind_ok h
  split_ifs at h with hname hvalue
  · exact absurd h syntaxError_ne_ok
  · exact absurd h syntaxError_ne_ok
  · obtain ⟨s, hs, h⟩ := exists_of_bind_ok h
    split_ifs at h with htag
    · exact absurd h syntaxError_ne_ok
    · obtain rfl := Except.ok.inj h
      obtain ⟨w, x, hw, hlex, hp⟩ := readToken_text hr
      obtain ⟨u, y, hu, hlex', hpos⟩ := readToken_text hs
      rw [not_not.mp hname] at hlex
      rw [hlex'.text_eq.2.1 (not_not.mp htag)] at hpos
      refine ⟨w, u, hw, hu, ?_⟩
      rw [hp, hpos, ← hlex.name_eq, not_not.mp hvalue]
      simp

mutual

/-- The text from `<` to an iteration of the loop over the content -/
theorem Content.text_eq {p u : Private} : Content p u → ∃ (q : Private) (w a c : List UInt8),
    readToken p = .ok q ∧ Blank w ∧ Lexeme .name q.token.value q.token.value ∧
      StartTagText True a true ∧ ContentText True c ∧
        p.pos.pos = w ++ q.token.value ++ a ++ c ++ u.pos.pos
  | @Content.first p q u hq hname hattributes => by
    obtain ⟨a, ha, hpos⟩ := hattributes.text
    obtain ⟨w, x, hw, hlex, hp⟩ := readToken_text hq
    rw [hname] at hlex
    obtain rfl : q.token.value = x := hlex.name_eq
    exact ⟨q, w, a, [], hq, hw, hlex, ha, .nil, by rw [hp, hpos]; simp⟩
  | @Content.child p u v t hu hread htype hcloses => by
    obtain ⟨q, w, a, c, hq, hw, hlex, ha, hc, hp⟩ := hu.text_eq
    obtain ⟨e, he, hv⟩ := hcloses.text_eq
    obtain ⟨w', x, hw', hlex', hpos⟩ := readToken_text hread
    rw [hlex'.text_eq.1 htype] at hpos
    refine ⟨q, w, a, _, hq, hw, hlex, ha, .element hc hw' he, ?_⟩
    rw [hp, hpos, List.append_assoc w', hv]
    simp
  | @Content.text p u v t _ hu hread _ htext => by
    obtain ⟨q, w, a, c, hq, hw, hlex, ha, hc, hp⟩ := hu.text_eq
    rcases parseText_cases { v with pos := u.pos } with ⟨t', s, r, hs, hlt, ht, hpos⟩ | ⟨t', ht⟩
    · obtain ⟨rfl, -⟩ := Prod.mk.inj (Except.ok.inj (htext.symm.trans ht))
      refine ⟨q, w, a, _, hq, hw, hlex, ha, .text hc .nil hlt, ?_⟩
      rw [hp, hpos]
      simpa using hs
    · exact absurd (htext.symm.trans ht) (by simp)
  | @Content.noToken p u v t _ hu hread htext => by
    obtain ⟨q, w, a, c, hq, hw, hlex, ha, hc, hp⟩ := hu.text_eq
    obtain ⟨w', hw', hblank, -⟩ := skipSpace_spec u.pos
    rcases readToken_cases u with ⟨v', _, _, hv, -⟩ | ⟨v', hv, hvpos, -⟩
    · exact absurd (hread.symm.trans hv) (by simp)
    · obtain rfl : v = v' := by simpa [hread] using hv
      rcases parseText_cases v with ⟨t', s, r, hs, hlt, ht, hpos⟩ | ⟨t', ht⟩
      · obtain ⟨rfl, -⟩ := Prod.mk.inj (Except.ok.inj (htext.symm.trans ht))
        rw [← hvpos] at hw' hblank
        have hne : v.pos.pos ≠ [] := by rw [hs]; simp
        refine ⟨q, w, a, _, hq, hw, hlex, ha, .text hc (hblank hne) hlt, ?_⟩
        rw [hp, hw', hs, hpos]
        simp
      · exact absurd (htext.symm.trans ht) (by simp)

/-- The text of an element -/
theorem Closes.text_eq {p s : Private} : Closes p s → ∃ e, ElementText True e ∧
    bytes "<" ++ p.pos.pos = e ++ s.pos.pos
  | @Closes.emptyTag p q s hq hname hattributes => by
    obtain ⟨a, ha, hpos⟩ := hattributes.text
    obtain ⟨w, x, hw, hlex, hp⟩ := readToken_text hq
    rw [hname] at hlex
    rw [hlex.name_eq] at hlex
    exact ⟨_, .emptyTag hw hlex ha, by rw [hp, hpos]; simp⟩
  | @Closes.endTag p q u v s hq hu hread htype hend => by
    obtain ⟨q', w, a, c, hq', hw, hlex, ha, hc, hp⟩ := hu.text_eq
    obtain rfl : q' = q := Except.ok.inj (hq'.symm.trans hq)
    obtain ⟨w', x, hw', hlex', hpos⟩ := readToken_text hread
    rw [hlex'.text_eq.2.2.1 htype] at hpos
    obtain ⟨w'', t, hw'', ht, hv⟩ := parseEndTag_text hend
    refine ⟨_, .endTag hw hlex ha hc hw' hw'' ht, ?_⟩
    rw [hp, hpos, hv]
    simp

end

/-! ## Processing instructions -/

lemma skipInstruction_text {startPos : Position} {n : ℕ} : ∀ {p q : Private},
    skipInstruction startPos n p = .ok q →
      ∃ b, InstructionBody b ∧ p.pos.pos = b ++ bytes "?>" ++ q.pos.pos := by
  induction n with
  | zero =>
    intro p q h
    exact absurd h (by simp [skipInstruction])
  | succ n ih =>
    intro p q h
    rw [skipInstruction] at h
    rcases findOneOf_cases [ch '\r', ch '\n', ch '?'] p.pos.pos with
      ⟨b, e, c, hp, hb, hc, hfind⟩ | ⟨hfind, -⟩
    · rw [hfind] at h
      dsimp only at h
      by_cases hend : (c :: e).head? = some (ch '?') ∧ (c :: e).tail.head? = some (ch '>')
      · rw [if_pos hend] at h
        obtain rfl : c = ch '?' := Option.some_inj.mp hend.1
        obtain ⟨r, rfl⟩ : ∃ r, e = ch '>' :: r := List.head?_eq_some_iff.mp hend.2
        obtain rfl := Except.ok.inj h
        exact ⟨b, .last hb, by rw [hp]; simp [bytes]⟩
      · rw [if_neg hend] at h
        obtain ⟨s, hs, hpos⟩ := ih h
        obtain ⟨w, hw, hblank, -⟩ := skipSpace_spec { p.pos with pos := (c :: e).tail }
        dsimp only at hw hblank hpos
        rw [hpos] at hw hblank
        have hne : s ++ bytes "?>" ++ q.pos.pos ≠ [] := by simp [bytes]
        have he : e = w ++ s ++ (bytes "?>" ++ q.pos.pos) := by
          rw [List.tail_cons] at hw
          simpa using hw
        refine ⟨_, .more hb hc (fun hquestion hhead => hend ⟨?_, ?_⟩) (hblank hne) hs, ?_⟩
        · rw [hquestion, List.head?_cons]
        · rw [List.tail_cons, he, List.head?_append, hhead]
          rfl
        · rw [hp, he]
          simp
    · rw [hfind] at h
      exact absurd h syntaxError_ne_ok

lemma skipInstructions_text {n : ℕ} : ∀ {p q : Private}, skipInstructions n p = .ok q →
    q.pos.pos ≠ [] → ∃ i, Instructions i ∧ p.pos.pos = i ++ q.pos.pos := by
  induction n with
  | zero =>
    intro p q h
    exact absurd h (by simp [skipInstructions])
  | succ n ih =>
    intro p q h hne
    rw [skipInstructions] at h
    by_cases hopen : p.pos.pos.head? = some (ch '<') ∧ p.pos.pos.tail.head? = some (ch '?')
    · rw [if_pos hopen] at h
      obtain ⟨r, hr, h⟩ := exists_of_bind_ok h
      obtain ⟨b, hb, hpos⟩ := skipInstruction_text hr
      obtain ⟨i, hi, hskip⟩ := ih h hne
      obtain ⟨w, hw, hblank, -⟩ := skipSpace_spec r.pos
      dsimp only at hskip hpos
      rw [hskip] at hw hblank
      have hne' : i ++ q.pos.pos ≠ [] := by simp [hne]
      refine ⟨_, .cons hb (hblank hne') hi, ?_⟩
      have hp : p.pos.pos = bytes "<?" ++ p.pos.pos.tail.tail := by
        obtain ⟨hlt, hquestion⟩ := hopen
        obtain ⟨s, hs⟩ := List.head?_eq_some_iff.mp hlt
        rw [hs, List.tail_cons] at hquestion ⊢
        obtain ⟨t, rfl⟩ := List.head?_eq_some_iff.mp hquestion
        rfl
      rw [hp, hpos, hw]
      simp
    · rw [if_neg hopen] at h
      obtain rfl := Except.ok.inj h
      exact ⟨[], .nil, rfl⟩

/-! ## The parser -/

/-- **An accepted text** begins with an element of the loose grammar. -/
theorem accepted_document {data : CString} {n : ℕ} {element e : Element} {q : Private}
    (h : parse n data element = .ok (q, e)) : Document True (fun _ => True) data.bytes := by
  rw [parse] at h
  obtain ⟨p, hp, h⟩ := exists_of_bind_ok h
  obtain ⟨r, hr, h⟩ := exists_of_bind_ok h
  split_ifs at h with htype
  · exact absurd h syntaxError_ne_ok
  · obtain ⟨x, hx, hrpos⟩ := ((sound_all n).element h).text_eq
    obtain ⟨w', y, hw', hlex, hpos⟩ := readToken_text hr
    rw [hlex.text_eq.1 (not_not.mp htype), List.append_assoc, hrpos] at hpos
    have hbegin : p.pos.pos ≠ [] := by
      rintro hnil
      have := readToken_lt hr
      rw [hnil] at this
      exact absurd this (by simp)
    obtain ⟨i, hi, hskip⟩ := skipInstructions_text hp hbegin
    obtain ⟨w, hw, hblank, -⟩ := skipSpace_spec (Private.initial data).pos
    dsimp only at hskip
    rw [hskip] at hw hblank
    refine ⟨w, i, w', x, q.pos.pos, ?_, hblank (by simp [hbegin]), hi, hw', hx, trivial⟩
    have hdata : data.bytes = w ++ (i ++ p.pos.pos) := hw
    rw [hdata, hpos]
    simp

/-- Five calls inside each other, tried out -/
lemma accepts_of_isOk {data : CString} (h : (parse 5 data .empty).isOk = true) :
    ∃ n q e, parse n data .empty = .ok (q, e) := by
  cases hparse : parse 5 data .empty with
  | error e => exact absurd h (by rw [hparse]; exact Bool.false_ne_true)
  | ok r => exact ⟨5, r.1, r.2, hparse⟩

theorem accepted_document_tag : Document True (fun _ => True) (bytes "<a =/>") := by
  have haccepts : ∃ n q e, parse n ⟨bytes "<a =/>", by decide⟩ .empty = .ok (q, e) :=
    accepts_of_isOk (by decide +kernel)
  obtain ⟨n, q, e, h⟩ := haccepts
  exact accepted_document h

/-! ## Texts that are not strict -/

lemma Blank.eq_nil {w s : List UInt8} (hw : Blank w) (hs : Stops (w ++ s)) : w = [] := by
  cases hw with
  | nil => rfl
  | space hc _ => exact absurd hc (by rw [hs.1 _ rfl]; decide)
  | @comment b w _ _ => exact absurd ⟨b ++ commentEnd ++ w ++ s, by simp⟩ hs.2

/-- Blanks end with white space or with the end of a comment. -/
lemma Blank.last {w : List UInt8} (hw : Blank w) : ∀ c ∈ w.getLast?, isSpace c ∨ c = ch '>' := by
  induction hw with
  | nil => simp
  | @space c w hc _ ih =>
    intro d hd
    cases w with
    | nil => exact Or.inl ((Option.some_inj.mp hd) ▸ hc)
    | cons e w => exact ih d (by simpa using hd)
  | @comment b w _ _ ih =>
    intro d hd
    cases w with
    | nil =>
      have hlast : (commentBegin ++ b ++ commentEnd ++ []).getLast? = some (ch '>') := by
        simp [commentEnd, bytes]
      exact Or.inr (Option.some_inj.mp (hd.symm.trans hlast))
    | cons e w => exact ih d (by simpa using hd)

lemma StartTagText.last {loose : Prop} {a : List UInt8} {more : Bool}
    (h : StartTagText loose a more) : a.getLast? = some (ch '>') := by
  have happend : ∀ s r : List UInt8, r.getLast? = some (ch '>') →
      (s ++ r).getLast? = some (ch '>') := by
    intro s r hr
    rw [List.getLast?_append, hr]
    rfl
  induction h with
  | emptyTag _ => exact happend _ _ rfl
  | tag _ => exact happend _ _ rfl
  | pair _ _ _ _ _ _ ih => exact happend _ _ ih
  | other _ _ _ _ _ ih => exact happend _ _ ih

lemma ElementText.last {loose : Prop} {e : List UInt8} (h : ElementText loose e) :
    e.getLast? = some (ch '>') := by
  cases h with
  | emptyTag _ _ ha => rw [List.getLast?_append, ha.last]; rfl
  | endTag _ _ _ _ _ _ _ => rw [List.getLast?_append]; rfl

/-- The last byte of a text with nothing behind its element -/
lemma Document.last {loose : Prop} {s : List UInt8} (h : Document loose Blank s) :
    ∀ c ∈ s.getLast?, isSpace c ∨ c = ch '>' := by
  obtain ⟨w, i, w', e, r, rfl, -, -, -, he, hr⟩ := h
  intro c hc
  rw [List.getLast?_append] at hc
  cases hlast : r.getLast? with
  | some d =>
    rw [hlast] at hc
    obtain rfl : d = c := Option.some_inj.mp hc
    exact hr.last _ hlast
  | none =>
    rw [hlast, List.getLast?_append, he.last] at hc
    exact Or.inr (Option.some_inj.mp hc).symm

/-- In a strict start tag, no equals sign comes first. -/
lemma strict_startTag {a r t : List UInt8} {more : Bool} (h : StartTagText False a more) :
    a ++ r ≠ ch ' ' :: ch '=' :: t := by
  have hstops : Stops (ch '=' :: t) := by
    refine ⟨fun c hc => (Option.some_inj.mp hc) ▸ (by decide), fun h => ?_⟩
    obtain ⟨u, hu⟩ := h
    exact absurd (List.cons.inj hu).1 (by decide)
  have hblank : ∀ {w s : List UInt8}, Blank w → w ++ s = ch ' ' :: ch '=' :: t →
      s.head? = some (ch ' ') ∨ s.head? = some (ch '=') := by
    intro w s hw heq
    cases hw with
    | nil => exact Or.inl (by rw [← List.nil_append s, heq]; rfl)
    | @space c w _ hw =>
      have htail : w ++ s = ch '=' :: t := (List.cons.inj heq).2
      have hnil : w = [] := hw.eq_nil (s := s) (by rw [htail]; exact hstops)
      rw [hnil, List.nil_append] at htail
      exact Or.inr (by rw [htail]; rfl)
    | @comment b w _ _ => exact absurd (List.cons.inj heq).1 (by decide)
  intro heq
  cases h with
  | emptyTag hw =>
    rw [List.append_assoc] at heq
    rcases hblank hw heq with h | h <;> exact absurd (Option.some_inj.mp h) (by decide)
  | tag hw =>
    rw [List.append_assoc] at heq
    rcases hblank hw heq with h | h <;> exact absurd (Option.some_inj.mp h) (by decide)
  | @pair w x w' w'' s v r' _ hw hname _ _ _ _ =>
    obtain ⟨-, hall⟩ : x ≠ [] ∧ ∀ c ∈ x, isNameByte c := by
      cases hname with
      | name hne hall _ => exact ⟨hne, hall⟩
    obtain ⟨c, x, rfl⟩ := List.exists_cons_of_ne_nil hname.ne_nil
    have hc := hall c List.mem_cons_self
    rw [List.append_assoc, List.append_assoc, List.append_assoc, List.append_assoc,
      List.append_assoc, List.append_assoc] at heq
    rcases hblank hw heq with h | h
    · rw [show c = ch ' ' from Option.some_inj.mp h] at hc
      exact absurd hc (by decide +kernel)
    · rw [show c = ch '=' from Option.some_inj.mp h] at hc
      exact absurd hc (by decide +kernel)
  | other h _ _ _ _ => exact h

/-- A name in front of white space -/
lemma name_eq_of_append {x s t : List UInt8} {c : UInt8} (hx : Lexeme .name x x)
    (h : x ++ s = c :: ch ' ' :: t) : x = [c] := by
  have hall : ∀ d ∈ x, isNameByte d := by
    cases hx with
    | name _ hall _ => exact hall
  match x, hx.ne_nil with
  | [d], _ => rw [(List.cons.inj h).1]
  | d :: e :: x, _ =>
    have he := hall e (by simp)
    rw [(List.cons.inj (List.cons.inj h).2).1] at he
    exact absurd he (by decide +kernel)

/-- An equals sign between the name and the end of a tag -/
lemma strict_element {e r t : List UInt8} (h : ElementText False e) : e ++ r ≠ bytes "<a =" ++ t := by
  have hstops : Stops (bytes "a =" ++ t) := by
    refine ⟨fun c hc => (Option.some_inj.mp hc) ▸ (by decide), fun h => ?_⟩
    obtain ⟨u, hu⟩ := h
    exact absurd (List.cons.inj hu).1 (by decide)
  -- what is left for the start tag in both cases
  have key : ∀ {w x a s : List UInt8} {more : Bool}, Blank w → Lexeme .name x x →
      StartTagText False a more → bytes "<" ++ w ++ x ++ a ++ s ≠ bytes "<a =" ++ t := by
    intro w x a s more hw hx ha heq
    have hinside : w ++ (x ++ (a ++ s)) = bytes "a =" ++ t := by
      rw [List.append_assoc, List.append_assoc, List.append_assoc] at heq
      exact (List.cons.inj heq).2
    have hnil : w = [] := hw.eq_nil (s := x ++ (a ++ s)) (by rw [hinside]; exact hstops)
    rw [hnil, List.nil_append] at hinside
    have hname : x = [ch 'a'] := name_eq_of_append hx hinside
    rw [hname] at hinside
    exact strict_startTag ha (List.cons.inj hinside).2
  intro heq
  cases h with
  | emptyTag hw hx ha => exact key hw hx ha heq
  | @endTag w x a c w' w'' u hw hx ha _ _ _ _ =>
    refine key (s := c ++ w' ++ bytes "</" ++ w'' ++ x ++ u ++ bytes ">" ++ r) hw hx ha ?_
    rw [← heq]
    simp

/-- A text that begins with a tag has nothing in front of it. -/
lemma Document.tag {loose : Prop} {rest : List UInt8 → Prop} {c : UInt8} {s : List UInt8}
    (h : Document loose rest (ch '<' :: c :: s)) (hc : c ≠ ch '!') (hquestion : c ≠ ch '?') :
    ∃ e r, ElementText loose e ∧ rest r ∧ e ++ r = ch '<' :: c :: s := by
  have hstops : Stops (ch '<' :: c :: s) := by
    refine ⟨fun x hx => (Option.some_inj.mp hx) ▸ (by decide), fun hcomment => ?_⟩
    obtain ⟨u, hu⟩ := hcomment
    exact hc (List.cons.inj (List.cons.inj hu).2).1.symm
  obtain ⟨w, i, w', e, r, heq, hw, hi, hw', he, hr⟩ := h
  obtain rfl : w = [] := by
    refine hw.eq_nil (s := i ++ w' ++ e ++ r) ?_
    rw [← List.append_assoc, ← List.append_assoc, ← List.append_assoc, ← heq]
    exact hstops
  obtain rfl : i = [] := by
    cases hi with
    | nil => rfl
    | cons _ _ _ => exact absurd (List.cons.inj (List.cons.inj heq).2).1 hquestion
  obtain rfl : w' = [] := by
    refine hw'.eq_nil (s := e ++ r) ?_
    rw [← List.append_assoc]
    exact heq ▸ hstops
  exact ⟨e, r, he, hr, heq.symm⟩

/-- A start tag with an equals sign of its own, and an element with something behind it -/
theorem loose_documents :
    ((∃ n q e, parse n ⟨bytes "<a =/>", by decide⟩ .empty = .ok (q, e)) ∧
      ¬ Document False Blank (bytes "<a =/>") ∧ Document True Blank (bytes "<a =/>")) ∧
    (∃ n q e, parse n ⟨bytes "<a/>x", by decide⟩ .empty = .ok (q, e)) ∧
      ¬ Document False Blank (bytes "<a/>x") ∧
      Document False (fun _ => True) (bytes "<a/>x") := by
  have hname : Lexeme .name (bytes "a") (bytes "a") :=
    .name (by decide) (forall_mem_of_all rfl) (by decide +kernel)
  have hspace : Blank [ch ' '] := .space (by decide) .nil
  have hequal : Lexeme .equalsSign (bytes "=") [] := .equalsSign
  refine ⟨⟨accepts_of_isOk (by decide +kernel), fun h => ?_, ?_⟩,
    accepts_of_isOk (by decide +kernel), fun h => ?_, ?_⟩
  · obtain ⟨e, r, he, -, heq⟩ := h.tag (by decide) (by decide)
    exact strict_element (t := bytes "/>") he heq
  · exact ⟨[], [], [], bytes "<a =/>", [], rfl, .nil, .nil, .nil,
      .emptyTag .nil hname (.other trivial hspace hequal (by decide) (.emptyTag .nil)), .nil⟩
  · exact absurd (h.last (ch 'x') rfl) (by decide)
  · exact ⟨[], [], [], bytes "<a/>", bytes "x", rfl, .nil, .nil, .nil,
      .emptyTag .nil hname (.emptyTag .nil), trivial⟩

end Nstd.Xml
