import Nstd.Document.JsonText

/-!
# The texts that `parse` accepts

* `parse_returns` — `parse` ends.
* **`parse_within`** — it stays inside the text unless that is cut off after a backslash; the
  counterexample is `cut_text`.
* **`accepted_text`** — what an accepted text looks like.  It is more than the strict grammar has:
  `loose_texts` are a text with a comma before a bracket, and one that goes on after its value.

The calls of the parser are told by grammars, one rule for each way on.  Only a backslash steps over the
terminator, since whatever else is read ends at it.
-/

namespace Nstd.Json

variable {D : Type} [DoubleText D]

/-! ## Staying inside the text -/

/-- `parse` returns: the bound on the number of calls is not reached. -/
theorem parse_returns (data : CString) (result : Variant D) :
    parse data result ≠ .error .outOfCalls := by
  rcases parse_cases data result with ⟨_, _, _, _, _, _, -, -, -, -, hok, -⟩ | ⟨-, hover⟩ | herr
  · rw [hok]; simp
  · rw [hover]; simp
  · obtain ⟨line, column, error, herr⟩ := herr
    rw [herr]; simp

/-- No byte past the terminator was read, and the read position is not past it. -/
def WithinText : Except Failure (Private D × Variant D) → Prop
  | .ok (q, _) => q.pos.pos ≠ []
  | .error e => e ≠ .overrun

/-- **The parser stays inside the text**, up to the terminator, exactly if the text is not cut off
    after a backslash in a string literal. -/
theorem parse_within (data : CString) (result : Variant D) :
    WithinText (parse data result) ↔ ¬ CutValue D data.bytes := by
  constructor
  · intro hwithin hcut
    have hover : parse data result = .error .overrun :=
      (overruns_all _).value hcut le_rfl (p := Private.initial data) rfl result
    rw [hover] at hwithin
    exact hwithin rfl
  · intro hcut
    rcases parse_cases data result with
      ⟨q, v, w, x, s, u, -, -, -, hlooks, hok, -⟩ | ⟨h, -⟩ | ⟨line, column, error, herr⟩
    · rw [hok]
      show q.pos.pos ≠ []
      cases hlooks with
      | atEnd _ _ hpos => simp [hpos]
      | token _ _ _ _ hpos => simp [hpos]
    · exact absurd h hcut
    · rw [herr]
      simp [WithinText]

/-- A quote and a backslash -/
theorem cut_text : ¬ WithinText
    (parse ⟨[ch '"', ch '\\'], by decide⟩ (.null : Variant (List UInt8))) := by
  have hover : parse ⟨[ch '"', ch '\\'], by decide⟩ (.null : Variant (List UInt8)) =
      .error .overrun := rfl
  rw [hover]
  exact fun h => h rfl

/-! ## Accepted texts -/

/-- What may follow the value of an accepted text: white space up to the end, or a token with
    anything after it -/
def Continuation (D : Type) [DoubleText D] (s : List UInt8) : Prop :=
  Space s ∨ ∃ (w y r : List UInt8) (c : UInt8) (v : Option (Variant D)),
    s = w ++ y ++ r ∧ Space w ∧ Lexeme y c v

/-- **An accepted text** is white space, a value of the parser's grammar and a continuation. -/
theorem accepted_text {data : CString} {result v : Variant D} {q : Private D}
    (h : parse data result = .ok (q, v)) :
    ∃ w x s u, data.bytes = w ++ x ++ s ∧ Space w ∧ ValueText x u ∧ (result = .null → v = u) ∧
      Continuation D s := by
  rcases parse_cases data result with
    ⟨q', v', w, x, s, u, hdata, hw, hx, hlooks, hok, hu⟩ | ⟨-, hover⟩ | ⟨line, column, error, herr⟩
  · rw [hok] at h
    obtain ⟨rfl, rfl⟩ : q' = q ∧ v' = v := by simpa using h
    refine ⟨w, x, s, u, hdata, hw, hx, hu, ?_⟩
    cases hlooks with
    | atEnd hs _ _ => exact Or.inl hs
    | @token w' y r c o hw' hy _ _ _ => exact Or.inr ⟨w', y, r, c, o, rfl, hw', hy⟩
  · rw [hover] at h
    exact absurd h (by simp)
  · rw [herr] at h
    exact absurd h (by simp)

theorem accepted_text_true : ∃ w x s, ∃ u : Variant (List UInt8), bytes "true]" = w ++ x ++ s ∧
    Space w ∧ ValueText x u ∧ ((.null : Variant (List UInt8)) = .null → .bool true = u) ∧
    Continuation (List UInt8) s := by
  have htext : (⟨bytes "true]", by decide⟩ : CString).bytes =
      [] ++ bytes "true" ++ ([] ++ [ch ']'] ++ []) := rfl
  have hends : NumberEnds ([] ++ [ch ']'] ++ []) := by unfold NumberEnds; decide +kernel
  obtain ⟨q, hq, -⟩ := parse_continued htext .nil (.scalar .true) .nil
    (.punctuation (D := List UInt8) (by decide)) hends fun _ => .nil
  exact accepted_text hq

/-! ### The strict grammar has less -/

/-- A text that begins and ends with no white space has none around its value. -/
lemma eq_of_unspaced {t w x w' : List UInt8} (ht : t = w ++ x ++ w') (hw : Space w)
    (hw' : Space w') (hhead : ∀ c ∈ t.head?, isSpace c = false)
    (hlast : ∀ c ∈ t.getLast?, isSpace c = false) : x = t := by
  have hnil : w = [] := by
    cases w with
    | nil => rfl
    | cons c w =>
      have hspace := hw c List.mem_cons_self
      rw [hhead c (by rw [ht]; rfl)] at hspace
      exact absurd hspace (by simp)
  have hnil' : w' = [] := by
    cases h : w'.getLast? with
    | none => exact List.getLast?_eq_none_iff.mp h
    | some c =>
      have hspace := hw' c (List.mem_of_getLast? h)
      rw [hlast c (by rw [ht, List.getLast?_append, h]; rfl)] at hspace
      exact absurd hspace (by simp)
  rw [ht, hnil, hnil', List.nil_append, List.append_nil]

/-- A value that begins with a digit is a number. -/
lemma StrictValue.number {x : List UInt8} {v : Variant D} (h : StrictValue (tokens D) x v)
    (hx : x.head? = some (ch '1')) : ∀ c ∈ x, isNumberByte c := by
  have hhead : ∀ {c : UInt8} {s : List UInt8}, (c :: s).head? = some (ch '1') → c = ch '1' :=
    fun h => Option.some_inj.mp h
  cases h with
  | scalar hs =>
    obtain ⟨c, hs⟩ := hs
    cases hs with
    | number _ hn => exact hn
    | string _ => exact absurd (hhead hx) (by decide)
    | true => exact absurd (hhead hx) (by decide)
    | false => exact absurd (hhead hx) (by decide)
    | null => exact absurd (hhead hx) (by decide)
  | string _ => exact absurd (hhead hx) (by decide)
  | emptyArray _ => exact absurd (hhead hx) (by decide)
  | array _ => exact absurd (hhead hx) (by decide)
  | emptyObject _ => exact absurd (hhead hx) (by decide)
  | object _ => exact absurd (hhead hx) (by decide)

lemma not_strictElements {vs : List (Variant D)} : ¬ StrictElements (tokens D) (bytes "1,") vs := by
  intro h
  generalize htext : bytes "1," = t at h
  have hlen : t.length = 2 := by rw [← htext]; rfl
  cases h with
  | @last w x w' v hw hx hw' =>
    rw [eq_of_unspaced htext hw hw' (by decide +kernel) (by decide +kernel)] at hx
    exact absurd (hx.number rfl (ch ',') (by decide)) (by decide)
  | @more w x w' y v vs _ hx _ hy =>
    have hpos := List.length_pos_of_ne_nil (hx.valueText tokens_byParser).ne_nil
    have hpos' : 0 < y.length := by
      cases hy with
      | last _ hz _ | more _ hz _ _ =>
        have := List.length_pos_of_ne_nil (hz.valueText tokens_byParser).ne_nil
        simp only [List.length_append]
        omega
    simp only [List.length_append, List.length_cons] at hlen
    omega

lemma not_strictValue {v : Variant D} : ¬ StrictValue (tokens D) (bytes "[1,]") v := by
  intro h
  have hinside : ∀ {s : List UInt8}, bytes "[1,]" = ch '[' :: (s ++ [ch ']']) → s = bytes "1," :=
    fun h => List.append_cancel_right (List.cons.inj h).2.symm
  generalize htext : bytes "[1,]" = t at h
  cases h with
  | scalar hs =>
    obtain ⟨c, hs⟩ := hs
    cases hs with
    | number hn _ =>
      obtain ⟨c, hc, hstart⟩ := hn
      obtain rfl : ch '[' = c := by rw [← htext] at hc; exact Option.some_inj.mp hc
      exact absurd hstart (by decide)
    | string _ => exact absurd (List.cons.inj htext).1 (by decide)
    | true | false | null => exact absurd htext (by decide)
  | string _ => exact absurd (List.cons.inj htext).1 (by decide)
  | emptyArray hw =>
    rw [hinside htext] at hw
    have hspace : isSpace (ch '1') := hw (ch '1') (by decide)
    exact absurd hspace (by decide)
  | array hy =>
    rw [hinside htext] at hy
    exact not_strictElements hy
  | emptyObject _ => exact absurd (List.cons.inj htext).1 (by decide)
  | object _ => exact absurd (List.cons.inj htext).1 (by decide)

/-- A text that goes on after its value, and one with a comma before a bracket -/
theorem loose_texts :
    ((∃ q, parse ⟨bytes "1]", by decide⟩ (.null : Variant (List UInt8)) = .ok (q, .int 1)) ∧
      ¬ ∃ v, StrictText (tokens (List UInt8)) (bytes "1]") v) ∧
    (∃ q, parse ⟨bytes "[1,]", by decide⟩ (.null : Variant (List UInt8)) =
        .ok (q, .list [.int 1])) ∧
      ¬ ∃ v, StrictText (tokens (List UInt8)) (bytes "[1,]") v := by
  have hone : ValueText (bytes "1") (.int 1 : Variant (List UInt8)) :=
    .scalar (.number ⟨ch '1', rfl, rfl⟩ (by decide +kernel))
  have hlist : ValueText (bytes "[1,]") (.list [.int 1] : Variant (List UInt8)) := by
    have hinside : ElementsText ([] ++ bytes "1" ++ [] ++ ch ',' :: []) _ :=
      .more .nil hone .nil (.none .nil)
    exact .array hinside
  refine ⟨⟨?_, ?_⟩, ?_, ?_⟩
  · have htext : (⟨bytes "1]", by decide⟩ : CString).bytes =
        [] ++ bytes "1" ++ ([] ++ [ch ']'] ++ []) := rfl
    have hends : NumberEnds ([] ++ [ch ']'] ++ []) := by unfold NumberEnds; decide +kernel
    obtain ⟨q, hq, -⟩ := parse_continued htext .nil hone .nil
      (.punctuation (D := List UInt8) (by decide)) hends fun _ => .nil
    exact ⟨q, hq⟩
  · rintro ⟨v, w, x, w', ht, hw, hx, hw'⟩
    obtain rfl := eq_of_unspaced ht hw hw' (by decide +kernel) (by decide +kernel)
    exact absurd (hx.number rfl (ch ']') (by decide)) (by decide)
  · have htext : (⟨bytes "[1,]", by decide⟩ : CString).bytes = [] ++ bytes "[1,]" ++ [] := rfl
    obtain ⟨q, hq, -⟩ := parse_value htext .nil hlist .nil
    exact ⟨q, hq⟩
  · rintro ⟨v, w, x, w', ht, hw, hx, hw'⟩
    obtain rfl := eq_of_unspaced ht hw hw' (by decide +kernel) (by decide +kernel)
    exact not_strictValue hx

end Nstd.Json
