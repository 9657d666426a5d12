import Nstd.Document.JsonLexer

/-!
# What the parser makes of any text

* `cases_all` — every function of the recursion, on whatever text, reads what the grammar has and
  the token after it, or runs past the terminator in a text that is cut off after a backslash, or
  reports an error.  The number of calls is never the limit.
* `parse_cases` — the same of `parse`.
-/

namespace Nstd.Json

variable {D : Type} [DoubleText D]

/-! ## The token that was read -/

/-- The `token.token` of the tokens that are values -/
def scalarTokens : List UInt8 := [ch '"', ch '#', ch 't', ch 'f', ch 'n']

lemma mem_scalarTokens {x : List UInt8} {c : UInt8} {v : Variant D} (h : Scalar x c v) :
    c ∈ scalarTokens := by
  cases h <;> decide

lemma Scalar.ne_nil {x : List UInt8} {c : UInt8} {v : Variant D} (h : Scalar x c v) : x ≠ [] := by
  cases h with
  | number hn _ =>
    obtain ⟨d, hd, -⟩ := hn
    rintro rfl
    exact absurd hd (by simp)
  | string _ => exact List.cons_ne_nil _ _
  | true => decide
  | false => decide
  | null => decide

/-- A token of one byte -/
lemma Looks.punctuation {p : Private D} {t : List UInt8} (h : Looks p t)
    (hc : p.token.token ∈ punctuation) : ∃ w r, t = w ++ p.token.token :: r ∧ Space w ∧
      p.pos.pos = r ++ [0] := by
  cases h with
  | atEnd _ htok _ => rw [htok] at hc; exact absurd hc (by decide)
  | @token w x r c v hw hlex htok _ hpos =>
    cases hlex with
    | punctuation _ => exact ⟨w, r, by simp [htok], hw, hpos⟩
    | scalar hs =>
      have hall : ∀ d ∈ scalarTokens, d ∉ Json.punctuation := by decide +kernel
      rw [htok] at hc
      exact absurd hc (hall c (mem_scalarTokens hs))

/-- A token that is a value -/
lemma Looks.scalar {p : Private D} {t : List UInt8} (h : Looks p t)
    (hc : p.token.token ∈ scalarTokens) : ∃ w x r, t = w ++ x ++ r ∧ Space w ∧
      Scalar x p.token.token p.token.value ∧ p.pos.pos = r ++ [0] := by
  cases h with
  | atEnd _ htok _ => rw [htok] at hc; exact absurd hc (by decide)
  | @token w x r c v hw hlex htok hval hpos =>
    cases hlex with
    | punctuation hp =>
      have hall : ∀ d ∈ Json.punctuation, d ∉ scalarTokens := by decide +kernel
      rw [htok] at hc
      exact absurd hc (hall c hp)
    | scalar hs => exact ⟨w, x, r, rfl, hw, by rw [htok, hval _ rfl]; exact hs, hpos⟩

/-- A string literal -/
lemma Looks.string {p : Private D} {t : List UInt8} (h : Looks p t)
    (hc : p.token.token = ch '"') : ∃ w b k r, t = w ++ literalText b ++ r ∧ Space w ∧
      StringBody b k ∧ p.token.value = .string k ∧ p.pos.pos = r ++ [0] := by
  obtain ⟨w, x, r, rfl, hw, hs, hpos⟩ := h.scalar (by rw [hc]; decide)
  rw [hc] at hs
  generalize p.token.value = v at hs
  generalize hquote : ch '"' = d at hs
  cases hs with
  | @string b k hb => exact ⟨w, b, k, r, rfl, hw, hb, rfl, hpos⟩
  | true => exact absurd hquote (by decide)
  | false => exact absurd hquote (by decide)
  | null => exact absurd hquote (by decide)
  | number _ _ => exact absurd hquote (by decide)

/-! ## Outcomes -/

/-- How `parseValue` ends, where `t` begins with the token that was read -/
def ValueOutcome (result : Variant D) (t : List UInt8) (r : Except Failure (Private D × Variant D)) :
    Prop :=
  (∃ q v w x s u, t = w ++ x ++ s ∧ Space w ∧ ValueText x u ∧ Looks q s ∧ r = .ok (q, v) ∧
    (result = .null → v = u)) ∨
  (CutValue D t ∧ r = .error .overrun) ∨ IsSyntaxError r

/-- How the loop of `parseArray` ends -/
def ElementsOutcome (list : List (Variant D)) (t : List UInt8)
    (r : Except Failure (Private D × List (Variant D))) : Prop :=
  (∃ q x s vs, t = x ++ ch ']' :: s ∧ ElementsText x vs ∧ q.pos.pos = s ++ [0] ∧
    r = .ok (q, list ++ vs)) ∨
  (CutElements D t ∧ r = .error .overrun) ∨ IsSyntaxError r

/-- How the loop of `parseObject` ends -/
def MembersOutcome (object : List (List UInt8 × Variant D)) (t : List UInt8)
    (r : Except Failure (Private D × List (List UInt8 × Variant D))) : Prop :=
  (∃ q x s ms, t = x ++ ch '}' :: s ∧ MembersText x ms ∧ q.pos.pos = s ++ [0] ∧
    r = .ok (q, ms.foldl (fun m e => HashMap.append e.1 e.2 m) object)) ∨
  (CutMembers D t ∧ r = .error .overrun) ∨ IsSyntaxError r

/-- All functions of the recursion end as they should, if `n` calls inside each other are enough. -/
structure Cases (D : Type) [DoubleText D] (n : ℕ) : Prop where
  value : ∀ {p : Private D} {t : List UInt8} (result : Variant D), Looks p t → 0 ∉ t →
    3 * t.length + 1 ≤ n → ValueOutcome result t (parseValue n p result)
  array : ∀ {p : Private D} {t : List UInt8} (result : Variant D), Looks p t → 0 ∉ t →
    p.token.token = ch '[' → 3 * t.length ≤ n → ValueOutcome result t (parseArray n p result)
  object : ∀ {p : Private D} {t : List UInt8} (result : Variant D), Looks p t → 0 ∉ t →
    p.token.token = ch '{' → 3 * t.length ≤ n → ValueOutcome result t (parseObject n p result)
  elements : ∀ {p : Private D} {t : List UInt8} (list : List (Variant D)), Looks p t → 0 ∉ t →
    3 * t.length + 2 ≤ n → ElementsOutcome list t (parseElements n p list)
  members : ∀ {p : Private D} {t : List UInt8} (object : List (List UInt8 × Variant D)),
    Looks p t → 0 ∉ t → 3 * t.length + 2 ≤ n → MembersOutcome object t (parseMembers n p object)

lemma value_cases {n : ℕ} (ih : Cases D n) {p : Private D} {t : List UInt8} (result : Variant D)
    (h : Looks p t) (ht : 0 ∉ t) (hn : 3 * t.length + 1 ≤ n + 1) :
    ValueOutcome result t (parseValue (n + 1) p result) := by
  rw [parseValue]
  by_cases hs : p.token.token ∈ scalarTokens
  · have hs' : p.token.token = ch '"' ∨ p.token.token = ch '#' ∨ p.token.token = ch 't' ∨
        p.token.token = ch 'f' ∨ p.token.token = ch 'n' := by simpa [scalarTokens] using hs
    simp only [if_pos hs']
    obtain ⟨w, x, r, rfl, hw, hx, hpos⟩ := h.scalar hs
    have hr : 0 ∉ r := fun h => ht (List.mem_append_right _ h)
    rcases readToken_cases hr hpos with ⟨q, hq, hlooks⟩ | ⟨hd, hover⟩ | herr
    · rw [hq]
      exact Or.inl ⟨q, _, w, x, r, _, rfl, hw, .scalar hx, hlooks, rfl, fun _ => rfl⟩
    · rw [hover]
      exact Or.inr (Or.inl ⟨.after hw (.scalar hx) hd, rfl⟩)
    · exact Or.inr (Or.inr (herr.bind _))
  · have hs' : ¬ (p.token.token = ch '"' ∨ p.token.token = ch '#' ∨ p.token.token = ch 't' ∨
        p.token.token = ch 'f' ∨ p.token.token = ch 'n') := by simpa [scalarTokens] using hs
    simp only [if_neg hs']
    split_ifs with ha ho
    · exact ih.array result h ht ha (by omega)
    · exact ih.object result h ht ho (by omega)
    · exact Or.inr (Or.inr (isSyntaxError _ _ _))

lemma array_cases {n : ℕ} (ih : Cases D n) {p : Private D} {t : List UInt8} (result : Variant D)
    (h : Looks p t) (ht : 0 ∉ t) (htok : p.token.token = ch '[') (hn : 3 * t.length ≤ n + 1) :
    ValueOutcome result t (parseArray (n + 1) p result) := by
  obtain ⟨w, s, rfl, hw, hpos⟩ := h.punctuation (by rw [htok]; decide)
  rw [htok] at ht ⊢
  have hs : 0 ∉ s := fun h => ht (List.mem_append_right _ (List.mem_cons_of_mem _ h))
  simp only [parseArray, htok, ne_eq, not_true_eq_false, if_false]
  rcases readToken_cases hs hpos with ⟨p₁, hp₁, hlooks⟩ | ⟨hd, hover⟩ | herr
  · simp only [List.length_append, List.length_cons] at hn
    rw [hp₁, ok_bind]
    rcases ih.elements result.toList hlooks hs (by omega) with
      ⟨q, x, r, vs, rfl, hx, hq, hok⟩ | ⟨hcut, hover⟩ | herr
    · have hr : 0 ∉ r := fun h => hs (List.mem_append_right _ (List.mem_cons_of_mem _ h))
      have htext : w ++ ch '[' :: (x ++ ch ']' :: r) = w ++ (ch '[' :: (x ++ [ch ']'])) ++ r := by
        simp
      rw [hok, ok_bind, htext]
      rcases readToken_cases hr hq with ⟨q', hq', hlooks'⟩ | ⟨hd, hover⟩ | herr
      · simp only [hq', ok_bind]
        refine Or.inl ⟨q', _, w, _, r, _, rfl, hw, .array hx, hlooks', rfl, ?_⟩
        rintro rfl
        rfl
      · simp only [hover]
        exact Or.inr (Or.inl ⟨.after hw (.array hx) hd, rfl⟩)
      · exact Or.inr (Or.inr (herr.bind _))
    · rw [hover]
      exact Or.inr (Or.inl ⟨.array hw hcut, rfl⟩)
    · exact Or.inr (Or.inr (herr.bind _))
  · rw [hover]
    exact Or.inr (Or.inl ⟨.array hw (.value (.token hd)), rfl⟩)
  · exact Or.inr (Or.inr (herr.bind _))

lemma object_cases {n : ℕ} (ih : Cases D n) {p : Private D} {t : List UInt8} (result : Variant D)
    (h : Looks p t) (ht : 0 ∉ t) (htok : p.token.token = ch '{') (hn : 3 * t.length ≤ n + 1) :
    ValueOutcome result t (parseObject (n + 1) p result) := by
  obtain ⟨w, s, rfl, hw, hpos⟩ := h.punctuation (by rw [htok]; decide)
  rw [htok] at ht ⊢
  have hs : 0 ∉ s := fun h => ht (List.mem_append_right _ (List.mem_cons_of_mem _ h))
  simp only [parseObject, htok, ne_eq, not_true_eq_false, if_false]
  rcases readToken_cases hs hpos with ⟨p₁, hp₁, hlooks⟩ | ⟨hd, hover⟩ | herr
  · simp only [List.length_append, List.length_cons] at hn
    rw [hp₁, ok_bind]
    rcases ih.members result.toMap hlooks hs (by omega) with
      ⟨q, x, r, ms, rfl, hx, hq, hok⟩ | ⟨hcut, hover⟩ | herr
    · have hr : 0 ∉ r := fun h => hs (List.mem_append_right _ (List.mem_cons_of_mem _ h))
      have htext : w ++ ch '{' :: (x ++ ch '}' :: r) = w ++ (ch '{' :: (x ++ [ch '}'])) ++ r := by
        simp
      rw [hok, ok_bind, htext]
      rcases readToken_cases hr hq with ⟨q', hq', hlooks'⟩ | ⟨hd, hover⟩ | herr
      · simp only [hq', ok_bind]
        refine Or.inl ⟨q', _, w, _, r, _, rfl, hw, .object hx, hlooks', rfl, ?_⟩
        rintro rfl
        rfl
      · simp only [hover]
        exact Or.inr (Or.inl ⟨.after hw (.object hx) hd, rfl⟩)
      · exact Or.inr (Or.inr (herr.bind _))
    · rw [hover]
      exact Or.inr (Or.inl ⟨.object hw hcut, rfl⟩)
    · exact Or.inr (Or.inr (herr.bind _))
  · rw [hover]
    exact Or.inr (Or.inl ⟨.object hw (.key hd), rfl⟩)
  · exact Or.inr (Or.inr (herr.bind _))

lemma ValueText.ne_nil {x : List UInt8} {v : Variant D} (h : ValueText x v) : x ≠ [] := by
  cases h with
  | scalar hs => exact hs.ne_nil
  | array _ => exact List.cons_ne_nil _ _
  | object _ => exact List.cons_ne_nil _ _

lemma elements_cases {n : ℕ} (ih : Cases D n) {p : Private D} {t : List UInt8}
    (list : List (Variant D)) (h : Looks p t) (ht : 0 ∉ t) (hn : 3 * t.length + 2 ≤ n + 1) :
    ElementsOutcome list t (parseElements (n + 1) p list) := by
  rw [parseElements]
  by_cases hclose : p.token.token = ch ']'
  · obtain ⟨w, s, rfl, hw, hpos⟩ := h.punctuation (by rw [hclose]; decide)
    rw [if_pos hclose]
    exact Or.inl ⟨p, w, s, [], by rw [hclose], .none hw, hpos, by rw [List.append_nil]⟩
  · rw [if_neg hclose]
    rcases ih.value .null h ht (by omega) with
      ⟨q, v, w, x, s, u, rfl, hw, hx, hlooks, hok, hv⟩ | ⟨hcut, hover⟩ | herr
    · obtain rfl := hv rfl
      have hs : 0 ∉ s := fun h => ht (List.mem_append_right _ h)
      have hpos := List.length_pos_of_ne_nil hx.ne_nil
      simp only [List.length_append] at hn
      simp only [hok, ok_bind]
      by_cases hclose' : q.token.token = ch ']'
      · obtain ⟨w', r, rfl, hw', hq⟩ := hlooks.punctuation (by rw [hclose']; decide)
        rw [if_pos hclose']
        exact Or.inl ⟨q, w ++ x ++ w', r, [v], by simp [hclose'],
          .last hw hx hw', hq, rfl⟩
      · by_cases hcomma : q.token.token = ch ','
        · obtain ⟨w', r, rfl, hw', hq⟩ := hlooks.punctuation (by rw [hcomma]; decide)
          rw [hcomma] at hs hclose' ⊢
          have hr : 0 ∉ r := fun h => hs (List.mem_append_right _ (List.mem_cons_of_mem _ h))
          simp only [List.length_append, List.length_cons] at hn
          rw [if_neg hclose', if_neg (by simp)]
          rw [← List.append_assoc]
          rcases readToken_cases hr hq with ⟨q', hq', hlooks'⟩ | ⟨hd, hover⟩ | herr
          · rw [hq', ok_bind]
            rcases ih.elements (list ++ [v]) hlooks' hr (by omega) with
              ⟨q'', y, r', vs, rfl, hy, hpos', hok'⟩ | ⟨hcut, hover⟩ | herr
            · exact Or.inl ⟨q'', w ++ x ++ w' ++ ch ',' :: y, r', v :: vs, by simp,
                .more hw hx hw' hy, hpos', by rw [hok']; simp⟩
            · exact Or.inr (Or.inl ⟨.next hw hx hw' hcut, hover⟩)
            · exact Or.inr (Or.inr herr)
          · rw [hover]
            exact Or.inr (Or.inl ⟨.next hw hx hw' (.value (.token hd)), rfl⟩)
          · exact Or.inr (Or.inr (herr.bind _))
        · rw [if_neg hclose', if_pos hcomma]
          exact Or.inr (Or.inr (isSyntaxError _ _ _))
    · rw [hover]
      exact Or.inr (Or.inl ⟨.value hcut, rfl⟩)
    · exact Or.inr (Or.inr (herr.bind _))

/-- The loop of `parseObject` after the colon of a member -/
lemma member_value_cases {n : ℕ} (ih : Cases D n) {p : Private D} {s : List UInt8}
    (object : List (List UInt8 × Variant D)) {w b k w₁ : List UInt8} (hw : Space w)
    (hb : StringBody b k) (hw₁ : Space w₁) (h : Looks p s) (hs : 0 ∉ s)
    (hn : 3 * s.length + 1 ≤ n) {f : Private D × Variant D →
      Except Failure (Private D × List (List UInt8 × Variant D))}
    (hf : ∀ q v, f (q, v) =
      if q.token.token = ch '}' then .ok (q, HashMap.append k v object)
      else if q.token.token ≠ ch ',' then syntaxError q.start q.pos "Expected ','"
      else readToken q >>= fun q => parseMembers n q (HashMap.append k v object)) :
    MembersOutcome object (w ++ literalText b ++ w₁ ++ ch ':' :: s)
      (parseValue n p .null >>= f) := by
  rcases ih.value .null h hs hn with
    ⟨q, v, w₂, x, s', u, rfl, hw₂, hx, hlooks, hok, hv⟩ | ⟨hcut, hover⟩ | herr
  · obtain rfl := hv rfl
    have hs' : 0 ∉ s' := fun h => hs (List.mem_append_right _ h)
    have hpos := List.length_pos_of_ne_nil hx.ne_nil
    simp only [List.length_append] at hn
    rw [hok, ok_bind, hf]
    by_cases hclose : q.token.token = ch '}'
    · obtain ⟨w₃, r, rfl, hw₃, hq⟩ := hlooks.punctuation (by rw [hclose]; decide)
      rw [if_pos hclose]
      exact Or.inl ⟨q, w ++ literalText b ++ w₁ ++ ch ':' :: (w₂ ++ x ++ w₃), r, [(k, v)],
        by simp [hclose], .last hw hb hw₁ hw₂ hx hw₃, hq, rfl⟩
    · by_cases hcomma : q.token.token = ch ','
      · obtain ⟨w₃, r, rfl, hw₃, hq⟩ := hlooks.punctuation (by rw [hcomma]; decide)
        rw [hcomma] at hs' hclose ⊢
        have hr : 0 ∉ r := fun h => hs' (List.mem_append_right _ (List.mem_cons_of_mem _ h))
        simp only [List.length_append, List.length_cons] at hn
        rw [if_neg hclose, if_neg (by simp), ← List.append_assoc]
        rcases readToken_cases hr hq with ⟨q', hq', hlooks'⟩ | ⟨hd, hover⟩ | herr
        · rw [hq', ok_bind]
          rcases ih.members (HashMap.append k v object) hlooks' hr (by omega) with
            ⟨q'', y, r', ms, rfl, hy, hpos', hok'⟩ | ⟨hcut, hover⟩ | herr
          · exact Or.inl ⟨q'', w ++ literalText b ++ w₁ ++ ch ':' :: (w₂ ++ x ++ w₃ ++ ch ',' :: y),
              r', (k, v) :: ms, by simp, .more hw hb hw₁ hw₂ hx hw₃ hy, hpos', hok'⟩
          · exact Or.inr (Or.inl ⟨.next hw hb hw₁ hw₂ hx hw₃ hcut, hover⟩)
          · exact Or.inr (Or.inr herr)
        · rw [hover]
          exact Or.inr (Or.inl ⟨.next hw hb hw₁ hw₂ hx hw₃ (.key hd), rfl⟩)
        · exact Or.inr (Or.inr (herr.bind _))
      · rw [if_neg hclose, if_pos hcomma]
        exact Or.inr (Or.inr (isSyntaxError _ _ _))
  · rw [hover]
    exact Or.inr (Or.inl ⟨.value hw hb hw₁ hcut, rfl⟩)
  · exact Or.inr (Or.inr (herr.bind _))

lemma members_cases {n : ℕ} (ih : Cases D n) {p : Private D} {t : List UInt8}
    (object : List (List UInt8 × Variant D)) (h : Looks p t) (ht : 0 ∉ t)
    (hn : 3 * t.length + 2 ≤ n + 1) :
    MembersOutcome object t (parseMembers (n + 1) p object) := by
  rw [parseMembers]
  by_cases hclose : p.token.token = ch '}'
  · obtain ⟨w, s, rfl, hw, hpos⟩ := h.punctuation (by rw [hclose]; decide)
    rw [if_pos hclose]
    exact Or.inl ⟨p, w, s, [], by rw [hclose], .none hw, hpos, rfl⟩
  · rw [if_neg hclose]
    by_cases hquote : p.token.token = ch '"'
    · obtain ⟨w, b, k, s, rfl, hw, hb, hval, hpos⟩ := h.string hquote
      have hs : 0 ∉ s := fun h => ht (List.mem_append_right _ h)
      rw [if_neg (not_not.mpr hquote)]
      simp only [hval, Variant.toString]
      rcases readToken_cases hs hpos with ⟨p₁, hp₁, hlooks⟩ | ⟨hd, hover⟩ | herr
      · rw [hp₁, ok_bind]
        by_cases hcolon : p₁.token.token = ch ':'
        · obtain ⟨w₁, s', rfl, hw₁, hpos'⟩ := hlooks.punctuation (by rw [hcolon]; decide)
          rw [hcolon] at hs ht ⊢
          have hs' : 0 ∉ s' := fun h => hs (List.mem_append_right _ (List.mem_cons_of_mem _ h))
          simp only [List.length_append, List.length_cons] at hn
          rw [if_neg (not_not.mpr rfl), ← List.append_assoc]
          rcases readToken_cases hs' hpos' with ⟨p₂, hp₂, hlooks'⟩ | ⟨hd, hover⟩ | herr
          · rw [hp₂, ok_bind]
            exact member_value_cases ih object hw hb hw₁ hlooks' hs' (by omega) fun q v => rfl
          · rw [hover]
            exact Or.inr (Or.inl ⟨.value hw hb hw₁ (.token hd), rfl⟩)
          · exact Or.inr (Or.inr (herr.bind _))
        · rw [if_pos hcolon]
          exact Or.inr (Or.inr (isSyntaxError _ _ _))
      · rw [hover]
        exact Or.inr (Or.inl ⟨.colon hw hb hd, rfl⟩)
      · exact Or.inr (Or.inr (herr.bind _))
    · rw [if_pos hquote]
      exact Or.inr (Or.inr (isSyntaxError _ _ _))

/-- **All functions of the recursion** end as they should. -/
theorem cases_all (n : ℕ) : Cases D n := by
  induction n with
  | zero =>
    refine ⟨?_, ?_, ?_, ?_, ?_⟩
    · intro p t result h ht hn
      exact absurd hn (by omega)
    · intro p t result h ht htok hn
      obtain ⟨w, s, rfl, -, -⟩ := h.punctuation (by rw [htok]; decide)
      simp only [List.length_append, List.length_cons] at hn
      exact absurd hn (by omega)
    · intro p t result h ht htok hn
      obtain ⟨w, s, rfl, -, -⟩ := h.punctuation (by rw [htok]; decide)
      simp only [List.length_append, List.length_cons] at hn
      exact absurd hn (by omega)
    · intro p t list h ht hn
      exact absurd hn (by omega)
    · intro p t object h ht hn
      exact absurd hn (by omega)
  | succ n ih =>
    exact ⟨value_cases ih, array_cases ih, object_cases ih, elements_cases ih, members_cases ih⟩

/-- **Whatever the text**, `parse` reads a value of the grammar and the token after it, or runs past
    the terminator in a text that is cut off after a backslash, or reports an error. -/
theorem parse_cases (data : CString) (result : Variant D) :
    ValueOutcome result data.bytes (parse data result) := by
  have hpos : (Private.initial data : Private D).pos.pos = data.bytes ++ [0] := rfl
  rw [parse]
  rcases readToken_cases data.noNul hpos with ⟨q, hq, hlooks⟩ | ⟨hd, hover⟩ | herr
  · rw [hq, ok_bind]
    exact (cases_all _).value result hlooks data.noNul le_rfl
  · rw [hover]
    exact Or.inr (Or.inl ⟨.token hd, rfl⟩)
  · exact Or.inr (Or.inr (herr.bind _))

end Nstd.Json
