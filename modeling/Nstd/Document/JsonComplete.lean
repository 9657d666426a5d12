import Nstd.Document.JsonSound

/-!
# What the grammar has, the parser does

* `reads_all`, `parse_value` — a value of the grammar is read, and then the token after it.
* `parse_continued` — so it is if more text follows, as long as that begins with a token.
* `overruns_all` — in a text that is cut off after a backslash the parser runs past the terminator.
-/

namespace Nstd.Json

variable {D : Type} [DoubleText D]

/-! ## Steps -/

lemma readToken_punctuation {p : Private D} {w r : List UInt8} {c : UInt8} (hw : Space w)
    (hc : c ∈ punctuation) (hp : p.pos.pos = w ++ c :: (r ++ [0])) :
    ∃ q, readToken p = .ok q ∧ q.token.token = c ∧ q.pos.pos = r ++ [0] := by
  have hne : c = ch '#' → NumberEnds r := by
    rintro rfl
    exact absurd hc (by decide)
  obtain ⟨q, hq, htok, -, hpos⟩ := readToken_lexeme hw (.punctuation (D := D) hc) hne hp
  exact ⟨q, hq, htok, hpos⟩

/-- A closing bracket is no value. -/
lemma parseValue_close {n : ℕ} {q : Private D} {result : Variant D}
    (h : ∀ e, parseValue n q result = .error e → e = .overrun) : q.token.token ≠ ch ']' := by
  intro hclose
  cases n with
  | zero => exact absurd (h .outOfCalls rfl) (by simp)
  | succ n =>
    have hscalar : ¬ (ch ']' = ch '"' ∨ ch ']' = ch '#' ∨ ch ']' = ch 't' ∨ ch ']' = ch 'f' ∨
        ch ']' = ch 'n') := by decide
    have ha : ¬ ch ']' = ch '[' := by decide
    have ho : ¬ ch ']' = ch '{' := by decide
    have herr := h (.syntaxError _ _ _) (by
      simp only [parseValue, hclose, if_neg hscalar, if_neg ha, if_neg ho]
      rfl)
    exact absurd herr (by simp)

/-- One round of the loop of `parseArray`, if what it reads as a value ends well or past the
    terminator -/
lemma elements_step {n : ℕ} {p : Private D} (list : List (Variant D))
    {b : Except Failure (Private D × Variant D)}
    (hb : (readToken p >>= fun q => parseValue n q .null) = b)
    (h : ∀ e, b = .error e → e = .overrun) :
    (readToken p >>= fun q => parseElements (n + 1) q list) = b >>= fun r =>
      if r.1.token.token = ch ']' then .ok (r.1, list ++ [r.2])
      else if r.1.token.token ≠ ch ',' then syntaxError r.1.start r.1.pos "Expected ','"
      else readToken r.1 >>= fun q => parseElements n q (list ++ [r.2]) := by
  subst hb
  cases hread : readToken p with
  | error e => rfl
  | ok q =>
    have hclose := parseValue_close fun e he => h e (by rw [hread]; exact he)
    simp only [ok_bind, parseElements, if_neg hclose]

/-- One round of the loop of `parseObject`, from a key on -/
lemma members_step {n : ℕ} {p : Private D} (object : List (List UInt8 × Variant D))
    {w b k r : List UInt8} (hw : Space w) (hb : StringBody b k)
    (hp : p.pos.pos = w ++ (literalText b ++ (r ++ [0]))) :
    ∃ q : Private D, q.pos.pos = r ++ [0] ∧
      (readToken p >>= fun q => parseMembers (n + 1) q object) = readToken q >>= fun q =>
        if q.token.token ≠ ch ':' then syntaxError q.start q.pos "Expected ':'"
        else (readToken q >>= fun q => parseValue n q .null) >>= fun r =>
          if r.1.token.token = ch '}' then .ok (r.1, HashMap.append k r.2 object)
          else if r.1.token.token ≠ ch ',' then syntaxError r.1.start r.1.pos "Expected ','"
          else readToken r.1 >>= fun q => parseMembers n q (HashMap.append k r.2 object) := by
  have hne : ch '"' = ch '#' → NumberEnds r := fun h => absurd h (by decide)
  obtain ⟨q, hq, htok, hval, hpos⟩ :=
    readToken_lexeme hw (.scalar (.string (D := D) hb)) hne hp
  have hval' := hval _ rfl
  have hclose : ¬ ch '"' = ch '}' := by decide
  refine ⟨q, hpos, ?_⟩
  rw [hq, ok_bind, parseMembers]
  simp only [htok, if_neg hclose, ne_eq, not_true_eq_false, if_false, hval', Variant.toString]
  simp only [bind_assoc]

/-! ## Values -/

/-- The parser reads what the grammar has, if `n` calls inside each other are enough. -/
structure Reads (D : Type) [DoubleText D] (n : ℕ) : Prop where
  value : ∀ {x : List UInt8} {v : Variant D}, ValueText x v → 3 * x.length ≤ n →
    ∀ {p : Private D} {w r : List UInt8}, Space w → NumberEnds r →
      p.pos.pos = w ++ (x ++ (r ++ [0])) → ∀ result, ∃ (q : Private D) (u : Variant D),
        q.pos.pos = r ++ [0] ∧ (result = .null → u = v) ∧
        (readToken p >>= fun q => parseValue n q result) = readToken q >>= fun q => .ok (q, u)
  elements : ∀ {x : List UInt8} {vs : List (Variant D)}, ElementsText x vs →
    3 * x.length + 1 ≤ n → ∀ {p : Private D} {r : List UInt8},
      p.pos.pos = x ++ ch ']' :: (r ++ [0]) → ∀ list, ∃ q : Private D, q.pos.pos = r ++ [0] ∧
        (readToken p >>= fun q => parseElements n q list) = .ok (q, list ++ vs)
  members : ∀ {x : List UInt8} {ms : List (List UInt8 × Variant D)}, MembersText x ms →
    3 * x.length + 1 ≤ n → ∀ {p : Private D} {r : List UInt8},
      p.pos.pos = x ++ ch '}' :: (r ++ [0]) → ∀ object, ∃ q : Private D, q.pos.pos = r ++ [0] ∧
        (readToken p >>= fun q => parseMembers n q object) =
          .ok (q, ms.foldl (fun m e => HashMap.append e.1 e.2 m) object)

/-- White space and a byte that is no part of a number end a number. -/
lemma numberEnds_append {w : List UInt8} (hw : Space w) {c : UInt8} (hc : isNumberByte c = false)
    (r : List UInt8) : NumberEnds (w ++ c :: r) := by
  have hspace : ∀ d, isSpace d → isNumberByte d = false := forall_byte (by decide +kernel)
  intro d hd
  cases w with
  | nil =>
    obtain rfl : c = d := by simpa using hd
    exact hc
  | cons e w =>
    obtain rfl : e = d := by simpa using hd
    exact hspace e (hw e List.mem_cons_self)

lemma reads_value {n : ℕ} (ih : ∀ m < n, Reads D m) {x : List UInt8} {v : Variant D}
    (hx : ValueText x v) (hn : 3 * x.length ≤ n) {p : Private D} {w r : List UInt8} (hw : Space w)
    (hr : NumberEnds r) (hp : p.pos.pos = w ++ (x ++ (r ++ [0]))) (result : Variant D) :
    ∃ (q : Private D) (u : Variant D), q.pos.pos = r ++ [0] ∧ (result = .null → u = v) ∧
      (readToken p >>= fun q => parseValue n q result) = readToken q >>= fun q => .ok (q, u) := by
  have hlen := List.length_pos_of_ne_nil hx.ne_nil
  obtain ⟨m, rfl⟩ := Nat.exists_eq_add_of_le' (show 3 ≤ n by omega)
  cases hx with
  | @scalar _ c _ hs =>
    obtain ⟨q, hq, htok, hval, hpos⟩ := readToken_lexeme hw (.scalar hs) (fun _ => hr) hp
    have hmem : c = ch '"' ∨ c = ch '#' ∨ c = ch 't' ∨ c = ch 'f' ∨ c = ch 'n' := by
      simpa [scalarTokens] using mem_scalarTokens hs
    refine ⟨q, v, hpos, fun _ => rfl, ?_⟩
    rw [hq, ok_bind, parseValue]
    simp only [htok, if_pos hmem, hval v rfl]
  | @array y vs hy =>
    obtain ⟨q, hq, htok, hpos⟩ := readToken_punctuation (c := ch '[') hw (by decide)
      (r := y ++ ch ']' :: r) (by rw [hp]; simp)
    simp only [List.length_cons, List.length_append, List.length_nil] at hn
    obtain ⟨q', hpos', hread⟩ := (ih (m + 1) (by omega)).elements hy (by omega)
      (p := q) (r := r) (by rw [hpos]; simp) result.toList
    refine ⟨q', .list (result.toList ++ vs), hpos', ?_, ?_⟩
    · rintro rfl
      rfl
    · have hscalar : ¬ (ch '[' = ch '"' ∨ ch '[' = ch '#' ∨ ch '[' = ch 't' ∨ ch '[' = ch 'f' ∨
          ch '[' = ch 'n') := by decide
      rw [hq, ok_bind, parseValue]
      simp only [htok, if_neg hscalar, if_true, parseArray, ne_eq, not_true_eq_false, if_false]
      rw [← bind_assoc, hread, ok_bind]
  | @object y ms hy =>
    obtain ⟨q, hq, htok, hpos⟩ := readToken_punctuation (c := ch '{') hw (by decide)
      (r := y ++ ch '}' :: r) (by rw [hp]; simp)
    simp only [List.length_cons, List.length_append, List.length_nil] at hn
    obtain ⟨q', hpos', hread⟩ := (ih (m + 1) (by omega)).members hy (by omega)
      (p := q) (r := r) (by rw [hpos]; simp) result.toMap
    refine ⟨q', .map (ms.foldl (fun m e => HashMap.append e.1 e.2 m) result.toMap), hpos', ?_, ?_⟩
    · rintro rfl
      rfl
    · have hscalar : ¬ (ch '{' = ch '"' ∨ ch '{' = ch '#' ∨ ch '{' = ch 't' ∨ ch '{' = ch 'f' ∨
          ch '{' = ch 'n') := by decide
      have hopen : ¬ ch '{' = ch '[' := by decide
      rw [hq, ok_bind, parseValue]
      simp only [htok, if_neg hscalar, if_neg hopen, if_true, parseObject, ne_eq,
        not_true_eq_false, if_false]
      rw [← bind_assoc, hread, ok_bind]

lemma reads_elements {n : ℕ} (ih : ∀ m < n, Reads D m) {x : List UInt8} {vs : List (Variant D)}
    (hx : ElementsText x vs) (hn : 3 * x.length + 1 ≤ n) {p : Private D} {r : List UInt8}
    (hp : p.pos.pos = x ++ ch ']' :: (r ++ [0])) (list : List (Variant D)) :
    ∃ q : Private D, q.pos.pos = r ++ [0] ∧
      (readToken p >>= fun q => parseElements n q list) = .ok (q, list ++ vs) := by
  obtain ⟨m, rfl⟩ := Nat.exists_eq_add_of_le' (show 1 ≤ n by omega)
  cases hx with
  | none hw =>
    obtain ⟨q, hq, htok, hpos⟩ := readToken_punctuation (c := ch ']') hw (by decide) hp
    exact ⟨q, hpos, by rw [hq, ok_bind, parseElements, if_pos htok, List.append_nil]⟩
  | @last w x w' v hw hv hw' =>
    simp only [List.length_append] at hn
    have hends : NumberEnds (w' ++ ch ']' :: r) := numberEnds_append hw' (by decide) r
    obtain ⟨q, u, hpos, hu, hread⟩ := (ih m (by omega)).value hv (by omega) hw hends
      (p := p) (by rw [hp]; simp) .null
    obtain rfl := hu rfl
    obtain ⟨q', hq', htok, hpos'⟩ := readToken_punctuation (c := ch ']') hw' (by decide)
      (r := r) (by rw [hpos]; simp)
    rw [hq', ok_bind] at hread
    refine ⟨q', hpos', ?_⟩
    rw [elements_step list hread (by simp), ok_bind, if_pos htok]
  | @more w x w' y v vs hw hv hw' hy =>
    simp only [List.length_append, List.length_cons] at hn
    have hends : NumberEnds (w' ++ ch ',' :: (y ++ ch ']' :: r)) :=
      numberEnds_append hw' (by decide) _
    obtain ⟨q, u, hpos, hu, hread⟩ := (ih m (by omega)).value hv (by omega) hw hends
      (p := p) (by rw [hp]; simp) .null
    obtain rfl := hu rfl
    obtain ⟨q', hq', htok, hpos'⟩ := readToken_punctuation (c := ch ',') hw' (by decide)
      (r := y ++ ch ']' :: r) (by rw [hpos]; simp)
    have hclose : ¬ ch ',' = ch ']' := by decide
    rw [hq', ok_bind] at hread
    obtain ⟨q'', hpos'', hrest⟩ := (ih m (by omega)).elements hy (by omega) (p := q') (r := r)
      (by rw [hpos']; simp) (list ++ [u])
    refine ⟨q'', hpos'', ?_⟩
    rw [elements_step list hread (by simp), ok_bind]
    simp only [htok, if_neg hclose, ne_eq, not_true_eq_false, if_false, hrest, List.append_assoc,
      List.singleton_append]

/-- A member up to the token after its value -/
lemma reads_member {n : ℕ} (ih : Reads D n) {w b k w₁ w₂ x r : List UInt8} {v : Variant D}
    (hw : Space w) (hb : StringBody b k) (hw₁ : Space w₁) (hw₂ : Space w₂) (hx : ValueText x v)
    (hn : 3 * x.length ≤ n) (hr : NumberEnds r) {p : Private D}
    (hp : p.pos.pos = w ++ (literalText b ++ (w₁ ++ ch ':' :: (w₂ ++ (x ++ (r ++ [0]))))))
    (object : List (List UInt8 × Variant D)) : ∃ q : Private D, q.pos.pos = r ++ [0] ∧
      (readToken p >>= fun q => parseMembers (n + 1) q object) = readToken q >>= fun q =>
        if q.token.token = ch '}' then .ok (q, HashMap.append k v object)
        else if q.token.token ≠ ch ',' then syntaxError q.start q.pos "Expected ','"
        else readToken q >>= fun q => parseMembers n q (HashMap.append k v object) := by
  obtain ⟨q₁, hpos₁, hstep⟩ := members_step (n := n) object hw hb
    (r := w₁ ++ ch ':' :: (w₂ ++ (x ++ r))) (p := p) (by rw [hp]; simp)
  obtain ⟨q₂, hq₂, htok₂, hpos₂⟩ := readToken_punctuation (c := ch ':') hw₁ (by decide)
    (r := w₂ ++ (x ++ r)) (p := q₁) (by rw [hpos₁]; simp)
  obtain ⟨q₃, u, hpos₃, hu, hread⟩ := ih.value hx hn hw₂ hr (p := q₂) (by rw [hpos₂]; simp) .null
  obtain rfl := hu rfl
  refine ⟨q₃, hpos₃, ?_⟩
  rw [hstep, hq₂, ok_bind, if_neg (not_not.mpr htok₂), hread, bind_assoc]
  rfl

lemma reads_members {n : ℕ} (ih : ∀ m < n, Reads D m) {x : List UInt8}
    {ms : List (List UInt8 × Variant D)} (hx : MembersText x ms) (hn : 3 * x.length + 1 ≤ n)
    {p : Private D} {r : List UInt8} (hp : p.pos.pos = x ++ ch '}' :: (r ++ [0]))
    (object : List (List UInt8 × Variant D)) : ∃ q : Private D, q.pos.pos = r ++ [0] ∧
      (readToken p >>= fun q => parseMembers n q object) =
        .ok (q, ms.foldl (fun m e => HashMap.append e.1 e.2 m) object) := by
  obtain ⟨m, rfl⟩ := Nat.exists_eq_add_of_le' (show 1 ≤ n by omega)
  cases hx with
  | none hw =>
    obtain ⟨q, hq, htok, hpos⟩ := readToken_punctuation (c := ch '}') hw (by decide) hp
    exact ⟨q, hpos, by rw [hq, ok_bind, parseMembers, if_pos htok]; rfl⟩
  | @last w b k w₁ w₂ x w₃ v hw hb hw₁ hw₂ hv hw₃ =>
    simp only [List.length_append, List.length_cons] at hn
    have hends : NumberEnds (w₃ ++ ch '}' :: r) := numberEnds_append hw₃ (by decide) r
    obtain ⟨q, hpos, hread⟩ := reads_member (ih m (by omega)) hw hb hw₁ hw₂ hv (by omega) hends
      (p := p) (by rw [hp]; simp) object
    obtain ⟨q', hq', htok, hpos'⟩ := readToken_punctuation (c := ch '}') hw₃ (by decide)
      (r := r) (by rw [hpos]; simp)
    refine ⟨q', hpos', ?_⟩
    rw [hread, hq', ok_bind, if_pos htok]
    rfl
  | @more w b k w₁ w₂ x w₃ y v ms hw hb hw₁ hw₂ hv hw₃ hy =>
    simp only [List.length_append, List.length_cons] at hn
    have hends : NumberEnds (w₃ ++ ch ',' :: (y ++ ch '}' :: r)) :=
      numberEnds_append hw₃ (by decide) _
    obtain ⟨q, hpos, hread⟩ := reads_member (ih m (by omega)) hw hb hw₁ hw₂ hv (by omega) hends
      (p := p) (by rw [hp]; simp) object
    obtain ⟨q', hq', htok, hpos'⟩ := readToken_punctuation (c := ch ',') hw₃ (by decide)
      (r := y ++ ch '}' :: r) (by rw [hpos]; simp)
    have hclose : ¬ ch ',' = ch '}' := by decide
    obtain ⟨q'', hpos'', hrest⟩ := (ih m (by omega)).members hy (by omega) (p := q') (r := r)
      (by rw [hpos']; simp) (HashMap.append k v object)
    refine ⟨q'', hpos'', ?_⟩
    rw [hread, hq', ok_bind]
    simp only [htok, if_neg hclose, ne_eq, not_true_eq_false, if_false, hrest, List.foldl_cons]

/-- **The parser reads** what the grammar has. -/
theorem reads_all (n : ℕ) : Reads D n := by
  induction n using Nat.strong_induction_on with
  | _ n ih =>
    refine ⟨?_, ?_, ?_⟩
    · intro x v hx hn p w r hw hr hp result
      exact reads_value ih hx hn hw hr hp result
    · intro x vs hx hn p r hp list
      exact reads_elements ih hx hn hp list
    · intro x ms hx hn p r hp object
      exact reads_members ih hx hn hp object

/-- A text of white space, a value and white space is read to its end. -/
theorem parse_value {data : CString} {w x w' : List UInt8} {v : Variant D}
    (hdata : data.bytes = w ++ x ++ w') (hw : Space w) (hx : ValueText x v) (hw' : Space w') :
    ∃ q, parse data .null = .ok (q, v) ∧ q.token.token = 0 ∧ q.pos.pos = [0] := by
  have hends : NumberEnds w' := by
    have hspace : ∀ d, isSpace d → isNumberByte d = false := forall_byte (by decide +kernel)
    intro d hd
    exact hspace d (hw' d (List.mem_of_head? hd))
  have hlen : 3 * x.length ≤ 3 * data.bytes.length + 1 := by
    rw [hdata]
    simp only [List.length_append]
    omega
  obtain ⟨q, u, hpos, hu, hread⟩ := (reads_all (3 * data.bytes.length + 1)).value hx hlen hw hends
    (p := Private.initial data)
    (by show data.bytes ++ [0] = _; rw [hdata]; simp) .null
  obtain rfl := hu rfl
  obtain ⟨q', hq', htok, hpos'⟩ := readToken_end hw' hpos
  exact ⟨q', by rw [parse, hread, hq', ok_bind], htok, hpos'⟩

/-- A text that goes on after its value is accepted, if the next token can be read. -/
theorem parse_continued {data : CString} {w x w' y r : List UInt8} {v : Variant D} {c : UInt8}
    {u : Option (Variant D)} (hdata : data.bytes = w ++ x ++ (w' ++ y ++ r)) (hw : Space w)
    (hx : ValueText x v) (hw' : Space w') (hy : Lexeme y c u)
    (hends : NumberEnds (w' ++ y ++ r)) (hr : c = ch '#' → NumberEnds r) :
    ∃ q, parse data .null = .ok (q, v) ∧ q.token.token = c := by
  have hlen : 3 * x.length ≤ 3 * data.bytes.length + 1 := by
    rw [hdata]
    simp only [List.length_append]
    omega
  obtain ⟨q, u, hpos, hu, hread⟩ := (reads_all (3 * data.bytes.length + 1)).value hx hlen hw hends
    (p := Private.initial data)
    (by show data.bytes ++ [0] = _; rw [hdata]; simp) .null
  obtain rfl := hu rfl
  obtain ⟨q', hq', htok, -, -⟩ := readToken_lexeme hw' hy hr (p := q) (by rw [hpos]; simp)
  exact ⟨q', by rw [parse, hread, hq', ok_bind], htok⟩

/-! ## Texts that are cut off -/

/-- The parser runs past the terminator in a text that is cut off, if `n` calls inside each other
    are enough. -/
structure Overruns (D : Type) [DoubleText D] (n : ℕ) : Prop where
  value : ∀ {t : List UInt8}, CutValue D t → 3 * t.length + 1 ≤ n → ∀ {p : Private D},
    p.pos.pos = t ++ [0] → ∀ result,
      (readToken p >>= fun q => parseValue n q result) = .error .overrun
  elements : ∀ {t : List UInt8}, CutElements D t → 3 * t.length + 2 ≤ n → ∀ {p : Private D},
    p.pos.pos = t ++ [0] → ∀ list,
      (readToken p >>= fun q => parseElements n q list) = .error .overrun
  members : ∀ {t : List UInt8}, CutMembers D t → 3 * t.length + 2 ≤ n → ∀ {p : Private D},
    p.pos.pos = t ++ [0] → ∀ object,
      (readToken p >>= fun q => parseMembers n q object) = .error .overrun

lemma Dangling.numberEnds {t : List UInt8} (h : Dangling t) : NumberEnds t := by
  obtain ⟨w, b, v, rfl, hw, -⟩ := h
  exact numberEnds_append hw (by decide) _

lemma overruns_value {n : ℕ} (ih : ∀ m < n, Overruns D m) {t : List UInt8} (ht : CutValue D t)
    (hn : 3 * t.length + 1 ≤ n) {p : Private D} (hp : p.pos.pos = t ++ [0]) (result : Variant D) :
    (readToken p >>= fun q => parseValue n q result) = .error .overrun := by
  cases ht with
  | token hd => rw [readToken_dangling hd hp, error_bind]
  | @after w x s v hw hx hd =>
    simp only [List.length_append] at hn
    obtain ⟨q, u, hpos, -, hread⟩ := (reads_all n).value hx (by omega) hw hd.numberEnds
      (p := p) (by rw [hp]; simp) result
    rw [hread, readToken_dangling hd hpos, error_bind]
  | @array w s hw hs =>
    simp only [List.length_append, List.length_cons] at hn
    obtain ⟨m, rfl⟩ := Nat.exists_eq_add_of_le' (show 2 ≤ n by omega)
    obtain ⟨q, hq, htok, hpos⟩ := readToken_punctuation (c := ch '[') hw (by decide)
      (r := s) (by rw [hp]; simp)
    have hscalar : ¬ (ch '[' = ch '"' ∨ ch '[' = ch '#' ∨ ch '[' = ch 't' ∨ ch '[' = ch 'f' ∨
        ch '[' = ch 'n') := by decide
    rw [hq, ok_bind, parseValue]
    simp only [htok, if_neg hscalar, if_true, parseArray, ne_eq, not_true_eq_false, if_false]
    rw [← bind_assoc, (ih m (by omega)).elements hs (by omega) hpos, error_bind]
  | @object w s hw hs =>
    simp only [List.length_append, List.length_cons] at hn
    obtain ⟨m, rfl⟩ := Nat.exists_eq_add_of_le' (show 2 ≤ n by omega)
    obtain ⟨q, hq, htok, hpos⟩ := readToken_punctuation (c := ch '{') hw (by decide)
      (r := s) (by rw [hp]; simp)
    have hscalar : ¬ (ch '{' = ch '"' ∨ ch '{' = ch '#' ∨ ch '{' = ch 't' ∨ ch '{' = ch 'f' ∨
        ch '{' = ch 'n') := by decide
    have hopen : ¬ ch '{' = ch '[' := by decide
    rw [hq, ok_bind, parseValue]
    simp only [htok, if_neg hscalar, if_neg hopen, if_true, parseObject, ne_eq,
      not_true_eq_false, if_false]
    rw [← bind_assoc, (ih m (by omega)).members hs (by omega) hpos, error_bind]

lemma overruns_elements {n : ℕ} (ih : ∀ m < n, Overruns D m) {t : List UInt8}
    (ht : CutElements D t) (hn : 3 * t.length + 2 ≤ n) {p : Private D}
    (hp : p.pos.pos = t ++ [0]) (list : List (Variant D)) :
    (readToken p >>= fun q => parseElements n q list) = .error .overrun := by
  obtain ⟨m, rfl⟩ := Nat.exists_eq_add_of_le' (show 1 ≤ n by omega)
  cases ht with
  | value hv =>
    have hover := (ih m (by omega)).value hv (by omega) hp .null
    rw [elements_step list hover (by simp), error_bind]
  | @next w x w' s v hw hx hw' hs =>
    simp only [List.length_append, List.length_cons] at hn
    have hends : NumberEnds (w' ++ ch ',' :: s) := numberEnds_append hw' (by decide) s
    obtain ⟨q, u, hpos, -, hread⟩ := (reads_all m).value hx (by omega) hw hends
      (p := p) (by rw [hp]; simp) .null
    obtain ⟨q', hq', htok, hpos'⟩ := readToken_punctuation (c := ch ',') hw' (by decide)
      (r := s) (by rw [hpos]; simp)
    have hclose : ¬ ch ',' = ch ']' := by decide
    rw [hq', ok_bind] at hread
    rw [elements_step list hread (by simp), ok_bind]
    simp only [htok, if_neg hclose, ne_eq, not_true_eq_false, if_false]
    exact (ih m (by omega)).elements hs (by omega) hpos' _

lemma overruns_members {n : ℕ} (ih : ∀ m < n, Overruns D m) {t : List UInt8}
    (ht : CutMembers D t) (hn : 3 * t.length + 2 ≤ n) {p : Private D}
    (hp : p.pos.pos = t ++ [0]) (object : List (List UInt8 × Variant D)) :
    (readToken p >>= fun q => parseMembers n q object) = .error .overrun := by
  obtain ⟨m, rfl⟩ := Nat.exists_eq_add_of_le' (show 1 ≤ n by omega)
  cases ht with
  | key hd => rw [readToken_dangling hd hp, error_bind]
  | @colon w b k s hw hb hd =>
    obtain ⟨q, hpos, hstep⟩ := members_step (n := m) object hw hb (r := s) (p := p)
      (by rw [hp]; simp)
    rw [hstep, readToken_dangling hd hpos, error_bind]
  | @value w b k w₁ s hw hb hw₁ hs =>
    simp only [List.length_append, List.length_cons] at hn
    obtain ⟨q, hpos, hstep⟩ := members_step (n := m) object hw hb (r := w₁ ++ ch ':' :: s) (p := p)
      (by rw [hp]; simp)
    obtain ⟨q', hq', htok, hpos'⟩ := readToken_punctuation (c := ch ':') hw₁ (by decide)
      (r := s) (by rw [hpos]; simp)
    rw [hstep, hq', ok_bind, if_neg (not_not.mpr htok),
      (ih m (by omega)).value hs (by omega) hpos', error_bind]
  | @next w b k w₁ w₂ x w₃ s v hw hb hw₁ hw₂ hx hw₃ hs =>
    simp only [List.length_append, List.length_cons] at hn
    have hends : NumberEnds (w₃ ++ ch ',' :: s) := numberEnds_append hw₃ (by decide) s
    obtain ⟨q, hpos, hread⟩ := reads_member (reads_all m) hw hb hw₁ hw₂ hx (by omega) hends
      (p := p) (by rw [hp]; simp) object
    obtain ⟨q', hq', htok, hpos'⟩ := readToken_punctuation (c := ch ',') hw₃ (by decide)
      (r := s) (by rw [hpos]; simp)
    have hclose : ¬ ch ',' = ch '}' := by decide
    rw [hread, hq', ok_bind]
    simp only [htok, if_neg hclose, ne_eq, not_true_eq_false, if_false]
    exact (ih m (by omega)).members hs (by omega) hpos' _

theorem overruns_all (n : ℕ) : Overruns D n := by
  induction n using Nat.strong_induction_on with
  | _ n ih =>
    refine ⟨?_, ?_, ?_⟩
    · intro t ht hn p hp result
      exact overruns_value ih ht hn hp result
    · intro t ht hn p hp list
      exact overruns_elements ih ht hn hp list
    · intro t ht hn p hp object
      exact overruns_members ih ht hn hp object

end Nstd.Json
