import Nstd.Document.JsonAccepts
import Nstd.Document.Merge

/-!
# Parsing JSON into a value that is there

What `Json::parse` makes of the old value of its result: a list is added to, a map is filled, and
everything else is replaced.

* `elements_shape`, `members_shape` — what the loops add does not depend on what is there.
* `parse_shape` — the same for the parser.
* `SameBefore` — two old values that a text makes equal.
* **`parse_into_iff`** — the results are equal if the old values are so, and only then.
-/

namespace Nstd.Json

variable {D : Type} [DoubleText D]

/-! ## What the loops add -/

lemma elements_shape {n : ℕ} : ∀ {p q : Private D} {l l' : List (Variant D)},
    parseElements n p l = .ok (q, l') →
      ∃ vs, l' = l ++ vs ∧ ∀ l₂, parseElements n p l₂ = .ok (q, l₂ ++ vs) := by
  induction n with
  | zero =>
    intro p q l l' h
    exact absurd h (by simp [parseElements])
  | succ n ih =>
    intro p q l l' h
    rw [parseElements] at h
    split_ifs at h with hclose
    · obtain ⟨rfl, rfl⟩ : p = q ∧ l = l' := by simpa using h
      refine ⟨[], by simp, fun l₂ => ?_⟩
      rw [parseElements, if_pos hclose, List.append_nil]
    · obtain ⟨⟨r, v⟩, hv, h⟩ := exists_of_bind_ok h
      dsimp only at h
      split_ifs at h with hlast hcomma
      · obtain ⟨rfl, rfl⟩ : r = q ∧ l ++ [v] = l' := by simpa using h
        refine ⟨[v], rfl, fun l₂ => ?_⟩
        rw [parseElements, if_neg hclose, hv, ok_bind]
        dsimp only
        rw [if_pos hlast]
      · exact absurd h (by simp [syntaxError])
      · obtain ⟨s, hs, h⟩ := exists_of_bind_ok h
        obtain ⟨vs, rfl, hrest⟩ := ih h
        refine ⟨v :: vs, by simp, fun l₂ => ?_⟩
        rw [parseElements, if_neg hclose, hv, ok_bind]
        dsimp only
        rw [if_neg hlast, if_neg hcomma, hs, ok_bind, hrest]
        simp

lemma members_shape {n : ℕ} : ∀ {p q : Private D} {m m' : List (List UInt8 × Variant D)},
    parseMembers n p m = .ok (q, m') →
      ∃ ps, ∀ m₂, parseMembers n p m₂ = .ok (q, HashMap.merge m₂ ps) := by
  induction n with
  | zero =>
    intro p q m m' h
    exact absurd h (by simp [parseMembers])
  | succ n ih =>
    intro p q m m' h
    rw [parseMembers] at h
    split_ifs at h with hclose hstring
    · obtain ⟨rfl, -⟩ : p = q ∧ m = m' := by simpa using h
      exact ⟨[], fun m₂ => by rw [parseMembers, if_pos hclose]; rfl⟩
    · exact absurd h (by simp [syntaxError])
    · obtain ⟨r, hr, h⟩ := exists_of_bind_ok h
      dsimp only at h
      split_ifs at h with hcolon
      · exact absurd h (by simp [syntaxError])
      · obtain ⟨s, hs, h⟩ := exists_of_bind_ok h
        obtain ⟨⟨t, v⟩, hv, h⟩ := exists_of_bind_ok h
        dsimp only at h
        split_ifs at h with hlast hcomma
        · obtain ⟨rfl, -⟩ : t = q ∧ _ = m' := by simpa using h
          refine ⟨[(p.token.value.toString, v)], fun m₂ => ?_⟩
          rw [parseMembers, if_neg hclose, if_neg hstring, hr, ok_bind]
          dsimp only
          rw [if_neg hcolon, hs, ok_bind, hv, ok_bind]
          dsimp only
          rw [if_pos hlast]
          rfl
        · exact absurd h (by simp [syntaxError])
        · obtain ⟨u, hu, h⟩ := exists_of_bind_ok h
          obtain ⟨ps, hrest⟩ := ih h
          refine ⟨(p.token.value.toString, v) :: ps, fun m₂ => ?_⟩
          rw [parseMembers, if_neg hclose, if_neg hstring, hr, ok_bind]
          dsimp only
          rw [if_neg hcolon, hs, ok_bind, hv, ok_bind]
          dsimp only
          rw [if_neg hlast, if_neg hcomma, hu, ok_bind, hrest]
          rfl

/-! ## What the text is -/

/-- The text begins with a bracket. -/
def ArrayText (t : List UInt8) : Prop := ∃ w s, t = w ++ ch '[' :: s ∧ Space w

/-- The text begins with an object that has the members `ms`. -/
def ObjectText (t : List UInt8) (ms : List (List UInt8 × Variant D)) : Prop :=
  ∃ w x s, t = w ++ ch '{' :: (x ++ ch '}' :: s) ∧ Space w ∧ MembersText x ms

/-- Old values that the text makes equal: the same lists if the text is an array, and maps that
    differ only in values of the text's own keys if it is an object -/
def SameBefore (t : List UInt8) (result₁ result₂ : Variant D) : Prop :=
  (ArrayText t → result₁.toList = result₂.toList) ∧
    ∀ ms : List (List UInt8 × Variant D), ObjectText t ms →
      HashMap.marked result₁.toMap (ms.map Prod.fst) =
        HashMap.marked result₂.toMap (ms.map Prod.fst)

/-! ## What is read -/

/-- The bracket of an array is read, and then its elements. -/
lemma parse_array {data : CString} {w s : List UInt8} (hdata : data.bytes = w ++ ch '[' :: s)
    (hw : Space w) : ∃ (p : Private D) (n : ℕ), ∀ result, parse data result =
      readToken p >>= fun q => parseElements n q result.toList >>= fun r =>
        readToken r.1 >>= fun q => .ok (q, .list r.2) := by
  have hpos : (Private.initial data : Private D).pos.pos = w ++ ch '[' :: (s ++ [0]) := by
    show data.bytes ++ [0] = _
    rw [hdata]
    simp
  obtain ⟨p, hp, htoken, -⟩ := readToken_punctuation hw (by decide) hpos
  obtain ⟨n, hn⟩ : ∃ n, 3 * data.bytes.length = n + 1 := by
    have hpos : 0 < data.bytes.length := List.length_pos_of_ne_nil (by simp [hdata])
    exact ⟨3 * data.bytes.length - 1, by omega⟩
  have hscalar : ¬ (ch '[' = ch '"' ∨ ch '[' = ch '#' ∨ ch '[' = ch 't' ∨ ch '[' = ch 'f' ∨
      ch '[' = ch 'n') := by decide
  refine ⟨p, n, fun result => ?_⟩
  rw [parse, hp, ok_bind, parseValue]
  simp only [htoken, if_neg hscalar, if_true, hn, parseArray, ne_eq, not_true_eq_false, if_false]

/-- The brace of an object is read, and then its members. -/
lemma parse_object {data : CString} {w s : List UInt8} (hdata : data.bytes = w ++ ch '{' :: s)
    (hw : Space w) : ∃ p : Private D, p.pos.pos = s ++ [0] ∧ ∀ result, parse data result =
      readToken p >>= fun q =>
        parseMembers (3 * data.bytes.length - 1) q result.toMap >>= fun r =>
          readToken r.1 >>= fun q => .ok (q, .map r.2) := by
  have hpos : (Private.initial data : Private D).pos.pos = w ++ ch '{' :: (s ++ [0]) := by
    show data.bytes ++ [0] = _
    rw [hdata]
    simp
  obtain ⟨p, hp, htoken, hppos⟩ := readToken_punctuation hw (by decide) hpos
  have hn : 3 * data.bytes.length = 3 * data.bytes.length - 1 + 1 := by
    have hpos : 0 < data.bytes.length := List.length_pos_of_ne_nil (by simp [hdata])
    omega
  have hscalar : ¬ (ch '{' = ch '"' ∨ ch '{' = ch '#' ∨ ch '{' = ch 't' ∨ ch '{' = ch 'f' ∨
      ch '{' = ch 'n') := by decide
  have hopen : ¬ ch '{' = ch '[' := by decide
  refine ⟨p, hppos, fun result => ?_⟩
  rw [parse, hp, ok_bind, parseValue]
  simp only [htoken, if_neg hscalar, if_neg hopen, if_true]
  rw [hn, parseObject]
  simp only [htoken, ne_eq, not_true_eq_false, if_false, Nat.add_sub_cancel]

/-- An array is added to the list that is there. -/
lemma array_value {data : CString} (htext : ArrayText data.bytes) {result v : Variant D}
    {q : Private D} (h : parse data result = .ok (q, v)) : ∃ vs, v = .list (result.toList ++ vs) ∧
      ∀ result₂, parse data result₂ = .ok (q, .list (result₂.toList ++ vs)) := by
  obtain ⟨w, s, hdata, hw⟩ := htext
  obtain ⟨p, n, hparse⟩ := parse_array (D := D) hdata hw
  rw [hparse] at h
  obtain ⟨p₁, hp₁, h⟩ := exists_of_bind_ok h
  obtain ⟨⟨p₂, l⟩, hp₂, h⟩ := exists_of_bind_ok h
  obtain ⟨p₃, hp₃, h⟩ := exists_of_bind_ok h
  obtain ⟨rfl, rfl⟩ := Prod.mk.inj (Except.ok.inj h)
  obtain ⟨vs, rfl, hrest⟩ := elements_shape hp₂
  refine ⟨vs, rfl, fun result₂ => ?_⟩
  rw [hparse, hp₁, ok_bind, hrest, ok_bind, hp₃, ok_bind]

/-- An object fills the map that is there. -/
lemma object_value {data : CString} {ms : List (List UInt8 × Variant D)}
    (htext : ObjectText data.bytes ms) {result v : Variant D} {q : Private D}
    (h : parse data result = .ok (q, v)) : v = .map (HashMap.merge result.toMap ms) ∧
      ∀ result₂, parse data result₂ = .ok (q, .map (HashMap.merge result₂.toMap ms)) := by
  obtain ⟨w, x, s, hdata, hw, hx⟩ := htext
  obtain ⟨p, hpos, hparse⟩ := parse_object (D := D) hdata hw
  have hlen : 3 * x.length + 1 ≤ 3 * data.bytes.length - 1 := by
    rw [hdata]
    simp only [List.length_append, List.length_cons]
    omega
  have hread : ∀ m, ∃ r, (readToken p >>= fun q =>
      parseMembers (3 * data.bytes.length - 1) q m) = .ok (r, HashMap.merge m ms) := by
    intro m
    obtain ⟨r, -, hr⟩ := (reads_all _).members hx hlen (p := p) (r := s) (by rw [hpos]; simp) m
    exact ⟨r, hr⟩
  obtain ⟨r, hr⟩ := hread result.toMap
  obtain ⟨p₁, hp₁, hr⟩ := exists_of_bind_ok hr
  obtain ⟨ps, hps⟩ := members_shape hr
  -- what is added is known from the text and, for all maps together, from the loop
  have hadd : ∀ m, parseMembers (3 * data.bytes.length - 1) p₁ m =
      .ok (r, HashMap.merge m ms) := by
    intro m
    obtain ⟨r', hr'⟩ := hread m
    rw [hp₁, ok_bind, hps m] at hr'
    rw [hps m, (Prod.mk.inj (Except.ok.inj hr')).2]
  have hvalue : ∀ result₂, parse data result₂ =
      readToken r >>= fun q => .ok (q, .map (HashMap.merge result₂.toMap ms)) := by
    intro result₂
    rw [hparse, hp₁, ok_bind, hadd, ok_bind]
  rw [hvalue] at h
  obtain ⟨q', hq', h⟩ := exists_of_bind_ok h
  obtain ⟨rfl, rfl⟩ := Prod.mk.inj (Except.ok.inj h)
  exact ⟨rfl, fun result₂ => by rw [hvalue, hq', ok_bind]⟩

/-- The first byte behind white space -/
lemma first_unique {w w' s s' : List UInt8} {c d : UInt8} (hw : Space w) (hw' : Space w')
    (hc : isSpace c = false) (hd : isSpace d = false) (h : w ++ c :: s = w' ++ d :: s') : c = d := by
  have hdrop := congrArg (List.dropWhile isSpace) h
  rw [List.dropWhile_append_of_pos hw, List.dropWhile_append_of_pos hw',
    List.dropWhile_cons_of_neg (by simpa using hc),
    List.dropWhile_cons_of_neg (by simpa using hd)] at hdrop
  exact (List.cons.inj hdrop).1

/-- The first byte of a value that is no array and no object -/
lemma first_of_scalar {x : List UInt8} {c : UInt8} {v : Variant D} (h : Scalar x c v) :
    ∃ d s, x = d :: s ∧ isSpace d = false ∧ d ≠ ch '[' ∧ d ≠ ch '{' := by
  cases h with
  | string _ => exact ⟨_, _, rfl, by decide⟩
  | true => exact ⟨_, _, rfl, by decide⟩
  | false => exact ⟨_, _, rfl, by decide⟩
  | null => exact ⟨_, _, rfl, by decide⟩
  | number hn _ =>
    obtain ⟨d, hd, hstart⟩ := hn
    obtain ⟨s, rfl⟩ := List.head?_eq_some_iff.mp hd
    refine ⟨d, s, rfl, ?_⟩
    revert hstart
    exact forall_byte (p := fun d => startsNumber d →
      isSpace d = false ∧ d ≠ ch '[' ∧ d ≠ ch '{') (by decide +kernel) d

/-- Any other value replaces what is there. -/
lemma scalar_value {data : CString} {w x s : List UInt8} {u result v : Variant D} {c : UInt8}
    {q : Private D} (hdata : data.bytes = w ++ x ++ s) (hw : Space w) (hx : Scalar x c u)
    (h : parse data result = .ok (q, v)) : ∀ result₂, parse data result₂ = .ok (q, v) := by
  intro result₂
  obtain ⟨d, t, rfl, hspace, hbracket, hbrace⟩ := first_of_scalar hx
  have hpos : (Private.initial data : Private D).pos.pos = data.bytes ++ [0] := rfl
  rcases readToken_cases data.noNul hpos with ⟨p, hp, hlooks⟩ | ⟨-, hover⟩ | ⟨_, _, _, herr⟩
  · have hopen : ∀ e ∈ [ch '[', ch '{'], p.token.token ≠ e := by
      intro e he htoken
      have hmem : p.token.token ∈ punctuation := by
        rw [htoken]
        revert e
        exact fun e he _ => forall_mem_of_all (p := fun e => e ∈ punctuation) rfl e he
      obtain ⟨w', r, hr, hw', -⟩ := hlooks.punctuation hmem
      rw [hdata, List.append_assoc, htoken] at hr
      have he' : isSpace e = false ∧ (d ≠ e) := by
        simp only [List.mem_cons, List.not_mem_nil, or_false] at he
        rcases he with rfl | rfl
        · exact ⟨by decide, hbracket⟩
        · exact ⟨by decide, hbrace⟩
      exact he'.2 (first_unique hw hw' hspace he'.1 hr)
    rw [parse, hp, ok_bind, parseValue] at h ⊢
    simp only [if_neg (hopen (ch '[') (by simp)), if_neg (hopen (ch '{') (by simp))] at h ⊢
    split_ifs at h ⊢
    · exact h
    · exact absurd h (by simp [syntaxError])
  · rw [parse, hover] at h
    exact absurd h (by simp)
  · rw [parse, herr] at h
    exact absurd h (by simp)

/-- **The results are equal** if the text makes the old values equal, and only then. -/
theorem parse_into_iff {data : CString} {result₁ result₂ v : Variant D} {q : Private D}
    (h : parse data result₁ = .ok (q, v)) :
    (∃ q', parse data result₂ = .ok (q', v)) ↔ SameBefore data.bytes result₁ result₂ := by
  constructor
  · rintro ⟨q', h'⟩
    refine ⟨fun htext => ?_, fun ms htext => ?_⟩
    · obtain ⟨vs, rfl, hall⟩ := array_value htext h
      rw [hall result₂] at h'
      have hlist := Variant.list.inj (Prod.mk.inj (Except.ok.inj h')).2
      exact (List.append_cancel_right hlist).symm
    · obtain ⟨rfl, hall⟩ := object_value htext h
      rw [hall result₂] at h'
      have hmap := Variant.map.inj (Prod.mk.inj (Except.ok.inj h')).2
      exact ((HashMap.merge_eq_iff _ _ _).mp hmap).symm
  · rintro ⟨harray, hobject⟩
    rcases parse_cases data result₁ with
      ⟨q', v', w, x, s, u, hdata, hw, hx, -, hok, -⟩ | ⟨-, hover⟩ | ⟨line, column, error, herr⟩
    · cases hx with
      | scalar hs => exact ⟨q, scalar_value hdata hw hs h result₂⟩
      | @array y vs hy =>
        have htext : ArrayText data.bytes := ⟨w, y ++ [ch ']'] ++ s, by rw [hdata]; simp, hw⟩
        obtain ⟨vs, rfl, hall⟩ := array_value htext h
        exact ⟨q, by rw [hall, harray htext]⟩
      | @object y ms hy =>
        have htext : ObjectText data.bytes ms := ⟨w, y, s, by rw [hdata]; simp, hw, hy⟩
        obtain ⟨rfl, hall⟩ := object_value htext h
        have hmerge := (HashMap.merge_eq_iff result₁.toMap result₂.toMap ms).mpr
          (hobject ms htext)
        exact ⟨q, by rw [hall, hmerge]⟩
    · exact absurd (h.symm.trans hover) (by simp)
    · exact absurd (h.symm.trans herr) (by simp)

end Nstd.Json
