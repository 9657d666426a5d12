import Nstd.Document.JsonReuse
import Nstd.Document.XmlResult
import Nstd.Document.XmlRuns

/-!
# Parsing into an object that is there

What `Xml::parse` makes of the old element: its attributes are filled, and its content is added to.
With what `Json::parse` does, this is when the result of a parser depends on the text only.

* `Lists` — the attributes that a start tag lists.
* `parse_shape` — what the parser adds does not depend on what is there.
* `SameBefore` — two old elements that a text makes equal.
* **`parse_reuse_iff`** — the results of two calls are equal if the text makes the old objects
  equal, and only then.

The parser writes to the old object and never reads it.  What it adds is a function of the text, so two
results differ only where the old objects do and the text does not overwrite them.
-/

namespace Nstd

namespace Xml

/-! ## What the loops add -/

/-- A start tag lists the attributes `ps`, read from behind its name. -/
inductive Lists : Private → List (List UInt8 × List UInt8) → Private → Prop
  | stop {p q : Private} : readToken p = .ok q → q.token.type ∈ [.emptyTagEnd, .tagEnd] →
      Lists p [] q
  | pair {p q r s t : Private} {ps : List (List UInt8 × List UInt8)} : readToken p = .ok q →
      q.token.type = .name → readToken q = .ok r → r.token.type = .equalsSign →
      readToken r = .ok s → s.token.type = .string → Lists s ps t →
      Lists p ((q.token.value, s.token.value) :: ps) t
  | other {p q t : Private} {ps : List (List UInt8 × List UInt8)} : readToken p = .ok q →
      q.token.type ∉ [.emptyTagEnd, .tagEnd, .name] → Lists q ps t → Lists p ps t

lemma mem_of_stop {type : TokenType} (h : type ∈ [.emptyTagEnd, .tagEnd]) :
    type ∈ [.emptyTagEnd, .tagEnd, .name] := by
  simp only [List.mem_cons, List.not_mem_nil, or_false] at h ⊢
  exact h.imp_right Or.inl

lemma Lists.unique {p t t' : Private} {ps ps' : List (List UInt8 × List UInt8)}
    (h : Lists p ps t) (h' : Lists p ps' t') : ps = ps' := by
  induction h generalizing ps' t' with
  | @stop p q hq htype =>
    cases h' with
    | stop _ _ => rfl
    | pair hq' hname _ _ _ _ _ =>
      obtain rfl := Except.ok.inj (hq.symm.trans hq')
      exact absurd htype (by rw [hname]; decide)
    | other hq' hother _ =>
      obtain rfl := Except.ok.inj (hq.symm.trans hq')
      exact absurd (mem_of_stop htype) hother
  | @pair p q r s t ps hq hname hr _ hs _ _ ih =>
    cases h' with
    | stop hq' htype =>
      obtain rfl := Except.ok.inj (hq.symm.trans hq')
      exact absurd htype (by rw [hname]; decide)
    | pair hq' _ hr' _ hs' _ hrest =>
      obtain rfl := Except.ok.inj (hq.symm.trans hq')
      obtain rfl := Except.ok.inj (hr.symm.trans hr')
      obtain rfl := Except.ok.inj (hs.symm.trans hs')
      rw [ih hrest]
    | other hq' hother _ =>
      obtain rfl := Except.ok.inj (hq.symm.trans hq')
      exact absurd hname (by simp at hother; exact hother.2.2)
  | @other p q t ps hq hother _ ih =>
    cases h' with
    | stop hq' htype =>
      obtain rfl := Except.ok.inj (hq.symm.trans hq')
      exact absurd (mem_of_stop htype) hother
    | pair hq' hname _ _ _ _ _ =>
      obtain rfl := Except.ok.inj (hq.symm.trans hq')
      exact absurd hname (by simp at hother; exact hother.2.2)
    | other hq' _ hrest =>
      obtain rfl := Except.ok.inj (hq.symm.trans hq')
      exact ih hrest

lemma attributes_shape {n : ℕ} : ∀ {p q : Private} {as as' : List (List UInt8 × List UInt8)}
    {more : Bool}, parseAttributes n p as = .ok (q, as', more) → ∃ ps, Lists p ps q ∧
      as' = HashMap.merge as ps ∧
      ∀ as₂, parseAttributes n p as₂ = .ok (q, HashMap.merge as₂ ps, more) := by
  induction n with
  | zero =>
    intro p q as as' more h
    exact absurd h (by simp [parseAttributes])
  | succ n ih =>
    intro p q as as' more h
    rw [parseAttributes] at h
    obtain ⟨r, hr, h⟩ := exists_of_bind_ok h
    split_ifs at h with hempty htag hname
    · obtain ⟨rfl, rfl, rfl⟩ : r = q ∧ as = as' ∧ false = more := by simpa using h
      refine ⟨[], .stop hr (by simp [hempty]), rfl, fun as₂ => ?_⟩
      rw [parseAttributes, hr, ok_bind, if_pos hempty]
      rfl
    · obtain ⟨rfl, rfl, rfl⟩ : r = q ∧ as = as' ∧ true = more := by simpa using h
      refine ⟨[], .stop hr (by simp [htag]), rfl, fun as₂ => ?_⟩
      rw [parseAttributes, hr, ok_bind, if_neg hempty, if_pos htag]
      rfl
    · obtain ⟨s, hs, h⟩ := exists_of_bind_ok h
      split_ifs at h with heq
      · exact absurd h syntaxError_ne_ok
      · obtain ⟨t, ht, h⟩ := exists_of_bind_ok h
        split_ifs at h with hstring
        · exact absurd h syntaxError_ne_ok
        · obtain ⟨ps, hps, rfl, hrest⟩ := ih h
          refine ⟨_, .pair hr hname hs (not_not.mp heq) ht (not_not.mp hstring) hps, rfl,
            fun as₂ => ?_⟩
          rw [parseAttributes, hr, ok_bind, if_neg hempty, if_neg htag, if_pos hname]
          dsimp only
          rw [hs, ok_bind, if_neg heq, ht, ok_bind, if_neg hstring, hrest]
          rfl
    · obtain ⟨ps, hps, rfl, hrest⟩ := ih h
      refine ⟨ps, .other hr (by simp [hempty, htag, hname]) hps, rfl, fun as₂ => ?_⟩
      rw [parseAttributes, hr, ok_bind, if_neg hempty, if_neg htag, if_neg hname, hrest]

lemma content_shape {n : ℕ} : ∀ {p q : Private} {c c' : List Variant},
    parseContent n p c = .ok (q, c') →
      ∃ d, c' = c ++ d ∧ ∀ c₂, parseContent n p c₂ = .ok (q, c₂ ++ d) := by
  induction n with
  | zero =>
    intro p q c c' h
    exact absurd h (by simp [parseContent])
  | succ n ih =>
    intro p q c c' h
    -- the loop goes on with one more node
    have hstep : ∀ {r : Private} {v : Variant}, parseContent n r (c ++ [v]) = .ok (q, c') →
        ∃ d, c' = c ++ d ∧ ∀ c₂, parseContent n r (c₂ ++ [v]) = .ok (q, c₂ ++ d) := by
      intro r v h
      obtain ⟨d, rfl, hrest⟩ := ih h
      exact ⟨v :: d, by simp, fun c₂ => by rw [hrest]; simp⟩
    rw [parseContent] at h
    cases hread : readToken p with
    | error e =>
      rw [hread] at h
      cases e with
      | outOfCalls => exact absurd h (by simp)
      | syntaxError r =>
        obtain ⟨⟨w, s⟩, hw, h⟩ := exists_of_bind_ok h
        obtain ⟨d, hd, hrest⟩ := hstep h
        refine ⟨d, hd, fun c₂ => ?_⟩
        rw [parseContent, hread]
        dsimp only
        rw [hw, ok_bind, hrest]
    | ok r =>
      rw [hread] at h
      dsimp only at h
      split_ifs at h with hend hstart
      · obtain ⟨rfl, rfl⟩ : r = q ∧ c = c' := by simpa using h
        refine ⟨[], by simp, fun c₂ => ?_⟩
        rw [parseContent, hread]
        dsimp only
        rw [if_pos hend, List.append_nil]
      · obtain ⟨⟨w, e⟩, hw, h⟩ := exists_of_bind_ok h
        obtain ⟨d, hd, hrest⟩ := hstep h
        refine ⟨d, hd, fun c₂ => ?_⟩
        rw [parseContent, hread]
        dsimp only
        rw [if_neg hend, if_pos hstart, hw, ok_bind, hrest]
      · obtain ⟨⟨w, s⟩, hw, h⟩ := exists_of_bind_ok h
        obtain ⟨d, hd, hrest⟩ := hstep h
        refine ⟨d, hd, fun c₂ => ?_⟩
        rw [parseContent, hread]
        dsimp only
        rw [if_neg hend, if_neg hstart, hw, ok_bind, hrest]

/-- What an element becomes that gets more attributes and more content -/
def Element.fill (e : Element) (line : Int32) (column : ℕ) (type : List UInt8)
    (ps : List (List UInt8 × List UInt8)) (d : List Variant) : Element :=
  ⟨line, column, type, HashMap.merge e.attributes ps, e.content ++ d⟩

lemma element_shape {n : ℕ} {p q : Private} {e e' : Element}
    (h : parseElement n p e = .ok (q, e')) : ∃ r ps t line column type d, readToken p = .ok r ∧
      Lists r ps t ∧ e' = e.fill line column type ps d ∧
        ∀ e₂, parseElement n p e₂ = .ok (q, e₂.fill line column type ps d) := by
  cases n with
  | zero => exact absurd h (by simp [parseElement])
  | succ n =>
    rw [parseElement] at h
    obtain ⟨r, hr, h⟩ := exists_of_bind_ok h
    split_ifs at h with hname
    · exact absurd h syntaxError_ne_ok
    · obtain ⟨⟨t, as, more⟩, ht, h⟩ := exists_of_bind_ok h
      obtain ⟨ps, hps, rfl, hrest⟩ := attributes_shape ht
      cases more with
      | true =>
        obtain ⟨⟨v, c⟩, hv, h⟩ := exists_of_bind_ok h
        obtain ⟨s, hs, h⟩ := exists_of_bind_ok h
        obtain ⟨rfl, rfl⟩ : s = q ∧ _ = e' := by simpa using h
        obtain ⟨d, rfl, hcontent⟩ := content_shape hv
        refine ⟨r, ps, t, _, _, _, d, hr, hps, rfl, fun e₂ => ?_⟩
        rw [parseElement, hr, ok_bind, if_neg hname]
        dsimp only
        rw [hrest, ok_bind]
        dsimp only
        rw [if_pos rfl, hcontent, ok_bind]
        dsimp only
        rw [hs, ok_bind]
        rfl
      | false =>
        obtain ⟨rfl, rfl⟩ : t = q ∧ _ = e' := by simpa using h
        refine ⟨r, ps, t, _, _, _, [], hr, hps, by rw [Element.fill, List.append_nil],
          fun e₂ => ?_⟩
        rw [parseElement, hr, ok_bind, if_neg hname]
        dsimp only
        rw [hrest, ok_bind, Element.fill, List.append_nil]
        rfl

/-! ## What the text is -/

/-- The start tag of the root element lists the attributes `ps`. -/
def RootTag (data : CString) (ps : List (List UInt8 × List UInt8)) : Prop :=
  ∃ p q t, Root data p ∧ readToken p = .ok q ∧ Lists q ps t

lemma RootTag.unique {data : CString} {ps ps' : List (List UInt8 × List UInt8)}
    (h : RootTag data ps) (h' : RootTag data ps') : ps = ps' := by
  obtain ⟨p, q, t, ⟨n, r, hr, hp, -⟩, hq, hps⟩ := h
  obtain ⟨p', q', t', ⟨n', r', hr', hp', -⟩, hq', hps'⟩ := h'
  obtain rfl : r = r' := Agree.ok_unique (fun n m hle => skipInstructions_agree hle _) hr hr'
  obtain rfl := Except.ok.inj (hp.symm.trans hp')
  obtain rfl := Except.ok.inj (hq.symm.trans hq')
  exact hps.unique hps'

/-- Old elements that the text makes equal: they have the same content, and their attributes differ
    only in values of the ones that the start tag of the root lists. -/
def SameBefore (data : CString) (element₁ element₂ : Element) : Prop :=
  element₁.content = element₂.content ∧ ∀ ps, RootTag data ps →
    HashMap.marked element₁.attributes (ps.map Prod.fst) =
      HashMap.marked element₂.attributes (ps.map Prod.fst)

lemma parse_shape {n : ℕ} {data : CString} {e e' : Element} {q : Private}
    (h : parse n data e = .ok (q, e')) : ∃ line column type ps d, RootTag data ps ∧
      e' = e.fill line column type ps d ∧
        ∀ e₂, parse n data e₂ = .ok (q, e₂.fill line column type ps d) := by
  rw [parse] at h
  obtain ⟨p, hp, h⟩ := exists_of_bind_ok h
  obtain ⟨r, hr, h⟩ := exists_of_bind_ok h
  split_ifs at h with htype
  · exact absurd h syntaxError_ne_ok
  · obtain ⟨s, ps, t, line, column, type, d, hs, hps, rfl, hall⟩ := element_shape h
    refine ⟨line, column, type, ps, d, ⟨r, s, t, ⟨n, p, hp, hr, not_not.mp htype⟩, hs, hps⟩, rfl,
      fun e₂ => ?_⟩
    rw [parse, hp, ok_bind, hr, ok_bind, if_neg htype]
    exact hall e₂

/-- The results are equal if the text makes the old elements equal, and only then. -/
lemma parse_into_iff {n : ℕ} {data : CString} {element₁ element₂ e : Element} {q : Private}
    (h : parse n data element₁ = .ok (q, e)) :
    (∃ m q' e', parse m data element₂ = .ok (q', e') ∧ e'.type = e.type ∧
      e'.attributes = e.attributes ∧ e'.content = e.content) ↔
        SameBefore data element₁ element₂ := by
  obtain ⟨line, column, type, ps, d, hps, rfl, hall⟩ := parse_shape h
  constructor
  · rintro ⟨m, q', e', h', -, hattributes, hcontent⟩
    have hunique : (q', e') = (q, element₂.fill line column type ps d) :=
      Agree.ok_unique (fun n m hle => parse_agree hle data element₂) h' (hall element₂)
    rw [(Prod.mk.inj hunique).2] at hattributes hcontent
    refine ⟨(List.append_cancel_right hcontent).symm, fun ps' hps' => ?_⟩
    rw [← hps.unique hps']
    exact ((HashMap.merge_eq_iff _ _ _).mp hattributes).symm
  · rintro ⟨hcontent, hattributes⟩
    have hmerge := (HashMap.merge_eq_iff element₁.attributes element₂.attributes ps).mpr
      (hattributes ps hps)
    refine ⟨n, q, _, hall element₂, rfl, hmerge.symm, ?_⟩
    show element₂.content ++ d = element₁.content ++ d
    rw [hcontent]

end Xml

/-- **The result of a parser depends on the text only** if the text makes the old objects equal, and
    only then. -/
theorem parse_reuse_iff (D : Type) [DoubleText D] :
    (∀ (data : CString) (result₁ result₂ v : Variant D) (q : Json.Private D),
      Json.parse data result₁ = .ok (q, v) →
        ((∃ q', Json.parse data result₂ = .ok (q', v)) ↔
          Json.SameBefore data.bytes result₁ result₂)) ∧
    ∀ (n : ℕ) (data : CString) (element₁ element₂ e : Xml.Element) (q : Xml.Private),
      Xml.parse n data element₁ = .ok (q, e) →
        ((∃ m q' e', Xml.parse m data element₂ = .ok (q', e') ∧ e'.type = e.type ∧
          e'.attributes = e.attributes ∧ e'.content = e.content) ↔
            Xml.SameBefore data element₁ element₂) :=
  ⟨fun _ _ _ _ _ h => Json.parse_into_iff h, fun _ _ _ _ _ _ h => Xml.parse_into_iff h⟩

/-- An array with one element -/
def oneElement : CString := ⟨bytes "[1]", by decide⟩

/-- An element with one element inside -/
def oneChild : CString := ⟨bytes "<a><b/></a>", by decide⟩

lemma parse_oneElement : ∃ q, Json.parse oneElement (.null : Variant (List UInt8)) =
    .ok (q, .list [.int 1]) := by
  have hone : Json.ValueText (bytes "1") (.int 1 : Variant (List UInt8)) :=
    .scalar (.number ⟨ch '1', rfl, rfl⟩ (by decide +kernel))
  have hinside : Json.ElementsText ([] ++ bytes "1" ++ []) [(.int 1 : Variant (List UInt8))] :=
    .last .nil hone .nil
  have htext : oneElement.bytes = [] ++ ch '[' :: ([] ++ bytes "1" ++ [] ++ [ch ']']) ++ [] := rfl
  obtain ⟨q, hq, -⟩ := Json.parse_value htext .nil (.array hinside) .nil
  exact ⟨q, hq⟩

/-- An array is read into null and into the number 3, and an element into one with a text and into
    another one with that text: the results are the same. -/
theorem parse_reuse_iff_other :
    (∃ q' : Json.Private (List UInt8), Json.parse oneElement (.int 3) = .ok (q', .list [.int 1])) ∧
    ∃ n q e m q' e', Xml.parse n oneChild ⟨1, 1, bytes "x", [], [.text (bytes "t")]⟩ = .ok (q, e) ∧
      Xml.parse m oneChild ⟨7, 4, bytes "y", [], [.text (bytes "t")]⟩ = .ok (q', e') ∧
        e'.type = e.type ∧ e'.attributes = e.attributes ∧ e'.content = e.content := by
  constructor
  · obtain ⟨q, hq⟩ := parse_oneElement
    refine ((parse_reuse_iff (List UInt8)).1 oneElement .null (.int 3) _ q hq).mpr ?_
    exact ⟨fun _ => rfl, fun _ _ => rfl⟩
  · have hok : (Xml.parse 5 oneChild ⟨1, 1, bytes "x", [], [.text (bytes "t")]⟩).toOption.isSome := by
      decide +kernel
    cases hparse : Xml.parse 5 oneChild ⟨1, 1, bytes "x", [], [.text (bytes "t")]⟩ with
    | error e =>
      rw [hparse] at hok
      exact absurd hok (by simp [Except.toOption])
    | ok r =>
      obtain ⟨m, q', e', hrest⟩ := ((parse_reuse_iff (List UInt8)).2 5 oneChild _
        ⟨7, 4, bytes "y", [], [.text (bytes "t")]⟩ r.2 r.1 hparse).mpr ⟨rfl, fun _ _ => rfl⟩
      exact ⟨5, r.1, r.2, m, q', e', hparse, hrest⟩

/-- Parsing twice into the same object -/
theorem reused_objects :
    (∃ (q : Json.Private (List UInt8)) (v : Variant (List UInt8)),
      Json.parse oneElement .null = .ok (q, v) ∧
        ¬ ∃ q', Json.parse oneElement v = .ok (q', v)) ∧
    ∃ n q e, Xml.parse n oneChild .empty = .ok (q, e) ∧
      ¬ ∃ m q' e', Xml.parse m oneChild e = .ok (q', e') ∧ e'.type = e.type ∧
        e'.attributes = e.attributes ∧ e'.content = e.content := by
  constructor
  · obtain ⟨q, hq⟩ := parse_oneElement
    refine ⟨q, _, hq, fun h => ?_⟩
    have hsame := ((Json.parse_into_iff hq).mp h).1 ⟨[], bytes "1]", rfl, .nil⟩
    exact absurd hsame (List.cons_ne_nil _ _).symm
  · have hchild : ((Xml.parse 5 oneChild .empty).toOption.map fun r => r.2.content.length) =
        some 1 := by decide +kernel
    cases hparse : Xml.parse 5 oneChild .empty with
    | error e =>
      rw [hparse] at hchild
      exact absurd hchild (by simp [Except.toOption])
    | ok r =>
      rw [hparse] at hchild
      have hlength : r.2.content.length = 1 := Option.some_inj.mp hchild
      refine ⟨5, r.1, r.2, hparse, fun h => ?_⟩
      have hsame := ((Xml.parse_into_iff hparse).mp h).1
      rw [← hsame] at hlength
      exact absurd hlength (by decide)

end Nstd
