import Nstd.Document.JsonLines
import Nstd.Document.XmlLines

/-!
# Line numbers

The line numbers in the errors of both parsers and in elements, against the lines that end in front of
the positions.

* **`lines_iff`** — they are right exactly if nothing in front is overlooked: a line end directly behind
  a backslash in a JSON string, or one where the search for the end of a processing instruction stops;
  and if there are fewer lines than an `int` can count.  One that is overlooked is in
  `escaped_line_overlooked`.

Both parsers count a line wherever they step over its end.  The proofs follow the position through the
scanners and keep how often the line was counted up, and how many line ends were overlooked; the sum is
the number of line ends in front.  Columns are counted back from a position when an error is reported
and are numbers of any size.
-/

namespace Nstd

/-- **Line numbers** are right if no line end in front is overlooked and they fit into the `int` that
    they are counted in, and only then.  What is overlooked makes a number too small, and a number that
    wraps is too small as well, so that one does not make up for the other. -/
theorem lines_iff (data : CString) :
    (∀ (D : Type) [DoubleText D] (result : Variant D) (line : Int32) (column : ℕ) (error : String),
      Json.parse data result = .error (.syntaxError line column error) →
        (∃ pos, Json.ReportedAt data result pos error ∧ pos.pos <:+ data.bytes ++ [0]) ∧
        ∀ pos u, Json.ReportedAt data result pos error → data.bytes ++ [0] = u ++ pos.pos →
          (line.toInt = 1 + lineEnds u pos.pos ↔
            ¬ Json.Overlooked u pos.pos ∧ 1 + lineEnds u pos.pos < 2 ^ 31)) ∧
    (∀ (n : ℕ) (element : Xml.Element) (q : Xml.Private),
      Xml.parse n data element = .error (.syntaxError q) →
        (∃ pos, Xml.ReportedAt data q pos) ∧
        ∀ pos, Xml.ReportedAt data q pos → ∃ u, data.bytes = u ++ pos.pos ∧
          (q.errorLine.toInt = 1 + lineEnds u pos.pos ↔
            ¬ Xml.Overlooked data pos.pos ∧ 1 + lineEnds u pos.pos < 2 ^ 31)) ∧
    (∀ p, Xml.Opened data p → ∃ u, data.bytes = u ++ p.token.pos.pos ∧
      (p.token.pos.line.toInt = 1 + lineEnds u p.token.pos.pos ↔
        ¬ Xml.Overlooked data p.token.pos.pos ∧ 1 + lineEnds u p.token.pos.pos < 2 ^ 31) ∧
      ∀ x, Xml.Makes data p x → x.line = p.token.pos.line) ∧
    ∀ (n : ℕ) (element : Xml.Element) (q : Xml.Private) (x : Xml.Element),
      Xml.parse n data element = .ok (q, x) → ∀ y, Xml.Within y x →
        (∃ z, .element z ∈ element.content ∧ Xml.Within y z) ∨ ∃ p, Xml.Makes data p y := by
  refine ⟨fun D _ result line column error h => ⟨?_, fun pos u hpos hu => Json.line_iff h hpos hu⟩,
    fun n element q h => ⟨Xml.exists_reportedAt h, fun pos hpos => ?_⟩, fun p hp => ?_,
    fun n element q x h y hy => ?_⟩
  · obtain ⟨pos, -, hpos, -, u, -, -, hu, -⟩ := Json.parse_reportedAt h
    exact ⟨pos, hpos, u, hu.symm⟩
  · obtain ⟨u, hu, hiff⟩ := (hpos.tallies h).line_iff
    exact ⟨u, hu, hpos.2.1 ▸ hiff⟩
  · obtain ⟨u, hu, hiff⟩ := hp.tallies.line_iff
    refine ⟨u, hu, hiff, ?_⟩
    rintro x ⟨-, m, e, q, hx⟩
    exact Xml.parseElement_line hx
  · obtain ⟨p, hp, helement⟩ := Xml.parse_root h
    exact Xml.within_makes hy (.root hp) helement

/-- A string with a line feed behind a backslash, and a byte behind it that begins no token -/
def escapedLine : CString := ⟨[ch '"', ch '\\', ch '\n', ch '"', ch 'x'], by decide⟩

/-- The error is reported at the last byte, in the first line. -/
lemma escapedLine_reportedAt : Json.ReportedAt escapedLine (.null : Variant (List UInt8))
    ⟨1, [ch 'x', 0]⟩ "Expected character" := by
  intro start
  let p : Json.Private (List UInt8) := { Json.Private.initial escapedLine with start }
  let q : Json.Private (List UInt8) :=
    ⟨⟨ch '"', .string [ch '\\', ch '\n'], p.pos⟩, start, ⟨1, [ch 'x', 0]⟩⟩
  have hstring : Json.readToken p = .ok q := by
    have hskip : Json.skipSpace p.pos.line p.pos.pos = .ok p.pos :=
      Json.skipSpace_stop (by decide) _ _
    rw [Json.readToken, hskip]
    rfl
  have hother : Json.readToken q = Json.syntaxError start q.pos "Expected character" := by
    have hskip : Json.skipSpace q.pos.line q.pos.pos = .ok q.pos :=
      Json.skipSpace_stop (by decide) _ _
    rw [Json.readToken, hskip]
    rfl
  show Json.readToken p >>= _ = _
  rw [hstring, ok_bind, Json.parseValue, if_pos (Or.inl rfl), hother]
  rfl

/-- The line feed is not counted. -/
theorem escaped_line_overlooked :
    ¬ ∀ (line : Int32) (column : ℕ) (error : String),
      Json.parse escapedLine (.null : Variant (List UInt8)) =
          .error (.syntaxError line column error) →
        ∀ pos u, Json.ReportedAt escapedLine (.null : Variant (List UInt8)) pos error →
          escapedLine.bytes ++ [0] = u ++ pos.pos → line.toInt = 1 + lineEnds u pos.pos := by
  intro h
  have hline := h 1 _ _ (escapedLine_reportedAt _) _ [ch '"', ch '\\', ch '\n', ch '"']
    escapedLine_reportedAt rfl
  exact absurd hline (by decide)

end Nstd
