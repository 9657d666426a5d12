import Nstd.Document.BlindReading

/-!
# What `Json::stripComments` does to literals and comments

* `literals_copied` — every byte of every literal is copied, and a text without comments comes
  back as it is, exactly if no byte of a literal lies in a comment of the blind reading; the
  scanner leaves a literal at its first backslash (`literal_lost`).
* `comments_removed` — in a text whose literals have no backslash, a line comment leaves nothing
  and a block comment its line breaks, exactly if no block comment has a star inside; a star that
  does not end the comment is copied with the line breaks (`star_left`).
-/

namespace Nstd.Json

/-- Is a piece a comment? -/
def Piece.isComment : Piece → Bool
  | .lineComment _ | .blockComment _ => true
  | _ => false

/-- Is a piece a literal? -/
def Piece.isLiteral : Piece → Bool
  | .literal _ => true
  | _ => false

/-- For each byte of a text, whether it belongs to a literal, its quotes included -/
def inLiteral (ps : List Piece) : List Bool :=
  ps.flatMap fun p => List.replicate p.text.length p.isLiteral

lemma text_cons (p : Piece) (ps : List Piece) : text (p :: ps) = p.text ++ text ps := rfl

lemma inLiteral_cons (p : Piece) (ps : List Piece) :
    inLiteral (p :: ps) = List.replicate p.text.length p.isLiteral ++ inLiteral ps := rfl

lemma inLiteral_length (ps : List Piece) : (inLiteral ps).length = (text ps).length := by
  induction ps with
  | nil => rfl
  | cons p ps ih => rw [inLiteral_cons, text_cons, List.length_append, List.length_append, ih,
      List.length_replicate]

/-- A byte of a literal is its opening quote or comes after another byte of it. -/
lemma inLiteral_opening {ps : List Piece} {i : ℕ} (h : (inLiteral ps)[i]? = some true) :
    (text ps)[i]? = some (ch '"') ∨ ∃ j, i = j + 1 ∧ (inLiteral ps)[j]? = some true := by
  induction ps generalizing i with
  | nil => exact absurd h (by simp [inLiteral])
  | cons p ps ih =>
    rw [inLiteral_cons] at h
    by_cases hi : i < p.text.length
    · rw [List.getElem?_append_left (by simpa using hi), List.getElem?_replicate, if_pos hi] at h
      have hlit : p.isLiteral = true := Option.some.inj h
      cases i with
      | zero =>
        left
        cases p with
        | literal body => rfl
        | byte c => exact absurd hlit (by simp [Piece.isLiteral])
        | lineComment body => exact absurd hlit (by simp [Piece.isLiteral])
        | blockComment body => exact absurd hlit (by simp [Piece.isLiteral])
      | succ j =>
        right
        refine ⟨j, rfl, ?_⟩
        have hj : j < p.text.length := Nat.lt_of_succ_lt hi
        rw [inLiteral_cons, List.getElem?_append_left (by simpa using hj),
          List.getElem?_replicate, if_pos hj, hlit]
    · have hle : p.text.length ≤ i := Nat.le_of_not_lt hi
      rw [List.getElem?_append_right (by simpa using hle), List.length_replicate] at h
      rw [text_cons, List.getElem?_append_right hle]
      rcases ih h with hq | ⟨j, hj, hlit⟩
      · exact Or.inl hq
      · right
        refine ⟨p.text.length + j, by omega, ?_⟩
        rw [inLiteral_cons, List.getElem?_append_right (by simp), List.length_replicate,
          Nat.add_sub_cancel_left, hlit]

/-- Without comments a slash is in a literal. -/
lemma inLiteral_of_slash {ps : List Piece} (hok : ∀ p ∈ ps, p.WellFormed)
    (hno : ∀ p ∈ ps, p.isComment = false) {i : ℕ} (h : (text ps)[i]? = some (ch '/')) :
    (inLiteral ps)[i]? = some true := by
  induction ps generalizing i with
  | nil => exact absurd h (by simp [text])
  | cons p ps ih =>
    rw [text_cons] at h
    rw [inLiteral_cons]
    by_cases hi : i < p.text.length
    · rw [List.getElem?_append_left hi] at h
      rw [List.getElem?_append_left (by simpa using hi), List.getElem?_replicate, if_pos hi]
      cases p with
      | literal body => rfl
      | byte c =>
        have hc : c = ch '/' := by
          cases i with
          | zero => simpa [Piece.text] using h
          | succ i => exact absurd h (by simp [Piece.text])
        exact absurd hc (hok _ List.mem_cons_self).2.1
      | lineComment body => exact absurd (hno _ List.mem_cons_self) (by simp [Piece.isComment])
      | blockComment body => exact absurd (hno _ List.mem_cons_self) (by simp [Piece.isComment])
    · have hle : p.text.length ≤ i := Nat.le_of_not_lt hi
      rw [List.getElem?_append_right hle] at h
      rw [List.getElem?_append_right (by simpa using hle), List.length_replicate]
      exact ih (fun q hq => hok q (List.mem_cons_of_mem _ hq))
        (fun q hq => hno q (List.mem_cons_of_mem _ hq)) h

/-- A literal that reaches into a comment of the blind reading loses a byte. -/
lemma dropped_of_inLiteral {ps : List Piece} {i : ℕ} {t : Tag}
    (hlit : (inLiteral ps)[i]? = some true) (hi : (tags .outside (text ps))[i]? = some t)
    (ht : t ≠ .plain) :
    ∃ j : ℕ, (inLiteral ps)[j]? = some true ∧ (tags .outside (text ps))[j]? = some Tag.dropped := by
  induction i using Nat.strong_induction_on generalizing t with
  | _ i ih =>
    rcases inLiteral_opening hlit with hquote | ⟨j, rfl, hj⟩
    · cases t with
      | plain => exact absurd rfl ht
      | dropped => exact ⟨i, hlit, hi⟩
      | kept =>
        obtain ⟨c, hc, hcase⟩ := @byte_of_kept .outside _ trivial i hi
        rw [hquote] at hc
        obtain rfl := Option.some.inj hc
        exact absurd hcase (by decide)
    · have hlt : j < (tags .outside (text ps)).length :=
        Nat.lt_of_succ_lt (List.getElem?_eq_some_iff.mp hi).1
      have hprev : (tags .outside (text ps))[j]? = some ((tags .outside (text ps))[j]) :=
        List.getElem?_eq_getElem hlt
      by_cases hp : (tags .outside (text ps))[j] = .plain
      · obtain ⟨hd, -⟩ := @begins_after_plain .outside _ trivial j t (by rw [hprev, hp]) hi ht
        exact ⟨j + 1, hlit, by rw [hi, hd]⟩
      · exact ih j (Nat.lt_succ_self j) hj hprev hp

lemma blindComments_false {s : List UInt8} {i : ℕ} :
    (blindComments s)[i]? = some false ↔ (tags .outside s)[i]? = some Tag.plain := by
  rw [blindComments, List.getElem?_map]
  cases (tags .outside s)[i]? with
  | none => simp
  | some t => cases t <;> simp

/-- **Literals are copied**, and a text without comments comes back as it is, exactly if no byte of
    a literal lies in a comment of the text read as if a backslash ended a literal. -/
theorem literals_copied (t : CommentedText) :
    ((∀ i : ℕ, (inLiteral t.pieces)[i]? = some true → i ∈ copiedPositions (text t.pieces)) ∧
      ((∀ p ∈ t.pieces, p.isComment = false) →
        stripComments (text t.pieces) = text t.pieces)) ↔
    ∀ i : ℕ, (inLiteral t.pieces)[i]? = some true →
      (blindComments (text t.pieces))[i]? = some false := by
  have hlen := tags_length .outside (text t.pieces)
  constructor
  · rintro ⟨hcopied, -⟩ i hlit
    rw [blindComments_false]
    have hlt : i < (tags .outside (text t.pieces)).length := by
      rw [hlen, ← inLiteral_length]
      exact (List.getElem?_eq_some_iff.mp hlit).1
    have htag : (tags .outside (text t.pieces))[i]? =
        some ((tags .outside (text t.pieces))[i]) := List.getElem?_eq_getElem hlt
    by_contra hne
    have hplain : (tags .outside (text t.pieces))[i] ≠ .plain := fun h => hne (by rw [htag, h])
    obtain ⟨j, hj, hdropped⟩ := dropped_of_inLiteral hlit htag hplain
    obtain ⟨t', ht', hkept⟩ := mem_copiedPositions.mp (hcopied j hj)
    rw [hdropped] at ht'
    exact hkept (Option.some.inj ht').symm
  · intro h
    have hplain : ∀ i : ℕ, (inLiteral t.pieces)[i]? = some true →
        (tags .outside (text t.pieces))[i]? = some Tag.plain :=
      fun i hi => blindComments_false.mp (h i hi)
    refine ⟨fun i hi => mem_copiedPositions.mpr ⟨_, hplain i hi, by decide⟩, fun hno => ?_⟩
    rw [stripComments_eq]
    apply keep_of_plain hlen
    intro tag htag
    by_contra hne
    obtain ⟨i, hi⟩ := List.getElem?_of_mem htag
    obtain ⟨j, hj, hslash⟩ := begins_before hi hne
    have hlit := inLiteral_of_slash t.wellFormed hno hslash
    rw [hplain j hlit] at hj
    exact absurd (Option.some.inj hj) (by decide)

/-- The literal `"\n//"` -/
def escapedLineBreak : CommentedText where
  pieces := [.literal (bytes "\\n//")]
  wellFormed := by
    intro p hp
    rw [List.mem_singleton.mp hp]
    show literalBody (bytes "\\n//") = true
    decide
  linesEnd := trivial
  noNul := by decide

/-- **A literal is cut off** after an escape, at what looks like a comment. -/
theorem literal_lost :
    stripComments (text escapedLineBreak.pieces) = bytes "\"\\n" ∧
    ¬ ((∀ i : ℕ, (inLiteral escapedLineBreak.pieces)[i]? = some true →
        i ∈ copiedPositions (text escapedLineBreak.pieces)) ∧
      ((∀ p ∈ escapedLineBreak.pieces, p.isComment = false) →
        stripComments (text escapedLineBreak.pieces) = text escapedLineBreak.pieces)) := by
  refine ⟨by decide, fun h => ?_⟩
  have hmem := h.1 3 (by decide)
  exact absurd hmem (by decide)

/-! ## Comments -/

/-- A text whose literals have no backslash, so that the blind reading is the right one -/
structure UnescapedText extends CommentedText where
  noEscape : ∀ body, .literal body ∈ pieces → ch '\\' ∉ body

/-- Is a byte a line break? -/
def isBreak (c : UInt8) : Bool := c = ch '\r' ∨ c = ch '\n'

/-- What a piece should leave in the result -/
def Piece.contribution : Piece → List UInt8
  | .lineComment _ => []
  | .blockComment body => body.filter isBreak
  | p => p.text

/-- What a piece does leave in the result: the stars inside a block comment are copied too. -/
def Piece.copied : Piece → List UInt8
  | .lineComment _ => []
  | .blockComment body => body.filter fun c => isBreak c || c = ch '*'
  | p => p.text

/-- The stars inside a block comment -/
def Piece.stars : Piece → List UInt8
  | .blockComment body => body.filter fun c => c = ch '*'
  | _ => []

/-- The number of line breaks -/
def lineBreaks (s : List UInt8) : ℕ := s.countP isBreak

lemma keep_literalBody {body : List UInt8} (hok : literalBody body) (hno : ch '\\' ∉ body)
    (s : List UInt8) : keep (body ++ ch '"' :: s) (tags .literal (body ++ ch '"' :: s)) =
      body ++ ch '"' :: keep s (tags .outside s) := by
  induction body with
  | nil => simp [tags]
  | cons c body ih =>
    simp only [List.mem_cons, not_or] at hno
    have hesc : c ≠ ch '\\' := Ne.symm hno.1
    rw [literalBody.eq_def] at hok
    simp only [if_neg hesc] at hok
    have hrest : c ≠ ch '"' ∧ literalBody body := by simpa using hok
    simp [tags, hesc, hrest.1, ih hrest.2 hno.2]

lemma keep_lineBody {body s : List UInt8} (hok : ch '\r' ∉ body ∧ ch '\n' ∉ body)
    (hend : ∀ c ∈ s.head?, c = ch '\r' ∨ c = ch '\n') :
    keep (body ++ s) (tags .line (body ++ s)) = keep s (tags .outside s) := by
  induction body with
  | nil =>
    cases s with
    | nil => rfl
    | cons c s =>
      have hc := hend c rfl
      have hslash : c ≠ ch '/' := by rcases hc with hc | hc <;> rw [hc] <;> decide
      have hquote : c ≠ ch '"' := by rcases hc with hc | hc <;> rw [hc] <;> decide
      simp [tags, hc, hslash, hquote]
  | cons c body ih =>
    simp only [List.mem_cons, not_or] at hok
    have hc : ¬ (c = ch '\r' ∨ c = ch '\n') := by
      rintro (hc | hc)
      · exact hok.1.1 hc.symm
      · exact hok.2.1 hc.symm
    simp [tags, hc, ih ⟨hok.1.2, hok.2.2⟩]

lemma keep_blockBody {body : List UInt8} (hok : ¬ [ch '*', ch '/'] <:+: body) (s : List UInt8) :
    keep (body ++ ch '*' :: ch '/' :: s) (tags .block (body ++ ch '*' :: ch '/' :: s)) =
      (body.filter fun c => isBreak c || c = ch '*') ++ keep s (tags .outside s) := by
  induction body with
  | nil => simp [tags]
  | cons c body ih =>
    have hrest : ¬ [ch '*', ch '/'] <:+: body := fun h => hok (h.trans (List.suffix_cons c body).isInfix)
    have hclose : ¬ (c = ch '*' ∧ (body ++ ch '*' :: ch '/' :: s).head? = some (ch '/')) := by
      rintro ⟨rfl, hhead⟩
      cases body with
      | nil => exact absurd hhead (by rw [List.nil_append, List.head?_cons]; decide)
      | cons d body =>
        obtain rfl : d = ch '/' := by simpa using hhead
        exact hok ⟨[], body, rfl⟩
    rw [List.cons_append, tags, if_neg hclose, List.filter_cons]
    by_cases hc : c = ch '\r' ∨ c = ch '\n' ∨ c = ch '*'
    · rw [if_pos hc, if_pos (by simpa [isBreak, or_assoc] using hc), keep_kept, ih hrest,
        List.cons_append]
    · rw [if_neg hc, if_neg (by simpa [isBreak, or_assoc] using hc), keep_dropped, ih hrest]

/-- **What the scanner leaves**: each piece contributes on its own. -/
lemma stripComments_pieces {ps : List Piece} (hok : ∀ p ∈ ps, p.WellFormed) (hend : LinesEnd ps)
    (hno : ∀ body, .literal body ∈ ps → ch '\\' ∉ body) :
    stripComments (text ps) = ps.flatMap Piece.copied := by
  rw [stripComments_eq]
  induction ps with
  | nil => rfl
  | cons p ps ih =>
    have hok' : ∀ q ∈ ps, q.WellFormed := fun q hq => hok q (List.mem_cons_of_mem _ hq)
    have hno' : ∀ body, .literal body ∈ ps → ch '\\' ∉ body :=
      fun body hb => hno body (List.mem_cons_of_mem _ hb)
    have hp := hok p List.mem_cons_self
    rw [text_cons, List.flatMap_cons]
    cases p with
    | byte c =>
      rw [← ih hok' hend hno']
      simp [Piece.text, Piece.copied, tags, hp.1, hp.2.1]
    | literal body =>
      have hbody := keep_literalBody hp (hno body List.mem_cons_self) (text ps)
      rw [← ih hok' hend hno']
      simpa [Piece.text, Piece.copied, tags, show ¬ ch '"' = ch '/' by decide] using hbody
    | lineComment body =>
      have hslash : ¬ (ch '/' = ch '\r' ∨ ch '/' = ch '\n') := by decide
      rw [← ih hok' hend.2 hno', ← keep_lineBody hp hend.1]
      simp [Piece.text, Piece.copied, tags, hslash]
    | blockComment body =>
      have hstar : ¬ (ch '*' = ch '/') := by decide
      rw [← ih hok' hend hno', Piece.copied, ← keep_blockBody hp]
      simp [Piece.text, tags, hstar]

lemma length_copied (ps : List Piece) : (ps.flatMap Piece.copied).length =
    (ps.flatMap Piece.contribution).length + (ps.flatMap Piece.stars).length := by
  have hblock : ∀ body : List UInt8, (body.filter fun c => isBreak c || c = ch '*').length =
      (body.filter isBreak).length + (body.filter fun c => c = ch '*').length := by
    intro body
    induction body with
    | nil => rfl
    | cons c body ih =>
      by_cases hstar : c = ch '*'
      · have hbreak : isBreak (ch '*') = false := by decide
        simp [hstar, hbreak, ih, Nat.add_assoc]
      · cases hb : isBreak c <;> simp [hstar, hb, ih, Nat.add_right_comm]
  induction ps with
  | nil => rfl
  | cons p ps ih =>
    simp only [List.flatMap_cons, List.length_append, ih]
    cases p with
    | blockComment body =>
      rw [Piece.copied, Piece.contribution, Piece.stars, hblock]
      omega
    | byte c => simp [Piece.copied, Piece.contribution, Piece.stars, Nat.add_assoc]
    | literal body => simp [Piece.copied, Piece.contribution, Piece.stars, Nat.add_assoc]
    | lineComment body => simp [Piece.copied, Piece.contribution, Piece.stars]

lemma stars_eq_nil {ps : List Piece} :
    ps.flatMap Piece.stars = [] ↔ ∀ body, .blockComment body ∈ ps → ch '*' ∉ body := by
  induction ps with
  | nil => simp
  | cons p ps ih =>
    rw [List.flatMap_cons, List.append_eq_nil_iff, ih]
    cases p <;> simp [Piece.stars, List.filter_eq_nil_iff]
    exact fun _ => ⟨fun h hc => h _ hc rfl, fun h c hc hcc => h (hcc ▸ hc)⟩

/-- Line breaks are never lost, whatever the text: there are as many before each byte of the result
    as before the place it is copied from. -/
lemma lineBreaks_kept (s : List UInt8) {k i : ℕ} (h : (copiedPositions s)[k]? = some i) :
    lineBreaks ((stripComments s).take k) = lineBreaks (s.take i) := by
  have hkeep : ∀ (s : List UInt8) (r : Reading) (o k i : ℕ), r.Fits s →
      (keep (List.range' o s.length) (tags r s))[k]? = some i →
      o ≤ i ∧ lineBreaks ((keep s (tags r s)).take k) = lineBreaks (s.take (i - o)) := by
    intro s
    induction s with
    | nil => intro r o k i _ h; exact absurd h (by simp)
    | cons c s ih =>
      intro r o k i hfits h
      obtain ⟨t, r', heq, hfits', -, -, -, hdropped⟩ := tags_cons hfits
      rw [heq, List.length_cons, List.range'_succ] at h
      rw [heq]
      by_cases ht : t = .dropped
      · subst ht
        obtain ⟨hcr, hlf⟩ := hdropped rfl
        obtain ⟨hle, hcount⟩ := ih r' (o + 1) k i hfits' h
        refine ⟨Nat.le_of_succ_le hle, ?_⟩
        obtain ⟨d, rfl⟩ := Nat.exists_eq_add_of_le hle
        rw [keep_dropped, hcount, show o + 1 + d - o = d + 1 by omega, Nat.add_sub_cancel_left,
          List.take_succ_cons]
        simp [lineBreaks, isBreak, hcr, hlf]
      · have hcopy : ∀ {α : Type} (a : α) (l : List α),
            keep (a :: l) (t :: tags r' s) = a :: keep l (tags r' s) := by
          intro α a l
          rw [keep, if_neg ht]
        rw [hcopy] at h ⊢
        cases k with
        | zero =>
          obtain rfl : o = i := by simpa using h
          simp
        | succ k =>
          obtain ⟨hle, hcount⟩ := ih r' (o + 1) k i hfits' (by simpa using h)
          refine ⟨Nat.le_of_succ_le hle, ?_⟩
          obtain ⟨d, rfl⟩ := Nat.exists_eq_add_of_le hle
          rw [Nat.add_sub_cancel_left] at hcount
          rw [show o + 1 + d - o = d + 1 by omega, List.take_succ_cons, List.take_succ_cons,
            lineBreaks, List.countP_cons, ← lineBreaks, hcount, lineBreaks, lineBreaks,
            List.countP_cons]
  rw [copiedPositions_eq, List.range_eq_range'] at h
  rw [stripComments_eq]
  exact (hkeep s .outside 0 k i trivial h).2

/-- **Comments are removed exactly** (a line comment leaves nothing, a block comment its line
    breaks, and the line breaks before each remaining byte stay), exactly if no block comment has a
    star inside. -/
theorem comments_removed (t : UnescapedText) :
    (stripComments (text t.pieces) = t.pieces.flatMap Piece.contribution ∧
      ∀ k i : ℕ, (copiedPositions (text t.pieces))[k]? = some i →
        lineBreaks ((stripComments (text t.pieces)).take k) =
          lineBreaks ((text t.pieces).take i)) ↔
    ∀ body, .blockComment body ∈ t.pieces → ch '*' ∉ body := by
  have hcopied := stripComments_pieces t.wellFormed t.linesEnd t.noEscape
  rw [← stars_eq_nil, ← List.length_eq_zero_iff]
  constructor
  · rintro ⟨hexact, -⟩
    have hlen := length_copied t.pieces
    rw [← hcopied, hexact] at hlen
    omega
  · intro hzero
    refine ⟨?_, fun k i h => lineBreaks_kept _ h⟩
    rw [hcopied]
    have hnone := stars_eq_nil.mp (List.length_eq_zero_iff.mp hzero)
    apply List.flatMap_congr
    intro p hp
    cases p with
    | blockComment body =>
      rw [Piece.copied, Piece.contribution]
      apply List.filter_congr
      intro c hc
      have hstar : c ≠ ch '*' := fun h => hnone body hp (h ▸ hc)
      simp [hstar]
    | byte c => rfl
    | literal body => rfl
    | lineComment body => rfl

/-- The comment `/***/` -/
def starComment : UnescapedText where
  pieces := [.blockComment [ch '*']]
  wellFormed := by
    intro p hp
    rw [List.mem_singleton.mp hp]
    show ¬ [ch '*', ch '/'] <:+: [ch '*']
    decide
  linesEnd := trivial
  noNul := by decide
  noEscape := by
    intro body hbody
    exact absurd (List.mem_singleton.mp hbody) (by simp)

/-- **A star is left** of a block comment that has one inside. -/
theorem star_left :
    stripComments (text starComment.pieces) = [ch '*'] ∧
    ¬ (stripComments (text starComment.pieces) = starComment.pieces.flatMap Piece.contribution ∧
      ∀ k i : ℕ, (copiedPositions (text starComment.pieces))[k]? = some i →
        lineBreaks ((stripComments (text starComment.pieces)).take k) =
          lineBreaks ((text starComment.pieces).take i)) :=
  ⟨by decide, fun h => absurd h.1 (by decide)⟩

end Nstd.Json
