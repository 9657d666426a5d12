import Nstd.Core.Pieces
import Nstd.Document.XmlResult

/-!
# Writing XML

* `Element.toString`, `toString` — the functions of `Xml` that write.
* `Element.Writable` — names are alphanumeric, attribute values stand on one line, texts are not
  blank and not next to each other.
* `readText` — what becomes of a text: white space in front of a slash is lost.
* `parse_toString` — a tree is read back as it was, up to such white space.
* **`round_trip_iff`** — it is read back as it was if no text begins with white space and a slash,
  and only then.

Every piece that is written is one token again, which the lemmas on lexemes give; a tree is then read by
induction on its elements.
-/

namespace Nstd.Xml

/-! ## The functions -/

/-- The loop of `Element::toString` over the attributes -/
def attributesString (attributes : List (List UInt8 × List UInt8)) : List UInt8 :=
  attributes.flatMap fun a => ch ' ' :: (a.1 ++ bytes "=\"" ++ escapeString a.2 ++ [ch '"'])

mutual

/-- `Element::toString` -/
def Element.toString : Element → List UInt8
  | ⟨_, _, type, attributes, content⟩ =>
    ch '<' :: (type ++ attributesString attributes ++
      if content.isEmpty then bytes "/>"
      else ch '>' :: (contentString content ++ bytes "</" ++ type ++ bytes ">"))

/-- The loop of `Element::toString` over the content -/
def contentString : List Variant → List UInt8
  | [] => []
  | .element e :: content => e.toString ++ contentString content
  | .text s :: content => escapeString s ++ contentString content
  | .null :: content => contentString content

end

/-- What `Xml::toString` begins with -/
def declaration : List UInt8 := bytes "<?xml version=\"1.0\" encoding=\"UTF-8\"?>\n"

/-- `Xml::toString` -/
def toString (element : Element) : List UInt8 := declaration ++ element.toString

/-! ## Trees -/

/-- A letter or a digit -/
def isAlphanumeric (c : UInt8) : Bool :=
  isDigit c ∨ (ch 'a' ≤ c ∧ c ≤ ch 'z') ∨ (ch 'A' ≤ c ∧ c ≤ ch 'Z')

/-- A name of letters and digits -/
def Alphanumeric (name : List UInt8) : Prop := name ≠ [] ∧ ∀ c ∈ name, isAlphanumeric c

/-- Attributes with different names, all of them alphanumeric, and values on one line -/
def WritableAttributes (attributes : List (List UInt8 × List UInt8)) : Prop :=
  (attributes.map Prod.fst).Nodup ∧
    ∀ a ∈ attributes, Alphanumeric a.1 ∧ ∀ c ∈ a.2, c ∉ [0, ch '\r', ch '\n']

mutual

/-- The elements that are written -/
def Element.Writable : Element → Prop
  | ⟨_, _, type, attributes, content⟩ =>
    Alphanumeric type ∧ WritableAttributes attributes ∧ WritableContent content

/-- Elements, and between them texts that are not blank -/
def WritableContent : List Variant → Prop
  | [] => True
  | .element e :: content => e.Writable ∧ WritableContent content
  | .text s :: content =>
    0 ∉ s ∧ (∃ c ∈ s, isSpace c = false) ∧ (∀ t, content.head? ≠ some (.text t)) ∧
      WritableContent content
  | .null :: _ => False

end

mutual

/-- The tree without lines and columns, with `f` applied to its texts -/
def Element.mapText (f : List UInt8 → List UInt8) : Element → Element
  | ⟨_, _, type, attributes, content⟩ => ⟨0, 0, type, attributes, mapContent f content⟩

/-- `Element.mapText`, in content -/
def mapContent (f : List UInt8 → List UInt8) : List Variant → List Variant
  | [] => []
  | .element e :: content => .element (e.mapText f) :: mapContent f content
  | .text s :: content => .text (f s) :: mapContent f content
  | .null :: content => .null :: mapContent f content

end

/-- Two trees that are equal except for lines and columns -/
def Element.Same (e e' : Element) : Prop := e.mapText id = e'.mapText id

/-- What is read where the text `s` was written -/
def readText (s : List UInt8) : List UInt8 :=
  if (s.dropWhile isSpace).head? = some (ch '/') then s.dropWhile isSpace else s

/-- The text begins with white space and a slash. -/
def BlankSlash (s : List UInt8) : Prop :=
  ∃ w r, w ≠ [] ∧ (∀ c ∈ w, isSpace c) ∧ s = w ++ ch '/' :: r

mutual

/-- No text of the tree begins with white space and a slash. -/
def Element.KeepsBlanks : Element → Prop
  | ⟨_, _, _, _, content⟩ => ContentKeepsBlanks content

/-- No text of the content, or inside it, begins with white space and a slash. -/
def ContentKeepsBlanks : List Variant → Prop
  | [] => True
  | .element e :: content => e.KeepsBlanks ∧ ContentKeepsBlanks content
  | .text s :: content => ¬ BlankSlash s ∧ ContentKeepsBlanks content
  | .null :: content => ContentKeepsBlanks content

end

lemma readText_eq_iff (s : List UInt8) : readText s = s ↔ ¬ BlankSlash s := by
  rw [readText]
  have hsplit : s.takeWhile isSpace ++ s.dropWhile isSpace = s := List.takeWhile_append_dropWhile
  constructor
  · rintro h ⟨w, r, hne, hw, rfl⟩
    have hslash : ¬ isSpace (ch '/') := by decide
    have hdrop : (w ++ ch '/' :: r).dropWhile isSpace = ch '/' :: r := by
      rw [List.dropWhile_append_of_pos hw, List.dropWhile_cons_of_neg hslash]
    rw [hdrop, List.head?_cons, if_pos rfl] at h
    have hlen := congrArg List.length h
    rw [List.length_append] at hlen
    exact hne (List.eq_nil_of_length_eq_zero (by omega))
  · intro h
    by_cases hhead : (s.dropWhile isSpace).head? = some (ch '/')
    · rw [if_pos hhead]
      obtain ⟨r, hr⟩ := List.head?_eq_some_iff.mp hhead
      by_cases hnil : s.takeWhile isSpace = []
      · rwa [hnil, List.nil_append] at hsplit
      · refine absurd ⟨s.takeWhile isSpace, r, hnil, fun c hc => ?_, ?_⟩ h
        · exact List.mem_takeWhile_imp hc
        · rw [← hr, hsplit]
    · rw [if_neg hhead]

mutual

lemma mapText_eq_iff : ∀ e : Element, e.mapText readText = e.mapText id ↔ e.KeepsBlanks
  | ⟨_, _, _, _, content⟩ => by
    simp only [Element.mapText, Element.mk.injEq, true_and, Element.KeepsBlanks]
    exact mapContent_eq_iff content

lemma mapContent_eq_iff : ∀ content : List Variant,
    mapContent readText content = mapContent id content ↔ ContentKeepsBlanks content
  | [] => by simp [mapContent, ContentKeepsBlanks]
  | .element e :: content => by
    simp only [mapContent, ContentKeepsBlanks, List.cons.injEq, Variant.element.injEq]
    exact and_congr (mapText_eq_iff e) (mapContent_eq_iff content)
  | .text s :: content => by
    simp only [mapContent, ContentKeepsBlanks, List.cons.injEq, Variant.text.injEq, id]
    exact and_congr (readText_eq_iff s) (mapContent_eq_iff content)
  | .null :: content => by
    simp only [mapContent, ContentKeepsBlanks, List.cons.injEq, true_and]
    exact mapContent_eq_iff content

end

/-! ## Bytes that are written -/

/-- The first byte of what is written for `c` -/
lemma escapeByte_cons (c : UInt8) : ∃ d b, escapeByte c = d :: b ∧
    (d = ch '&' ∨ d = c ∧ ∀ e ∈ escapes, e.1 ≠ c) := by
  by_cases hspecial : ∃ e ∈ escapes, e.1 = c
  · obtain ⟨e, he, rfl⟩ := hspecial
    exact ⟨_, _, (escapeByte_special e he).1, Or.inl rfl⟩
  · have hplain : ∀ e ∈ escapes, e.1 ≠ c := fun e he h => hspecial ⟨e, he, h⟩
    exact ⟨c, [], escapeByte_plain hplain, Or.inr ⟨rfl, hplain⟩⟩

/-- A byte that no reference has is written for itself only. -/
lemma mem_of_mem_escapeString {d : UInt8} {s : List UInt8} (hr : d ∉ referenceBytes)
    (hd : d ∈ escapeString s) : d ∈ s := by
  rcases mem_escapeString hd with h | h
  · exact h.1
  · exact absurd h hr

/-- White space is written as it is. -/
lemma escapeString_blank {w : List UInt8} (hw : ∀ c ∈ w, isSpace c) : escapeString w = w := by
  have hplain : ∀ e ∈ escapes, isSpace e.1 = false := forall_mem_of_all (by decide +kernel)
  induction w with
  | nil => rfl
  | cons c w ih =>
    have hc : ∀ e ∈ escapes, e.1 ≠ c := by
      rintro e he rfl
      exact absurd (hw e.1 List.mem_cons_self) (by rw [hplain e he]; decide)
    rw [escapeString_cons, escapeByte_plain hc, ih fun d hd => hw d (List.mem_cons_of_mem c hd)]
    rfl

lemma isNameByte_of_isAlphanumeric {c : UInt8} (hc : isAlphanumeric c) : isNameByte c := by
  revert hc
  exact forall_byte (p := fun c => isAlphanumeric c → isNameByte c) (by decide +kernel) c

/-- What cannot be the first byte of an alphanumeric name -/
lemma ne_of_isAlphanumeric {c : UInt8} (hc : isAlphanumeric c) :
    c ∉ [0, ch '<', ch '"', ch '\x27', ch '/', ch '!', ch '?'] := by
  revert hc
  exact forall_byte (p := fun c => isAlphanumeric c →
    c ∉ [0, ch '<', ch '"', ch '\x27', ch '/', ch '!', ch '?']) (by decide +kernel) c

lemma Alphanumeric.lexeme {name : List UInt8} (h : Alphanumeric name) : Lexeme .name name name := by
  refine .name h.1 (fun c hc => isNameByte_of_isAlphanumeric (h.2 c hc)) fun c hc => ?_
  have hmem := ne_of_isAlphanumeric (h.2 c (List.mem_of_mem_head? hc))
  simp only [List.mem_cons, List.not_mem_nil, or_false, not_or] at hmem ⊢
  exact ⟨hmem.2.1, hmem.2.2.1, hmem.2.2.2.1⟩

/-! ## Reading what was written -/

/-- The end of a start tag: does content follow? -/
def tagEnd (more : Bool) : List UInt8 := if more then bytes ">" else bytes "/>"

lemma blank_nil : ∀ c ∈ ([] : List UInt8), isSpace c := by simp

lemma blank_space : ∀ c ∈ [ch ' '], isSpace c := forall_mem_of_all rfl

/-- A name stands in front of the attributes and the end of a start tag. -/
lemma attributesString_head (as : List (List UInt8 × List UInt8)) (more : Bool) (r : List UInt8) :
    ∀ c ∈ (attributesString as ++ tagEnd more ++ r).head?, isNameByte c = false := by
  have hbytes : isNameByte (ch ' ') = false ∧ isNameByte (ch '>') = false ∧
      isNameByte (ch '/') = false := by decide
  intro c hc
  cases as with
  | cons a as => exact (Option.some_inj.mp hc) ▸ hbytes.1
  | nil =>
    cases more with
    | true => exact (Option.some_inj.mp hc) ▸ hbytes.2.1
    | false => exact (Option.some_inj.mp hc) ▸ hbytes.2.2

/-- The attributes are read. -/
lemma parseAttributes_string {as : List (List UInt8 × List UInt8)} {more : Bool} {r : List UInt8}
    (has : ∀ a ∈ as, Alphanumeric a.1 ∧ ∀ c ∈ a.2, c ∉ [0, ch '\r', ch '\n']) :
    ∀ (acc : List (List UInt8 × List UInt8)) {p : Private}, ((acc ++ as).map Prod.fst).Nodup →
      p.pos.pos = attributesString as ++ tagEnd more ++ r →
      ∃ q, parseAttributes (as.length + 1) p acc = .ok (q, acc ++ as, more) ∧ q.pos.pos = r := by
  induction as with
  | nil =>
    intro acc p _ hp
    cases more with
    | true =>
      have hlex : Lexeme .tagEnd (bytes ">") [] := .tagEnd
      obtain ⟨q, hq, htype, -, hpos⟩ := readToken_lexeme blank_nil hlex trivial hp
      have hempty : ¬ q.token.type = .emptyTagEnd := by rw [htype]; decide
      refine ⟨q, ?_, hpos⟩
      rw [parseAttributes, hq, ok_bind, if_neg hempty, if_pos htype, List.append_nil]
    | false =>
      have hlex : Lexeme .emptyTagEnd (bytes "/>") [] := .emptyTagEnd
      obtain ⟨q, hq, htype, -, hpos⟩ := readToken_lexeme blank_nil hlex trivial hp
      exact ⟨q, by rw [parseAttributes, hq, ok_bind, if_pos htype, List.append_nil], hpos⟩
  | cons a as ih =>
    intro acc p hdistinct hp
    obtain ⟨hname, hvalue⟩ := has a List.mem_cons_self
    have hrest := fun b hb => has b (List.mem_cons_of_mem a hb)
    have hquoted : ∀ d ∈ escapeString a.2, d ∉ [ch '"', ch '\r', ch '\n'] := by
      intro d hd hmem
      simp only [List.mem_cons, List.not_mem_nil, or_false] at hmem
      rcases hmem with rfl | rfl | rfl
      · exact notMem_escapeString a.2 _ (by decide) hd
      · exact hvalue _ (mem_of_mem_escapeString (by decide) hd) (by decide)
      · exact hvalue _ (mem_of_mem_escapeString (by decide) hd) (by decide)
    have hlex : Lexeme .string (ch '"' :: (escapeString a.2 ++ [ch '"'])) a.2 := by
      have hstring := Lexeme.string (Or.inl rfl) hquoted
      rwa [unescape_escape] at hstring
    have htext : p.pos.pos = [ch ' '] ++ (a.1 ++ (bytes "=" ++
        (ch '"' :: (escapeString a.2 ++ [ch '"']) ++
          (attributesString as ++ tagEnd more ++ r)))) := by
      rw [hp]
      simp [attributesString, bytes]
    have hequal : Lexeme .equalsSign (bytes "=") [] := .equalsSign
    have hbyte : ∀ (s : List UInt8), ∀ c ∈ (bytes "=" ++ s).head?, isNameByte c = false := by
      intro s c hc
      exact (Option.some_inj.mp hc) ▸ (by decide)
    obtain ⟨q, hq, hqtype, hqvalue, hqpos⟩ :=
      readToken_lexeme blank_space hname.lexeme (hbyte _) htext
    obtain ⟨u, hu, hutype, -, hupos⟩ := readToken_lexeme blank_nil hequal trivial hqpos
    obtain ⟨v, hv, hvtype, hvvalue, hvpos⟩ := readToken_lexeme blank_nil hlex trivial hupos
    have hnew : a.1 ∉ acc.map Prod.fst := by
      rw [List.map_append, List.nodup_append] at hdistinct
      intro hmem
      exact hdistinct.2.2 _ hmem _ List.mem_cons_self rfl
    have hacc : acc ++ a :: as = (acc ++ [a]) ++ as := by simp
    obtain ⟨t, ht, htpos⟩ := ih hrest (acc ++ [a]) (by rwa [← hacc]) hvpos
    have hempty : ¬ q.token.type = .emptyTagEnd := by rw [hqtype]; decide
    have htag : ¬ q.token.type = .tagEnd := by rw [hqtype]; decide
    refine ⟨t, ?_, htpos⟩
    rw [List.length_cons, parseAttributes, hq, ok_bind, if_neg hempty, if_neg htag,
      if_pos hqtype]
    dsimp only
    rw [hu, ok_bind, if_neg (not_not.mpr hutype), hv, ok_bind, if_neg (not_not.mpr hvtype),
      hqvalue rfl, hvvalue rfl, HashMap.append_of_notMem _ hnew, hacc]
    exact ht

/-- In front of a text that does not begin with a slash, some other token can be read. -/
lemma readToken_other {p : Private} {w r : List UInt8} {c : UInt8} {t : List UInt8}
    (hw : ∀ d ∈ w, isSpace d) (hc : isSpace c = false) (hslash : c ≠ ch '/')
    (hp : p.pos.pos = w ++ (escapeByte c ++ escapeString t ++ ch '<' :: r)) :
    ∃ q, readToken p = .ok q ∧ q.token.type ∉ [.startTagBegin, .endTagBegin] := by
  obtain ⟨d, b, hbyte, hd⟩ := escapeByte_cons c
  have hspecial : (∃ e ∈ escapes, e.1 = ch '<') ∧ (∃ e ∈ escapes, e.1 = ch '>') ∧
      (∃ e ∈ escapes, e.1 = ch '"') ∧ ∃ e ∈ escapes, e.1 = ch '\x27' := by decide +kernel
  have hother : d ∉ [ch '<', ch '>', ch '"', ch '\x27', ch '/'] ∧ isSpace d = false := by
    rcases hd with rfl | ⟨rfl, hplain⟩
    · decide +kernel
    · refine ⟨fun hmem => ?_, hc⟩
      have hne : ∀ x, (∃ e ∈ escapes, e.1 = x) → d ≠ x := by
        rintro x ⟨e, he, rfl⟩
        exact Ne.symm (hplain e he)
      simp only [List.mem_cons, List.not_mem_nil, or_false] at hmem
      rcases hmem with h | h | h | h | h
      · exact hne _ hspecial.1 h
      · exact hne _ hspecial.2.1 h
      · exact hne _ hspecial.2.2.1 h
      · exact hne _ hspecial.2.2.2 h
      · exact hslash h
  obtain ⟨hother, hspace⟩ := hother
  simp only [List.mem_cons, List.not_mem_nil, or_false, not_or] at hother
  rw [hbyte, List.cons_append, List.cons_append] at hp
  by_cases heq : d = ch '='
  · have hequal : Lexeme .equalsSign (bytes "=") [] := .equalsSign
    rw [heq] at hp
    obtain ⟨q, hq, htype, -, -⟩ := readToken_lexeme hw hequal trivial hp
    exact ⟨q, hq, by rw [htype]; decide⟩
  · set s := b ++ escapeString t ++ ch '<' :: r
    have hd : isNameByte d := by
      simp [isNameByte, hother.2.2.2.2, hother.2.1, heq, hspace]
    have hname : Lexeme .name ((d :: s).takeWhile isNameByte) ((d :: s).takeWhile isNameByte) := by
      refine .name ?_ (fun x hx => List.mem_takeWhile_imp hx) fun x hx => ?_
      · rw [List.takeWhile_cons_of_pos hd]
        exact List.cons_ne_nil _ _
      · rw [List.takeWhile_cons_of_pos hd] at hx
        obtain rfl := Option.some_inj.mp hx
        simp [hother.1, hother.2.2.1, hother.2.2.2.1]
    have hfollows : Follows .name ((d :: s).takeWhile isNameByte)
        ((d :: s).dropWhile isNameByte) := fun x hx => not_of_mem_head_dropWhile hx
    have htext : p.pos.pos = w ++ ((d :: s).takeWhile isNameByte ++
        (d :: s).dropWhile isNameByte) := by
      rw [List.takeWhile_append_dropWhile]
      exact hp
    obtain ⟨q, hq, htype, -, -⟩ := readToken_lexeme hw hname hfollows htext
    exact ⟨q, hq, by rw [htype]; decide⟩

/-- In front of a text that begins with a slash, no token can be read. -/
lemma readToken_slash {p : Private} {w s : List UInt8} (hw : ∀ d ∈ w, isSpace d)
    (hs : s.head? ≠ some (ch '>')) (hp : p.pos.pos = w ++ ch '/' :: s) :
    ∃ q, readToken p = .error (.syntaxError q) ∧ q.pos.pos = ch '/' :: s := by
  have hstops : Stops (ch '/' :: s) := by
    refine ⟨fun d hd => ?_, fun hcomment => ?_⟩
    · exact (Option.some_inj.mp hd) ▸ (by decide)
    · obtain ⟨u, hu⟩ := hcomment
      exact absurd (List.cons.inj hu).1 (by decide)
  have hpos : (skipSpace p.pos).pos = ch '/' :: s := by
    rw [skipSpace, hp]
    exact skipBlank_append hw hstops _ _
  have hlt : ch '/' ≠ ch '<' := by decide
  have hgt : ch '/' ≠ ch '>' := by decide
  have heq : ch '/' ≠ ch '=' := by decide
  have hquote : ¬ (ch '/' = ch '"' ∨ ch '/' = ch '\x27') := by decide
  have hend : ¬ (ch '/' = ch '/' ∧ s.head? = some (ch '>')) := fun h => hs h.2
  have hname : (ch '/' :: s).takeWhile isNameByte = [] :=
    List.takeWhile_cons_of_neg (by decide +kernel)
  rw [readToken, switchToken.eq_def]
  dsimp only
  rw [hpos]
  dsimp only
  rw [if_neg hlt, if_neg hgt, if_neg heq, if_neg hquote, if_neg hend, hname, if_pos rfl]
  exact ⟨_, rfl, hpos⟩

/-- An iteration over a text that was written -/
lemma parseContent_text {p : Private} {s r : List UInt8} (hs : ∃ c ∈ s, isSpace c = false)
    (hp : p.pos.pos = escapeString s ++ ch '<' :: r) :
    ∃ q, q.pos.pos = ch '<' :: r ∧ ∀ n acc,
      parseContent (n + 1) p acc = parseContent n q (acc ++ [.text (readText s)]) := by
  have hsplit : s.takeWhile isSpace ++ s.dropWhile isSpace = s := List.takeWhile_append_dropWhile
  have hw : ∀ c ∈ s.takeWhile isSpace, isSpace c := fun c hc => List.mem_takeWhile_imp hc
  obtain ⟨c, t, hdrop⟩ : ∃ c t, s.dropWhile isSpace = c :: t := by
    obtain ⟨c, hc, hblank⟩ := hs
    refine List.exists_cons_of_ne_nil fun hnil => ?_
    rw [List.dropWhile_eq_nil_iff] at hnil
    exact absurd (hnil c hc) (by rw [hblank]; decide)
  have hc : isSpace c = false := not_of_dropWhile hdrop
  have htext : escapeString s =
      s.takeWhile isSpace ++ (escapeByte c ++ escapeString t) := by
    rw [← escapeString_cons, ← hdrop]
    conv_lhs => rw [← hsplit, escapeString_append, escapeString_blank hw]
  have hlt : ∀ x, ch '<' ∉ escapeString x := fun x => notMem_escapeString x _ (by decide)
  by_cases hslash : c = ch '/'
  · have hread : readText s = c :: t := by
      rw [readText, hdrop, List.head?_cons, hslash, if_pos rfl]
    have hbyte : escapeByte (ch '/') = [ch '/'] := by decide +kernel
    have hnext : (escapeString t ++ ch '<' :: r).head? ≠ some (ch '>') := by
      cases ht : escapeString t with
      | nil => exact fun h => absurd (Option.some_inj.mp h) (by decide)
      | cons d u =>
        intro h
        obtain rfl : d = ch '>' := Option.some_inj.mp h
        exact notMem_escapeString t (ch '>') (by decide) (ht ▸ List.mem_cons_self)
    have hp' : p.pos.pos =
        s.takeWhile isSpace ++ ch '/' :: (escapeString t ++ ch '<' :: r) := by
      rw [hp, htext, hslash, hbyte]
      simp
    obtain ⟨v, hv, hvpos⟩ := readToken_slash hw hnext hp'
    have hescaped : ch '/' :: (escapeString t ++ ch '<' :: r) =
        escapeString (c :: t) ++ ch '<' :: r := by
      rw [escapeString_cons, hslash, hbyte]
      simp
    obtain ⟨q, hq, hqpos⟩ := parseText_append (hlt (c :: t)) (hvpos.trans hescaped)
    refine ⟨q, hqpos, fun n acc => ?_⟩
    rw [parseContent, hv]
    dsimp only
    rw [hq, ok_bind, unescape_escape, hread]
  · have hread : readText s = s := by
      rw [readText, hdrop, List.head?_cons, if_neg fun h => hslash (Option.some_inj.mp h)]
    have hp' : p.pos.pos =
        s.takeWhile isSpace ++ (escapeByte c ++ escapeString t ++ ch '<' :: r) := by
      rw [hp, htext]
      simp
    obtain ⟨v, hv, htype⟩ := readToken_other hw hc hslash hp'
    simp only [List.mem_cons, List.not_mem_nil, or_false, not_or] at htype
    obtain ⟨q, hq, hqpos⟩ := parseText_append (p := { v with pos := p.pos }) (hlt s) hp
    refine ⟨q, hqpos, fun n acc => ?_⟩
    rw [parseContent, hv]
    dsimp only
    rw [if_neg htype.2, if_neg htype.1, hq, ok_bind, unescape_escape, hread]

/-- The end tag is read. -/
lemma parseEndTag_append {p : Private} {type r : List UInt8} (htype : Alphanumeric type)
    (hp : p.pos.pos = type ++ (bytes ">" ++ r)) :
    ∃ q, parseEndTag p type = .ok q ∧ q.pos.pos = r := by
  have hend : ∀ c ∈ (bytes ">" ++ r).head?, isNameByte c = false := by
    intro c hc
    exact (Option.some_inj.mp hc) ▸ (by decide)
  have hlex : Lexeme .tagEnd (bytes ">") [] := .tagEnd
  obtain ⟨q, hq, hqtype, hqvalue, hqpos⟩ :=
    readToken_lexeme blank_nil htype.lexeme hend hp
  obtain ⟨u, hu, hutype, -, hupos⟩ := readToken_lexeme blank_nil hlex trivial hqpos
  refine ⟨u, ?_, hupos⟩
  rw [parseEndTag, hq, ok_bind, if_neg (not_not.mpr hqtype), if_neg (not_not.mpr (hqvalue rfl)),
    hu, ok_bind, if_neg (not_not.mpr hutype)]

/-- What follows a text, or begins a content, begins with `<`. -/
lemma contentString_head {content : List Variant} (h : ∀ t, content.head? ≠ some (.text t))
    (hcontent : WritableContent content) (r : List UInt8) :
    ∃ s, contentString content ++ (bytes "</" ++ r) = ch '<' :: s := by
  match content with
  | [] => exact ⟨ch '/' :: r, rfl⟩
  | .element ⟨_, _, _, _, _⟩ :: _ => exact ⟨_, rfl⟩
  | .text t :: _ => exact absurd rfl (h t)
  | .null :: _ => exact absurd hcontent (by simp [WritableContent])

mutual

/-- **An element is read** as it was written, up to blanks in front of slashes. -/
theorem parseElement_toString : ∀ (e : Element), e.Writable → ∀ (p : Private) (r : List UInt8),
    ch '<' :: p.pos.pos = e.toString ++ r → ∃ n q e', parseElement n p .empty = .ok (q, e') ∧
      e'.mapText id = e.mapText readText ∧ q.pos.pos = r
  | ⟨line, column, type, attributes, content⟩, he, p, r, hp => by
    obtain ⟨htype, ⟨hdistinct, hattributes⟩, hcontent⟩ := he
    have hstart : ∀ more s,
        p.pos.pos = type ++ (attributesString attributes ++ tagEnd more ++ s) →
          ∃ q t, readToken p = .ok q ∧ q.token.type = .name ∧ q.token.value = type ∧
          parseAttributes (attributes.length + 1) q [] = .ok (t, attributes, more) ∧
            t.pos.pos = s := by
      intro more s hs
      obtain ⟨q, hq, hqtype, hqvalue, hqpos⟩ := readToken_lexeme blank_nil htype.lexeme
        (attributesString_head attributes more s) hs
      obtain ⟨t, ht, htpos⟩ :=
        parseAttributes_string hattributes [] (by simpa using hdistinct) hqpos
      exact ⟨q, t, hq, hqtype, hqvalue rfl, ht, htpos⟩
    rw [Element.toString] at hp
    cases hempty : content.isEmpty with
    | true =>
      obtain rfl := List.isEmpty_iff.mp hempty
      obtain ⟨q, t, hq, hqtype, hqvalue, ht, htpos⟩ := hstart false r (by
        simpa [hempty, tagEnd] using hp)
      refine ⟨attributes.length + 2, t, ⟨p.token.pos.line, p.token.pos.column, type, attributes,
        []⟩, ?_, by simp [Element.mapText, mapContent], htpos⟩
      rw [parseElement, hq, ok_bind, if_neg (not_not.mpr hqtype), hqvalue]
      simp [Element.empty, ht, ok_bind]
    | false =>
      obtain ⟨q, t, hq, hqtype, hqvalue, ht, htpos⟩ := hstart true
        (contentString content ++ (bytes "</" ++ (type ++ (bytes ">" ++ r)))) (by
          simpa [hempty, tagEnd, bytes] using hp)
      obtain ⟨n, u, c, hu, hc, hupos⟩ :=
        parseContent_contentString content hcontent t (type ++ (bytes ">" ++ r)) [] htpos
      obtain ⟨v, hv, hvpos⟩ := parseEndTag_append htype hupos
      have hu' := Agree.ok_mono (fun n m h => (settled_all h).content t [])
        (Nat.le_max_left n (attributes.length + 1)) hu
      have ht' := Agree.ok_mono (fun n m h => parseAttributes_agree h q [])
        (Nat.le_max_right n (attributes.length + 1)) ht
      refine ⟨max n (attributes.length + 1) + 1, v, ⟨p.token.pos.line, p.token.pos.column, type,
        attributes, c⟩, ?_, by simp [Element.mapText, hc], hvpos⟩
      rw [parseElement, hq, ok_bind, if_neg (not_not.mpr hqtype), hqvalue]
      simp [Element.empty, ht', hu', hv, ok_bind]

/-- **Content is read** as it was written, up to blanks in front of slashes. -/
theorem parseContent_contentString : ∀ (content : List Variant), WritableContent content →
    ∀ (p : Private) (r : List UInt8) (acc : List Variant),
      p.pos.pos = contentString content ++ (bytes "</" ++ r) →
      ∃ n q c, parseContent n p acc = .ok (q, acc ++ c) ∧
        mapContent id c = mapContent readText content ∧ q.pos.pos = r
  | [], _, p, r, acc, hp => by
    have hlex : Lexeme .endTagBegin (bytes "</") [] := .endTagBegin
    obtain ⟨q, hq, htype, -, hpos⟩ := readToken_lexeme blank_nil hlex trivial hp
    refine ⟨1, q, [], ?_, rfl, hpos⟩
    rw [parseContent, hq]
    dsimp only
    rw [if_pos htype, List.append_nil]
  | .element e :: content, h, p, r, acc, hp => by
    obtain ⟨he, hcontent⟩ := h
    obtain ⟨x, hx, hfollows⟩ : ∃ x, e.toString = ch '<' :: x ∧
        ∀ s, Follows .startTagBegin (bytes "<") (x ++ s) := by
      obtain ⟨line, column, type, attributes, _⟩ := e
      obtain ⟨⟨hne, htype⟩, -, -⟩ := he
      obtain ⟨c, type, rfl⟩ := List.exists_cons_of_ne_nil hne
      have hc := ne_of_isAlphanumeric (htype c List.mem_cons_self)
      simp only [List.mem_cons, List.not_mem_nil, or_false, not_or] at hc
      refine ⟨_, rfl, fun s => ⟨fun h => ?_, fun h => ?_⟩⟩
      · exact hc.2.2.2.2.1 (Option.some_inj.mp h)
      · obtain ⟨u, hu⟩ := h
        exact hc.2.2.2.2.2.1 (List.cons.inj hu).1.symm
    have hlex : Lexeme .startTagBegin (bytes "<") [] := .startTagBegin
    have hp' : p.pos.pos = [] ++ (bytes "<" ++
        (x ++ (contentString content ++ (bytes "</" ++ r)))) := by
      rw [hp, contentString, hx]
      simp [bytes]
    obtain ⟨q, hq, hqtype, -, hqpos⟩ := readToken_lexeme blank_nil hlex (hfollows _) hp'
    obtain ⟨n, u, e', hu, he', hupos⟩ := parseElement_toString e he q
      (contentString content ++ (bytes "</" ++ r)) (by rw [hqpos, hx]; rfl)
    obtain ⟨m, v, c, hv, hc, hvpos⟩ := parseContent_contentString content hcontent u r
      (acc ++ [.element e']) hupos
    have hu' := Agree.ok_mono (fun n m h => (settled_all h).element q .empty)
      (Nat.le_max_left n m) hu
    have hv' := Agree.ok_mono (fun n m h => (settled_all h).content u (acc ++ [.element e']))
      (Nat.le_max_right n m) hv
    have hend : ¬ q.token.type = .endTagBegin := by rw [hqtype]; decide
    refine ⟨max n m + 1, v, .element e' :: c, ?_, by simp [mapContent, he', hc], hvpos⟩
    rw [parseContent, hq]
    dsimp only
    rw [if_neg hend, if_pos hqtype, hu', ok_bind]
    simpa using hv'
  | .text s :: content, h, p, r, acc, hp => by
    obtain ⟨-, hs, hnext, hcontent⟩ := h
    obtain ⟨x, hx⟩ := contentString_head hnext hcontent r
    have hp' : p.pos.pos = escapeString s ++ ch '<' :: x := by
      rw [hp, contentString, List.append_assoc, hx]
    obtain ⟨q, hqpos, hq⟩ := parseContent_text hs hp'
    obtain ⟨n, u, c, hu, hc, hupos⟩ := parseContent_contentString content hcontent q r
      (acc ++ [.text (readText s)]) (hqpos.trans hx.symm)
    refine ⟨n + 1, u, .text (readText s) :: c, ?_, by simp [mapContent, hc], hupos⟩
    rw [hq, hu]
    simp
  | .null :: _, h, _, _, _, _ => absurd h (by simp [WritableContent])

end

/-! ## Round trip -/

lemma notMem_append {α : Type} {a : α} {s t : List α} (hs : a ∉ s) (ht : a ∉ t) : a ∉ s ++ t := by
  simp [hs, ht]

lemma Alphanumeric.noNul {name : List UInt8} (h : Alphanumeric name) : 0 ∉ name :=
  fun hmem => ne_of_isAlphanumeric (h.2 0 hmem) List.mem_cons_self

lemma noNul_escapeString {s : List UInt8} (h : 0 ∉ s) : 0 ∉ escapeString s :=
  fun hmem => h (mem_of_mem_escapeString (by decide) hmem)

lemma noNul_attributesString {as : List (List UInt8 × List UInt8)}
    (h : ∀ a ∈ as, Alphanumeric a.1 ∧ ∀ c ∈ a.2, c ∉ [0, ch '\r', ch '\n']) :
    0 ∉ attributesString as := by
  intro hmem
  obtain ⟨a, ha, hmem⟩ := List.mem_flatMap.mp hmem
  obtain ⟨hname, hvalue⟩ := h a ha
  have hescaped : 0 ∉ escapeString a.2 :=
    noNul_escapeString fun h0 => hvalue 0 h0 List.mem_cons_self
  refine absurd hmem ?_
  rw [List.mem_cons, not_or]
  exact ⟨by decide, notMem_append (notMem_append (notMem_append hname.noNul (by decide)) hescaped)
    (by decide)⟩

mutual

lemma noNul_toString : ∀ (e : Element), e.Writable → 0 ∉ e.toString
  | ⟨_, _, type, attributes, content⟩, ⟨htype, ⟨_, hattributes⟩, hcontent⟩ => by
    have hlt : (0 : UInt8) ≠ ch '<' := by decide
    have hgt : (0 : UInt8) ≠ ch '>' := by decide
    have hstart := notMem_append htype.noNul (noNul_attributesString hattributes)
    rw [Element.toString, List.mem_cons, not_or]
    refine ⟨hlt, notMem_append hstart ?_⟩
    split_ifs
    · decide
    · rw [List.mem_cons, not_or]
      have hinside := notMem_append (noNul_contentString content hcontent)
        (show 0 ∉ bytes "</" by decide)
      exact ⟨hgt, notMem_append (notMem_append hinside htype.noNul) (by decide)⟩

lemma noNul_contentString : ∀ (content : List Variant), WritableContent content →
    0 ∉ contentString content
  | [], _ => by simp [contentString]
  | .element e :: content, ⟨he, hcontent⟩ =>
    notMem_append (noNul_toString e he) (noNul_contentString content hcontent)
  | .text _ :: content, ⟨hs, _, _, hcontent⟩ =>
    notMem_append (noNul_escapeString hs) (noNul_contentString content hcontent)
  | .null :: _, h => absurd h (by simp [WritableContent])

end

/-- An instruction on one line is skipped. -/
lemma skipInstructions_open {p : Private} {x y : List UInt8}
    (hx : ∀ d ∈ x, d ∉ [ch '\r', ch '\n', ch '?'])
    (hp : p.pos.pos = ch '<' :: ch '?' :: (x ++ ch '?' :: ch '>' :: y)) (n : ℕ) :
    skipInstructions (n + 2) p =
      skipInstructions (n + 1) { p with pos := skipSpace { p.pos with pos := y } } := by
  have hfind : findOneOf id [ch '\r', ch '\n', ch '?'] (x ++ ch '?' :: ch '>' :: y) =
      some (ch '?' :: ch '>' :: y) := findOneOf_append hx (by decide)
  have hopen : p.pos.pos.head? = some (ch '<') ∧ p.pos.pos.tail.head? = some (ch '?') := by
    rw [hp]
    exact ⟨rfl, rfl⟩
  rw [skipInstructions, if_pos hopen, skipInstruction]
  dsimp only
  rw [hp, List.tail_cons, List.tail_cons, hfind]
  dsimp only
  rw [if_pos ⟨rfl, rfl⟩, ok_bind]
  rfl

lemma skipInstructions_stop {p : Private} {c : UInt8} {s : List UInt8} (hc : c ≠ ch '?')
    (hp : p.pos.pos = ch '<' :: c :: s) (n : ℕ) : skipInstructions (n + 1) p = .ok p := by
  rw [skipInstructions, if_neg]
  rw [hp]
  exact fun h => hc (Option.some_inj.mp h.2)

/-- The declaration is skipped. -/
lemma skip_declaration {data : CString} {c : UInt8} {s : List UInt8} (hc : c ≠ ch '!')
    (hquestion : c ≠ ch '?') (hdata : data.bytes = declaration ++ ch '<' :: c :: s) :
    ∃ q, skipInstructions 3 { Private.initial data with
        pos := skipSpace (Private.initial data).pos } = .ok q ∧ q.pos.pos = ch '<' :: c :: s := by
  have hstops : ∀ d t, d ≠ ch '!' → Stops (ch '<' :: d :: t) := by
    refine fun d t hd => ⟨fun x hx => ?_, fun hcomment => ?_⟩
    · exact (Option.some_inj.mp hx) ▸ (by decide)
    · obtain ⟨u, hu⟩ := hcomment
      exact hd (List.cons.inj (List.cons.inj hu).2).1.symm
  have hinside : ∀ d ∈ bytes "xml version=\"1.0\" encoding=\"UTF-8\"",
      d ∉ [ch '\r', ch '\n', ch '?'] := forall_mem_of_all (by decide +kernel)
  have hstart : (skipSpace (Private.initial data).pos).pos = ch '<' :: ch '?' ::
      (bytes "xml version=\"1.0\" encoding=\"UTF-8\"" ++
        ch '?' :: ch '>' :: ch '\n' :: ch '<' :: c :: s) := by
    have hfirst : Stops data.bytes := by
      rw [hdata]
      exact hstops (ch '?') _ (by decide)
    exact (skipBlank_append blank_nil hfirst _ _).trans hdata
  have hbreak : ∀ d ∈ [ch '\n'], isSpace d := forall_mem_of_all rfl
  have hskip : ∀ line lineStart, (skipSpace ⟨line, ch '\n' :: ch '<' :: c :: s, lineStart⟩).pos =
      ch '<' :: c :: s := skipBlank_append hbreak (hstops c s hc)
  rw [skipInstructions_open hinside hstart 1, skipInstructions_stop hquestion (hskip _ _)]
  exact ⟨_, rfl, hskip _ _⟩

/-- **A tree is read back** as it was written, up to blanks in front of slashes. -/
theorem parse_toString {e : Element} (he : e.Writable) {data : CString}
    (hdata : data.bytes = toString e) :
    ∃ n q r, parse n data .empty = .ok (q, r) ∧ r.mapText id = e.mapText readText := by
  obtain ⟨c, s, hs, hc⟩ : ∃ c s, e.toString = ch '<' :: c :: s ∧ isAlphanumeric c := by
    obtain ⟨line, column, type, attributes, _⟩ := e
    obtain ⟨⟨hne, htype⟩, -, -⟩ := he
    obtain ⟨c, type, rfl⟩ := List.exists_cons_of_ne_nil hne
    exact ⟨c, _, rfl, htype c List.mem_cons_self⟩
  have hother := ne_of_isAlphanumeric hc
  simp only [List.mem_cons, List.not_mem_nil, or_false, not_or] at hother
  obtain ⟨-, -, -, -, hslash, hbang, hquestion⟩ := hother
  obtain ⟨p, hp, hppos⟩ := skip_declaration hbang hquestion (hdata.trans (by rw [toString, hs]))
  have hlex : Lexeme .startTagBegin (bytes "<") [] := .startTagBegin
  have hfollows : Follows .startTagBegin (bytes "<") (c :: s) := by
    refine ⟨fun h => hslash (Option.some_inj.mp h), fun h => ?_⟩
    obtain ⟨u, hu⟩ := h
    exact hbang (List.cons.inj hu).1.symm
  obtain ⟨q, hq, hqtype, -, hqpos⟩ := readToken_lexeme blank_nil hlex hfollows hppos
  obtain ⟨n, u, r, hu, hr, -⟩ := parseElement_toString e he q [] (by rw [hqpos, hs]; simp)
  have hp' := Agree.ok_mono (fun n m h => skipInstructions_agree h _) (Nat.le_max_left 3 n) hp
  have hu' := Agree.ok_mono (fun n m h => (settled_all h).element q .empty)
    (Nat.le_max_right 3 n) hu
  refine ⟨max 3 n, u, r, ?_, hr⟩
  rw [parse, hp', ok_bind, hq, ok_bind, if_neg (not_not.mpr hqtype), hu']

/-- **A tree survives** being written and read if no text begins with white space and a slash, and
    only then. -/
theorem round_trip_iff (e : Element) (he : e.Writable) :
    (∃ (noNul : 0 ∉ toString e) (n : ℕ) (q : Private) (r : Element),
      parse n ⟨toString e, noNul⟩ .empty = .ok (q, r) ∧ r.Same e) ↔ e.KeepsBlanks := by
  have noNul : 0 ∉ toString e :=
    notMem_append (by decide +kernel) (noNul_toString e he)
  obtain ⟨m, p, r, hr, hsame⟩ :=
    parse_toString he (show (CString.mk (toString e) noNul).bytes = _ from rfl)
  rw [← mapText_eq_iff]
  constructor
  · rintro ⟨_, n, q, r', hr', hsame'⟩
    have hunique : (p, r) = (q, r') :=
      Agree.ok_unique (fun n m h => parse_agree h ⟨toString e, noNul⟩ .empty) hr hr'
    rw [← (Prod.mk.inj hunique).2] at hsame'
    exact hsame.symm.trans hsame'
  · intro h
    exact ⟨noNul, m, p, r, hr, hsame.trans h⟩

/-- An element with an attribute and a text -/
def blankText : Element := ⟨0, 0, bytes "a", [(bytes "b", bytes "c")], [.text (bytes " x")]⟩

theorem round_trip_iff_text : (∃ (noNul : 0 ∉ toString blankText) (n : ℕ) (q : Private)
    (r : Element), parse n ⟨toString blankText, noNul⟩ .empty = .ok (q, r) ∧ r.Same blankText) ↔
      blankText.KeepsBlanks := by
  refine round_trip_iff blankText ⟨⟨by decide, ?_⟩, ⟨by simp, ?_⟩, by decide, ?_, by simp,
    trivial⟩
  · exact forall_mem_of_all rfl
  · simp only [List.mem_singleton, forall_eq]
    exact ⟨⟨by decide, forall_mem_of_all rfl⟩, forall_mem_of_all rfl⟩
  · exact ⟨ch 'x', by decide, by decide⟩

/-- An element whose text begins with white space and a slash -/
def blankSlash : Element := ⟨0, 0, bytes "a", [], [.text (bytes " /x")]⟩

theorem blank_slash_lost : blankSlash.Writable ∧
    ¬ ∃ (noNul : 0 ∉ toString blankSlash) (n : ℕ) (q : Private) (r : Element),
      parse n ⟨toString blankSlash, noNul⟩ .empty = .ok (q, r) ∧ r.Same blankSlash := by
  have he : blankSlash.Writable := by
    refine ⟨⟨by decide, forall_mem_of_all rfl⟩, ⟨by simp, by simp⟩, by decide, ?_, by simp,
      trivial⟩
    exact ⟨ch 'x', by decide, by decide⟩
  refine ⟨he, fun ⟨noNul, n, q, r, hr, hsame⟩ => ?_⟩
  obtain ⟨m, p, r', hr', hsame'⟩ := parse_toString he (show (CString.mk _ noNul).bytes = _ from rfl)
  have hunique : (p, r') = (q, r) :=
    Agree.ok_unique (fun n m h => parse_agree h ⟨_, noNul⟩ .empty) hr' hr
  rw [(Prod.mk.inj hunique).2] at hsame'
  have hkeeps := (mapText_eq_iff _).mp (hsame'.symm.trans hsame)
  exact hkeeps.1 ⟨bytes " ", bytes "x", by decide, forall_mem_of_all rfl, rfl⟩

end Nstd.Xml
