import Nstd.Document.JsonNumber
import Nstd.Document.JsonText

/-!
# Writing JSON

* `appendEscapedString`, `appendVariant`, `toString` — the functions of `Json` that write, by what
  they append to the result.
* `Plain` — the values that survive: integers, strings of one line without a NUL, and containers
  of such, maps with distinct keys.
* `strictValue_appendVariant` — what is written for a plain value is a text of the grammar that
  stands for this value.
* **`round_trip`** — it is read back as it was.

Nothing new is said about the parser for this: it reads every text of the grammar as the value it stands
for.
-/

namespace Nstd.Json

variable {D : Type} [DoubleText D]

/-! ## The functions -/

/-- The loop of `appendEscapedString`.  `findOneOf` looks up to a NUL; from there on, the string is
    copied as it is. -/
def escapeLoop : List UInt8 → List UInt8
  | [] => []
  | c :: s =>
    if c = 0 then c :: s
    else if c = ch '"' then ch '\\' :: ch '"' :: escapeLoop s
    else if c = ch '\\' then ch '\\' :: ch '\\' :: escapeLoop s
    else c :: escapeLoop s

/-- `appendEscapedString` -/
def appendEscapedString (str : List UInt8) : List UInt8 :=
  ch '"' :: (escapeLoop str ++ [ch '"'])

mutual

/-- `appendVariant` -/
def appendVariant : Variant D → List UInt8 → List UInt8
  | .null, _ => bytes "null"
  | .bool b, _ => (Variant.bool b : Variant D).toString
  | .double d, _ => (Variant.double d).toString
  | .int n, _ => (Variant.int n : Variant D).toString
  | .uint n, _ => (Variant.uint n : Variant D).toString
  | .int64 n, _ => (Variant.int64 n : Variant D).toString
  | .uint64 n, _ => (Variant.uint64 n : Variant D).toString
  | .string s, _ => appendEscapedString s
  | .map m, indentation =>
    if m.isEmpty then bytes "\x7b\x7d"
    else bytes "\x7b\n" ++ appendEntries m (indentation ++ [ch '\t']) ++
      ch '\n' :: (indentation ++ [ch '\x7d'])
  | .list l, indentation =>
    if l.isEmpty then bytes "[]"
    else bytes "[\n" ++ appendElements l (indentation ++ [ch '\t']) ++
      ch '\n' :: (indentation ++ [ch ']'])
  | .array a, indentation =>
    if a.isEmpty then bytes "[]"
    else bytes "[\n" ++ appendElements a (indentation ++ [ch '\t']) ++
      ch '\n' :: (indentation ++ [ch ']'])

/-- The loop over the entries of a map -/
def appendEntries : List (List UInt8 × Variant D) → List UInt8 → List UInt8
  | [], _ => []
  | (k, v) :: m, newIndentation =>
    newIndentation ++ appendEscapedString k ++ bytes ": " ++ appendVariant v newIndentation ++
      if m.isEmpty then [] else bytes ",\n" ++ appendEntries m newIndentation

/-- The loop over the elements of a list or an array -/
def appendElements : List (Variant D) → List UInt8 → List UInt8
  | [], _ => []
  | v :: l, newIndentation =>
    newIndentation ++ appendVariant v newIndentation ++
      if l.isEmpty then [] else bytes ",\n" ++ appendElements l newIndentation

end

/-- `Json::toString` -/
def toString (data : Variant D) : List UInt8 := appendVariant data [] ++ [ch '\n']

/-! ## Plain values -/

/-- A string of one line, without a NUL -/
def OneLine (s : List UInt8) : Prop := 0 ∉ s ∧ ch '\r' ∉ s ∧ ch '\n' ∉ s

/-- The bytes that the tokenizer drops -/
def isLineBreak (c : UInt8) : Bool := c = ch '\r' ∨ c = ch '\n'

/-- The values that are read back as they are written -/
inductive Plain {D : Type} : Variant D → Prop
  | null : Plain .null
  | bool (b : Bool) : Plain (.bool b)
  | int (n : Int32) : Plain (.int n)
  | int64 {n : Int64} : n.toInt < - 2 ^ 31 ∨ 2 ^ 31 ≤ n.toInt → Plain (.int64 n)
  | string {s : List UInt8} : OneLine s → Plain (.string s)
  | list {l : List (Variant D)} : (∀ v ∈ l, Plain v) → Plain (.list l)
  | map {m : List (List UInt8 × Variant D)} : (m.map Prod.fst).Nodup → (∀ e ∈ m, OneLine e.1) →
      (∀ e ∈ m, Plain e.2) → Plain (.map m)

/-! ## What is written -/

omit [DoubleText D] in
/-- Members with distinct keys are the entries of their map. -/
lemma objectOf_nodup {m : List (List UInt8 × Variant D)} (hm : (m.map Prod.fst).Nodup) :
    objectOf m = m := by
  have hfold : ∀ (m acc : List (List UInt8 × Variant D)), ((acc ++ m).map Prod.fst).Nodup →
      m.foldl (fun m e => HashMap.append e.1 e.2 m) acc = acc ++ m := by
    intro m
    induction m with
    | nil => simp
    | cons e m ih =>
      intro acc hacc
      have hnew : e.1 ∉ acc.map Prod.fst := by
        rw [List.map_append, List.nodup_append] at hacc
        exact fun h => hacc.2.2 e.1 h e.1 (by simp) rfl
      rw [List.foldl_cons, HashMap.append_of_notMem e.2 hnew, ih _ (by simpa using hacc)]
      simp
  exact hfold m [] hm

/-- Without a NUL, what is read are the bytes that are no line breaks. -/
lemma stringBody_lines {s : List UInt8} (hs : 0 ∉ s) :
    StringBody (escapeLoop s) (s.filter fun c => !isLineBreak c) := by
  induction s with
  | nil => exact .nil
  | cons c s ih =>
    simp only [List.mem_cons, not_or] at hs
    obtain ⟨h₀, hs⟩ := hs
    rw [escapeLoop, if_neg (Ne.symm h₀)]
    split_ifs with hquote hback
    · subst hquote
      exact .escape (.simple (by decide)) (ih hs)
    · subst hback
      exact .escape (.simple (by decide)) (ih hs)
    · by_cases hbreak : isLineBreak c
      · rw [List.filter_cons_of_neg (by simpa using hbreak)]
        exact .lineBreak (by simpa [isLineBreak] using hbreak) (ih hs)
      · rw [List.filter_cons_of_pos (by simpa using hbreak)]
        have hne : ¬ (c = ch '\r' ∨ c = ch '\n') := by simpa [isLineBreak] using hbreak
        exact .plain (Ne.symm h₀) hquote hback (fun h => hne (.inl h)) (fun h => hne (.inr h))
          (ih hs)

lemma stringBody_escapeLoop {s : List UInt8} (hs : OneLine s) : StringBody (escapeLoop s) s := by
  have hall : s.filter (fun c => !isLineBreak c) = s := by
    rw [List.filter_eq_self]
    intro c hc
    have hcr : c ≠ ch '\r' := fun h => hs.2.1 (h ▸ hc)
    have hlf : c ≠ ch '\n' := fun h => hs.2.2 (h ▸ hc)
    simpa [isLineBreak] using ⟨hcr, hlf⟩
  have hbody := stringBody_lines hs.1
  rwa [hall] at hbody

lemma white_nil : (tokens D).White [] := List.forall_mem_nil _

lemma white_singleton {c : UInt8} (hc : isSpace c) : (tokens D).White [c] :=
  List.forall_mem_singleton.mpr hc

lemma white_append {w w' : List UInt8} (hw : (tokens D).White w) (hw' : (tokens D).White w') :
    (tokens D).White (w ++ w') :=
  List.forall_mem_append.mpr ⟨hw, hw'⟩

/-- The elements, with the line break before them as `w` and what follows the last of them as
    `w'` -/
lemma strictElements_appendElements {l : List (Variant D)} {ind w' : List UInt8}
    (hind : (tokens D).White ind) (hw' : (tokens D).White w') (hne : l ≠ [])
    (hl : ∀ v ∈ l, StrictValue (tokens D) (appendVariant v ind) v) {w : List UInt8}
    (hw : (tokens D).White w) : StrictElements (tokens D) (w ++ appendElements l ind ++ w') l := by
  induction l generalizing w with
  | nil => exact absurd rfl hne
  | cons v l ih =>
    have hv := hl v List.mem_cons_self
    cases l with
    | nil =>
      have htext : w ++ appendElements [v] ind ++ w' =
          (w ++ ind) ++ appendVariant v ind ++ w' := by
        simp [appendElements]
      rw [htext]
      exact .last (white_append hw hind) hv hw'
    | cons u l =>
      have htext : w ++ appendElements (v :: u :: l) ind ++ w' = (w ++ ind) ++
          appendVariant v ind ++ [] ++ ch ',' :: ([ch '\n'] ++ appendElements (u :: l) ind ++ w') := by
        rw [appendElements]
        simp [bytes]
      rw [htext]
      exact .more (white_append hw hind) hv white_nil
        (ih (by simp) (fun x hx => hl x (List.mem_cons_of_mem v hx)) (white_singleton rfl))

/-- The entries, with the line break before them as `w` and what follows the last of them as `w'` -/
lemma strictMembers_appendEntries {m : List (List UInt8 × Variant D)} {ind w' : List UInt8}
    (hind : (tokens D).White ind) (hw' : (tokens D).White w') (hne : m ≠ [])
    (hk : ∀ e ∈ m, OneLine e.1)
    (hm : ∀ e ∈ m, StrictValue (tokens D) (appendVariant e.2 ind) e.2) {w : List UInt8}
    (hw : (tokens D).White w) : StrictMembers (tokens D) (w ++ appendEntries m ind ++ w') m := by
  have hspace : (tokens D).White [ch ' '] := white_singleton rfl
  induction m generalizing w with
  | nil => exact absurd rfl hne
  | cons e m ih =>
    obtain ⟨k, v⟩ := e
    have hv := hm (k, v) List.mem_cons_self
    have hb := stringBody_escapeLoop (hk (k, v) List.mem_cons_self)
    cases m with
    | nil =>
      have htext : w ++ appendEntries [(k, v)] ind ++ w' =
          (w ++ ind) ++ literalText (escapeLoop k) ++ [] ++
            ch ':' :: ([ch ' '] ++ appendVariant v ind ++ w') := by
        simp [appendEntries, appendEscapedString, literalText, bytes]
      rw [htext]
      exact .last (white_append hw hind) hb white_nil hspace hv hw'
    | cons f m =>
      have htext : w ++ appendEntries ((k, v) :: f :: m) ind ++ w' =
          (w ++ ind) ++ literalText (escapeLoop k) ++ [] ++ ch ':' :: ([ch ' '] ++
            appendVariant v ind ++ [] ++ ch ',' ::
              ([ch '\n'] ++ appendEntries (f :: m) ind ++ w')) := by
        rw [appendEntries]
        simp [appendEscapedString, literalText, bytes]
      rw [htext]
      exact .more (white_append hw hind) hb white_nil hspace hv white_nil
        (ih (by simp) (fun x hx => hk x (List.mem_cons_of_mem _ hx))
          (fun x hx => hm x (List.mem_cons_of_mem _ hx)) (white_singleton rfl))

/-- **What is written** for a plain value is a text of the grammar that stands for it. -/
theorem strictValue_appendVariant {v : Variant D} (hv : Plain v) {ind : List UInt8}
    (hind : (tokens D).White ind) : StrictValue (tokens D) (appendVariant v ind) v := by
  have hbreak : (tokens D).White [ch '\n'] := white_singleton rfl
  have htab : (tokens D).White [ch '\t'] := white_singleton rfl
  induction hv generalizing ind with
  | null => exact .scalar ⟨_, .null⟩
  | bool b =>
    cases b with
    | true => exact .scalar ⟨_, .true⟩
    | false => exact .scalar ⟨_, .false⟩
  | int n =>
    have hscalar : Scalar (intText n.toInt) (ch '#') (intVariant (D := D) n.toInt) :=
      scalar_intText (by have := n.le_toInt; omega) (by have := n.toInt_lt; omega)
    rw [intVariant_int] at hscalar
    exact .scalar ⟨_, hscalar⟩
  | @int64 n hn =>
    have hscalar : Scalar (intText n.toInt) (ch '#') (intVariant (D := D) n.toInt) :=
      scalar_intText n.le_toInt n.toInt_lt
    rw [intVariant_int64 hn] at hscalar
    exact .scalar ⟨_, hscalar⟩
  | string hs => exact .string (stringBody_escapeLoop hs)
  | @list l hl ih =>
    cases l with
    | nil => exact .emptyArray white_nil
    | cons v l =>
      have hind' := white_append hind htab
      have hinside := strictElements_appendElements hind' (white_append hbreak hind) (by simp)
        (fun u hu => ih u hu hind') hbreak
      have htext : appendVariant (.list (v :: l)) ind = ch '[' :: ([ch '\n'] ++
          appendElements (v :: l) (ind ++ [ch '\t']) ++ ([ch '\n'] ++ ind) ++ [ch ']']) := by
        rw [appendVariant]
        simp [bytes]
      rw [htext]
      exact .array hinside
  | @map m hdistinct hkeys hm ih =>
    cases m with
    | nil => exact .emptyObject white_nil
    | cons e m =>
      have hind' := white_append hind htab
      have hinside := strictMembers_appendEntries hind' (white_append hbreak hind) (by simp)
        hkeys (fun f hf => ih f hf hind') hbreak
      have htext : appendVariant (.map (e :: m)) ind = ch '\x7b' :: ([ch '\n'] ++
          appendEntries (e :: m) (ind ++ [ch '\t']) ++ ([ch '\n'] ++ ind) ++
            [ch '\x7d']) := by
        rw [appendVariant]
        simp [bytes]
      have hobject := StrictValue.object hinside
      rw [objectOf_nodup hdistinct] at hobject
      rw [htext]
      exact hobject

/-- **A plain value is read back** as it was written, and nothing of the text is left. -/
theorem round_trip {v : Variant D} (hv : Plain v) : ∃ (noNul : 0 ∉ toString v) (q : Private D),
    parse ⟨toString v, noNul⟩ .null = .ok (q, v) ∧ q.token.token = 0 ∧ q.pos.pos = [0] := by
  have htext : StrictText (tokens D) (toString v) v :=
    ⟨[], appendVariant v [], [ch '\n'], rfl, white_nil, strictValue_appendVariant hv white_nil,
      white_singleton rfl⟩
  exact parse_strictText tokens_byParser htext

theorem round_trip_list : ∃ (noNul : 0 ∉ toString (.list [.string [ch '"'], .map []] :
    Variant (List UInt8))) (q : Private (List UInt8)),
      parse ⟨toString (.list [.string [ch '"'], .map []]), noNul⟩ .null =
        .ok (q, .list [.string [ch '"'], .map []]) ∧ q.token.token = 0 ∧ q.pos.pos = [0] := by
  have hstring : Plain (.string [ch '"'] : Variant (List UInt8)) :=
    .string (by unfold OneLine; decide)
  have hmap : Plain (.map [] : Variant (List UInt8)) := .map (by simp) (by simp) (by simp)
  exact round_trip (.list (by simpa using ⟨hstring, hmap⟩))

end Nstd.Json
