import Mathlib.Data.List.Basic

/-!
# Bytes of a text

* `ch` — the byte of a character, so that a model can be read next to its source.
* `CString` — a text up to, and without, its NUL terminator.
* `isSpace`, `isDigit`, `isHexDigit`, `findOneOf` — the functions of `String` that scanners use.
* `findOneOf_cases` — what is found is the first one.
-/

namespace Nstd

/-- The byte of an ASCII character -/
def ch (c : Char) : UInt8 := UInt8.ofNat c.toNat

/-- The bytes of an ASCII string -/
def bytes (s : String) : List UInt8 := s.toList.map ch

/-- What holds of all bytes can be tried out. -/
lemma forall_byte {p : UInt8 → Prop} (h : ∀ i : Fin 256, p (UInt8.ofFin i)) (c : UInt8) : p c :=
  h c.toFin

/-- What holds of the members of a list can be tried out. -/
lemma forall_mem_of_all {α : Type} {p : α → Prop} [DecidablePred p] {l : List α}
    (h : (l.all fun a => p a) = true) : ∀ a ∈ l, p a := by
  simpa using h

/-- The bytes before the terminator of a text -/
structure CString where
  bytes : List UInt8
  noNul : 0 ∉ bytes

/-- `String::isSpace` -/
def isSpace (c : UInt8) : Bool := (9 ≤ c ∧ c ≤ 13) ∨ c = 32

/-- `String::isDigit` -/
def isDigit (c : UInt8) : Bool := ch '0' ≤ c ∧ c ≤ ch '9'

/-- `String::isHexDigit` -/
def isHexDigit (c : UInt8) : Bool :=
  isDigit c ∨ (ch 'a' ≤ c ∧ c ≤ ch 'f') ∨ (ch 'A' ≤ c ∧ c ≤ ch 'F')

/-- `String::findOneOf`: the rest of the text from the first byte on that is one of `chars` -/
def findOneOf {α : Type} (byte : α → UInt8) (chars : List UInt8) : List α → Option (List α)
  | [] => none
  | c :: s => if byte c ∈ chars then some (c :: s) else findOneOf byte chars s

/-! ## Searching -/

section

variable {α : Type} {byte : α → UInt8} {chars : List UInt8} {s e : List α}

lemma length_findOneOf (h : findOneOf byte chars s = some e) : e.length ≤ s.length := by
  induction s with
  | nil => exact nomatch h
  | cons c s ih =>
    rw [findOneOf] at h
    split at h
    · obtain rfl := Option.some_inj.mp h
      exact Nat.le_refl _
    · exact Nat.le_succ_of_le (ih h)

lemma findOneOf_ne_nil (h : findOneOf byte chars s = some e) : e ≠ [] := by
  induction s with
  | nil => exact nomatch h
  | cons c s ih =>
    rw [findOneOf] at h
    split at h
    · obtain rfl := Option.some_inj.mp h
      exact List.cons_ne_nil c s
    · exact ih h

end

lemma findOneOf_append {chars p s : List UInt8} {c : UInt8} (hp : ∀ d ∈ p, d ∉ chars)
    (hc : c ∈ chars) : findOneOf id chars (p ++ c :: s) = some (c :: s) := by
  induction p with
  | nil => rw [List.nil_append, findOneOf, id, if_pos hc]
  | cons d p ih =>
    rw [List.cons_append, findOneOf, id, if_neg (hp d List.mem_cons_self),
      ih fun e he => hp e (List.mem_cons_of_mem d he)]

lemma findOneOf_cases (chars s : List UInt8) :
    (∃ b e c, s = b ++ c :: e ∧ (∀ d ∈ b, d ∉ chars) ∧ c ∈ chars ∧
      findOneOf id chars s = some (c :: e)) ∨
    (findOneOf id chars s = none ∧ ∀ d ∈ s, d ∉ chars) := by
  induction s with
  | nil => exact Or.inr ⟨rfl, fun d hd => absurd hd List.not_mem_nil⟩
  | cons c s ih =>
    by_cases hc : c ∈ chars
    · exact Or.inl ⟨[], s, c, rfl, by simp, hc, by rw [findOneOf, id, if_pos hc]⟩
    · rw [findOneOf, id, if_neg hc]
      rcases ih with ⟨b, e, d, rfl, hb, hd, hfind⟩ | ⟨hnone, hs⟩
      · refine Or.inl ⟨c :: b, e, d, rfl, ?_, hd, hfind⟩
        simpa using ⟨hc, hb⟩
      · exact Or.inr ⟨hnone, List.forall_mem_cons.mpr ⟨hc, hs⟩⟩

end Nstd
