import Nstd.Core.Wildcards
import Nstd.Document.VariantEqual

/-!
# The pattern of `Directory::read`

Which names match the pattern, where the system has no function for it.

* `szWildMatch7`, `passes` — the code.
* `wildcards`, `Same` — the pattern, and which characters are the same in it.
* `At`, `Found` — where the loop is, and what it will answer from there.
* `matchFrom_spec` — it does.
* **`szWildMatch7_iff`** — the name matches when it is in the language of the pattern.

A pointer is the memory from there on, which ends behind the terminator.

When a character does not match, the loop goes back to the last star and to no earlier one.  Nothing is
lost by that: what an earlier star could take besides, the last one can.
-/

namespace Nstd.WildMatch

open VariantEqual (toLowerCase)
open Wildcard (Matches Plain)

/-- `while (*p == '*') ++p` -/
def skipStars : List UInt8 → Option (List UInt8)
  | [] => none
  | c :: p => if c = ch '*' then skipStars p else some (c :: p)

/-- The loop of `szWildMatch7` -/
def matchFrom : ℕ → List UInt8 → List UInt8 → Bool → List UInt8 → List UInt8 → Option Bool
  | 0, _, _, _, _, _ => none
  | fuel + 1, pat, str, star, s, p => do
    let c ← s.head?
    if c = 0 then do
      let p ← skipStars p
      let d ← p.head?
      some (d = 0)
    else do
      let d ← p.head?
      if d = ch '?' then matchFrom fuel pat str star s.tail p.tail
      else if d = ch '*' then do
        let pat ← skipStars p.tail
        let d ← pat.head?
        if d = 0 then some true else matchFrom fuel pat s true s pat
      else if toLowerCase c ≠ toLowerCase d then
        -- starCheck
        if star then matchFrom fuel pat str.tail star str.tail pat else some false
      else matchFrom fuel pat str star s.tail p.tail

/-- `szWildMatch7`, whose loop is run `fuel` times at most -/
def szWildMatch7 (fuel : ℕ) (pat str : List UInt8) : Option Bool :=
  matchFrom fuel pat str false str pat

/-- Whether `Directory::read` returns a name -/
def passes (fuel : ℕ) (pattern str : List UInt8) : Option Bool := do
  let c ← pattern.head?
  if c = 0 then some true else szWildMatch7 fuel pattern str

section Equations

variable {pat str s p : List UInt8} {star : Bool} {c d : UInt8} {fuel : ℕ}

lemma matchFrom_end : matchFrom (fuel + 1) pat str star (0 :: s) p
    = (skipStars p).bind fun p => p.head?.bind fun d => some (decide (d = 0)) := by
  rw [matchFrom, List.head?_cons]
  rfl

lemma matchFrom_star (hc : c ≠ 0) :
    matchFrom (fuel + 1) pat str star (c :: s) (ch '*' :: p)
      = (skipStars p).bind fun pat => pat.head?.bind fun d =>
        if d = 0 then some true else matchFrom fuel pat (c :: s) true (c :: s) pat := by
  rw [matchFrom, List.head?_cons, List.head?_cons]
  dsimp only [bind, Option.bind, List.tail_cons]
  rw [if_neg hc, if_neg (by decide), if_pos rfl]

lemma matchFrom_same (hc : c ≠ 0) (hstar : d ≠ ch '*')
    (hsame : d = ch '?' ∨ toLowerCase c = toLowerCase d) :
    matchFrom (fuel + 1) pat str star (c :: s) (d :: p) = matchFrom fuel pat str star s p := by
  rw [matchFrom, List.head?_cons, List.head?_cons, List.tail_cons, List.tail_cons]
  dsimp only [bind, Option.bind]
  rw [if_neg hc, if_neg hstar]
  rcases hsame with hone | hsame
  · rw [if_pos hone]
  · rw [if_neg (not_not.mpr hsame), ite_self]

lemma matchFrom_other (hc : c ≠ 0) (hone : d ≠ ch '?') (hstar : d ≠ ch '*')
    (hother : toLowerCase c ≠ toLowerCase d) :
    matchFrom (fuel + 1) pat str star (c :: s) (d :: p)
      = if star then matchFrom fuel pat str.tail star str.tail pat else some false := by
  rw [matchFrom, List.head?_cons, List.head?_cons]
  dsimp only [bind, Option.bind]
  rw [if_neg hc, if_neg hone, if_neg hstar, if_pos hother]

end Equations

/-! ## The language -/

/-- A character of a pattern -/
def wildcard (c : UInt8) : Wildcard UInt8 :=
  if c = ch '?' then .one else if c = ch '*' then .any else .char c

/-- A pattern -/
def wildcards (pattern : List UInt8) : List (Wildcard UInt8) := pattern.map wildcard

/-- Characters are compared without case. -/
def Same (d c : UInt8) : Prop := toLowerCase d = toLowerCase c

/-- A name is in the language of a pattern. -/
def InLanguage (pattern str : List UInt8) : Prop := Matches Same (wildcards pattern) str

/-- Only the terminator is the same as the terminator. -/
lemma toLowerCase_ne_zero : ∀ {c : UInt8}, c ≠ 0 → toLowerCase c ≠ toLowerCase 0 :=
  forall_byte (p := fun c => c ≠ 0 → toLowerCase c ≠ toLowerCase 0) (by decide +kernel) _

/-- The part of a pattern behind the stars that are in front -/
def behindStars (p : List UInt8) : List UInt8 := p.dropWhile (· = ch '*')

variable {pat str s p : List UInt8} {star : Bool} {c d : UInt8}

lemma behindStars_star (p : List UInt8) : behindStars (ch '*' :: p) = behindStars p :=
  List.dropWhile_cons_of_pos (decide_eq_true rfl)

lemma behindStars_other (hd : d ≠ ch '*') (p : List UInt8) : behindStars (d :: p) = d :: p :=
  List.dropWhile_cons_of_neg (by simpa using hd)

lemma inLanguage_any : InLanguage (ch '*' :: p) s ↔ Matches Same (.any :: wildcards p) s := by
  rfl

/-- Stars are skipped behind a star. -/
lemma inLanguage_stars : InLanguage (ch '*' :: p) s ↔ InLanguage (ch '*' :: behindStars p) s := by
  induction p with
  | nil => rfl
  | cons d p ih =>
    by_cases hd : d = ch '*'
    · subst hd
      rw [behindStars_star, ← ih]
      exact Wildcard.matches_any_any
    · rw [behindStars_other hd]

/-- A pattern of stars stands for a name without characters. -/
lemma inLanguage_nil : InLanguage p [] ↔ behindStars p = [] := by
  induction p with
  | nil => simp [InLanguage, wildcards, behindStars]
  | cons d p ih =>
    by_cases hd : d = ch '*'
    · subst hd
      rw [behindStars_star, ← ih, inLanguage_any, Wildcard.matches_any_iff]
      simp [InLanguage]
    · rw [behindStars_other hd]
      by_cases hone : d = ch '?' <;> simp [InLanguage, wildcards, wildcard, hd, hone]

lemma skipStars_eq (hp : 0 ∉ p) : skipStars (p ++ [0]) = some (behindStars p ++ [0]) := by
  induction p with
  | nil => rfl
  | cons d p ih =>
    rw [List.mem_cons, not_or] at hp
    rw [List.cons_append, skipStars]
    split_ifs with hd
    · rw [ih hp.2, hd, behindStars_star]
    · rw [behindStars_other hd, List.cons_append]

/-! ## The loop -/

/-- **Where the loop is**: in front of `p` is a part of the pattern without a star, and as much of
    the name is in front of `s`. -/
structure At (pat str s p : List UInt8) : Prop where
  pattern : 0 ∉ pat
  name : 0 ∉ str
  place : ∃ front passed, pat = front ++ p ∧ str = passed ++ s ∧ passed.length = front.length
    ∧ Plain (wildcards front)

/-- **What the loop will answer**: the rest of the pattern matches the rest of the name, or, behind
    a star, the pattern from there on matches a later part of the name. -/
def Found (pat str : List UInt8) (star : Bool) (s p : List UInt8) : Prop :=
  InLanguage p s ∨ star = true ∧ ∃ later, later <:+ str ∧ later ≠ str ∧ InLanguage pat later

/-- The loop begins. -/
lemma At.start (hpat : 0 ∉ pat) (hstr : 0 ∉ str) : At pat str str pat :=
  ⟨hpat, hstr, [], [], rfl, rfl, rfl, List.not_mem_nil⟩

/-- A character of the pattern that is no star was found. -/
lemma At.next (h : At pat str (c :: s) (d :: p)) (hd : d ≠ ch '*') : At pat str s p := by
  obtain ⟨front, passed, hpat, hstr, hlen, hplain⟩ := h.place
  refine ⟨h.pattern, h.name, front ++ [d], passed ++ [c], by simp [hpat], by simp [hstr],
    by simp [hlen], ?_⟩
  have hwildcard : wildcard d ≠ .any := by
    rw [wildcard]
    split_ifs <;> simp
  rw [wildcards, List.map_append, Plain, List.mem_append, not_or]
  exact ⟨hplain, by simpa using Ne.symm hwildcard⟩

/-- The name has ended: behind a star there is no later part of it that is long enough. -/
lemma At.found_nil (h : At pat str [] p) : Found pat str star [] p ↔ InLanguage p [] := by
  obtain ⟨front, passed, hpat, hstr, hlen, hplain⟩ := h.place
  constructor
  · rintro (hfound | ⟨-, later, hlater, hne, hmatches⟩)
    · exact hfound
    · have hlt : later.length < passed.length := by
        rw [hstr, List.append_nil] at hlater hne
        exact Nat.lt_of_le_of_ne hlater.length_le fun heq => hne (hlater.eq_of_length heq)
      rw [hpat, InLanguage, wildcards, List.map_append] at hmatches
      exact absurd hmatches (hplain.tooShort (by rw [wildcards, List.length_map, hlen]) hlt)
  · exact .inl

/-- The next star was reached: the ones before it do not matter any more. -/
lemma At.found_star (h : At pat str s (ch '*' :: p)) :
    Found pat str star s (ch '*' :: p) ↔ InLanguage (ch '*' :: p) s := by
  obtain ⟨front, passed, hpat, hstr, hlen, hplain⟩ := h.place
  constructor
  · rintro (hfound | ⟨-, later, hlater, -, hmatches⟩)
    · exact hfound
    · rw [hstr] at hlater
      rw [hpat, InLanguage, wildcards, List.map_append] at hmatches
      exact hplain.restart (by rw [wildcards, List.length_map, hlen]) hlater hmatches
  · exact .inl

/-- Behind a star, the rest of the name is tried first, and then later parts of it. -/
lemma found_behind_star : Found p s true s p ↔ InLanguage (ch '*' :: p) s := by
  rw [inLanguage_any, Wildcard.matches_any_iff]
  constructor
  · rintro (hfound | ⟨-, later, hlater, -, hmatches⟩)
    · exact ⟨s, List.suffix_rfl, hfound⟩
    · exact ⟨later, hlater, hmatches⟩
  · rintro ⟨rest, hrest, hmatches⟩
    by_cases hsame : rest = s
    · exact .inl (hsame ▸ hmatches)
    · exact .inr ⟨rfl, rest, hrest, hsame, hmatches⟩

/-- A character of the pattern does not match: the next part of the name is tried. -/
lemma found_later (h : ¬ InLanguage p s) :
    Found pat (c :: str) true s p ↔ Found pat str true str pat := by
  constructor
  · rintro (hfound | ⟨-, later, hlater, hne, hmatches⟩)
    · exact absurd hfound h
    · rcases List.suffix_cons_iff.mp hlater with heq | hlater
      · exact absurd heq hne
      · by_cases hsame : later = str
        · exact .inl (hsame ▸ hmatches)
        · exact .inr ⟨rfl, later, hlater, hsame, hmatches⟩
  · have hne : ∀ {later : List UInt8}, later <:+ str → later ≠ c :: str := by
      rintro later hlater rfl
      have hle := hlater.length_le
      rw [List.length_cons] at hle
      omega
    rintro (hfound | ⟨-, later, hlater, -, hmatches⟩)
    · exact .inr ⟨rfl, str, List.suffix_cons c str, hne List.suffix_rfl, hfound⟩
    · exact .inr ⟨rfl, later, hlater.trans (List.suffix_cons c str), hne hlater, hmatches⟩

/-- A character that is no star: it matches, and the rest does. -/
lemma inLanguage_cons (hstar : d ≠ ch '*') :
    InLanguage (d :: p) (c :: s) ↔ (d = ch '?' ∨ toLowerCase c = toLowerCase d) ∧ InLanguage p s := by
  by_cases hone : d = ch '?'
  · subst hone
    rw [InLanguage, wildcards, List.map_cons]
    exact Wildcard.matches_one_cons.trans (by simp [InLanguage, wildcards])
  · have hchar : wildcard d = .char d := by rw [wildcard, if_neg hone, if_neg hstar]
    rw [InLanguage, wildcards, List.map_cons, hchar, Wildcard.matches_char_cons, Same]
    simp [hone, eq_comm, InLanguage, wildcards]

/-- The loop ends when it has been run so many times. -/
def rounds (n : ℕ) (pat str s : List UInt8) : ℕ :=
  pat.length * ((n + 1) * (n + 1)) + str.length * (n + 1) + s.length + 1

/-- What a pointer points at -/
lemma head_memory (hp : 0 ∉ p) : ∃ d, (p ++ [0]).head? = some d ∧ (d = 0 ↔ p = []) := by
  cases p with
  | nil => exact ⟨0, rfl, by simp⟩
  | cons d p =>
    rw [List.mem_cons, not_or] at hp
    exact ⟨d, rfl, by simp [Ne.symm hp.1]⟩

lemma behindStars_suffix (p : List UInt8) : behindStars p <:+ p := List.dropWhile_suffix _

section Rounds

variable {n : ℕ}

lemma rounds_next (n : ℕ) (pat str : List UInt8) (c : UInt8) (s : List UInt8) :
    rounds n pat str s + 1 = rounds n pat str (c :: s) := by
  rw [rounds, rounds, List.length_cons]
  omega

lemma rounds_later (hn : (c :: str).length ≤ n) (pat s : List UInt8) :
    rounds n pat str str + 1 ≤ rounds n pat (c :: str) s := by
  have hmul := Nat.add_one_mul str.length (n + 1)
  rw [List.length_cons] at hn
  rw [rounds, rounds, List.length_cons]
  omega

lemma rounds_star (hp : p.length < pat.length) (hs : s.length ≤ str.length) (hn : str.length ≤ n) :
    rounds n p s s + 1 ≤ rounds n pat str s := by
  have hpat : (p.length + 1) * ((n + 1) * (n + 1)) ≤ pat.length * ((n + 1) * (n + 1)) :=
    Nat.mul_le_mul_right _ hp
  have hname : s.length * (n + 1) ≤ n * (n + 1) := Nat.mul_le_mul_right _ (Nat.le_trans hs hn)
  have hsplit := Nat.add_one_mul p.length ((n + 1) * (n + 1))
  have hsquare := Nat.add_one_mul n (n + 1)
  rw [rounds, rounds]
  omega

end Rounds

/-- **The loop answers** what it should, and reads nothing behind a terminator. -/
lemma matchFrom_spec {fuel n : ℕ} (h : At pat str s p) (hn : str.length ≤ n)
    (hfuel : rounds n pat str s ≤ fuel) :
    ∃ found, matchFrom fuel (pat ++ [0]) (str ++ [0]) star (s ++ [0]) (p ++ [0]) = some found
      ∧ (found = true ↔ Found pat str star s p) := by
  induction fuel generalizing pat str s p star with
  | zero => exact absurd hfuel (Nat.not_succ_le_zero _)
  | succ fuel ih =>
    obtain ⟨front, passed, hpat, hstr, hlen, hplain⟩ := h.place
    have hp : 0 ∉ p := fun hmem => h.pattern (hpat ▸ List.mem_append_right front hmem)
    have hs : 0 ∉ s := fun hmem => h.name (hstr ▸ List.mem_append_right passed hmem)
    have hshort : s.length ≤ str.length := by
      rw [hstr, List.length_append]
      exact Nat.le_add_left _ _
    cases s with
    | nil =>
      have hbehind : 0 ∉ behindStars p := fun hmem => hp ((behindStars_suffix p).mem hmem)
      obtain ⟨d, hd, hzero⟩ := head_memory hbehind
      refine ⟨decide (d = 0), ?_, ?_⟩
      · rw [List.nil_append, matchFrom_end, skipStars_eq hp, Option.bind_some, hd,
          Option.bind_some]
      · rw [decide_eq_true_iff, hzero, h.found_nil, inLanguage_nil]
    | cons c s =>
      rw [List.mem_cons, not_or] at hs
      have hc : c ≠ 0 := Ne.symm hs.1
      -- a character of the pattern does not match
      have hother : ∀ d q, p ++ [0] = d :: q → d ≠ ch '?' → d ≠ ch '*' →
          toLowerCase c ≠ toLowerCase d → ¬ InLanguage p (c :: s) →
          ∃ found, matchFrom (fuel + 1) (pat ++ [0]) (str ++ [0]) star (c :: s ++ [0]) (p ++ [0])
            = some found ∧ (found = true ↔ Found pat str star (c :: s) p) := by
        intro d q hq hone hstar hother hmatches
        rw [hq, List.cons_append, matchFrom_other hc hone hstar hother]
        cases star with
        | false => exact ⟨false, rfl, by simp [Found, hmatches]⟩
        | true =>
          cases str with
          | nil => simp at hshort
          | cons e str =>
            have hrounds := rounds_later hn pat (c :: s)
            have hname : 0 ∉ str := fun hmem => h.name (List.mem_cons_of_mem e hmem)
            rw [found_later hmatches]
            exact ih (.start h.pattern hname) (Nat.le_of_succ_le hn) (by omega)
      cases p with
      | nil =>
        exact hother 0 [] rfl (by decide) (by decide) (toLowerCase_ne_zero hc)
          (by simp [InLanguage, wildcards])
      | cons d p =>
        rw [List.mem_cons, not_or] at hp
        by_cases hstar : d = ch '*'
        · subst hstar
          have hbehind : 0 ∉ behindStars p := fun hmem =>
            hp.2 ((behindStars_suffix p).mem hmem)
          have hless : (behindStars p).length < pat.length := by
            have hle := (behindStars_suffix p).length_le
            rw [hpat, List.length_append, List.length_cons]
            omega
          have hrounds := rounds_star hless hshort hn
          obtain ⟨e, he, hzero⟩ := head_memory hbehind
          rw [h.found_star, inLanguage_stars, List.cons_append, List.cons_append,
            matchFrom_star hc, skipStars_eq hp.2, Option.bind_some, he, Option.bind_some]
          by_cases hend : e = 0
          · rw [if_pos hend, hzero.mp hend]
            exact ⟨true, rfl, iff_of_true rfl Wildcard.matches_any_nil⟩
          · rw [if_neg hend, ← found_behind_star]
            exact ih (.start hbehind (by simp [hs.2, Ne.symm hc])) (Nat.le_trans hshort hn)
              (by omega)
        · by_cases hsame : d = ch '?' ∨ toLowerCase c = toLowerCase d
          · rw [List.cons_append, List.cons_append, matchFrom_same hc hstar hsame, Found,
              inLanguage_cons hstar, and_iff_right hsame]
            exact ih (h.next hstar) hn (by rw [← rounds_next] at hfuel; omega)
          · rw [not_or] at hsame
            exact hother d (p ++ [0]) rfl hsame.1 hstar hsame.2 fun hmatches =>
              absurd ((inLanguage_cons hstar).mp hmatches).1 (by simp [hsame])

/-- **`szWildMatch7`** ends, reads neither the pattern nor the name behind its terminator, and
    finds that the name matches when it is in the language of the pattern. -/
theorem szWildMatch7_iff (pat str : CString) :
    ∃ found, (∀ fuel, rounds str.bytes.length pat.bytes str.bytes str.bytes ≤ fuel →
        szWildMatch7 fuel (pat.bytes ++ [0]) (str.bytes ++ [0]) = some found)
      ∧ (found = true ↔ InLanguage pat.bytes str.bytes) := by
  have hspec : ∀ fuel, rounds str.bytes.length pat.bytes str.bytes str.bytes ≤ fuel →
      ∃ found, szWildMatch7 fuel (pat.bytes ++ [0]) (str.bytes ++ [0]) = some found
        ∧ (found = true ↔ InLanguage pat.bytes str.bytes) := by
    intro fuel hfuel
    obtain ⟨found, hfound, hiff⟩ : ∃ found,
        szWildMatch7 fuel (pat.bytes ++ [0]) (str.bytes ++ [0]) = some found
          ∧ (found = true ↔ Found pat.bytes str.bytes false str.bytes pat.bytes) :=
      matchFrom_spec (.start pat.noNul str.noNul) (Nat.le_refl _) hfuel
    exact ⟨found, hfound, hiff.trans (by simp [Found])⟩
  obtain ⟨found, -, hiff⟩ := hspec _ (Nat.le_refl _)
  refine ⟨found, fun fuel hfuel => ?_, hiff⟩
  obtain ⟨found', hfound', hiff'⟩ := hspec fuel hfuel
  rw [hfound', Bool.eq_iff_iff.mpr (hiff'.trans hiff.symm)]

/-- **What `Directory::read` returns**: every name if there is no pattern, else those that match. -/
theorem passes_iff (pattern str : CString) {fuel : ℕ}
    (hfuel : rounds str.bytes.length pattern.bytes str.bytes str.bytes ≤ fuel) :
    ∃ found, passes fuel (pattern.bytes ++ [0]) (str.bytes ++ [0]) = some found
      ∧ (found = true ↔ pattern.bytes = [] ∨ InLanguage pattern.bytes str.bytes) := by
  obtain ⟨c, hc, hzero⟩ := head_memory pattern.noNul
  rw [passes, hc, Option.bind_eq_bind, Option.bind_some]
  by_cases hempty : c = 0
  · rw [if_pos hempty]
    exact ⟨true, rfl, iff_of_true rfl (.inl (hzero.mp hempty))⟩
  · rw [if_neg hempty]
    obtain ⟨found, hfound, hiff⟩ : ∃ found,
        szWildMatch7 fuel (pattern.bytes ++ [0]) (str.bytes ++ [0]) = some found
          ∧ (found = true ↔ Found pattern.bytes str.bytes false str.bytes pattern.bytes) :=
      matchFrom_spec (.start pattern.noNul str.noNul) (Nat.le_refl _) hfuel
    refine ⟨found, hfound, hiff.trans ?_⟩
    simp [Found, mt hzero.mpr hempty]

end Nstd.WildMatch
