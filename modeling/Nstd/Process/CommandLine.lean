import Mathlib.Logic.Relation
import Nstd.Core.Pieces
import Nstd.Process.Opening

/-!
# Splitting a command line

* `Cursor`, `step`, `splitCommandLine` — `Process::Private::splitCommandLine`, an iteration at a time.
* `startCommand` — `Process::start` with a command line.
* `Splits` — the loops end with a certain list.
* **`split_ends_iff`** — they end exactly if each backslash between quotes is in front of a quote;
  `backslash_stays`.
* `quoteWord`, `quoteLine` — words between quotes.
* **`quoted_words_iff`** — the words come back exactly if the last one is not empty; `empty_word_lost`.

A backslash between quotes that is in front of anything else is not passed, so the iteration leaves the
cursor where it was.
-/

namespace Nstd.Process

/-! ## The loops -/

/-- Where the loops are: in the inner one, which is between quotes, or in the outer one, at `p`, with
    an argument that is not finished and those that are -/
structure Cursor where
  quoted : Bool
  p : List UInt8
  arg : List UInt8
  command : List (List UInt8)
  deriving DecidableEq

/-- One iteration of the loop that the cursor is in; there is none at the NUL, where both loops end. -/
def step (s : Cursor) : Option Cursor :=
  match s.p with
  | [] => none
  | c :: p =>
    if s.quoted then
      if c = ch '"' then some { s with quoted := false, p }
      else if c = ch '\\' then
        -- without a quote behind it the backslash is not passed over
        if p.head? = some (ch '"') then some { s with p := p.tail, arg := s.arg ++ [ch '"'] }
        else some s
      else some { s with p, arg := s.arg ++ [c] }
    else if c = ch '"' then some { s with quoted := true, p }
    else if c = ch ' ' then some { s with p, arg := [], command := s.command ++ [s.arg] }
    else some { s with p, arg := s.arg ++ [c] }

/-- The cursor before the outer loop -/
def Cursor.start (commandLine : List UInt8) : Cursor := ⟨false, commandLine, [], []⟩

/-- What `splitCommandLine` does behind the loops -/
def finish (s : Cursor) : List (List UInt8) :=
  if s.arg ≠ [] then s.command ++ [s.arg] else s.command

/-- At most so many iterations, and the list if the loops end -/
def splitFrom : ℕ → Cursor → Option (List (List UInt8))
  | 0, _ => none
  | n + 1, s =>
    match step s with
    | none => some (finish s)
    | some s' => splitFrom n s'

/-- `splitCommandLine` -/
def splitCommandLine (n : ℕ) (commandLine : List UInt8) : Option (List (List UInt8)) :=
  splitFrom n (Cursor.start commandLine)

/-- `start(commandLine, environment)` -/
def startCommand (n : ℕ) (answers : Answers) (s : State) (commandLine : List UInt8)
    (environment : List (List UInt8 × List UInt8)) : Option (State × ℕ × Option Request) :=
  if s.pid ≠ 0 then some (s, 0, none)
  else do
    let command ← splitCommandLine n (chars commandLine)
    let command := if command = [] then [[]] else command
    let argv := command.map (fun arg => some (chars arg)) ++ [none]
    some (start answers s (command.headD []) argv environment)

/-! ## Iterations -/

variable (p arg : List UInt8) (command : List (List UInt8))

lemma step_end (quoted : Bool) : step ⟨quoted, [], arg, command⟩ = none := rfl

lemma step_open : step ⟨false, ch '"' :: p, arg, command⟩ = some ⟨true, p, arg, command⟩ := rfl

lemma step_space :
    step ⟨false, ch ' ' :: p, arg, command⟩ = some ⟨false, p, [], command ++ [arg]⟩ := rfl

lemma step_outside {c : UInt8} (hquote : c ≠ ch '"') (hspace : c ≠ ch ' ') :
    step ⟨false, c :: p, arg, command⟩ = some ⟨false, p, arg ++ [c], command⟩ := by
  simp [step, hquote, hspace]

lemma step_close : step ⟨true, ch '"' :: p, arg, command⟩ = some ⟨false, p, arg, command⟩ := rfl

lemma step_escaped : step ⟨true, ch '\\' :: ch '"' :: p, arg, command⟩
    = some ⟨true, p, arg ++ [ch '"'], command⟩ := rfl

lemma step_stays (h : p.head? ≠ some (ch '"')) : step ⟨true, ch '\\' :: p, arg, command⟩
    = some ⟨true, ch '\\' :: p, arg, command⟩ := by
  have hquote : ch '\\' ≠ ch '"' := by decide
  simp [step, hquote, h]

lemma step_inside {c : UInt8} (hquote : c ≠ ch '"') (hbackslash : c ≠ ch '\\') :
    step ⟨true, c :: p, arg, command⟩ = some ⟨true, p, arg ++ [c], command⟩ := by
  simp [step, hquote, hbackslash]

/-! ## The end of the loops -/

/-- The loops end with a list. -/
def Splits (s : Cursor) (command : List (List UInt8)) : Prop := ∃ n, splitFrom n s = some command

/-- The loops get from one place to another. -/
def Reaches : Cursor → Cursor → Prop := Relation.ReflTransGen fun s s' => step s = some s'

/-- Each backslash between quotes is in front of a quote. -/
def escapes : Bool → List UInt8 → Bool
  | _, [] => true
  | false, c :: p => escapes (c = ch '"') p
  | true, c :: p =>
    if c = ch '"' then escapes false p
    else if c = ch '\\' then
      match p with
      | [] => false
      | d :: p => d = ch '"' && escapes true p
    else escapes true p

lemma escapes_close : escapes true (ch '"' :: p) = escapes false p := by
  cases p <;> simp [escapes]

lemma escapes_backslash (d : UInt8) :
    escapes true (ch '\\' :: d :: p) = (d = ch '"' && escapes true p) := by
  have hquote : ch '\\' ≠ ch '"' := by decide
  simp [escapes, hquote]

lemma escapes_inside {c : UInt8} (hquote : c ≠ ch '"') (hbackslash : c ≠ ch '\\') :
    escapes true (c :: p) = escapes true p := by
  cases p <;> simp [escapes, hquote, hbackslash]

lemma Splits.of_end {s : Cursor} (h : step s = none) (command : List (List UInt8)) :
    Splits s command ↔ command = finish s := by
  constructor
  · rintro ⟨n, hn⟩
    cases n with
    | zero => exact nomatch hn
    | succ n =>
      rw [splitFrom, h] at hn
      exact (Option.some.inj hn).symm
  · rintro rfl
    exact ⟨1, by rw [splitFrom, h]⟩

lemma Splits.of_step {s s' : Cursor} (h : step s = some s') (command : List (List UInt8)) :
    Splits s command ↔ Splits s' command := by
  constructor
  · rintro ⟨n, hn⟩
    cases n with
    | zero => exact nomatch hn
    | succ n =>
      rw [splitFrom, h] at hn
      exact ⟨n, hn⟩
  · rintro ⟨n, hn⟩
    exact ⟨n + 1, by rw [splitFrom, h]; exact hn⟩

/-- A place that an iteration does not leave -/
lemma not_splits_of_stays {s : Cursor} (h : step s = some s) (command : List (List UInt8)) :
    ¬ Splits s command := by
  rintro ⟨n, hn⟩
  induction n with
  | zero => exact nomatch hn
  | succ n ih =>
    rw [splitFrom, h] at hn
    exact ih hn

/-- **An iteration** stays at a backslash that is not in front of a quote, or passes over something. -/
lemma step_cases (quoted : Bool) (c : UInt8) :
    (step ⟨quoted, c :: p, arg, command⟩ = some ⟨quoted, c :: p, arg, command⟩ ∧
      escapes quoted (c :: p) = false) ∨
    ∃ s', step ⟨quoted, c :: p, arg, command⟩ = some s' ∧ s'.p.length < (c :: p).length ∧
      escapes s'.quoted s'.p = escapes quoted (c :: p) := by
  cases quoted with
  | false =>
    right
    by_cases hquote : c = ch '"'
    · subst hquote
      exact ⟨_, step_open p arg command, Nat.lt_succ_self _, rfl⟩
    · have hescapes : escapes false p = escapes false (c :: p) := by simp [escapes, hquote]
      by_cases hspace : c = ch ' '
      · subst hspace
        exact ⟨_, step_space p arg command, Nat.lt_succ_self _, rfl⟩
      · exact ⟨_, step_outside p arg command hquote hspace, Nat.lt_succ_self _, hescapes⟩
  | true =>
    by_cases hquote : c = ch '"'
    · subst hquote
      exact Or.inr ⟨_, step_close p arg command, Nat.lt_succ_self _, (escapes_close p).symm⟩
    · by_cases hbackslash : c = ch '\\'
      · subst hbackslash
        rcases p with - | ⟨d, p⟩
        · exact Or.inl ⟨step_stays [] arg command (by simp), rfl⟩
        · by_cases hd : d = ch '"'
          · subst hd
            have hescapes : escapes true p = escapes true (ch '\\' :: ch '"' :: p) := by
              rw [escapes_backslash, decide_eq_true rfl, Bool.true_and]
            refine Or.inr ⟨_, step_escaped p arg command, ?_, hescapes⟩
            simp only [List.length_cons]
            omega
          · have hstop : escapes true (ch '\\' :: d :: p) = false := by
              rw [escapes_backslash, decide_eq_false hd, Bool.false_and]
            exact Or.inl ⟨step_stays (d :: p) arg command (by simpa using hd), hstop⟩
      · exact Or.inr ⟨_, step_inside p arg command hquote hbackslash, Nat.lt_succ_self _,
          (escapes_inside p hquote hbackslash).symm⟩

/-- The loops end if each backslash between quotes is in front of a quote. -/
lemma splits_of_escapes : ∀ {s : Cursor}, escapes s.quoted s.p = true → ∃ command, Splits s command := by
  intro s
  induction hn : s.p.length using Nat.strong_induction_on generalizing s with
  | _ n ih =>
    intro h
    rcases s with ⟨quoted, - | ⟨c, p⟩, arg, command⟩
    · exact ⟨_, (Splits.of_end (step_end arg command quoted) _).mpr rfl⟩
    · rcases step_cases p arg command quoted c with ⟨-, hstop⟩ | ⟨s', hstep, hlt, hsame⟩
      · exact absurd h (by simp [hstop])
      · obtain ⟨command', hsplits⟩ := ih _ (hn ▸ hlt) rfl (hsame.trans h)
        exact ⟨command', (Splits.of_step hstep command').mpr hsplits⟩

/-- If one is not, the loops get to it. -/
lemma stays_of_not_escapes : ∀ {s : Cursor}, escapes s.quoted s.p = false →
    ∃ s', Reaches s s' ∧ step s' = some s' := by
  intro s
  induction hn : s.p.length using Nat.strong_induction_on generalizing s with
  | _ n ih =>
    intro h
    rcases s with ⟨quoted, - | ⟨c, p⟩, arg, command⟩
    · cases quoted <;> exact nomatch h
    · rcases step_cases p arg command quoted c with ⟨hstays, -⟩ | ⟨s', hstep, hlt, hsame⟩
      · exact ⟨_, .refl, hstays⟩
      · obtain ⟨t, hreach, hstays⟩ := ih _ (hn ▸ hlt) rfl (hsame.trans h)
        exact ⟨t, .head hstep hreach, hstays⟩

lemma escapes_of_reaches {s t : Cursor} (h : escapes s.quoted s.p = true) (ht : Reaches s t) :
    escapes t.quoted t.p = true := by
  induction ht with
  | refl => exact h
  | @tail t u _ hstep ih =>
    rcases t with ⟨quoted, - | ⟨c, p⟩, arg, command⟩
    · exact nomatch hstep
    · rcases step_cases p arg command quoted c with ⟨-, hstop⟩ | ⟨s', hstep', -, hsame⟩
      · exact absurd ih (by simp [hstop])
      · obtain rfl := Option.some.inj (hstep.symm.trans hstep')
        exact hsame.trans ih

/-- **The loops end**, and each iteration passes over something, exactly if each backslash between
    quotes is in front of a quote. -/
theorem split_ends_iff (commandLine : CString) :
    ((∃ n command, splitCommandLine n commandLine.bytes = some command) ∧
      ∀ s s', Reaches (Cursor.start commandLine.bytes) s → step s = some s' →
        s'.p.length < s.p.length) ↔
    escapes false commandLine.bytes = true := by
  constructor
  · rintro ⟨-, hless⟩
    by_contra h
    obtain ⟨s, hreach, hstays⟩ := @stays_of_not_escapes (Cursor.start commandLine.bytes)
      (Bool.eq_false_iff.mpr h)
    exact absurd (hless s s hreach hstays) (Nat.lt_irrefl _)
  · intro h
    refine ⟨?_, fun s s' hreach hstep => ?_⟩
    · obtain ⟨command, n, hn⟩ := @splits_of_escapes (Cursor.start commandLine.bytes) h
      exact ⟨n, command, hn⟩
    · have hs := @escapes_of_reaches (Cursor.start commandLine.bytes) s h hreach
      rcases s with ⟨quoted, - | ⟨c, p⟩, arg, command⟩
      · exact nomatch hstep
      · rcases step_cases p arg command quoted c with ⟨-, hstop⟩ | ⟨t, hstep', hlt, -⟩
        · exact absurd hs (by simp [hstop])
        · obtain rfl := Option.some.inj (hstep.symm.trans hstep')
          exact hlt

/-- The command line `"a\b"`, with its quotes -/
def openBackslash : CString := ⟨bytes "\"a\\b\"", by decide⟩

/-- The inner loop stays at a backslash. -/
theorem backslash_stays : ¬ ∀ commandLine : CString,
    (∃ n command, splitCommandLine n commandLine.bytes = some command) ∧
      ∀ s s', Reaches (Cursor.start commandLine.bytes) s → step s = some s' →
        s'.p.length < s.p.length := by
  intro h
  obtain ⟨n, command, hn⟩ := (h openBackslash).1
  have hopen : step (Cursor.start openBackslash.bytes) = some ⟨true, bytes "a\\b\"", [], []⟩ := by
    decide
  have hinside : step ⟨true, bytes "a\\b\"", [], []⟩ = some ⟨true, bytes "\\b\"", [ch 'a'], []⟩ := by
    decide
  have hsplits : Splits ⟨true, bytes "\\b\"", [ch 'a'], []⟩ command :=
    (Splits.of_step hinside command).mp ((Splits.of_step hopen command).mp ⟨n, hn⟩)
  exact not_splits_of_stays (by decide) command hsplits

/-! ## Words between quotes -/

/-- A character as it is written between quotes -/
def escapeQuote (c : UInt8) : List UInt8 := if c = ch '"' then [ch '\\', ch '"'] else [c]

/-- A word between quotes -/
def quoteWord (word : List UInt8) : List UInt8 :=
  ch '"' :: (word.flatMap escapeQuote ++ [ch '"'])

/-- The words between quotes, with spaces between them -/
def quoteLine (words : List (List UInt8)) : List UInt8 := [ch ' '].intercalate (words.map quoteWord)

/-- The words that are found again -/
def kept (words : List (List UInt8)) : List (List UInt8) :=
  if words.getLast? = some [] then words.dropLast else words

/-- A word without zeros and backslashes -/
def Plain (word : List UInt8) : Prop := ∀ c ∈ word, c ≠ 0 ∧ c ≠ ch '\\'

instance (word : List UInt8) : Decidable (Plain word) :=
  inferInstanceAs (Decidable (∀ c ∈ word, c ≠ 0 ∧ c ≠ ch '\\'))

/-- The rest of a word, up to its closing quote, is added to the argument. -/
lemma splits_inside {word : List UInt8} (hword : Plain word) (arg : List UInt8)
    (result : List (List UInt8)) :
    Splits ⟨true, word.flatMap escapeQuote ++ ch '"' :: p, arg, command⟩ result ↔
      Splits ⟨false, p, arg ++ word, command⟩ result := by
  induction word generalizing arg with
  | nil => rw [List.append_nil]; exact Splits.of_step (step_close p arg command) result
  | cons c word ih =>
    have ih := ih (fun d hd => hword d (List.mem_cons_of_mem c hd)) (arg ++ [c])
    rw [List.append_assoc, List.singleton_append] at ih
    rw [List.flatMap_cons, List.append_assoc, ← ih, escapeQuote]
    split_ifs with hquote
    · subst hquote
      exact Splits.of_step (step_escaped _ arg command) result
    · exact Splits.of_step
        (step_inside _ arg command hquote (hword c List.mem_cons_self).2) result

/-- A word between quotes is added to the argument. -/
lemma splits_word {word : List UInt8} (hword : Plain word) (result : List (List UInt8)) :
    Splits ⟨false, quoteWord word ++ p, arg, command⟩ result ↔
      Splits ⟨false, p, arg ++ word, command⟩ result := by
  rw [quoteWord, List.cons_append, List.append_assoc, List.singleton_append,
    Splits.of_step (step_open _ arg command) result, splits_inside p command hword]

/-- **The words** are found again, apart from an empty one at the end. -/
lemma splits_words {words : List (List UInt8)} (hne : words ≠ []) (hwords : ∀ w ∈ words, Plain w)
    (result : List (List UInt8)) :
    Splits ⟨false, quoteLine words, [], command⟩ result ↔ result = command ++ kept words := by
  induction words generalizing command with
  | nil => exact absurd rfl hne
  | cons word words ih =>
    have hword := hwords word List.mem_cons_self
    cases words with
    | nil =>
      have hline : quoteLine [word] = quoteWord word ++ [] := by
        rw [quoteLine, List.map_singleton, List.intercalate_singleton, List.append_nil]
      rw [hline, splits_word [] [] command hword, List.nil_append,
        Splits.of_end (step_end word command false), finish, kept]
      by_cases hempty : word = [] <;> simp [hempty]
    | cons word' words =>
      have ih := ih (command ++ [word]) (List.cons_ne_nil word' words)
        fun w hw => hwords w (List.mem_cons_of_mem word hw)
      have hline : quoteLine (word :: word' :: words)
          = quoteWord word ++ ch ' ' :: quoteLine (word' :: words) := by
        rw [quoteLine, List.map_cons, List.map_cons, List.intercalate_cons_cons]
        simp [quoteLine]
      have hkept : kept (word :: word' :: words) = word :: kept (word' :: words) := by
        rw [kept, kept, List.getLast?_cons_cons, List.dropLast_cons_cons]
        split_ifs <;> rfl
      rw [hline, splits_word _ [] command hword, List.nil_append,
        Splits.of_step (step_space _ word command), ih, hkept, List.append_assoc,
        List.singleton_append]

lemma ne_zero_of_mem_quoteLine {words : List (List UInt8)} (hwords : ∀ w ∈ words, Plain w) :
    ∀ c ∈ quoteLine words, c ≠ 0 := by
  intro c hc
  rcases Pieces.mem_intercalate hc with rfl | ⟨l, hl, hc⟩
  · decide
  · obtain ⟨word, hword, rfl⟩ := List.mem_map.mp hl
    rw [quoteWord, List.mem_cons, List.mem_append, List.mem_flatMap, List.mem_singleton] at hc
    rcases hc with rfl | ⟨d, hd, hc⟩ | rfl
    · decide
    · rw [escapeQuote] at hc
      split_ifs at hc
      · rcases List.mem_cons.mp hc with rfl | hc
        · decide
        · rw [List.mem_singleton.mp hc]
          decide
      · rw [List.mem_singleton.mp hc]
        exact (hwords word hword d hd).1
    · decide

/-- The strings of an array of arguments -/
lemma strings_append_none (words : List (List UInt8)) :
    strings (words.map (fun word => some (chars word)) ++ [none]) = words.map chars := by
  induction words with
  | nil => rfl
  | cons word words ih => rw [List.map_cons, List.cons_append, strings, ih, List.map_cons]

/-- The arguments of the program that is started are those that are given. -/
lemma argv_start {answers : Answers} {s : State} {program : List UInt8} {words : List (List UInt8)}
    {environment : List (List UInt8 × List UInt8)} {r : Request}
    (h : (start answers s program (words.map (fun word => some (chars word)) ++ [none])
      environment).2.2 = some r) : r.argv = words.map chars := by
  rw [start] at h
  split_ifs at h
  cases hchild : answers.vfork with
  | none => rw [hchild] at h; exact nomatch h
  | some pid =>
    rw [hchild] at h
    obtain rfl := Option.some.inj h
    rw [request, prepareArgs, if_pos (by simp)]
    exact strings_append_none words

lemma chars_of_plain {word : List UInt8} (h : ∀ c ∈ word, c ≠ 0) : chars word = word :=
  List.takeWhile_eq_self_iff.mpr fun c hc => decide_eq_true (h c hc)

/-- **The words** are found again, and the program that is started has them as its arguments, exactly
    if the last one is not empty. -/
theorem quoted_words_iff (answers : Answers) (s : State) (environment : List (List UInt8 × List UInt8))
    {words : List (List UInt8)} (hne : words ≠ []) (hwords : ∀ word ∈ words, Plain word) :
    (∃ n, splitCommandLine n (quoteLine words) = some words ∧
      ∃ o, startCommand n answers s (quoteLine words) environment = some o ∧
        ∀ r, o.2.2 = some r → r.argv = words) ↔
    words.getLast? ≠ some [] := by
  constructor
  · rintro ⟨n, hn, -⟩ hlast
    have hkept : words = kept words := (splits_words [] hne hwords words).mp ⟨n, hn⟩
    rw [kept, if_pos hlast] at hkept
    have hlength := congrArg List.length hkept
    rw [List.length_dropLast] at hlength
    have hpos := List.length_pos_iff.mpr hne
    omega
  · intro hlast
    have hkept : kept words = words := if_neg hlast
    obtain ⟨n, hn⟩ := (splits_words [] hne hwords words).mpr hkept.symm
    have hsplit : splitCommandLine n (quoteLine words) = some words := hn
    have hwhole : chars (quoteLine words) = quoteLine words :=
      chars_of_plain (ne_zero_of_mem_quoteLine hwords)
    have hchars : words.map chars = words :=
      (List.map_congr_left fun word hword => chars_of_plain fun c hc => (hwords word hword c hc).1).trans
        (List.map_id words)
    refine ⟨n, hsplit, ?_⟩
    rw [startCommand]
    split_ifs with hpid
    · exact ⟨_, rfl, fun r hr => nomatch hr⟩
    · rw [hwhole, hsplit]
      refine ⟨_, rfl, fun r hr => ?_⟩
      rw [if_neg hne] at hr
      exact (argv_start hr).trans hchars

/-- `sh -c "a b"` -/
def shell : List (List UInt8) := [bytes "sh", bytes "-c", bytes "\"a b\""]

theorem quoted_words_iff_shell :
    (∃ n, splitCommandLine n (quoteLine shell) = some shell ∧
      ∃ o, startCommand n bare ⟨0, 0, 0, 0⟩ (quoteLine shell) [] = some o ∧
        ∀ r, o.2.2 = some r → r.argv = shell) ↔
    shell.getLast? ≠ some [] :=
  quoted_words_iff bare ⟨0, 0, 0, 0⟩ [] (by decide) (forall_mem_of_all (by decide +kernel))

/-- An empty word at the end is lost. -/
theorem empty_word_lost : ¬ ∀ (answers : Answers) (s : State)
    (environment : List (List UInt8 × List UInt8)) (words : List (List UInt8)), words ≠ [] →
    (∀ word ∈ words, Plain word) →
    ∃ n, splitCommandLine n (quoteLine words) = some words ∧
      ∃ o, startCommand n answers s (quoteLine words) environment = some o ∧
        ∀ r, o.2.2 = some r → r.argv = words := by
  intro h
  have hplain : ∀ word ∈ [bytes "a", []], Plain word :=
    forall_mem_of_all (by decide +kernel)
  obtain ⟨n, hn, -⟩ := h bare ⟨0, 0, 0, 0⟩ [] [bytes "a", []] (by decide) hplain
  have hkept := (splits_words [] (by decide) hplain _).mp ⟨n, hn⟩
  exact absurd hkept (by decide)

end Nstd.Process
