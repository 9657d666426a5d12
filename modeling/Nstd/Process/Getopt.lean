import Mathlib.Tactic.SplitIfs
import Nstd.Process.Arguments

/-!
# What `Process::Arguments` is for

* `Position` — what there is to be read yet.
* `getNext` — the next result, and what there is to be read after it.
* `State.position` — what a call of `read` begins with.
* `Agrees` — a call of `read` returns the next result, and the call after it begins where it should.
* `getLetter_cluster`, `getNext_cluster`, `getNext_argv`, … — what is left to be read after a result.
-/

namespace Nstd.Arguments

/-- What there is to be read: letters of an element that was begun, and elements -/
structure Position where
  cluster : Text
  argv : List Text
  skipOpt : Bool

/-- The argument of an option is the next element. -/
def separate (p : Position) (character : ℤ) (option : List UInt8) : Position × Option Result :=
  match p.argv with
  | arg :: argv => ({ p with argv }, some ⟨character, arg.bytes⟩)
  | [] => (p, some ⟨char (ch ':'), option⟩)

/-- A letter has to have an argument. -/
def NeedsArgument (options : List ProcessOption) (c : Letter) : Prop :=
  ∃ opt ∈ letterOption options (char c), opt.needsArgument

/-- A letter, and what follows in its element -/
def getLetter (options : List ProcessOption) (p : Position) (c : Letter) (rest : Text) :
    Position × Option Result :=
  match letterOption options (char c) with
  | some opt =>
    if opt.needsArgument then
      if rest.isEmpty then separate { p with cluster := [] } (char c) [ch '-', c]
      else ({ p with cluster := [] }, some ⟨char c, rest.bytes⟩)
    else ({ p with cluster := rest }, some ⟨char c, []⟩)
  | none => ({ p with cluster := rest }, some ⟨char (ch '?'), [ch '-', c]⟩)

/-- `name` of `name=value` -/
def longName (arg : Text) : Text := arg.takeWhile fun c => c.1 ≠ ch '='

/-- `value` of `name=value` -/
def longValue (arg : Text) : Option Text :=
  match arg.dropWhile fun c => c.1 ≠ ch '=' with
  | [] => none
  | _ :: value => some value

/-- The option of a name -/
def longOption (options : List ProcessOption) (name : Text) : Option ProcessOption :=
  options.find? fun opt => opt.name = some name

/-- What follows `--` in an element -/
def getLong (options : List ProcessOption) (p : Position) (arg : Text) : Position × Option Result :=
  match longOption options (longName arg) with
  | none => (p, some ⟨char (ch '?'), bytes "--" ++ arg.bytes⟩)
  | some opt =>
    if opt.flags &&& argumentFlag = 0 then (p, some ⟨opt.character, []⟩)
    else
      match longValue arg with
      | some value => (p, some ⟨opt.character, value.bytes⟩)
      | none =>
        if opt.flags &&& optionalFlag = 0 then
          separate p opt.character (bytes "--" ++ (longName arg).bytes)
        else (p, some ⟨opt.character, []⟩)

/-- An element -/
def getElement (options : List ProcessOption) (p : Position) (arg : Text) : Position × Option Result :=
  if p.skipOpt || deref arg ≠ ch '-' then (p, some ⟨0, arg.bytes⟩)
  else
    match arg.tail with
    | [] => (p, some ⟨0, arg.bytes⟩)
    | d :: rest =>
      if d.1 = ch '-' then
        if rest.isEmpty then
          match p.argv with
          | [] => ({ p with skipOpt := true }, none)
          | arg :: argv => ({ p with argv, skipOpt := true }, some ⟨0, arg.bytes⟩)
        else getLong options p rest
      else getLetter options p d rest

/-- **The next result**, and what there is to be read after it -/
def getNext (options : List ProcessOption) (p : Position) : Position × Option Result :=
  match p.cluster, p.argv with
  | c :: rest, _ => getLetter options p c rest
  | [], arg :: argv => getElement options { p with argv } arg
  | [], [] => (p, none)

/-- The results of a command line -/
def getopt (options : List ProcessOption) (argv : List Text) : System Position Result where
  initial p := p = ⟨[], argv.tail, false⟩
  step p results p' := ∃ result, getNext options p = (p', result) ∧ results = result.toList

/-- What `read` begins with.  In the middle of an element it leaves a byte out, and then goes on with
    letters, or as if an element began there. -/
def State.position (s : State) : Option Position :=
  match s.arg, s.inOpt with
  | none, _ => none
  | some [], _ => some ⟨[], s.argv, s.skipOpt⟩
  | some (c :: arg), true => some ⟨c :: arg, s.argv, s.skipOpt⟩
  | some (_ :: arg), false => some ⟨[], arg :: s.argv, s.skipOpt⟩

/-- A call has this result, and the call after it begins with what there is to be read then. -/
def Returns (outcome : Option (State × Option Result)) (next : Position × Option Result) : Prop :=
  ∃ s', outcome = some (s', next.2) ∧ s'.position = some next.1

/-- **A call of `read`** returns the next result, and leaves to be read what there is after it. -/
def Agrees (options : List ProcessOption) (s : State) (p : Position) : Prop :=
  Returns (read options s) (getNext options p)

/-- The next element is a long option: `--` and `arg`. -/
def Position.AtLong (p : Position) (arg : Text) (argv : List Text) : Prop :=
  p.cluster = [] ∧ p.skipOpt = false ∧ arg ≠ []
    ∧ ∃ c d : Letter, c.1 = ch '-' ∧ d.1 = ch '-' ∧ p.argv = (c :: d :: arg) :: argv

/-- The next element is `-` and letters, of which `c` is the first. -/
def Position.AtLetters (p : Position) (c : Letter) (rest : Text) : Prop :=
  p.cluster = [] ∧ p.skipOpt = false
    ∧ ∃ (d : Letter) (argv : List Text), d.1 = ch '-' ∧ c.1 ≠ ch '-' ∧ p.argv = (d :: c :: rest) :: argv

/-- A long option has a value, but its option takes no argument. -/
def Superfluous (options : List ProcessOption) (arg : Text) : Prop :=
  ∃ opt ∈ longOption options (longName arg), opt.flags &&& argumentFlag = 0 ∧
    ∃ value ∈ longValue arg, value ≠ []

/-- **The next element** has a single letter, or one with an argument first, if it has letters, and no
    superfluous value, if it is a long option. -/
def Position.Fits (options : List ProcessOption) (p : Position) : Prop :=
  (∀ c rest, p.AtLetters c rest → rest = [] ∨ NeedsArgument options c)
    ∧ ∀ arg argv, p.AtLong arg argv → ¬ Superfluous options arg

/-! ## What is left to be read -/

lemma separate_cluster (p : Position) (character : ℤ) (option : List UInt8) :
    (separate p character option).1.cluster = p.cluster := by
  rw [separate]
  split
  · rfl
  · rfl

lemma getLong_cluster (options : List ProcessOption) (p : Position) (arg : Text) :
    (getLong options p arg).1.cluster = p.cluster := by
  rw [getLong]
  split
  · rfl
  · split_ifs
    · rfl
    · split
      · rfl
      · exact separate_cluster ..
    · split
      · rfl
      · rfl

/-- A letter without an argument leaves the letters after it to be read. -/
lemma getLetter_cluster (options : List ProcessOption) (p : Position) (c : Letter) (rest : Text) :
    (getLetter options p c rest).1.cluster = [] ↔ rest = [] ∨ NeedsArgument options c := by
  rw [getLetter, NeedsArgument]
  cases letterOption options (char c) with
  | none => simp
  | some opt =>
    dsimp only
    by_cases hneeds : opt.needsArgument = true
    · rw [if_pos hneeds]
      refine iff_of_true ?_ (Or.inr ⟨opt, rfl, hneeds⟩)
      split_ifs
      · exact separate_cluster ..
      · rfl
    · rw [if_neg hneeds]
      simp [hneeds]

/-- **After an element** another one is next, just when there is no letter left. -/
lemma getNext_cluster (options : List ProcessOption) {p : Position} (hcluster : p.cluster = []) :
    (getNext options p).1.cluster = []
      ↔ ∀ c rest, p.AtLetters c rest → rest = [] ∨ NeedsArgument options c := by
  obtain ⟨cluster, argv, skipOpt⟩ := p
  obtain rfl : cluster = [] := hcluster
  cases argv with
  | nil =>
    refine iff_of_true rfl ?_
    rintro c rest ⟨-, -, d, argv, -, -, hargv⟩
    exact absurd hargv.symm (List.cons_ne_nil _ _)
  | cons arg argv =>
    change (getElement options ⟨[], argv, skipOpt⟩ arg).1.cluster = [] ↔ _
    have hletters : ∀ c rest, (⟨[], arg :: argv, skipOpt⟩ : Position).AtLetters c rest →
        skipOpt = false ∧ c.1 ≠ ch '-' ∧ ∃ d : Letter, d.1 = ch '-' ∧ arg = d :: c :: rest := by
      rintro c rest ⟨-, hskip, d, argv', hd, hc, hargv⟩
      exact ⟨hskip, hc, d, hd, (List.cons.inj hargv).1⟩
    rw [getElement]
    split_ifs with htext
    · refine iff_of_true rfl fun c rest hat => ?_
      obtain ⟨rfl, -, d, hd, rfl⟩ := hletters c rest hat
      simp [deref, hd] at htext
    · simp only [Bool.or_eq_true, not_or, Bool.not_eq_true, decide_eq_false_iff_not, not_not]
        at htext
      obtain ⟨rfl, hminus⟩ := htext
      rcases arg with _ | ⟨c, _ | ⟨d, rest⟩⟩
      · exact absurd hminus (by decide)
      · refine iff_of_true rfl fun c' rest hat => ?_
        obtain ⟨-, -, d, -, harg⟩ := hletters c' rest hat
        exact absurd (congrArg List.length harg) (by simp)
      · rw [List.tail_cons]
        dsimp only
        by_cases hd : d.1 = ch '-'
        · rw [if_pos hd]
          refine iff_of_true ?_ fun c' rest' hat => ?_
          · split_ifs
            · cases argv with
              | nil => rfl
              | cons arg argv => rfl
            · exact getLong_cluster ..
          · obtain ⟨-, hc', d', -, harg⟩ := hletters c' rest' hat
            obtain ⟨rfl, -⟩ := List.cons.inj (List.cons.inj harg).2
            exact absurd hd hc'
        · rw [if_neg hd, getLetter_cluster]
          refine ⟨fun hrest c' rest' hat => ?_, fun hrest => ?_⟩
          · obtain ⟨-, -, d', -, harg⟩ := hletters c' rest' hat
            obtain ⟨rfl, rfl⟩ := List.cons.inj (List.cons.inj harg).2
            exact hrest
          · exact hrest d rest ⟨rfl, rfl, c, argv, hminus, hd, rfl⟩

lemma separate_argv (p : Position) (character : ℤ) (option : List UInt8) :
    (separate p character option).1.argv <:+ p.argv := by
  obtain ⟨cluster, argv, skipOpt⟩ := p
  cases argv with
  | nil => exact List.suffix_refl _
  | cons arg argv => exact List.suffix_cons arg argv

lemma getLetter_argv (options : List ProcessOption) (p : Position) (c : Letter) (rest : Text) :
    (getLetter options p c rest).1.argv <:+ p.argv := by
  rw [getLetter]
  split
  · split_ifs
    · exact separate_argv ..
    · exact List.suffix_refl _
    · exact List.suffix_refl _
  · exact List.suffix_refl _

lemma getLong_argv (options : List ProcessOption) (p : Position) (arg : Text) :
    (getLong options p arg).1.argv <:+ p.argv := by
  rw [getLong]
  split
  · exact List.suffix_refl _
  · split_ifs
    · exact List.suffix_refl _
    · split
      · exact List.suffix_refl _
      · exact separate_argv ..
    · split
      · exact List.suffix_refl _
      · exact List.suffix_refl _

/-- What there is to be read becomes less, element by element. -/
lemma getNext_argv (options : List ProcessOption) (p : Position) :
    (getNext options p).1.argv <:+ p.argv := by
  obtain ⟨_ | ⟨c, rest⟩, argv, skipOpt⟩ := p
  · cases argv with
    | nil => exact List.suffix_refl _
    | cons arg argv =>
      refine List.IsSuffix.trans ?_ (List.suffix_cons arg argv)
      change (getElement options ⟨[], argv, skipOpt⟩ arg).1.argv <:+ argv
      rw [getElement]
      split_ifs
      · exact List.suffix_refl _
      · rcases arg with _ | ⟨c, _ | ⟨d, rest⟩⟩
        · exact List.suffix_refl _
        · exact List.suffix_refl _
        · rw [List.tail_cons]
          dsimp only
          split_ifs
          · cases argv with
            | nil => exact List.suffix_refl _
            | cons arg argv => exact List.suffix_cons arg argv
          · exact getLong_argv ..
          · exact getLetter_argv ..
  · exact getLetter_argv ..

/-- A long option comes next. -/
lemma getNext_long (options : List ProcessOption) {p : Position} {arg : Text} {rest : List Text}
    (h : p.AtLong arg rest) : getNext options p = getLong options ⟨[], rest, false⟩ arg := by
  obtain ⟨cluster, argv, skipOpt⟩ := p
  obtain ⟨rfl, rfl, hne, c, d, hc, hd, rfl⟩ := h
  have hskip : ¬ (false || deref (c :: d :: arg) ≠ ch '-') = true := by simp [deref, hc]
  change getElement options ⟨[], rest, false⟩ (c :: d :: arg) = _
  rw [getElement, if_neg hskip, List.tail_cons]
  dsimp only
  rw [if_pos hd, if_neg (by simpa using hne)]

/-- How many bytes a letter leaves to be read in its element, and how many it reports -/
def weight (next : Position × Option Result) : ℕ :=
  next.1.cluster.length + next.2.elim 0 fun result => result.argument.length

/-- A letter reports or leaves what follows it, and maybe itself, or takes an element. -/
lemma getLetter_weight (options : List ProcessOption) (p : Position) (c : Letter) (rest : Text) :
    (getLetter options p c rest).1.argv = p.argv
        ∧ (weight (getLetter options p c rest) = rest.length
          ∨ weight (getLetter options p c rest) = rest.length + 2)
      ∨ rest = [] ∧ (getLetter options p c rest).1.argv.length < p.argv.length := by
  rw [getLetter]
  cases letterOption options (char c) with
  | none => exact Or.inl ⟨rfl, Or.inr rfl⟩
  | some opt =>
    dsimp only
    by_cases hneeds : opt.needsArgument = true
    · rw [if_pos hneeds]
      cases rest with
      | nil =>
        rw [List.isEmpty_nil, if_pos rfl, separate]
        cases hargv : p.argv with
        | nil => exact Or.inl ⟨rfl, Or.inr rfl⟩
        | cons arg argv => exact Or.inr ⟨rfl, Nat.lt_succ_self _⟩
      | cons d rest =>
        refine Or.inl ⟨rfl, Or.inl ?_⟩
        simp [weight, Text.bytes]
    · rw [if_neg hneeds]
      exact Or.inl ⟨rfl, Or.inl rfl⟩

end Nstd.Arguments
