import Mathlib.Tactic.ByContra
import Nstd.Process.Getopt

/-!
# Reading a command line with `Process::Arguments`

* `find_named` — the name of a long option is found in the table.
* `readLetter_returns`, `readLong_returns`, `readOption_returns` — the branches of `read`.
* `agrees_of_cluster`, `not_agrees_of_cluster` — when a call of `read` agrees.
* **`short_options`**, **`long_options`** — the same along runs.
* `letter_left_out`, `value_reported` — command lines that are not read as they should be.
-/

namespace Nstd.Arguments

/-! ## Names of long options -/

lemma deref_eq_zero {s : Text} : deref s = 0 ↔ s = [] := by
  cases s with
  | nil => simp [deref]
  | cons c s => simp [deref, c.2]

/-- **`compare`** and the look at the end of the name find the name that is there. -/
lemma compare_eq_zero {name arg : Text} {len : ℕ} (h : len ≤ arg.length) :
    compare name arg len = 0 ∧ deref (name.drop len) = 0 ↔ name = arg.take len := by
  induction len generalizing name arg with
  | zero => simp [compare, deref_eq_zero]
  | succ len ih =>
    obtain ⟨c, arg, rfl⟩ := List.exists_cons_of_length_pos (Nat.lt_of_lt_of_le len.succ_pos h)
    have hc : c.1.toNat ≠ 0 := fun hz => c.2 (UInt8.toNat_inj.mp hz)
    cases name with
    | nil => simp [compare, deref, hc]
    | cons d name =>
      by_cases hd : d = c
      · subst hd
        have hne : ¬ (deref (d :: name) = 0 ∨ deref (d :: name) ≠ deref (d :: arg)) := by
          simp [deref, d.2]
        rw [compare, if_neg hne]
        have hrest : compare name arg len = 0 ∧ deref (name.drop len) = 0 ↔ name = arg.take len :=
          ih (Nat.le_of_succ_le_succ h)
        simpa using hrest
      · have hvalue : d.1 ≠ c.1 := fun heq => hd (Subtype.ext heq)
        have hnat : d.1.toNat ≠ c.1.toNat := fun heq => hvalue (UInt8.toNat_inj.mp heq)
        have hdiff : (d.1.toNat : ℤ) - c.1.toNat ≠ 0 := by omega
        have hpos : deref (d :: name) = 0 ∨ deref (d :: name) ≠ deref (c :: arg) :=
          Or.inr hvalue
        rw [compare, if_pos hpos]
        simp [deref, hdiff, hd]

/-- Where `find` finds a byte, the text is split. -/
lemma find_cases (c : UInt8) (arg : Text) :
    find c arg = none ∧ arg.takeWhile (fun d => d.1 ≠ c) = arg
        ∧ arg.dropWhile (fun d => d.1 ≠ c) = []
      ∨ ∃ d value, find c arg = some (d :: value)
        ∧ arg = arg.takeWhile (fun d => d.1 ≠ c) ++ d :: value
        ∧ arg.dropWhile (fun d => d.1 ≠ c) = d :: value := by
  induction arg with
  | nil => exact Or.inl ⟨rfl, rfl, rfl⟩
  | cons d arg ih =>
    by_cases hd : d.1 = c
    · exact Or.inr ⟨d, arg, by simp [find, hd], by simp [hd], by simp [hd]⟩
    · rcases ih with ⟨hfind, htake, hdrop⟩ | ⟨e, value, hfind, hsplit, hdrop⟩
      · refine Or.inl ⟨by rw [find, if_neg hd, hfind], ?_, ?_⟩
        · rw [List.takeWhile_cons_of_pos (by simpa using hd), htake]
        · rw [List.dropWhile_cons_of_pos (by simpa using hd), hdrop]
      · refine Or.inr ⟨e, value, by rw [find, if_neg hd, hfind], ?_, ?_⟩
        · rw [List.takeWhile_cons_of_pos (by simpa using hd), List.cons_append, ← hsplit]
        · rw [List.dropWhile_cons_of_pos (by simpa using hd), hdrop]

/-- A name in the table is the one that was given. -/
lemma find_named (options : List ProcessOption) {arg name : Text} {len : ℕ}
    (hlen : len ≤ arg.length) (hname : arg.take len = name) :
    (options.find? fun opt => opt.named arg len) = longOption options name := by
  have hsame : (fun opt : ProcessOption => opt.named arg len)
      = fun opt => decide (opt.name = some name) := by
    funext opt
    rw [Bool.eq_iff_iff, ProcessOption.named, decide_eq_true_iff]
    cases opt.name with
    | none => simp
    | some n =>
      rw [decide_eq_true_iff, compare_eq_zero hlen, hname, Option.some_inj]
  rw [longOption, hsame]

/-! ## Positions -/

/-- At the end of a text the next element comes next. -/
@[simp] lemma position_end (argv : List Text) (inOpt skipOpt : Bool) :
    State.position ⟨argv, some [], inOpt, skipOpt⟩ = some ⟨[], argv, skipOpt⟩ := rfl

/-- Between letters the next letter comes next. -/
@[simp] lemma position_inOpt (argv : List Text) (arg : Text) (skipOpt : Bool) :
    State.position ⟨argv, some arg, true, skipOpt⟩ = some ⟨arg, argv, skipOpt⟩ := by
  cases arg with
  | nil => rfl
  | cons c arg => rfl

/-- What `nextChar` arrives at when no element was begun -/
lemma nextChar_position {s : State} {p : Position} (hp : s.position = some p)
    (hcluster : p.cluster = []) :
    p.argv = [] ∧ nextChar s = some (s, false)
      ∨ ∃ arg argv, p.argv = arg :: argv
        ∧ nextChar s = some (⟨argv, some arg, false, p.skipOpt⟩, true) := by
  obtain ⟨argv, arg, inOpt, skipOpt⟩ := s
  rcases arg with _ | _ | ⟨c, arg⟩
  · exact absurd hp.symm (Option.some_ne_none p)
  · obtain rfl := Option.some_inj.mp hp
    cases argv with
    | nil => exact Or.inl ⟨rfl, rfl⟩
    | cons arg argv => exact Or.inr ⟨arg, argv, rfl, rfl⟩
  · cases inOpt with
    | true =>
      obtain rfl := Option.some_inj.mp hp
      exact absurd hcluster (List.cons_ne_nil c arg)
    | false =>
      obtain rfl := Option.some_inj.mp hp
      exact Or.inr ⟨arg, argv, rfl, rfl⟩

/-- A state in the middle of letters -/
lemma position_cluster {s : State} {c : Letter} {rest : Text} {argv : List Text} {skipOpt : Bool}
    (hp : s.position = some ⟨c :: rest, argv, skipOpt⟩) :
    s = ⟨argv, some (c :: rest), true, skipOpt⟩ := by
  obtain ⟨argv', arg, inOpt, skipOpt'⟩ := s
  rcases arg with _ | _ | ⟨d, arg⟩
  · exact absurd hp.symm (Option.some_ne_none _)
  · exact absurd (congrArg Position.cluster (Option.some_inj.mp hp)) (List.cons_ne_nil c rest).symm
  · cases inOpt with
    | true =>
      obtain ⟨hcluster, rfl, rfl⟩ := Position.mk.inj (Option.some_inj.mp hp)
      rw [hcluster]
    | false =>
      exact absurd (congrArg Position.cluster (Option.some_inj.mp hp))
        (List.cons_ne_nil c rest).symm

/-! ## One call of `read` -/

/-- The next element is an argument. -/
lemma separate_returns (argv : List Text) (inOpt skipOpt : Bool) (character : ℤ) (option : List UInt8) :
    Returns (do
        let (s, more) ← nextChar ⟨argv, some [], inOpt, skipOpt⟩
        if more then attach s character
        else some (s, some ⟨char (ch ':'), option⟩))
      (separate ⟨[], argv, skipOpt⟩ character option) := by
  cases argv with
  | nil => exact ⟨_, rfl, rfl⟩
  | cons arg argv => exact ⟨_, rfl, rfl⟩

/-- **A letter** is read as it should be. -/
lemma readLetter_returns (options : List ProcessOption) (argv : List Text) (arg : Option Text)
    (skipOpt : Bool) (cluster : Text) (c : Letter) (rest : Text) :
    Returns (readLetter options ⟨argv, arg, true, skipOpt⟩ (c :: rest))
      (getLetter options ⟨cluster, argv, skipOpt⟩ c rest) := by
  simp only [readLetter, getLetter, deref]
  cases letterOption options (char c) with
  | none => exact ⟨_, rfl, position_inOpt ..⟩
  | some opt =>
    dsimp only
    by_cases hneeds : opt.needsArgument = true
    · rw [if_pos hneeds, if_pos hneeds]
      cases rest with
      | nil => exact separate_returns argv true skipOpt (char c) [ch '-', c]
      | cons d rest => exact ⟨_, rfl, rfl⟩
    · rw [if_neg hneeds, if_neg hneeds]
      exact ⟨_, rfl, position_inOpt ..⟩

/-- **The NUL of an element** is no letter. -/
lemma readLetter_nil (options : List ProcessOption) (s : State) (next : Position × Option Result) :
    ¬ Returns (readLetter options s []) next := by
  rintro ⟨s', hread, hposition⟩
  rw [readLetter] at hread
  have hpast : ∀ result, some (({ s with arg := none } : State), result) = some (s', next.2) →
      False := by
    intro result hsome
    rw [← (Prod.mk.inj (Option.some_inj.mp hsome)).1] at hposition
    exact absurd hposition.symm (Option.some_ne_none _)
  dsimp only at hread
  split at hread
  · split_ifs at hread
    · exact absurd hread.symm (Option.some_ne_none _)
    · exact hpast _ hread
  · exact hpast _ hread

/-- A long option without a value is read as it should be. -/
lemma readLong_noValue (options : List ProcessOption) (argv : List Text) (old : Option Text)
    {arg : Text} (hfind : find (ch '=') arg = none) (hname : longName arg = arg)
    (hvalue : longValue arg = none) :
    Returns (readLong options ⟨argv, old, false, false⟩ arg)
      (getLong options ⟨[], argv, false⟩ arg) := by
  have hnamed := find_named options (Nat.le_refl arg.length) List.take_length
  simp only [readLong, getLong, hfind, hnamed, hname, hvalue, List.take_length,
    Option.isSome_none, Bool.false_eq_true, if_false, List.drop_length]
  cases longOption options arg with
  | none => exact ⟨_, rfl, rfl⟩
  | some opt =>
    dsimp only
    by_cases hflag : opt.flags &&& argumentFlag = 0
    · rw [if_neg (not_not.mpr hflag), if_pos hflag]
      exact ⟨_, rfl, rfl⟩
    · rw [if_pos hflag, if_neg hflag]
      by_cases hoptional : opt.flags &&& optionalFlag = 0
      · rw [if_pos hoptional, if_pos hoptional]
        exact separate_returns argv false false opt.character _
      · rw [if_neg hoptional, if_neg hoptional]
        exact ⟨_, rfl, rfl⟩

/-- A text that is left over would be read as another element. -/
lemma position_left (argv : List Text) (value : Text) :
    State.position ⟨argv, some value, false, false⟩ = some ⟨[], argv, false⟩ ↔ value = [] := by
  cases value with
  | nil => simp
  | cons c value =>
    simp only [State.position, Option.some_inj, Position.mk.injEq, true_and, and_true, reduceCtorEq,
      iff_false]
    exact fun h => absurd (congrArg List.length h) (by simp)

/-- A long option with a value is read as it should be, unless the value is superfluous. -/
lemma readLong_value (options : List ProcessOption) (argv : List Text) (old : Option Text)
    {arg name value : Text} {d : Letter} (hfind : find (ch '=') arg = some (d :: value))
    (hname : longName arg = name) (hsplit : arg = name ++ d :: value)
    (hvalue : longValue arg = some value) :
    Returns (readLong options ⟨argv, old, false, false⟩ arg)
      (getLong options ⟨[], argv, false⟩ arg) ↔ ¬ Superfluous options arg := by
  have hlength : arg.length = name.length + (value.length + 1) := by
    rw [hsplit, List.length_append, List.length_cons]
  have hlen : arg.length - (d :: value).length = name.length := by
    rw [List.length_cons]
    omega
  have hdrop : arg.drop (name.length + 1) = value := by
    rw [hsplit, List.drop_append, List.drop_of_length_le (Nat.le_succ _), Nat.add_sub_cancel_left]
    rfl
  have htake : arg.take name.length = name := by rw [hsplit, List.take_left]
  have hnamed := find_named options (show name.length ≤ arg.length by omega) htake
  simp only [readLong, getLong, Superfluous, hfind, hlen, hnamed, hname, hvalue,
    Option.isSome_some, if_true, hdrop]
  cases longOption options name with
  | none => exact iff_of_true ⟨_, rfl, rfl⟩ (by simp)
  | some opt =>
    dsimp only
    by_cases hflag : opt.flags &&& argumentFlag = 0
    · rw [if_neg (not_not.mpr hflag), if_pos hflag]
      have hleft : (∃ opt' ∈ some opt, opt'.flags &&& argumentFlag = 0 ∧
          ∃ value' ∈ some value, value' ≠ []) ↔ value ≠ [] := by
        simp [hflag]
      rw [hleft, not_not, ← position_left argv value]
      refine ⟨?_, fun hposition => ⟨_, rfl, hposition⟩⟩
      rintro ⟨s', hs', hposition⟩
      rw [← (Prod.mk.inj (Option.some_inj.mp hs')).1] at hposition
      exact hposition
    · rw [if_pos hflag, if_neg hflag]
      refine iff_of_true ⟨_, rfl, rfl⟩ ?_
      rintro ⟨opt', hmem, hzero, -⟩
      exact hflag (Option.some_inj.mp hmem ▸ hzero)

/-- **A long option** is read as it should be, just when it has no value that it does not take. -/
lemma readLong_returns (options : List ProcessOption) (argv : List Text) (old : Option Text)
    (arg : Text) :
    Returns (readLong options ⟨argv, old, false, false⟩ arg)
      (getLong options ⟨[], argv, false⟩ arg) ↔ ¬ Superfluous options arg := by
  rcases find_cases (ch '=') arg with ⟨hfind, hname, hdrop⟩ | ⟨d, value, hfind, hsplit, hdrop⟩
  · have hvalue : longValue arg = none := by rw [longValue, hdrop]
    refine iff_of_true (readLong_noValue options argv old hfind hname hvalue) ?_
    rintro ⟨opt, -, -, value, hmem, -⟩
    rw [hvalue] at hmem
    exact absurd hmem (Option.not_mem_none value)
  · have hvalue : longValue arg = some value := by rw [longValue, hdrop]
    exact readLong_value options argv old hfind rfl hsplit hvalue

/-- A text that is no option -/
lemma readRest_returns (options : List ProcessOption) (argv : List Text) (arg : Text) (skipOpt : Bool) :
    Returns (readRest options ⟨argv, some arg, false, skipOpt⟩)
      (⟨[], argv, skipOpt⟩, some ⟨0, arg.bytes⟩) := ⟨_, rfl, rfl⟩

/-- **An element that begins with `-`** is read as it should be, but for superfluous values of long
    options. -/
lemma readOption_returns (options : List ProcessOption) (argv : List Text) {c : Letter}
    (hc : c.1 = ch '-') (rest : Text) :
    Returns (readOption options ⟨argv, some (c :: rest), false, false⟩ (c :: rest))
        (getElement options ⟨[], argv, false⟩ (c :: rest))
      ↔ ∀ d arg, d.1 = ch '-' → rest = d :: arg → arg ≠ [] → ¬ Superfluous options arg := by
  have hskip : ¬ ((⟨[], argv, false⟩ : Position).skipOpt || deref (c :: rest) ≠ ch '-') = true := by
    simp [deref, hc]
  cases rest with
  | nil =>
    refine iff_of_true ?_ fun d arg _ hrest => absurd hrest.symm (List.cons_ne_nil d arg)
    have hread : deref [c].tail ≠ ch '-' := by rw [List.tail_cons]; decide
    have hmore : deref [c].tail = 0 := rfl
    have hbytes : Text.bytes [c] = [ch '-'] := by rw [← hc]; rfl
    rw [readOption, if_neg hread, if_pos hmore, getElement, if_neg hskip, hbytes]
    exact ⟨_, rfl, rfl⟩
  | cons d rest =>
    rw [getElement, if_neg hskip, List.tail_cons]
    dsimp only
    by_cases hd : d.1 = ch '-'
    · have hread : deref (c :: d :: rest).tail = ch '-' := hd
      rw [readOption, if_pos hread, if_pos hd]
      cases rest with
      | nil =>
        refine iff_of_true ?_ fun e arg _ hrest hne => absurd ?_ hne
        · cases argv with
          | nil => exact ⟨_, rfl, rfl⟩
          | cons arg argv => exact ⟨_, rfl, rfl⟩
        · exact (List.cons.inj hrest).2.symm
      | cons e rest =>
        have hmore : deref (c :: d :: e :: rest).tail.tail ≠ 0 := e.2
        rw [if_neg hmore, if_neg (by simp)]
        refine (readLong_returns options argv _ (e :: rest)).trans ⟨?_, ?_⟩
        · rintro hgood d' arg - hrest -
          rw [← (List.cons.inj hrest).2]
          exact hgood
        · exact fun hgood => hgood d (e :: rest) hd rfl (List.cons_ne_nil e rest)
    · have hread : deref (c :: d :: rest).tail ≠ ch '-' := hd
      have hmore : deref (c :: d :: rest).tail ≠ 0 := d.2
      rw [readOption, if_neg hread, if_neg hmore, if_neg hd]
      refine iff_of_true (readLetter_returns options argv _ false [] d rest) ?_
      rintro d' arg hd' hrest
      exact absurd ((List.cons.inj hrest).1 ▸ hd') hd

/-! ## Calls of `read` -/

/-- **An element** that is no long option is read as it should be; a long option is, just when it has
    no value that it does not take. -/
lemma agrees_of_cluster (options : List ProcessOption) {s : State} {p : Position}
    (hp : s.position = some p) (hcluster : p.cluster = []) :
    Agrees options s p ↔ ∀ arg argv, p.AtLong arg argv → ¬ Superfluous options arg := by
  obtain ⟨cluster, argv, skipOpt⟩ := p
  obtain rfl : cluster = [] := hcluster
  rcases nextChar_position hp rfl with ⟨rfl, hnext⟩ | ⟨arg, argv, rfl, hnext⟩
  · refine iff_of_true ⟨s, by rw [read, hnext]; rfl, hp⟩ ?_
    rintro arg argv ⟨-, -, -, c, d, -, -, hargv⟩
    exact absurd hargv.symm (List.cons_ne_nil _ _)
  · have hread : read options s =
        if !skipOpt && deref arg = ch '-' then
          readOption options ⟨argv, some arg, false, skipOpt⟩ arg
        else readRest options ⟨argv, some arg, false, skipOpt⟩ := by
      rw [read, hnext]
      rfl
    rw [Agrees, hread, getNext]
    by_cases hoption : skipOpt = false ∧ deref arg = ch '-'
    · obtain ⟨rfl, hminus⟩ := hoption
      cases arg with
      | nil => exact absurd hminus (by decide)
      | cons c rest =>
        rw [if_pos (by simp [hminus])]
        refine (readOption_returns options argv hminus rest).trans ⟨?_, ?_⟩
        · rintro hgood arg argv' ⟨-, -, hne, c', d, -, hd, hargv⟩
          obtain ⟨harg, -⟩ := List.cons.inj hargv
          exact hgood d arg hd (List.cons.inj harg).2 hne
        · intro hgood d arg hd hrest hne
          exact hgood arg argv ⟨rfl, rfl, hne, c, d, hminus, hd, by rw [hrest]⟩
    · rw [if_neg (by simpa using hoption)]
      have hskip : (skipOpt || deref arg ≠ ch '-') = true := by
        cases skipOpt with
        | true => rfl
        | false => simpa using hoption
      change Returns _ (getElement options ⟨[], argv, skipOpt⟩ arg) ↔ _
      rw [getElement, if_pos hskip]
      refine iff_of_true (readRest_returns options argv arg skipOpt) ?_
      rintro arg' argv' ⟨-, hskip, -, c, d, hc, -, hargv⟩
      obtain ⟨rfl, -⟩ := List.cons.inj hargv
      exact absurd ⟨hskip, hc⟩ hoption

lemma Returns.unique {outcome : Option (State × Option Result)}
    {next next' : Position × Option Result} (h : Returns outcome next)
    (h' : Returns outcome next') : next = next' := by
  obtain ⟨s, hs, hposition⟩ := h
  obtain ⟨s', hs', hposition'⟩ := h'
  obtain ⟨rfl, hresult⟩ := Prod.mk.inj (Option.some_inj.mp (hs.symm.trans hs'))
  exact Prod.ext (Option.some_inj.mp (hposition.symm.trans hposition')) hresult

/-- **In the middle of an element** a letter is left out. -/
lemma not_agrees_of_cluster (options : List ProcessOption) {s : State} {p : Position}
    (hp : s.position = some p) (hcluster : p.cluster ≠ []) : ¬ Agrees options s p := by
  obtain ⟨_ | ⟨c, rest⟩, argv, skipOpt⟩ := p
  · exact absurd rfl hcluster
  obtain rfl := position_cluster hp
  have hread : read options ⟨argv, some (c :: rest), true, skipOpt⟩
      = readLetter options ⟨argv, some rest, true, skipOpt⟩ rest := rfl
  rw [Agrees, hread]
  cases rest with
  | nil => exact readLetter_nil options _ _
  | cons d rest =>
    intro hreturns
    have hskipped := readLetter_returns options argv (some (d :: rest)) skipOpt (c :: d :: rest) d rest
    have hsame : getLetter options ⟨c :: d :: rest, argv, skipOpt⟩ c (d :: rest)
        = getLetter options ⟨c :: d :: rest, argv, skipOpt⟩ d rest := hreturns.unique hskipped
    have hright := getLetter_weight options ⟨c :: d :: rest, argv, skipOpt⟩ c (d :: rest)
    have hwrong := getLetter_weight options ⟨c :: d :: rest, argv, skipOpt⟩ d rest
    rw [← hsame] at hwrong
    rcases hright with ⟨hargv, hweight⟩ | ⟨hnil, -⟩
    · rcases hwrong with ⟨-, hweight'⟩ | ⟨-, hless⟩
      · rw [List.length_cons] at hweight
        omega
      · rw [hargv] at hless
        exact absurd hless (Nat.lt_irrefl _)
    · exact absurd hnil (List.cons_ne_nil d rest)

/-! ## Runs -/

/-- **Every run**: as long as elements fit, the results are those of the command line.  Wherever a
    run has come to, the next call agrees, unless it begins between letters or with a long option. -/
theorem short_options (options : List ProcessOption) (argv : List Text) :
    (∀ results s, (system options argv fun s => ∀ p ∈ s.position, p.Fits options).Run results s →
      ∃ p, s.position = some p ∧ p.cluster = [] ∧ (getopt options argv).Run results p)
    ∧ ∀ results s, (system options argv fun _ => True).Run results s →
      ∀ p, s.position = some p → (∀ arg rest, ¬ p.AtLong arg rest) →
        (Agrees options s p ↔ p.cluster = []) := by
  refine ⟨fun results s h => ?_, fun _ s _ p hp hlong => ⟨fun hagrees => ?_, fun hcluster => ?_⟩⟩
  · have hstep : ∀ s p results s', (s.position = some p ∧ p.cluster = []) →
        (system options argv fun s => ∀ p ∈ s.position, p.Fits options).step s results s' →
        ∃ p', (getopt options argv).step p results p'
          ∧ (s'.position = some p' ∧ p'.cluster = []) := by
      rintro s p results s' ⟨hp, hcluster⟩ ⟨hfits, result, hread, rfl⟩
      have hp_fits := hfits p hp
      obtain ⟨s'', hread', hp'⟩ := (agrees_of_cluster options hp hcluster).mpr hp_fits.2
      obtain ⟨rfl, rfl⟩ := Prod.mk.inj (Option.some_inj.mp (hread'.symm.trans hread))
      exact ⟨_, ⟨_, rfl, rfl⟩, hp', (getNext_cluster options hcluster).mpr hp_fits.1⟩
    obtain ⟨p, hrun, hp, hcluster⟩ := h.simulation (by rintro s rfl; exact ⟨_, rfl, rfl, rfl⟩) hstep
    exact ⟨p, hp, hcluster, hrun⟩
  · by_contra hcluster
    exact not_agrees_of_cluster options hp hcluster hagrees
  · exact (agrees_of_cluster options hp hcluster).mpr fun arg rest hat => absurd hat (hlong arg rest)

/-- The options `a`, `b` and `c` of a table -/
def lettersTable : List ProcessOption :=
  [⟨char (ch 'a'), none, 0⟩, ⟨char (ch 'b'), none, 0⟩, ⟨char (ch 'c'), none, 0⟩]

/-- The command line `prog -abc` -/
def lettersLine : List Text := [text "prog", text "-abc"]

/-- **A letter is left out**: of `-abc` the second one is not reported. -/
theorem letter_left_out :
    (∃ s, (system lettersTable lettersLine fun _ => True).Run
        [⟨char (ch 'a'), []⟩, ⟨char (ch 'c'), []⟩] s ∧ read lettersTable s = some (s, none))
    ∧ ∃ p, (getopt lettersTable lettersLine).Run
        [⟨char (ch 'a'), []⟩, ⟨char (ch 'b'), []⟩, ⟨char (ch 'c'), []⟩] p := by
  refine ⟨⟨⟨[], some [], true, false⟩, ?_, rfl⟩, ⟨⟨[], [], false⟩, ?_⟩⟩
  · have hfirst : (system lettersTable lettersLine fun _ => True).Run
        [⟨char (ch 'a'), []⟩] ⟨[], some (text "bc"), true, false⟩ :=
      System.Run.next (.start rfl) ⟨trivial, _, rfl, rfl⟩
    exact hfirst.next ⟨trivial, _, rfl, rfl⟩
  · have hfirst : (getopt lettersTable lettersLine).Run
        [⟨char (ch 'a'), []⟩] ⟨text "bc", [], false⟩ :=
      System.Run.next (.start rfl) ⟨_, rfl, rfl⟩
    have hsecond : (getopt lettersTable lettersLine).Run
        [⟨char (ch 'a'), []⟩, ⟨char (ch 'b'), []⟩] ⟨text "c", [], false⟩ :=
      hfirst.next ⟨_, rfl, rfl⟩
    exact hsecond.next ⟨_, rfl, rfl⟩

/-- After the first letter of `-abc` the next call does not agree. -/
theorem short_options_letters :
    ∃ s p, (system lettersTable lettersLine fun _ => True).Run [⟨char (ch 'a'), []⟩] s
      ∧ s.position = some p ∧ ¬ Agrees lettersTable s p := by
  have hrun : (system lettersTable lettersLine fun _ => True).Run
      [⟨char (ch 'a'), []⟩] ⟨[], some (text "bc"), true, false⟩ :=
    System.Run.next (.start rfl) ⟨trivial, _, rfl, rfl⟩
  have hlong : ∀ arg rest, ¬ (⟨text "bc", [], false⟩ : Position).AtLong arg rest := by
    rintro arg rest ⟨hcluster, -⟩
    exact absurd hcluster (by decide)
  have hiff := (short_options lettersTable lettersLine).2 _ _ hrun ⟨text "bc", [], false⟩ rfl hlong
  exact ⟨_, _, hrun, rfl, fun hagrees => absurd (hiff.mp hagrees) (by decide)⟩

/-- Behind the NUL of an element nothing can be read. -/
lemma read_past (options : List ProcessOption) {s : State} (h : s.position = none) :
    read options s = none := by
  obtain ⟨argv, _ | _ | ⟨c, arg⟩, _ | _, skipOpt⟩ := s
  · rfl
  · rfl
  all_goals exact absurd h (Option.some_ne_none _)

/-- **A call of `read`** leaves elements of the command line to be read, unless it leaves a part of a
    long option. -/
lemma read_argv (options : List ProcessOption) {s s' : State} {p p' : Position}
    {result : Option Result} (hp : s.position = some p)
    (hfits : ∀ arg rest, p.AtLong arg rest → ¬ Superfluous options arg)
    (hread : read options s = some (s', result)) (hp' : s'.position = some p') :
    p'.argv <:+ p.argv := by
  have hreturns : Returns (read options s) (p', result) := ⟨s', hread, hp'⟩
  by_cases hcluster : p.cluster = []
  · have hagrees := (agrees_of_cluster options hp hcluster).mpr hfits
    have hsame : p' = (getNext options p).1 := congrArg Prod.fst (hreturns.unique hagrees)
    exact hsame ▸ getNext_argv options p
  · obtain ⟨_ | ⟨c, rest⟩, argv, skipOpt⟩ := p
    · exact absurd rfl hcluster
    obtain rfl := position_cluster hp
    have hletter : read options ⟨argv, some (c :: rest), true, skipOpt⟩
        = readLetter options ⟨argv, some rest, true, skipOpt⟩ rest := rfl
    rw [hletter] at hreturns
    cases rest with
    | nil => exact absurd hreturns (readLetter_nil options _ _)
    | cons d rest =>
      have hskipped := readLetter_returns options argv (some (d :: rest)) skipOpt [] d rest
      have hsame : p' = (getLetter options ⟨[], argv, skipOpt⟩ d rest).1 :=
        congrArg Prod.fst (hreturns.unique hskipped)
      exact hsame ▸ getLetter_argv options ⟨[], argv, skipOpt⟩ d rest

/-- **Every run**: as long as no long option has a superfluous value, what there is to be read are
    elements of the command line.  Wherever a run has come to, a long option has one result, and the
    next call begins with the element after it, unless its value is superfluous. -/
theorem long_options (options : List ProcessOption) (argv : List Text) :
    (∀ results s, (system options argv fun s => ∀ p ∈ s.position, ∀ arg rest, p.AtLong arg rest →
        ¬ Superfluous options arg).Run results s →
      ∀ p, s.position = some p → p.argv <:+ argv.tail)
    ∧ ∀ results s, (system options argv fun _ => True).Run results s →
      ∀ p, s.position = some p → ∀ arg rest, p.AtLong arg rest →
        (Returns (read options s) (getLong options ⟨[], rest, false⟩ arg)
          ↔ ¬ Superfluous options arg) := by
  refine ⟨fun results s h => ?_, fun _ s _ p hp arg rest hlong => ?_⟩
  · induction h with
    | start hs =>
      rintro p hp
      rw [hs] at hp
      obtain rfl := Option.some_inj.mp hp
      exact List.suffix_refl _
    | @next _ _ s _ _ hstep ih =>
      intro p' hp'
      obtain ⟨hfits, result, hread, -⟩ := hstep
      cases hp : s.position with
      | none =>
        exact absurd (hread.symm.trans (read_past options hp)) (Option.some_ne_none _)
      | some p => exact (read_argv options hp (hfits p hp) hread hp').trans (ih p hp)
  · have hcluster : p.cluster = [] := hlong.1
    rw [← getNext_long options hlong]
    refine (agrees_of_cluster options hp hcluster).trans ⟨fun hgood => hgood arg rest hlong, ?_⟩
    intro hgood arg' rest' hlong'
    obtain ⟨-, -, -, c, d, -, -, hargv⟩ := hlong
    obtain ⟨-, -, -, c', d', -, -, hargv'⟩ := hlong'
    obtain ⟨harg, -⟩ := List.cons.inj (hargv.symm.trans hargv')
    obtain rfl := (List.cons.inj (List.cons.inj harg).2).2
    exact hgood

/-- A table with an option without an argument -/
def helpTable : List ProcessOption := [⟨char (ch 'h'), some (text "help"), 0⟩]

/-- The command line `prog --help=no` -/
def helpLine : List Text := [text "prog", text "--help=no"]

/-- **A value is reported again**, without its first byte: of `--help=no` it is `o`. -/
theorem value_reported :
    (∃ s, (system helpTable helpLine fun _ => True).Run
        [⟨char (ch 'h'), []⟩, ⟨0, bytes "o"⟩] s ∧ read helpTable s = some (s, none))
    ∧ ∃ p, (getopt helpTable helpLine).Run [⟨char (ch 'h'), []⟩] p
      ∧ getNext helpTable p = (p, none) := by
  refine ⟨⟨⟨[], some [], false, false⟩, ?_, rfl⟩, ⟨⟨[], [], false⟩, ?_, rfl⟩⟩
  · have hfirst : (system helpTable helpLine fun _ => True).Run
        [⟨char (ch 'h'), []⟩] ⟨[], some (text "no"), false, false⟩ :=
      System.Run.next (.start rfl) ⟨trivial, _, rfl, rfl⟩
    exact hfirst.next ⟨trivial, _, rfl, rfl⟩
  · exact System.Run.next (.start rfl) ⟨_, rfl, rfl⟩

/-- The call that meets `--help=no` does not leave what there is after it. -/
theorem long_options_help :
    ¬ Returns (read helpTable (.start helpLine)) (getLong helpTable ⟨[], [], false⟩ (text "help=no"))
    := by
  have hlong : (⟨[], [text "--help=no"], false⟩ : Position).AtLong (text "help=no") [] :=
    ⟨rfl, rfl, by decide, ⟨ch '-', by decide⟩, ⟨ch '-', by decide⟩, rfl, rfl, rfl⟩
  have hsuperfluous : Superfluous helpTable (text "help=no") :=
    ⟨⟨char (ch 'h'), some (text "help"), 0⟩, rfl, rfl, text "no", rfl, by decide⟩
  have hiff := (long_options helpTable helpLine).2 [] _ (.start rfl) _ rfl _ _ hlong
  exact fun hreturns => hiff.mp hreturns hsuperfluous

end Nstd.Arguments
