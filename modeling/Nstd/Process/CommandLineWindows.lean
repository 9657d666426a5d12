import Mathlib.Algebra.Ring.Nat
import Nstd.Core.CrtArguments
import Nstd.Core.Pieces
import Nstd.Process.Opening

/-!
# The command line on Windows

* `escapeArg`, `encodeArg`, `getCommandLine` — `Process::Private::getCommandLine`.
* `arg_cases` — an argument in the pieces that the loop takes.
* `bareQuotes` — the quotes that are not directly behind a backslash, which are not escaped.
* `close_encodeArg`, `quotes_encodeArg` — what a program reads of an argument.
* **`parse_getCommandLine_iff`** — a program gets its arguments exactly if they have no such quotes;
  `quote_lost`.

To a program, a quote that is not escaped opens or closes a quotation and is no part of the argument.
-/

namespace Nstd.Process

open CrtArguments

/-! ## The loops -/

/-- `p - arg`, where the inner loop stops -/
def backslashCount (arg : List UInt8) : ℕ := (arg.takeWhile (· = ch '\\')).length

/-- What `while(*arg)` appends -/
def escapeArg (arg : List UInt8) : List UInt8 :=
  match arg with
  | [] => []
  | c :: rest =>
    if c = ch '\\' then
      let run := (c :: rest).take (backslashCount (c :: rest))
      match _h : (c :: rest).drop (backslashCount (c :: rest)) with
      | [] => run ++ run
      | d :: p =>
        if d = ch '"' then run ++ run ++ [ch '\\', ch '"'] ++ escapeArg p
        else run ++ escapeArg (d :: p)
    -- this is where a quote gets that is not behind a backslash
    else c :: escapeArg rest
termination_by arg.length
decreasing_by
  all_goals try exact Nat.lt_succ_self _
  all_goals
    have hlength := congrArg List.length _h
    have hpos : 0 < backslashCount (c :: rest) := by
      rename_i hc _
      simp [backslashCount, hc]
    rw [List.length_drop, List.length_cons, List.length_cons] at hlength
    simp only [List.length_cons]
    omega

/-- One argument: as it is, or between quotes -/
def encodeArg (arg : List UInt8) : List UInt8 :=
  if (findOneOf id (bytes " \t\n\x0b\"") arg).isNone ∧ arg ≠ [] then arg
  else ch '"' :: (escapeArg arg ++ [ch '"'])

/-- `getCommandLine`, which leaves out the first argument -/
def getCommandLine (program : List UInt8) (argv : List (List UInt8)) : List UInt8 :=
  program ++ argv.tail.flatMap fun arg => ch ' ' :: encodeArg arg

/-! ## An argument in pieces -/

lemma backslashCount_append (k : ℕ) {p : List UInt8} (hp : p.head? ≠ some (ch '\\')) :
    backslashCount (backslashes k ++ p) = k := by
  have hnil : p.takeWhile (· = ch '\\') = [] := by
    cases p with
    | nil => rfl
    | cons d p => exact List.takeWhile_cons_of_neg (by simpa using hp)
  rw [backslashCount, List.takeWhile_append_of_pos (by simp), hnil, List.append_nil,
    List.length_replicate]

/-- Backslashes, and what is behind them -/
lemma escapeArg_run (k : ℕ) (p : List UInt8) : p.head? ≠ some (ch '\\') →
    escapeArg (backslashes (k + 1) ++ p) = backslashes (k + 1) ++
      match p with
      | [] => backslashes (k + 1)
      | d :: p =>
        if d = ch '"' then backslashes (k + 1) ++ [ch '\\', ch '"'] ++ escapeArg p
        else escapeArg (d :: p) := by
  intro hp
  have hcount := backslashCount_append (k + 1) hp
  have htake : (backslashes (k + 1) ++ p).take (k + 1) = backslashes (k + 1) := by simp
  have hdrop : (backslashes (k + 1) ++ p).drop (k + 1) = p := by simp
  have hrun : backslashes (k + 1) ++ p = ch '\\' :: (backslashes k ++ p) := rfl
  rw [hrun] at hcount htake hdrop ⊢
  rw [escapeArg, if_pos rfl]
  simp only [hcount, htake]
  split
  · next h =>
      obtain rfl := hdrop.symm.trans (hcount ▸ h)
      rfl
  · next d p' h =>
      obtain rfl := hdrop.symm.trans (hcount ▸ h)
      simp only []
      split_ifs
      · simp only [List.append_assoc]
      · rfl

lemma escapeArg_last (k : ℕ) : escapeArg (backslashes (k + 1)) = backslashes (2 * (k + 1)) := by
  have h := escapeArg_run k [] (by simp)
  rw [List.append_nil] at h
  rw [h, Nat.two_mul, backslashes, List.replicate_append_replicate]

lemma escapeArg_quote (k : ℕ) (p : List UInt8) : escapeArg (backslashes (k + 1) ++ ch '"' :: p)
    = backslashes (2 * (k + 1) + 1) ++ ch '"' :: escapeArg p := by
  have hrun : backslashes (2 * (k + 1) + 1)
      = backslashes (k + 1) ++ (backslashes (k + 1) ++ [ch '\\']) := by
    rw [← List.append_assoc, backslashes, backslashes, List.replicate_append_replicate, Nat.two_mul]
    exact List.replicate_succ'
  rw [escapeArg_run k (ch '"' :: p) (by rw [List.head?_cons]; decide), hrun]
  simp only [if_pos, List.append_assoc, List.cons_append, List.nil_append]

lemma escapeArg_plain {c : UInt8} (hc : c ≠ ch '\\') (p : List UInt8) :
    escapeArg (c :: p) = c :: escapeArg p := by
  rw [escapeArg, if_neg hc]

lemma escapeArg_other (k : ℕ) {d : UInt8} (hbackslash : d ≠ ch '\\') (hquote : d ≠ ch '"')
    (p : List UInt8) :
    escapeArg (backslashes (k + 1) ++ d :: p) = backslashes (k + 1) ++ d :: escapeArg p := by
  rw [escapeArg_run k (d :: p) (by simpa using hbackslash)]
  simp only [if_neg hquote, escapeArg_plain hbackslash]

/-- **An argument** in the pieces that the loop takes -/
theorem arg_cases {P : List UInt8 → Prop} (nil : P []) (last : ∀ k, P (backslashes (k + 1)))
    (quote : ∀ k p, P p → P (backslashes (k + 1) ++ ch '"' :: p))
    (other : ∀ k d p, d ≠ ch '\\' → d ≠ ch '"' → P p → P (backslashes (k + 1) ++ d :: p))
    (plain : ∀ c p, c ≠ ch '\\' → P p → P (c :: p)) (arg : List UInt8) : P arg := by
  induction hn : arg.length using Nat.strongRecOn generalizing arg with
  | _ n ih =>
    subst hn
    rcases arg with - | ⟨c, arg⟩
    · exact nil
    by_cases hc : c = ch '\\'
    · have hsplit : c :: arg = backslashes ((arg.takeWhile (· = ch '\\')).length + 1)
          ++ arg.dropWhile (· = ch '\\') := by
        have hrun : arg.takeWhile (· = ch '\\')
            = backslashes (arg.takeWhile (· = ch '\\')).length :=
          List.eq_replicate_iff.mpr ⟨rfl, fun d hd => by simpa using List.mem_takeWhile_imp hd⟩
        rw [backslashes, List.replicate_succ, List.cons_append, ← backslashes, ← hrun,
          List.takeWhile_append_dropWhile, hc]
      have hle : (arg.dropWhile (· = ch '\\')).length ≤ arg.length :=
        (List.dropWhile_suffix _).length_le
      rw [hsplit]
      generalize (arg.takeWhile (· = ch '\\')).length = k
      cases hrest : arg.dropWhile (· = ch '\\') with
      | nil => rw [List.append_nil]; exact last k
      | cons d p =>
        have hd : d ≠ ch '\\' := by simpa using not_of_dropWhile hrest
        rw [hrest, List.length_cons] at hle
        have hp : P p := ih _ (by rw [List.length_cons]; omega) p rfl
        by_cases hquote : d = ch '"'
        · exact hquote ▸ quote k p hp
        · exact other k d p hd hquote hp
    · exact plain c arg hc (ih _ (by rw [List.length_cons]; omega) arg rfl)

/-! ## Quotes that are not escaped -/

/-- How many quotes are not directly behind a backslash; `behind` says whether there is one in front of
    the text. -/
def bareQuotes : Bool → List UInt8 → ℕ
  | _, [] => 0
  | behind, c :: p =>
    (if c = ch '"' ∧ behind = false then 1 else 0) + bareQuotes (c = ch '\\') p

lemma bareQuotes_eq_zero (behind : Bool) (p : List UInt8) : bareQuotes behind p = 0 ↔
    ∀ u v, p = u ++ ch '"' :: v → (u = [] ∧ behind = true) ∨ u.getLast? = some (ch '\\') := by
  induction p generalizing behind with
  | nil => exact ⟨fun _ u v h => absurd h (by simp), fun _ => rfl⟩
  | cons c p ih =>
    rw [bareQuotes, Nat.add_eq_zero_iff, ih]
    constructor
    · rintro ⟨hhead, hrest⟩ u v h
      rcases u with - | ⟨d, u⟩
      · obtain ⟨rfl, rfl⟩ := List.cons.inj h
        exact Or.inl ⟨rfl, by simpa using hhead⟩
      · obtain ⟨rfl, rfl⟩ := List.cons.inj h
        right
        rcases hrest u v rfl with ⟨rfl, hc⟩ | hlast
        · rw [of_decide_eq_true hc]
          rfl
        · rw [List.getLast?_cons, hlast]
          rfl
    · refine fun h => ⟨if_neg ?_, fun u v hp => ?_⟩
      · rintro ⟨rfl, rfl⟩
        rcases h [] p rfl with ⟨-, hbehind⟩ | hlast
        · exact absurd hbehind (by decide)
        · exact absurd hlast (by simp)
      · rcases h (c :: u) v (by rw [hp]; rfl) with ⟨hnil, -⟩ | hlast
        · exact absurd hnil (by simp)
        · rcases List.eq_nil_or_concat u with rfl | ⟨u, d, rfl⟩
          · exact Or.inl ⟨rfl, decide_eq_true (by simpa using hlast)⟩
          · right
            rw [List.concat_eq_append, ← List.cons_append, List.getLast?_concat] at hlast
            rw [List.concat_eq_append, List.getLast?_concat, hlast]

lemma bareQuotes_false (p : List UInt8) : bareQuotes false p = 0 ↔
    ∀ u v, p = u ++ ch '"' :: v → u.getLast? = some (ch '\\') := by
  simp [bareQuotes_eq_zero]

lemma bareQuotes_backslashes (behind : Bool) (k : ℕ) : bareQuotes behind (backslashes k) = 0 := by
  rw [bareQuotes_eq_zero]
  intro u v h
  have hmem : ch '"' ∈ backslashes k := by rw [h]; simp
  exact absurd (List.eq_of_mem_replicate hmem) (by decide)

lemma bareQuotes_run (behind : Bool) (k : ℕ) (p : List UInt8) :
    bareQuotes behind (backslashes (k + 1) ++ p) = bareQuotes true p := by
  have hstep : ∀ behind p, bareQuotes behind (ch '\\' :: p) = bareQuotes true p := by
    intro behind p
    have hquote : ch '\\' ≠ ch '"' := by decide
    simp [bareQuotes, hquote]
  induction k generalizing behind with
  | zero => exact hstep behind p
  | succ k ih =>
    rw [backslashes, List.replicate_succ, List.cons_append, hstep]
    exact ih true

lemma bareQuotes_behind_quote (p : List UInt8) : bareQuotes true (ch '"' :: p) = bareQuotes false p :=
  (congrArg (· + _) (if_neg (by simp))).trans (Nat.zero_add _)

lemma bareQuotes_other {d : UInt8} (hbackslash : d ≠ ch '\\') (hquote : d ≠ ch '"') (behind : Bool)
    (p : List UInt8) : bareQuotes behind (d :: p) = bareQuotes false p := by
  simp [bareQuotes, hbackslash, hquote]

/-! ## What a program reads -/

/-- **An argument** without such quotes is read as it is, up to the closing quote. -/
lemma feed_escapeArg (args : List (List UInt8)) (arg : List UInt8) :
    ∀ read, bareQuotes false arg = 0 →
      feed ⟨true, 0, some read, args⟩ (escapeArg arg ++ [ch '"'])
        = ⟨false, 0, some (read ++ arg), args⟩ := by
  induction arg using arg_cases with
  | nil =>
    intro read _
    rw [escapeArg]
    exact read_closing true 0 read args
  | last k =>
    intro read _
    rw [escapeArg_last, feed_append, feed_backslashes, Nat.zero_add]
    exact read_closing true (k + 1) read args
  | quote k p ih =>
    intro read hbare
    rw [bareQuotes_run, bareQuotes_behind_quote] at hbare
    rw [escapeArg_quote, List.append_assoc, feed_append, feed_backslashes, Nat.zero_add,
      List.cons_append, feed_cons, read_literal, ih _ hbare]
    simp
  | other k d p hbackslash hquote ih =>
    intro read hbare
    rw [bareQuotes_run, bareQuotes_other hbackslash hquote] at hbare
    rw [escapeArg_other k hbackslash hquote, List.append_assoc, feed_append, feed_backslashes,
      Nat.zero_add, List.cons_append, feed_cons, read_inside (k + 1) read args hbackslash hquote,
      ih _ hbare]
    simp
  | plain c p hbackslash ih =>
    intro read hbare
    have hquote : c ≠ ch '"' := by
      rintro rfl
      simp [bareQuotes] at hbare
    rw [bareQuotes_other hbackslash hquote] at hbare
    rw [escapeArg_plain hbackslash, List.cons_append, feed_cons,
      read_inside 0 read args hbackslash hquote, ih _ hbare]
    simp

/-- **The quotes** that are not escaped do not get into an argument. -/
lemma quotes_escapeArg (arg : List UInt8) : ∀ r : Reader, r.pending = 0 →
    (feed r (escapeArg arg)).quotes + bareQuotes false arg = r.quotes + arg.count (ch '"') ∧
      (feed r (escapeArg arg)).pending % 2 = 0 := by
  have hnone : ∀ k, ch '"' ∉ backslashes k := fun k => List.count_eq_zero.mp (count_backslashes k)
  induction arg using arg_cases with
  | nil =>
    intro r hr
    rw [escapeArg]
    exact ⟨rfl, congrArg (· % 2) hr⟩
  | last k =>
    intro r hr
    rw [escapeArg_last, quotes_feed (hnone _), bareQuotes_backslashes, count_backslashes,
      pending_feed_backslashes, hr]
    exact ⟨rfl, by omega⟩
  | quote k p ih =>
    intro r hr
    have hpending : (feed r (backslashes (2 * (k + 1) + 1))).pending % 2 = 1 := by
      rw [pending_feed_backslashes, hr]
      omega
    have hquote : ((feed r (backslashes (2 * (k + 1) + 1))).read (ch '"')).quotes = r.quotes + 1 := by
      rw [quotes_read, if_pos ⟨rfl, hpending⟩, quotes_feed (hnone _)]
    obtain ⟨hquotes, heven⟩ := ih ((feed r (backslashes (2 * (k + 1) + 1))).read (ch '"'))
      (by rw [pending_read, if_neg (by decide)])
    rw [escapeArg_quote, feed_append, feed_cons, bareQuotes_run, bareQuotes_behind_quote,
      List.count_append, count_backslashes, List.count_cons_self]
    exact ⟨by omega, heven⟩
  | other k d p hbackslash hquote ih =>
    intro r hr
    have hread : ((feed r (backslashes (k + 1))).read d).quotes = r.quotes := by
      rw [quotes_read, if_neg fun h => hquote h.1, Nat.add_zero, quotes_feed (hnone _)]
    obtain ⟨hquotes, heven⟩ := ih ((feed r (backslashes (k + 1))).read d)
      (by rw [pending_read, if_neg hbackslash])
    rw [escapeArg_other k hbackslash hquote, feed_append, feed_cons, bareQuotes_run,
      bareQuotes_other hbackslash hquote, List.count_append, count_backslashes,
      List.count_cons_of_ne hquote, hquotes, hread, Nat.zero_add]
    exact ⟨rfl, heven⟩
  | plain c p hbackslash ih =>
    intro r hr
    have hread : (r.read c).quotes = r.quotes := by
      rw [quotes_read, if_neg (by rw [hr]; simp), Nat.add_zero]
    obtain ⟨hquotes, heven⟩ := ih (r.read c) (by rw [pending_read, if_neg hbackslash])
    rw [escapeArg_plain hbackslash, feed_cons]
    refine ⟨?_, heven⟩
    by_cases hquote : c = ch '"'
    · subst hquote
      have hbare : bareQuotes false (ch '"' :: p) = 1 + bareQuotes false p := rfl
      rw [hbare, List.count_cons_self]
      omega
    · rw [bareQuotes_other hbackslash hquote, List.count_cons_of_ne hquote, hquotes, hread]

lemma plain_of_findOneOf {arg : List UInt8} (h : (findOneOf id (bytes " \t\n\x0b\"") arg).isNone) :
    ∀ c ∈ arg, c ≠ ch '"' ∧ isDelimiter c = false := by
  intro c hc
  have hnone : c ∉ bytes " \t\n\x0b\"" := by
    obtain ⟨p, s, d, -, -, -, hfind⟩ | ⟨-, hnone⟩ := findOneOf_cases (bytes " \t\n\x0b\"") arg
    · rw [hfind] at h
      exact absurd h Bool.false_ne_true
    · exact hnone c hc
  have hne : ∀ d ∈ bytes " \t\n\x0b\"", c ≠ d := fun d hd hcd => hnone (hcd ▸ hd)
  exact ⟨hne _ (by decide), isDelimiter_eq_false (hne _ (by decide)) (hne _ (by decide))⟩

lemma close_encodeArg (args : List (List UInt8)) {arg : List UInt8} (h : bareQuotes false arg = 0) :
    (feed ⟨false, 0, none, args⟩ (encodeArg arg)).quoted = false ∧
      (feed ⟨false, 0, none, args⟩ (encodeArg arg)).close = args ++ [arg] := by
  rw [encodeArg]
  split_ifs with hplain
  · have hadds := adds_feed ⟨false, 0, none, args⟩ hplain.2 (plain_of_findOneOf hplain.1)
    exact ⟨hadds.quoted, hadds.close⟩
  · rw [feed_cons, read_opening, feed_escapeArg args arg [] h]
    exact ⟨rfl, by simp [Reader.close, Reader.text]⟩

lemma quotes_encodeArg (arg : List UInt8) {r : Reader} (hr : r.pending = 0) :
    (feed r (encodeArg arg)).quotes + bareQuotes false arg = r.quotes + arg.count (ch '"') := by
  rw [encodeArg]
  split_ifs with hplain
  · have hnone : ch '"' ∉ arg := fun hmem => (plain_of_findOneOf hplain.1 _ hmem).1 rfl
    have hbare : bareQuotes false arg = 0 := by
      rw [bareQuotes_eq_zero]
      rintro u v rfl
      exact absurd (by simp) hnone
    rw [quotes_feed hnone, hbare, List.count_eq_zero.mpr hnone]
  · have hopen : (r.read (ch '"')).quotes = r.quotes := by
      rw [quotes_read, if_neg (by rw [hr]; simp), Nat.add_zero]
    obtain ⟨hquotes, heven⟩ := quotes_escapeArg arg (r.read (ch '"'))
      (by rw [pending_read, if_neg (by decide)])
    rw [feed_cons, feed_append, feed_cons, feed, List.foldl_nil, quotes_read,
      if_neg (by rw [heven]; simp), Nat.add_zero, hquotes, hopen]

/-- The arguments, one after the other -/
lemma close_feed_line (argv : List (List UInt8)) (h : ∀ arg ∈ argv, bareQuotes false arg = 0) :
    ∀ r : Reader, r.quoted = false →
      (feed r (argv.flatMap fun arg => ch ' ' :: encodeArg arg)).close = r.close ++ argv := by
  induction argv with
  | nil => exact fun r _ => (List.append_nil _).symm
  | cons arg argv ih =>
    intro r hr
    obtain ⟨hquoted, hclose⟩ := close_encodeArg r.close (h arg List.mem_cons_self)
    rw [List.flatMap_cons, List.cons_append, feed_cons, read_delimiter hr, feed_append,
      ih (fun a ha => h a (List.mem_cons_of_mem arg ha)) _ hquoted, hclose, List.append_assoc,
      List.singleton_append]

lemma quotes_feed_line (argv : List (List UInt8)) : ∀ r : Reader,
    (feed r (argv.flatMap fun arg => ch ' ' :: encodeArg arg)).quotes
        + (argv.map (bareQuotes false)).sum
      = r.quotes + argv.flatten.count (ch '"') := by
  induction argv with
  | nil => exact fun r => rfl
  | cons arg argv ih =>
    intro r
    have hspace : (r.read (ch ' ')).quotes = r.quotes := by
      rw [quotes_read, if_neg fun h => absurd h.1 (by decide), Nat.add_zero]
    have harg := @quotes_encodeArg arg (r.read (ch ' ')) (by rw [pending_read, if_neg (by decide)])
    have hrest := ih (feed (r.read (ch ' ')) (encodeArg arg))
    rw [List.flatMap_cons, List.cons_append, feed_cons, feed_append, List.map_cons, List.sum_cons,
      List.flatten_cons, List.count_append]
    omega

/-! ## The whole line -/

lemma mem_escapeArg {c : UInt8} (arg : List UInt8) :
    c ∈ escapeArg arg → c ∈ arg ∨ c = ch '\\' ∨ c = ch '"' := by
  induction arg using arg_cases with
  | nil => rw [escapeArg]; exact Or.inl
  | last k =>
    rw [escapeArg_last]
    exact fun h => Or.inr (Or.inl (List.eq_of_mem_replicate h))
  | quote k p ih =>
    rw [escapeArg_quote, List.mem_append, List.mem_cons]
    rintro (h | h | h)
    · exact Or.inr (Or.inl (List.eq_of_mem_replicate h))
    · exact Or.inr (Or.inr h)
    · exact (ih h).imp_left fun h => List.mem_append_right _ (List.mem_cons_of_mem _ h)
  | other k d p hbackslash hquote ih =>
    rw [escapeArg_other k hbackslash hquote, List.mem_append, List.mem_cons]
    rintro (h | rfl | h)
    · exact Or.inr (Or.inl (List.eq_of_mem_replicate h))
    · exact Or.inl (List.mem_append_right _ List.mem_cons_self)
    · exact (ih h).imp_left fun h => List.mem_append_right _ (List.mem_cons_of_mem _ h)
  | plain d p hbackslash ih =>
    rw [escapeArg_plain hbackslash, List.mem_cons]
    rintro (rfl | h)
    · exact Or.inl List.mem_cons_self
    · exact (ih h).imp_left (List.mem_cons_of_mem d)

/-- The line has no zeros. -/
lemma chars_getCommandLine (program : CString) (argv : List CString) :
    chars (getCommandLine program.bytes (argv.map CString.bytes))
      = getCommandLine program.bytes (argv.map CString.bytes) := by
  refine List.takeWhile_eq_self_iff.mpr fun c hc => decide_eq_true ?_
  rw [getCommandLine, List.mem_append, List.mem_flatMap] at hc
  rcases hc with hc | ⟨arg, harg, hc⟩
  · exact fun h => program.noNul (h ▸ hc)
  · obtain ⟨s, -, rfl⟩ := List.mem_map.mp (List.mem_of_mem_tail harg)
    have hs : c ∈ s.bytes → c ≠ 0 := fun hc h => s.noNul (h ▸ hc)
    rcases List.mem_cons.mp hc with rfl | hc
    · decide
    · rw [encodeArg] at hc
      split_ifs at hc
      · exact hs hc
      · rw [List.mem_cons, List.mem_append, List.mem_singleton] at hc
        rcases hc with rfl | hc | rfl
        · decide
        · rcases mem_escapeArg s.bytes hc with hc | rfl | rfl
          · exact hs hc
          · decide
          · decide
        · decide

/-- The name of the program is read, and then the arguments. -/
lemma parse_getCommandLine {program : List UInt8}
    (hprogram : ∀ c ∈ program, isSpace c = false ∧ c ≠ ch '"') (argv : List (List UInt8)) :
    parse (getCommandLine program argv) = program ::
      (feed ⟨false, 0, none, []⟩ (argv.tail.flatMap fun arg => ch ' ' :: encodeArg arg)).close := by
  have hrest : (argv.tail.flatMap fun arg => ch ' ' :: encodeArg arg) = [] ∨
      (argv.tail.flatMap fun arg => ch ' ' :: encodeArg arg).head? = some (ch ' ') := by
    cases argv.tail with
    | nil => exact Or.inl rfl
    | cons arg argv => exact Or.inr rfl
  have hplain : ∀ c ∈ program, c ≠ ch '"' ∧ isDelimiter c = false := by
    intro c hc
    have hspace := (hprogram c hc).1
    refine ⟨(hprogram c hc).2, isDelimiter_eq_false ?_ ?_⟩
    · rintro rfl
      exact absurd hspace (by decide)
    · rintro rfl
      exact absurd hspace (by decide)
  rw [parse, getCommandLine, readProgram_eq hplain hrest]

lemma bareQuotes_of_parse {program : List UInt8}
    (hprogram : ∀ c ∈ program, isSpace c = false ∧ c ≠ ch '"') {argv : List (List UInt8)}
    (h : parse (getCommandLine program argv) = program :: argv.tail) :
    ∀ arg ∈ argv.tail, bareQuotes false arg = 0 := by
  rw [parse_getCommandLine hprogram] at h
  have hquotes := quotes_feed_line argv.tail ⟨false, 0, none, []⟩
  rw [← count_close, (List.cons.inj h).2] at hquotes
  have hnone : Reader.quotes ⟨false, 0, none, []⟩ = 0 := rfl
  have hsum : (argv.tail.map (bareQuotes false)).sum = 0 := by omega
  exact fun arg harg => List.sum_eq_zero_iff_forall_eq_nat.mp hsum _ (List.mem_map_of_mem harg)

/-- **A program gets its arguments** exactly if each quote in them is directly behind a backslash. -/
theorem parse_getCommandLine_iff (program : CString) (argv : List CString)
    (hprogram : ∀ c ∈ program.bytes, isSpace c = false ∧ c ≠ ch '"') :
    parse (chars (getCommandLine program.bytes (argv.map CString.bytes)))
        = program.bytes :: argv.tail.map CString.bytes ↔
      ∀ arg ∈ argv.tail, ∀ u v, arg.bytes = u ++ ch '"' :: v → u.getLast? = some (ch '\\') := by
  have hbare : (∀ arg ∈ argv.tail, ∀ u v, arg.bytes = u ++ ch '"' :: v → u.getLast? = some (ch '\\')) ↔
      ∀ arg ∈ argv.tail.map CString.bytes, bareQuotes false arg = 0 := by
    rw [List.forall_mem_map]
    exact forall₂_congr fun arg _ => (bareQuotes_false arg.bytes).symm
  rw [chars_getCommandLine, hbare, List.map_tail]
  refine ⟨bareQuotes_of_parse hprogram, fun h => ?_⟩
  rw [parse_getCommandLine hprogram]
  exact congrArg _ (close_feed_line _ h ⟨false, 0, none, []⟩ rfl)

/-- `a\"b`, where the quote is behind a backslash -/
def behindBackslash : CString := ⟨bytes "a\\\"b", by decide⟩

/-- `a"b`, where it is not -/
def bareQuote : CString := ⟨bytes "a\"b", by decide⟩

/-- `app`, a name for a program -/
def app : CString := ⟨bytes "app", by decide⟩

theorem parse_getCommandLine_iff_app :
    parse (chars (getCommandLine app.bytes ([app, behindBackslash].map CString.bytes)))
        = app.bytes :: [app, behindBackslash].tail.map CString.bytes ↔
      ∀ arg ∈ [app, behindBackslash].tail, ∀ u v, arg.bytes = u ++ ch '"' :: v →
        u.getLast? = some (ch '\\') :=
  parse_getCommandLine_iff app [app, behindBackslash] (forall_mem_of_all rfl)

/-- A quote that is not behind a backslash is lost. -/
theorem quote_lost : ¬ ∀ (program : CString) (argv : List CString),
    (∀ c ∈ program.bytes, isSpace c = false ∧ c ≠ ch '"') →
    parse (chars (getCommandLine program.bytes (argv.map CString.bytes)))
      = program.bytes :: argv.tail.map CString.bytes := by
  intro h
  have hsame := h app [app, bareQuote] (forall_mem_of_all rfl)
  rw [chars_getCommandLine] at hsame
  have hnone :=
    bareQuotes_of_parse (forall_mem_of_all rfl) hsame bareQuote.bytes (List.mem_singleton_self _)
  exact absurd hnone (by decide)

end Nstd.Process
