import Nstd.Console.History
import Nstd.Core.Terminal
import Nstd.Document.JsonNumber

/-!
# The prompt on the screen

What the operations write, on a terminal as wide as the console takes it to be.

* `Spans` — a move of the cursor by less than 2^31 rows and columns, whose numbers are written as `int`s.
* `OnScreen` — what the cells show, and where the cursor is.
* `OnScreen.move`, `OnScreen.write`, `OnScreen.clear` — what is written.
* **`runs_onScreen`** — any operations, as long as no move is too far; `clear_tall`.

Every operation writes moves of the cursor and texts.  What either does to the cells is known, so each
state is on the screen because the one before was.
-/

namespace Nstd.Console

namespace Prompt

open Terminal

/-! ## Sequences -/

/-- The number of rows, and of columns, is an `int`. -/
def Spans (w a b : ℕ) : Prop :=
  a / w - b / w < 2 ^ 31 ∧ b / w - a / w < 2 ^ 31 ∧ a % w - b % w < 2 ^ 31 ∧ b % w - a % w < 2 ^ 31

lemma toInt_eq {n : ℕ} (h : n < 2 ^ 31) : toInt n = n := by
  have hbmod : (n : ℤ).bmod (2 ^ 32) = n := by
    rw [Int.bmod_def]
    push_cast
    split_ifs <;> omega
  exact hbmod

lemma intText_natCast (n : ℕ) : intText (n : ℤ) = natText n := by
  rw [intText, if_neg (by omega), Int.natAbs_natCast]

lemma value_natText (n : ℕ) : value (natText n) = n := by
  have hzero : (ch '0').toNat = 0x30 := rfl
  have hvalue := Json.digitsValue_natText n
  rw [digitsValue, hzero] at hvalue
  exact hvalue

lemma isDigit_toNat {b : UInt8} (h : isDigit b) : 0x30 ≤ b.toNat ∧ b.toNat ≤ 0x39 := by
  simp only [isDigit, decide_eq_true_eq] at h
  exact ⟨UInt8.le_iff_toNat_le.mp h.1, UInt8.le_iff_toNat_le.mp h.2⟩

variable {w : ℕ} {t : Terminal}

/-- What a sequence does, when its number is written as it is -/
lemma run_moveCmd (ht : t.mode = .ground) {n m : ℕ} (hn : toInt n = m) {final : Char}
    (hfinal : 0x40 ≤ (ch final).toNat ∧ (ch final).toNat ≤ 0x7e) :
    t.run w (moveCmd n final) = { t.move w (max 1 m) (ch final) with mode := .ground } := by
  have hdigits : ∀ b ∈ natText m, 0x30 ≤ b.toNat ∧ b.toNat ≤ 0x39 :=
    fun b hb => isDigit_toNat (Json.natText_isDigit m b hb)
  have hrun := run_csi (w := w) ht (Json.natText_ne_nil m) hdigits hfinal
  rw [value_natText] at hrun
  rw [moveCmd, hn, intText_natCast]
  exact hrun

/-- The rows -/
def vertical (w a b : ℕ) : List UInt8 :=
  if b / w < a / w then moveCmd (a / w - b / w) 'A'
  else if b / w > a / w then moveCmd (b / w - a / w) 'B' else []

/-- The columns -/
def horizontal (w a b : ℕ) : List UInt8 :=
  if b % w < a % w then moveCmd (a % w - b % w) 'D'
  else if b % w > a % w then moveCmd (b % w - a % w) 'C' else []

lemma run_vertical (ht : t.mode = .ground) {a b : ℕ} (hrow : t.row = (a / w : ℕ)) (h : Spans w a b) :
    t.run w (vertical w a b) = { t with row := (b / w : ℕ) } := by
  rcases h with ⟨hup, hdown, _, _⟩
  rw [vertical]
  split_ifs with hlt hgt
  · rw [run_moveCmd ht (toInt_eq hup) (by decide)]
    have hmax : max 1 (a / w - b / w) = a / w - b / w := by omega
    have hto : t.row - (a / w - b / w : ℕ) = (b / w : ℕ) := by omega
    simp [move, ch, hmax, hto, ← ht]
  · rw [run_moveCmd ht (toInt_eq hdown) (by decide)]
    have hmax : max 1 (b / w - a / w) = b / w - a / w := by omega
    have hto : t.row + (b / w - a / w : ℕ) = (b / w : ℕ) := by omega
    simp [move, ch, hmax, hto, ← ht]
  · have heq : a / w = b / w := by omega
    rw [heq] at hrow
    simp [← hrow]

lemma run_horizontal (hw : 0 < w) (ht : t.mode = .ground) {a b : ℕ} (hcolumn : t.column = a % w)
    (h : Spans w a b) : t.run w (horizontal w a b) = { t with column := b % w } := by
  rcases h with ⟨_, _, hleft, hright⟩
  have hlt := Nat.mod_lt b hw
  rw [horizontal]
  split_ifs with hb hb'
  · rw [run_moveCmd ht (toInt_eq hleft) (by decide)]
    have hmax : max 1 (a % w - b % w) = a % w - b % w := by omega
    have hto : t.column - (a % w - b % w) = b % w := by omega
    simp [move, ch, hmax, hto, ← ht]
  · rw [run_moveCmd ht (toInt_eq hright) (by decide)]
    have hmax : max 1 (b % w - a % w) = b % w - a % w := by omega
    have hto : min (t.column + (b % w - a % w)) (w - 1) = b % w := by omega
    simp [move, ch, hmax, hto, ← ht]
  · have heq : a % w = b % w := by omega
    rw [heq] at hcolumn
    simp [← hcolumn]

/-! ## Texts -/

/-- What the cells show of a text -/
def content (text : List UInt32) (j : ℕ) : ℕ := (text[j]?.map UInt32.toNat).getD blank

/-- A character of one cell -/
def OneCell (c : UInt32) : Prop := Glyph c.toNat

lemma OneCell.lt {c : UInt32} (h : OneCell c) : c < 0x110000 := by
  refine UInt32.lt_iff_toNat_lt.mpr ?_
  rcases h with ⟨_, h⟩ | ⟨_, h⟩
  · exact Nat.lt_trans h (by decide)
  · exact h

/-- **A character** is put into its cell. -/
lemma run_append_glyph {c : UInt32} (hc : OneCell c) (ht : t.mode = .ground) :
    t.run w (Unicode.append c.toNat) = t.put w c.toNat := by
  have hgroup := Unicode.append_group (UInt32.lt_iff_toNat_lt.mp hc.lt)
  have hc' : Glyph c.toNat := hc
  generalize c.toNat = n at hgroup hc'
  generalize Unicode.append n = g at hgroup
  cases hgroup with
  | one ha => exact run_one ht ha hc'
  | two ha ha' hb => rw [run_two ht ha ha' hb, shown, if_pos hc']
  | three ha ha' hb hc => rw [run_three ht ha ha' hb hc, shown, if_pos hc']
  | four ha ha' hb hc hd => rw [run_four ht ha ha' hb hc hd, shown, if_pos hc']

/-- The separators of `promptWrite` -/
def crlf : List UInt32 := [0x0d, 0x0a]

lemma wrappedBuffer_eq (hw : 0 < w) {i : ℕ} (hi : i % w = 0) (buffer : List UInt32) :
    wrappedBuffer w buffer = lines (fun c => [c]) w crlf i buffer := by
  induction hm : buffer.length using Nat.strongRecOn generalizing buffer i with
  | _ m ih =>
    rw [wrappedBuffer]
    by_cases hnil : buffer = []
    · rw [dif_pos (Or.inl hnil), hnil, lines]
    have hpos := List.length_pos_iff.mpr hnil
    have hlen : (buffer.take w).length = min buffer.length w := by
      rw [List.length_take, Nat.min_comm]
    have hne : buffer.take w ≠ [] := List.ne_nil_of_length_pos (by omega)
    have hfirst := lines_line (fun c => [c]) w crlf hw (i := i) hne (by omega)
    have hmap : (buffer.take w).flatMap (fun c => [c]) = buffer.take w := List.flatMap_singleton' _
    have htake : buffer.take (min buffer.length w) = buffer.take w := by
      rcases Nat.le_total buffer.length w with hle | hle
      · rw [Nat.min_eq_left hle, List.take_length, List.take_of_length_le hle]
      · rw [Nat.min_eq_right hle]
    rw [dif_neg (not_or.mpr ⟨hnil, by omega⟩)]
    simp only
    rw [htake, ← hlen]
    by_cases hfull : (buffer.take w).length = w
    · have hrest := ih (buffer.drop w).length (by rw [List.length_drop]; omega) (i := i + w)
        (by rw [Nat.add_mod_right]; exact hi) (buffer.drop w) rfl
      conv_rhs => rw [← List.take_append_drop w buffer, lines_append, hfirst, hmap, hfull]
      rw [hrest, if_pos hfull, if_pos (by omega)]
      rfl
    · have hdrop : buffer.drop w = [] := List.drop_eq_nil_of_le (by omega)
      have hall : buffer.take w = buffer := List.take_of_length_le (by omega)
      rw [hall] at hfirst hmap hfull ⊢
      rw [hfirst, hmap, if_neg hfull, if_neg (by omega), hdrop, wrappedBuffer, dif_pos (Or.inl rfl),
        List.append_nil]

/-- **The offset** skips as many elements as were written for the characters in front. -/
lemma drop_wrappedBuffer (hw : 0 < w) {buffer : List UInt32} {o : ℕ} (ho : o ≤ buffer.length) :
    (wrappedBuffer w buffer).drop (o + o / w * 2) = lines (fun c => [c]) w crlf o (buffer.drop o) := by
  have hcrlf : crlf.length = 2 := rfl
  have hlength := length_lines w hw hcrlf 0 (buffer.take o)
  have htake : (buffer.take o).length = o := by
    rw [List.length_take, Nat.min_eq_left ho]
  rw [htake, Nat.zero_div, Nat.zero_mul, Nat.add_zero, Nat.zero_add] at hlength
  have hsplit : wrappedBuffer w buffer = lines (fun c => [c]) w crlf 0 (buffer.take o)
      ++ lines (fun c => [c]) w crlf o (buffer.drop o) := by
    rw [wrappedBuffer_eq hw (Nat.zero_mod w)]
    conv_lhs => rw [← List.take_append_drop o buffer, lines_append, htake, Nat.zero_add]
  rw [hsplit, ← hlength, List.drop_left]

/-- What is written between the two sequences -/
def glyphLines (w i : ℕ) (text : List UInt32) : List UInt8 :=
  lines (fun c : UInt32 => Unicode.append c.toNat) w [0x0d, 0x0a] i text

lemma lt_of_mem_lines {enc : UInt32 → List UInt32} {sep : List UInt32} {i : ℕ} {text : List UInt32}
    (henc : ∀ c ∈ text, ∀ d ∈ enc c, d < 0x110000) (hsep : ∀ d ∈ sep, d < 0x110000) :
    ∀ d ∈ lines enc w sep i text, d < 0x110000 := by
  induction text generalizing i with
  | nil => exact fun _ hd => absurd hd List.not_mem_nil
  | cons c text ih =>
    intro d hd
    rcases List.mem_append.mp hd with hd | hd
    · rcases List.mem_append.mp hd with hd | hd
      · exact henc c List.mem_cons_self d hd
      · split at hd
        · exact hsep d hd
        · exact absurd hd List.not_mem_nil
    · exact ih (fun c' hc' => henc c' (List.mem_cons_of_mem c hc')) d hd

lemma appendAll_wrapped (hw : 0 < w) {buffer : List UInt32} (hglyph : ∀ c ∈ buffer, OneCell c) {o : ℕ}
    (ho : o ≤ buffer.length) (str : List UInt8) :
    (Unicode.appendAll ((wrappedBuffer w buffer).drop (o + o / w * 2)) str).2
      = str ++ glyphLines w o (buffer.drop o) := by
  have hlt : ∀ d ∈ lines (fun c => [c]) w crlf o (buffer.drop o), d < 0x110000 := by
    refine lt_of_mem_lines ?_ (by simp [crlf])
    intro c hc d hd
    rw [List.mem_singleton.mp hd]
    exact (hglyph c (List.mem_of_mem_drop hc)).lt
  have hflat := flatMap_lines (fun c => [c]) w crlf (fun c : UInt32 => Unicode.append c.toNat) o (buffer.drop o)
  rw [drop_wrappedBuffer hw ho, Unicode.appendAll_eq hlt]
  simp only [List.flatMap_singleton] at hflat
  exact congrArg (str ++ ·) hflat

/-! ## What is written -/

/-- What the cells show, and where the cursor is, when all output is on the screen -/
def OnScreen (t₀ : Terminal) (f : ℕ → ℕ) (i : ℕ) (p : Prompt) : Prop :=
  Displays p.stdoutScreenWidth f i (t₀.run p.stdoutScreenWidth p.bufferedOutput)

variable {t₀ : Terminal} {f g : ℕ → ℕ} {i j : ℕ} {p : Prompt}

lemma OnScreen.writeConsole (h : OnScreen t₀ f i p) {data : List UInt8}
    (hdata : ∀ t, Displays p.stdoutScreenWidth f i t →
      Displays p.stdoutScreenWidth g j (t.run p.stdoutScreenWidth data)) :
    OnScreen t₀ g j (p.writeConsole data) := by
  have hrun := hdata _ h
  rw [← run_append] at hrun
  exact hrun

/-- **`moveCursorPosition`** -/
lemma OnScreen.move (h : OnScreen t₀ f i p) (hw : 0 < p.stdoutScreenWidth) {x : ℤ} (hx : (i + x).toNat = j)
    (hspan : Spans p.stdoutScreenWidth i j) : OnScreen t₀ f j (p.moveCursorPosition i x) := by
  have hcmd : p.moveCursorPosition i x
      = p.writeConsole (vertical p.stdoutScreenWidth i j ++ horizontal p.stdoutScreenWidth i j) := by
    rw [← hx]
    rfl
  rw [hcmd]
  refine h.writeConsole fun t ht => ?_
  rw [run_append, run_vertical ht.mode ht.row hspan]
  have hcolumns := run_horizontal (t := { t with row := (j / p.stdoutScreenWidth : ℕ) }) hw ht.mode
    ht.column hspan
  rw [hcolumns]
  exact ht.at j rfl rfl

lemma run_autoWrapOff (ht : t.mode = .ground) : t.run w autoWrapOff = t :=
  run_private ht 0x6c (by decide)

lemma run_autoWrapOn (ht : t.mode = .ground) : t.run w autoWrapOn = t :=
  run_private ht 0x68 (by decide)

/-- What was there in front of the offset, and the text behind it -/
lemma overwrite_content {text : List UInt32} {o : ℕ} (hfront : ∀ j < o, f j = content text j)
    (hblank : ∀ j, text.length ≤ j → f j = blank) :
    overwrite f o ((text.drop o).map UInt32.toNat) = content text := by
  funext j
  rw [overwrite]
  split
  next hle =>
    rw [List.getElem?_map, List.getElem?_drop, Nat.add_sub_cancel' hle, content]
    cases hj : text[j]? with
    | none => exact hblank j (List.getElem?_eq_none_iff.mp hj)
    | some c => rfl
  next hlt => exact hfront j (Nat.not_le.mp hlt)

lemma content_blank (text : List UInt32) : content (text ++ [0x20]) = content text := by
  funext j
  rw [content, content]
  rcases Nat.lt_trichotomy j text.length with hlt | rfl | hgt
  · rw [List.getElem?_append_left hlt]
  · rw [List.getElem?_append_right (Nat.le_refl _), Nat.sub_self, List.getElem?_eq_none (Nat.le_refl _)]
    rfl
  · rw [List.getElem?_eq_none (by simp; omega), List.getElem?_eq_none (by omega)]

/-- **`promptWrite`** from the cursor on -/
lemma OnScreen.write {o : ℕ} (h : OnScreen t₀ f o p) (hw : 0 < p.stdoutScreenWidth) {text : List UInt32}
    {clearStr : List UInt8} (htext : p.prompt ++ p.input ++ clearStr.map UInt8.toUInt32 = text)
    (ho : o ≤ text.length) (hfront : ∀ j < o, f j = content text j)
    (hblank : ∀ j, text.length ≤ j → f j = blank) (hglyph : ∀ c ∈ text, OneCell c)
    (hcaret : p.caretPos ≤ p.input.length + clearStr.length)
    (hspan : p.caretPos < p.input.length + clearStr.length →
      Spans p.stdoutScreenWidth text.length (p.prompt.length + p.caretPos)) :
    OnScreen t₀ (content text) (p.prompt.length + p.caretPos) (p.promptWrite o clearStr) := by
  have hlength : text.length = p.prompt.length + p.input.length + clearStr.length := by
    simp [← htext, Nat.add_assoc]
  have hwritten : OnScreen t₀ (content text) text.length (p.writeConsole
      ((Unicode.appendAll ((wrappedBuffer p.stdoutScreenWidth text).drop
        (o + o / p.stdoutScreenWidth * 2)) autoWrapOff).2 ++ autoWrapOn)) := by
    refine h.writeConsole fun t ht => ?_
    have hbreak : Break [0x0d, 0x0a] := Or.inl rfl
    have hlines := displays_lines hw (fun c : UInt32 => Unicode.append c.toNat) UInt32.toNat (text.drop o)
      (fun c hc t ht => run_append_glyph (hglyph c (List.mem_of_mem_drop hc)) ht) hbreak ht
    rw [overwrite_content hfront hblank, List.length_drop, Nat.add_sub_cancel' ho] at hlines
    rw [appendAll_wrapped hw hglyph ho, run_append, run_append, run_autoWrapOff ht.mode]
    exact (run_autoWrapOn hlines.mode).symm ▸ hlines
  rw [promptWrite, htext]
  split
  next hlt =>
    have hto : ((text.length : ℤ) + -((p.input.length + clearStr.length - p.caretPos : ℕ) : ℤ)).toNat
        = p.prompt.length + p.caretPos := by omega
    have hmoved := hwritten.move hw hto (hspan hlt)
    rw [hlength] at hmoved
    exact hmoved
  next hge =>
    have hend : text.length = p.prompt.length + p.caretPos := by
      rw [hlength]
      have hge' : ¬ p.caretPos < p.input.length + clearStr.length := hge
      omega
    rw [← hend]
    exact hwritten

/-- The lines of blanks of `promptClear` -/
lemma blankLines_eq (hw : 0 < w) {i : ℕ} (hi : i % w = 0) (q : ℕ) {r : ℕ} (hr : r < w) :
    lines (fun c => [c]) w [0x0a, 0x0d] i (List.replicate (q * w + r) (ch ' '))
      = (List.replicate q (List.replicate w (ch ' ') ++ [0x0a, 0x0d])).flatten
        ++ List.replicate r (ch ' ') := by
  induction q generalizing i with
  | zero =>
    rw [Nat.zero_mul, Nat.zero_add]
    cases r with
    | zero => rfl
    | succ r =>
      have hne : List.replicate (r + 1) (ch ' ') ≠ [] := List.cons_ne_nil _ _
      have hline := lines_line (fun c => [c]) w [0x0a, 0x0d] hw (i := i) hne
        (by rw [List.length_replicate]; omega)
      rw [hline, List.length_replicate, if_neg (by omega), List.append_nil, List.flatMap_singleton']
      rfl
  | succ q ih =>
    have hne : List.replicate w (ch ' ') ≠ [] :=
      List.ne_nil_of_length_pos (by rw [List.length_replicate]; exact hw)
    have hline := lines_line (fun c => [c]) w [0x0a, 0x0d] hw (i := i) hne
      (by rw [List.length_replicate]; omega)
    have hsplit : List.replicate ((q + 1) * w + r) (ch ' ')
        = List.replicate w (ch ' ') ++ List.replicate (q * w + r) (ch ' ') := by
      rw [List.replicate_append_replicate, Nat.succ_mul]
      congr 1
      omega
    rw [hsplit, lines_append, hline, List.length_replicate, if_pos (by omega),
      ih (by rw [Nat.add_mod_right]; exact hi), List.flatMap_singleton', List.replicate_succ,
      List.flatten_cons, List.append_assoc _ _ (List.replicate r _)]

lemma run_space (ht : t.mode = .ground) : t.run w [ch ' '] = t.put w blank :=
  run_one ht (by decide) (by decide)

/-- Lines of blanks from the cursor on -/
lemma displays_spaces (hw : 0 < w) (h : Displays w f i t) (n : ℕ) :
    Displays w (overwrite f i (List.replicate n blank)) (i + n)
      (t.run w (lines (fun c => [c]) w [0x0a, 0x0d] i (List.replicate n (ch ' ')))) := by
  have hbreak : Break [0x0a, 0x0d] := Or.inr rfl
  have hlines := displays_lines hw (fun c => [c]) (fun _ => blank) (List.replicate n (ch ' '))
    (fun c hc t ht => by rw [List.eq_of_mem_replicate hc]; exact run_space ht) hbreak h
  rwa [List.map_replicate, List.length_replicate] at hlines

/-- Blanks from the start on -/
lemma displays_blanks (hw : 0 < w) (h : Displays w f 0 t) {n : ℕ} (hblank : ∀ j, n ≤ j → f j = blank) :
    Displays w (fun _ => blank) n (t.run w ((List.replicate (n / w)
      (List.replicate w (ch ' ') ++ [0x0a, 0x0d])).flatten ++ List.replicate (n % w) (ch ' '))) := by
  have hlines := displays_spaces hw h n
  have hall : overwrite f 0 (List.replicate n blank) = fun _ => blank := by
    funext j
    rw [overwrite, if_pos (Nat.zero_le j), Nat.sub_zero]
    rcases Nat.lt_or_ge j n with hlt | hge
    · rw [List.getElem?_replicate, if_pos hlt]
      rfl
    · rw [List.getElem?_eq_none (by simpa using hge)]
      exact hblank j hge
  have heq := blankLines_eq hw (Nat.zero_mod w) (n / w) (Nat.mod_lt n hw)
  rw [Nat.div_add_mod'] at heq
  rw [hall, Nat.zero_add, heq] at hlines
  exact hlines

/-- CR, in the first row -/
lemma displays_return (h : Displays w f i t) (hi : i < w) : Displays w f 0 (t.run w [0x0d]) := by
  have hrun : t.run w [0x0d] = { t with column := 0 } := by
    simp [step, h.mode]
  have hrow : t.row = (0 / w : ℕ) := by
    rw [h.row, Nat.div_eq_of_lt hi, Nat.zero_div]
  rw [hrun]
  exact ⟨h.mode, hrow, (Nat.zero_mod w).symm, h.cells⟩

/-- What `promptClear` writes over more than one line -/
def clearCmd (w n : ℕ) : List UInt8 :=
  autoWrapOff ++ (List.replicate (n / w) (List.replicate w (ch ' ') ++ [0x0a, 0x0d])).flatten
    ++ List.replicate (n - n / w * w) (ch ' ') ++ autoWrapOn

lemma promptClear_tall (p : Prompt) {n : ℕ} (hn : n = p.prompt.length + p.input.length)
    (htall : n / p.stdoutScreenWidth ≠ 0) :
    p.promptClear = (((p.moveCursorPosition (p.prompt.length + p.caretPos)
      (-((p.caretPos + p.prompt.length : ℕ) : ℤ))).writeConsole
        (clearCmd p.stdoutScreenWidth n)).moveCursorPosition n (-(n : ℤ))) := by
  subst hn
  rw [promptClear, if_pos htall]
  rfl

/-- **`promptClear`** -/
lemma OnScreen.clear (hw : 0 < p.stdoutScreenWidth)
    (h : OnScreen t₀ (content (p.prompt ++ p.input)) (p.prompt.length + p.caretPos) p)
    (hcaret : p.caretPos ≤ p.input.length)
    (hspans : (p.prompt.length + p.input.length) / p.stdoutScreenWidth ≠ 0 →
      Spans p.stdoutScreenWidth (p.prompt.length + p.caretPos) 0 ∧
        Spans p.stdoutScreenWidth (p.prompt.length + p.input.length) 0) :
    OnScreen t₀ (fun _ => blank) 0 p.promptClear := by
  have hblank : ∀ j, p.prompt.length + p.input.length ≤ j → content (p.prompt ++ p.input) j = blank := by
    intro j hj
    rw [content, List.getElem?_eq_none (by simpa using hj)]
    rfl
  by_cases htall : (p.prompt.length + p.input.length) / p.stdoutScreenWidth ≠ 0
  · rcases hspans htall with ⟨hspan, hspan'⟩
    have hmoved := h.move hw (j := 0) (x := -((p.caretPos + p.prompt.length : ℕ) : ℤ)) (by omega) hspan
    have hcleared : OnScreen t₀ (fun _ => blank) (p.prompt.length + p.input.length)
        ((p.moveCursorPosition (p.prompt.length + p.caretPos)
          (-((p.caretPos + p.prompt.length : ℕ) : ℤ))).writeConsole
          (clearCmd p.stdoutScreenWidth (p.prompt.length + p.input.length))) := by
      refine hmoved.writeConsole fun t ht => ?_
      have hblanks := displays_blanks hw ht hblank
      rw [clearCmd, ← Nat.mod_eq_sub_div_mul, run_append, List.append_assoc, run_append,
        run_autoWrapOff ht.mode]
      exact (run_autoWrapOn hblanks.mode).symm ▸ hblanks
    rw [promptClear_tall p rfl htall]
    exact hcleared.move hw (by omega) hspan'
  · have hzero : (p.prompt.length + p.input.length) / p.stdoutScreenWidth = 0 := not_not.mp htall
    have hlt := (Nat.div_eq_zero_iff_lt hw).mp hzero
    rw [promptClear, if_neg htall]
    refine h.writeConsole fun t ht => ?_
    have hfirst := displays_return ht (by omega)
    have hblanks := displays_blanks hw hfirst hblank
    rw [hzero, Nat.mod_eq_of_lt hlt, List.replicate_zero, List.flatten_nil, List.nil_append] at hblanks
    have hlast := displays_return hblanks hlt
    rw [List.append_assoc, run_append, run_autoWrapOff ht.mode, List.cons_append,
      ← List.singleton_append, run_append, run_append, ← List.singleton_append, run_append]
    exact (run_autoWrapOn hlast.mode).symm ▸ hlast

/-! ## Operations -/

/-- The prompt and the line behind it, and the cursor at the caret -/
structure Shown (t₀ : Terminal) (p : Prompt) : Prop where
  screen : OnScreen t₀ (content (p.prompt ++ p.input)) (p.prompt.length + p.caretPos) p
  caretPos_le : p.caretPos ≤ p.input.length
  oneCell : ∀ c ∈ p.prompt ++ p.input, OneCell c

/-- Another line, behind `promptWrite` with a blank behind it or without -/
lemma shown_write (input : List UInt32) (k : ℕ) (hw : 0 < p.stdoutScreenWidth) {o : ℕ}
    (h : OnScreen t₀ f o p) {clearStr : List UInt8} (hclear : clearStr = [] ∨ clearStr = bytes " ")
    (hcaret : k ≤ input.length) (hglyph : ∀ c ∈ p.prompt ++ input, OneCell c)
    (ho : o ≤ p.prompt.length + input.length) (hfront : ∀ j < o, f j = content (p.prompt ++ input) j)
    (hblank : ∀ j, p.prompt.length + input.length + clearStr.length ≤ j → f j = blank)
    (hspan : k < input.length + clearStr.length → Spans p.stdoutScreenWidth
      (p.prompt.length + input.length + clearStr.length) (p.prompt.length + k)) :
    Shown t₀ (({ p with input := input, caretPos := k } : Prompt).promptWrite o clearStr) := by
  have htext : content (p.prompt ++ input ++ clearStr.map UInt8.toUInt32) = content (p.prompt ++ input) := by
    rcases hclear with rfl | rfl
    · rw [List.map_nil, List.append_nil]
    · exact content_blank _
  have hlength : (p.prompt ++ input ++ clearStr.map UInt8.toUInt32).length
      = p.prompt.length + input.length + clearStr.length := by
    rw [List.length_append, List.length_append, List.length_map]
  have hall : ∀ c ∈ p.prompt ++ input ++ clearStr.map UInt8.toUInt32, OneCell c := by
    intro c hc
    rcases List.mem_append.mp hc with hc | hc
    · exact hglyph c hc
    · rcases hclear with rfl | rfl
      · exact absurd hc List.not_mem_nil
      · rw [List.mem_singleton.mp hc]
        exact Or.inl (by decide)
  have hscreen := OnScreen.write (p := { p with input := input, caretPos := k }) h hw rfl
    (by rw [hlength]; omega) (by rw [htext]; exact hfront) (by rw [hlength]; exact hblank) hall
    (Nat.le_trans hcaret (Nat.le_add_right _ _)) (by rw [hlength]; exact hspan)
  rw [htext] at hscreen
  rcases promptWrite_eq { p with input := input, caretPos := k } o clearStr with ⟨out, hout⟩
  rw [hout] at hscreen ⊢
  exact ⟨hscreen, hcaret, hglyph⟩

/-- Two texts show the same where they are the same. -/
lemma content_append (text rest rest' : List UInt32) {j : ℕ} (hj : j < text.length) :
    content (text ++ rest) j = content (text ++ rest') j := by
  rw [content, content, List.getElem?_append_left hj, List.getElem?_append_left hj]

/-- In front of the caret, another line shows the same. -/
lemma content_front (prompt input rest : List UInt32) {k j : ℕ} (hk : k ≤ input.length)
    (hj : j < prompt.length + k) :
    content (prompt ++ input) j = content (prompt ++ (input.take k ++ rest)) j := by
  have hlength : (prompt ++ input.take k).length = prompt.length + k := by
    rw [List.length_append, List.length_take, Nat.min_eq_left hk]
  have hsame := content_append (prompt ++ input.take k) (input.drop k) rest (j := j) (by omega)
  rwa [List.append_assoc, List.append_assoc, List.take_append_drop] at hsame

lemma content_end (text : List UInt32) {j : ℕ} (hj : text.length ≤ j) : content text j = blank := by
  rw [content, List.getElem?_eq_none hj]
  rfl

/-- Nothing but the caret changes. -/
lemma Shown.move (h : Shown t₀ p) (hw : 0 < p.stdoutScreenWidth) (k : ℕ) {x : ℤ}
    (hx : ((p.prompt.length + p.caretPos : ℕ) + x).toNat = p.prompt.length + k) (hle : k ≤ p.input.length)
    (hspan : Spans p.stdoutScreenWidth (p.prompt.length + p.caretPos) (p.prompt.length + k)) :
    Shown t₀ { p.moveCursorPosition (p.prompt.length + p.caretPos) x with caretPos := k } :=
  ⟨h.screen.move hw hx hspan, hle, h.oneCell⟩

/-- The moves of `promptClear` -/
def clearMoves (p : Prompt) : List (ℕ × ℕ) :=
  if (p.prompt.length + p.input.length) / p.stdoutScreenWidth ≠ 0 then
    [(p.prompt.length + p.caretPos, 0), (p.prompt.length + p.input.length, 0)]
  else []

/-- The moves of the cursor that a key makes, from where and to where -/
def moves (p : Prompt) : Key UInt32 → List (ℕ × ℕ)
  | .char _ =>
    if p.caretPos < p.input.length then
      [(p.prompt.length + p.input.length + 1, p.prompt.length + p.caretPos + 1)]
    else []
  | .backspace =>
    if p.caretPos > 0 then
      [(p.prompt.length + p.caretPos, p.prompt.length + p.caretPos - 1),
        (p.prompt.length + p.input.length, p.prompt.length + p.caretPos - 1)]
    else []
  | .delete =>
    if p.caretPos < p.input.length then
      [(p.prompt.length + p.input.length, p.prompt.length + p.caretPos)]
    else []
  | .left =>
    if p.caretPos > 0 then [(p.prompt.length + p.caretPos, p.prompt.length + p.caretPos - 1)] else []
  | .right =>
    if p.caretPos < p.input.length then
      [(p.prompt.length + p.caretPos, p.prompt.length + p.caretPos + 1)]
    else []
  | .home => if p.caretPos > 0 then [(p.prompt.length + p.caretPos, p.prompt.length)] else []
  | .toEnd =>
    if p.caretPos < p.input.length then
      [(p.prompt.length + p.caretPos, p.prompt.length + p.input.length)]
    else []
  | .up => if p.historyPos = 0 then [] else p.clearMoves
  | .down => if p.historyPos = p.history.length then [] else p.clearMoves

/-- No move is too far. -/
def Near (w : ℕ) (moves : List (ℕ × ℕ)) : Prop := ∀ m ∈ moves, Spans w m.1 m.2

lemma near_one {a b : ℕ} (h : Near w [(a, b)]) : Spans w a b := h _ List.mem_cons_self

lemma near_two {a b c d : ℕ} (h : Near w [(a, b), (c, d)]) : Spans w a b ∧ Spans w c d :=
  ⟨h _ List.mem_cons_self, h _ (List.mem_cons_of_mem _ List.mem_cons_self)⟩

lemma shown_insert (h : Shown t₀ p) (hw : 0 < p.stdoutScreenWidth) {c : UInt32} (hc : OneCell c)
    (hnear : Near p.stdoutScreenWidth (p.moves (.char c))) : Shown t₀ (p.promptInsert c) := by
  have hle := h.caretPos_le
  have hinput : (if p.caretPos ≠ p.input.length then
      p.input.take p.caretPos ++ [c] ++ p.input.drop p.caretPos else p.input ++ [c])
        = p.input.take p.caretPos ++ c :: p.input.drop p.caretPos := by
    split
    next => rw [List.append_assoc, List.singleton_append]
    next hend => rw [not_not.mp hend, List.take_length, List.drop_length]
  have hlength : (p.input.take p.caretPos ++ c :: p.input.drop p.caretPos).length = p.input.length + 1 := by
    simp
    omega
  rw [promptInsert, hinput]
  refine shown_write (p.input.take p.caretPos ++ c :: p.input.drop p.caretPos) (p.caretPos + 1)
    hw h.screen (Or.inl rfl) ?_ ?_ ?_ ?_ ?_ ?_
  · rw [hlength]
    omega
  · intro d hd
    rcases List.mem_append.mp hd with hd | hd
    · exact h.oneCell d (List.mem_append_left _ hd)
    · rcases List.mem_append.mp hd with hd | hd
      · exact h.oneCell d (List.mem_append_right _ (List.mem_of_mem_take hd))
      · rcases List.mem_cons.mp hd with rfl | hd
        · exact hc
        · exact h.oneCell d (List.mem_append_right _ (List.mem_of_mem_drop hd))
  · rw [hlength]
    omega
  · intro j hj
    exact content_front _ _ _ hle hj
  · intro j hj
    rw [hlength] at hj
    exact content_end _ (by rw [List.length_append]; omega)
  · intro hlt
    rw [hlength] at hlt ⊢
    rw [moves, if_pos (Nat.lt_of_succ_lt_succ hlt)] at hnear
    exact near_one hnear

/-- Nothing but the caret changes. -/
lemma shown_left (h : Shown t₀ p) (hw : 0 < p.stdoutScreenWidth)
    (hnear : Near p.stdoutScreenWidth (p.moves .left)) : Shown t₀ p.promptMoveLeft := by
  have hle := h.caretPos_le
  rw [promptMoveLeft]
  split
  next hpos =>
    rw [moves, if_pos hpos] at hnear
    have hspan := near_one hnear
    rw [Nat.add_sub_assoc hpos] at hspan
    exact h.move hw (p.caretPos - 1) (by omega) (by omega) hspan
  next => exact h

lemma shown_right (h : Shown t₀ p) (hw : 0 < p.stdoutScreenWidth)
    (hnear : Near p.stdoutScreenWidth (p.moves .right)) : Shown t₀ p.promptMoveRight := by
  rw [promptMoveRight]
  split
  next hlt =>
    rw [moves, if_pos hlt] at hnear
    exact h.move hw (p.caretPos + 1) (by omega) hlt (near_one hnear)
  next => exact h

lemma shown_home (h : Shown t₀ p) (hw : 0 < p.stdoutScreenWidth)
    (hnear : Near p.stdoutScreenWidth (p.moves .home)) : Shown t₀ p.promptMoveHome := by
  rw [promptMoveHome]
  split
  next hpos =>
    rw [moves, if_pos hpos] at hnear
    exact h.move hw 0 (by omega) (Nat.zero_le _) (near_one hnear)
  next => exact h

lemma shown_toEnd (h : Shown t₀ p) (hw : 0 < p.stdoutScreenWidth)
    (hnear : Near p.stdoutScreenWidth (p.moves .toEnd)) : Shown t₀ p.promptMoveEnd := by
  rw [promptMoveEnd]
  split
  next hlt =>
    rw [moves, if_pos hlt] at hnear
    exact h.move hw p.input.length (by omega) (Nat.le_refl _) (near_one hnear)
  next => exact h

/-- **A character is taken out** at the cursor, and a blank is written behind the line. -/
lemma shown_takeOut {k : ℕ} (hw : 0 < p.stdoutScreenWidth) (hk : k < p.input.length)
    (hscreen : OnScreen t₀ (content (p.prompt ++ p.input)) (p.prompt.length + k) p)
    (hglyph : ∀ c ∈ p.prompt ++ p.input, OneCell c)
    (hspan : Spans p.stdoutScreenWidth (p.prompt.length + p.input.length) (p.prompt.length + k)) :
    Shown t₀ (({ p with input := p.input.take k ++ p.input.drop (k + 1), caretPos := k } : Prompt).promptWrite
      (p.prompt.length + k) (bytes " ")) := by
  have hlength : (p.input.take k ++ p.input.drop (k + 1)).length + 1 = p.input.length := by
    simp
    omega
  refine shown_write (p.input.take k ++ p.input.drop (k + 1)) k hw hscreen (Or.inr rfl) ?_ ?_ ?_ ?_ ?_ ?_
  · omega
  · intro d hd
    rcases List.mem_append.mp hd with hd | hd
    · exact hglyph d (List.mem_append_left _ hd)
    · rcases List.mem_append.mp hd with hd | hd
      · exact hglyph d (List.mem_append_right _ (List.mem_of_mem_take hd))
      · exact hglyph d (List.mem_append_right _ (List.mem_of_mem_drop hd))
  · omega
  · intro j hj
    exact content_front _ _ _ (Nat.le_of_lt hk) hj
  · intro j hj
    have hone : (bytes " ").length = 1 := rfl
    refine content_end _ ?_
    rw [List.length_append]
    omega
  · intro _
    have hone : (bytes " ").length = 1 := rfl
    rw [hone, Nat.add_assoc, hlength]
    exact hspan

lemma shown_delete (h : Shown t₀ p) (hw : 0 < p.stdoutScreenWidth)
    (hnear : Near p.stdoutScreenWidth (p.moves .delete)) : Shown t₀ p.promptRemoveNext := by
  rw [promptRemoveNext]
  split
  next hlt =>
    rw [moves, if_pos hlt] at hnear
    have hinput : (if p.caretPos ≠ p.input.length - 1 then
        p.input.take p.caretPos ++ p.input.drop (p.caretPos + 1) else p.input.take p.caretPos)
          = p.input.take p.caretPos ++ p.input.drop (p.caretPos + 1) := by
      split
      next => rfl
      next hend => rw [List.drop_eq_nil_of_le (by omega), List.append_nil]
    rw [hinput]
    exact shown_takeOut hw hlt h.screen h.oneCell (near_one hnear)
  next => exact h

lemma shown_backspace (h : Shown t₀ p) (hw : 0 < p.stdoutScreenWidth)
    (hnear : Near p.stdoutScreenWidth (p.moves .backspace)) : Shown t₀ p.promptRemove := by
  have hle := h.caretPos_le
  rw [promptRemove]
  split
  next hpos =>
    rw [moves, if_pos hpos.2] at hnear
    rcases near_two hnear with ⟨hleft, hspan⟩
    have hinput : (if p.caretPos ≠ p.input.length then
        p.input.take (p.caretPos - 1) ++ p.input.drop p.caretPos else p.input.take (p.input.length - 1))
          = p.input.take (p.caretPos - 1) ++ p.input.drop (p.caretPos - 1 + 1) := by
      rw [Nat.sub_add_cancel hpos.2]
      split
      next => rfl
      next hend => rw [not_not.mp hend, List.drop_length, List.append_nil]
    rw [hinput]
    rw [Nat.add_sub_assoc hpos.2] at hleft hspan
    have hmoved := h.screen.move hw (x := -1) (by omega) hleft
    simp only [promptMoveLeft, if_pos hpos.2]
    exact shown_takeOut (p := p.moveCursorPosition (p.prompt.length + p.caretPos) (-1)) hw
      (show p.caretPos - 1 < p.input.length by omega) hmoved h.oneCell hspan
  next => exact h

/-- `promptClear`, and then `promptWrite` with another line -/
lemma shown_rewrite (h : OnScreen t₀ (fun _ => blank) 0 p) (hw : 0 < p.stdoutScreenWidth)
    {input : List UInt32} {k : ℕ} (hk : k ≤ input.length) (hglyph : ∀ c ∈ p.prompt ++ input, OneCell c)
    (hspan : k < input.length →
      Spans p.stdoutScreenWidth (p.prompt.length + input.length) (p.prompt.length + k)) :
    Shown t₀ (({ p with input := input, caretPos := k } : Prompt).promptWrite 0 []) :=
  shown_write input k hw h (Or.inl rfl) hk hglyph (Nat.zero_le _) (fun _ hj => absurd hj (Nat.not_lt_zero _))
    (fun _ _ => rfl) hspan

lemma Shown.clear (h : Shown t₀ p) (hw : 0 < p.stdoutScreenWidth)
    (hnear : Near p.stdoutScreenWidth p.clearMoves) : OnScreen t₀ (fun _ => blank) 0 p.promptClear := by
  refine OnScreen.clear hw h.screen h.caretPos_le fun htall => ?_
  rw [clearMoves, if_pos htall] at hnear
  exact near_two hnear

/-- **Another entry** -/
lemma shown_showEntry (h : Shown t₀ p) (hw : 0 < p.stdoutScreenWidth)
    (hnear : Near p.stdoutScreenWidth p.clearMoves) {q : Prompt} (hq : p.showEntry = some q)
    (hinput : ∀ c ∈ q.input, OneCell c) : Shown t₀ q := by
  have hcleared := h.clear hw hnear
  rcases p.promptClear_eq with ⟨out, hout⟩
  rw [showEntry, hout] at hq
  rw [hout] at hcleared
  simp only [Option.bind_eq_bind, Option.bind_eq_some_iff] at hq
  rcases hq with ⟨entry, _, input, _, hq⟩
  have hq' := Option.some_inj.mp hq
  have hsame : q.input = input := by
    rcases promptWrite_eq { p with bufferedOutput := out, input := input, caretPos := input.length } 0 []
      with ⟨out', hout'⟩
    rw [← hq', hout']
  rw [← hq']
  refine shown_rewrite hcleared hw (Nat.le_refl _) ?_ fun hlt => absurd hlt (Nat.lt_irrefl _)
  intro c hc
  rcases List.mem_append.mp hc with hc | hc
  · exact h.oneCell c (List.mem_append_left _ hc)
  · exact hinput c (hsame ▸ hc)

lemma shown_up (h : Shown t₀ p) (hw : 0 < p.stdoutScreenWidth)
    (hnear : Near p.stdoutScreenWidth (p.moves .up)) {q : Prompt} (hq : p.promptHistoryUp = some q)
    (hinput : ∀ c ∈ q.input, OneCell c) : Shown t₀ q := by
  rw [promptHistoryUp] at hq
  by_cases hzero : p.historyPos = 0
  · rw [if_pos hzero] at hq
    exact Option.some_inj.mp hq ▸ h
  · rw [moves, if_neg hzero] at hnear
    rw [if_neg hzero] at hq
    have hmoved : ∀ (history : List (List UInt8)) (historyPos : ℕ) (remove : Bool),
        ({ p with history := history, historyPos := historyPos, historyRemoveLast := remove } : Prompt).showEntry
          = some q → Shown t₀ q := by
      intro history historyPos remove hshow
      have h' : Shown t₀ { p with
          history := history, historyPos := historyPos, historyRemoveLast := remove } :=
        ⟨h.screen, h.caretPos_le, h.oneCell⟩
      exact shown_showEntry h' hw hnear hshow hinput
    simp only at hq
    split at hq
    · exact hmoved _ _ _ hq
    · exact hmoved _ _ _ hq

lemma shown_down (h : Shown t₀ p) (hw : 0 < p.stdoutScreenWidth)
    (hnear : Near p.stdoutScreenWidth (p.moves .down)) {q : Prompt} (hq : p.promptHistoryDown = some q)
    (hinput : ∀ c ∈ q.input, OneCell c) : Shown t₀ q := by
  rw [promptHistoryDown] at hq
  by_cases hend : p.historyPos = p.history.length
  · rw [if_pos hend] at hq
    exact Option.some_inj.mp hq ▸ h
  · rw [moves, if_neg hend] at hnear
    rw [if_neg hend] at hq
    simp only [Option.bind_eq_bind, Option.bind_eq_some_iff] at hq
    rcases hq with ⟨q₁, hshow, hq⟩
    have h' : Shown t₀ { p with
        history := p.history.set p.historyPos (concharArrayToString p.utf8 p.input)
        historyPos := p.historyPos + 1 } := ⟨h.screen, h.caretPos_le, h.oneCell⟩
    split at hq
    · have hq' := Option.some_inj.mp hq
      have hshown := shown_showEntry h' hw hnear hshow (by rw [← hq'] at hinput; exact hinput)
      rw [← hq']
      exact ⟨hshown.screen, hshown.caretPos_le, hshown.oneCell⟩
    · have hq' := Option.some_inj.mp hq
      rw [← hq'] at hinput ⊢
      exact shown_showEntry h' hw hnear hshow hinput

/-! ## Runs -/

/-- The operation of a key -/
def press (p : Prompt) : Key UInt32 → Option Prompt
  | .char c => some (p.promptInsert c)
  | .backspace => some p.promptRemove
  | .delete => some p.promptRemoveNext
  | .left => some p.promptMoveLeft
  | .right => some p.promptMoveRight
  | .home => some p.promptMoveHome
  | .toEnd => some p.promptMoveEnd
  | .up => p.promptHistoryUp
  | .down => p.promptHistoryDown

/-- A character of one cell, which the history keeps as it is -/
def Shows (utf8 : Bool) (c : UInt32) : Prop := Encodable utf8 c ∧ OneCell c

/-- Runs of the operations whose moves are near.  Behind `promptClear` its callers go on with
    `promptWrite`, or they are done. -/
inductive Reaches (p₀ : Prompt) : Prompt → Bool → Prop
  | start : Reaches p₀ p₀ true
  | key {p q : Prompt} {k : Key UInt32} : Reaches p₀ p true → k.Is (Shows p.utf8) →
      Near p.stdoutScreenWidth (p.moves k) → p.press k = some q → Reaches p₀ q true
  | clear {p : Prompt} : Reaches p₀ p true → Near p.stdoutScreenWidth p.clearMoves →
      Reaches p₀ p.promptClear false
  | write {p : Prompt} : Reaches p₀ p false →
      (p.caretPos < p.input.length → Spans p.stdoutScreenWidth (p.prompt.length + p.input.length)
        (p.prompt.length + p.caretPos)) →
      Reaches p₀ (p.promptWrite 0 []) true

variable {s : Bool × ℕ × List UInt32} {e : LineEditor UInt32}

lemma represents_press (h : Represents s p e) {k : Key UInt32} (hk : k.Is (Encodable p.utf8)) :
    ∃ q, p.press k = some q ∧ Represents s q (e.press k) := by
  cases k with
  | char c => exact ⟨_, rfl, represents_insert h hk⟩
  | backspace => exact ⟨_, rfl, represents_backspace h⟩
  | delete => exact ⟨_, rfl, represents_delete h⟩
  | left => exact ⟨_, rfl, represents_left h⟩
  | right => exact ⟨_, rfl, represents_right h⟩
  | home => exact ⟨_, rfl, represents_home h⟩
  | toEnd => exact ⟨_, rfl, represents_toEnd h⟩
  | up => exact represents_up h
  | down => exact represents_down h

lemma Represents.clear (h : Represents s p e) : Represents s p.promptClear e := by
  rcases p.promptClear_eq with ⟨out, hout⟩
  rw [hout]
  exact h.output out

lemma shown_press (h : Shown t₀ p) (hw : 0 < p.stdoutScreenWidth) {k : Key UInt32} (hk : k.Is OneCell)
    (hnear : Near p.stdoutScreenWidth (p.moves k)) {q : Prompt} (hq : p.press k = some q)
    (hinput : ∀ c ∈ q.input, OneCell c) : Shown t₀ q := by
  cases k with
  | char c => exact Option.some_inj.mp hq ▸ shown_insert h hw hk hnear
  | backspace => exact Option.some_inj.mp hq ▸ shown_backspace h hw hnear
  | delete => exact Option.some_inj.mp hq ▸ shown_delete h hw hnear
  | left => exact Option.some_inj.mp hq ▸ shown_left h hw hnear
  | right => exact Option.some_inj.mp hq ▸ shown_right h hw hnear
  | home => exact Option.some_inj.mp hq ▸ shown_home h hw hnear
  | toEnd => exact Option.some_inj.mp hq ▸ shown_toEnd h hw hnear
  | up => exact shown_up h hw hnear hq hinput
  | down => exact shown_down h hw hnear hq hinput

/-- What is on the screen: the prompt and the line, or nothing -/
def Screen (t₀ : Terminal) (p : Prompt) : Bool → Prop
  | true => Shown t₀ p
  | false => OnScreen t₀ (fun _ => blank) 0 p ∧ p.caretPos ≤ p.input.length ∧
      ∀ c ∈ p.prompt ++ p.input, OneCell c

lemma key_is_and {P Q : UInt32 → Prop} {k : Key UInt32} (h : k.Is fun c => P c ∧ Q c) : k.Is P ∧ k.Is Q := by
  cases k with
  | char c => exact h
  | _ => exact ⟨trivial, trivial⟩

/-- **A run** -/
lemma reaches_screen {p₀ q : Prompt} (hw : 0 < p₀.stdoutScreenWidth) (hshown : Shown t₀ p₀)
    (hrep : Represents s p₀ e) (hone : e.All OneCell) {b : Bool} (h : Reaches p₀ q b) :
    Screen t₀ q b ∧ ∃ e', Represents s q e' ∧ e'.All OneCell := by
  have hwidth : ∀ {p : Prompt} {e : LineEditor UInt32}, Represents s p e → 0 < p.stdoutScreenWidth := by
    intro p e h
    have hsame := congrArg (·.2.1) (h.settings.trans hrep.settings.symm)
    have hsame' : p.stdoutScreenWidth = p₀.stdoutScreenWidth := hsame
    rwa [hsame']
  induction h with
  | start => exact ⟨hshown, e, hrep, hone⟩
  | @key p q k _ hk hnear hq ih =>
    rcases ih with ⟨hp, e', hrep', hone'⟩
    rcases key_is_and hk with ⟨hencodable, hcell⟩
    rcases represents_press hrep' hencodable with ⟨q', hq', hrep''⟩
    have hsame : q' = q := Option.some_inj.mp (hq'.symm.trans hq)
    rw [hsame] at hrep''
    have hone'' := hone'.press hcell
    refine ⟨shown_press hp (hwidth hrep') hcell hnear hq ?_, _, hrep'', hone''⟩
    rw [hrep''.input]
    exact hone''.line
  | @clear p _ hnear ih =>
    rcases ih with ⟨hp, e', hrep', hone'⟩
    have hcleared := Shown.clear hp (hwidth hrep') hnear
    refine ⟨?_, e', hrep'.clear, hone'⟩
    rcases p.promptClear_eq with ⟨out, hout⟩
    rw [hout] at hcleared ⊢
    exact ⟨hcleared, hp.caretPos_le, hp.oneCell⟩
  | @write p _ hspan ih =>
    rcases ih with ⟨⟨hscreen, hle, hglyph⟩, e', hrep', hone'⟩
    exact ⟨shown_rewrite hscreen (hwidth hrep') hle hglyph hspan, e', hrep'.write _ _, hone'⟩

lemma shown_start {p₀ : Prompt} (hw : 0 < p.stdoutScreenWidth) (hempty : OnScreen t₀ (fun _ => blank) 0 p)
    {prompt : List UInt8} (hstart : p.start prompt = some p₀) (hprompt : ∀ c ∈ p₀.prompt, OneCell c) :
    Shown t₀ p₀ := by
  rw [start] at hstart
  simp only [Option.bind_eq_bind, Option.bind_eq_some_iff] at hstart
  rcases hstart with ⟨data, _, hwrite⟩
  have hwrite' := Option.some_inj.mp hwrite
  have hsame : p₀.prompt = data := by
    rcases promptWrite_eq { p with
      prompt := data, historyPos := p.history.length, historyRemoveLast := false, input := []
      inputComplete := false, caretPos := 0 } 0 [] with ⟨out, hout⟩
    rw [← hwrite', hout]
  rw [← hwrite']
  refine shown_rewrite (p := { p with
    prompt := data, historyPos := p.history.length, historyRemoveLast := false, input := []
    inputComplete := false, caretPos := 0 }) hempty hw (Nat.le_refl 0) ?_ fun hlt => absurd hlt (Nat.not_lt_zero _)
  intro c hc
  exact hprompt c (by rw [hsame]; simpa using hc)

/-- **The screen**, from an empty row on.  Behind every operation it shows the prompt and the line, with the
    cursor at the caret, and behind `promptClear` nothing, as long as no move spans 2^31 rows or columns;
    and no operation of a key reads beyond something. -/
theorem runs_onScreen {p p₀ q : Prompt} (hw : 0 < p.stdoutScreenWidth)
    (hempty : OnScreen t₀ (fun _ => blank) 0 p) {lines : List (List UInt32)}
    (hhistory : p.history = lines.map (concharArrayToString p.utf8))
    (hlines : ∀ l ∈ lines, ∀ c ∈ l, Shows p.utf8 c) {prompt : List UInt8}
    (hstart : p.start prompt = some p₀) (hprompt : ∀ c ∈ p₀.prompt, OneCell c) {b : Bool}
    (h : Reaches p₀ q b) :
    (b = true → OnScreen t₀ (content (q.prompt ++ q.input)) (q.prompt.length + q.caretPos) q ∧
      ∀ k : Key UInt32, k.Is (Shows q.utf8) → ∃ q', q.press k = some q') ∧
    (b = false → OnScreen t₀ (fun _ => blank) 0 q) := by
  have hshown := shown_start hw hempty hstart hprompt
  rcases represents_start p hhistory (fun l hl c hc => (hlines l hl c hc).1) prompt
    with ⟨s, p₁, hstart₁, hrep, _, hwidth⟩
  have hsame : p₁ = p₀ := Option.some_inj.mp (hstart₁.symm.trans hstart)
  rw [hsame] at hrep
  have hw₀ : 0 < p₀.stdoutScreenWidth := by
    have hwidth₀ : p₀.stdoutScreenWidth = s.2.1 := congrArg (·.2.1) hrep.settings
    rwa [hwidth₀, hwidth]
  have hone : (LineEditor.new lines).All OneCell := LineEditor.All.new fun l hl c hc => (hlines l hl c hc).2
  rcases reaches_screen hw₀ hshown hrep hone h with ⟨hscreen, e, hrep', _⟩
  refine ⟨?_, ?_⟩
  · rintro rfl
    refine ⟨hscreen.screen, fun k hk => ?_⟩
    rcases represents_press hrep' (key_is_and hk).1 with ⟨q', hq', _⟩
    exact ⟨q', hq'⟩
  · rintro rfl
    exact hscreen.1

/-! ## One column -/

lemma stringToConcharArray_replicate (n : ℕ) :
    stringToConcharArray true (List.replicate n 97) = some (List.replicate n 97) := by
  have hencoding : Unicode.encoding (List.replicate n 97) = List.replicate n 97 := by
    induction n with
    | zero => rfl
    | succ n ih =>
      have happend : Unicode.append (97 : UInt32).toNat = [97] := by decide
      rw [List.replicate_succ, Unicode.encoding, List.flatMap_cons, ← Unicode.encoding, ih, happend]
      rfl
  have hlt : ∀ c ∈ List.replicate n (97 : UInt32), c < 0x110000 := by
    intro c hc
    rw [List.eq_of_mem_replicate hc]
    decide
  have hread := Unicode.stringToConcharArray_encoding hlt
  rwa [hencoding] at hread

/-- An empty row, and nothing else -/
def emptyScreen : Terminal := ⟨.ground, 0, 0, fun _ _ => blank⟩

lemma emptyScreen_displays (w : ℕ) : Displays w (fun _ => blank) 0 emptyScreen :=
  ⟨rfl, by simp [emptyScreen], by simp [emptyScreen], fun r k _ => by simp [emptyScreen]⟩

/-- A console of one column -/
def column (prompt : List UInt32) : Prompt where
  utf8 := true
  bufferedOutput := []
  stdoutScreenWidth := 1
  prompt := prompt
  input := []
  inputComplete := false
  caretPos := 0
  history := []
  historyPos := 0
  historyRemoveLast := false

lemma start_column (n : ℕ) : (column []).start (List.replicate n 97)
    = some ((column (List.replicate n 97)).promptWrite 0 []) := by
  have hread := stringToConcharArray_replicate n
  rw [start, show (column []).utf8 = true from rfl, hread]
  rfl

lemma oneCell_replicate (n : ℕ) : ∀ c ∈ List.replicate n (97 : UInt32), OneCell c := by
  intro c hc
  rw [List.eq_of_mem_replicate hc]
  exact Or.inl (by decide)

/-- A character behind a prompt of two -/
theorem runs_onScreen_char : ∃ p₀ q : Prompt, (column []).start (List.replicate 2 97) = some p₀ ∧
    p₀.press (.char 98) = some q ∧
    OnScreen emptyScreen (content (q.prompt ++ q.input)) (q.prompt.length + q.caretPos) q := by
  rcases promptWrite_eq (column (List.replicate 2 97)) 0 [] with ⟨out, hout⟩
  have hstart := start_column 2
  rw [hout] at hstart
  have hkey : Reaches { column (List.replicate 2 97) with bufferedOutput := out } _ true :=
    .key (k := .char 98) .start ⟨(by decide : (98 : UInt32) < 0x110000), Or.inl (by decide)⟩
      (fun _ hm => absurd hm List.not_mem_nil) rfl
  have hscreen := runs_onScreen (p := column []) Nat.one_pos (emptyScreen_displays 1)
    (show (column []).history = ([] : List (List UInt32)).map _ from rfl)
    (fun _ hl => absurd hl List.not_mem_nil) hstart (oneCell_replicate 2) hkey
  exact ⟨_, _, hstart, rfl, (hscreen.1 rfl).1⟩

/-! ## Far moves -/

/-- The number 0 moves the cursor by one row. -/
lemma run_vertical_far (ht : t.mode = .ground) {n : ℕ} (hn : 0 < n) (hcast : toInt n = (0 : ℕ)) :
    t.run 1 (vertical 1 n 0) = { t with row := t.row - 1 } := by
  have hlt : 0 / 1 < n / 1 := by
    rw [Nat.div_one, Nat.div_one]
    exact hn
  have hcast' : toInt (n / 1 - 0 / 1) = (0 : ℕ) := by
    rw [Nat.div_one, Nat.div_one, Nat.sub_zero]
    exact hcast
  rw [vertical, if_pos hlt, run_moveCmd ht hcast' (by decide)]
  simp [move, ch, ← ht]

lemma OnScreen.move_far (h : OnScreen t₀ f (i + 1) p) (hwidth : p.stdoutScreenWidth = 1) {n : ℕ}
    (hn : 0 < n) (hcast : toInt n = (0 : ℕ)) :
    OnScreen t₀ f i (p.moveCursorPosition n (-(n : ℤ))) := by
  have hx : ((n : ℤ) + -(n : ℤ)).toNat = 0 := by omega
  have hcmd : p.moveCursorPosition n (-(n : ℤ))
      = p.writeConsole (vertical p.stdoutScreenWidth n 0 ++ horizontal p.stdoutScreenWidth n 0) := by
    rw [← hx]
    rfl
  rw [hcmd]
  refine h.writeConsole fun t ht => ?_
  rw [hwidth] at ht ⊢
  have hcolumns : horizontal 1 n 0 = [] := by
    rw [horizontal, Nat.mod_one, Nat.mod_one]
    rfl
  rw [hcolumns, List.append_nil, run_vertical_far ht.mode hn hcast]
  refine ht.at i ?_ ?_
  · rw [ht.row, Nat.div_one, Nat.div_one]
    omega
  · rw [ht.column, Nat.mod_one, Nat.mod_one]

/-- **A move that is too far**: with a number of rows whose last 32 bits are 0, the first cells are not
    cleared. -/
lemma clear_far (hwidth : p.stdoutScreenWidth = 1) {n : ℕ} (hn : 1 < n) (hcast : toInt n = (0 : ℕ))
    (hprompt : p.prompt.length = n) (hinput : p.input.length = 0) (hcaret : p.caretPos = 0)
    (h : OnScreen t₀ f n p) (hfirst : f 0 ≠ blank) : ¬ OnScreen t₀ (fun _ => blank) 0 p.promptClear := by
  rcases Nat.exists_eq_add_of_lt hn with ⟨m, hm⟩
  have hmoved : OnScreen t₀ f (m + 1) (p.moveCursorPosition n (-(n : ℤ))) := by
    refine OnScreen.move_far ?_ hwidth (by omega) hcast
    rwa [show m + 1 + 1 = n by omega]
  have hcleared : OnScreen t₀ (overwrite f (m + 1) (List.replicate n blank)) (m + n + 1)
      ((p.moveCursorPosition n (-(n : ℤ))).writeConsole (clearCmd 1 n)) := by
    refine hmoved.writeConsole fun t ht => ?_
    have ht' : Displays 1 f (m + 1) t := hwidth ▸ ht
    have hlines := displays_spaces Nat.one_pos ht' n
    have heq := blankLines_eq (w := 1) Nat.one_pos (i := m + 1) (Nat.mod_one _) n (r := 0) Nat.one_pos
    simp only [Nat.mul_one, Nat.add_zero] at heq
    rw [heq, show m + 1 + n = m + n + 1 by omega] at hlines
    have hwidth' : (p.moveCursorPosition n (-(n : ℤ))).stdoutScreenWidth = 1 := hwidth
    rw [hwidth', clearCmd, Nat.div_one, Nat.mul_one, Nat.sub_self, run_append, List.append_assoc, run_append,
      run_autoWrapOff ht'.mode]
    exact (run_autoWrapOn hlines.mode).symm ▸ hlines
  have hback := hcleared.move_far hwidth (n := n) (by omega) hcast
  have hclear := promptClear_tall p (n := n) (by omega) (by rw [hwidth, Nat.div_one]; omega)
  rw [hprompt, hcaret, hwidth, Nat.add_zero, Nat.zero_add] at hclear
  intro hblank
  rw [hclear] at hblank
  have hpos : 0 < p.stdoutScreenWidth := by omega
  have hshows := hback.cells 0 0 hpos
  have hcells := hblank.cells 0 0 hpos
  rw [hcells, if_pos (Int.le_refl 0), if_pos (Int.le_refl 0), Int.toNat_zero, Nat.zero_mul] at hshows
  exact hfirst hshows.symm

lemma toInt_far : toInt (2 ^ 32) = (0 : ℕ) := by
  have hbmod : ((2 ^ 32 : ℕ) : ℤ).bmod (2 ^ 32) = 0 := Int.bmod_self
  exact hbmod

/-- A prompt with a number of rows whose last 32 bits are 0 -/
lemma clear_column {n : ℕ} (hn : 1 < n) (hcast : toInt n = (0 : ℕ)) : ∃ p₀ : Prompt,
    (column []).start (List.replicate n 97) = some p₀ ∧ p₀.prompt = List.replicate n 97 ∧
      ¬ OnScreen emptyScreen (fun _ => blank) 0 p₀.promptClear := by
  have hempty : OnScreen emptyScreen (fun _ => blank) 0 (column (List.replicate n 97)) :=
    emptyScreen_displays 1
  have hstart := start_column n
  have hglyph : ∀ c ∈ List.replicate n (97 : UInt32) ++ [], OneCell c := by
    rw [List.append_nil]
    exact oneCell_replicate n
  have hshown : Shown emptyScreen ((column (List.replicate n 97)).promptWrite 0 []) :=
    shown_rewrite hempty Nat.one_pos (Nat.le_refl 0) hglyph fun hlt => absurd hlt (Nat.lt_irrefl _)
  rcases promptWrite_eq (column (List.replicate n 97)) 0 [] with ⟨out, hout⟩
  rw [hout] at hstart hshown
  have hlength : (List.replicate n (97 : UInt32)).length = n := List.length_replicate
  have hscreen : OnScreen emptyScreen (content (List.replicate n 97 ++ []))
      ((List.replicate n (97 : UInt32)).length + 0)
      { column (List.replicate n 97) with bufferedOutput := out } := hshown.screen
  rw [Nat.add_zero, hlength] at hscreen
  have hfirst : content (List.replicate n 97 ++ []) 0 ≠ blank := by
    rw [List.append_nil, content, List.getElem?_replicate, if_pos (by omega)]
    decide
  exact ⟨_, hstart, rfl, clear_far rfl hn hcast hlength rfl rfl hscreen hfirst⟩

/-- **A prompt of 2^32 characters** in one column is not cleared. -/
theorem clear_tall : ∃ p₀ : Prompt, (column []).start (List.replicate (2 ^ 32) 97) = some p₀ ∧
    p₀.prompt = List.replicate (2 ^ 32) 97 ∧ ¬ OnScreen emptyScreen (fun _ => blank) 0 p₀.promptClear :=
  clear_column (by decide) toInt_far

end Prompt

end Nstd.Console
