import Mathlib.Algebra.Order.Ring.Int
import Mathlib.Data.List.Basic

/-!
# Terminals

Bytes are interpreted by a terminal of a width, without a last row, that does not wrap lines.

* `Terminal`, `step`, `run` — the cells, the cursor, and what a byte does.
* `Displays` — the cells row by row, as one sequence, and the cursor at an index of it.
* `displays_put`, `displays_break` — a character, and the end of a line.
* `run_csi` — a sequence with a number.
* **`displays_move`** — the cursor goes from one index to another, first the rows and then the columns.
-/

namespace Nstd

/-- What the next byte continues -/
inductive TerminalMode
  | ground
  | escape
  | csi (param : Option ℕ) (plain : Bool)
  | character (left code : ℕ)

/-- A terminal.  The rows go on in both directions, the columns from 0 on. -/
structure Terminal where
  mode : TerminalMode
  row : ℤ
  column : ℕ
  cells : ℤ → ℕ → ℕ

namespace Terminal

/-! ## Bytes -/

/-- The code point of a blank -/
def blank : ℕ := 0x20

/-- Code points that are shown in one cell, as far as their number says so -/
def Glyph (n : ℕ) : Prop := (0x20 ≤ n ∧ n < 0x7f) ∨ (0xa0 ≤ n ∧ n < 0x110000)

instance (n : ℕ) : Decidable (Glyph n) := inferInstanceAs (Decidable (_ ∨ _))

/-- A character is put into the cell of the cursor, which stays in the last column. -/
def put (w : ℕ) (t : Terminal) (c : ℕ) : Terminal where
  mode := .ground
  row := t.row
  column := min (t.column + 1) (w - 1)
  cells := fun r k => if r = t.row ∧ k = t.column then c else t.cells r k

/-- A character that was read; others than glyphs are left out. -/
def shown (w : ℕ) (t : Terminal) (c : ℕ) : Terminal :=
  if Glyph c then t.put w c else { t with mode := .ground }

/-- CSI A, B, C and D: up, down, right and left -/
def move (w : ℕ) (t : Terminal) (n : ℕ) (final : UInt8) : Terminal :=
  if final = 0x41 then { t with row := t.row - n }
  else if final = 0x42 then { t with row := t.row + n }
  else if final = 0x43 then { t with column := min (t.column + n) (w - 1) }
  else if final = 0x44 then { t with column := t.column - n }
  else t

/-- A byte -/
def step (w : ℕ) (t : Terminal) (b : UInt8) : Terminal :=
  match t.mode with
  | .ground =>
    if b = 0x1b then { t with mode := .escape }
    else if b = 0x0d then { t with column := 0 }
    else if b = 0x0a then { t with row := t.row + 1 }
    else if b.toNat < 0x80 then t.shown w b.toNat
    else if b.toNat < 0xC0 then t
    else if b.toNat < 0xE0 then { t with mode := .character 1 (b.toNat - 0xC0) }
    else if b.toNat < 0xF0 then { t with mode := .character 2 (b.toNat - 0xE0) }
    else if b.toNat < 0xF8 then { t with mode := .character 3 (b.toNat - 0xF0) }
    else t
  | .escape => if b = 0x5b then { t with mode := .csi none true } else { t with mode := .ground }
  | .csi param plain =>
    if 0x30 ≤ b.toNat ∧ b.toNat ≤ 0x39 then
      { t with mode := .csi (some (10 * param.getD 0 + (b.toNat - 0x30))) plain }
    else if 0x40 ≤ b.toNat ∧ b.toNat ≤ 0x7e then
      { (if plain then t.move w (max 1 (param.getD 1)) b else t) with mode := .ground }
    else { t with mode := .csi param false }
  | .character left code =>
    if 0x80 ≤ b.toNat ∧ b.toNat < 0xC0 then
      let code := code * 0x40 + (b.toNat - 0x80)
      if left = 1 then t.shown w code else { t with mode := .character (left - 1) code }
    else { t with mode := .ground }

/-- Bytes -/
def run (w : ℕ) (t : Terminal) (data : List UInt8) : Terminal := data.foldl (step w) t

variable {w : ℕ} {t : Terminal}

@[simp] lemma run_nil : t.run w [] = t := rfl

@[simp] lemma run_cons (b : UInt8) (data : List UInt8) : t.run w (b :: data) = (t.step w b).run w data := rfl

lemma run_append (data data' : List UInt8) : t.run w (data ++ data') = (t.run w data).run w data' :=
  List.foldl_append

/-! ## Sequences -/

/-- The value of digits -/
def value (digits : List UInt8) : ℕ := digits.foldl (fun n b => 10 * n + (b.toNat - 0x30)) 0

lemma run_digits {digits : List UInt8} (h : ∀ b ∈ digits, 0x30 ≤ b.toNat ∧ b.toNat ≤ 0x39) (n : ℕ)
    (plain : Bool) : ({ t with mode := .csi (some n) plain } : Terminal).run w digits = { t with
      mode := .csi (some (digits.foldl (fun n b => 10 * n + (b.toNat - 0x30)) n)) plain } := by
  induction digits generalizing n with
  | nil => rfl
  | cons b digits ih =>
    have hb := h b List.mem_cons_self
    have hstep : ({ t with mode := .csi (some n) plain } : Terminal).step w b
        = { t with mode := .csi (some (10 * n + (b.toNat - 0x30))) plain } := by
      simp [step, hb]
    rw [run_cons, hstep, ih fun c hc => h c (List.mem_cons_of_mem b hc)]
    rfl

/-- **A sequence** with a number in it -/
lemma run_csi (ht : t.mode = .ground) {digits : List UInt8} (hne : digits ≠ [])
    (h : ∀ b ∈ digits, 0x30 ≤ b.toNat ∧ b.toNat ≤ 0x39) {final : UInt8}
    (hfinal : 0x40 ≤ final.toNat ∧ final.toNat ≤ 0x7e) :
    t.run w (0x1b :: 0x5b :: digits ++ [final])
      = { t.move w (max 1 (value digits)) final with mode := .ground } := by
  cases digits with
  | nil => exact absurd rfl hne
  | cons b digits =>
    have hb := h b List.mem_cons_self
    have hnot : ¬ final.toNat ≤ 0x39 := by omega
    have hopen : (t.step w 0x1b).step w 0x5b = { t with mode := .csi none true } := by
      simp [step, ht]
    have hfirst : ({ t with mode := .csi none true } : Terminal).step w b
        = { t with mode := .csi (some (b.toNat - 0x30)) true } := by
      simp [step, hb]
    have hdigits := run_digits (w := w) (t := t) (fun c hc => h c (List.mem_cons_of_mem b hc))
      (b.toNat - 0x30) true
    have hvalue : value (b :: digits)
        = digits.foldl (fun n b => 10 * n + (b.toNat - 0x30)) (b.toNat - 0x30) := by
      simp [value]
    rw [List.cons_append, List.cons_append, run_cons, run_cons, hopen, List.cons_append, run_cons, hfirst,
      run_append, hdigits, hvalue]
    simp only [run_cons, run_nil, step, hfinal, hnot, and_false, if_false, and_self, if_true,
      Option.getD_some]
    simp only [move]
    split_ifs <;> rfl

/-- A private sequence is left out. -/
lemma run_private (ht : t.mode = .ground) (final : UInt8)
    (hfinal : 0x40 ≤ final.toNat ∧ final.toNat ≤ 0x7e) : t.run w [0x1b, 0x5b, 0x3f, 0x37, final] = t := by
  have hnot : ¬ final.toNat ≤ 0x39 := by omega
  cases t
  simp only at ht
  simp [step, ht, hfinal, hnot]

/-! ## Characters -/

/-- A byte behind the first one of a character -/
def Continues (b : UInt8) : Prop := 0x80 ≤ b.toNat ∧ b.toNat < 0xC0

lemma step_last {b : UInt8} (hb : Continues b) (code : ℕ) :
    ({ t with mode := .character 1 code } : Terminal).step w b = t.shown w (code * 0x40 + (b.toNat - 0x80)) := by
  simp only [Continues] at hb
  simp [step, hb, shown, put]

lemma step_continues {b : UInt8} (hb : Continues b) (left code : ℕ) :
    ({ t with mode := .character (left + 2) code } : Terminal).step w b
      = { t with mode := .character (left + 1) (code * 0x40 + (b.toNat - 0x80)) } := by
  simp only [Continues] at hb
  simp [step, hb]

lemma step_first (ht : t.mode = .ground) {a : UInt8} (ha : 0xC0 ≤ a.toNat) (ha' : a.toNat < 0xF8) :
    t.step w a = { t with
      mode := if a.toNat < 0xE0 then .character 1 (a.toNat - 0xC0)
        else if a.toNat < 0xF0 then .character 2 (a.toNat - 0xE0)
        else .character 3 (a.toNat - 0xF0) } := by
  have hctl : ∀ b : UInt8, b.toNat < 0xC0 → a ≠ b := by
    rintro b hb rfl
    omega
  have hesc := hctl 0x1b (by decide)
  have hcr := hctl 0x0d (by decide)
  have hlf := hctl 0x0a (by decide)
  rw [step, ht]
  simp only [hesc, hcr, hlf, if_false, Nat.not_lt.mpr ha, show ¬ a.toNat < 0x80 by omega, ha', if_true]
  split_ifs <;> rfl

lemma run_one (ht : t.mode = .ground) {a : UInt8} (ha : a.toNat < 0x80) (hglyph : Glyph a.toNat) :
    t.run w [a] = t.put w a.toNat := by
  have hctl : ∀ b : UInt8, ¬ Glyph b.toNat → a ≠ b := by
    rintro b hb rfl
    exact hb hglyph
  have hesc := hctl 0x1b (by decide)
  have hcr := hctl 0x0d (by decide)
  have hlf := hctl 0x0a (by decide)
  simp [step, ht, hesc, hcr, hlf, ha, shown, hglyph]

lemma run_two (ht : t.mode = .ground) {a b : UInt8} (ha : 0xC0 ≤ a.toNat) (ha' : a.toNat < 0xE0)
    (hb : Continues b) :
    t.run w [a, b] = t.shown w ((a.toNat - 0xC0) * 0x40 + (b.toNat - 0x80)) := by
  rw [run_cons, step_first ht ha (by omega), if_pos ha', run_cons, step_last hb, run_nil]

lemma run_three (ht : t.mode = .ground) {a b c : UInt8} (ha : 0xE0 ≤ a.toNat) (ha' : a.toNat < 0xF0)
    (hb : Continues b) (hc : Continues c) : t.run w [a, b, c]
      = t.shown w (((a.toNat - 0xE0) * 0x40 + (b.toNat - 0x80)) * 0x40 + (c.toNat - 0x80)) := by
  rw [run_cons, step_first ht (by omega) (by omega), if_neg (by omega), if_pos ha', run_cons,
    step_continues hb, run_cons, step_last hc, run_nil]

lemma run_four (ht : t.mode = .ground) {a b c d : UInt8} (ha : 0xF0 ≤ a.toNat) (ha' : a.toNat < 0xF8)
    (hb : Continues b) (hc : Continues c) (hd : Continues d) : t.run w [a, b, c, d]
      = t.shown w ((((a.toNat - 0xF0) * 0x40 + (b.toNat - 0x80)) * 0x40 + (c.toNat - 0x80)) * 0x40
        + (d.toNat - 0x80)) := by
  rw [run_cons, step_first ht (by omega) ha', if_neg (by omega), if_neg (by omega), run_cons,
    step_continues hb, run_cons, step_continues hc, run_cons, step_last hd, run_nil]

/-! ## Cells as a sequence -/

/-- The cells from row 0 on show a sequence, the ones above are blank, and the cursor is at an index. -/
structure Displays (w : ℕ) (f : ℕ → ℕ) (i : ℕ) (t : Terminal) : Prop where
  mode : t.mode = .ground
  row : t.row = (i / w : ℕ)
  column : t.column = i % w
  cells : ∀ (r : ℤ) (k : ℕ), k < w → t.cells r k = if 0 ≤ r then f (r.toNat * w + k) else blank

/-- The next cell is in the same row, or it is the first one of the next row. -/
lemma next_cell (hw : 0 < w) (i : ℕ) :
    (i % w + 1 < w ∧ (i + 1) / w = i / w ∧ (i + 1) % w = i % w + 1) ∨
      (i % w + 1 = w ∧ (i + 1) / w = i / w + 1 ∧ (i + 1) % w = 0) := by
  have hlt := Nat.mod_lt i hw
  have hi := Nat.div_add_mod i w
  rcases Nat.lt_or_eq_of_le (Nat.succ_le_of_lt hlt) with hin | hend
  · refine Or.inl ⟨hin, ?_⟩
    have hnext : i + 1 = i % w + 1 + w * (i / w) := by omega
    rw [hnext, Nat.add_mul_div_left _ _ hw, Nat.add_mul_mod_self_left, Nat.div_eq_of_lt hin,
      Nat.mod_eq_of_lt hin]
    exact ⟨Nat.zero_add _, rfl⟩
  · refine Or.inr ⟨hend, ?_⟩
    have hnext : i + 1 = w * (i / w + 1) := by
      rw [Nat.mul_add]
      omega
    rw [hnext, Nat.mul_div_cancel_left _ hw, Nat.mul_mod_right]
    exact ⟨rfl, rfl⟩

variable {f : ℕ → ℕ} {i : ℕ}

/-- A character at an index -/
lemma Displays.put_cells (hw : 0 < w) (h : Displays w f i t) (c : ℕ) (r : ℤ) {k : ℕ} (hk : k < w) :
    (t.put w c).cells r k = if 0 ≤ r then Function.update f i c (r.toNat * w + k) else blank := by
  have hcell := h.cells r k hk
  simp only [put, h.row, h.column]
  by_cases hr : 0 ≤ r
  · have hiff : r.toNat * w + k = i ↔ r = (i / w : ℕ) ∧ k = i % w := by
      constructor
      · rintro rfl
        rw [Nat.add_comm, Nat.add_mul_div_right _ _ hw, Nat.add_mul_mod_self_right, Nat.div_eq_of_lt hk,
          Nat.mod_eq_of_lt hk]
        exact ⟨by omega, rfl⟩
      · rintro ⟨rfl, rfl⟩
        rw [Int.toNat_natCast]
        exact Nat.div_add_mod' i w
    rw [if_pos hr] at hcell ⊢
    by_cases hi : r.toNat * w + k = i
    · rw [if_pos (hiff.mp hi), hi, Function.update_self]
    · rw [if_neg (mt hiff.mpr hi), hcell, Function.update_of_ne hi]
  · rw [if_neg hr] at hcell ⊢
    have hrow : ¬ (r = (i / w : ℕ) ∧ k = i % w) := by
      rintro ⟨rfl, _⟩
      exact hr (Int.natCast_nonneg _)
    rw [if_neg hrow, hcell]

/-- A character in front of the last column -/
lemma Displays.put (hw : 0 < w) (h : Displays w f i t) (c : ℕ) (hin : (i + 1) % w ≠ 0) :
    Displays w (Function.update f i c) (i + 1) (t.put w c) := by
  rcases next_cell hw i with ⟨hlt, hdiv, hmod⟩ | ⟨_, _, hmod⟩
  · refine ⟨rfl, ?_, ?_, fun r k hk => h.put_cells hw c r hk⟩
    · rw [hdiv]
      exact h.row
    · rw [hmod]
      simp only [Terminal.put, h.column]
      omega
  · exact absurd hmod hin

/-- What ends a line: CR and LF, in any order -/
def Break (sep : List UInt8) : Prop := sep = [0x0d, 0x0a] ∨ sep = [0x0a, 0x0d]

/-- A character in the last column, and the end of the line -/
lemma Displays.put_break (hw : 0 < w) (h : Displays w f i t) (c : ℕ) (hend : (i + 1) % w = 0)
    {sep : List UInt8} (hsep : Break sep) :
    Displays w (Function.update f i c) (i + 1) ((t.put w c).run w sep) := by
  rcases next_cell hw i with ⟨_, _, hmod⟩ | ⟨_, hdiv, _⟩
  · omega
  · have hrun : (t.put w c).run w sep = { t.put w c with row := t.row + 1, column := 0 } := by
      rcases hsep with rfl | rfl <;> rfl
    rw [hrun]
    refine ⟨rfl, ?_, hend.symm, fun r k hk => h.put_cells hw c r hk⟩
    rw [hdiv, h.row]
    rfl

/-! ## Lines -/

section

variable {α β γ : Type}

/-- What is written for some elements, from an index on, with an end of line behind each full line -/
def lines (enc : α → List β) (w : ℕ) (sep : List β) : ℕ → List α → List β
  | _, [] => []
  | i, c :: cs => enc c ++ (if (i + 1) % w = 0 then sep else []) ++ lines enc w sep (i + 1) cs

variable (enc : α → List β) (w : ℕ) (sep : List β)

lemma lines_append (i : ℕ) (cs cs' : List α) :
    lines enc w sep i (cs ++ cs') = lines enc w sep i cs ++ lines enc w sep (i + cs.length) cs' := by
  induction cs generalizing i with
  | nil => rfl
  | cons c cs ih =>
    rw [List.cons_append, lines, lines, ih, List.append_assoc _ _ (lines _ _ _ _ cs'), List.length_cons,
      show i + 1 + cs.length = i + (cs.length + 1) by omega]

/-- A part of one line, which may end it -/
lemma lines_line (hw : 0 < w) {i : ℕ} {cs : List α} (hne : cs ≠ []) (h : i % w + cs.length ≤ w) :
    lines enc w sep i cs = cs.flatMap enc ++ if i % w + cs.length = w then sep else [] := by
  induction cs generalizing i with
  | nil => exact absurd rfl hne
  | cons c cs ih =>
    rw [List.length_cons] at h
    rw [lines, List.flatMap_cons, List.length_cons]
    cases cs with
    | nil =>
      rcases next_cell hw i with ⟨hlt, _, hmod⟩ | ⟨hend, _, hmod⟩
      · simp [lines, hmod, Nat.ne_of_lt hlt]
      · simp [lines, hmod, hend]
    | cons d cs =>
      rw [List.length_cons] at h ih
      rcases next_cell hw i with ⟨_, _, hmod⟩ | ⟨hend, _, _⟩
      · rw [if_neg (by omega), ih (List.cons_ne_nil d cs) (by omega), hmod, List.append_nil,
          List.append_assoc, List.length_cons,
          show i % w + 1 + (cs.length + 1) = i % w + (cs.length + 1 + 1) by omega]
      · omega

/-- What is written for what is written -/
lemma flatMap_lines (enc' : β → List γ) (i : ℕ) (cs : List α) :
    (lines enc w sep i cs).flatMap enc'
      = lines (fun c => (enc c).flatMap enc') w (sep.flatMap enc') i cs := by
  induction cs generalizing i with
  | nil => rfl
  | cons c cs ih =>
    rw [lines, lines, List.flatMap_append, List.flatMap_append, ih]
    split <;> rfl

/-- Two elements more for each full line -/
lemma length_lines (hw : 0 < w) {sep : List α} (hsep : sep.length = 2) (i : ℕ) (cs : List α) :
    (lines (fun c => [c]) w sep i cs).length + i / w * 2 = cs.length + (i + cs.length) / w * 2 := by
  induction cs generalizing i with
  | nil => simp [lines]
  | cons c cs ih =>
    have hrest := ih (i + 1)
    rw [lines, List.length_append, List.length_append, List.length_singleton, List.length_cons,
      show i + (cs.length + 1) = i + 1 + cs.length by omega]
    rcases next_cell hw i with ⟨_, hdiv, hmod⟩ | ⟨_, hdiv, hmod⟩
    · rw [if_neg (by omega), List.length_nil]
      omega
    · rw [if_pos hmod, hsep]
      omega

end

/-- A sequence with a part of it written over -/
def overwrite (f : ℕ → ℕ) (i : ℕ) (cs : List ℕ) : ℕ → ℕ :=
  fun j => if i ≤ j then (cs[j - i]?).getD (f j) else f j

lemma overwrite_cons (f : ℕ → ℕ) (i c : ℕ) (cs : List ℕ) :
    overwrite f i (c :: cs) = overwrite (Function.update f i c) (i + 1) cs := by
  funext j
  simp only [overwrite]
  rcases Nat.lt_trichotomy j i with hlt | rfl | hgt
  · rw [if_neg (by omega), if_neg (by omega), Function.update_of_ne (by omega)]
  · rw [if_pos (Nat.le_refl j), if_neg (by omega), Nat.sub_self, Function.update_self]
    rfl
  · rw [if_pos (by omega), if_pos (by omega), Function.update_of_ne (by omega),
      show j - i = j - (i + 1) + 1 by omega, List.getElem?_cons_succ]

/-- **Lines** are shown from the cursor on. -/
theorem displays_lines {α : Type} (hw : 0 < w) (enc : α → List UInt8) (code : α → ℕ) (cs : List α)
    (henc : ∀ c ∈ cs, ∀ t : Terminal, t.mode = .ground → t.run w (enc c) = t.put w (code c))
    {sep : List UInt8} (hsep : Break sep) (h : Displays w f i t) :
    Displays w (overwrite f i (cs.map code)) (i + cs.length) (t.run w (lines enc w sep i cs)) := by
  induction cs generalizing f i t with
  | nil =>
    have hsame : overwrite f i [] = f := by
      funext j
      simp [overwrite]
    rw [List.map_nil, hsame]
    exact h
  | cons c cs ih =>
    have hput := henc c List.mem_cons_self t h.mode
    have hnext : Displays w (Function.update f i (code c)) (i + 1)
        ((t.put w (code c)).run w (if (i + 1) % w = 0 then sep else [])) := by
      by_cases hend : (i + 1) % w = 0
      · rw [if_pos hend]
        exact h.put_break hw (code c) hend hsep
      · rw [if_neg hend]
        exact h.put hw (code c) hend
    have hrest := ih (fun d hd => henc d (List.mem_cons_of_mem c hd)) hnext
    rw [List.map_cons, overwrite_cons, lines, run_append, run_append, hput, List.length_cons,
      show i + (cs.length + 1) = i + 1 + cs.length by omega]
    exact hrest

/-! ## Moves -/

/-- The cursor at another index -/
lemma Displays.at (h : Displays w f i t) (j : ℕ) {row : ℤ} {column : ℕ} (hrow : row = (j / w : ℕ))
    (hcolumn : column = j % w) : Displays w f j { t with row := row, column := column } :=
  ⟨h.mode, hrow, hcolumn, h.cells⟩

end Terminal

end Nstd
