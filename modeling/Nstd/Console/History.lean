import Nstd.Console.Prompt
import Nstd.Core.LineEditor

/-!
# The history of a prompt

The pending line is kept in the list of the history while an entry is shown.

* `Represents` — the members, as the line editor has them.
* `represents_up`, `represents_down`, … — an operation is the key of the line editor.
* `Reads` — what `readChar` leaves in the buffer for a key.
* **`getLine_refines`** — keys, and then the return key.

As long as `Represents` holds, an operation of the prompt is a key of the line editor, and every
operation keeps it.  A line is then read key by key.
-/

namespace Nstd.Console

/-! ## Texts -/

/-- A character that is read from a string as it was written there -/
def Encodable (utf8 : Bool) (c : UInt32) : Prop := if utf8 then c < 0x110000 else c < 0x100

lemma concharArrayToString_utf8 {text : List UInt32} (h : ∀ c ∈ text, c < 0x110000) :
    concharArrayToString true text = Unicode.encoding text := by
  simp [concharArrayToString, Unicode.appendAll_eq h]

/-- **A line is read as it was written.** -/
lemma stringToConcharArray_line {utf8 : Bool} {text : List UInt32} (h : ∀ c ∈ text, Encodable utf8 c) :
    stringToConcharArray utf8 (concharArrayToString utf8 text) = some text := by
  cases utf8 with
  | true =>
    have h' : ∀ c ∈ text, c < 0x110000 := by simpa [Encodable] using h
    rw [concharArrayToString_utf8 h']
    exact Unicode.stringToConcharArray_encoding h'
  | false =>
    have hmap : text.map (fun c => c.toUInt8.toUInt32) = text := by
      refine (List.map_congr_left fun c hc => ?_).trans (List.map_id text)
      have hlt : c.toNat < 0x100 := UInt32.lt_iff_toNat_lt.mp (by simpa [Encodable] using h c hc)
      exact UInt32.toNat_inj.mp (by simp [Nat.mod_eq_of_lt hlt])
    simpa [stringToConcharArray, concharArrayToString, Function.comp_def] using hmap

namespace Prompt

/-! ## What is written is not read -/

variable (p : Prompt)

lemma moveCursorPosition_eq (source : ℕ) (x : ℤ) :
    ∃ out, p.moveCursorPosition source x = { p with bufferedOutput := out } := ⟨_, rfl⟩

lemma promptWrite_eq (offset : ℕ) (clearStr : List UInt8) :
    ∃ out, p.promptWrite offset clearStr = { p with bufferedOutput := out } := by
  simp only [promptWrite]
  split
  · exact ⟨_, rfl⟩
  · exact ⟨_, rfl⟩

lemma promptClear_eq : ∃ out, p.promptClear = { p with bufferedOutput := out } := by
  simp only [promptClear]
  split
  · exact ⟨_, rfl⟩
  · exact ⟨_, rfl⟩

/-! ## Operations -/

/-- The members that no key changes -/
def settings (p : Prompt) : Bool × ℕ × List UInt32 := (p.utf8, p.stdoutScreenWidth, p.prompt)

/-- The members of a prompt, as a line editor has them -/
structure Represents (s : Bool × ℕ × List UInt32) (p : Prompt) (e : LineEditor UInt32) : Prop where
  settings : p.settings = s
  input : p.input = e.line.text
  caretPos : p.caretPos = e.line.back.length
  historyPos : p.historyPos = e.pos
  history : p.history = (if e.pos = e.entries.length then e.entries else e.entries ++ [e.pending]).map
    (concharArrayToString p.utf8)
  historyRemoveLast : p.historyRemoveLast = true ↔ e.pos ≠ e.entries.length
  inputComplete : p.inputComplete = false
  encodable : e.All (Encodable p.utf8)

variable {s : Bool × ℕ × List UInt32} {p : Prompt} {e : LineEditor UInt32}

/-- The output is not a part of the line. -/
lemma Represents.output (h : Represents s p e) (out : List UInt8) :
    Represents s { p with bufferedOutput := out } e :=
  ⟨h.settings, h.input, h.caretPos, h.historyPos, h.history, h.historyRemoveLast, h.inputComplete,
    h.encodable⟩

lemma Represents.move (h : Represents s p e) (source : ℕ) (x : ℤ) :
    Represents s (p.moveCursorPosition source x) e := by
  rcases p.moveCursorPosition_eq source x with ⟨out, hout⟩
  rw [hout]
  exact h.output out

lemma Represents.write (h : Represents s p e) (offset : ℕ) (clearStr : List UInt8) :
    Represents s (p.promptWrite offset clearStr) e := by
  rcases p.promptWrite_eq offset clearStr with ⟨out, hout⟩
  rw [hout]
  exact h.output out

/-- Only the line changes. -/
lemma Represents.line (h : Represents s p e) (f : CaretLine UInt32 → CaretLine UInt32)
    {input : List UInt32} {caretPos : ℕ} (hinput : input = (f e.line).text)
    (hcaret : caretPos = (f e.line).back.length) (hall : (e.edit f).All (Encodable p.utf8)) :
    Represents s { p with input := input, caretPos := caretPos } (e.edit f) :=
  ⟨h.settings, hinput, hcaret, h.historyPos, h.history, h.historyRemoveLast, h.inputComplete, hall⟩

lemma Represents.length (h : Represents s p e) :
    p.input.length = e.line.back.length + e.line.front.length := by
  rw [h.input, CaretLine.length_text]

lemma Represents.caretPos_le (h : Represents s p e) : p.caretPos ≤ p.input.length := by
  rw [h.length, h.caretPos]
  exact Nat.le_add_right _ _

/-- In front of the caret -/
lemma Represents.take (h : Represents s p e) : p.input.take p.caretPos = e.line.back.reverse := by
  rw [h.input, h.caretPos, CaretLine.text, ← List.length_reverse, List.take_left]

/-- Behind the caret -/
lemma Represents.drop (h : Represents s p e) : p.input.drop p.caretPos = e.line.front := by
  rw [h.input, h.caretPos, CaretLine.text, ← List.length_reverse, List.drop_left]

/-- Nothing but the caret changes. -/
lemma Represents.caret (h : Represents s p e) (f : CaretLine UInt32 → CaretLine UInt32) {caretPos : ℕ}
    (htext : (f e.line).text = e.line.text) (hcaret : caretPos = (f e.line).back.length) :
    Represents s { p with caretPos := caretPos } (e.edit f) :=
  h.line f (h.input.trans htext.symm) hcaret (h.encodable.edit (by rw [htext]; exact h.encodable.line))

lemma represents_insert (h : Represents s p e) {c : UInt32} (hc : Encodable p.utf8 c) :
    Represents s (p.promptInsert c) (e.press (.char c)) := by
  have hall : (e.press (.char c)).All (Encodable p.utf8) := h.encodable.press hc
  have hinput : (if p.caretPos ≠ p.input.length then
      p.input.take p.caretPos ++ [c] ++ p.input.drop p.caretPos else p.input ++ [c])
        = (e.line.insert c).text := by
    split
    next =>
      rw [h.take, h.drop]
      simp [CaretLine.insert, CaretLine.text]
    next hend =>
      have hfront : e.line.front = [] := by rw [← h.drop, not_not.mp hend, List.drop_length]
      simp [h.input, CaretLine.insert, CaretLine.text, hfront]
  exact (h.line (fun l => l.insert c) hinput (congrArg (· + 1) h.caretPos) hall).write _ _

lemma represents_left (h : Represents s p e) : Represents s p.promptMoveLeft (e.press .left) := by
  have htext := e.line.text_left
  have hcaret := h.caretPos
  have hback : p.caretPos - 1 = e.line.left.back.length := by
    rcases hl : e.line with ⟨_ | ⟨c, back⟩, front⟩ <;> simp [hcaret, hl, CaretLine.left]
  rw [promptMoveLeft]
  split
  next => exact (h.move _ _).caret .left htext hback
  next hpos => exact h.caret .left htext (by omega)

lemma represents_right (h : Represents s p e) : Represents s p.promptMoveRight (e.press .right) := by
  have htext := e.line.text_right
  have hback : e.line.right.back.length = min (p.caretPos + 1) p.input.length := by
    rw [h.length, h.caretPos]
    rcases hl : e.line with ⟨back, _ | ⟨c, front⟩⟩ <;> simp [CaretLine.right]
  rw [promptMoveRight]
  split
  next hlt =>
    have hcaret : p.caretPos + 1 = e.line.right.back.length := by omega
    exact (h.move _ _).caret .right htext hcaret
  next hlt =>
    have hle := h.caretPos_le
    exact h.caret .right htext (by omega)

lemma represents_home (h : Represents s p e) : Represents s p.promptMoveHome (e.press .home) := by
  have htext := e.line.text_home
  rw [promptMoveHome]
  split
  next => exact (h.move _ _).caret .home htext rfl
  next hpos => exact h.caret .home htext (Nat.eq_zero_of_not_pos hpos)

lemma represents_toEnd (h : Represents s p e) : Represents s p.promptMoveEnd (e.press .toEnd) := by
  have htext := CaretLine.text_ofText e.line.text
  have hback : (CaretLine.ofText e.line.text).back.length = p.input.length := by
    simp [CaretLine.ofText, h.input]
  have hle := h.caretPos_le
  rw [promptMoveEnd]
  split
  next => exact (h.move _ _).caret (fun l => .ofText l.text) htext hback.symm
  next hlt => exact h.caret (fun l => .ofText l.text) htext (by rw [hback]; omega)

lemma represents_delete (h : Represents s p e) : Represents s p.promptRemoveNext (e.press .delete) := by
  have hall : (e.press .delete).All (Encodable p.utf8) := h.encodable.press trivial
  have hlen := h.length
  have hcaret := h.caretPos
  rw [promptRemoveNext]
  split
  next hlt =>
    have hinput : (if p.caretPos ≠ p.input.length - 1 then
        p.input.take p.caretPos ++ p.input.drop (p.caretPos + 1) else p.input.take p.caretPos)
          = e.line.delete.text := by
      have hdrop : p.input.drop (p.caretPos + 1) = e.line.front.tail := by
        rw [← List.tail_drop, h.drop]
      split
      next => rw [h.take, hdrop]; rfl
      next hend =>
        have hone : e.line.front.length = 1 := by omega
        have htail : e.line.front.tail = [] := List.length_eq_zero_iff.mp (by simp [hone])
        simp [h.take, CaretLine.delete, CaretLine.text, htail]
    exact (h.line .delete hinput hcaret hall).write _ _
  next hlt =>
    have hfront : e.line.front = [] := List.length_eq_zero_iff.mp (by omega)
    refine h.caret .delete ?_ hcaret
    simp [CaretLine.delete, CaretLine.text, hfront]

lemma represents_backspace (h : Represents s p e) : Represents s p.promptRemove (e.press .backspace) := by
  have hall : (e.press .backspace).All (Encodable p.utf8) := h.encodable.press trivial
  have hlen := h.length
  have hcaret := h.caretPos
  rw [promptRemove]
  split
  next hpos =>
    have hinput : (if p.caretPos ≠ p.input.length then
        p.input.take (p.caretPos - 1) ++ p.input.drop p.caretPos else p.input.take (p.input.length - 1))
          = e.line.backspace.text := by
      have htake : p.input.take (p.caretPos - 1) = e.line.back.tail.reverse := by
        rw [← List.dropLast_reverse, ← h.take, List.dropLast_eq_take, List.length_take, List.take_take,
          Nat.min_eq_left (by omega), Nat.min_eq_left h.caretPos_le]
      split
      next => rw [htake, h.drop]; rfl
      next hend =>
        have hfront : e.line.front = [] := by rw [← h.drop, not_not.mp hend, List.drop_length]
        rw [← not_not.mp hend, htake, CaretLine.backspace, CaretLine.text, hfront, List.append_nil]
    have hback : p.caretPos - 1 = e.line.backspace.back.length := by
      simp [CaretLine.backspace, hcaret]
    have hline := h.line .backspace hinput hback hall
    simp only [promptMoveLeft, if_pos hpos.2]
    exact (hline.output _).write _ _
  next hpos =>
    have hback : e.line.back = [] := by
      refine List.length_eq_zero_iff.mp ?_
      by_contra hne
      exact hpos ⟨List.ne_nil_of_length_pos (by omega), by omega⟩
    refine h.caret .backspace ?_ ?_
    · simp [CaretLine.backspace, CaretLine.text, hback]
    · simp [CaretLine.backspace, hback, hcaret]

/-! ## The history -/

/-- The lines of the list of the history, while an entry is shown -/
def places (e : LineEditor UInt32) : List (List UInt32) := e.entries ++ [e.pending]

lemma showEntry_eq {lines : List (List UInt32)} {line : List UInt32}
    (hhistory : p.history = lines.map (concharArrayToString p.utf8))
    (hline : lines[p.historyPos]? = some line) (hall : ∀ c ∈ line, Encodable p.utf8 c) :
    ∃ out, p.showEntry
      = some { p with input := line, caretPos := line.length, bufferedOutput := out } := by
  rcases p.promptClear_eq with ⟨out, hout⟩
  rcases promptWrite_eq { p with input := line, caretPos := line.length, bufferedOutput := out } 0 []
    with ⟨out', hout'⟩
  have hentry : p.history[p.historyPos]? = some (concharArrayToString p.utf8 line) := by
    rw [hhistory, List.getElem?_map, hline]
    rfl
  refine ⟨out', ?_⟩
  simp [showEntry, hout, hentry, stringToConcharArray_line hall, hout']

/-- The place that is shown -/
lemma shown_goTo {e : LineEditor UInt32} {i : ℕ} (hi : i ≤ e.entries.length) (hne : i ≠ e.pos) :
    (places (e.goTo i hi))[i]? = some (e.stored i) := by
  rw [places, LineEditor.getElem?_places _ (by simpa using hi), LineEditor.stored_goTo hi hi,
    LineEditor.lineAt, if_neg hne]

/-- `historyPos == history.end()` -/
lemma Represents.end_iff (h : Represents s p e) :
    p.historyPos = p.history.length ↔ e.pos = e.entries.length := by
  have hle := e.pos_le
  rw [h.historyPos, h.history, List.length_map]
  split
  next heq => exact iff_of_true heq heq
  next hne =>
    rw [List.length_append, List.length_singleton]
    exact iff_of_false (by omega) hne

/-- The line that is left is stored, the pending one behind the entries. -/
lemma leave_history (h : Represents s p e) {i : ℕ} (hi : i ≤ e.entries.length) :
    (if p.historyPos = p.history.length then p.history ++ [concharArrayToString p.utf8 p.input]
      else p.history.set p.historyPos (concharArrayToString p.utf8 p.input))
        = (places (e.goTo i hi)).map (concharArrayToString p.utf8) := by
  have hle := e.pos_le
  have hiff := h.end_iff
  have hhistory := h.history
  split at hhistory
  next heq =>
    rw [if_pos (hiff.mpr heq), hhistory]
    simp [places, LineEditor.goTo, heq, h.input]
  next hne =>
    have hlt : e.pos < e.entries.length := by omega
    rw [if_neg fun hend => hne (hiff.mp hend), hhistory, h.historyPos, ← List.map_set,
      List.set_append_left _ _ hlt]
    simp [places, LineEditor.goTo, hlt, h.input]

/-- An entry is shown. -/
lemma represents_goTo {i : ℕ} (h : Represents s p e) (hi : i < e.entries.length) (out : List UInt8) :
    Represents s { p with
      historyPos := i
      history := (places (e.goTo i (Nat.le_of_lt hi))).map (concharArrayToString p.utf8)
      historyRemoveLast := true
      input := e.stored i
      caretPos := (e.stored i).length
      bufferedOutput := out } (e.goTo i (Nat.le_of_lt hi)) := by
  have hne : (e.goTo i (Nat.le_of_lt hi)).pos ≠ (e.goTo i (Nat.le_of_lt hi)).entries.length := by
    rw [LineEditor.length_entries_goTo]
    exact Nat.ne_of_lt hi
  refine ⟨h.settings, ?_, ?_, rfl, ?_, iff_of_true rfl hne, h.inputComplete, h.encodable.goTo (Nat.le_of_lt hi)⟩
  · simp [LineEditor.goTo]
  · simp [LineEditor.goTo, CaretLine.ofText]
  · rw [if_neg hne, places]

/-- **Up** -/
lemma represents_up (h : Represents s p e) : ∃ q, p.promptHistoryUp = some q ∧ Represents s q (e.press .up) := by
  rw [promptHistoryUp, LineEditor.press, LineEditor.up, h.historyPos]
  by_cases hzero : e.pos = 0
  · exact ⟨p, by simp [hzero], by simpa [hzero] using h⟩
  have hle := e.pos_le
  have hi : e.pos - 1 < e.entries.length := by omega
  have hshown := shown_goTo (e := e) (Nat.le_of_lt hi) (by omega)
  have hleave := leave_history h (Nat.le_of_lt hi)
  simp only [if_neg hzero]
  rw [h.historyPos] at hleave
  split at hleave
  next hend =>
    rcases showEntry_eq (p := { p with
        historyPos := e.pos - 1
        history := p.history ++ [concharArrayToString p.utf8 p.input]
        historyRemoveLast := true }) hleave hshown (h.encodable.stored _) with ⟨out, hout⟩
    refine ⟨_, by rw [if_pos hend]; exact hout, ?_⟩
    rw [hleave]
    exact represents_goTo h hi out
  next hend =>
    rcases showEntry_eq (p := { p with
        historyPos := e.pos - 1
        history := p.history.set e.pos (concharArrayToString p.utf8 p.input) })
      hleave hshown (h.encodable.stored _) with ⟨out, hout⟩
    refine ⟨_, by rw [if_neg hend]; exact hout, ?_⟩
    have hremove : p.historyRemoveLast = true :=
      h.historyRemoveLast.mpr fun heq => hend (h.historyPos ▸ h.end_iff.mpr heq)
    rw [hleave, hremove]
    exact represents_goTo h hi out

/-- **Down**: behind the last entry, the pending line is taken out of the list. -/
lemma represents_down (h : Represents s p e) :
    ∃ q, p.promptHistoryDown = some q ∧ Represents s q (e.press .down) := by
  rw [promptHistoryDown, LineEditor.press, LineEditor.down]
  by_cases hend : e.pos = e.entries.length
  · exact ⟨p, by rw [if_pos (h.end_iff.mpr hend)], by simpa [hend] using h⟩
  have hle := e.pos_le
  have hi : e.pos + 1 ≤ e.entries.length := by omega
  have hshown := shown_goTo hi (by omega)
  have hleave := leave_history h hi
  rw [if_neg fun heq => hend (h.end_iff.mp heq), h.historyPos] at hleave
  have hremove : p.historyRemoveLast = true := h.historyRemoveLast.mpr hend
  rcases showEntry_eq (p := { p with
      history := (places (e.goTo (e.pos + 1) hi)).map (concharArrayToString p.utf8)
      historyPos := e.pos + 1 }) rfl hshown (h.encodable.stored _) with ⟨out, hout⟩
  have hlength : (places (e.goTo (e.pos + 1) hi)).length = e.entries.length + 1 := by
    simp [places]
  rw [if_neg fun heq => hend (h.end_iff.mp heq), dif_neg hend, h.historyPos]
  simp only [hleave, hout, Option.bind_eq_bind, Option.bind_some, List.length_map, hlength]
  by_cases hlast : e.pos + 1 = e.entries.length
  · have hpos : (e.goTo (e.pos + 1) hi).pos = (e.goTo (e.pos + 1) hi).entries.length := by
      rw [LineEditor.length_entries_goTo]
      exact hlast
    have hdrop : (places (e.goTo (e.pos + 1) hi)).dropLast = (e.goTo (e.pos + 1) hi).entries :=
      List.dropLast_concat
    refine ⟨_, if_pos (by omega), h.settings, ?_, ?_, ?_, ?_, ?_, h.inputComplete, h.encodable.goTo hi⟩
    · simp [LineEditor.goTo]
    · simp [LineEditor.goTo, CaretLine.ofText]
    · rw [← List.map_dropLast, hdrop, List.length_map, ← hpos]
    · rw [if_pos hpos, ← List.map_dropLast, hdrop]
    · exact iff_of_false Bool.false_ne_true (not_not.mpr hpos)
  · have hlt : e.pos + 1 < e.entries.length := by omega
    refine ⟨_, if_neg (by omega), ?_⟩
    rw [hremove]
    exact represents_goTo h hlt out

/-! ## Keys -/

/-- A character that a key sends as such -/
def Printable (c : UInt32) : Prop := 0x20 ≤ c ∧ c ≠ 127 ∧ c < 0x110000

/-- What a key sends -/
inductive Sends : Key UInt32 → List UInt8 → Prop
  | char {c : UInt32} : Printable c → Sends (.char c) (Unicode.append c.toNat)
  | backspace : Sends .backspace [0x08]
  | del : Sends .backspace [127]
  | delete : Sends .delete (0x1b :: bytes "[3~")
  | left : Sends .left (0x1b :: bytes "[D")
  | right : Sends .right (0x1b :: bytes "[C")
  | home : Sends .home (0x1b :: bytes "[H")
  | toEnd : Sends .toEnd (0x1b :: bytes "[F")
  | up : Sends .up (0x1b :: bytes "[A")
  | down : Sends .down (0x1b :: bytes "[B")

/-- What `readChar` leaves in its buffer, with a terminator and anything behind it -/
def Reads (sent : List UInt8) (buffer : List UInt8 × ℕ) : Prop :=
  ∃ rest, buffer = (sent ++ 0 :: rest, sent.length)

/-- A character is no control character, nor is the first of its bytes one. -/
lemma first_byte {g : List UInt8} {n : ℕ} (h : Unicode.Group g n) (hn : 0x20 ≤ n) :
    ∃ a r, g = a :: r ∧ 0x20 ≤ a.toNat := by
  cases h with
  | one _ => exact ⟨_, _, rfl, hn⟩
  | two ha _ _ => exact ⟨_, _, rfl, by omega⟩
  | three ha _ _ _ => exact ⟨_, _, rfl, by omega⟩
  | four ha _ _ _ _ => exact ⟨_, _, rfl, by omega⟩

/-- A character that is read, by its number -/
lemma handleInput_group (hutf8 : p.utf8 = true) {a : UInt8} {r : List UInt8} {n : ℕ}
    (hgroup : Unicode.Group (a :: r) n) (hesc : a ≠ 0x1b) (rest : List UInt8) :
    p.handleInput (a :: r ++ rest) (a :: r).length = some (
      if UInt32.ofNat n = 0x09 then p
      else if UInt32.ofNat n = 0x0d then { p with inputComplete := true }
      else if UInt32.ofNat n = 0x08 ∨ UInt32.ofNat n = 127 then p.promptRemove
      else p.promptInsert (UInt32.ofNat n)) := by
  have hread := Unicode.fromString_group hgroup rest (Nat.le_refl _)
  simp only [handleInput, List.cons_append, List.getElem?_cons_zero, Option.bind_eq_bind,
    Option.bind_some, if_neg hesc, if_pos hutf8] at hread ⊢
  rw [hread, Option.bind_some]
  split_ifs <;> rfl

lemma handleInput_char (hutf8 : p.utf8 = true) {c : UInt32} (hc : Printable c) (rest : List UInt8) :
    p.handleInput (Unicode.append c.toNat ++ rest) (Unicode.append c.toNat).length
      = some (p.promptInsert c) := by
  rcases hc with ⟨hlow, h127, hhigh⟩
  have hlow' : 0x20 ≤ c.toNat := UInt32.le_iff_toNat_le.mp hlow
  have hgroup := Unicode.append_group (UInt32.lt_iff_toNat_lt.mp hhigh)
  rcases first_byte hgroup hlow' with ⟨a, r, hfirst, ha⟩
  have hctl : ∀ d : UInt32, d.toNat < 0x20 → c ≠ d := by
    rintro d hd rfl
    omega
  have hesc : a ≠ 0x1b := by
    rintro rfl
    exact absurd ha (by decide)
  rw [hfirst] at hgroup ⊢
  rw [handleInput_group hutf8 hgroup hesc, UInt32.ofNat_toNat, if_neg (hctl _ (by decide)),
    if_neg (hctl _ (by decide)), if_neg (not_or.mpr ⟨hctl _ (by decide), h127⟩)]

lemma handleInput_remove (hutf8 : p.utf8 = true) {a : UInt8} (ha : a = 0x08 ∨ a = 127)
    (rest : List UInt8) : p.handleInput ([a] ++ rest) 1 = some p.promptRemove := by
  rcases ha with rfl | rfl
  · exact handleInput_group hutf8 (Unicode.Group.one (by decide)) (by decide) rest
  · exact handleInput_group hutf8 (Unicode.Group.one (by decide)) (by decide) rest

lemma handleInput_return (hutf8 : p.utf8 = true) (rest : List UInt8) :
    p.handleInput ([0x0d] ++ rest) 1 = some { p with inputComplete := true } :=
  handleInput_group hutf8 (Unicode.Group.one (by decide)) (by decide) rest

/-- **A key** is the key of the line editor. -/
theorem handleInput_key (h : Represents s p e) (hutf8 : p.utf8 = true) {k : Key UInt32} {sent : List UInt8}
    (hk : Sends k sent) (rest : List UInt8) :
    ∃ q, p.handleInput (sent ++ 0 :: rest) sent.length = some q ∧ Represents s q (e.press k) := by
  cases hk with
  | @char c hc =>
    have hencodable : Encodable p.utf8 c := by simpa [Encodable, hutf8] using hc.2.2
    exact ⟨_, handleInput_char hutf8 hc _, represents_insert h hencodable⟩
  | backspace => exact ⟨_, handleInput_remove hutf8 (Or.inl rfl) _, represents_backspace h⟩
  | del => exact ⟨_, handleInput_remove hutf8 (Or.inr rfl) _, represents_backspace h⟩
  | delete => exact ⟨_, by simp [handleInput, bytes, ch], represents_delete h⟩
  | left => exact ⟨_, by simp [handleInput, bytes, ch], represents_left h⟩
  | right => exact ⟨_, by simp [handleInput, bytes, ch], represents_right h⟩
  | home => exact ⟨_, by simp [handleInput, bytes, ch], represents_home h⟩
  | toEnd => exact ⟨_, by simp [handleInput, bytes, ch], represents_toEnd h⟩
  | up =>
    rcases represents_up h with ⟨q, hq, hrep⟩
    exact ⟨q, by simpa [handleInput, bytes, ch] using hq, hrep⟩
  | down =>
    rcases represents_down h with ⟨q, hq, hrep⟩
    exact ⟨q, by simpa [handleInput, bytes, ch] using hq, hrep⟩

/-! ## Runs -/

/-- A key, and what `readChar` leaves in its buffer for it -/
def Typed (k : Key UInt32) (buffer : List UInt8 × ℕ) : Prop := ∃ sent, Sends k sent ∧ Reads sent buffer

/-- The loop of `getLine`, up to the buffers behind some keys -/
lemma inputLoop_keys (hutf8 : s.1 = true) {keys : List (Key UInt32)} {buffers : List (List UInt8 × ℕ)}
    (hkeys : List.Forall₂ Typed keys buffers) (h : Represents s p e) :
    ∃ q, (∀ rest, p.inputLoop (buffers ++ rest) = q.inputLoop rest) ∧
      Represents s q (keys.foldl .press e) := by
  induction hkeys generalizing p e with
  | nil => exact ⟨p, fun _ => rfl, h⟩
  | @cons k buffer keys buffers hkey _ ih =>
    rcases hkey with ⟨sent, hsent, tail, rfl⟩
    have hmode : p.utf8 = true := (congrArg Prod.fst h.settings).trans hutf8
    rcases handleInput_key h hmode hsent tail with ⟨q, hq, hrep⟩
    rcases ih hrep with ⟨q', hq', hrep'⟩
    exact ⟨q', by simp [inputLoop, hq, hrep.inputComplete, hq'], hrep'⟩

/-- **`start`** is an editor with an empty line. -/
lemma represents_start (p : Prompt) {lines : List (List UInt32)}
    (hhistory : p.history = lines.map (concharArrayToString p.utf8))
    (hlines : ∀ l ∈ lines, ∀ c ∈ l, Encodable p.utf8 c) (prompt : List UInt8) :
    ∃ s q, p.start prompt = some q ∧ Represents s q (.new lines) ∧ s.1 = p.utf8 ∧
      s.2.1 = p.stdoutScreenWidth := by
  have hprompt : ∃ data, stringToConcharArray p.utf8 prompt = some data := by
    cases hutf8 : p.utf8 with
    | true => exact Unicode.stringToConcharArray_isSome prompt
    | false => exact ⟨_, rfl⟩
  rcases hprompt with ⟨data, hdata⟩
  have hnew : Represents _ { p with
      prompt := data, historyPos := p.history.length, historyRemoveLast := false, input := []
      inputComplete := false, caretPos := 0 } (.new lines) :=
    ⟨rfl, rfl, rfl, by simp [hhistory, LineEditor.new], by simp [hhistory, LineEditor.new],
      by simp [LineEditor.new], rfl, LineEditor.All.new hlines⟩
  refine ⟨_, _, ?_, hnew.write 0 [], rfl, rfl⟩
  rw [start, hdata]
  rfl

/-- **`finish`** leaves the entries, and the line behind them if there is one. -/
lemma finish_eq (h : Represents s p e) {q : Prompt} (hq : q = { p with inputComplete := true }) :
    q.finish.1 = concharArrayToString p.utf8 p.input ∧ q.finish.2.history
      = e.entries.map (concharArrayToString p.utf8) ++ (if q.finish.1 = [] then [] else [q.finish.1]) := by
  rcases q.promptClear_eq with ⟨out, hout⟩
  have hentries : (if q.historyRemoveLast = true then q.history.dropLast else q.history)
      = e.entries.map (concharArrayToString p.utf8) := by
    rw [hq, h.history]
    by_cases hremove : p.historyRemoveLast = true
    · rw [if_pos hremove, if_neg (h.historyRemoveLast.mp hremove), ← List.map_dropLast,
        List.dropLast_concat]
    · rw [if_neg hremove, if_pos (not_not.mp fun hne => hremove (h.historyRemoveLast.mpr hne))]
  have hresult : q.finish.1 = concharArrayToString q.utf8 q.input := by
    rw [finish, hout]
  have hhistory : q.finish.2.history = (if q.historyRemoveLast = true then q.history.dropLast else q.history)
      ++ (if concharArrayToString q.utf8 q.input = [] then [] else [concharArrayToString q.utf8 q.input]) := by
    rw [finish, hout]
    by_cases hnil : concharArrayToString q.utf8 q.input = []
    · cases hremove : q.historyRemoveLast <;> simp [hnil]
    · cases hremove : q.historyRemoveLast <;> simp [hnil]
  rw [hhistory, hresult, hentries, hq]
  exact ⟨rfl, rfl⟩

/-! ## A line -/

/-- What the members say, while a line editor is in a state -/
structure Follows (p : Prompt) (e : LineEditor UInt32) : Prop where
  input : p.input = e.line.text
  caretPos : p.caretPos = e.line.back.length
  caretPos_le : p.caretPos ≤ p.input.length
  entries : p.history.take e.entries.length = e.entries.map Unicode.encoding
  historyPos : p.historyPos = e.pos
  historyRemoveLast : p.historyRemoveLast = true ↔ p.historyPos ≠ p.history.length
  pending : p.historyRemoveLast = true → p.history = (e.entries ++ [e.pending]).map Unicode.encoding

lemma map_encoding {utf8 : Bool} (hutf8 : utf8 = true) {lines : List (List UInt32)}
    (hlines : ∀ l ∈ lines, ∀ c ∈ l, Encodable utf8 c) :
    lines.map (concharArrayToString utf8) = lines.map Unicode.encoding := by
  refine List.map_congr_left fun l hl => ?_
  rw [hutf8]
  exact concharArrayToString_utf8 fun c hc => by simpa [Encodable, hutf8] using hlines l hl c hc

lemma Represents.follows (h : Represents s p e) (hutf8 : p.utf8 = true) : Follows p e := by
  have hentries := map_encoding hutf8 h.encodable.entries
  have hplaces : (places e).map (concharArrayToString p.utf8) = (places e).map Unicode.encoding := by
    refine map_encoding hutf8 fun l hl => ?_
    rcases List.mem_append.mp hl with hold | hlast
    · exact h.encodable.entries l hold
    · rw [List.mem_singleton.mp hlast]
      exact h.encodable.pending
  have hhistory := h.history
  refine ⟨h.input, h.caretPos, h.caretPos_le, ?_, h.historyPos, ?_, ?_⟩
  · rw [hhistory, ← hentries]
    split
    · rw [← List.length_map (concharArrayToString p.utf8), List.take_length]
    · rw [List.map_append, ← List.length_map (concharArrayToString p.utf8), List.take_left]
  · rw [h.historyRemoveLast, Ne, Ne, h.end_iff]
  · intro hremove
    rw [if_neg (h.historyRemoveLast.mp hremove)] at hhistory
    exact hhistory.trans hplaces

lemma encoding_eq_nil {text : List UInt32} (h : ∀ c ∈ text, c < 0x110000) :
    Unicode.encoding text = [] ↔ text = [] := by
  cases text with
  | nil => simp [Unicode.encoding]
  | cons c text =>
    have hgroup := Unicode.append_group (UInt32.lt_iff_toNat_lt.mp (h c List.mem_cons_self))
    have hne := List.ne_nil_of_length_pos hgroup.pos
    simp [Unicode.encoding, hne]

/-- **From the pending line**, as many times down as up -/
lemma Represents.ups_downs (h : Represents s p e) (hutf8 : s.1 = true) (hpos : p.historyPos = p.history.length)
    {k : ℕ} {moves : List (List UInt8 × ℕ)}
    (hmoves : List.Forall₂ Typed (List.replicate k .up ++ List.replicate k .down) moves) :
    ∃ q, p.inputLoop moves = some q ∧ q.input = p.input ∧ q.historyPos = q.history.length := by
  have hend := h.end_iff.mp hpos
  have hwalked := LineEditor.ups_downs hend k
  rcases inputLoop_keys hutf8 hmoves h with ⟨q, hq, hrep⟩
  refine ⟨q, by simpa [inputLoop] using hq [], ?_, hrep.end_iff.mpr ?_⟩
  · rw [hrep.input, h.input, hwalked.text]
  · rw [hwalked.pos, hwalked.length, hend]

/-- **The return key** -/
lemma Represents.return_ (h : Represents s p e) (hutf8 : s.1 = true) {buffer : List UInt8 × ℕ}
    (hreturn : Reads [0x0d] buffer) : ∃ q, p.inputLoop [buffer] = some q ∧
      q.finish.1 = Unicode.encoding p.input ∧ q.finish.2.history = e.enter.map Unicode.encoding ∧
      q.finish.2.history.length = e.entries.length + if q.finish.1 = [] then 0 else 1 := by
  rcases hreturn with ⟨rest, rfl⟩
  have hmode : p.utf8 = true := (congrArg Prod.fst h.settings).trans hutf8
  have hline : ∀ c ∈ p.input, c < 0x110000 := by
    rw [h.input]
    exact fun c hc => by simpa [Encodable, hmode] using h.encodable.line c hc
  have hresult : concharArrayToString p.utf8 p.input = Unicode.encoding p.input := by
    rw [hmode]
    exact concharArrayToString_utf8 hline
  have hentries := map_encoding hmode h.encodable.entries
  rcases finish_eq h rfl with ⟨hfirst, hhistory⟩
  have hlength := congrArg List.length hhistory
  refine ⟨{ p with inputComplete := true }, ?_, hfirst.trans hresult, ?_, ?_⟩
  · have hread := handleInput_return (p := p) hmode (0 :: rest)
    simp only [inputLoop, List.length_singleton, hread, Option.bind_eq_bind, Option.bind_some, if_true]
    rfl
  · rw [hhistory, hfirst, hresult, hentries, LineEditor.enter, ← h.input]
    by_cases hnil : p.input = []
    · rw [if_pos ((encoding_eq_nil hline).mpr hnil), if_pos hnil, List.append_nil]
    · rw [if_neg (mt (encoding_eq_nil hline).mp hnil), if_neg hnil, List.map_append]
      rfl
  · rw [hlength, List.length_append, List.length_map]
    split <;> rfl

/-- **A line**, read in a UTF-8 console.  Behind any keys, the members are those of the line editor; from
    the pending line, as many times down as up lead back to it; and the return key gives the line, which
    becomes an entry if there is anything in it. -/
theorem getLine_refines (p : Prompt) (hutf8 : p.utf8 = true) {lines : List (List UInt32)}
    (hlines : ∀ l ∈ lines, ∀ c ∈ l, c < 0x110000) (hhistory : p.history = lines.map Unicode.encoding)
    (prompt : List UInt8) {keys : List (Key UInt32)} {buffers : List (List UInt8 × ℕ)}
    (hkeys : List.Forall₂ Typed keys buffers) :
    ∃ p₀ q, p.start prompt = some p₀ ∧ p₀.inputLoop buffers = some q ∧
      Follows q (keys.foldl .press (.new lines)) ∧
      (q.historyPos = q.history.length → ∀ (k : ℕ) (moves : List (List UInt8 × ℕ)),
        List.Forall₂ Typed (List.replicate k .up ++ List.replicate k .down) moves →
          ∃ q', q.inputLoop moves = some q' ∧ q'.input = q.input ∧ q'.historyPos = q'.history.length) ∧
      ∀ return_, Reads [0x0d] return_ → ∃ result q', p.getLine prompt (buffers ++ [return_]) = some (result, q') ∧
        result = Unicode.encoding q.input ∧
        q'.history = ((keys.foldl .press (.new lines) : LineEditor UInt32).enter).map Unicode.encoding ∧
        q'.history.length = p.history.length + if result = [] then 0 else 1 := by
  have hencodable : ∀ l ∈ lines, ∀ c ∈ l, Encodable p.utf8 c := by
    intro l hl c hc
    simpa [Encodable, hutf8] using hlines l hl c hc
  have hhistory' := hhistory.trans (map_encoding hutf8 hencodable).symm
  rcases represents_start p hhistory' hencodable prompt with ⟨s, p₀, hstart, hrep₀, hmode, _⟩
  have hmode' : s.1 = true := hmode.trans hutf8
  rcases inputLoop_keys hmode' hkeys hrep₀ with ⟨q, hloop, hrep⟩
  have hlength := LineEditor.length_entries_keys (.new lines) keys
  refine ⟨p₀, q, hstart, by simpa [inputLoop] using hloop [], ?_, ?_, ?_⟩
  · exact hrep.follows ((congrArg Prod.fst hrep.settings).trans hmode')
  · exact fun hpos k moves hmoves => hrep.ups_downs hmode' hpos hmoves
  · intro return_ hreturn
    rcases hrep.return_ hmode' hreturn with ⟨q', hread, hresult, hhistory'', hlength'⟩
    refine ⟨q'.finish.1, q'.finish.2, ?_, hresult, hhistory'', ?_⟩
    · rw [getLine, hstart]
      simp only [Option.bind_eq_bind, Option.bind_some, hloop, hread]
      rfl
    · rw [hlength', hlength, hhistory, List.length_map]
      rfl

/-- The entry "a", and then up and return: it is entered once more. -/
theorem getLine_refines_up : ∃ p q : Prompt, p.history = [bytes "a"] ∧
    p.getLine (bytes "> ") [(0x1b :: bytes "[A" ++ [0], 3), ([0x0d, 0], 1)] = some (bytes "a", q) ∧
    q.history = [bytes "a", bytes "a"] := by
  have hkeys : List.Forall₂ Typed [.up] [(0x1b :: bytes "[A" ++ [0], 3)] :=
    .cons ⟨_, .up, [], rfl⟩ .nil
  rcases getLine_refines { (default : Prompt) with utf8 := true, history := [bytes "a"] }
    rfl (show ∀ l ∈ [[97]], ∀ c ∈ l, c < 0x110000 by simp) rfl (bytes "> ") hkeys with ⟨_, q, _, _, hfollows, _, hreturn⟩
  rcases hreturn ([0x0d, 0], 1) ⟨[], rfl⟩ with ⟨result, q', hgetLine, hresult, hhistory, _⟩
  have hinput : q.input = [97] := hfollows.input
  rw [hinput] at hresult
  exact ⟨_, q', rfl, hresult ▸ hgetLine, hhistory⟩

end Prompt

end Nstd.Console
