import Mathlib.Data.List.Basic

/-!
# Line editors

A line with a caret, and earlier lines that can be edited again.

* `CaretLine` — the characters in front of the caret, the nearest one first, and those behind it.
* `LineEditor` — the line, the entries, and which of them is being edited; a line that is left is stored.
* `press`, `enter` — the keys.
* `lineAt_walk` — going up and down changes no line.
* **`ups_downs`** — as many times down as up leads back to the pending line.
-/

namespace Nstd

variable {α : Type}

/-! ## A line -/

/-- A line with a caret in it -/
structure CaretLine (α : Type) where
  back : List α
  front : List α

namespace CaretLine

def text (l : CaretLine α) : List α := l.back.reverse ++ l.front

/-- The caret is behind all of the characters. -/
def ofText (text : List α) : CaretLine α := ⟨text.reverse, []⟩

def insert (l : CaretLine α) (c : α) : CaretLine α := ⟨c :: l.back, l.front⟩

def backspace (l : CaretLine α) : CaretLine α := ⟨l.back.tail, l.front⟩

def delete (l : CaretLine α) : CaretLine α := ⟨l.back, l.front.tail⟩

def left : CaretLine α → CaretLine α
  | ⟨[], front⟩ => ⟨[], front⟩
  | ⟨c :: back, front⟩ => ⟨back, c :: front⟩

def right : CaretLine α → CaretLine α
  | ⟨back, []⟩ => ⟨back, []⟩
  | ⟨back, c :: front⟩ => ⟨c :: back, front⟩

def home (l : CaretLine α) : CaretLine α := ⟨[], l.text⟩

@[simp] lemma text_ofText (text : List α) : (ofText text).text = text := by
  simp [ofText, CaretLine.text]

@[simp] lemma text_home (l : CaretLine α) : l.home.text = l.text := by
  simp [home, CaretLine.text]

@[simp] lemma text_left (l : CaretLine α) : l.left.text = l.text := by
  rcases l with ⟨_ | ⟨c, back⟩, front⟩ <;> simp [left, CaretLine.text]

@[simp] lemma text_right (l : CaretLine α) : l.right.text = l.text := by
  rcases l with ⟨back, _ | ⟨c, front⟩⟩ <;> simp [right, CaretLine.text]

lemma length_text (l : CaretLine α) : l.text.length = l.back.length + l.front.length := by
  simp [CaretLine.text]

end CaretLine

/-! ## Lines -/

/-- The keys of a line editor -/
inductive Key (α : Type)
  | char (c : α)
  | backspace
  | delete
  | left
  | right
  | home
  | toEnd
  | up
  | down

/-- A key whose character is of a kind -/
def Key.Is (P : α → Prop) : Key α → Prop
  | .char c => P c
  | _ => True

/-- A line editor.  Behind the entries is the pending line, which is not one of them yet. -/
structure LineEditor (α : Type) where
  line : CaretLine α
  entries : List (List α)
  pending : List α
  pos : ℕ
  pos_le : pos ≤ entries.length

namespace LineEditor

/-- An editor with an empty pending line -/
def new (entries : List (List α)) : LineEditor α where
  line := ⟨[], []⟩
  entries := entries
  pending := []
  pos := entries.length
  pos_le := Nat.le_refl _

/-- The line at a place, as it was stored -/
def stored (e : LineEditor α) (i : ℕ) : List α := (e.entries[i]?).getD e.pending

/-- The line that is left is stored, and the one at the place `i` is edited. -/
def goTo (e : LineEditor α) (i : ℕ) (hi : i ≤ e.entries.length) : LineEditor α where
  line := CaretLine.ofText (e.stored i)
  entries := if e.pos < e.entries.length then e.entries.set e.pos e.line.text else e.entries
  pending := if e.pos < e.entries.length then e.pending else e.line.text
  pos := i
  pos_le := by split <;> simpa using hi

def up (e : LineEditor α) : LineEditor α :=
  if e.pos = 0 then e else e.goTo (e.pos - 1) (Nat.le_trans (Nat.sub_le _ _) e.pos_le)

def down (e : LineEditor α) : LineEditor α :=
  if h : e.pos = e.entries.length then e
  else e.goTo (e.pos + 1) (Nat.lt_of_le_of_ne e.pos_le h)

/-- Only the line changes. -/
def edit (e : LineEditor α) (f : CaretLine α → CaretLine α) : LineEditor α := { e with line := f e.line }

/-- A key -/
def press (e : LineEditor α) : Key α → LineEditor α
  | .char c => e.edit (·.insert c)
  | .backspace => e.edit .backspace
  | .delete => e.edit .delete
  | .left => e.edit .left
  | .right => e.edit .right
  | .home => e.edit .home
  | .toEnd => e.edit fun l => .ofText l.text
  | .up => e.up
  | .down => e.down

/-- The return key: the entries of the next line -/
def enter (e : LineEditor α) : List (List α) :=
  if e.line.text = [] then e.entries else e.entries ++ [e.line.text]

/-- What holds of all characters -/
structure All (P : α → Prop) (e : LineEditor α) : Prop where
  line : ∀ c ∈ e.line.text, P c
  entries : ∀ l ∈ e.entries, ∀ c ∈ l, P c
  pending : ∀ c ∈ e.pending, P c

variable {P : α → Prop}

lemma All.new {entries : List (List α)} (h : ∀ l ∈ entries, ∀ c ∈ l, P c) : (new entries).All P :=
  ⟨fun _ hc => absurd hc List.not_mem_nil, h, fun _ hc => absurd hc List.not_mem_nil⟩

lemma All.stored {e : LineEditor α} (h : e.All P) (i : ℕ) : ∀ c ∈ e.stored i, P c := by
  rw [LineEditor.stored]
  cases hi : e.entries[i]? with
  | none => exact h.pending
  | some l => exact h.entries l (List.mem_of_getElem? hi)

lemma All.goTo {e : LineEditor α} (h : e.All P) {i : ℕ} (hi : i ≤ e.entries.length) :
    (e.goTo i hi).All P := by
  refine ⟨?_, ?_, ?_⟩
  · simpa [LineEditor.goTo] using h.stored i
  · intro l hl
    simp only [LineEditor.goTo] at hl
    split at hl
    · rcases List.mem_or_eq_of_mem_set hl with hold | rfl
      · exact h.entries l hold
      · exact h.line
    · exact h.entries l hl
  · simp only [LineEditor.goTo]
    split
    · exact h.pending
    · exact h.line

lemma All.edit {e : LineEditor α} (h : e.All P) {f : CaretLine α → CaretLine α}
    (hf : ∀ c ∈ (f e.line).text, P c) : (e.edit f).All P := ⟨hf, h.entries, h.pending⟩

/-- A key brings no other characters than its own. -/
lemma All.press {e : LineEditor α} (h : e.All P) {k : Key α} (hk : k.Is P) : (e.press k).All P := by
  have hback : ∀ c ∈ e.line.back, P c := fun c hc => h.line c (by simp [CaretLine.text, hc])
  have hfront : ∀ c ∈ e.line.front, P c := fun c hc => h.line c (by simp [CaretLine.text, hc])
  cases k with
  | char d =>
    refine h.edit (f := fun l => l.insert d) fun c hc => ?_
    simp only [CaretLine.text, CaretLine.insert, List.reverse_cons, List.mem_append, List.mem_reverse,
      List.mem_singleton] at hc
    rcases hc with (hc | rfl) | hc
    · exact hback c hc
    · exact hk
    · exact hfront c hc
  | backspace =>
    refine h.edit fun c hc => ?_
    simp only [CaretLine.text, CaretLine.backspace, List.mem_append, List.mem_reverse] at hc
    rcases hc with hc | hc
    · exact hback c (List.mem_of_mem_tail hc)
    · exact hfront c hc
  | delete =>
    refine h.edit fun c hc => ?_
    simp only [CaretLine.text, CaretLine.delete, List.mem_append, List.mem_reverse] at hc
    rcases hc with hc | hc
    · exact hback c hc
    · exact hfront c (List.mem_of_mem_tail hc)
  | left => exact h.edit (by simpa using h.line)
  | right => exact h.edit (by simpa using h.line)
  | home => exact h.edit (by simpa using h.line)
  | toEnd => exact h.edit (f := fun l => .ofText l.text) (by simpa using h.line)
  | up =>
    rw [LineEditor.press, up]
    split
    · exact h
    · exact h.goTo _
  | down =>
    rw [LineEditor.press, down]
    split
    · exact h
    · exact h.goTo _

/-! ## Up and down -/

/-- The line at a place, as it would be stored -/
def lineAt (e : LineEditor α) (i : ℕ) : List α := if i = e.pos then e.line.text else e.stored i

variable {e : LineEditor α} {i : ℕ}

@[simp] lemma length_entries_goTo (hi : i ≤ e.entries.length) :
    (e.goTo i hi).entries.length = e.entries.length := by
  simp only [goTo]
  split <;> simp

/-- No key adds an entry. -/
lemma length_entries_press (e : LineEditor α) (k : Key α) : (e.press k).entries.length = e.entries.length := by
  cases k with
  | up =>
    rw [press, up]
    split <;> simp
  | down =>
    rw [press, down]
    split <;> simp
  | _ => rfl

lemma length_entries_keys (e : LineEditor α) (keys : List (Key α)) :
    (keys.foldl press e).entries.length = e.entries.length := by
  induction keys generalizing e with
  | nil => rfl
  | cons k keys ih => exact (ih _).trans (length_entries_press e k)

lemma stored_goTo (hi : i ≤ e.entries.length) {j : ℕ} (hj : j ≤ e.entries.length) :
    (e.goTo i hi).stored j = e.lineAt j := by
  have hpos := e.pos_le
  by_cases hlt : e.pos < e.entries.length
  · by_cases hjp : j = e.pos
    · simp [goTo, stored, lineAt, hlt, hjp]
    · simp [goTo, stored, lineAt, hlt, hjp, List.getElem?_set_ne (Ne.symm hjp)]
  · have heq : e.pos = e.entries.length := Nat.le_antisymm hpos (Nat.not_lt.mp hlt)
    by_cases hjp : j = e.pos
    · simp [goTo, stored, lineAt, hjp, heq]
    · have hjlt : j < e.entries.length := by omega
      simp [goTo, stored, lineAt, heq, Nat.ne_of_lt hjlt, List.getElem?_eq_getElem hjlt]

/-- The entries, and the pending line behind them -/
lemma getElem?_places (e : LineEditor α) {j : ℕ} (hj : j ≤ e.entries.length) :
    (e.entries ++ [e.pending])[j]? = some (e.stored j) := by
  rcases Nat.lt_or_eq_of_le hj with hlt | rfl
  · simp [stored, List.getElem?_append_left hlt, List.getElem?_eq_getElem hlt]
  · simp [stored]

/-- **Leaving a line** changes none. -/
lemma lineAt_goTo (hi : i ≤ e.entries.length) (hne : i ≠ e.pos) {j : ℕ} (hj : j ≤ e.entries.length) :
    (e.goTo i hi).lineAt j = e.lineAt j := by
  by_cases hji : j = i
  · subst hji
    simp [lineAt, goTo, hne]
  · have hstored := stored_goTo hi hj
    rw [lineAt]
    exact (if_neg hji).trans hstored

/-- Where a key that goes up or down leads, with all lines as they were -/
structure Walked (e e' : LineEditor α) (pos : ℕ) : Prop where
  pos : e'.pos = pos
  length : e'.entries.length = e.entries.length
  lineAt : ∀ j ≤ e.entries.length, e'.lineAt j = e.lineAt j

lemma walked_up (e : LineEditor α) : Walked e e.up (e.pos - 1) := by
  rw [up]
  split
  next h => exact ⟨by omega, rfl, fun _ _ => rfl⟩
  next h => exact ⟨rfl, by simp, fun j hj => lineAt_goTo _ (by omega) hj⟩

lemma walked_down (e : LineEditor α) : Walked e e.down (min (e.pos + 1) e.entries.length) := by
  have hpos := e.pos_le
  rw [down]
  split
  next h => exact ⟨by omega, rfl, fun _ _ => rfl⟩
  next h =>
    refine ⟨?_, by simp, fun j hj => lineAt_goTo _ (by omega) hj⟩
    simp only [goTo]
    omega

lemma Walked.trans {e e' e'' : LineEditor α} {i j : ℕ} (h : Walked e e' i) (h' : Walked e' e'' j) :
    Walked e e'' j :=
  ⟨h'.pos, h'.length.trans h.length,
    fun k hk => (h'.lineAt k (by rw [h.length]; exact hk)).trans (h.lineAt k hk)⟩

lemma walked_ups (e : LineEditor α) (k : ℕ) :
    Walked e ((List.replicate k Key.up).foldl press e) (e.pos - k) := by
  induction k generalizing e with
  | zero => exact ⟨rfl, rfl, fun _ _ => rfl⟩
  | succ k ih =>
    have hrest := (walked_up e).trans (ih e.up)
    rw [(walked_up e).pos, Nat.sub_sub, Nat.add_comm 1 k] at hrest
    exact hrest

lemma walked_downs (e : LineEditor α) (k : ℕ) :
    Walked e ((List.replicate k Key.down).foldl press e) (min (e.pos + k) e.entries.length) := by
  have hpos := e.pos_le
  induction k generalizing e with
  | zero => exact ⟨by simp [hpos], rfl, fun _ _ => rfl⟩
  | succ k ih =>
    have hdown := walked_down e
    have hrest := hdown.trans (ih e.down e.down.pos_le)
    rw [hdown.pos, hdown.length] at hrest
    rwa [show min (min (e.pos + 1) e.entries.length + k) e.entries.length
      = min (e.pos + (k + 1)) e.entries.length by omega] at hrest

/-- **As many times down as up** leads back to the pending line, however many entries there are. -/
theorem ups_downs {e : LineEditor α} (h : e.pos = e.entries.length) (k : ℕ) :
    Walked e ((List.replicate k Key.up ++ List.replicate k Key.down).foldl press e) e.pos := by
  have hups := walked_ups e k
  have hwalk := hups.trans (walked_downs _ k)
  rw [← List.foldl_append, hups.pos, hups.length] at hwalk
  rwa [show min (e.pos - k + k) e.entries.length = e.pos by omega] at hwalk

/-- The line at the place of the editor is the one that is edited. -/
lemma Walked.text {e e' : LineEditor α} (h : Walked e e' e.pos) : e'.line.text = e.line.text := by
  have hline := h.lineAt e.pos e.pos_le
  simpa [LineEditor.lineAt, h.pos] using hline

end LineEditor

end Nstd
