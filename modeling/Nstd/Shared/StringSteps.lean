import Nstd.Shared.StringRuns

/-!
# What calls do to the value of a string

* `State.Sound.op_sets` — what a function yields is the value of the variable after the call.
* `step_append`, `step_prepend`, `step_clear` and so on — one call each.
* `State.Becomes` — a call gives a variable a value and leaves the others, whatever is in memory.
* **`append_prepend_iff`** — `append` puts the bytes of any string behind the own ones; `prepend` puts
  them in front, unless a string that is not empty is prepended to itself.

`prepend` detaches the string before it reads its argument, which is empty by then if it is the string
itself.
-/

namespace Nstd.Strings

variable (memory : ℕ → ℕ → UInt8)

/-- **What a function yields** is the value of the variable after the call. -/
lemma State.Sound.op_sets {s : State} (hs : s.Sound) {x : ℕ} {this : Cell} {op : Op}
    {p : Data → Prop} {v : List UInt8} (hx : s.get x = some this)
    (hy : Yields (s.rest x) s.heap p v (op.run memory (s.arg x) s.heap this)) :
    ∃ s', step memory s (.op x op) = some s' ∧ s.Sets x p v s' := by
  obtain ⟨heap, this', hrun, hsets⟩ := hs.sets (State.vars_of_get hx) hy
  exact ⟨_, by simp [step, hx, hrun], hsets⟩

/-- The string of a variable, without its block in the roots of the others -/
lemma State.Sound.roots {s : State} (hs : s.Sound) {x : ℕ} {this : Cell}
    (hx : s.get x = some this) : s.heap.Sound (this.pointers ++ s.rest x) :=
  hs.at (State.vars_of_get hx)

/-- An argument is a string, and shows the bytes of its variable. -/
lemma State.Sound.arg {s : State} (hs : s.Sound) {x y : ℕ} {this : Cell} {w : List UInt8}
    (hx : s.get x = some this) (hw : s.Value y w) : ∃ a, s.arg x y = some a
      ∧ a.Kept (s.rest x) ∧ (a.cell this).Shows s.heap w ∧ s.get y = some (a.cell this)
      ∧ (a = .self ↔ y = x) := by
  obtain ⟨c, hy, hshows⟩ := hs.value_iff.mp hw
  by_cases hyx : y = x
  · have harg : s.arg x y = some .self := by rw [State.arg, if_pos hyx]
    have hcell := State.arg_cell hx harg
    obtain rfl := Option.some.inj (hy.symm.trans hcell)
    exact ⟨.self, harg, State.arg_kept harg, hshows, hcell, by simp [hyx]⟩
  · have harg : s.arg x y = some (.other c) := by rw [State.arg, if_neg hyx, hy]; rfl
    exact ⟨.other c, harg, State.arg_kept harg, hshows, hy, by simp [hyx]⟩

/-- **`append(const String&)`** -/
lemma step_append {s : State} (hs : s.Sound) {x y : ℕ} {v w : List UInt8} (hv : s.Value x v)
    (hw : s.Value y w) :
    ∃ s', step memory s (.op x (.append y)) = some s' ∧ s.Sets x Data.Ended (v ++ w) s' := by
  obtain ⟨this, hx, hshows⟩ := hs.value_iff.mp hv
  obtain ⟨a, harg, hkept, hshows', -⟩ := hs.arg hx hw
  refine hs.op_sets memory hx ?_
  simp only [Op.run, harg]
  exact append_yields memory (hs.roots hx) hs.wf hkept hshows hshows'

/-- **`prepend(const String&)`** of another string, and of the string itself -/
lemma step_prepend {s : State} (hs : s.Sound) {x y : ℕ} {v w : List UInt8} (hv : s.Value x v)
    (hw : s.Value y w) :
    ∃ s' u, step memory s (.op x (.prepend y)) = some s' ∧ s.Sets x Data.Ended u s'
      ∧ (y ≠ x → u = w ++ v) ∧ (y = x → ∃ a rest, u = v ++ rest ∧ rest.length = v.length
        ∧ ∀ i, i < v.length → rest[i]? = some (memory a (v.length + i))) := by
  obtain ⟨this, hx, hshows⟩ := hs.value_iff.mp hv
  obtain ⟨a, harg, hkept, hshows', -, hself⟩ := hs.arg hx hw
  obtain ⟨u, hyields, hu⟩ := prepend_yields memory (hs.roots hx) hs.wf hkept hshows hshows'
  have hrun : (Op.prepend y).run memory (s.arg x) s.heap this = prepend memory s.heap this a := by
    simp only [Op.run, harg]
  obtain ⟨s', hstep, hsets⟩ := hs.op_sets memory hx (hrun ▸ hyields)
  refine ⟨s', u, hstep, hsets, fun hne => ?_, fun heq => ?_⟩
  · cases a with
    | self => exact absurd (hself.mp rfl) hne
    | other c => exact hu
  · obtain rfl := hself.mpr heq
    exact hu

/-- **`append(const char*, usize)`** -/
lemma step_appendBytes {s : State} (hs : s.Sound) {x : ℕ} {v : List UInt8} (str : List UInt8)
    (hv : s.Value x v) : ∃ s', step memory s (.op x (.appendBytes str)) = some s'
      ∧ s.Sets x Data.Ended (v ++ str) s' := by
  obtain ⟨this, hx, hshows⟩ := hs.value_iff.mp hv
  exact hs.op_sets memory hx (appendBytes_yields memory str (hs.roots hx) hs.wf hshows)

/-- **`replace(char, char)`** -/
lemma step_replace {s : State} (hs : s.Sound) {x : ℕ} {v : List UInt8} (hv : s.Value x v)
    (needle replacement : UInt8) : ∃ s', step memory s (.op x (.replace needle replacement)) = some s'
      ∧ s.Sets x Data.Ended (replaceText (fun c => if c = needle then replacement else c) v) s' := by
  obtain ⟨this, hx, hshows⟩ := hs.value_iff.mp hv
  exact hs.op_sets memory hx (replaceWith_yields memory
    (fun c => if c = needle then replacement else c) (hs.roots hx) hs.wf hshows)

/-- **`clear`** -/
lemma step_clear {s : State} (hs : s.Sound) {x : ℕ} {v : List UInt8} (hv : s.Value x v) :
    ∃ s', step memory s (.op x .clear) = some s' ∧ s.Sets x Data.Ended [] s' := by
  obtain ⟨this, hx, -⟩ := hs.value_iff.mp hv
  exact hs.op_sets memory hx (clear_yields (hs.roots hx) hs.wf)

/-- **`detach()`** -/
lemma step_detach {s : State} (hs : s.Sound) {x : ℕ} {v : List UInt8} (hv : s.Value x v) :
    ∃ s', step memory s (.op x .detach) = some s' ∧ s.Sets x Data.Ended v s' := by
  obtain ⟨this, hx, hshows⟩ := hs.value_iff.mp hv
  exact hs.op_sets memory hx (detachAll_yields memory (hs.roots hx) hs.wf hshows)

/-- **`operator=`**, which keeps what holds of the block of the other string -/
lemma step_assign {s : State} (hs : s.Sound) {x y : ℕ} {v w : List UInt8} {p : Data → Prop}
    (hv : s.Value x v) (hw : s.Value y w) (hp : s.Has y p) (hended : ∀ d : Data, d.Ended → p d) :
    ∃ s', step memory s (.op x (.assign y)) = some s' ∧ s.Sets x p w s' := by
  obtain ⟨this, hx, -⟩ := hs.value_iff.mp hv
  obtain ⟨a, harg, hkept, hshows', hy, -⟩ := hs.arg hx hw
  refine hs.op_sets memory hx ?_
  simp only [Op.run, harg]
  exact assign_yields memory (hs.roots hx) hs.wf hkept hshows' (hp _ hy) hended

/-- A call gives a variable a value and leaves the others, whatever is in memory. -/
def State.Becomes (s : State) (x : ℕ) (op : Op) (v : List UInt8) : Prop :=
  ∀ memory, ∃ s', step memory s (.op x op) = some s' ∧ s'.Value x v
    ∧ ∀ y u, y ≠ x → s.Value y u → s'.Value y u

/-- **Appending and prepending.**  After any moves, appending a string to a string, which may be the same
    one, share its block, be attached or be empty, puts its bytes behind the others.  Prepending puts
    them in front exactly if it is another string, or if it is empty. -/
theorem append_prepend_iff (n : ℕ) (ms : List Move) {s : State}
    (hs : ms.foldlM (step memory) (State.initial n) = some s) {x y : ℕ} {v w : List UInt8}
    (hv : s.Value x v) (hw : s.Value y w) :
    s.Becomes x (.append y) (v ++ w) ∧ (s.Becomes x (.prepend y) (w ++ v) ↔ y ≠ x ∨ v = []) := by
  obtain ⟨s₁, hrun, hsound⟩ := State.Sound.run memory (n := n) ms
  obtain rfl := Option.some.inj (hrun.symm.trans hs)
  refine ⟨fun memory => ?_, fun hall => ?_, fun hor memory => ?_⟩
  · obtain ⟨s', hstep, hsets⟩ := step_append memory hsound hv hw
    exact ⟨s', hstep, hsets.sets, hsets.value⟩
  · -- memory that is full of another byte than the first one
    refine or_iff_not_imp_left.mpr fun hself => ?_
    obtain rfl := not_not.mp hself
    obtain rfl := hv.unique hw
    cases v with
    | nil => rfl
    | cons c v =>
      obtain ⟨s', hstep, hvalue, -⟩ := hall fun _ _ => c + 1
      obtain ⟨s'', u, hstep', hsets, -, hu⟩ := step_prepend (fun _ _ => c + 1) hsound hv hv
      obtain rfl := Option.some.inj (hstep.symm.trans hstep')
      obtain ⟨-, rest, rfl, -, hrest⟩ := hu rfl
      have hfirst := hrest 0 (Nat.succ_pos _)
      rw [List.append_cancel_left (hsets.sets.unique hvalue), List.getElem?_cons_zero] at hfirst
      have hne : c ≠ c + 1 := by simp
      exact absurd (Option.some.inj hfirst) hne
  · obtain ⟨s', u, hstep, hsets, hother, hself⟩ := step_prepend memory hsound hv hw
    have hu : u = w ++ v := by
      by_cases hyx : y = x
      · obtain ⟨-, rest, rfl, hlength, -⟩ := hself hyx
        rw [hyx] at hw
        obtain rfl := hv.unique hw
        obtain rfl := hor.resolve_left (not_not.mpr hyx)
        rw [List.length_eq_zero_iff.mp hlength]
      · exact hother hyx
    exact ⟨s', hstep, hu ▸ hsets.sets, hsets.value⟩

theorem append_prepend_iff_literal : ∃ s,
    [.construct 0 (.ofBytes [97]), .construct 1 (.attach [98, 99])].foldlM (step fun _ _ => 0)
      (State.initial 2) = some s
    ∧ s.Becomes 0 (.append 1) [97, 98, 99]
    ∧ (s.Becomes 0 (.prepend 1) [98, 99, 97] ↔ 1 ≠ 0 ∨ [97] = ([] : List UInt8)) := by
  obtain ⟨s, hs, -⟩ := State.Sound.run (fun _ _ => 0) (n := 2)
    [.construct 0 (.ofBytes [97]), .construct 1 (.attach [98, 99])]
  have hvalues : s.Value 0 [97] ∧ s.Value 1 [98, 99] := by
    obtain rfl := Option.some.inj hs
    exact ⟨⟨_, _, _, rfl, rfl, rfl, rfl⟩, ⟨_, _, _, rfl, rfl, rfl, rfl⟩⟩
  exact ⟨s, hs, append_prepend_iff _ 2 _ hs hvalues.1 hvalues.2⟩

/-- `"a"` prepended to itself -/
theorem prepend_itself : ∃ s s',
    [.construct 0 (.ofBytes [97])].foldlM (step fun _ _ => 0) (State.initial 1) = some s
    ∧ s.Value 0 [97] ∧ step (fun _ _ => 0) s (.op 0 (.prepend 0)) = some s'
    ∧ s'.Value 0 [97, 0] ∧ ¬ s.Becomes 0 (.prepend 0) [97, 97] := by
  obtain ⟨s, hs, hsound⟩ :=
    State.Sound.run (fun _ _ => 0) (n := 1) [.construct 0 (.ofBytes [97])]
  have hv : s.Value 0 [97] := by
    obtain rfl := Option.some.inj hs
    exact ⟨_, _, _, rfl, rfl, rfl, rfl⟩
  obtain ⟨s', u, hstep, hsets, -, hu⟩ := step_prepend (fun _ _ => 0) hsound hv hv
  obtain ⟨-, rest, rfl, hlength, hrest⟩ := hu rfl
  obtain ⟨c, rfl⟩ := List.length_eq_one_iff.mp hlength
  obtain rfl : c = 0 := Option.some.inj (hrest 0 Nat.zero_lt_one)
  refine ⟨s, s', hs, hv, hstep, hsets.sets, fun hall => ?_⟩
  obtain ⟨s'', hstep', hvalue, -⟩ := hall fun _ _ => 0
  obtain rfl := Option.some.inj (hstep.symm.trans hstep')
  exact absurd (hsets.sets.unique hvalue) (by decide)

end Nstd.Strings
