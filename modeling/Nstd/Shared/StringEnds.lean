import Nstd.Shared.StringCalls
import Nstd.Shared.StringSizes

/-!
# The ends of strings

* `Call`, `calls` — moves, `join` and `replace`, and the runs that they make on the machine.
* `Call.Ends` — what each call of a run has to meet: an empty string is made longer by `resize` only
  where it has room of its own, and bytes are written in front of the end.
* `State.Ended` — all blocks are ended; `State.Ended.step`, `State.Ended.replace` and so on.
* **`calls_terminated`** — every block has its end behind the bytes of the string, in every state of
  every such run, and the next move leads to such a state exactly if there is room for it.

There are two ways to lose an end.  One is the branch of `detach` for an empty string, which
`Call.Ends` rules out.  The other is a block whose size wraps: then the end is written outside of it,
and the call has no next state.  `join` and `replace` are moves one after the other, and each of them
has to have room.
-/

namespace Nstd.Strings

open Texts (upTo find)

variable (memory : ℕ → ℕ → UInt8)

/-! ## Calls -/

/-- What a program calls; behind the bytes that `replace` reads may be any others. -/
inductive Call
  | move (m : Move)
  | join (x : ℕ) (tokens : List ℕ) (separator : UInt8)
  | replace (x y z : ℕ) (behind : ℕ → Behind) (n : ℕ)

def Call.run [Usize] (s : State) : Call → Option State
  | .move m => step memory s m
  | .join x tokens separator => s.join memory x tokens separator
  | .replace x y z behind n => s.replace memory behind x y z n

/-- When the ends of all strings stay behind their bytes -/
def Call.Ends (s : State) : Call → Prop
  | .move m => m.Ends s
  | _ => True

/-- The numbers of a call are of the type `usize`. -/
def Call.Usizes : Call → Prop
  | .move m => m.Usizes
  | _ => True

/-- There is room for a single move.  Those that `join` and `replace` are made of have room where they
    are made, or the call leaves a block and has no next state. -/
def Call.Room (s : State) : Call → Prop
  | .move m => m.Room s
  | _ => True

/-- Programs on the machine, all of whose calls meet the condition -/
def calls (n : ℕ) : System State Call where
  initial s := s = State.initial n
  step s cs s' := ∃ c : Call, cs = [c] ∧ c.Usizes ∧ c.Ends s ∧ c.Room s
    ∧ @Call.run memory .machine s c = some s'

/-- Every string that has a block has its end behind its bytes, which are within the capacity, so that
    a C string that begins there ends there at the latest. -/
def State.Terminated (s : State) : Prop :=
  ∀ x data b, s.get x = some (.block data) → s.heap.get? data = some b →
    b.content.len ≤ b.content.capacity ∧ b.content.str[b.content.len]? = some 0
      ∧ ∃ t, upTo 0 b.content.str = some t ∧ t.length ≤ b.content.len

/-! ## What calls preserve -/

/-- All blocks are ended and in memory; there are `n` variables. -/
structure State.Ended (n : ℕ) (s : State) : Prop where
  sound : s.Sound
  small : Small s.heap
  ended : ∀ y, s.Has y Data.Ended
  length : s.vars.length = n

variable {memory} {behind : ℕ → Behind} {n : ℕ} {s s' : State}

lemma State.Ended.terminated (hs : s.Ended n) : s.Terminated := by
  intro x data b hx hb
  have hzero := hs.ended x _ hx data rfl b hb
  have hlen := (hs.sound.wf data b hb).len
  have hlt := (List.getElem?_eq_some_iff.mp hzero).1
  refine ⟨hlen, hzero, _, Texts.upTo_of_prefix (v := b.content.str.take b.content.len) ?_, ?_⟩
  · have hcut := List.take_append_getElem hlt
    rw [(List.getElem?_eq_some_iff.mp hzero).2] at hcut
    rw [hcut]
    exact List.take_prefix _ _
  · exact ((List.takeWhile_prefix _).length_le).trans (List.length_take_le ..)

lemma State.Ended.step {m : Move} (hs : s.Ended n)
    (h : @Strings.step .machine memory s m = some s') (hus : m.Usizes) (hends : m.Ends s) :
    s'.Ended n := by
  obtain ⟨-, hstep, hsmall⟩ := hs.sound.machine hs.small hus h
  obtain ⟨s'', h', hleaves, htarget⟩ := step_spec memory hs.sound m
  obtain rfl := Option.some.inj (hstep.symm.trans h')
  refine ⟨hleaves.sound, hsmall, fun y => ?_, hleaves.length.trans hs.length⟩
  by_cases hy : y = m.target
  · rw [hy]
    exact htarget hs.ended hends
  · exact hleaves.has y _ hy (hs.ended y)

/-- A call that is always possible without losing an end -/
lemma State.Ended.op {x : ℕ} {op : Op} (hs : s.Ended n)
    (h : @Strings.step .machine memory s (.op x op) = some s') (hus : op.Usizes)
    (hends : ∀ h this, op.Ends h this) : s'.Ended n :=
  hs.step h hus fun this _ => hends s.heap this

lemma State.Ended.constChars {x : ℕ} {this : Cell} (hs : s.Ended n)
    (h : @State.constChars .machine memory behind s x = some (s', this)) : s'.Ended n := by
  rcases @State.constChars_of_some .machine _ _ _ _ _ _ h with rfl | hdetach
  · exact hs
  · exact hs.op hdetach trivial fun _ _ => trivial

lemma State.Ended.replaceEnd {x r p : ℕ} {str : Cell} (hs : s.Ended n)
    (h : @State.replaceEnd .machine memory behind s x r str p = some s') : s'.Ended n := by
  obtain ⟨-, s₁, bytes, happend, hassign⟩ := @State.replaceEnd_of_some .machine _ _ _ _ _ _ _ _ h
  exact (hs.op happend trivial fun _ _ => trivial).op hassign trivial fun _ _ => trivial

lemma State.Ended.replaceLoop {x y z r : ℕ} {str : Cell} (rounds : ℕ) {p found : ℕ}
    (hs : s.Ended n)
    (h : @State.replaceLoop .machine memory behind x y z r str rounds s p found = some s') :
    s'.Ended n := by
  induction rounds generalizing s p found with
  | zero => exact nomatch h
  | succ rounds ih =>
    obtain ⟨bytes, s₁, s₂, s₃, needle, hpiece, hreplacement, hconst, hlater⟩ :=
      @State.replaceLoop_of_some .machine _ _ _ _ _ _ _ _ _ _ _ _ h
    have hs₃ := ((hs.op hpiece trivial fun _ _ => trivial).op hreplacement trivial
      fun _ _ => trivial).constChars hconst
    rcases hlater with ⟨p, hend⟩ | ⟨p, found, hloop⟩
    · exact hs₃.replaceEnd hend
    · exact ih hs₃ hloop

lemma State.Ended.replace {x y z rounds : ℕ} (hs : s.Ended n)
    (h : @State.replace .machine memory behind s x y z rounds = some s') : s'.Ended n := by
  obtain ⟨str, -, h⟩ := Option.bind_eq_some_iff.mp h
  obtain ⟨⟨s₁, found⟩, hfind, h⟩ := Option.bind_eq_some_iff.mp h
  obtain ⟨needle, hconst⟩ := @State.strstr_of_some .machine _ _ _ _ _ _ _ _ _ hfind
  have hs₁ := hs.constChars hconst
  cases found with
  | none => exact Option.some.inj h ▸ hs₁
  | some found =>
    obtain ⟨_, -, h⟩ := Option.bind_eq_some_iff.mp h
    obtain ⟨_, -, h⟩ := Option.bind_eq_some_iff.mp h
    obtain ⟨_, -, h⟩ := Option.bind_eq_some_iff.mp h
    obtain ⟨_, -, h⟩ := Option.bind_eq_some_iff.mp h
    obtain ⟨s₂, hconstruct, h⟩ := Option.bind_eq_some_iff.mp h
    obtain ⟨s₃, hloop, h⟩ := Option.bind_eq_some_iff.mp h
    obtain ⟨s₄, hdestroy, h⟩ := Option.bind_eq_some_iff.mp h
    have hpush : State.Ended (n + 1) ⟨s₁.heap, s₁.vars ++ [none]⟩ := by
      refine ⟨State.sound_push.mpr hs₁.sound, hs₁.small, fun y c hc => ?_, ?_⟩
      · rw [State.get_push] at hc
        exact hs₁.ended y c hc
      · rw [List.length_append, hs₁.length]
        rfl
    have hmade := hpush.step hconstruct (Nat.mod_lt _ (Nat.two_pow_pos 64)) trivial
    have hs₃ := hmade.replaceLoop rounds hloop
    have hs₄ := hs₃.step hdestroy trivial trivial
    have hvars := State.vars_eq_push (r := s₁.vars.length) (by rw [hs₁.length, hs₄.length])
      (State.get_destroyed memory (hs₃.sound.machine hs₃.small
        (show (Move.destroy s₁.vars.length).Usizes from trivial) hdestroy).2.1)
    obtain rfl := Option.some.inj h
    have hpop : s₄ = ⟨s₄.heap, s₄.vars.take s₁.vars.length ++ [none]⟩ := by rw [← hvars]
    refine ⟨State.sound_push.mp (hpop ▸ hs₄.sound), hs₄.small, fun y c hc => ?_, ?_⟩
    · have hc' : s₄.get y = some c := by
        rw [hpop, State.get_push]
        exact hc
      exact hs₄.ended y c hc'
    · rw [List.length_take, hs₄.length, hs₁.length]
      omega

lemma State.Ended.joinLoop {x : ℕ} {separator : UInt8} {tokens : List ℕ} (hs : s.Ended n)
    (h : @State.joinLoop .machine memory x separator tokens s = some s') : s'.Ended n := by
  induction tokens generalizing s with
  | nil => exact Option.some.inj h ▸ hs
  | cons i tokens ih =>
    cases tokens with
    | nil => exact hs.op h trivial fun _ _ => trivial
    | cons j tokens =>
      obtain ⟨s₁, happend, h⟩ := Option.bind_eq_some_iff.mp h
      obtain ⟨s₂, hseparator, h⟩ := Option.bind_eq_some_iff.mp h
      exact ih ((hs.op happend trivial fun _ _ => trivial).op hseparator trivial
        fun _ _ => trivial) h

lemma State.Ended.call {c : Call} (hs : s.Ended n) (hus : c.Usizes) (hends : c.Ends s)
    (h : @Call.run memory .machine s c = some s') : s'.Ended n := by
  cases c with
  | move m => exact hs.step h hus hends
  | join x tokens separator =>
    obtain ⟨s₁, hclear, h⟩ := Option.bind_eq_some_iff.mp h
    exact (hs.op hclear trivial fun _ _ => trivial).joinLoop h
  | replace x y z behind rounds => exact hs.replace h

/-- **Strings are terminated** in every state of a program that meets the condition with each call, and
    after the next move exactly if there is room for it. -/
theorem calls_terminated (memory : ℕ → ℕ → UInt8) (n : ℕ) {cs : List Call} {s : State}
    (h : (calls memory n).Run cs s) :
    s.Terminated ∧ ∀ m : Move, m.Usizes → m.Ends s →
      ((∃ s', @step .machine memory s m = some s' ∧ s'.Terminated) ↔ m.Room s) := by
  have hended : s.Ended n := by
    refine @System.Run.invariant _ _ (calls memory n) (fun _ s => s.Ended n) (fun s hs => ?_)
      (fun _ s _ s' hs => ?_) _ _ h
    · rw [show s = State.initial n from hs]
      have hnone : ∀ y, (State.initial n).get y = none := by
        intro y
        rw [State.get, State.initial, List.getElem?_replicate]
        split_ifs <;> rfl
      refine ⟨.initial n, .initial n, fun y c hc => ?_, List.length_replicate⟩
      rw [hnone y] at hc
      exact absurd hc (Option.some_ne_none c).symm
    · rintro ⟨c, -, hus, hends, -, hrun⟩
      exact hs.call hus hends hrun
  refine ⟨hended.terminated, fun m hus hends => ⟨?_, fun hroom => ?_⟩⟩
  · rintro ⟨s', hrun, -⟩
    exact (hended.sound.machine hended.small hus hrun).1
  · obtain ⟨s', hstep, -⟩ := step_spec memory hended.sound m
    have hrun := ((step_agrees hended.sound hended.small hus).1 hroom).trans hstep
    exact ⟨s', hrun, (hended.step hrun hus hends).terminated⟩

/-- A string that has room is made longer. -/
theorem calls_terminated_room : ∃ s, (calls (fun _ _ => 1) 1).Run
      [.move (.construct 0 (.ofCapacity 10)), .move (.op 0 (.resize 5))] s
    ∧ s.Terminated ∧ ∀ m : Move, m.Usizes → m.Ends s →
      ((∃ s', @step .machine (fun _ _ => 1) s m = some s' ∧ s'.Terminated) ↔ m.Room s) := by
  have hstart : (calls (fun _ _ => 1) 1).Run [] (State.initial 1) := .start rfl
  have hmade := hstart.next ⟨.move (.construct 0 (.ofCapacity 10)), rfl, show _ < _ by decide, trivial,
    fun _ => show Sized _ by decide, rfl⟩
  have hlonger := hmade.next ⟨.move (.op 0 (.resize 5)), rfl, show _ < _ by decide, fun this hx => ?_,
    fun this hx => ?_, rfl⟩
  · exact ⟨_, hlonger, calls_terminated _ 1 hlonger⟩
  · obtain rfl := Option.some.inj hx
    exact .inr (.inr ⟨0, _, rfl, rfl, by decide⟩)
  · exact .inr (by decide)

/-- An empty string is made longer. -/
theorem resize_unterminated : ∃ s,
    [.move (.construct 0 .default), .move (.op 0 (.resize 5))].foldlM
      (@Call.run (fun _ _ => 1) .machine) (State.initial 1) = some s
    ∧ (∃ data b, s.get 0 = some (.block data) ∧ s.heap.get? data = some b ∧ b.content.len = 5
      ∧ b.content.str = [0, 1, 1, 1, 1, 1, 1, 1])
    ∧ ¬ s.Terminated := by
  refine ⟨_, rfl, ⟨_, _, rfl, rfl, rfl, rfl⟩, fun h => ?_⟩
  obtain ⟨-, hzero, -⟩ := h 0 0 _ rfl rfl
  exact absurd (Option.some.inj hzero) (by decide)

end Nstd.Strings
