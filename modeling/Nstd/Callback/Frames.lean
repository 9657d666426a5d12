import Nstd.Callback.Slots

/-!
# Views of a state, and the frames on its stack

* `State.slots`, `State.activation`, `State.items` — what is kept of a signal, for any address,
  with the lemmas that say how a write changes them.
* `connect_cases`, `disconnect_cases`, `emit_cases`, `ret_cases`, `dropSlot_cases` — all that an
  operation can do if it returns.
* `Unwinds` — the frames can be left from the innermost one on without touching anything that is
  gone; `Unwinds.mono` and `Unwinds.drop` are what the operations do to it.
-/

namespace Nstd.Callback

variable {F : Type} [LinearOrder F]

/-! ## Views of a state -/

namespace State

/-- The items of a signal -/
def slots (st : State F) (e : ℕ) (s : F) : List (ℕ × Slot F) :=
  ((st.data e s).map SignalData.slots).getD []

/-- The innermost running emission of a signal -/
def activation (st : State F) (e : ℕ) (s : F) : Option ℕ := (st.data e s).bind SignalData.activation

/-- The identities of the items of a signal -/
def items (st : State F) (e : ℕ) (s : F) : List ℕ := (st.slots e s).map Prod.fst

lemma slots_of_data {st : State F} {e : ℕ} {s : F} {d : SignalData F} (h : st.data e s = some d) :
    st.slots e s = d.slots := by simp [slots, h]

lemma activation_of_data {st : State F} {e : ℕ} {s : F} {d : SignalData F}
    (h : st.data e s = some d) : st.activation e s = d.activation := by simp [activation, h]

lemma data_of_mem_slots {st : State F} {e : ℕ} {s : F} {c : ℕ × Slot F} (h : c ∈ st.slots e s) :
    ∃ d, st.data e s = some d := by
  cases hd : st.data e s with
  | none => simp [slots, hd] at h
  | some d => exact ⟨d, rfl⟩

lemma emitter_of_data {st : State F} {e : ℕ} {s : F} {d : SignalData F} (h : st.data e s = some d) :
    ∃ em, st.emitters e = some em ∧ em.find s = some d := Option.bind_eq_some_iff.mp h

lemma listener_of_signals {st : State F} {l e : ℕ} (h : st.signals l e ≠ []) :
    ∃ li, st.listeners l = some li ∧ li.find e = some (st.signals l e) := by
  cases hl : st.listeners l with
  | none => simp [signals, hl] at h
  | some li =>
    cases hf : li.find e with
    | none => simp [signals, hl, hf] at h
    | some x => exact ⟨li, rfl, by simp [signals, hl, hf]⟩

@[simp] lemma setData_listeners (st : State F) (e : ℕ) (s : F) (d : SignalData F) :
    (st.setData e s d).listeners = st.listeners := rfl

@[simp] lemma setData_frames (st : State F) (e : ℕ) (s : F) (d : SignalData F) :
    (st.setData e s d).frames = st.frames := rfl

@[simp] lemma setData_signals (st : State F) (e : ℕ) (s : F) (d : SignalData F) (l e' : ℕ) :
    (st.setData e s d).signals l e' = st.signals l e' := rfl

@[simp] lemma setSignals_emitters (st : State F) (l e : ℕ) (x : List (Signal F)) :
    (st.setSignals l e x).emitters = st.emitters := rfl

@[simp] lemma setSignals_frames (st : State F) (l e : ℕ) (x : List (Signal F)) :
    (st.setSignals l e x).frames = st.frames := rfl

@[simp] lemma setSignals_data (st : State F) (l e : ℕ) (x : List (Signal F)) (e' : ℕ) (s : F) :
    (st.setSignals l e x).data e' s = st.data e' s := rfl

lemma data_setData {st : State F} {e : ℕ} (he : (st.emitters e).isSome) (s : F) (d : SignalData F)
    (e' : ℕ) (s' : F) :
    (st.setData e s d).data e' s' = if e' = e ∧ s' = s then some d else st.data e' s' := by
  obtain ⟨em, hem⟩ := Option.isSome_iff_exists.mp he
  by_cases hee : e' = e
  · subst hee
    simp [data, setData, hem]
  · simp [data, setData, hee]

lemma signals_setSignals {st : State F} {l : ℕ} (hl : (st.listeners l).isSome) (e : ℕ)
    (x : List (Signal F)) (l' e' : ℕ) :
    (st.setSignals l e x).signals l' e' = if l' = l ∧ e' = e then x else st.signals l' e' := by
  obtain ⟨li, hli⟩ := Option.isSome_iff_exists.mp hl
  by_cases hll : l' = l
  · subst hll
    by_cases hee : e' = e <;> simp [signals, setSignals, hli, hee]
  · simp [signals, setSignals, hll]

@[simp] lemma setSignals_isSome (st : State F) (l e : ℕ) (x : List (Signal F)) (l' : ℕ) :
    ((st.setSignals l e x).listeners l').isSome = (st.listeners l').isSome := by
  by_cases hll : l' = l
  · subst hll
    simp [setSignals]
  · simp [setSignals, hll]

@[simp] lemma setData_isSome (st : State F) (e : ℕ) (s : F) (d : SignalData F) (e' : ℕ) :
    ((st.setData e s d).emitters e').isSome = (st.emitters e').isSome := by
  by_cases hee : e' = e
  · subst hee
    simp [setData]
  · simp [setData, hee]

end State

/-! ## What an operation can do -/

section

variable {st st' : State F} {e l o : ℕ} {s f : F}

lemma State.data_of_find {em : SortedMap F (SignalData F)} (hem : st.emitters e = some em) (s : F) :
    st.data e s = em.find s := by
  rw [State.data, hem]
  rfl

lemma connect_cases (h : connect st e s l o f = some st') :
    (st.emitters e).isSome ∧ (st.listeners l).isSome ∧ ∃ d, d = (st.data e s).getD {} ∧
      st' = { (st.setData e s { d with
            slots := d.slots ++ [(st.heap,
              ⟨l, o, f, if d.activation.isSome then .connecting else .connected⟩)]
            dirty := d.dirty || d.activation.isSome }).setSignals l e (st.signals l e ++ [⟨s, f⟩])
          with heap := st.heap + 1 } := by
  rw [connect] at h
  cases hem : st.emitters e with
  | none => simp [hem] at h
  | some em =>
    cases hli : st.listeners l with
    | none => simp [hem, hli] at h
    | some li =>
      simp only [hem, hli] at h
      exact ⟨rfl, rfl, _, rfl, by rw [State.data_of_find hem, ← Option.some.inj h]⟩

lemma disconnect_cases (h : disconnect st e s l f = some st') : (st.emitters e).isSome ∧
    ((st.data e s = none ∧ st' = st) ∨ ∃ d listeners, st.data e s = some d ∧
      st' = { st.setData e s (d.detach l f) with listeners }) := by
  rw [disconnect] at h
  cases hem : st.emitters e with
  | none => simp [hem] at h
  | some em =>
    refine ⟨rfl, ?_⟩
    rw [State.data_of_find hem]
    cases hli : st.listeners l with
    | none => simp [hem, hli] at h
    | some li =>
      cases hfind : em.find s with
      | none =>
        simp only [hem, hli, hfind] at h
        exact .inl ⟨rfl, (Option.some.inj h).symm⟩
      | some d =>
        simp only [hem, hli, hfind] at h
        split at h
        · exact .inr ⟨d, _, rfl, (Option.some.inj h).symm⟩
        · exact .inr ⟨d, _, rfl, (Option.some.inj h).symm⟩

lemma emit_cases (h : emit st e s = some st') : (st.emitters e).isSome ∧
    ((st.data e s = none ∧ st' = st) ∨ ∃ d, st.data e s = some d ∧
      resume (st.setData e s { d with activation := some st.frames.length })
        { emitter := e, signal := s, next := d.activation } d.slots = some st') := by
  rw [emit] at h
  cases hem : st.emitters e with
  | none => simp [hem] at h
  | some em =>
    refine ⟨rfl, ?_⟩
    rw [State.data_of_find hem]
    cases hfind : em.find s with
    | none =>
      simp only [hem, hfind] at h
      exact .inl ⟨rfl, (Option.some.inj h).symm⟩
    | some d =>
      simp only [hem, hfind] at h
      exact .inr ⟨d, rfl, h⟩

lemma ret_cases (h : ret st = some st') : ∃ fr frs, st.frames = fr :: frs ∧
    ((fr.invalidated = true ∧ st' = { st with frames := invalidate (fun j => fr.next = some j) frs }) ∨
      (fr.invalidated = false ∧ ∃ d rest, st.data fr.emitter fr.signal = some d ∧
        after fr.i d.slots = some rest ∧ resume { st with frames := frs } fr rest = some st')) := by
  rw [ret] at h
  cases hframes : st.frames with
  | nil => simp [hframes] at h
  | cons fr frs =>
    refine ⟨fr, frs, rfl, ?_⟩
    simp only [hframes] at h
    split_ifs at h with hinv
    · exact .inl ⟨hinv, (Option.some.inj h).symm⟩
    · cases hd : st.data fr.emitter fr.signal with
      | none => simp [hd] at h
      | some d =>
        simp only [hd] at h
        obtain ⟨rest, hafter, hresume⟩ := Option.bind_eq_some_iff.mp h
        exact .inr ⟨Bool.eq_false_iff.mpr hinv, d, rest, rfl, hafter, hresume⟩

lemma dropSlot_cases {x : Signal F} (h : dropSlot l e (some st) x = some st') :
    (st.emitters e).isSome ∧ ((st.data e x.signal = none ∧ st' = st) ∨
      ∃ d, st.data e x.signal = some d ∧ st' = st.setData e x.signal (d.detach l x.slot)) := by
  obtain ⟨em, hem, h⟩ := Option.bind_eq_some_iff.mp h
  refine ⟨Option.isSome_of_mem hem, ?_⟩
  rw [State.data_of_find hem]
  cases hfind : em.find x.signal with
  | none =>
    rw [hfind] at h
    exact .inl ⟨rfl, (Option.some.inj h).symm⟩
  | some d =>
    rw [hfind] at h
    exact .inr ⟨d, rfl, (Option.some.inj h).symm⟩

end

/-! ## Frames -/

omit [LinearOrder F] in
@[simp] lemma invalidate_length (p : ℕ → Bool) (frs : List (SignalActivation F)) :
    (invalidate p frs).length = frs.length := by
  induction frs with
  | nil => rfl
  | cons fr frs ih => rw [invalidate, List.length_cons, List.length_cons, ih]

omit [LinearOrder F] in
lemma invalidate_invalidate (p q : ℕ → Bool) (frs : List (SignalActivation F)) :
    invalidate p (invalidate q frs) = invalidate (fun j => q j || p j) frs := by
  induction frs with
  | nil => rfl
  | cons fr frs ih => simp [invalidate, ih, Bool.or_assoc]

omit [LinearOrder F] in
lemma invalidate_congr {p q : ℕ → Bool} {frs : List (SignalActivation F)}
    (h : ∀ j < frs.length, p j = q j) : invalidate p frs = invalidate q frs := by
  induction frs with
  | nil => rfl
  | cons fr frs ih =>
    rw [invalidate, invalidate, h frs.length (by simp),
      ih fun j hj => h j (Nat.lt_succ_of_lt hj)]

omit [LinearOrder F] in
lemma invalidate_false (frs : List (SignalActivation F)) : invalidate (fun _ => false) frs = frs := by
  induction frs with
  | nil => rfl
  | cons fr frs ih => rw [invalidate, ih, Bool.or_false]

/-- An activation of each signal, changed at one -/
def setAt (act : ℕ → F → Option ℕ) (e : ℕ) (s : F) (a : Option ℕ) : ℕ → F → Option ℕ :=
  fun e' s' => if e' = e ∧ s' = s then a else act e' s'

/-- The frames can be left one after the other: one that is not invalidated is the activation of
    its signal and at an item of it, and leaves the rest of the chain behind; one that is
    invalidated passes that on. -/
inductive Unwinds (items : ℕ → F → List ℕ) :
    (ℕ → F → Option ℕ) → List (SignalActivation F) → Prop
  | nil {act} : (∀ e s, act e s = none) → Unwinds items act []
  | live {act fr frs} : fr.invalidated = false → act fr.emitter fr.signal = some frs.length →
      fr.i ∈ items fr.emitter fr.signal →
      Unwinds items (setAt act fr.emitter fr.signal fr.next) frs → Unwinds items act (fr :: frs)
  | dead {act fr frs} : fr.invalidated = true →
      Unwinds items act (invalidate (fun j => fr.next = some j) frs) → Unwinds items act (fr :: frs)

/-- Activations are frames on the stack. -/
lemma Unwinds.lt {items : ℕ → F → List ℕ} {act : ℕ → F → Option ℕ}
    {frs : List (SignalActivation F)} (h : Unwinds items act frs) {e : ℕ} {s : F} {j : ℕ}
    (hj : act e s = some j) : j < frs.length := by
  induction h with
  | nil hact => rw [hact] at hj; exact absurd hj (by simp)
  | @live act fr frs _ htop _ _ ih =>
    by_cases hes : e = fr.emitter ∧ s = fr.signal
    · rw [hes.1, hes.2, htop] at hj
      rw [← Option.some.inj hj]
      exact Nat.lt_succ_self _
    · exact Nat.lt_succ_of_lt (ih (by simpa [setAt, hes] using hj))
  | dead _ _ ih => exact Nat.lt_succ_of_lt (by simpa using ih hj)

/-- Items that a running emission can see must stay. -/
lemma Unwinds.mono {items items' : ℕ → F → List ℕ} {act : ℕ → F → Option ℕ}
    {frs : List (SignalActivation F)} (h : Unwinds items act frs)
    (hsub : ∀ e s, act e s ≠ none → items e s ⊆ items' e s) : Unwinds items' act frs := by
  induction h with
  | nil hact => exact .nil hact
  | @live act fr frs hinv htop hi _ ih =>
    have hon : act fr.emitter fr.signal ≠ none := by rw [htop]; simp
    refine .live hinv htop (hsub _ _ hon hi) (ih fun e s hes => hsub e s ?_)
    by_cases hsame : e = fr.emitter ∧ s = fr.signal
    · rw [hsame.1, hsame.2]; exact hon
    · simpa [setAt, hsame] using hes
  | dead hinv _ ih => exact .dead hinv (ih hsub)

/-- The marks that a frame of an emitter that is gone leaves: those of the other signals and of the
    next frame of its own. -/
lemma marks_next {act : ℕ → F → Option ℕ} {fr : SignalActivation F} {n e : ℕ} {p : ℕ → Bool}
    (hp : ∀ j, p j = true ↔ ∃ s, act e s = some j) (htop : act fr.emitter fr.signal = some n)
    (hlt : ∀ s j, setAt act fr.emitter fr.signal fr.next e s = some j → j < n)
    (hfe : fr.emitter = e) (j : ℕ) :
    (p j && decide (j ≠ n) || decide (fr.next = some j)) = true ↔
      ∃ s, setAt act fr.emitter fr.signal fr.next e s = some j := by
  simp only [Bool.or_eq_true, Bool.and_eq_true, decide_eq_true_eq, hp]
  constructor
  · rintro (⟨⟨s, hs⟩, hj⟩ | hj)
    · have hne : s ≠ fr.signal := by
        rintro rfl
        rw [← hfe, htop] at hs
        exact hj (Option.some.inj hs).symm
      exact ⟨s, by simp [setAt, hne, hs]⟩
    · exact ⟨fr.signal, by simp [setAt, hfe, hj]⟩
  · rintro ⟨s, hs⟩
    by_cases hss : s = fr.signal
    · right
      simpa [setAt, hss, hfe] using hs
    · left
      exact ⟨⟨s, by simpa [setAt, hss] using hs⟩, (hlt s j hs).ne⟩

/-- A frame of another emitter has no mark. -/
lemma marks_other {act : ℕ → F → Option ℕ} {fr : SignalActivation F} {n e : ℕ} {p : ℕ → Bool}
    (hp : ∀ j, p j = true ↔ ∃ s, act e s = some j)
    (hlt : ∀ s j, setAt act fr.emitter fr.signal fr.next e s = some j → j < n)
    (hfe : fr.emitter ≠ e) :
    p n = false ∧ ∀ s, setAt act fr.emitter fr.signal fr.next e s = act e s := by
  have hother : ∀ s, setAt act fr.emitter fr.signal fr.next e s = act e s := by
    intro s
    simp [setAt, Ne.symm hfe]
  refine ⟨?_, hother⟩
  rw [Bool.eq_false_iff, ne_eq, hp]
  rintro ⟨s, hs⟩
  exact lt_irrefl _ (hlt s n ((hother s).trans hs))

/-- Taking an emitter away: all its signals lose their activation, and the innermost frames of
    each are invalidated. -/
lemma Unwinds.drop {items : ℕ → F → List ℕ} {act : ℕ → F → Option ℕ}
    {frs : List (SignalActivation F)} (h : Unwinds items act frs) (e : ℕ) {p : ℕ → Bool}
    (hp : ∀ j, p j = true ↔ ∃ s, act e s = some j) :
    Unwinds items (fun e' s => if e' = e then none else act e' s) (invalidate p frs) := by
  induction h generalizing p with
  | nil hact => exact .nil fun e' s => by simp [hact]
  | @live act fr frs hinv htop hi hrest ih =>
    by_cases hfe : fr.emitter = e
    · -- the frame is one of those of `e`: it is invalidated, and passes on to what is under it
      have hlen : p frs.length = true := (hp _).mpr ⟨fr.signal, hfe ▸ htop⟩
      have hq := marks_next hp htop (fun s j => hrest.lt) hfe
      have hact : (fun e' s => if e' = e then none else
          setAt act fr.emitter fr.signal fr.next e' s) =
          fun e' s => if e' = e then none else act e' s := by
        funext e' s
        by_cases he : e' = e <;> simp [setAt, he, hfe]
      refine .dead (by simp [hlen]) ?_
      rw [invalidate_invalidate, invalidate_congr (q := fun j =>
        p j && decide (j ≠ frs.length) || decide (fr.next = some j)), ← hact]
      · exact ih hq
      · intro j hj
        simp [hj.ne]
    · obtain ⟨hlen, hother⟩ := marks_other hp (fun s j => hrest.lt) hfe
      have hact : (fun e' s => if e' = e then none else
          setAt act fr.emitter fr.signal fr.next e' s) =
          setAt (fun e' s => if e' = e then none else act e' s) fr.emitter fr.signal fr.next := by
        funext e' s
        by_cases he : e' = e
        · simp [setAt, he, Ne.symm hfe]
        · simp [setAt, he]
      rw [invalidate, hlen, Bool.or_false]
      refine .live hinv (by simp [hfe, htop]) hi ?_
      rw [← hact]
      exact ih fun j => by rw [hp]; simp only [hother]
  | @dead act fr frs hinv _ ih =>
    refine .dead (by simp [hinv]) ?_
    have hcomm : invalidate (fun j => decide (fr.next = some j)) (invalidate p frs) =
        invalidate p (invalidate (fun j => decide (fr.next = some j)) frs) := by
      rw [invalidate_invalidate, invalidate_invalidate]
      simp only [Bool.or_comm]
    rw [hcomm]
    exact ih hp

end Nstd.Callback
