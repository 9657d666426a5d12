import Nstd.Callback.Frames

/-!
# Emissions of an emitter that is gone

* `exec_unwinds` — the frames on the stack unwind after every operation, whatever was done before.
* `alive` — which frames will go on when the slot they called returns: one that is marked, or will be
  marked by one that is left before it, does not.
* `alive_drop` — after an emitter is destroyed none of its frames goes on.
* **`destroyed_ends`** — a frame of an emitter that was destroyed ends when it is left, whatever was
  done in the meantime, and reads nothing but itself.

A destructor marks the innermost frame of its emitter for each signal, and a frame that is left hands
its mark on.  So the frames above a frame decide whether it goes on, and no operation takes a mark away.
-/

namespace Nstd.Callback

variable {F : Type} [LinearOrder F]

/-! ## Writes -/

lemma activation_setData {st : State F} {e : ℕ} (he : (st.emitters e).isSome) (s : F)
    (d : SignalData F) : (st.setData e s d).activation = setAt st.activation e s d.activation := by
  funext e' s'
  by_cases hes : e' = e ∧ s' = s <;>
    simp [State.activation, State.data_setData he, setAt, hes]

lemma items_setData {st : State F} {e : ℕ} (he : (st.emitters e).isSome) (s : F)
    (d : SignalData F) (e' : ℕ) (s' : F) : (st.setData e s d).items e' s' =
      if e' = e ∧ s' = s then d.slots.map Prod.fst else st.items e' s' := by
  by_cases hes : e' = e ∧ s' = s <;>
    simp [State.items, State.slots, State.data_setData he, hes]

/-- Nothing a running emission relies on changes with a write that keeps the activation and, while
    there is one, the items. -/
lemma Unwinds.setData {st : State F} (h : Unwinds st.items st.activation st.frames) {e : ℕ} {s : F}
    {d : SignalData F} (he : (st.emitters e).isSome) (hact : d.activation = st.activation e s)
    (hitems : st.activation e s ≠ none → st.items e s ⊆ d.slots.map Prod.fst) :
    Unwinds (st.setData e s d).items (st.setData e s d).activation (st.setData e s d).frames := by
  have hsame : setAt st.activation e s d.activation = st.activation := by
    funext e' s'
    by_cases hes : e' = e ∧ s' = s
    · rw [hes.1, hes.2, hact, setAt, if_pos ⟨rfl, rfl⟩]
    · simp [setAt, hes]
  rw [activation_setData he, hsame]
  refine h.mono fun e' s' hon => ?_
  rw [items_setData he]
  split_ifs with hes
  · rw [hes.1, hes.2] at hon ⊢
    exact hitems hon
  · exact List.Subset.refl _

lemma Unwinds.detach {st : State F} (h : Unwinds st.items st.activation st.frames) {e : ℕ} {s : F}
    {d : SignalData F} (hd : st.data e s = some d) (r : ℕ) (f : F) :
    Unwinds (st.setData e s (d.detach r f)).items (st.setData e s (d.detach r f)).activation
      st.frames := by
  obtain ⟨em, hem, -⟩ := State.emitter_of_data hd
  refine Unwinds.setData h (Option.isSome_of_mem hem) (State.activation_of_data hd).symm ?_
  intro hon
  rw [State.activation_of_data hd] at hon
  have hactive : d.activation.isSome = true := Option.isSome_iff_ne_none.mpr hon
  rw [State.items, State.slots_of_data hd, SignalData.detach, hactive, detachFirst_true_items]
  exact List.Subset.refl _

lemma slots_setData {st : State F} {e : ℕ} (he : (st.emitters e).isSome) (s : F)
    (d : SignalData F) (e' : ℕ) (s' : F) : (st.setData e s d).slots e' s' =
      if e' = e ∧ s' = s then d.slots else st.slots e' s' := by
  by_cases hes : e' = e ∧ s' = s <;> simp [State.slots, State.data_setData he, hes]

/-! ## Every operation -/

/-- The frame of a running emission is on the stack, or was left. -/
lemma resume_unwinds {st st' : State F} {fr : SignalActivation F} {rest : List (ℕ × Slot F)}
    {d : SignalData F} (hinv : fr.invalidated = false)
    (hd : st.data fr.emitter fr.signal = some d) (hact : d.activation = some st.frames.length)
    (hrest : ∀ c ∈ rest, c ∈ d.slots)
    (hun : Unwinds st.items (setAt st.activation fr.emitter fr.signal fr.next) st.frames)
    (h : resume st fr rest = some st') : Unwinds st'.items st'.activation st'.frames := by
  obtain ⟨em, hem, -⟩ := State.emitter_of_data hd
  have he : (st.emitters fr.emitter).isSome := Option.isSome_of_mem hem
  have hslots := State.slots_of_data hd
  rw [resume] at h
  cases hfind : rest.find? fun c => c.2.state = .connected with
  | some c =>
    simp only [hfind] at h
    split_ifs at h
    obtain rfl := Option.some.inj h
    refine .live hinv ((State.activation_of_data hd).trans hact) ?_ hun
    show c.1 ∈ (st.slots fr.emitter fr.signal).map Prod.fst
    rw [hslots]
    exact List.mem_map_of_mem (hrest c (List.mem_of_find?_eq_some hfind))
  | none =>
    simp only [hfind, hd] at h
    obtain rfl := Option.some.inj h
    rw [activation_setData he, SignalData.leave_activation]
    refine hun.mono fun e s hon => ?_
    rw [items_setData he]
    split_ifs with hes
    · -- the chain goes on, so nothing was cleaned up
      obtain ⟨a, ha⟩ := Option.ne_none_iff_exists'.mp hon
      have hnext : fr.next = some a := by simpa [setAt, hes] using ha
      rw [hnext, SignalData.leave_slots_of_some, hes.1, hes.2, State.items, hslots]
      exact List.Subset.refl _
    · exact List.Subset.refl _

/-- An emission takes the place of the one that it interrupts, which stays under it. -/
lemma emit_unwinds {st st' : State F} (h : Unwinds st.items st.activation st.frames) {e : ℕ} {s : F}
    (hexec : emit st e s = some st') : Unwinds st'.items st'.activation st'.frames := by
  obtain ⟨he, ⟨-, rfl⟩ | ⟨d, hd, hresume⟩⟩ := emit_cases hexec
  · exact h
  · have hset : State.data (st.setData e s { d with activation := some st.frames.length }) e s =
        some { d with activation := some st.frames.length } := by
      rw [State.data_setData he, if_pos ⟨rfl, rfl⟩]
    refine @resume_unwinds _ _ _ _ { emitter := e, signal := s, next := d.activation } _
      { d with activation := some st.frames.length } rfl hset rfl (fun c hc => hc) ?_ hresume
    rw [activation_setData he]
    have hback : setAt (setAt st.activation e s (some st.frames.length)) e s d.activation =
        st.activation := by
      funext e' s'
      by_cases hes : e' = e ∧ s' = s
      · rw [hes.1, hes.2]
        simp [setAt, State.activation_of_data hd]
      · simp [setAt, hes]
    rw [hback]
    refine h.mono fun e' s' _ => ?_
    rw [items_setData he]
    split_ifs with hes
    · rw [hes.1, hes.2, State.items, State.slots_of_data hd]
      exact List.Subset.refl _
    · exact List.Subset.refl _

lemma ret_unwinds {st st' : State F} (h : Unwinds st.items st.activation st.frames)
    (hexec : ret st = some st') : Unwinds st'.items st'.activation st'.frames := by
  obtain ⟨fr, frs, hframes, hcases⟩ := ret_cases hexec
  rw [hframes] at h
  cases h with
  | live hinv htop hi hrest =>
    obtain ⟨hdead, -⟩ | ⟨-, d, rest, hd, hafter, hresume⟩ := hcases
    · exact absurd (hinv.symm.trans hdead) Bool.false_ne_true
    · obtain ⟨d', hd', hact⟩ := Option.bind_eq_some_iff.mp htop
      obtain rfl := Option.some.inj (hd.symm.trans hd')
      rw [State.items, State.slots_of_data hd] at hi
      obtain ⟨rest', hafter', hsub⟩ := after_isSome hi
      obtain rfl := Option.some.inj (hafter'.symm.trans hafter)
      exact @resume_unwinds _ _ { st with frames := frs } _ _ _ _ hinv hd hact hsub hrest hresume
  | dead hinv hrest =>
    obtain ⟨-, rfl⟩ | ⟨hlive, -⟩ := hcases
    · exact hrest
    · exact absurd (hlive.symm.trans hinv) Bool.false_ne_true

lemma connect_unwinds {st st' : State F} (h : Unwinds st.items st.activation st.frames) {e l o : ℕ}
    {s f : F} (hexec : connect st e s l o f = some st') :
    Unwinds st'.items st'.activation st'.frames := by
  obtain ⟨he, -, d, hd, rfl⟩ := connect_cases hexec
  refine Unwinds.setData h he ?_ fun _ => ?_
  · rw [State.activation, hd]
    cases st.data e s <;> rfl
  · rw [State.items, State.slots, hd, List.map_append]
    cases st.data e s with
    | none => exact List.nil_subset _
    | some d => exact List.subset_append_left _ _

lemma disconnect_unwinds {st st' : State F} (h : Unwinds st.items st.activation st.frames)
    {e l : ℕ} {s f : F} (hexec : disconnect st e s l f = some st') :
    Unwinds st'.items st'.activation st'.frames := by
  obtain ⟨-, ⟨-, rfl⟩ | ⟨d, listeners, hd, rfl⟩⟩ := disconnect_cases hexec
  · exact h
  · exact Unwinds.detach h hd l f

omit [LinearOrder F] in
lemma foldl_none {α β : Type} {f : Option β → α → Option β} (hnone : ∀ a, f none a = none)
    (l : List α) : l.foldl f none = none := by
  induction l with
  | nil => rfl
  | cons a l ih => rw [List.foldl_cons, hnone, ih]

/-- What holds of a state after each round of a loop -/
lemma foldl_some {α : Type} {f : Option (State F) → α → Option (State F)} {P : State F → Prop}
    (hnone : ∀ a, f none a = none) (hstep : ∀ st a st', P st → f (some st) a = some st' → P st')
    {l : List α} {st st' : State F} (hst : P st) (h : l.foldl f (some st) = some st') : P st' := by
  induction l generalizing st with
  | nil => rwa [← Option.some.inj h]
  | cons a l ih =>
    rw [List.foldl_cons] at h
    cases ha : f (some st) a with
    | some st₁ =>
      rw [ha] at h
      exact ih (hstep st a st₁ hst ha) h
    | none =>
      rw [ha] at h
      rw [foldl_none hnone] at h
      exact absurd h.symm (Option.some_ne_none st')

lemma dropSlot_unwinds {st st' : State F} {l e : ℕ} {x : Signal F}
    (h : Unwinds st.items st.activation st.frames)
    (hexec : dropSlot l e (some st) x = some st') :
    Unwinds st'.items st'.activation st'.frames := by
  obtain ⟨-, ⟨-, rfl⟩ | ⟨d, hd, rfl⟩⟩ := dropSlot_cases hexec
  · exact h
  · exact Unwinds.detach h hd l x.slot

lemma destroyListener_unwinds {st st' : State F} (h : Unwinds st.items st.activation st.frames)
    {l : ℕ} (hexec : destroyListener st l = some st') :
    Unwinds st'.items st'.activation st'.frames := by
  obtain ⟨li, hli, hexec⟩ := Option.bind_eq_some_iff.mp hexec
  obtain ⟨st₁, hst₁, hexec⟩ := Option.bind_eq_some_iff.mp hexec
  have hrun : Unwinds st₁.items st₁.activation st₁.frames := by
    refine foldl_some (P := fun st => Unwinds st.items st.activation st.frames) ?_ ?_ h hst₁
    · exact fun e => foldl_none (fun _ => rfl) e.2
    · intro st e st₂ hst hst₂
      exact foldl_some (P := fun st => Unwinds st.items st.activation st.frames) (fun _ => rfl)
        (fun _ _ _ => dropSlot_unwinds) hst hst₂
  rw [← Option.some.inj hexec]
  exact hrun

/-- `~Emitter` changes the entries of listeners, and the frames at the innermost emission of each
    signal. -/
lemma dropSignal_keeps {st st' : State F} {e : ℕ} {s : F} {c : ℕ × Slot F}
    (h : dropSignal e s (some st) c = some st') :
    st'.emitters = st.emitters ∧ st'.frames = st.frames ∧ st'.heap = st.heap := by
  rw [dropSignal, Option.bind_eq_bind, Option.bind_some] at h
  split_ifs at h
  · rw [← Option.some.inj h]
    exact ⟨rfl, rfl, rfl⟩
  · obtain ⟨li, -, h⟩ := Option.bind_eq_some_iff.mp h
    split at h
    · rw [← Option.some.inj h]
      exact ⟨rfl, rfl, rfl⟩
    · rw [← Option.some.inj h]
      exact ⟨rfl, rfl, rfl⟩

lemma dropSignalData_keeps {e : ℕ} {rest : List (F × SignalData F)} {st st' : State F}
    (h : rest.foldl (dropSignalData e) (some st) = some st') : st'.emitters = st.emitters ∧
      st'.frames = invalidate (fun j => rest.any fun p => p.2.activation = some j) st.frames ∧
      st'.heap = st.heap := by
  induction rest generalizing st with
  | nil =>
    obtain rfl := Option.some.inj h
    refine ⟨rfl, ?_, rfl⟩
    simp only [List.any_nil, invalidate_false]
  | cons p rest ih =>
    rw [List.foldl_cons] at h
    cases hp : dropSignalData e (some st) p with
    | none =>
      rw [hp, foldl_none fun p => foldl_none (fun _ => rfl) p.2.slots] at h
      exact absurd h.symm (Option.some_ne_none st')
    | some st₁ =>
      rw [hp] at h
      obtain ⟨hem, hfr, hheap⟩ := ih h
      rw [dropSignalData, Option.map_some] at hp
      have hkeeps : ∀ st₂ c st₃, (st₂.emitters = st.emitters ∧
          st₂.frames = invalidate (fun j => p.2.activation = some j) st.frames ∧
          st₂.heap = st.heap) → dropSignal e p.1 (some st₂) c = some st₃ →
          st₃.emitters = st.emitters ∧
          st₃.frames = invalidate (fun j => p.2.activation = some j) st.frames ∧
          st₃.heap = st.heap := by
        rintro st₂ c st₃ hst₂ hst₃
        obtain ⟨hem₃, hfr₃, hheap₃⟩ := dropSignal_keeps hst₃
        rw [hem₃, hfr₃, hheap₃]
        exact hst₂
      obtain ⟨hem₁, hfr₁, hheap₁⟩ := foldl_some (fun _ => rfl) hkeeps (by exact ⟨rfl, rfl, rfl⟩) hp
      refine ⟨hem.trans hem₁, ?_, hheap.trans hheap₁⟩
      rw [hfr, hfr₁, invalidate_invalidate]
      simp only [List.any_cons]

/-- What is left of an emitter that is destroyed: its innermost frames are marked. -/
lemma destroyEmitter_keeps {st st' : State F} {e : ℕ} (h : destroyEmitter st e = some st') :
    (∀ e' s, st'.data e' s = if e' = e then none else st.data e' s) ∧ st'.heap = st.heap ∧
      ∃ p : ℕ → Bool, (∀ j, p j = true ↔ ∃ s, st.activation e s = some j) ∧
        st'.frames = invalidate p st.frames := by
  obtain ⟨em, hem, h⟩ := Option.bind_eq_some_iff.mp h
  obtain ⟨st₁, hst₁, h⟩ := Option.bind_eq_some_iff.mp h
  obtain ⟨hem₁, hfr₁, hheap⟩ := dropSignalData_keeps hst₁
  have hdata : ∀ s, st.data e s = SortedAssoc.get s em.entries := by
    intro s
    simp [State.data, hem, SortedMap.find]
  rw [← Option.some.inj h]
  refine ⟨fun e' s => ?_, hheap, _, fun j => ?_, hfr₁⟩
  · by_cases hee : e' = e
    · simp [State.data, hee]
    · simp [State.data, hee, hem₁]
  · simp only [List.any_eq_true, decide_eq_true_eq]
    constructor
    · rintro ⟨p, hp, hj⟩
      refine ⟨p.1, ?_⟩
      rw [State.activation, hdata, SortedAssoc.get_of_mem em.sorted hp]
      exact hj
    · rintro ⟨s, hs⟩
      obtain ⟨d, hd, hj⟩ := Option.bind_eq_some_iff.mp hs
      rw [hdata] at hd
      exact ⟨(s, d), SortedAssoc.mem_of_get hd, hj⟩

lemma destroyEmitter_unwinds {st st' : State F} (h : Unwinds st.items st.activation st.frames)
    {e : ℕ} (hexec : destroyEmitter st e = some st') :
    Unwinds st'.items st'.activation st'.frames := by
  obtain ⟨hdata, -, p, hp, hfr⟩ := destroyEmitter_keeps hexec
  have hact : st'.activation = fun e' s => if e' = e then none else st.activation e' s := by
    funext e' s
    rw [State.activation, hdata]
    split_ifs <;> rfl
  rw [hact, hfr]
  refine (h.drop e hp).mono fun e' s hon => ?_
  by_cases hee : e' = e
  · exact absurd (if_pos hee) hon
  · rw [State.items, State.items, State.slots, State.slots, hdata, if_neg hee]
    exact List.Subset.refl _

/-- **Every operation** leaves frames that unwind. -/
theorem exec_unwinds {st st' : State F} (h : Unwinds st.items st.activation st.frames) {op : Op F}
    (hallowed : Allowed st op) (hexec : exec st op = some st') :
    Unwinds st'.items st'.activation st'.frames := by
  cases op with
  | newEmitter e =>
    have hnone : st.emitters e = none := Option.isNone_iff_eq_none.mp hallowed
    have hdata : State.data { st with emitters := Function.update st.emitters e (some .empty) } =
        st.data := by
      funext e' s
      by_cases hee : e' = e <;> simp [State.data, hee, hnone]
    rw [← Option.some.inj hexec]
    simp only [funext_iff] at hdata
    have hact : State.activation
        { st with emitters := Function.update st.emitters e (some .empty) } = st.activation := by
      funext e' s
      rw [State.activation, hdata, State.activation]
    have hitems : State.items
        { st with emitters := Function.update st.emitters e (some .empty) } = st.items := by
      funext e' s
      rw [State.items, State.slots, hdata, State.items, State.slots]
    rw [hact, hitems]
    exact h
  | newListener l =>
    rw [← Option.some.inj hexec]
    exact h
  | connect e s l o f => exact connect_unwinds h hexec
  | disconnect e s l f => exact disconnect_unwinds h hexec
  | emit e s => exact emit_unwinds h hexec
  | ret => exact ret_unwinds h hexec
  | destroyListener l => exact destroyListener_unwinds h hexec
  | destroyEmitter e => exact destroyEmitter_unwinds h hexec

lemma Reaches.unwinds {cond : State F → Op F → Prop} {st : State F} (h : Reaches cond st) :
    Unwinds st.items st.activation st.frames := by
  induction h with
  | init => exact .nil fun _ _ => rfl
  | step _ hallowed _ hexec ih => exact exec_unwinds ih hallowed hexec

/-! ## Frames that go on -/

/-- Which frames go on when the slot that each called returns, if those of the numbers `marks` are
    marked: a frame that does not go on marks the next one of its signal. -/
def standing (marks : ℕ → Bool) : List (SignalActivation F) → List Bool
  | [] => []
  | fr :: frs =>
    if fr.invalidated || marks frs.length then
      false :: standing (fun j => marks j || fr.next = some j) frs
    else true :: standing marks frs

/-- Which frames go on -/
def alive (frs : List (SignalActivation F)) : List Bool := standing (fun _ => false) frs

omit [LinearOrder F] in
@[simp] lemma standing_length (marks : ℕ → Bool) (frs : List (SignalActivation F)) :
    (standing marks frs).length = frs.length := by
  induction frs generalizing marks with
  | nil => rfl
  | cons fr frs ih =>
    rw [standing]
    split_ifs
    · rw [List.length_cons, List.length_cons, ih]
    · rw [List.length_cons, List.length_cons, ih]

omit [LinearOrder F] in
/-- A frame may be marked now or when it is its turn. -/
lemma standing_invalidate (marks p : ℕ → Bool) (frs : List (SignalActivation F)) :
    standing marks (invalidate p frs) = standing (fun j => p j || marks j) frs := by
  induction frs generalizing marks with
  | nil => rfl
  | cons fr frs ih =>
    rw [invalidate, standing, standing, invalidate_length, ih, ih]
    simp only [Bool.or_assoc]

omit [LinearOrder F] in
/-- More marks leave fewer frames that go on. -/
lemma standing_mono {marks marks' : ℕ → Bool} (h : ∀ j, marks j = true → marks' j = true)
    (frs : List (SignalActivation F)) {k : ℕ} (hk : (standing marks frs)[k]? = some false) :
    (standing marks' frs)[k]? = some false := by
  induction frs generalizing marks marks' k with
  | nil => exact absurd hk.symm (Option.some_ne_none _)
  | cons fr frs ih =>
    rw [standing] at hk ⊢
    by_cases hdead : (fr.invalidated || marks frs.length) = true
    · have hdead' : (fr.invalidated || marks' frs.length) = true := by
        rw [Bool.or_eq_true] at hdead ⊢
        exact hdead.imp_right (h _)
      have hnext : ∀ j, (marks j || fr.next = some j) = true →
          (marks' j || fr.next = some j) = true := by
        intro j hj
        rw [Bool.or_eq_true] at hj ⊢
        exact hj.imp_left (h j)
      rw [if_pos hdead] at hk
      rw [if_pos hdead']
      cases k with
      | zero => rfl
      | succ k => exact ih hnext hk
    · rw [if_neg hdead] at hk
      cases k with
      | zero => exact absurd (Option.some.inj hk).symm Bool.false_ne_true
      | succ k =>
        have hpass : ∀ j, marks j = true → (marks' j || fr.next = some j) = true := by
          intro j hj
          rw [h j hj, Bool.true_or]
        split_ifs with hdead'
        · exact ih hpass hk
        · exact ih h hk

omit [LinearOrder F] in
lemma alive_live {fr : SignalActivation F} (h : fr.invalidated = false)
    (frs : List (SignalActivation F)) : alive (fr :: frs) = true :: alive frs := by
  rw [alive, standing, h]
  rfl

omit [LinearOrder F] in
lemma alive_dead {fr : SignalActivation F} (h : fr.invalidated = true)
    (frs : List (SignalActivation F)) :
    alive (fr :: frs) = false :: alive (invalidate (fun j => fr.next = some j) frs) := by
  rw [alive, standing, h, alive, standing_invalidate]
  simp only [if_true, Bool.false_or, Bool.or_false]

omit [LinearOrder F] in
/-- Marks change nothing else of a frame. -/
lemma invalidate_map {α : Type} {g : SignalActivation F → α}
    (hg : ∀ fr b, g { fr with invalidated := b } = g fr) (p : ℕ → Bool)
    (frs : List (SignalActivation F)) : (invalidate p frs).map g = frs.map g := by
  induction frs with
  | nil => rfl
  | cons fr frs ih => rw [invalidate, List.map_cons, List.map_cons, ih, hg]

/-- **None of the frames of an emitter that is destroyed goes on**, and all others do as before. -/
theorem alive_drop {items : ℕ → F → List ℕ} {act : ℕ → F → Option ℕ}
    {frs : List (SignalActivation F)} (h : Unwinds items act frs) (e : ℕ) {p : ℕ → Bool}
    (hp : ∀ j, p j = true ↔ ∃ s, act e s = some j) : alive (invalidate p frs) =
      List.zipWith (fun fr a => a && decide (fr ≠ e)) (frs.map fun fr => fr.emitter) (alive frs) := by
  induction h generalizing p with
  | nil _ => rfl
  | @live act fr frs hinv htop _ hrest ih =>
    rw [invalidate, alive_live hinv, List.map_cons, List.zipWith_cons_cons]
    by_cases hfe : fr.emitter = e
    · have hlen : p frs.length = true := (hp _).mpr ⟨fr.signal, hfe ▸ htop⟩
      have hq := marks_next hp htop (fun s j => hrest.lt) hfe
      rw [alive_dead (by rw [hlen, Bool.or_true]), invalidate_invalidate,
        invalidate_congr (q := fun j => p j && decide (j ≠ frs.length) || decide (fr.next = some j)),
        ih hq, hfe]
      · simp
      · intro j hj
        simp [hj.ne]
    · obtain ⟨hlen, hother⟩ := marks_other hp (fun s j => hrest.lt) hfe
      rw [alive_live (by rw [hlen, Bool.or_false]; exact hinv),
        ih fun j => by rw [hp]; simp only [hother]]
      simp [hfe]
  | @dead act fr frs hinv _ ih =>
    have hcomm : invalidate (fun j => decide (fr.next = some j)) (invalidate p frs) =
        invalidate p (invalidate (fun j => decide (fr.next = some j)) frs) := by
      rw [invalidate_invalidate, invalidate_invalidate]
      simp only [Bool.or_comm]
    rw [invalidate, alive_dead (by rw [hinv, Bool.true_or]), alive_dead hinv, List.map_cons,
      List.zipWith_cons_cons, Bool.false_and, hcomm, ih hp, invalidate_map fun _ _ => rfl]

/-- What an operation may do to the stack -/
inductive Moves : List (SignalActivation F) → List (SignalActivation F) → Prop
  | same (frs) : Moves frs frs
  | push {fr} (frs) : fr.invalidated = false → Moves frs (fr :: frs)
  | next {fr} (i frs) : fr.invalidated = false → Moves (fr :: frs) ({ fr with i } :: frs)
  | pop {fr} (frs) : fr.invalidated = false → Moves (fr :: frs) frs
  | finish {fr} (frs) : fr.invalidated = true →
      Moves (fr :: frs) (invalidate (fun j => fr.next = some j) frs)
  | mark (p) (frs) : Moves frs (invalidate p frs)

lemma resume_frames {st st' : State F} {fr : SignalActivation F} {rest : List (ℕ × Slot F)}
    (h : resume st fr rest = some st') :
    st'.frames = st.frames ∨ ∃ i, st'.frames = { fr with i } :: st.frames := by
  rw [resume] at h
  split at h
  · split_ifs at h
    rw [← Option.some.inj h]
    exact Or.inr ⟨_, rfl⟩
  · split at h
    · exact absurd h.symm (Option.some_ne_none st')
    · rw [← Option.some.inj h]
      exact Or.inl rfl

lemma dropSlot_frames {st st' : State F} {l e : ℕ} {x : Signal F}
    (h : dropSlot l e (some st) x = some st') : st'.frames = st.frames := by
  obtain ⟨-, ⟨-, rfl⟩ | ⟨d, -, rfl⟩⟩ := dropSlot_cases h
  · rfl
  · rfl

theorem exec_moves {st st' : State F} {op : Op F} (h : exec st op = some st') :
    Moves st.frames st'.frames := by
  cases op with
  | newEmitter e =>
    rw [← Option.some.inj h]
    exact .same _
  | newListener l =>
    rw [← Option.some.inj h]
    exact .same _
  | connect e s l o f =>
    obtain ⟨-, -, d, -, rfl⟩ := connect_cases h
    exact .same _
  | disconnect e s l f =>
    obtain ⟨-, ⟨-, rfl⟩ | ⟨d, listeners, -, rfl⟩⟩ := disconnect_cases h
    · exact .same _
    · exact .same _
  | emit e s =>
    obtain ⟨-, ⟨-, rfl⟩ | ⟨d, -, hresume⟩⟩ := emit_cases h
    · exact .same _
    · rcases resume_frames hresume with hfr | ⟨i, hfr⟩
      · rw [hfr]
        exact .same _
      · rw [hfr]
        exact .push _ rfl
  | ret =>
    obtain ⟨fr, frs, hframes, hcases⟩ := ret_cases h
    rw [hframes]
    obtain ⟨hdead, rfl⟩ | ⟨hlive, d, rest, -, -, hresume⟩ := hcases
    · exact .finish frs hdead
    · rcases resume_frames hresume with hfr | ⟨i, hfr⟩
      · rw [hfr]
        exact .pop frs hlive
      · rw [hfr]
        exact .next i frs hlive
  | destroyListener l =>
    obtain ⟨li, -, h⟩ := Option.bind_eq_some_iff.mp h
    obtain ⟨st₁, hst₁, h⟩ := Option.bind_eq_some_iff.mp h
    have hfr : st₁.frames = st.frames := by
      refine foldl_some (P := fun st₂ => st₂.frames = st.frames)
        (fun e => foldl_none (fun _ => rfl) e.2) ?_ rfl hst₁
      intro st₂ e st₃ hst₂ hst₃
      exact foldl_some (P := fun st₂ => st₂.frames = st.frames) (fun _ => rfl)
        (fun _ _ _ h h' => (dropSlot_frames h').trans h) hst₂ hst₃
    rw [← Option.some.inj h]
    show Moves st.frames st₁.frames
    rw [hfr]
    exact .same _
  | destroyEmitter e =>
    obtain ⟨-, -, p, -, hfr⟩ := destroyEmitter_keeps h
    rw [hfr]
    exact .mark p _

/-- A frame, counted from the outermost one, that will not go on -/
def Doomed (j : ℕ) (frs : List (SignalActivation F)) : Prop :=
  (alive frs).reverse[j]? = some false

omit [LinearOrder F] in
@[simp] lemma alive_length (frs : List (SignalActivation F)) : (alive frs).length = frs.length :=
  standing_length _ _

omit [LinearOrder F] in
lemma reverse_cons_getElem? {α : Type} {l : List α} {j : ℕ} (hj : j < l.length) (a : α) :
    (a :: l).reverse[j]? = l.reverse[j]? := by
  rw [List.reverse_cons, List.getElem?_append_left (by rwa [List.length_reverse])]

omit [LinearOrder F] in
/-- It stays so as long as it is on the stack. -/
lemma Moves.doomed {frs frs' : List (SignalActivation F)} (h : Moves frs frs') {j : ℕ}
    (hd : Doomed j frs) (hj : j < frs'.length) : Doomed j frs' := by
  have hlt : j < frs.length := by
    have := (List.getElem?_eq_some_iff.mp hd).1
    rwa [List.length_reverse, alive_length] at this
  rw [Doomed] at hd ⊢
  cases h with
  | same => exact hd
  | push frs hinv => rwa [alive_live hinv, reverse_cons_getElem? (by rwa [alive_length])]
  | @next fr i frs hinv =>
    rw [alive_live hinv] at hd
    rwa [alive_live (by exact hinv)]
  | pop frs hinv => rwa [alive_live hinv, reverse_cons_getElem? (by rwa [alive_length])] at hd
  | finish frs hinv =>
    rwa [alive_dead hinv, reverse_cons_getElem? (by rwa [alive_length])] at hd
  | mark p frs =>
    have hlen : (alive (invalidate p frs)).length = frs.length := by
      rw [alive_length, invalidate_length]
    rw [List.getElem?_reverse (by rwa [alive_length]), alive_length] at hd
    rw [List.getElem?_reverse (by rwa [hlen]), hlen, alive, standing_invalidate]
    exact standing_mono (fun _ hk => absurd hk Bool.false_ne_true) _ hd

/-- A frame that is on the stack in all states of a run -/
inductive StaysOn (j : ℕ) (st : State F) : State F → Prop
  | start : j < st.frames.length → StaysOn j st st
  | step {st₁ st₂ : State F} {op : Op F} : StaysOn j st st₁ → Allowed st₁ op →
      exec st₁ op = some st₂ → j < st₂.frames.length → StaysOn j st st₂

lemma StaysOn.doomed {j : ℕ} {st st' : State F} (h : StaysOn j st st') (hd : Doomed j st.frames) :
    Doomed j st'.frames := by
  induction h with
  | start _ => exact hd
  | step _ _ hexec hj ih => exact (exec_moves hexec).doomed ih hj

/-- **A frame of an emitter that is destroyed ends** when the slot that it called returns to it,
    whatever was done in the meantime.  It calls no slot, and it neither reads nor writes the data of
    any signal: what else there is does not matter, and stays as it is. -/
theorem destroyed_ends {st st₁ st₂ : State F} {e j : ℕ} {fr : SignalActivation F}
    (h : Reaches (fun _ _ => True) st) (hexec : exec st (.destroyEmitter e) = some st₁)
    (hfr : st.frames.reverse[j]? = some fr) (hfe : fr.emitter = e) (hstay : StaysOn j st₁ st₂)
    (htop : st₂.frames.length = j + 1) :
    ∃ fr' frs, st₂.frames = fr' :: frs ∧ ∀ emitters listeners heap,
      ret ⟨emitters, listeners, st₂.frames, heap⟩ =
        some ⟨emitters, listeners, invalidate (fun k => fr'.next = some k) frs, heap⟩ := by
  obtain ⟨-, -, p, hp, hframes⟩ := destroyEmitter_keeps hexec
  have hlt : j < st.frames.length := by
    have := (List.getElem?_eq_some_iff.mp hfr).1
    rwa [List.length_reverse] at this
  rw [List.getElem?_reverse hlt] at hfr
  have hdoomed : Doomed j st₁.frames := by
    rw [Doomed, hframes, alive_drop h.unwinds e hp, List.getElem?_reverse (by simpa using hlt)]
    simp only [List.length_zipWith, List.length_map, alive_length, Nat.min_self]
    have halive : st.frames.length - 1 - j < (alive st.frames).length := by
      rw [alive_length]
      omega
    rw [List.getElem?_zipWith, List.getElem?_map, hfr, List.getElem?_eq_getElem halive]
    simp [hfe]
  have hend := hstay.doomed hdoomed
  cases hframes₂ : st₂.frames with
  | nil =>
    rw [hframes₂] at htop
    exact absurd htop (Nat.succ_ne_zero j).symm
  | cons fr' frs =>
    rw [hframes₂] at htop hend
    have hinv : fr'.invalidated = true := by
      cases hinv : fr'.invalidated with
      | true => rfl
      | false =>
        have hlen : (alive frs).reverse.length = j := by
          rw [List.length_reverse, alive_length]
          exact Nat.succ.inj htop
        rw [Doomed, alive_live hinv, List.reverse_cons, ← hlen,
          List.getElem?_concat_length] at hend
        exact absurd (Option.some.inj hend).symm Bool.false_ne_true
    refine ⟨fr', frs, rfl, fun emitters listeners heap => ?_⟩
    simp only [ret, hinv, if_true]

/-- Emissions of two signals of one emitter inside each other -/
def nestedEmissions : List (Op ℕ) :=
  [.newEmitter 0, .newListener 1, .connect 0 7 1 1 5, .connect 0 8 1 1 6, .connect 0 7 1 1 9,
    .emit 0 7, .emit 0 8, .emit 0 7]

/-- The emitter is destroyed in the innermost of three slots; the frame in the middle ends when it is
    left, although there are slots that it did not call. -/
theorem destroyed_ends_nested : ∃ st₂ : State ℕ,
    execAll init (nestedEmissions ++ [.destroyEmitter 0, .ret]) = some st₂ ∧
      ∃ fr frs, st₂.frames = fr :: frs ∧ ∃ st₃, ret st₂ = some st₃ ∧ st₃.frames.length = 1 := by
  have hmeet : AllMeet (fun _ _ => True) (init : State ℕ) nestedEmissions := by decide +kernel
  have hrun : (execAll (init : State ℕ) nestedEmissions).any fun st =>
      (exec st (.destroyEmitter 0)).any fun st₁ => (exec st₁ .ret).any fun st₂ =>
        decide (st.frames.reverse[1]?.map (fun fr => fr.emitter) = some 0 ∧ 1 < st₁.frames.length ∧
          st₂.frames.length = 2) := by decide +kernel
  obtain ⟨st, hst, hrun⟩ := (Option.any_eq_true _ _).mp hrun
  obtain ⟨st₁, hst₁, hrun⟩ := (Option.any_eq_true _ _).mp hrun
  obtain ⟨st₂, hst₂, hrun⟩ := (Option.any_eq_true _ _).mp hrun
  obtain ⟨hfr, hlt, htop⟩ := of_decide_eq_true hrun
  obtain ⟨fr, hfr, hfe⟩ := Option.map_eq_some_iff.mp hfr
  have hallowed : Allowed st₁ (.ret : Op ℕ) := List.ne_nil_of_length_pos (Nat.zero_lt_of_lt hlt)
  have hstay : StaysOn 1 st₁ st₂ := (StaysOn.start hlt).step hallowed hst₂ (by rw [htop]; decide)
  obtain ⟨fr', frs, hframes, hret⟩ :=
    destroyed_ends (Reaches.init.execAll hmeet hst) hst₁ hfr hfe hstay htop
  refine ⟨st₂, ?_, fr', frs, hframes, _, hret st₂.emitters st₂.listeners st₂.heap, ?_⟩
  · rw [execAll_append, hst]
    simp only [execAll, Option.bind_some, hst₁, hst₂]
  · rw [hframes] at htop
    rw [invalidate_length]
    exact Nat.succ.inj htop

end Nstd.Callback
