import Mathlib.Data.List.Count
import Nstd.Callback.Unwinding

/-!
# Both sides of a connection

An emitter keeps a slot for each connection, and the listener keeps an entry.  Main results:

* `connections_agree` — in every run whose disconnections and listener destructions meet
  `Undisturbed`, the slots that are not marked disconnected and the listener's entries agree in
  number for each emitter, signal, listener and slot function.
* `double_disconnect` — a run that does not: the second `disconnect` of a pair that was connected
  again during an emission ends its search at the item that the first one marked.

Three facts are carried through a run (`Inv`): the counts agree, for all addresses; each signal is
`Settled`; the frames on the stack unwind.
-/

namespace Nstd.Callback

variable {F : Type} [LinearOrder F]

/-- The number of live slots of a connection is the number of its entries. -/
def Counts (st : State F) : Prop :=
  ∀ e s l f, liveSlots l f (st.slots e s) = (st.signals l e).count ⟨s, f⟩

/-- All signals are settled. -/
def Settled (st : State F) : Prop := ∀ e s d, st.data e s = some d → d.Settled

/-- The invariant between two operations -/
structure Inv (st : State F) : Prop where
  counts : Counts st
  settled : Settled st
  unwinds : Unwinds st.items st.activation st.frames

/-- A live slot has a listener to call. -/
lemma Counts.receiver {st : State F} (h : Counts st) {e : ℕ} {s : F} {c : ℕ × Slot F}
    (hc : c ∈ st.slots e s) (hlive : c.2.state ≠ .disconnected) :
    ∃ li, st.listeners c.2.receiver = some li ∧ li.find e = some (st.signals c.2.receiver e) := by
  apply State.listener_of_signals
  intro hnil
  have hpos := liveSlots_pos hc hlive
  rw [h, hnil] at hpos
  exact absurd hpos (by simp)

/-- An entry has an emitter to name. -/
lemma Counts.emitter {st : State F} (h : Counts st) {e l : ℕ} {x : Signal F}
    (hx : x ∈ st.signals l e) : ∃ d, st.data e x.signal = some d := by
  have hpos : 0 < liveSlots l x.slot (st.slots e x.signal) := by
    rw [h]
    exact List.count_pos_iff.mpr hx
  obtain ⟨c, hc, -⟩ := List.countP_pos_iff.mp hpos
  exact State.data_of_mem_slots hc

/-- A write to one signal that changes no count keeps the counts. -/
lemma Counts.setData {st : State F} (h : Counts st) {e : ℕ} {s : F} {d d' : SignalData F}
    (hd : st.data e s = some d) (hcount : ∀ l f, liveSlots l f d'.slots = liveSlots l f d.slots) :
    Counts (st.setData e s d') := by
  intro e' s' l f
  obtain ⟨em, hem, -⟩ := State.emitter_of_data hd
  rw [State.setData_signals, ← h e' s' l f]
  by_cases hes : e' = e ∧ s' = s
  · rw [hes.1, hes.2, State.slots_of_data hd, ← hcount]
    simp [State.slots, State.data_setData (Option.isSome_of_mem hem)]
  · simp [State.slots, State.data_setData (Option.isSome_of_mem hem), hes]

lemma Settled.setData {st : State F} (h : Settled st) {e : ℕ} {s : F} {d : SignalData F}
    (he : (st.emitters e).isSome) (hd : d.Settled) : Settled (st.setData e s d) := by
  intro e' s' d' hd'
  rw [State.data_setData he] at hd'
  split_ifs at hd'
  · rwa [← Option.some.inj hd']
  · exact h e' s' d' hd'

/-! ## Emission -/

/-- The loop of `emit` calls a slot of a listener that exists, or ends. -/
lemma resume_spec {st : State F} {fr : SignalActivation F} {rest : List (ℕ × Slot F)}
    {d : SignalData F} (hcounts : Counts st) (hset : Settled st)
    (hd : st.data fr.emitter fr.signal = some d) (hrest : ∀ c ∈ rest, c ∈ d.slots) :
    ∃ st', resume st fr rest = some st' ∧ Counts st' ∧ Settled st' := by
  obtain ⟨em, hem, -⟩ := State.emitter_of_data hd
  have he : (st.emitters fr.emitter).isSome := Option.isSome_of_mem hem
  rw [resume]
  cases hfind : rest.find? fun c => c.2.state = .connected with
  | some c =>
    have hc : c ∈ d.slots := hrest c (List.mem_of_find?_eq_some hfind)
    have hconn : c.2.state = .connected := by simpa using List.find?_some hfind
    have hslots := State.slots_of_data hd
    obtain ⟨li, hli, -⟩ := hcounts.receiver (hslots ▸ hc) (by rw [hconn]; decide)
    exact ⟨_, if_pos (Option.isSome_of_mem hli), hcounts, hset⟩
  | none =>
    simp only [hd]
    exact ⟨_, rfl, hcounts.setData hd fun l f => d.liveSlots_leave fr.next l f,
      hset.setData he ((hset _ _ _ hd).leave fr.next)⟩

theorem emit_spec {st : State F} (h : Inv st) {e : ℕ} (he : (st.emitters e).isSome) (s : F) :
    ∃ st', emit st e s = some st' ∧ Inv st' := by
  obtain ⟨em, hem⟩ := Option.isSome_iff_exists.mp he
  have hrun : ∃ st', emit st e s = some st' ∧ Counts st' ∧ Settled st' := by
    simp only [emit, hem]
    cases hfind : em.find s with
    | none => exact ⟨st, rfl, h.counts, h.settled⟩
    | some d =>
      have hd : st.data e s = some d := by simp [State.data, hem, hfind]
      have hd' : (d.activation = none ∨ d.dirty = false →
          ∀ c ∈ d.slots, c.2.state = .connected) := h.settled e s d hd
      apply resume_spec
      · exact h.counts.setData hd fun l f => rfl
      · exact h.settled.setData he fun hon => hd' (Or.inr (by simpa using hon))
      · rw [State.data_setData he, if_pos ⟨rfl, rfl⟩]
      · exact fun c hc => hc
  obtain ⟨st', hst', hcounts, hset⟩ := hrun
  exact ⟨st', hst', hcounts, hset, emit_unwinds h.unwinds hst'⟩

theorem ret_spec {st : State F} (h : Inv st) (hfr : st.frames ≠ []) :
    ∃ st', ret st = some st' ∧ Inv st' := by
  obtain ⟨hcounts, hset, hun⟩ := h
  have hrun : ∃ st', ret st = some st' ∧ Counts st' ∧ Settled st' := by
    rw [ret]
    cases hframes : st.frames with
    | nil => exact absurd hframes hfr
    | cons fr frs =>
      rw [hframes] at hun
      cases hun with
      | live hinv htop hi hrest =>
        obtain ⟨d, hd, -⟩ := Option.bind_eq_some_iff.mp htop
        rw [State.items, State.slots_of_data hd] at hi
        obtain ⟨rest, hafter, hsub⟩ := after_isSome hi
        simp only [hinv, Bool.false_eq_true, if_false, hd, hafter, Option.bind_some]
        exact @resume_spec _ _ { st with frames := frs } _ _ _ hcounts hset hd hsub
      | dead hinv hrest =>
        simp only [hinv, if_true]
        exact ⟨_, rfl, hcounts, hset⟩
  obtain ⟨st', hst', hcounts', hset'⟩ := hrun
  exact ⟨st', hst', hcounts', hset', ret_unwinds hun hst'⟩

/-! ## Connecting and disconnecting -/

theorem connect_spec {st : State F} (h : Inv st) {e l : ℕ} (he : (st.emitters e).isSome)
    (hl : (st.listeners l).isSome) (s : F) (o : ℕ) (f : F) :
    ∃ st', connect st e s l o f = some st' ∧ Inv st' := by
  obtain ⟨em, hem⟩ := Option.isSome_iff_exists.mp he
  obtain ⟨li, hli⟩ := Option.isSome_iff_exists.mp hl
  have hdata : st.data e s = em.find s := by simp [State.data, hem]
  obtain ⟨d, hd⟩ : ∃ d, d = (em.find s).getD {} := ⟨_, rfl⟩
  have hslots : st.slots e s = d.slots := by
    rw [hd, State.slots, hdata]
    cases em.find s <;> rfl
  have hact : st.activation e s = d.activation := by
    rw [hd, State.activation, hdata]
    cases em.find s <;> rfl
  have hsettled : d.Settled := by
    cases hfind : em.find s with
    | none =>
      rw [hd, hfind]
      intro _ c hc
      exact absurd hc (by simp)
    | some d' =>
      rw [hd, hfind]
      exact h.settled e s d' (hdata.trans hfind)
  simp only [connect, hem, hli, ← hd]
  refine ⟨_, rfl, ?_, ?_, ?_⟩
  · intro e' s' l' f'
    have hsig : ∀ d' x, ((st.setData e s d').setSignals l e x).signals l' e' =
        if l' = l ∧ e' = e then x else st.signals l' e' := by
      intro d' x
      exact State.signals_setSignals (by exact hl) e x l' e'
    show liveSlots l' f' (State.slots (State.setData st e s _) e' s') =
      (State.signals (State.setSignals (State.setData st e s _) l e _) l' e').count _
    rw [slots_setData he, hsig]
    have hold := h.counts e' s' l' f'
    by_cases hes : e' = e ∧ s' = s
    · obtain ⟨rfl, rfl⟩ := hes
      rw [hslots] at hold
      rw [if_pos ⟨rfl, rfl⟩, liveSlots_append, hold, liveSlots_cons]
      by_cases hll : l' = l
      · subst hll
        cases d.activation <;> simp [List.count_singleton]
      · simp [hll, Ne.symm hll]
    · rw [if_neg hes, hold]
      by_cases hle : l' = l ∧ e' = e
      · have hs : s' ≠ s := fun hs => hes ⟨hle.2, hs⟩
        rw [if_pos hle, hle.1, hle.2]
        simp [List.count_append, Ne.symm hs]
      · rw [if_neg hle]
  · refine Settled.setData h.settled he ?_
    intro hon c hc
    cases ha : d.activation with
    | none =>
      simp only [ha, List.mem_append, List.mem_singleton] at hc
      rcases hc with hc | rfl
      · exact hsettled (Or.inl ha) c hc
      · rfl
    | some a => simp [ha] at hon
  · refine Unwinds.setData h.unwinds he hact.symm ?_
    intro _
    rw [State.items, hslots, List.map_append]
    exact List.subset_append_left _ _

theorem disconnect_spec {st : State F} (h : Inv st) {e l : ℕ} (he : (st.emitters e).isSome)
    (hl : (st.listeners l).isSome) (s : F) (f : F)
    (hfirst : ∀ d ∈ st.data e s, d.activation ≠ none → FirstLive l f d.slots) :
    ∃ st', disconnect st e s l f = some st' ∧ Inv st' := by
  obtain ⟨em, hem⟩ := Option.isSome_iff_exists.mp he
  obtain ⟨li, hli⟩ := Option.isSome_iff_exists.mp hl
  have hdata : st.data e s = em.find s := by simp [State.data, hem]
  simp only [disconnect, hem, hli]
  cases hfind : em.find s with
  | none => exact ⟨st, rfl, h⟩
  | some d =>
    have hd : st.data e s = some d := hdata.trans hfind
    have hlive : FirstLive l f d.slots := by
      by_cases ha : d.activation = none
      · exact (h.settled e s d hd).firstLive ha l f
      · exact hfirst d hd ha
    -- a map without the emitter has no entries to search
    have hkey : ∀ lis, (∀ l' e', State.signals
        { st.setData e s (d.detach l f) with listeners := lis } l' e' =
          if l' = l ∧ e' = e then (st.signals l e).erase ⟨s, f⟩ else st.signals l' e') →
        Inv { st.setData e s (d.detach l f) with listeners := lis } := by
      intro lis hsig
      refine ⟨?_, Settled.setData h.settled he ((h.settled e s d hd).detach l f),
        Unwinds.detach h.unwinds hd l f⟩
      intro e' s' l' f'
      rw [hsig]
      show liveSlots l' f' (State.slots (State.setData st e s _) e' s') = _
      rw [slots_setData he]
      have hold := h.counts e' s' l' f'
      by_cases hes : e' = e ∧ s' = s
      · obtain ⟨rfl, rfl⟩ := hes
        rw [State.slots_of_data hd] at hold
        rw [if_pos ⟨rfl, rfl⟩, SignalData.detach, liveSlots_detachFirst _ hlive, hold]
        by_cases hll : l' = l
        · subst hll
          simp [List.count_erase]
        · simp [hll, Ne.symm hll]
      · rw [if_neg hes, hold]
        by_cases hle : l' = l ∧ e' = e
        · have hs : s' ≠ s := fun hs => hes ⟨hle.2, hs⟩
          rw [if_pos hle, hle.1, hle.2]
          simp [List.count_erase, Ne.symm hs]
        · rw [if_neg hle]
    cases hx : li.find e with
    | none =>
      refine ⟨_, rfl, hkey st.listeners fun l' e' => ?_⟩
      split_ifs with hle
      · rw [hle.1, hle.2]
        simp [State.signals, hli, hx]
      · rfl
    | some x =>
      refine ⟨_, rfl, hkey _ fun l' e' => ?_⟩
      have hxe : x = st.signals l e := by simp [State.signals, hli, hx]
      rw [← hxe]
      exact @State.signals_setSignals _ _ (st.setData e s (d.detach l f)) l hl e
        (x.erase ⟨s, f⟩) l' e'

/-! ## Destruction of a listener -/

/-- All entries of a map of lists, one after the other -/
def flatEntries (m : SortedMap ℕ (List (Signal F))) : List (ℕ × Signal F) :=
  m.entries.flatMap fun e => e.2.map fun x => (e.1, x)

omit [LinearOrder F] in
lemma mem_flatEntries {m : SortedMap ℕ (List (Signal F))} {e : ℕ} {x : Signal F} :
    (e, x) ∈ flatEntries m ↔ ∃ l, (e, l) ∈ m.entries ∧ x ∈ l := by
  simp [flatEntries]

/-- Each entry of the map is met as often as its list has it. -/
lemma count_flatEntries (m : SortedMap ℕ (List (Signal F))) (e : ℕ) (x : Signal F) :
    (flatEntries m).count (e, x) = ((m.find e).getD []).count x := by
  obtain ⟨l, hl⟩ := m
  simp only [flatEntries, SortedMap.find]
  induction l with
  | nil => rfl
  | cons p l ih =>
    obtain ⟨hp, hl'⟩ := SortedAssoc.sorted_cons.mp hl
    rw [List.flatMap_cons, List.count_append, ih hl', SortedAssoc.get]
    by_cases hep : e = p.1
    · have hnot : SortedAssoc.get e l = none := by
        rw [Option.eq_none_iff_forall_ne_some]
        intro v hv
        exact (hp _ (SortedAssoc.mem_of_get hv)).ne hep.symm
      rw [if_pos hep, hnot, hep,
        List.count_map_of_injective p.2 (fun x => (p.1, x)) (fun a b h => (Prod.mk.inj h).2)]
      simp
    · rw [if_neg hep, List.count_eq_zero_of_not_mem, Nat.zero_add]
      simp [Ne.symm hep]

/-- A state inside `~Listener`, with the entries that are still to be dropped -/
structure Dropping (st₀ : State F) (listener : ℕ) (st : State F) (rest : List (ℕ × Signal F)) :
    Prop where
  listeners : st.listeners = st₀.listeners
  frames : st.frames = st₀.frames
  settled : Settled st
  unwinds : Unwinds st.items st.activation st.frames
  own : ∀ e s f, liveSlots listener f (st.slots e s) = rest.count (e, ⟨s, f⟩)
  other : ∀ e s l f, l ≠ listener → liveSlots l f (st.slots e s) = (st₀.signals l e).count ⟨s, f⟩
  clear : ∀ e s f, FirstLive listener f (st.slots e s) ∧
    (st.activation e s ≠ none → liveSlots listener f (st.slots e s) ≤ 1)

lemma Dropping.step {st₀ st : State F} {l e : ℕ} {x : Signal F} {rest : List (ℕ × Signal F)}
    (h : Dropping st₀ l st ((e, x) :: rest)) :
    ∃ st', dropSlot l e (some st) x = some st' ∧ Dropping st₀ l st' rest := by
  have hpos : 0 < liveSlots l x.slot (st.slots e x.signal) := by
    rw [h.own]
    exact List.count_pos_iff.mpr List.mem_cons_self
  obtain ⟨c, hc, -⟩ := List.countP_pos_iff.mp hpos
  obtain ⟨d, hd⟩ := State.data_of_mem_slots hc
  obtain ⟨em, hem, hfind⟩ := State.emitter_of_data hd
  have he : (st.emitters e).isSome := Option.isSome_of_mem hem
  have hset := h.settled e x.signal d hd
  have hslots := State.slots_of_data hd
  have hclear : ∀ f, FirstLive l f d.slots ∧
      (d.activation.isSome = true → liveSlots l f d.slots ≤ 1) := by
    intro f
    have := h.clear e x.signal f
    rwa [hslots, State.activation_of_data hd, ← Option.isSome_iff_ne_none] at this
  have hactive : ∀ e' s', (st.setData e x.signal (d.detach l x.slot)).activation e' s' =
      st.activation e' s' := by
    intro e' s'
    rw [activation_setData he, setAt]
    split_ifs with hes
    · rw [hes.1, hes.2, State.activation_of_data hd, SignalData.detach]
    · rfl
  refine ⟨st.setData e x.signal (d.detach l x.slot), by simp [dropSlot, hem, hfind], ?_⟩
  refine ⟨h.listeners, h.frames, h.settled.setData he (hset.detach l x.slot),
    Unwinds.detach h.unwinds hd l x.slot, ?_, ?_, ?_⟩
  · intro e' s' f
    have hown := h.own e' s' f
    rw [slots_setData he]
    by_cases hes : e' = e ∧ s' = x.signal
    · rw [hes.1, hes.2, hslots] at hown
      rw [if_pos ⟨hes.1, hes.2⟩, SignalData.detach, liveSlots_detachFirst _ (hclear x.slot).1, hown,
        hes.1, hes.2, List.count_cons]
      by_cases hf : x.slot = f
      · subst hf
        simp
      · have hx : x ≠ ⟨x.signal, f⟩ := fun hx => hf (by rw [hx])
        simp [hf, hx]
    · have hx : (e, x) ≠ (e', ⟨s', f⟩) := by
        intro hx
        obtain ⟨rfl, rfl⟩ := Prod.mk.inj hx
        exact hes ⟨rfl, rfl⟩
      rw [if_neg hes, hown, List.count_cons_of_ne hx]
  · intro e' s' l' f hl
    rw [slots_setData he, ← h.other e' s' l' f hl]
    split_ifs with hes
    · rw [hes.1, hes.2, hslots, SignalData.detach, liveSlots_detachFirst _ (hclear x.slot).1,
        if_neg fun h => hl h.1.symm, Nat.sub_zero]
    · rfl
  · intro e' s' f
    rw [hactive, slots_setData he]
    split_ifs with hes
    · refine ⟨firstLive_detachFirst (hclear x.slot).1 (hclear f).1 (hclear x.slot).2 ?_, ?_⟩
      · intro hoff
        exact hset (Or.inl (by simpa using hoff))
      · intro hon
        rw [hes.1, hes.2, State.activation_of_data hd, ← Option.isSome_iff_ne_none] at hon
        rw [SignalData.detach, liveSlots_detachFirst _ (hclear x.slot).1]
        exact (Nat.sub_le _ _).trans ((hclear f).2 hon)
    · exact h.clear e' s' f

lemma Dropping.run {st₀ : State F} {l : ℕ} {rest : List (ℕ × Signal F)} {st : State F}
    (h : Dropping st₀ l st rest) :
    ∃ st', rest.foldl (fun st p => dropSlot l p.1 st p.2) (some st) = some st' ∧
      Dropping st₀ l st' [] := by
  induction rest generalizing st with
  | nil => exact ⟨st, rfl, h⟩
  | cons p rest ih =>
    obtain ⟨st', hst', h'⟩ := h.step
    rw [List.foldl_cons, hst']
    exact ih h'

theorem destroyListener_spec {st : State F} (h : Inv st) {l : ℕ} (hl : (st.listeners l).isSome)
    (hclear : ∀ li ∈ st.listeners l, ∀ e ∈ li.entries, ∀ x ∈ e.2, ∀ d ∈ st.data e.1 x.signal,
      d.activation ≠ none → FirstLive l x.slot d.slots ∧ liveSlots l x.slot d.slots ≤ 1) :
    ∃ st', destroyListener st l = some st' ∧ Inv st' := by
  obtain ⟨li, hli⟩ := Option.isSome_iff_exists.mp hl
  have hsig : ∀ e, st.signals l e = (li.find e).getD [] := fun e => by simp [State.signals, hli]
  have hstart : Dropping st l st (flatEntries li) := by
    refine ⟨rfl, rfl, h.settled, h.unwinds, ?_, fun e s l' f _ => h.counts e s l' f, ?_⟩
    · intro e s f
      rw [h.counts, hsig, count_flatEntries]
    · intro e s f
      by_cases hzero : liveSlots l f (st.slots e s) = 0
      · exact ⟨firstLive_of_eq_zero hzero, fun _ => by rw [hzero]; exact Nat.zero_le 1⟩
      · have hmem : (e, ⟨s, f⟩) ∈ flatEntries li := by
          rw [h.counts, hsig, ← count_flatEntries] at hzero
          exact List.count_pos_iff.mp (Nat.pos_of_ne_zero hzero)
        obtain ⟨x, hx, hsf⟩ := mem_flatEntries.mp hmem
        obtain ⟨c, hc, -⟩ := List.countP_pos_iff.mp (Nat.pos_of_ne_zero hzero)
        obtain ⟨d, hd⟩ := State.data_of_mem_slots hc
        rw [State.slots_of_data hd, State.activation_of_data hd]
        by_cases ha : d.activation = none
        · exact ⟨(h.settled e s d hd).firstLive ha l f, fun hon => absurd ha hon⟩
        · obtain ⟨hfirst, hone⟩ := hclear li hli _ hx _ hsf d hd ha
          exact ⟨hfirst, fun _ => hone⟩
  obtain ⟨st', hst', hend⟩ := hstart.run
  rw [flatEntries, List.foldl_flatMap] at hst'
  simp only [List.foldl_map] at hst'
  refine ⟨{ st' with listeners := Function.update st'.listeners l none }, ?_, ?_,
    hend.settled, hend.unwinds⟩
  · simp only [destroyListener, hli, hst', Option.bind_eq_bind, Option.bind_some]
  intro e s l' f
  show liveSlots l' f (st'.slots e s) = _
  by_cases hll : l' = l
  · rw [hll, hend.own]
    simp [State.signals]
  · rw [hend.other e s l' f hll]
    simp [State.signals, hll, hend.listeners]

/-! ## Destruction of an emitter -/

/-- A state inside `~Emitter` within the signal `s`: the items that are still to be dropped, and the
    signals after it -/
structure Forgetting (st₀ : State F) (emitter : ℕ) (st : State F) (s : F)
    (items : List (ℕ × Slot F)) (rest : List (F × SignalData F)) : Prop where
  emitters : st.emitters = st₀.emitters
  listeners : ∀ l, (st.listeners l).isSome = (st₀.listeners l).isSome
  other : ∀ l e, e ≠ emitter → st.signals l e = st₀.signals l e
  own : ∀ l f, (st.signals l emitter).count ⟨s, f⟩ = liveSlots l f items
  ahead : ∀ l s' f, s' ≠ s → (st.signals l emitter).count ⟨s', f⟩ =
    liveSlots l f (((SortedAssoc.get s' rest).map SignalData.slots).getD [])

lemma Forgetting.step {st₀ st : State F} {e : ℕ} {s : F} {c : ℕ × Slot F}
    {items : List (ℕ × Slot F)} {rest : List (F × SignalData F)}
    (h : Forgetting st₀ e st s (c :: items) rest) :
    ∃ st', dropSignal e s (some st) c = some st' ∧ st'.frames = st.frames ∧
      Forgetting st₀ e st' s items rest := by
  by_cases hc : c.2.state = .disconnected
  · refine ⟨st, by simp [dropSignal, hc], rfl, h.emitters, h.listeners, h.other, ?_, h.ahead⟩
    intro l f
    rw [h.own, liveSlots_cons, if_neg (by simp [hc]), Nat.add_zero]
  · have hcount := h.own c.2.receiver c.2.slot
    rw [liveSlots_cons, if_pos ⟨⟨rfl, rfl⟩, hc⟩] at hcount
    obtain ⟨li, hli, hfind⟩ : ∃ li, st.listeners c.2.receiver = some li ∧
        li.find e = some (st.signals c.2.receiver e) := by
      apply State.listener_of_signals
      intro hnil
      rw [hnil] at hcount
      exact absurd hcount (by simp)
    have hl : (st.listeners c.2.receiver).isSome := Option.isSome_of_mem hli
    refine ⟨st.setSignals c.2.receiver e ((st.signals c.2.receiver e).erase ⟨s, c.2.slot⟩),
      by simp [dropSignal, hc, hli, hfind], rfl, h.emitters, ?_, ?_, ?_, ?_⟩
    · intro l
      rw [State.setSignals_isSome, h.listeners]
    · intro l e' he
      rw [State.signals_setSignals hl, if_neg fun h => he h.2, h.other l e' he]
    · intro l f
      have hown := h.own l f
      rw [liveSlots_cons] at hown
      rw [State.signals_setSignals hl]
      by_cases hlc : l = c.2.receiver
      · rw [if_pos ⟨hlc, rfl⟩, ← hlc, List.count_erase, hown]
        by_cases hf : c.2.slot = f
        · simp [hf, hc, hlc]
        · simp [hf]
      · rw [if_neg fun h => hlc h.1, hown, if_neg fun h => hlc h.1.1.symm, Nat.add_zero]
    · intro l s' f hs
      rw [← h.ahead l s' f hs, State.signals_setSignals hl]
      split_ifs with hlc
      · rw [hlc.1, List.count_erase_of_ne]
        simp [hs]
      · rfl

lemma Forgetting.run {st₀ : State F} {e : ℕ} {s : F} {items : List (ℕ × Slot F)}
    {rest : List (F × SignalData F)} {st : State F} (h : Forgetting st₀ e st s items rest) :
    ∃ st', items.foldl (dropSignal e s) (some st) = some st' ∧ st'.frames = st.frames ∧
      Forgetting st₀ e st' s [] rest := by
  induction items generalizing st with
  | nil => exact ⟨st, rfl, rfl, h⟩
  | cons c items ih =>
    obtain ⟨st', hst', hfr, h'⟩ := h.step
    obtain ⟨st'', hst'', hfr', h''⟩ := ih h'
    exact ⟨st'', by rw [List.foldl_cons, hst', hst''], hfr'.trans hfr, h''⟩

/-- All signals of the emitter: their entries go, and their innermost frames are invalidated. -/
lemma dropSignalData_run {st₀ st : State F} {e : ℕ} {rest : List (F × SignalData F)}
    (hsorted : SortedAssoc.Sorted rest) (hem : st.emitters = st₀.emitters)
    (hli : ∀ l, (st.listeners l).isSome = (st₀.listeners l).isSome)
    (hother : ∀ l e', e' ≠ e → st.signals l e' = st₀.signals l e')
    (hown : ∀ l s f, (st.signals l e).count ⟨s, f⟩ =
      liveSlots l f (((SortedAssoc.get s rest).map SignalData.slots).getD [])) :
    ∃ st', rest.foldl (dropSignalData e) (some st) = some st' ∧
      st'.emitters = st₀.emitters ∧ (∀ l, (st'.listeners l).isSome = (st₀.listeners l).isSome) ∧
      (∀ l e', e' ≠ e → st'.signals l e' = st₀.signals l e') ∧
      (∀ l s f, (st'.signals l e).count ⟨s, f⟩ = 0) ∧
      st'.frames = invalidate (fun j => rest.any fun p => p.2.activation = some j) st.frames := by
  induction rest generalizing st with
  | nil =>
    refine ⟨st, rfl, hem, hli, hother, hown, ?_⟩
    simp only [List.any_nil, invalidate_false]
  | cons p rest ih =>
    obtain ⟨hp, hsorted'⟩ := SortedAssoc.sorted_cons.mp hsorted
    have hnot : SortedAssoc.get p.1 rest = none := by
      rw [Option.eq_none_iff_forall_ne_some]
      intro v hv
      exact (hp _ (SortedAssoc.mem_of_get hv)).ne rfl
    have hstart : Forgetting st₀ e
        { st with frames := invalidate (fun j => p.2.activation = some j) st.frames } p.1
        p.2.slots rest := by
      refine ⟨hem, hli, hother, ?_, ?_⟩
      · intro l f
        have := hown l p.1 f
        rwa [SortedAssoc.get, if_pos rfl] at this
      · intro l s' f hs
        have := hown l s' f
        rwa [SortedAssoc.get, if_neg hs] at this
    obtain ⟨st', hst', hfr, h'⟩ := hstart.run
    have hown' : ∀ l s f, (st'.signals l e).count ⟨s, f⟩ =
        liveSlots l f (((SortedAssoc.get s rest).map SignalData.slots).getD []) := by
      intro l s f
      by_cases hs : s = p.1
      · rw [hs, h'.own, hnot]
        rfl
      · exact h'.ahead l s f hs
    obtain ⟨st'', hst'', hem'', hli'', hother'', hown'', hfr''⟩ :=
      ih hsorted' h'.emitters h'.listeners h'.other hown'
    refine ⟨st'', ?_, hem'', hli'', hother'', hown'', ?_⟩
    · rw [List.foldl_cons, dropSignalData, Option.map_some, hst', hst'']
    · rw [hfr'', hfr, invalidate_invalidate]
      simp only [List.any_cons]

theorem destroyEmitter_spec {st : State F} (h : Inv st) {e : ℕ} (he : (st.emitters e).isSome) :
    ∃ st', destroyEmitter st e = some st' ∧ Inv st' := by
  obtain ⟨em, hem⟩ := Option.isSome_iff_exists.mp he
  have hdata : ∀ s, st.data e s = SortedAssoc.get s em.entries := by
    intro s
    simp [State.data, hem, SortedMap.find]
  obtain ⟨st', hst', hem', -, hother, hown, -⟩ :=
    dropSignalData_run em.sorted rfl (fun _ => rfl) (fun _ _ _ => rfl) (fun l s f => by
      rw [← h.counts, State.slots, hdata])
  have hexec : destroyEmitter st e =
      some { st' with emitters := Function.update st'.emitters e none } := by
    simp only [destroyEmitter, hem, hst', Option.bind_eq_bind, Option.bind_some]
  have hnew := (destroyEmitter_keeps hexec).1
  refine ⟨_, hexec, ?_, ?_, destroyEmitter_unwinds h.unwinds hexec⟩
  · intro e' s l f
    show _ = (st'.signals l e').count _
    rw [State.slots, hnew]
    by_cases hee : e' = e
    · rw [if_pos hee, hee, hown]
      rfl
    · rw [if_neg hee, hother l e' hee, ← h.counts]
      rfl
  · intro e' s d hd
    rw [hnew] at hd
    split_ifs at hd
    exact h.settled e' s d hd

/-! ## Runs -/

lemma inv_init : Inv (init : State F) :=
  ⟨fun _ _ _ _ => rfl, fun _ _ _ hd => absurd hd (by simp [State.data, init]),
    .nil fun _ _ => rfl⟩

/-- **One operation** returns, and keeps the invariant. -/
theorem exec_spec {st : State F} (h : Inv st) {op : Op F} (hallowed : Allowed st op)
    (hun : Undisturbed st op) : ∃ st', exec st op = some st' ∧ Inv st' := by
  cases op with
  | newEmitter e =>
    have hnone : st.emitters e = none := Option.isNone_iff_eq_none.mp hallowed
    have hdata : State.data { st with emitters := Function.update st.emitters e (some .empty) } =
        st.data := by
      funext e' s
      by_cases hee : e' = e <;> simp [State.data, hee, hnone]
    refine ⟨_, rfl, ?_, ?_, exec_unwinds h.unwinds hallowed rfl⟩
    · intro e' s l f
      rw [State.slots, hdata]
      exact h.counts e' s l f
    · intro e' s d hd
      rw [hdata] at hd
      exact h.settled e' s d hd
  | newListener l =>
    have hnone : st.listeners l = none := Option.isNone_iff_eq_none.mp hallowed
    refine ⟨_, rfl, ?_, h.settled, h.unwinds⟩
    intro e s l' f
    have hsig : State.signals
        { st with listeners := Function.update st.listeners l (some .empty) } l' e =
        st.signals l' e := by
      by_cases hll : l' = l <;> simp [State.signals, hll, hnone]
    rw [hsig]
    exact h.counts e s l' f
  | connect e s l o f => exact connect_spec h hallowed.1 hallowed.2 s o f
  | disconnect e s l f => exact disconnect_spec h hallowed.1 hallowed.2 s f hun
  | emit e s => exact emit_spec h hallowed s
  | ret => exact ret_spec h hallowed
  | destroyListener l => exact destroyListener_spec h hallowed hun
  | destroyEmitter e => exact destroyEmitter_spec h hallowed

lemma Reaches.inv {st : State F} (h : Reaches Undisturbed st) : Inv st := by
  induction h with
  | init => exact inv_init
  | step _ hallowed hun hexec ih =>
    obtain ⟨st', hst', hinv⟩ := exec_spec ih hallowed hun
    rw [hexec] at hst'
    rwa [Option.some.inj hst']

/-- **Both sides agree** in every state that a program reaches with operations that meet
    `Undisturbed`: the live slots of a connection are as many as its entries.  So a slot that can
    still be called has its listener, an entry has its emitter, and every further operation that
    meets the condition returns. -/
theorem connections_agree {st : State F} (h : Reaches Undisturbed st) :
    (∀ e s l f, liveSlots l f (st.slots e s) = (st.signals l e).count ⟨s, f⟩) ∧
    (∀ e s, ∀ c ∈ st.slots e s, c.2.state ≠ .disconnected → (st.listeners c.2.receiver).isSome) ∧
    (∀ l e, st.signals l e ≠ [] → (st.emitters e).isSome) ∧
    (∀ op, Allowed st op → Undisturbed st op → ∃ st', exec st op = some st') := by
  have hinv := h.inv
  refine ⟨hinv.counts, ?_, ?_, ?_⟩
  · intro e s c hc hlive
    obtain ⟨li, hli, -⟩ := hinv.counts.receiver hc hlive
    exact Option.isSome_of_mem hli
  · intro l e hne
    obtain ⟨x, hx⟩ := List.exists_mem_of_ne_nil _ hne
    obtain ⟨d, hd⟩ := hinv.counts.emitter hx
    obtain ⟨em, hem, -⟩ := State.emitter_of_data hd
    exact Option.isSome_of_mem hem
  · intro op hallowed hun
    obtain ⟨st', hst', -⟩ := exec_spec hinv hallowed hun
    exact ⟨st', hst'⟩

/-- A slot that disconnects itself during an emission and connects again -/
def reconnect : List (Op ℕ) :=
  [.newEmitter 0, .newListener 1, .connect 0 7 1 1 5, .emit 0 7, .disconnect 0 7 1 5,
    .connect 0 7 1 1 5]

/-- After it both sides agree: there is one connection again. -/
theorem connections_agree_reconnect : ∃ st : State ℕ, execAll init reconnect = some st ∧
    liveSlots 1 5 (st.slots 0 7) = 1 ∧ (st.signals 1 0).count ⟨7, 5⟩ = 1 := by
  have hsome : (execAll init reconnect).isSome := by decide +kernel
  obtain ⟨st, hst⟩ := Option.isSome_iff_exists.mp hsome
  have hmeet : AllMeet Undisturbed init reconnect := by decide +kernel
  have hcount := (connections_agree (Reaches.init.execAll hmeet hst)).1 0 7 1 5
  have hone : (execAll init reconnect).map (fun st => (st.signals 1 0).count ⟨7, 5⟩) = some 1 := by
    decide +kernel
  rw [hst] at hone
  have hentry := Option.some.inj hone
  exact ⟨st, hst, hcount.trans hentry, hentry⟩

/-- **A second disconnection** of the same pair ends its search at the item that the first one
    marked: the slot stays while its entry goes.  When the emission is over and the listener is
    destroyed, the slot is connected to an object that is gone. -/
theorem double_disconnect :
    (∃ st : State ℕ, Reaches (fun _ _ => True) st ∧ (st.emitters 0).isSome ∧
      (st.listeners 1).isSome ∧ liveSlots 1 5 (st.slots 0 7) = 1 ∧
      (st.signals 1 0).count ⟨7, 5⟩ = 0) ∧
    ∃ st : State ℕ, Reaches (fun _ _ => True) st ∧ st.frames = [] ∧ (st.emitters 0).isSome ∧
      ∃ c ∈ st.slots 0 7, c.2.state = .connected ∧ (st.listeners c.2.receiver).isNone := by
  have hmeet : AllMeet (fun _ _ => True) init
      (reconnect ++ [.disconnect 0 7 1 5, .ret, .destroyListener 1]) := by decide +kernel
  have hmeet' : AllMeet (fun _ _ => True) init (reconnect ++ [.disconnect 0 7 1 5]) := by
    decide +kernel
  have hcount : (execAll init (reconnect ++ [.disconnect 0 7 1 5])).any fun st =>
      decide ((st.emitters 0).isSome ∧ (st.listeners 1).isSome ∧ liveSlots 1 5 (st.slots 0 7) = 1 ∧
        (st.signals 1 0).count ⟨7, 5⟩ = 0) := by decide +kernel
  have hgone : (execAll init (reconnect ++ [.disconnect 0 7 1 5, .ret, .destroyListener 1])).any
      fun st => decide (st.frames = [] ∧ (st.emitters 0).isSome ∧
        ∃ c ∈ st.slots 0 7, c.2.state = .connected ∧ (st.listeners c.2.receiver).isNone) := by
    decide +kernel
  obtain ⟨st, hst, hp⟩ := (Option.any_eq_true _ _).mp hcount
  obtain ⟨st', hst', hp'⟩ := (Option.any_eq_true _ _).mp hgone
  exact ⟨⟨st, Reaches.init.execAll hmeet' hst, of_decide_eq_true hp⟩,
    st', Reaches.init.execAll hmeet hst', of_decide_eq_true hp'⟩

end Nstd.Callback
