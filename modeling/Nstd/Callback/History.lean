import Nstd.Callback.Connections

/-!
# Emissions and the history of a program

* `Past`, `Past.next` — what the operations of a program say: which connections there are, which of
  them there were when the outermost running emission of a signal began, and what the emissions on
  the stack have called so far.
* `calls` — the item that an operation calls.
* `Recalls` — how the state goes with the past.
* **`emissions_follow`** — in every run whose operations meet `Undisturbed`, emissions call what the
  history says, in the order of connection.

The past is told by the operations alone and reads nothing of the state.  `Recalls` ties it to the slots
and the frames of the code, and every operation keeps it; so the next item of a frame is the next
connection of the past.
-/

namespace Nstd.Callback

variable {F : Type} [LinearOrder F]

/-- A running emission: the items it has called so far, and whether its emitter is gone -/
structure Activation (F : Type) where
  emitter : ℕ
  signal : F
  called : List ℕ
  gone : Bool

/-- **The past of a program**.  Items have the numbers that were given out, in the order of
    connection. -/
structure Past (F : Type) where
  connections : ℕ → F → List (ℕ × Slot F)
  began : ℕ → F → List ℕ
  activations : List (Activation F)

/-- A value for each signal, changed at one -/
def updateAt {α : Type} (g : ℕ → F → α) (e : ℕ) (s : F) (a : α) : ℕ → F → α :=
  fun e' s' => if e' = e ∧ s' = s then a else g e' s'

/-- The item whose slot an operation calls, which is that of the new innermost frame -/
def calls (st st' : State F) : Op F → Option ℕ
  | .emit _ _ =>
    if st.frames.length < st'.frames.length then st'.frames.head?.map fun fr => fr.i else none
  | .ret =>
    if st'.frames.length = st.frames.length then st'.frames.head?.map fun fr => fr.i else none
  | _ => none

namespace Past

/-- Nothing has been done. -/
def start : Past F := ⟨fun _ _ => [], fun _ _ => [], []⟩

/-- Is the signal being emitted by an emitter that is not gone? -/
def running (p : Past F) (e : ℕ) (s : F) : Bool :=
  p.activations.any fun a => a.emitter = e ∧ a.signal = s ∧ a.gone = false

/-- What an operation adds to the past.  `disconnect` takes the oldest connection of the two, and a
    listener takes all its connections with it. -/
def next (p : Past F) (st st' : State F) : Op F → Past F
  | .newEmitter _ => p
  | .newListener _ => p
  | .connect e s l o f =>
    let c : ℕ × Slot F := (st.heap, ⟨l, o, f, .connected⟩)
    { p with connections := updateAt p.connections e s (p.connections e s ++ [c]) }
  | .disconnect e s l f =>
    let cs := (p.connections e s).eraseP (refers l f)
    { p with connections := updateAt p.connections e s cs }
  | .emit e s =>
    let began := if p.running e s then p.began
      else updateAt p.began e s ((p.connections e s).map Prod.fst)
    match calls st st' (.emit e s) with
    | none => { p with began }
    | some i => { p with began, activations := ⟨e, s, [i], false⟩ :: p.activations }
  | .ret =>
    match p.activations, calls st st' .ret with
    | a :: as, some i => { p with activations := { a with called := a.called ++ [i] } :: as }
    | as, _ => { p with activations := as.tail }
  | .destroyListener l =>
    { p with connections := fun e s => (p.connections e s).filter fun c => c.2.receiver ≠ l }
  | .destroyEmitter e =>
    { p with
      connections := fun e' s => if e' = e then [] else p.connections e' s
      activations := p.activations.map fun a => { a with gone := a.gone || a.emitter = e } }

end Past

/-- The states of a run, each with its past -/
inductive Remembers (cond : State F → Op F → Prop) : State F → Past F → Prop
  | init : Remembers cond init .start
  | step {st st' : State F} {p : Past F} {op : Op F} : Remembers cond st p → Allowed st op →
      cond st op → exec st op = some st' → Remembers cond st' (p.next st st' op)

/-! ## Live items -/

omit [LinearOrder F] in
lemma clean_cons (c : ℕ × Slot F) (cs : List (ℕ × Slot F)) : clean (c :: cs) =
    if c.2.state = .disconnected then clean cs
    else (c.1, { c.2 with state := .connected }) :: clean cs := by
  rw [clean, List.filterMap_cons, ← clean]
  obtain ⟨i, receiver, object, slot, state⟩ := c
  cases state with
  | _ => rfl

omit [LinearOrder F] in
@[simp] lemma clean_append (cs cs' : List (ℕ × Slot F)) :
    clean (cs ++ cs') = clean cs ++ clean cs' := List.filterMap_append

omit [LinearOrder F] in
lemma clean_of_connected {cs : List (ℕ × Slot F)} (h : ∀ c ∈ cs, c.2.state = .connected) :
    clean cs = cs := by
  induction cs with
  | nil => rfl
  | cons c cs ih =>
    obtain ⟨i, receiver, object, slot, state⟩ := c
    have hc : state = .connected := h _ List.mem_cons_self
    rw [clean_cons, ih fun c hc => h c (List.mem_cons_of_mem _ hc), hc]
    rfl

omit [LinearOrder F] in
/-- What is detached is not live, whether its item stays or goes. -/
lemma clean_detached (active : Bool) (c : ℕ × Slot F) (cs : List (ℕ × Slot F)) :
    clean (if active then (c.1, { c.2 with state := .disconnected }) :: cs else cs) = clean cs := by
  cases active with
  | false => rfl
  | true => rw [if_pos rfl, clean_cons, if_pos rfl]

omit [LinearOrder F] in
/-- Live items are some of the items, in their order. -/
lemma clean_items (cs : List (ℕ × Slot F)) : ((clean cs).map Prod.fst).Sublist (cs.map Prod.fst) := by
  induction cs with
  | nil => exact .slnil
  | cons c cs ih =>
    rw [clean_cons]
    split_ifs with hc
    · exact ih.cons _
    · exact ih.cons_cons _

omit [LinearOrder F] in
lemma mem_clean_of_live {cs : List (ℕ × Slot F)} {c : ℕ × Slot F} (h : c ∈ cs)
    (hc : c.2.state = .connected) : c ∈ clean cs := by
  refine List.mem_filterMap.mpr ⟨c, h, ?_⟩
  rw [hc]

lemma clean_refers {cs : List (ℕ × Slot F)} {l : ℕ} {f : F} (h : liveSlots l f cs = 0) :
    ∀ c ∈ clean cs, refers l f c = false := by
  intro c hc
  rw [← liveSlots_clean, liveSlots, List.countP_eq_zero] at h
  have := h c hc
  rw [connected_of_mem_clean hc] at this
  simpa using this

/-- A search that ends at a live item takes the first one for the pair. -/
lemma clean_detachFirst {active : Bool} {l : ℕ} {f : F} {cs : List (ℕ × Slot F)}
    (h : FirstLive l f cs) (hoff : active = false → ∀ c ∈ cs, c.2.state = .connected) :
    clean (detachFirst active l f cs) = (clean cs).eraseP (refers l f) := by
  induction cs with
  | nil => rfl
  | cons c cs ih =>
    rw [detachFirst]
    by_cases hc : refers l f c = true
    · rw [if_pos hc]
      have hrefers : ∀ s, refers l f (c.1, { c.2 with state := s }) = true := fun s => hc
      rw [clean_detached, clean_cons]
      split_ifs with hstate
      · have hzero : liveSlots l f (c :: cs) = 0 :=
          ((firstLive_cons_of_refers (refers_iff.mp hc)).mp h).resolve_left fun hne => hne hstate
        rw [liveSlots_cons, if_neg fun hne => hne.2 hstate, Nat.add_zero] at hzero
        rw [List.eraseP_of_forall_not]
        intro c' hc' hr
        rw [clean_refers hzero c' hc'] at hr
        exact Bool.false_ne_true hr
      · rw [List.eraseP_cons_of_pos (hrefers _)]
    · have hrest := ih ((firstLive_cons_of_not (by rwa [refers_iff] at hc)).mp h)
        fun hoff' c' hc' => hoff hoff' c' (List.mem_cons_of_mem _ hc')
      have hrefers : ∀ s, ¬ refers l f (c.1, { c.2 with state := s }) = true := fun s => hc
      rw [if_neg hc, clean_cons, clean_cons, hrest]
      split_ifs with hstate
      · rfl
      · rw [List.eraseP_cons_of_neg (hrefers _)]

lemma connected_of_mem_detachFirst {active : Bool} {l : ℕ} {f : F} {cs : List (ℕ × Slot F)}
    {c : ℕ × Slot F} (h : c ∈ detachFirst active l f cs) (hc : c.2.state = .connected) :
    c ∈ cs := by
  induction cs with
  | nil => exact h
  | cons c' cs ih =>
    rw [detachFirst] at h
    split_ifs at h with hr hactive
    · rcases List.mem_cons.mp h with rfl | h
      · exact absurd hc (by simp)
      · exact List.mem_cons_of_mem _ h
    · exact List.mem_cons_of_mem _ h
    · rcases List.mem_cons.mp h with rfl | h
      · exact List.mem_cons_self
      · exact List.mem_cons_of_mem _ (ih h)

/-- A search for a listener touches no connection of others. -/
lemma clean_detachFirst_others (active : Bool) (l : ℕ) (f : F) (cs : List (ℕ × Slot F)) :
    (clean (detachFirst active l f cs)).filter (fun c => c.2.receiver ≠ l) =
      (clean cs).filter fun c => c.2.receiver ≠ l := by
  induction cs with
  | nil => rfl
  | cons c cs ih =>
    rw [detachFirst]
    by_cases hc : refers l f c = true
    · have hl : c.2.receiver = l := (refers_iff.mp hc).1
      rw [if_pos hc]
      rw [clean_detached, clean_cons]
      split_ifs with hstate
      · rfl
      · rw [List.filter_cons_of_neg (by simp [hl])]
    · rw [if_neg hc, clean_cons, clean_cons]
      split_ifs with hstate
      · exact ih
      · rw [List.filter_cons, List.filter_cons, ih]

/-! ## One signal -/

/-- The data of a signal: items have the numbers that were given out, in order; a signal that is not
    emitted is not dirty; items that are connected in an emission were there when it began. -/
structure SignalData.Tracked (d : SignalData F) (began : List ℕ) (heap : ℕ) : Prop where
  ordered : (d.slots.map Prod.fst).Pairwise (· < ·)
  fresh : ∀ i ∈ d.slots.map Prod.fst, i < heap
  quiet : d.activation = none → d.dirty = false
  known : d.activation ≠ none → ∀ c ∈ d.slots, c.2.state = .connected → c.1 ∈ began

namespace SignalData.Tracked

variable {d : SignalData F} {began : List ℕ} {heap : ℕ}

omit [LinearOrder F] in
lemma empty (began : List ℕ) (heap : ℕ) : ({} : SignalData F).Tracked began heap :=
  ⟨List.Pairwise.nil, fun _ h => absurd h List.not_mem_nil, fun _ => rfl, fun h => absurd rfl h⟩

omit [LinearOrder F] in
/-- A new item has the next number, and is not connected in an emission. -/
lemma connect (h : d.Tracked began heap) (c : Slot F) (hc : d.activation ≠ none → c.state ≠ .connected) :
    SignalData.Tracked { d with
      slots := d.slots ++ [(heap, c)], dirty := d.dirty || d.activation.isSome } began (heap + 1) := by
  refine ⟨?_, ?_, ?_, ?_⟩
  · rw [List.map_append, List.pairwise_append]
    refine ⟨h.ordered, List.pairwise_singleton _ _, fun i hi j hj => ?_⟩
    rw [List.map_singleton, List.mem_singleton] at hj
    rw [hj]
    exact h.fresh i hi
  · intro i hi
    rw [List.map_append, List.mem_append, List.map_singleton, List.mem_singleton] at hi
    rcases hi with hi | rfl
    · exact Nat.lt_succ_of_lt (h.fresh i hi)
    · exact Nat.lt_succ_self _
  · intro hoff
    have hoff' : d.activation = none := hoff
    simp only [h.quiet hoff', hoff', Option.isSome_none, Bool.or_false]
  · intro hon c' hc' hstate
    rcases List.mem_append.mp hc' with hmem | hmem
    · exact h.known hon c' hmem hstate
    · rw [List.mem_singleton.mp hmem] at hstate
      exact absurd hstate (hc hon)

/-- A search leaves no more connected items than there were. -/
lemma detach (h : d.Tracked began heap) (l : ℕ) (f : F) : (d.detach l f).Tracked began heap := by
  have hsub : ((d.detach l f).slots.map Prod.fst).Sublist (d.slots.map Prod.fst) := by
    rw [SignalData.detach]
    cases d.activation.isSome with
    | false => exact (detachFirst_false_sublist l f d.slots).map _
    | true =>
      have hitems := detachFirst_true_items l f d.slots
      exact hitems ▸ List.Sublist.refl _
  refine ⟨h.ordered.sublist hsub, fun i hi => h.fresh i (hsub.subset hi), fun hoff => ?_,
    fun hon c hc hstate => ?_⟩
  · have hoff' : d.activation = none := hoff
    simp only [SignalData.detach, h.quiet hoff', hoff', Option.isSome_none, Bool.false_and,
      Bool.or_false]
  · exact h.known hon c (connected_of_mem_detachFirst hc hstate) hstate

omit [LinearOrder F] in
lemma leave (h : d.Tracked began heap) (hon : d.activation ≠ none) (next : Option ℕ) :
    (d.leave next).Tracked began heap := by
  rw [SignalData.leave]
  split_ifs with hclean
  · exact ⟨h.ordered.sublist (clean_items _), fun i hi => h.fresh i ((clean_items _).subset hi),
      fun _ => rfl, fun h => absurd rfl h⟩
  · refine ⟨h.ordered, h.fresh, fun hoff => ?_, fun _ => h.known hon⟩
    have hnext : next = none := hoff
    simpa [hnext] using hclean

omit [LinearOrder F] in
/-- The outermost emission of a signal begins, or one inside of it. -/
lemma activate (h : d.Tracked began heap) {began' : List ℕ} (n : ℕ)
    (hbegan : ∀ c ∈ d.slots, c.2.state = .connected → c.1 ∈ began') :
    SignalData.Tracked { d with activation := some n } began' heap :=
  ⟨h.ordered, h.fresh, fun hoff => absurd hoff (Option.some_ne_none n), fun _ => hbegan⟩

end SignalData.Tracked

/-! ## The state -/

/-- **The state goes with the past.** -/
structure Recalls (st : State F) (p : Past F) : Prop where
  connections : ∀ e s, p.connections e s = clean (st.slots e s)
  tracked : ∀ e s, ((st.data e s).getD {}).Tracked (p.began e s) st.heap
  keys : st.frames.map (fun fr => (fr.emitter, fr.signal, some fr.i)) =
    p.activations.map fun a => (a.emitter, a.signal, a.called.getLast?)
  alive : alive st.frames = p.activations.map fun a => !a.gone
  called : ∀ a ∈ p.activations, a.called.Pairwise (· < ·) ∧
    (a.gone = false → ∀ i ∈ a.called, i ∈ p.began a.emitter a.signal)

/-- A signal is emitted just when the past says so. -/
lemma Unwinds.running {items : ℕ → F → List ℕ} {act : ℕ → F → Option ℕ}
    {frs : List (SignalActivation F)} (h : Unwinds items act frs) {as : List (Activation F)}
    (hkeys : frs.map (fun fr => (fr.emitter, fr.signal)) =
      as.map fun a => (a.emitter, a.signal))
    (halive : Nstd.Callback.alive frs = as.map fun a => !a.gone) (e : ℕ) (s : F) :
    (act e s).isSome = as.any fun a => a.emitter = e ∧ a.signal = s ∧ a.gone = false := by
  induction h generalizing as with
  | nil hact =>
    cases as with
    | nil => rw [hact]; rfl
    | cons a as => exact absurd hkeys.symm (List.cons_ne_nil _ _)
  | @live act fr frs hinv htop _ _ ih =>
    cases as with
    | nil => exact absurd hkeys (List.cons_ne_nil _ _)
    | cons a as =>
      rw [alive_live hinv, List.map_cons, List.cons.injEq] at halive
      rw [List.map_cons, List.map_cons, List.cons.injEq, Prod.mk.injEq] at hkeys
      obtain ⟨⟨hem, hsig⟩, hkeys⟩ := hkeys
      have hgone : a.gone = false := by simpa using halive.1.symm
      rw [List.any_cons, ← ih hkeys halive.2, hgone, ← hem, ← hsig]
      by_cases hes : e = fr.emitter ∧ s = fr.signal
      · rw [hes.1, hes.2, htop]
        simp
      · have hes' : ¬ (fr.emitter = e ∧ fr.signal = s) := fun h => hes ⟨h.1.symm, h.2.symm⟩
        simp [setAt, hes, hes']
  | @dead act fr frs hinv _ ih =>
    cases as with
    | nil => exact absurd hkeys (List.cons_ne_nil _ _)
    | cons a as =>
      rw [alive_dead hinv, List.map_cons, List.cons.injEq] at halive
      rw [List.map_cons, List.map_cons, List.cons.injEq] at hkeys
      have hgone : a.gone = true := by simpa using halive.1.symm
      rw [List.any_cons, ← ih (by rw [invalidate_map fun _ _ => rfl]; exact hkeys.2) halive.2,
        hgone]
      simp

lemma Recalls.running {st : State F} {p : Past F} (h : Recalls st p)
    (hun : Unwinds st.items st.activation st.frames) (e : ℕ) (s : F) :
    (st.activation e s).isSome = p.running e s := by
  refine hun.running ?_ h.alive e s
  have hkeys := congrArg (List.map fun k : ℕ × F × Option ℕ => (k.1, k.2.1)) h.keys
  rwa [List.map_map, List.map_map] at hkeys

lemma slots_getD (st : State F) (e : ℕ) (s : F) : st.slots e s = ((st.data e s).getD {}).slots := by
  rw [State.slots]
  cases st.data e s with
  | none => rfl
  | some d => rfl

lemma getD_setData {st : State F} {e : ℕ} (he : (st.emitters e).isSome) (s : F) (d : SignalData F)
    (e' : ℕ) (s' : F) : ((st.setData e s d).data e' s').getD {} =
      if e' = e ∧ s' = s then d else (st.data e' s').getD {} := by
  rw [State.data_setData he]
  split_ifs
  · rfl
  · rfl

lemma updateAt_self {α : Type} (g : ℕ → F → α) (e : ℕ) (s : F) : updateAt g e s (g e s) = g := by
  funext e' s'
  simp only [updateAt]
  split_ifs with hes
  · rw [hes.1, hes.2]
  · rfl

/-- A write to one signal -/
lemma Recalls.setData {st : State F} {p : Past F} (h : Recalls st p) {e : ℕ} {s : F}
    {d : SignalData F} (he : (st.emitters e).isSome) (htracked : d.Tracked (p.began e s) st.heap) :
    Recalls (st.setData e s d)
      { p with connections := updateAt p.connections e s (clean d.slots) } := by
  refine ⟨fun e' s' => ?_, fun e' s' => ?_, h.keys, h.alive, h.called⟩
  · rw [slots_setData he]
    simp only [updateAt]
    split_ifs
    · rfl
    · exact h.connections e' s'
  · rw [getD_setData he]
    split_ifs with hes
    · rw [hes.1, hes.2]
      exact htracked
    · exact h.tracked e' s'

/-- A write to one signal that changes no connection -/
lemma Recalls.setData_same {st : State F} {p : Past F} (h : Recalls st p) {e : ℕ} {s : F}
    {d : SignalData F} (he : (st.emitters e).isSome) (hclean : clean d.slots = p.connections e s)
    (htracked : d.Tracked (p.began e s) st.heap) : Recalls (st.setData e s d) p := by
  have hset := h.setData he htracked
  rwa [hclean, updateAt_self] at hset

omit [LinearOrder F] in
lemma clean_leave (d : SignalData F) (next : Option ℕ) : clean (d.leave next).slots = clean d.slots := by
  rw [SignalData.leave]
  split_ifs
  · exact clean_of_connected fun c hc => connected_of_mem_clean hc
  · rfl

/-! ## Emissions -/

/-- The loop of `emit` calls an item that is connected, was so when the emission began, and comes
    after those that were called. -/
lemma resume_recalls {st st' : State F} {fr : SignalActivation F} {rest : List (ℕ × Slot F)}
    {d : SignalData F} {p : Past F} {called : List ℕ} (h : Recalls st p)
    (hd : st.data fr.emitter fr.signal = some d) (hon : d.activation ≠ none)
    (hinv : fr.invalidated = false) (hrest : ∀ c ∈ rest, c ∈ d.slots)
    (hcalled : called.Pairwise (· < ·)) (hlt : ∀ i ∈ called, ∀ c ∈ rest, i < c.1)
    (hknown : ∀ i ∈ called, i ∈ p.began fr.emitter fr.signal)
    (hexec : resume st fr rest = some st') :
    (∃ i ∈ (p.connections fr.emitter fr.signal).map Prod.fst,
      st'.frames = { fr with i } :: st.frames ∧ Recalls st' { p with
        activations := ⟨fr.emitter, fr.signal, called ++ [i], false⟩ :: p.activations }) ∨
    (st'.frames = st.frames ∧ Recalls st' p) := by
  obtain ⟨em, hem, -⟩ := State.emitter_of_data hd
  have htracked := h.tracked fr.emitter fr.signal
  have hconn := h.connections fr.emitter fr.signal
  rw [hd, Option.getD_some] at htracked
  rw [State.slots_of_data hd] at hconn
  rw [resume] at hexec
  cases hfind : rest.find? fun c => c.2.state = .connected with
  | some c =>
    simp only [hfind] at hexec
    split_ifs at hexec
    obtain rfl := Option.some.inj hexec
    have hc := List.mem_of_find?_eq_some hfind
    have hstate : c.2.state = .connected := by simpa using List.find?_some hfind
    refine Or.inl ⟨c.1, ?_, rfl, h.connections, h.tracked, ?_, ?_, ?_⟩
    · rw [hconn]
      exact List.mem_map_of_mem (mem_clean_of_live (hrest c hc) hstate)
    · simp only [List.map_cons, h.keys, List.getLast?_append, List.getLast?_singleton,
        Option.some_or]
    · rw [alive_live (by exact hinv), h.alive]
      rfl
    · rintro a ha
      rcases List.mem_cons.mp ha with rfl | ha
      · refine ⟨?_, fun _ i hi => ?_⟩
        · rw [List.pairwise_append]
          refine ⟨hcalled, List.pairwise_singleton _ _, fun i hi j hj => ?_⟩
          rw [List.mem_singleton.mp hj]
          exact hlt i hi c hc
        · rcases List.mem_append.mp hi with hi | hi
          · exact hknown i hi
          · rw [List.mem_singleton.mp hi]
            exact htracked.known hon c (hrest c hc) hstate
      · exact h.called a ha
  | none =>
    simp only [hfind, hd] at hexec
    obtain rfl := Option.some.inj hexec
    exact Or.inr ⟨rfl, h.setData_same (Option.isSome_of_mem hem)
      ((clean_leave d fr.next).trans hconn.symm) (htracked.leave hon fr.next)⟩

/-- The outermost emission of a signal begins with the connections there are. -/
lemma Recalls.begin {st : State F} {p : Past F} (h : Recalls st p)
    (hun : Unwinds st.items st.activation st.frames) (e : ℕ) (s : F) :
    Recalls st { p with
      began := if p.running e s then p.began
        else updateAt p.began e s ((p.connections e s).map Prod.fst) } := by
  have hrunning := h.running hun e s
  cases hp : p.running e s with
  | true => exact h
  | false =>
    refine ⟨h.connections, fun e' s' => ?_, h.keys, h.alive, fun a ha => ⟨(h.called a ha).1, ?_⟩⟩
    · have htracked := h.tracked e' s'
      by_cases hes : e' = e ∧ s' = s
      · refine ⟨htracked.ordered, htracked.fresh, htracked.quiet, fun hon => absurd ?_ hon⟩
        rw [hp, State.activation, ← hes.1, ← hes.2] at hrunning
        cases hd : st.data e' s' with
        | none => rfl
        | some d =>
          rw [hd] at hrunning
          exact Option.not_isSome_iff_eq_none.mp (Bool.eq_false_iff.mp hrunning)
      · simpa only [Bool.false_eq_true, if_false, updateAt, if_neg hes] using htracked
    · intro hgone i hi
      have hes : ¬ (a.emitter = e ∧ a.signal = s) := by
        intro hes
        have hany : p.running e s = true :=
          List.any_eq_true.mpr ⟨a, ha, by simp [hes, hgone]⟩
        exact Bool.false_ne_true (hp.symm.trans hany)
      simp only [Bool.false_eq_true, if_false, updateAt, if_neg hes]
      exact (h.called a ha).2 hgone i hi

/-- What is called is a connection, and the last thing that the innermost emission called. -/
def CallsConnected (p : Past F) (st st' : State F) (op : Op F) : Prop :=
  ∀ i ∈ calls st st' op, ∃ a as, (p.next st st' op).activations = a :: as ∧
    a.called.getLast? = some i ∧ i ∈ (p.connections a.emitter a.signal).map Prod.fst

lemma emit_recalls {st st' : State F} {p : Past F} (h : Recalls st p)
    (hun : Unwinds st.items st.activation st.frames) {e : ℕ} {s : F}
    (hexec : emit st e s = some st') :
    Recalls st' (p.next st st' (.emit e s)) ∧ CallsConnected p st st' (.emit e s) := by
  have hbegin := h.begin hun e s
  have hnone : st'.frames = st.frames → calls st st' (.emit e s) = none := by
    intro hfr
    rw [calls, hfr, if_neg (Nat.lt_irrefl _)]
  obtain ⟨he, ⟨-, rfl⟩ | ⟨d, hd, hresume⟩⟩ := emit_cases hexec
  · have hcalls := hnone rfl
    refine ⟨by simp only [Past.next, hcalls]; exact hbegin, fun i hi => ?_⟩
    rw [hcalls] at hi
    exact absurd hi.symm (Option.some_ne_none i)
  · have htracked := hbegin.tracked e s
    rw [hd, Option.getD_some] at htracked
    have hconn : clean d.slots = p.connections e s := by
      rw [h.connections, State.slots_of_data hd]
    have hrunning := h.running hun e s
    rw [State.activation_of_data hd] at hrunning
    have hactive : SignalData.Tracked { d with activation := some st.frames.length }
        ((if p.running e s then p.began
          else updateAt p.began e s ((p.connections e s).map Prod.fst)) e s) st.heap := by
      refine htracked.activate _ fun c hc hstate => ?_
      cases hp : p.running e s with
      | true =>
        rw [hp] at htracked hrunning
        exact htracked.known (Option.isSome_iff_ne_none.mp hrunning) c hc hstate
      | false =>
        simp only [Bool.false_eq_true, if_false, updateAt, and_self, if_true]
        rw [← hconn]
        exact List.mem_map_of_mem (mem_clean_of_live hc hstate)
    have hset := hbegin.setData_same (d := { d with activation := some st.frames.length }) he hconn
      hactive
    have hnew : State.data (st.setData e s { d with activation := some st.frames.length }) e s =
        some { d with activation := some st.frames.length } := by
      rw [State.data_setData he, if_pos ⟨rfl, rfl⟩]
    rcases @resume_recalls _ _ _ _ { emitter := e, signal := s, next := d.activation } _
      { d with activation := some st.frames.length } _ [] hset hnew (Option.some_ne_none _) rfl
      (fun c hc => hc) List.Pairwise.nil (fun _ hi => absurd hi List.not_mem_nil)
      (fun _ hi => absurd hi List.not_mem_nil) hresume with ⟨i, hi, hfr, hrecalls⟩ | ⟨hfr, hrecalls⟩
    · have hcalls : calls st st' (.emit e s) = some i := by
        rw [calls, hfr]
        exact if_pos (Nat.lt_succ_self _)
      refine ⟨by simp only [Past.next, hcalls]; exact hrecalls, fun i' hi' => ?_⟩
      obtain rfl := Option.some.inj (hcalls.symm.trans hi')
      refine ⟨⟨e, s, [i], false⟩, p.activations, by simp only [Past.next, hcalls], rfl, hi⟩
    · have hcalls := hnone hfr
      refine ⟨by simp only [Past.next, hcalls]; exact hrecalls, fun i hi => ?_⟩
      rw [hcalls] at hi
      exact absurd hi.symm (Option.some_ne_none i)

omit [LinearOrder F] in
lemma after_eq {i : ℕ} {cs rest : List (ℕ × Slot F)} (h : after i cs = some rest) :
    ∃ before c, cs = before ++ c :: rest ∧ c.1 = i := by
  induction cs with
  | nil => exact absurd h.symm (Option.some_ne_none rest)
  | cons c cs ih =>
    rw [after] at h
    split_ifs at h with hc
    · obtain rfl := Option.some.inj h
      exact ⟨[], c, rfl, hc⟩
    · obtain ⟨before, c', hcs, hc'⟩ := ih h
      exact ⟨c :: before, c', by rw [hcs, List.cons_append], hc'⟩

omit [LinearOrder F] in
/-- The last of some numbers in order is the greatest. -/
lemma le_getLast {l : List ℕ} (h : l.Pairwise (· < ·)) {i j : ℕ} (hlast : l.getLast? = some j)
    (hi : i ∈ l) : i ≤ j := by
  obtain ⟨l', rfl⟩ := List.getLast?_eq_some_iff.mp hlast
  rcases List.mem_append.mp hi with hi | hi
  · exact Nat.le_of_lt ((List.pairwise_append.mp h).2.2 i hi j List.mem_cons_self)
  · exact Nat.le_of_eq (List.mem_singleton.mp hi)

lemma ret_recalls {st st' : State F} {p : Past F} (h : Recalls st p)
    (hun : Unwinds st.items st.activation st.frames) (hexec : ret st = some st') :
    Recalls st' (p.next st st' .ret) ∧ CallsConnected p st st' .ret := by
  obtain ⟨hconn, htracked, hkeys, halive, hcalled⟩ := h
  obtain ⟨fr, frs, hframes, hcases⟩ := ret_cases hexec
  obtain ⟨connections, began, activations⟩ := p
  cases activations with
  | nil =>
    rw [hframes] at hkeys
    exact absurd hkeys (List.cons_ne_nil _ _)
  | cons a as =>
    simp only [hframes, List.map_cons, List.cons.injEq, Prod.mk.injEq] at hkeys
    obtain ⟨⟨hem, hsig, hlast⟩, hkeys⟩ := hkeys
    have hnone : st'.frames.length = frs.length → calls st st' .ret = none := by
      intro hfr
      rw [calls, hfr, hframes]
      exact if_neg (Nat.ne_of_lt (Nat.lt_succ_self _))
    have hnocall : st'.frames.length = frs.length →
        CallsConnected ⟨connections, began, a :: as⟩ st st' .ret := by
      intro hfr i hi
      rw [hnone hfr] at hi
      exact absurd hi.symm (Option.some_ne_none i)
    have hnext : st'.frames.length = frs.length →
        Past.next ⟨connections, began, a :: as⟩ st st' .ret = ⟨connections, began, as⟩ := by
      intro hfr
      simp only [Past.next, hnone hfr, List.tail_cons]
    rw [hframes] at hun halive
    have hcalled' := fun b hb => hcalled b (List.mem_cons_of_mem a hb)
    obtain ⟨hinv, rfl⟩ | ⟨hlive, d, rest, hd, hafter, hresume⟩ := hcases
    · have hlen := invalidate_length (fun j => fr.next = some j) frs
      rw [alive_dead hinv, List.map_cons, List.cons.injEq] at halive
      refine ⟨?_, hnocall hlen⟩
      rw [hnext hlen]
      refine ⟨hconn, htracked, ?_, halive.2, hcalled'⟩
      rw [invalidate_map fun _ _ => rfl]
      exact hkeys
    · rw [alive_live hlive, List.map_cons, List.cons.injEq] at halive
      have hgone : a.gone = false := by simpa using halive.1.symm
      cases hun with
      | dead hdead _ => exact absurd (hlive.symm.trans hdead) Bool.false_ne_true
      | live _ htop hi _ =>
        obtain ⟨d', hd', hact⟩ := Option.bind_eq_some_iff.mp htop
        obtain rfl := Option.some.inj (hd.symm.trans hd')
        obtain ⟨before, c, hslots, hc⟩ := after_eq hafter
        obtain ⟨hordered, hknown⟩ := hcalled a List.mem_cons_self
        have hitems := htracked fr.emitter fr.signal
        rw [hd, Option.getD_some] at hitems
        have hlt : ∀ i ∈ a.called, ∀ c' ∈ rest, i < c'.1 := by
          intro i hi c' hc'
          have hle : i ≤ fr.i := le_getLast hordered hlast.symm hi
          have hsorted := hitems.ordered
          rw [hslots, List.map_append, List.pairwise_append, List.map_cons,
            List.pairwise_cons] at hsorted
          rw [← hc] at hle
          exact Nat.lt_of_le_of_lt hle (hsorted.2.1.1 c'.1 (List.mem_map_of_mem hc'))
        have hsub : ∀ c' ∈ rest, c' ∈ d.slots := by
          intro c' hc'
          rw [hslots]
          exact List.mem_append_right _ (List.mem_cons_of_mem _ hc')
        have hbelow : Recalls { st with frames := frs } ⟨connections, began, as⟩ :=
          ⟨hconn, htracked, hkeys, halive.2, hcalled'⟩
        rcases resume_recalls hbelow hd (by rw [hact]; exact Option.some_ne_none _) hlive hsub
          hordered hlt (fun i hi => by rw [hem, hsig]; exact hknown hgone i hi) hresume with
          ⟨i, hi, hfr, hrecalls⟩ | ⟨hfr, hrecalls⟩
        · have hcalls : calls st st' .ret = some i := by
            rw [calls, hfr, hframes]
            exact if_pos rfl
          rw [hem, hsig, ← hgone] at hrecalls
          refine ⟨by simp only [Past.next, hcalls]; exact hrecalls, fun i' hi' => ?_⟩
          obtain rfl := Option.some.inj (hcalls.symm.trans hi')
          refine ⟨{ a with called := a.called ++ [i] }, as, by simp only [Past.next, hcalls],
            by simp, ?_⟩
          rw [hem, hsig] at hi
          exact hi
        · rw [hnext (congrArg _ hfr)]
          exact ⟨hrecalls, hnocall (congrArg _ hfr)⟩

/-! ## Connections -/

omit [LinearOrder F] in
lemma SignalData.Tracked.mono {d : SignalData F} {began : List ℕ} {heap heap' : ℕ}
    (h : d.Tracked began heap) (hle : heap ≤ heap') : d.Tracked began heap' :=
  ⟨h.ordered, fun i hi => Nat.lt_of_lt_of_le (h.fresh i hi) hle, h.quiet, h.known⟩

lemma connect_recalls {st st' : State F} {p : Past F} (h : Recalls st p) {e l o : ℕ} {s f : F}
    (hexec : connect st e s l o f = some st') :
    Recalls st' (p.next st st' (.connect e s l o f)) := by
  obtain ⟨he, -, d, hd, rfl⟩ := connect_cases hexec
  have htracked := h.tracked e s
  have hconn := h.connections e s
  rw [slots_getD, ← hd] at hconn
  rw [← hd] at htracked
  have hstate : d.activation ≠ none →
      (if d.activation.isSome then SlotState.connecting else .connected) ≠ .connected := by
    intro hon
    rw [if_pos (Option.isSome_iff_ne_none.mpr hon)]
    simp
  have hnew := htracked.connect
    ⟨l, o, f, if d.activation.isSome then .connecting else .connected⟩ hstate
  have hclean : clean (d.slots ++ [(st.heap,
      ⟨l, o, f, if d.activation.isSome then .connecting else .connected⟩)]) =
      p.connections e s ++ [(st.heap, ⟨l, o, f, .connected⟩)] := by
    rw [clean_append, hconn, clean_cons, if_neg]
    · rfl
    · split_ifs <;> simp
  refine ⟨fun e' s' => ?_, fun e' s' => ?_, h.keys, h.alive, h.called⟩
  · show updateAt p.connections e s _ e' s' = clean (State.slots (State.setData st e s _) e' s')
    rw [slots_setData he, updateAt]
    by_cases hes : e' = e ∧ s' = s
    · rw [if_pos hes, if_pos hes]
      exact hclean.symm
    · rw [if_neg hes, if_neg hes]
      exact h.connections e' s'
  · show (((State.setData st e s _).data e' s').getD {}).Tracked _ (st.heap + 1)
    rw [getD_setData he]
    by_cases hes : e' = e ∧ s' = s
    · rw [if_pos hes, hes.1, hes.2]
      exact hnew
    · rw [if_neg hes]
      exact (h.tracked e' s').mono (Nat.le_succ _)

lemma disconnect_recalls {st st' : State F} {p : Past F} (h : Recalls st p) (hset : Settled st)
    {e l : ℕ} {s f : F} (hfirst : ∀ d ∈ st.data e s, d.activation ≠ none → FirstLive l f d.slots)
    (hexec : disconnect st e s l f = some st') :
    Recalls st' (p.next st st' (.disconnect e s l f)) := by
  have hconn := h.connections e s
  obtain ⟨he, ⟨hd, rfl⟩ | ⟨d, listeners, hd, rfl⟩⟩ := disconnect_cases hexec
  · have hnil : (p.connections e s).eraseP (refers l f) = p.connections e s := by
      rw [hconn, slots_getD, hd]
      rfl
    simp only [Past.next, hnil, updateAt_self]
    exact h
  · have htracked := h.tracked e s
    rw [hd, Option.getD_some] at htracked
    rw [State.slots_of_data hd] at hconn
    have hsettled := hset e s d hd
    have hlive : FirstLive l f d.slots := by
      by_cases ha : d.activation = none
      · exact hsettled.firstLive ha l f
      · exact hfirst d hd ha
    have hclean : clean (d.detach l f).slots = (p.connections e s).eraseP (refers l f) := by
      rw [hconn]
      refine clean_detachFirst hlive fun hoff => hsettled (Or.inl ?_)
      exact Option.not_isSome_iff_eq_none.mp (Bool.eq_false_iff.mp hoff)
    have hdone := h.setData he (htracked.detach l f)
    rw [hclean] at hdone
    exact ⟨hdone.connections, hdone.tracked, hdone.keys, hdone.alive, hdone.called⟩

/-- A state inside `~Listener`: the connections of other listeners are what they were. -/
structure Leaving (st₀ : State F) (p : Past F) (listener : ℕ) (st : State F) : Prop where
  frames : st.frames = st₀.frames
  tracked : ∀ e s, ((st.data e s).getD {}).Tracked (p.began e s) st₀.heap
  heap : st.heap = st₀.heap
  others : ∀ e s, (clean (st.slots e s)).filter (fun c => c.2.receiver ≠ listener) =
    (clean (st₀.slots e s)).filter fun c => c.2.receiver ≠ listener

lemma Leaving.step {st₀ st st' : State F} {p : Past F} {l e : ℕ} {x : Signal F}
    (h : Leaving st₀ p l st) (hexec : dropSlot l e (some st) x = some st') :
    Leaving st₀ p l st' := by
  obtain ⟨he, ⟨-, rfl⟩ | ⟨d, hd, rfl⟩⟩ := dropSlot_cases hexec
  · exact h
  · refine ⟨h.frames, fun e' s' => ?_, h.heap, fun e' s' => ?_⟩
    · rw [getD_setData he]
      split_ifs with hes
      · have htracked := h.tracked e x.signal
        rw [hd, Option.getD_some] at htracked
        rw [hes.1, hes.2]
        exact htracked.detach l x.slot
      · exact h.tracked e' s'
    · rw [slots_setData he, ← h.others e' s']
      split_ifs with hes
      · rw [hes.1, hes.2, State.slots_of_data hd]
        exact clean_detachFirst_others _ l x.slot d.slots
      · rfl

lemma destroyListener_recalls {st st' : State F} {p : Past F} (h : Recalls st p) {l : ℕ}
    (hinv : Inv st') (hexec : destroyListener st l = some st') :
    Recalls st' (p.next st st' (.destroyListener l)) := by
  obtain ⟨li, hli, hexec⟩ := Option.bind_eq_some_iff.mp hexec
  obtain ⟨st₁, hst₁, hexec⟩ := Option.bind_eq_some_iff.mp hexec
  have hleaving : Leaving st p l st₁ := by
    refine foldl_some (P := Leaving st p l) (fun e => foldl_none (fun _ => rfl) e.2) ?_
      ⟨rfl, h.tracked, rfl, fun _ _ => rfl⟩ hst₁
    intro st₂ e st₃ hst₂ hst₃
    exact foldl_some (P := Leaving st p l) (fun _ => rfl) (fun _ _ _ h h' => h.step h') hst₂ hst₃
  obtain rfl := Option.some.inj hexec
  have hnone : ∀ e s, ∀ c ∈ clean (st₁.slots e s), c.2.receiver ≠ l := by
    intro e s c hc hl
    have hcount : liveSlots l c.2.slot (st₁.slots e s) = 0 := by
      refine (hinv.counts e s l c.2.slot).trans ?_
      simp [State.signals]
    have hrefers := clean_refers hcount c hc
    rw [refers_iff.mpr ⟨hl, rfl⟩] at hrefers
    exact absurd hrefers.symm Bool.false_ne_true
  refine ⟨fun e s => ?_, fun e s => ?_, ?_, ?_, h.called⟩
  · show (p.connections e s).filter _ = clean (st₁.slots e s)
    rw [h.connections, ← hleaving.others, List.filter_eq_self]
    intro c hc
    simpa using hnone e s c hc
  · show ((st₁.data e s).getD {}).Tracked _ st₁.heap
    rw [hleaving.heap]
    exact hleaving.tracked e s
  · show st₁.frames.map _ = _
    rw [hleaving.frames]
    exact h.keys
  · show Nstd.Callback.alive st₁.frames = _
    rw [hleaving.frames]
    exact h.alive

lemma destroyEmitter_recalls {st st' : State F} {p : Past F} (h : Recalls st p)
    (hun : Unwinds st.items st.activation st.frames) {e : ℕ}
    (hexec : destroyEmitter st e = some st') :
    Recalls st' (p.next st st' (.destroyEmitter e)) := by
  obtain ⟨hdata, hheap, q, hq, hfr⟩ := destroyEmitter_keeps hexec
  refine ⟨fun e' s => ?_, fun e' s => ?_, ?_, ?_, ?_⟩
  · rw [slots_getD, hdata]
    simp only [Past.next]
    split_ifs
    · rfl
    · rw [← slots_getD]
      exact h.connections e' s
  · rw [hdata, hheap]
    split_ifs
    · exact .empty _ _
    · exact h.tracked e' s
  · rw [hfr, invalidate_map fun _ _ => rfl, h.keys]
    simp only [Past.next, List.map_map]
    rfl
  · have hemitters : st.frames.map (fun fr => fr.emitter) = p.activations.map fun a => a.emitter := by
      have hkeys := congrArg (List.map fun k : ℕ × F × Option ℕ => k.1) h.keys
      rwa [List.map_map, List.map_map] at hkeys
    rw [hfr, alive_drop hun e hq, h.alive, hemitters]
    simp only [Past.next, List.map_map]
    generalize p.activations = as
    induction as with
    | nil => rfl
    | cons a as ih =>
      rw [List.map_cons, List.map_cons, List.zipWith_cons_cons, ih]
      simp
  · rintro a ha
    obtain ⟨b, hb, rfl⟩ := List.mem_map.mp ha
    refine ⟨(h.called b hb).1, fun hgone => (h.called b hb).2 ?_⟩
    have hgone' : (b.gone || decide (b.emitter = e)) = false := hgone
    exact (Bool.or_eq_false_iff.mp hgone').1

/-! ## Runs -/

lemma recalls_start : Recalls (init : State F) .start :=
  ⟨fun _ _ => rfl, fun _ _ => .empty _ _, rfl, rfl, fun _ ha => absurd ha List.not_mem_nil⟩

/-- **One operation**: the state goes with the past again, and what is called is connected. -/
theorem exec_recalls {st st' : State F} {p : Past F} (h : Recalls st p) (hinv : Inv st) {op : Op F}
    (hallowed : Allowed st op) (hun : Undisturbed st op) (hinv' : Inv st')
    (hexec : exec st op = some st') :
    Recalls st' (p.next st st' op) ∧ CallsConnected p st st' op := by
  cases op with
  | newEmitter e =>
    have hnone : st.emitters e = none := Option.isNone_iff_eq_none.mp hallowed
    have hdata : ∀ e' s, State.data
        { st with emitters := Function.update st.emitters e (some .empty) } e' s = st.data e' s := by
      intro e' s
      by_cases hee : e' = e <;> simp [State.data, hee, hnone]
    rw [← Option.some.inj hexec]
    refine ⟨⟨fun e' s => ?_, fun e' s => ?_, h.keys, h.alive, h.called⟩,
      fun i hi => absurd hi.symm (Option.some_ne_none i)⟩
    · rw [slots_getD, hdata, ← slots_getD]
      exact h.connections e' s
    · rw [hdata]
      exact h.tracked e' s
  | newListener l =>
    rw [← Option.some.inj hexec]
    exact ⟨⟨h.connections, h.tracked, h.keys, h.alive, h.called⟩,
      fun i hi => absurd hi.symm (Option.some_ne_none i)⟩
  | connect e s l o f =>
    exact ⟨connect_recalls h hexec, fun i hi => absurd hi.symm (Option.some_ne_none i)⟩
  | disconnect e s l f =>
    exact ⟨disconnect_recalls h hinv.settled hun hexec,
      fun i hi => absurd hi.symm (Option.some_ne_none i)⟩
  | emit e s => exact emit_recalls h hinv.unwinds hexec
  | ret => exact ret_recalls h hinv.unwinds hexec
  | destroyListener l =>
    exact ⟨destroyListener_recalls h hinv' hexec,
      fun i hi => absurd hi.symm (Option.some_ne_none i)⟩
  | destroyEmitter e =>
    exact ⟨destroyEmitter_recalls h hinv.unwinds hexec,
      fun i hi => absurd hi.symm (Option.some_ne_none i)⟩

lemma Remembers.reaches {cond : State F → Op F → Prop} {st : State F} {p : Past F}
    (h : Remembers cond st p) : Reaches cond st := by
  induction h with
  | init => exact .init
  | step _ hallowed hcond hexec ih => exact ih.step hallowed hcond hexec

lemma Remembers.recalls {st : State F} {p : Past F} (h : Remembers Undisturbed st p) : Recalls st p := by
  induction h with
  | init => exact recalls_start
  | step hrun hallowed hun hexec ih =>
    exact (exec_recalls ih hrun.reaches.inv hallowed hun
      (hrun.reaches.step hallowed hun hexec).inv hexec).1

/-- **Emissions follow the history**, in every state that a program reaches with operations that meet
    `Undisturbed`, and with its past.
    * What an emission has called is in the order of connection, without repetition, and was
      connected when the outermost running emission of its signal began.
    * Whenever a signal is not emitted its items are the connections there are, those among them that
      were made in an emission; all are connected, and the signal is not dirty.
    * Every further operation that meets the condition returns; what it calls is a connection at that
      time. -/
theorem emissions_follow {st : State F} {p : Past F} (h : Remembers Undisturbed st p) :
    (∀ a ∈ p.activations, a.called.Pairwise (· < ·) ∧
      (a.gone = false → ∀ i ∈ a.called, i ∈ p.began a.emitter a.signal)) ∧
    (∀ e s, p.running e s = false → st.slots e s = p.connections e s ∧
      (∀ c ∈ st.slots e s, c.2.state = .connected) ∧ ∀ d ∈ st.data e s, d.dirty = false) ∧
    ∀ op, Allowed st op → Undisturbed st op →
      ∃ st', exec st op = some st' ∧ CallsConnected p st st' op := by
  have hrecalls := h.recalls
  have hinv := h.reaches.inv
  refine ⟨hrecalls.called, fun e s hoff => ?_, fun op hallowed hun => ?_⟩
  · have hact : st.activation e s = none := by
      have hrunning := hrecalls.running hinv.unwinds e s
      rw [hoff] at hrunning
      exact Option.not_isSome_iff_eq_none.mp (Bool.eq_false_iff.mp hrunning)
    have hstates : ∀ c ∈ st.slots e s, c.2.state = .connected := by
      intro c hc
      obtain ⟨d, hd⟩ := State.data_of_mem_slots hc
      rw [State.slots_of_data hd] at hc
      rw [State.activation_of_data hd] at hact
      exact hinv.settled e s d hd (Or.inl hact) c hc
    refine ⟨?_, hstates, fun d hd => ?_⟩
    · rw [hrecalls.connections, clean_of_connected hstates]
    · have htracked := hrecalls.tracked e s
      rw [Option.mem_def.mp hd, Option.getD_some] at htracked
      rw [State.activation_of_data hd] at hact
      exact htracked.quiet hact
  · obtain ⟨st', hexec, hinv'⟩ := exec_spec hinv hallowed hun
    exact ⟨st', hexec, (exec_recalls hrecalls hinv hallowed hun hinv' hexec).2⟩

/-- Several operations in a row, with the past -/
def Past.nextAll (st : State F) (p : Past F) : List (Op F) → Option (State F × Past F)
  | [] => some (st, p)
  | op :: ops => (exec st op).bind fun st' => nextAll st' (p.next st st' op) ops

lemma Remembers.nextAll {cond : State F → Op F → Prop} {st : State F} {p : Past F}
    {ops : List (Op F)} {r : State F × Past F} (h : Remembers cond st p)
    (hmeet : AllMeet cond st ops) (hrun : p.nextAll st ops = some r) :
    Remembers cond r.1 r.2 := by
  induction ops generalizing st p with
  | nil => rwa [← Option.some.inj hrun]
  | cons op ops ih =>
    obtain ⟨st₁, hst₁, hrest⟩ := Option.bind_eq_some_iff.mp hrun
    exact ih (h.step hmeet.1 hmeet.2.1 hst₁) (hmeet.2.2 st₁ hst₁) hrest

/-- A slot that connects another function in an emission: that one is called in the next emission
    only, and is connected when this one is over. -/
theorem emissions_follow_connect : ∃ (st : State ℕ) (p : Past ℕ),
    Past.nextAll init .start [.newEmitter 0, .newListener 1, .connect 0 7 1 1 5, .emit 0 7,
      .connect 0 7 1 1 6, .ret] = some (st, p) ∧ (p.connections 0 7).length = 2 ∧
      st.slots 0 7 = p.connections 0 7 := by
  have hmeet : AllMeet Undisturbed (init : State ℕ) [.newEmitter 0, .newListener 1,
    .connect 0 7 1 1 5, .emit 0 7, .connect 0 7 1 1 6, .ret] := by decide +kernel
  have hrun : (Past.nextAll (init : State ℕ) .start [.newEmitter 0, .newListener 1,
    .connect 0 7 1 1 5, .emit 0 7, .connect 0 7 1 1 6, .ret]).any fun r =>
      decide ((r.2.connections 0 7).length = 2 ∧ r.2.running 0 7 = false) := by decide +kernel
  obtain ⟨⟨st, p⟩, hst, hp⟩ := (Option.any_eq_true _ _).mp hrun
  obtain ⟨hlength, hoff⟩ := of_decide_eq_true hp
  exact ⟨st, p, hst, hlength,
    ((emissions_follow (Remembers.init.nextAll hmeet hst)).2.1 0 7 hoff).1⟩

/-- **A function that was connected twice and disconnected twice** in an emission is called by it once
    more: both searches end at the same item. -/
theorem disconnected_called : ∃ (st : State ℕ) (p : Past ℕ),
    Remembers (fun _ _ => True) st p ∧ p.began 0 7 = [0, 1] ∧ (p.connections 0 7).length = 0 ∧
      ∃ st', exec st .ret = some st' ∧ calls st st' .ret = some 1 := by
  have hmeet : AllMeet (fun _ _ => True) (init : State ℕ) [.newEmitter 0, .newListener 1,
    .connect 0 7 1 1 5, .connect 0 7 1 1 5, .emit 0 7, .disconnect 0 7 1 5,
    .disconnect 0 7 1 5] := by decide +kernel
  have hrun : (Past.nextAll (init : State ℕ) .start [.newEmitter 0, .newListener 1,
    .connect 0 7 1 1 5, .connect 0 7 1 1 5, .emit 0 7, .disconnect 0 7 1 5,
    .disconnect 0 7 1 5]).any fun r => decide (r.2.began 0 7 = [0, 1] ∧
      (r.2.connections 0 7).length = 0) && (exec r.1 .ret).any fun st' =>
        decide (calls r.1 st' .ret = some 1) := by decide +kernel
  obtain ⟨⟨st, p⟩, hst, hp⟩ := (Option.any_eq_true _ _).mp hrun
  obtain ⟨hpast, hret⟩ := Bool.and_eq_true_iff.mp hp
  obtain ⟨hbegan, hlength⟩ := of_decide_eq_true hpast
  obtain ⟨st', hst', hcalls⟩ := (Option.any_eq_true _ _).mp hret
  exact ⟨st, p, Remembers.init.nextAll hmeet hst, hbegan, hlength, st', hst',
    of_decide_eq_true hcalls⟩

end Nstd.Callback
