import Mathlib.Logic.Function.Basic
import Nstd.Core.SortedAssoc

/-!
# Emitters, listeners and running emissions

The state behind `Callback`: emitters with their slots, listeners with the connections they take
part in, and the emissions that are in progress.

* Emitters and listeners are known by their addresses, and an address can be used again after its
  object is gone.  A `Map` is a `SortedMap`, as `Map.runs_correct` allows.
* An item of a `List` has an identity (the address an iterator holds), drawn from `State.heap`.
* `State.frames` are the `SignalActivation`s on the call stack, the innermost first.  A frame is
  known by the number of frames under it.  Between two operations every frame is inside the call
  of a slot, so that whatever is done in a slot is one more operation: a running emission goes on
  with `ret`, which is the return from that call.
* An operation has no result where the code would use an object, an item or a frame that is gone.
-/

namespace Nstd.Callback

/-- `Slot::State` -/
inductive SlotState
  | connected
  | connecting
  | disconnected
  deriving DecidableEq, Repr

/-- `Emitter::Slot` -/
structure Slot (F : Type) where
  receiver : ℕ
  object : ℕ
  slot : F
  state : SlotState

/-- `Emitter::SignalData`, with the identity of each item of `slots` -/
structure SignalData (F : Type) where
  activation : Option ℕ := none
  slots : List (ℕ × Slot F) := []
  dirty : Bool := false

/-- `Listener::Signal` -/
structure Signal (F : Type) where
  signal : F
  slot : F
  deriving DecidableEq

/-- A `SignalActivation` with the loop of the `emit` it belongs to: `data` is the signal's data in
    the emitter, `i` is the item whose slot is being called. -/
structure SignalActivation (F : Type) where
  emitter : ℕ
  signal : F
  next : Option ℕ
  invalidated : Bool := false
  i : ℕ := 0

variable {F : Type} [LinearOrder F]

/-- All objects of the program.  An emitter is its `signalData`, a listener its `slotData`. -/
structure State (F : Type) [LinearOrder F] where
  emitters : ℕ → Option (SortedMap F (SignalData F))
  listeners : ℕ → Option (SortedMap ℕ (List (Signal F)))
  frames : List (SignalActivation F)
  heap : ℕ

/-- No objects yet -/
def init : State F := ⟨fun _ => none, fun _ => none, [], 0⟩

/-- Does an item of `slots` hold this receiver and slot? -/
def refers (receiver : ℕ) (slot : F) (c : ℕ × Slot F) : Bool :=
  c.2.receiver = receiver ∧ c.2.slot = slot

/-- Sets `invalidated` in the frames of the given numbers. -/
def invalidate (p : ℕ → Bool) : List (SignalActivation F) → List (SignalActivation F)
  | [] => []
  | fr :: frs => { fr with invalidated := fr.invalidated || p frs.length } :: invalidate p frs

namespace State

/-- The data of a signal of an emitter -/
def data (st : State F) (emitter : ℕ) (signal : F) : Option (SignalData F) :=
  (st.emitters emitter).bind fun em => em.find signal

/-- Write the data of a signal of an emitter -/
def setData (st : State F) (emitter : ℕ) (signal : F) (d : SignalData F) : State F :=
  let em' := (st.emitters emitter).map fun em => em.insert signal d
  { st with emitters := Function.update st.emitters emitter em' }

/-- The entries of a listener for an emitter.  `*slotData.end()` is the value of the map's
    `endItem`, which is an empty list. -/
def signals (st : State F) (listener emitter : ℕ) : List (Signal F) :=
  ((st.listeners listener).bind fun li => li.find emitter).getD []

/-- Write the entries of a listener for an emitter -/
def setSignals (st : State F) (listener emitter : ℕ) (l : List (Signal F)) : State F :=
  let li' := (st.listeners listener).map fun li => li.insert emitter l
  { st with listeners := Function.update st.listeners listener li' }

end State

/-- The search in `slots` that `disconnect` and `~Listener` share: the first item with this
    receiver and slot is marked while the signal is being emitted and removed otherwise. -/
def detachFirst (active : Bool) (receiver : ℕ) (slot : F) : List (ℕ × Slot F) → List (ℕ × Slot F)
  | [] => []
  | c :: cs =>
    if refers receiver slot c then
      if active then (c.1, { c.2 with state := .disconnected }) :: cs else cs
    else c :: detachFirst active receiver slot cs

/-- Both `i->state = disconnected; dirty = true` and `slots.remove(i)` -/
def SignalData.detach (d : SignalData F) (receiver : ℕ) (slot : F) : SignalData F :=
  { d with
    slots := detachFirst d.activation.isSome receiver slot d.slots
    dirty := d.dirty || (d.activation.isSome && d.slots.any (refers receiver slot)) }

/-- `Callback::connect` -/
def connect (st : State F) (emitter : ℕ) (signal : F) (receiver object : ℕ) (slot : F) :
    Option (State F) :=
  match st.emitters emitter, st.listeners receiver with
  | some em, some _ =>
    let d := (em.find signal).getD {}
    let c : Slot F :=
      { receiver, object, slot, state := if d.activation.isSome then .connecting else .connected }
    let d' := { d with slots := d.slots ++ [(st.heap, c)], dirty := d.dirty || d.activation.isSome }
    let l := st.signals receiver emitter ++ [⟨signal, slot⟩]
    some { (st.setData emitter signal d').setSignals receiver emitter l with heap := st.heap + 1 }
  | _, _ => none

/-- `Callback::disconnect` -/
def disconnect (st : State F) (emitter : ℕ) (signal : F) (receiver : ℕ) (slot : F) : Option (State F) :=
  match st.emitters emitter, st.listeners receiver with
  | some em, some li =>
    match em.find signal with
    | none => some st
    | some d =>
      let st := st.setData emitter signal (d.detach receiver slot)
      match li.find emitter with
      | none => some st
      | some l => some (st.setSignals receiver emitter (l.erase ⟨signal, slot⟩))
  | _, _ => none

/-- One round of the inner loop of `~Listener`: one entry of `slotData[emitter]` -/
def dropSlot (listener emitter : ℕ) (st : Option (State F)) (e : Signal F) : Option (State F) := do
  let st ← st
  let em ← st.emitters emitter
  match em.find e.signal with
  | none => some st
  | some d => some (st.setData emitter e.signal (d.detach listener e.slot))

/-- `Listener::~Listener`, after which the object is gone -/
def destroyListener (st : State F) (listener : ℕ) : Option (State F) := do
  let li ← st.listeners listener
  let st ← li.entries.foldl (fun st e => e.2.foldl (dropSlot listener e.1) st) (some st)
  some { st with listeners := Function.update st.listeners listener none }

/-- One round of the inner loop of `~Emitter`: one item of `data.slots` -/
def dropSignal (emitter : ℕ) (signal : F) (st : Option (State F)) (c : ℕ × Slot F) :
    Option (State F) := do
  let st ← st
  if c.2.state = .disconnected then some st
  else
    let li ← st.listeners c.2.receiver
    match li.find emitter with
    | none => some st
    | some l => some (st.setSignals c.2.receiver emitter (l.erase ⟨signal, c.2.slot⟩))

/-- One round of the outer loop of `~Emitter`: one signal -/
def dropSignalData (emitter : ℕ) (st : Option (State F)) (e : F × SignalData F) : Option (State F) :=
  e.2.slots.foldl (dropSignal emitter e.1)
    (st.map fun st => { st with frames := invalidate (fun j => e.2.activation = some j) st.frames })

/-- `Emitter::~Emitter`, after which the object is gone -/
def destroyEmitter (st : State F) (emitter : ℕ) : Option (State F) := do
  let em ← st.emitters emitter
  let st ← em.entries.foldl (dropSignalData emitter) (some st)
  some { st with emitters := Function.update st.emitters emitter none }

/-- The cleaning up after the outermost emission of a dirty signal -/
def clean (slots : List (ℕ × Slot F)) : List (ℕ × Slot F) :=
  slots.filterMap fun c =>
    match c.2.state with
    | .disconnected => none
    | .connecting => some (c.1, { c.2 with state := .connected })
    | .connected => some c

/-- What `~SignalActivation` does to the signal's data when it is still there -/
def SignalData.leave (d : SignalData F) (next : Option ℕ) : SignalData F :=
  if next = none ∧ d.dirty = true then { activation := none, slots := clean d.slots, dirty := false }
  else { d with activation := next }

/-- The items after a given one, or nothing if the item is not in the list -/
def after (i : ℕ) : List (ℕ × Slot F) → Option (List (ℕ × Slot F))
  | [] => none
  | c :: cs => if c.1 = i then some cs else after i cs

/-- The loop of `emit` from an item on: it calls the next connected slot, with the frame on the
    stack during the call, or ends with `~SignalActivation`. -/
def resume (st : State F) (fr : SignalActivation F) (rest : List (ℕ × Slot F)) : Option (State F) :=
  match rest.find? fun c => c.2.state = .connected with
  | some c =>
    if (st.listeners c.2.receiver).isSome then
      some { st with frames := { fr with i := c.1 } :: st.frames }
    else none
  | none =>
    match st.data fr.emitter fr.signal with
    | none => none
    | some d => some (st.setData fr.emitter fr.signal (d.leave fr.next))

/-- `Emitter::emit` up to the first call of a slot -/
def emit (st : State F) (emitter : ℕ) (signal : F) : Option (State F) :=
  match st.emitters emitter with
  | none => none
  | some em =>
    match em.find signal with
    | none => some st
    | some d =>
      resume (st.setData emitter signal { d with activation := some st.frames.length })
        { emitter, signal, next := d.activation } d.slots

/-- The innermost slot returns, and its `emit` goes on to the next call. -/
def ret (st : State F) : Option (State F) :=
  match st.frames with
  | [] => none
  | fr :: frs =>
    if fr.invalidated then
      some { st with frames := invalidate (fun j => fr.next = some j) frs }
    else
      match st.data fr.emitter fr.signal with
      | none => none
      | some d => (after fr.i d.slots).bind fun rest => resume { st with frames := frs } fr rest

/-- The operations of a program, at top level or inside a slot -/
inductive Op (F : Type)
  | newEmitter (emitter : ℕ)
  | newListener (listener : ℕ)
  | connect (emitter : ℕ) (signal : F) (receiver object : ℕ) (slot : F)
  | disconnect (emitter : ℕ) (signal : F) (receiver : ℕ) (slot : F)
  | emit (emitter : ℕ) (signal : F)
  | ret
  | destroyListener (listener : ℕ)
  | destroyEmitter (emitter : ℕ)

/-- One operation -/
def exec (st : State F) : Op F → Option (State F)
  | .newEmitter e => some { st with emitters := Function.update st.emitters e (some .empty) }
  | .newListener l => some { st with listeners := Function.update st.listeners l (some .empty) }
  | .connect e s l o f => connect st e s l o f
  | .disconnect e s l f => disconnect st e s l f
  | .emit e s => emit st e s
  | .ret => ret st
  | .destroyListener l => destroyListener st l
  | .destroyEmitter e => destroyEmitter st e

/-- What any program must respect: an object is made where there is none, only objects that exist
    are used, and only a running slot returns. -/
def Allowed (st : State F) : Op F → Prop
  | .newEmitter e => (st.emitters e).isNone
  | .newListener l => (st.listeners l).isNone
  | .connect e _ l _ _ => (st.emitters e).isSome ∧ (st.listeners l).isSome
  | .disconnect e _ l _ => (st.emitters e).isSome ∧ (st.listeners l).isSome
  | .emit e _ => (st.emitters e).isSome
  | .ret => st.frames ≠ []
  | .destroyListener l => (st.listeners l).isSome
  | .destroyEmitter e => (st.emitters e).isSome

instance (st : State F) : DecidablePred (Allowed st)
  | .newEmitter e => inferInstanceAs (Decidable ((st.emitters e).isNone = true))
  | .newListener l => inferInstanceAs (Decidable ((st.listeners l).isNone = true))
  | .connect e _ l _ _ =>
    inferInstanceAs (Decidable ((st.emitters e).isSome = true ∧ (st.listeners l).isSome = true))
  | .disconnect e _ l _ =>
    inferInstanceAs (Decidable ((st.emitters e).isSome = true ∧ (st.listeners l).isSome = true))
  | .emit e _ => inferInstanceAs (Decidable ((st.emitters e).isSome = true))
  | .ret => inferInstanceAs (Decidable (st.frames ≠ []))
  | .destroyListener l => inferInstanceAs (Decidable ((st.listeners l).isSome = true))
  | .destroyEmitter e => inferInstanceAs (Decidable ((st.emitters e).isSome = true))

/-- The number of items with this receiver and slot that are not marked disconnected -/
def liveSlots (receiver : ℕ) (slot : F) (slots : List (ℕ × Slot F)) : ℕ :=
  slots.countP fun c => refers receiver slot c && c.2.state ≠ .disconnected

/-- The search of `detachFirst` ends at an item that is not marked disconnected, unless there is
    no such item for this receiver and slot. -/
def FirstLive (receiver : ℕ) (slot : F) (slots : List (ℕ × Slot F)) : Prop :=
  ∀ c ∈ slots.find? (refers receiver slot),
    c.2.state ≠ .disconnected ∨ liveSlots receiver slot slots = 0

instance (receiver : ℕ) (slot : F) (slots : List (ℕ × Slot F)) :
    Decidable (FirstLive receiver slot slots) :=
  inferInstanceAs (Decidable (∀ c ∈ slots.find? (refers receiver slot),
    c.2.state ≠ .disconnected ∨ liveSlots receiver slot slots = 0))

/-- The condition on the state before an operation under which both sides of a connection stay in
    step: a search in a signal that is being emitted ends at an item that is not marked
    disconnected, and a listener that goes away then has no more than one such item for each slot
    function. -/
def Undisturbed (st : State F) : Op F → Prop
  | .disconnect e s l f => ∀ d ∈ st.data e s, d.activation ≠ none → FirstLive l f d.slots
  | .destroyListener l =>
    ∀ li ∈ st.listeners l, ∀ e ∈ li.entries, ∀ x ∈ e.2, ∀ d ∈ st.data e.1 x.signal,
      d.activation ≠ none → FirstLive l x.slot d.slots ∧ liveSlots l x.slot d.slots ≤ 1
  | _ => True

instance (st : State F) : DecidablePred (Undisturbed st)
  | .disconnect e s l f => inferInstanceAs
      (Decidable (∀ d ∈ st.data e s, d.activation ≠ none → FirstLive l f d.slots))
  | .destroyListener l => inferInstanceAs
      (Decidable (∀ li ∈ st.listeners l, ∀ e ∈ li.entries, ∀ x ∈ e.2, ∀ d ∈ st.data e.1 x.signal,
        d.activation ≠ none → FirstLive l x.slot d.slots ∧ liveSlots l x.slot d.slots ≤ 1))
  | .newEmitter _ | .newListener _ | .connect .. | .emit .. | .ret | .destroyEmitter _ =>
    inferInstanceAs (Decidable True)

/-- The states that a program reaches with operations that all meet a condition -/
inductive Reaches (cond : State F → Op F → Prop) : State F → Prop
  | init : Reaches cond init
  | step {st st' : State F} {op : Op F} : Reaches cond st → Allowed st op → cond st op →
      exec st op = some st' → Reaches cond st'

/-- Several operations in a row -/
def execAll (st : State F) : List (Op F) → Option (State F)
  | [] => some st
  | op :: ops => (exec st op).bind fun st => execAll st ops

/-- Each of several operations in a row is allowed and meets a condition. -/
def AllMeet (cond : State F → Op F → Prop) (st : State F) : List (Op F) → Prop
  | [] => True
  | op :: ops => Allowed st op ∧ cond st op ∧ ∀ st' ∈ exec st op, AllMeet cond st' ops

instance decidableAllMeet (cond : State F → Op F → Prop) [∀ st, DecidablePred (cond st)] :
    ∀ (ops : List (Op F)) (st : State F), Decidable (AllMeet cond st ops)
  | [], _ => inferInstanceAs (Decidable True)
  | op :: ops, st =>
    have := decidableAllMeet cond ops
    inferInstanceAs
      (Decidable (Allowed st op ∧ cond st op ∧ ∀ st' ∈ exec st op, AllMeet cond st' ops))

lemma execAll_append (st : State F) (ops ops' : List (Op F)) :
    execAll st (ops ++ ops') = (execAll st ops).bind fun st => execAll st ops' := by
  induction ops generalizing st with
  | nil => rfl
  | cons op ops ih =>
    rw [List.cons_append, execAll, execAll, Option.bind_assoc]
    exact congrArg _ (funext ih)

lemma Reaches.execAll {cond : State F → Op F → Prop} {st st' : State F} {ops : List (Op F)}
    (h : Reaches cond st) (hmeet : AllMeet cond st ops) (hexec : execAll st ops = some st') :
    Reaches cond st' := by
  induction ops generalizing st with
  | nil => rwa [← Option.some.inj hexec]
  | cons op ops ih =>
    obtain ⟨st₁, hst₁, hrest⟩ := Option.bind_eq_some_iff.mp hexec
    exact ih (h.step hmeet.1 hmeet.2.1 hst₁) (hmeet.2.2 st₁ hst₁) hrest

end Nstd.Callback
