import Mathlib.Data.List.Infix
import Nstd.Core.InsertionMap
import Nstd.Core.System

/-!
# `Socket::Poll`

The variant with `epoll`.  Up to 64 events are fetched at once and handed out one at a time, while
sockets are registered, changed and removed.

* `mapEvents`, `unmapEvents`, `set`, `remove`, `clear`, `poll` — the code.
* `asked` — the flags of each socket, by the calls alone; no table of the code is read for it.
* `Once` — between two waits no socket is handed out twice.
* **`poll_sound`** — in every run what `poll` hands out is asked for at that moment, and once.

The main result rests on two invariants.  `Sound` says that the tables of the code agree with each
other, so that whatever is fetched stays selected only while it is registered.  `Tells` says that the
table of registrations is what the calls have asked for; without it the first would also hold of a
`remove` that does nothing.

What the kernel reports in a wait is any list of sockets that are registered with it, each with any
mask.
-/

namespace Nstd

/-- A set of flags -/
abbrev Flags := BitVec 32

/-- The one set of flags is a part of the other. -/
def Flags.Subset (a b : Flags) : Prop := a &&& b = a

namespace Poll

open InsertionMap

def readFlag : Flags := 0x01
def writeFlag : Flags := 0x02
def acceptFlag : Flags := 0x04
def connectFlag : Flags := 0x08

def epollIn : Flags := 0x001
def epollOut : Flags := 0x004
def epollHup : Flags := 0x010
def epollRdHup : Flags := 0x2000

/-- `mapEvents` -/
def mapEvents (events : Flags) : Flags :=
  let pollEvents := if events &&& (readFlag ||| acceptFlag) ≠ 0 then
    epollIn ||| epollRdHup ||| epollHup else 0
  if events &&& (writeFlag ||| connectFlag) ≠ 0 then
    pollEvents ||| (epollOut ||| epollRdHup ||| epollHup)
  else pollEvents

/-- `unmapEvents` -/
def unmapEvents (nativeEvents events : Flags) : Flags :=
  let result := if nativeEvents &&& (epollIn ||| epollRdHup ||| epollHup) ≠ 0 then
    events &&& (readFlag ||| acceptFlag) else 0
  if nativeEvents &&& epollOut ≠ 0
      ∨ result = 0 ∧ nativeEvents &&& (epollRdHup ||| epollHup) ≠ 0 then
    result ||| (events &&& (writeFlag ||| connectFlag))
  else result

/-- A `Socket` is known by its address. -/
structure SocketInfo where
  socket : ℕ
  events : Flags
  s : ℤ

/-- The fields of `Socket::Poll::Private`, and what the kernel was told with `epoll_ctl` -/
structure State where
  sockets : List (ℕ × SocketInfo)
  selectedSockets : List (ℕ × Flags)
  interest : List (ℕ × Flags)

/-- `set`; `s` is the descriptor of the socket. -/
def set (p : State) (socket : ℕ) (s : ℤ) (events : Flags) : State :=
  match find? socket p.sockets with
  | some sockInfo =>
    if sockInfo.events = events then p
    else
      let removedEvents := sockInfo.events &&& ~~~events
      let selectedSockets := match find? sockInfo.socket p.selectedSockets with
        | none => p.selectedSockets
        | some selectedEvents =>
          let selectedEvents := selectedEvents &&& ~~~removedEvents
          if selectedEvents = 0 then InsertionMap.remove sockInfo.socket p.selectedSockets
          else append sockInfo.socket selectedEvents p.selectedSockets
      { sockets := append socket { sockInfo with events } p.sockets, selectedSockets,
        interest := append socket (mapEvents events) p.interest }
  | none =>
    if s = -1 then p
    else
      { p with
        sockets := append socket ⟨socket, events, s⟩ p.sockets
        interest := append socket (mapEvents events) p.interest }

/-- `remove` -/
def remove (p : State) (socket : ℕ) : State :=
  match find? socket p.sockets with
  | none => p
  | some _ =>
    { sockets := InsertionMap.remove socket p.sockets
      selectedSockets := InsertionMap.remove socket p.selectedSockets
      interest := InsertionMap.remove socket p.interest }

/-- `clear` -/
def clear : State := ⟨[], [], []⟩

/-- What `epoll_wait` returns: sockets, or nothing for the descriptor of interrupts, and masks -/
abbrev Events := List (Option ℕ × Flags)

/-- The loop over the events of a wait: what is selected, and whether there was an interrupt.
    `none` is a socket whose entry is not there any more. -/
def select (sockets : List (ℕ × SocketInfo)) (selectedSockets : List (ℕ × Flags))
    (interrupted : Bool) : Events → Option (List (ℕ × Flags) × Bool)
  | [] => some (selectedSockets, interrupted)
  | (some socket, mask) :: events => do
    let sockInfo ← find? socket sockets
    select sockets (append sockInfo.socket (unmapEvents mask sockInfo.events) selectedSockets)
      interrupted events
  | (none, mask) :: events =>
    select sockets selectedSockets (interrupted || mask &&& epollIn ≠ 0) events

/-- `Socket::Poll::Event` -/
structure Event where
  flags : Flags
  socket : Option ℕ

/-- A timeout or an interrupt -/
def Event.null : Event := ⟨0, none⟩

/-- The end of `poll`: the oldest socket that is selected is handed out. -/
def take (p : State) : Option (State × Event) :=
  match p.selectedSockets with
  | [] => none
  | (socket, flags) :: selectedSockets => some ({ p with selectedSockets }, ⟨flags, some socket⟩)

/-- What there is to see of `poll` -/
inductive Shown
  | waited
  | returned (event : Event)

/-- `poll`; `events` is what a wait returns. -/
def poll (p : State) (events : Events) : Option (State × List Shown) :=
  if p.selectedSockets.isEmpty then do
    let (selectedSockets, interrupted) ← select p.sockets p.selectedSockets false events
    let p := { p with selectedSockets }
    if p.selectedSockets.isEmpty ∨ interrupted then some (p, [.waited, .returned .null])
    else do
      let (p, event) ← take p
      some (p, [.waited, .returned event])
  else do
    let (p, event) ← take p
    some (p, [.returned event])

/-- The event that `poll` has returned -/
def returned : List Shown → Event
  | [] => .null
  | .waited :: shown => returned shown
  | .returned event :: _ => event

/-- What may happen -/
inductive Move
  | set (socket : ℕ) (s : ℤ) (events : Flags)
  | remove (socket : ℕ)
  | clear
  | poll (events : Events)

/-- The kernel reports what is registered with it. -/
def Allowed (p : State) : Move → Prop
  | .poll events => events.length ≤ 64 ∧ ∀ e ∈ events, ∀ socket ∈ e.1, socket ∈ keys p.interest
  | _ => True

/-- A move -/
def step (p : State) : Move → Option (State × List Shown)
  | .set socket s events => some (set p socket s events, [])
  | .remove socket => some (remove p socket, [])
  | .clear => some (clear, [])
  | .poll events => poll p events

/-! ## Flags -/

lemma subset_iff {a b : Flags} : a.Subset b ↔ ∀ i, a.getLsbD i = true → b.getLsbD i = true := by
  constructor
  · intro h i hi
    rw [← h, BitVec.getLsbD_and, Bool.and_eq_true] at hi
    exact hi.2
  · intro h
    refine BitVec.eq_of_getLsbD_eq fun i _ => ?_
    rw [BitVec.getLsbD_and]
    cases ha : a.getLsbD i with
    | false => rfl
    | true => rw [h i ha, Bool.and_true]

lemma and_subset (a b : Flags) : (a &&& b).Subset a := by
  rw [subset_iff]
  intro i hi
  rw [BitVec.getLsbD_and, Bool.and_eq_true] at hi
  exact hi.1

lemma or_subset {a b c : Flags} (ha : a.Subset c) (hb : b.Subset c) : (a ||| b).Subset c := by
  rw [subset_iff] at *
  intro i hi
  rw [BitVec.getLsbD_or, Bool.or_eq_true] at hi
  exact hi.elim (ha i) (hb i)

lemma zero_subset (a : Flags) : (0 : Flags).Subset a := BitVec.zero_and

lemma ite_subset {c : Prop} [Decidable c] {a b e : Flags} (ha : a.Subset e) (hb : b.Subset e) :
    (if c then a else b).Subset e := by
  split_ifs
  · exact ha
  · exact hb

/-- What is reported of a socket are flags it is registered with. -/
lemma unmapEvents_subset (nativeEvents events : Flags) :
    (unmapEvents nativeEvents events).Subset events := by
  have hresult := ite_subset
    (c := nativeEvents &&& (epollIn ||| epollRdHup ||| epollHup) ≠ 0)
    (and_subset events (readFlag ||| acceptFlag)) (zero_subset events)
  exact ite_subset (or_subset hresult (and_subset events _)) hresult

/-- Flags that are not removed are flags the socket is registered with now. -/
lemma remaining_subset {selected old : Flags} (h : selected.Subset old) (new : Flags) :
    (selected &&& ~~~(old &&& ~~~new)).Subset new := by
  rw [subset_iff] at *
  intro i hi
  have hlt : i < 32 := by
    by_contra hge
    rw [BitVec.getLsbD_of_ge _ _ (Nat.le_of_not_lt hge)] at hi
    exact Bool.false_ne_true hi
  rw [BitVec.getLsbD_and, BitVec.getLsbD_not, BitVec.getLsbD_and, BitVec.getLsbD_not] at hi
  simp only [hlt, decide_true, Bool.true_and, Bool.and_eq_true] at hi
  rw [h i hi.1] at hi
  simpa using hi.2

/-! ## The tables -/

/-- Every socket that is selected is registered, with flags among which are the ones it is selected
    for. -/
def Registered (sockets : List (ℕ × SocketInfo)) (socket : ℕ) (flags : Flags) : Prop :=
  ∃ sockInfo, find? socket sockets = some sockInfo ∧ flags.Subset sockInfo.events

/-- What is selected is registered, and selected once. -/
structure Selected (sockets : List (ℕ × SocketInfo)) (selectedSockets : List (ℕ × Flags)) :
    Prop where
  nodup : (keys selectedSockets).Nodup
  registered : ∀ socket flags, find? socket selectedSockets = some flags →
    Registered sockets socket flags

/-- **The tables agree**: with each other, and with what the kernel was told. -/
structure Sound (p : State) : Prop where
  selected : Selected p.sockets p.selectedSockets
  socket : ∀ socket sockInfo, find? socket p.sockets = some sockInfo → sockInfo.socket = socket
  interest : ∀ socket, find? socket p.interest
    = (find? socket p.sockets).map fun sockInfo => mapEvents sockInfo.events

/-- The tables are empty. -/
lemma sound_clear : Sound clear :=
  ⟨⟨List.nodup_nil, by simp [clear]⟩, by simp [clear], by simp [clear]⟩

lemma Selected.append {sockets : List (ℕ × SocketInfo)} {selectedSockets : List (ℕ × Flags)}
    (h : Selected sockets selectedSockets) {socket : ℕ} {flags : Flags}
    (hsocket : Registered sockets socket flags) :
    Selected sockets (append socket flags selectedSockets) := by
  refine ⟨nodup_append h.nodup flags, fun socket' flags' hfind => ?_⟩
  rw [find?_append] at hfind
  split_ifs at hfind with heq
  · rw [heq, ← Option.some_inj.mp hfind]
    exact hsocket
  · exact h.registered socket' flags' hfind

lemma Selected.remove {sockets : List (ℕ × SocketInfo)} {selectedSockets : List (ℕ × Flags)}
    (h : Selected sockets selectedSockets) (socket : ℕ) :
    Selected sockets (InsertionMap.remove socket selectedSockets) := by
  refine ⟨?_, fun socket' flags' hfind => ?_⟩
  · rw [keys_remove]
    exact h.nodup.filter _
  · rw [find?_remove] at hfind
    split_ifs at hfind
    exact h.registered socket' flags' hfind

/-- **A wait** finds the entries of all sockets that are reported. -/
lemma select_spec {sockets : List (ℕ × SocketInfo)}
    (hsocket : ∀ socket sockInfo, find? socket sockets = some sockInfo → sockInfo.socket = socket)
    {events : Events} (hevents : ∀ e ∈ events, ∀ socket ∈ e.1, socket ∈ keys sockets)
    {selectedSockets : List (ℕ × Flags)} (h : Selected sockets selectedSockets)
    (interrupted : Bool) :
    ∃ selectedSockets' interrupted', select sockets selectedSockets interrupted events
      = some (selectedSockets', interrupted') ∧ Selected sockets selectedSockets' := by
  induction events generalizing selectedSockets interrupted with
  | nil => exact ⟨_, _, rfl, h⟩
  | cons e events ih =>
    have hrest : ∀ e' ∈ events, ∀ socket ∈ e'.1, socket ∈ keys sockets := fun e' he' =>
      hevents e' (List.mem_cons_of_mem e he')
    obtain ⟨_ | socket, mask⟩ := e
    · exact ih hrest h _
    · have hkey := hevents _ List.mem_cons_self socket rfl
      cases hfind : find? socket sockets with
      | none => exact absurd hkey (find?_eq_none_iff.mp hfind)
      | some sockInfo =>
        rw [select, hfind]
        refine ih hrest (h.append ⟨sockInfo, ?_, unmapEvents_subset mask sockInfo.events⟩) _
        rw [hsocket socket sockInfo hfind, hfind]

/-- What is handed out is registered, and not selected any more. -/
lemma take_spec {p : State} (h : Selected p.sockets p.selectedSockets)
    (hne : p.selectedSockets.isEmpty = false) :
    ∃ socket flags selectedSockets, p.selectedSockets = (socket, flags) :: selectedSockets
      ∧ take p = some ({ p with selectedSockets }, ⟨flags, some socket⟩)
      ∧ Registered p.sockets socket flags ∧ Selected p.sockets selectedSockets := by
  obtain ⟨sockets, _ | ⟨⟨socket, flags⟩, selectedSockets⟩, interest⟩ := p
  · exact absurd hne (by simp)
  · have hnodup := h.nodup
    rw [keys_cons, List.nodup_cons] at hnodup
    refine ⟨socket, flags, selectedSockets, rfl, rfl, ?_, hnodup.2, fun socket' flags' hfind => ?_⟩
    · exact h.registered socket flags (by rw [find?_cons, if_pos rfl])
    · refine h.registered socket' flags' ?_
      have hne : socket ≠ socket' := by
        rintro rfl
        have hnone := find?_eq_none_iff.mpr hnodup.1
        exact absurd (hnone.symm.trans hfind).symm (Option.some_ne_none _)
      rw [find?_cons, if_neg hne]
      exact hfind

/-! ## Moves -/

/-- The socket that is handed out -/
def Shown.socket : Shown → Option ℕ
  | .waited => none
  | .returned event => event.socket

/-- The entry of a socket is new, or has other flags. -/
lemma Registered.append {sockets : List (ℕ × SocketInfo)} {socket socket' : ℕ} {flags : Flags}
    (h : Registered sockets socket' flags) (hne : socket' ≠ socket) (sockInfo : SocketInfo) :
    Registered (append socket sockInfo sockets) socket' flags := by
  obtain ⟨sockInfo', hfind, hsubset⟩ := h
  exact ⟨sockInfo', by rw [find?_append, if_neg hne, hfind], hsubset⟩

/-- A socket is registered with other flags, and its selected flags are among them. -/
lemma Sound.register {p : State} (h : Sound p) {socket : ℕ} {events : Flags} (s : ℤ)
    {selectedSockets : List (ℕ × Flags)} (hnodup : (keys selectedSockets).Nodup)
    (hsame : ∀ socket' flags, find? socket' selectedSockets = some flags → socket' ≠ socket →
      find? socket' p.selectedSockets = some flags)
    (hself : ∀ flags, find? socket selectedSockets = some flags → flags.Subset events) :
    Sound ⟨append socket ⟨socket, events, s⟩ p.sockets, selectedSockets,
      append socket (mapEvents events) p.interest⟩ := by
  refine ⟨⟨hnodup, fun socket' flags hselected => ?_⟩, fun socket' sockInfo' hfind => ?_,
    fun socket' => ?_⟩
  · by_cases heq : socket' = socket
    · subst heq
      exact ⟨_, by rw [find?_append, if_pos rfl], hself flags hselected⟩
    · exact (h.selected.registered socket' flags (hsame socket' flags hselected heq)).append heq _
  · rw [find?_append] at hfind
    split_ifs at hfind with heq
    · rw [heq, ← Option.some_inj.mp hfind]
    · exact h.socket socket' sockInfo' hfind
  · rw [find?_append, find?_append, h.interest]
    split_ifs
    · rfl
    · rfl

lemma find?_isSome_mem {socket : ℕ} {flags : Flags} {selectedSockets : List (ℕ × Flags)}
    (h : find? socket selectedSockets = some flags) : socket ∈ keys selectedSockets := by
  by_contra hnot
  exact absurd ((find?_eq_none_iff.mpr hnot).symm.trans h).symm (Option.some_ne_none flags)

/-- `set` keeps of the selected flags those that the socket is registered with now. -/
lemma set_spec {p : State} (h : Sound p) (socket : ℕ) (s : ℤ) (events : Flags) :
    Sound (set p socket s events)
      ∧ (keys (set p socket s events).selectedSockets).Sublist (keys p.selectedSockets) := by
  rw [set]
  cases hfind : find? socket p.sockets with
  | none =>
    dsimp only
    split_ifs
    · exact ⟨h, List.Sublist.refl _⟩
    · refine ⟨h.register _ h.selected.nodup (fun _ _ hselected _ => hselected) ?_,
        List.Sublist.refl _⟩
      intro flags hselected
      obtain ⟨sockInfo, hfind', -⟩ := h.selected.registered socket flags hselected
      exact absurd (hfind.symm.trans hfind').symm (Option.some_ne_none sockInfo)
  | some sockInfo =>
    have hsocket := h.socket socket sockInfo hfind
    dsimp only
    rw [hsocket]
    split_ifs with hevents
    · exact ⟨h, List.Sublist.refl _⟩
    · cases hselected : find? socket p.selectedSockets with
      | none =>
        refine ⟨h.register _ h.selected.nodup
          (fun _ _ hselected _ => hselected) fun flags hflags => ?_, List.Sublist.refl _⟩
        exact absurd (hselected.symm.trans hflags).symm (Option.some_ne_none flags)
      | some selectedEvents =>
        obtain ⟨sockInfo', hfind', hsubset⟩ :=
          h.selected.registered socket selectedEvents hselected
        obtain rfl := Option.some_inj.mp (hfind.symm.trans hfind')
        have hremaining := remaining_subset hsubset events
        dsimp only
        split_ifs with hzero
        · refine ⟨h.register _ (h.selected.remove socket).nodup
            (fun socket' flags hflags hne => ?_) fun flags hflags => ?_, ?_⟩
          · rwa [find?_remove, if_neg hne] at hflags
          · rw [find?_remove, if_pos rfl] at hflags
            exact absurd hflags.symm (Option.some_ne_none flags)
          · rw [keys_remove]
            exact List.filter_sublist
        · refine ⟨h.register _ (nodup_append h.selected.nodup _)
            (fun socket' flags hflags hne => ?_) fun flags hflags => ?_, ?_⟩
          · rwa [find?_append, if_neg hne] at hflags
          · rw [find?_append, if_pos rfl] at hflags
            exact Option.some_inj.mp hflags ▸ hremaining
          · rw [keys_append, if_pos (find?_isSome_mem hselected)]

lemma remove_spec {p : State} (h : Sound p) (socket : ℕ) :
    Sound (remove p socket)
      ∧ (keys (remove p socket).selectedSockets).Sublist (keys p.selectedSockets) := by
  rw [remove]
  cases hfind : find? socket p.sockets with
  | none => exact ⟨h, List.Sublist.refl _⟩
  | some sockInfo =>
    refine ⟨⟨⟨(h.selected.remove socket).nodup, fun socket' flags hselected => ?_⟩,
      fun socket' sockInfo' hfind' => ?_, fun socket' => ?_⟩, ?_⟩
    · rw [find?_remove] at hselected
      split_ifs at hselected with heq
      obtain ⟨sockInfo', hfind', hsubset⟩ := h.selected.registered socket' flags hselected
      exact ⟨sockInfo', by rw [find?_remove, if_neg heq, hfind'], hsubset⟩
    · rw [find?_remove] at hfind'
      split_ifs at hfind'
      exact h.socket socket' sockInfo' hfind'
    · rw [find?_remove, find?_remove, h.interest]
      split_ifs
      · rfl
      · rfl
    · rw [keys_remove]
      exact List.filter_sublist

/-- What a call of `poll` shows -/
def Handed (p p' : State) (es : List Shown) : Prop :=
  es = [.waited, .returned .null] ∧ p.selectedSockets = []
    ∨ ∃ socket flags, Registered p.sockets socket flags ∧
      (es = [.returned ⟨flags, some socket⟩]
          ∧ keys p.selectedSockets = socket :: keys p'.selectedSockets
        ∨ es = [.waited, .returned ⟨flags, some socket⟩] ∧ p.selectedSockets = []
          ∧ (socket :: keys p'.selectedSockets).Nodup)

lemma poll_spec {p : State} (h : Sound p) {events : Events} (hallowed : Allowed p (.poll events)) :
    ∃ p' es, poll p events = some (p', es) ∧ Sound p' ∧ p'.sockets = p.sockets
      ∧ Handed p p' es := by
  have hevents : ∀ e ∈ events, ∀ socket ∈ e.1, socket ∈ keys p.sockets := by
    intro e he socket hsocket
    have hkey := hallowed.2 e he socket hsocket
    by_contra hnot
    have hinterest := h.interest socket
    rw [find?_eq_none_iff.mpr hnot, Option.map_none] at hinterest
    exact find?_eq_none_iff.mp hinterest hkey
  rw [poll]
  cases hempty : p.selectedSockets.isEmpty with
  | false =>
    obtain ⟨socket, flags, rest, hrest, htake, hregistered, hselected⟩ :=
      take_spec h.selected hempty
    rw [if_neg Bool.false_ne_true, htake]
    refine ⟨_, _, rfl, ⟨hselected, h.socket, h.interest⟩, rfl,
      Or.inr ⟨socket, flags, hregistered, Or.inl ⟨rfl, by rw [hrest, keys_cons]⟩⟩⟩
  | true =>
    have hnil := List.isEmpty_iff.mp hempty
    obtain ⟨selectedSockets, interrupted, hselect, hselected⟩ :=
      select_spec h.socket hevents h.selected false
    rw [if_pos rfl, hselect]
    simp only [Option.bind_eq_bind, Option.bind_some]
    split_ifs with hnone
    · exact ⟨_, _, rfl, ⟨hselected, h.socket, h.interest⟩, rfl, Or.inl ⟨rfl, hnil⟩⟩
    · rw [not_or] at hnone
      obtain ⟨socket, flags, rest, hrest, htake, hregistered, hselected'⟩ :=
        take_spec (p := { p with selectedSockets }) hselected (by simpa using hnone.1)
      have hnodup : (socket :: keys rest).Nodup := by
        have hkeys := hselected.nodup
        rwa [show selectedSockets = (socket, flags) :: rest from hrest, keys_cons] at hkeys
      rw [htake]
      refine ⟨_, _, rfl, ⟨hselected', h.socket, h.interest⟩, rfl,
        Or.inr ⟨socket, flags, hregistered, Or.inr ⟨rfl, hnil, hnodup⟩⟩⟩

/-! ## Runs -/

/-- **Once**: between two waits no socket is handed out twice. -/
def Once (trace : List Shown) : Prop :=
  ∀ es, es <:+: trace → .waited ∉ es → (es.filterMap Shown.socket).Nodup

/-- What was handed out since the last wait and what is selected are different sockets. -/
def Pending (trace : List Shown) (sockets : List ℕ) : Prop :=
  ∀ es, es <:+ trace → .waited ∉ es → (es.filterMap Shown.socket ++ sockets).Nodup

lemma Pending.sublist {trace : List Shown} {sockets sockets' : List ℕ} (h : Pending trace sockets)
    (hsub : sockets'.Sublist sockets) : Pending trace sockets' := fun es hes hwaited =>
  (h es hes hwaited).sublist (List.Sublist.append (List.Sublist.refl _) hsub)

/-- A wait starts over. -/
lemma Pending.waited {trace : List Shown} {sockets : List ℕ} (h : sockets.Nodup) :
    Pending (trace ++ [.waited]) sockets := by
  intro es hes hwaited
  rcases List.suffix_concat_iff.mp hes with rfl | ⟨es', rfl, -⟩
  · exact h
  · exact absurd (List.mem_append_right es' (List.mem_singleton_self _)) hwaited

/-- The socket that was selected first is handed out. -/
lemma Pending.returned {trace : List Shown} {socket : ℕ} {sockets : List ℕ}
    (h : Pending trace (socket :: sockets)) (flags : Flags) :
    Pending (trace ++ [.returned ⟨flags, some socket⟩]) sockets := by
  intro es hes hwaited
  rcases List.suffix_concat_iff.mp hes with rfl | ⟨es', rfl, hes'⟩
  · exact (List.nodup_cons.mp (h [] (List.nil_suffix) List.not_mem_nil)).2
  · have hrest := h es' hes' fun hmem => hwaited (List.mem_append_left _ hmem)
    rw [List.filterMap_append, List.append_assoc]
    exact hrest

/-- A timeout or an interrupt hands out no socket. -/
lemma Pending.null {trace : List Shown} {sockets : List ℕ} (h : Pending trace sockets) :
    Pending (trace ++ [.returned .null]) sockets := by
  intro es hes hwaited
  rcases List.suffix_concat_iff.mp hes with rfl | ⟨es', rfl, hes'⟩
  · exact h [] (List.nil_suffix) List.not_mem_nil
  · have hrest := h es' hes' fun hmem => hwaited (List.mem_append_left _ hmem)
    rw [List.filterMap_append]
    change (es'.filterMap Shown.socket ++ [] ++ sockets).Nodup
    rwa [List.append_nil]

lemma Once.concat {trace : List Shown} (h : Once trace) {e : Shown} {sockets : List ℕ}
    (hpending : Pending (trace ++ [e]) sockets) : Once (trace ++ [e]) := by
  intro es hes hwaited
  rcases List.infix_concat_iff.mp hes with hsuffix | hinfix
  · exact (List.nodup_append.mp (hpending es hsuffix hwaited)).1
  · exact h es hinfix hwaited

/-- **A call of `poll`** hands out a socket that was not handed out since the last wait. -/
lemma Handed.once {p p' : State} {es : List Shown} (h : Handed p p' es) {trace : List Shown}
    (hselected : (keys p'.selectedSockets).Nodup) (honce : Once trace)
    (hpending : Pending trace (keys p.selectedSockets)) :
    Once (trace ++ es) ∧ Pending (trace ++ es) (keys p'.selectedSockets) := by
  rcases h with ⟨rfl, -⟩ | ⟨socket, flags, -, ⟨rfl, hkeys⟩ | ⟨rfl, -, hnodup⟩⟩
  · have hwaited : Pending (trace ++ [.waited]) (keys p'.selectedSockets) := .waited hselected
    rw [List.append_cons]
    exact ⟨(honce.concat hwaited).concat hwaited.null, hwaited.null⟩
  · rw [hkeys] at hpending
    exact ⟨honce.concat (hpending.returned flags), hpending.returned flags⟩
  · have hwaited : Pending (trace ++ [.waited]) (socket :: keys p'.selectedSockets) :=
      .waited hnodup
    rw [List.append_cons]
    exact ⟨(honce.concat hwaited).concat (hwaited.returned flags), hwaited.returned flags⟩

/-- **One move**: it finds all entries, and what it hands out is registered. -/
lemma step_spec {p : State} (h : Sound p) {m : Move} (hallowed : Allowed p m) :
    ∃ p' es, step p m = some (p', es) ∧ Sound p'
      ∧ (∀ event, .returned event ∈ es → ∀ socket, event.socket = some socket →
        Registered p'.sockets socket event.flags)
      ∧ ∀ trace, Once trace → Pending trace (keys p.selectedSockets) →
        Once (trace ++ es) ∧ Pending (trace ++ es) (keys p'.selectedSockets) := by
  have hquiet : ∀ {p' : State} {trace : List Shown},
      (keys p'.selectedSockets).Sublist (keys p.selectedSockets) → Once trace →
      Pending trace (keys p.selectedSockets) →
      Once (trace ++ []) ∧ Pending (trace ++ []) (keys p'.selectedSockets) := by
    intro p' trace hsub honce hpending
    rw [List.append_nil]
    exact ⟨honce, hpending.sublist hsub⟩
  cases m with
  | set socket s events =>
    obtain ⟨hs, hsub⟩ := set_spec h socket s events
    exact ⟨_, [], rfl, hs, by simp, fun trace => hquiet hsub⟩
  | remove socket =>
    obtain ⟨hs, hsub⟩ := remove_spec h socket
    exact ⟨_, [], rfl, hs, by simp, fun trace => hquiet hsub⟩
  | clear =>
    refine ⟨_, [], rfl, sound_clear,
      by simp, fun trace => hquiet (List.nil_sublist _)⟩
  | poll events =>
    obtain ⟨p', es, hrun, hs, hsockets, hhanded⟩ := poll_spec h hallowed
    refine ⟨p', es, hrun, hs, fun event hevent socket hsocket => ?_, fun trace => ?_⟩
    · rw [hsockets]
      rcases hhanded with ⟨rfl, -⟩ | ⟨socket', flags, hregistered, ⟨rfl, -⟩ | ⟨rfl, -⟩⟩
      · obtain rfl : event = .null := by simpa using hevent
        exact absurd hsocket.symm (Option.some_ne_none socket)
      · obtain rfl : event = ⟨flags, some socket'⟩ := by simpa using hevent
        obtain rfl : socket' = socket := Option.some_inj.mp hsocket
        exact hregistered
      · obtain rfl : event = ⟨flags, some socket'⟩ := by simpa using hevent
        obtain rfl : socket' = socket := Option.some_inj.mp hsocket
        exact hregistered
    · exact hhanded.once hs.selected.nodup

/-- What there is to see of a run: the calls, and what `poll` shows -/
inductive Seen
  | called (m : Move)
  | shown (e : Shown)

/-- What is to see of `poll` alone -/
def Seen.shown? : Seen → Option Shown
  | .called _ => none
  | .shown e => some e

/-- A poll and all that is done with it, with the calls that were made -/
def calls : System State Seen where
  initial p := p = clear
  step p es p' := ∃ m shown, Allowed p m ∧ step p m = some (p', shown)
    ∧ es = .called m :: shown.map .shown

/-- What a call asks for.  A socket that is open is registered with the flags given, one that is
    registered gets them instead of its own, and one that is removed is not registered any more. -/
def ask (flags : ℕ → Option Flags) : Seen → ℕ → Option Flags
  | .called (.set socket s events) => fun socket' =>
    if socket' = socket ∧ (s ≠ -1 ∨ (flags socket).isSome) then some events else flags socket'
  | .called (.remove socket) => fun socket' => if socket' = socket then none else flags socket'
  | .called .clear => fun _ => none
  | _ => flags

/-- **What was asked for**: the flags each socket is registered with, by the calls of a run -/
def asked (trace : List Seen) : ℕ → Option Flags := trace.foldl ask fun _ => none

/-- The table of the sockets is what was asked for. -/
def Tells (flags : ℕ → Option Flags) (p : State) : Prop :=
  ∀ socket, flags socket = (find? socket p.sockets).map SocketInfo.events

lemma Tells.registered {flags : ℕ → Option Flags} {p : State} (h : Tells flags p) {socket : ℕ}
    {events : Flags} (hregistered : Registered p.sockets socket events) :
    ∃ events' ∈ flags socket, events.Subset events' := by
  obtain ⟨sockInfo, hfind, hsubset⟩ := hregistered
  exact ⟨_, by rw [h, hfind]; rfl, hsubset⟩

lemma Tells.set {flags : ℕ → Option Flags} {p : State} (h : Tells flags p) (socket : ℕ) (s : ℤ)
    (events : Flags) :
    Tells (ask flags (.called (.set socket s events))) (Poll.set p socket s events) := by
  intro socket'
  have hsocket := h socket
  rw [ask, Poll.set]
  cases hfind : find? socket p.sockets with
  | none =>
    rw [hfind, Option.map_none] at hsocket
    dsimp only
    by_cases hs : s = -1
    · rw [if_pos hs, if_neg (by simp [hs, hsocket]), h]
    · rw [if_neg hs, find?_append]
      simp only [ne_eq, hs, not_false_eq_true, true_or, and_true]
      split_ifs
      · rfl
      · exact h socket'
  | some sockInfo =>
    rw [hfind, Option.map_some] at hsocket
    dsimp only
    simp only [hsocket, Option.isSome_some, or_true, and_true]
    by_cases hevents : sockInfo.events = events
    · rw [if_pos hevents]
      split_ifs with heq
      · rw [heq, hfind, Option.map_some, hevents]
      · exact h socket'
    · rw [if_neg hevents, find?_append]
      split_ifs
      · rfl
      · exact h socket'

lemma Tells.remove {flags : ℕ → Option Flags} {p : State} (h : Tells flags p) (socket : ℕ) :
    Tells (ask flags (.called (.remove socket))) (Poll.remove p socket) := by
  intro socket'
  rw [ask, Poll.remove]
  cases hfind : find? socket p.sockets with
  | none =>
    dsimp only
    split_ifs with heq
    · rw [heq, hfind, Option.map_none]
    · exact h socket'
  | some sockInfo =>
    dsimp only
    rw [find?_remove]
    split_ifs
    · rfl
    · exact h socket'

lemma foldl_ask_shown (es : List Shown) (flags : ℕ → Option Flags) :
    (es.map Seen.shown).foldl ask flags = flags := by
  induction es with
  | nil => rfl
  | cons e es ih => exact ih

/-- **One call**: the table is what was asked for before, and what is asked for now. -/
lemma Tells.step {flags : ℕ → Option Flags} {p p' : State} {m : Move} {es : List Shown}
    (h : Tells flags p) (hs : Sound p) (hallowed : Allowed p m)
    (hrun : Poll.step p m = some (p', es)) : Tells (ask flags (.called m)) p' := by
  cases m with
  | set socket s events =>
    obtain ⟨rfl, -⟩ := Prod.mk.inj (Option.some_inj.mp hrun)
    exact h.set socket s events
  | remove socket =>
    obtain ⟨rfl, -⟩ := Prod.mk.inj (Option.some_inj.mp hrun)
    exact h.remove socket
  | clear =>
    obtain ⟨rfl, -⟩ := Prod.mk.inj (Option.some_inj.mp hrun)
    exact fun socket => rfl
  | poll events =>
    obtain ⟨p₁, es₁, hrun₁, -, hsockets, -⟩ := poll_spec hs hallowed
    obtain ⟨rfl, rfl⟩ := Prod.mk.inj (Option.some_inj.mp (hrun₁.symm.trans hrun))
    intro socket
    rw [hsockets]
    exact h socket

/-- **Every run**: the tables agree, with each other and with what was asked for, and nothing was
    handed out twice since the last wait. -/
lemma calls_invariant {trace : List Seen} {p : State} (h : calls.Run trace p) :
    Sound p ∧ Tells (asked trace) p ∧ Once (trace.filterMap Seen.shown?)
      ∧ Pending (trace.filterMap Seen.shown?) (keys p.selectedSockets) := by
  refine @System.Run.invariant _ _ calls (fun trace p => Sound p ∧ Tells (asked trace) p
    ∧ Once (trace.filterMap Seen.shown?)
    ∧ Pending (trace.filterMap Seen.shown?) (keys p.selectedSockets)) ?_ ?_ _ _ h
  · rintro p rfl
    refine ⟨sound_clear, fun socket => rfl, fun es hes _ => ?_, fun es hes _ => ?_⟩
    · rw [List.eq_nil_of_infix_nil hes]
      exact List.nodup_nil
    · rw [List.suffix_nil.mp hes]
      exact List.nodup_nil
  · rintro trace p es p' ⟨hs, htells, honce, hpending⟩ ⟨m, shown, hallowed, hrun, rfl⟩
    obtain ⟨p₁, es₁, hrun₁, hs₁, -, hruns⟩ := step_spec hs hallowed
    obtain ⟨rfl, rfl⟩ := Prod.mk.inj (Option.some_inj.mp (hrun₁.symm.trans hrun))
    have hshown : (trace ++ Seen.called m :: es₁.map Seen.shown).filterMap Seen.shown?
        = trace.filterMap Seen.shown? ++ es₁ := by
      rw [List.filterMap_append, List.filterMap_cons_none rfl, List.filterMap_map]
      exact congrArg _ List.filterMap_some
    refine ⟨hs₁, ?_, ?_⟩
    · rw [asked, List.foldl_append, List.foldl_cons, foldl_ask_shown]
      exact htells.step hs hallowed hrun
    · rw [hshown]
      exact hruns _ honce hpending

/-- **Every run**: between two waits no socket is handed out twice, and what `poll` hands out next
    is a socket that the calls made so far have registered, with flags among those they have asked
    for last. -/
theorem poll_sound {trace : List Seen} {p : State} (h : calls.Run trace p) :
    Once (trace.filterMap Seen.shown?) ∧ ∀ m, Allowed p m → ∃ p' es, step p m = some (p', es)
      ∧ ∀ event, .returned event ∈ es → ∀ socket, event.socket = some socket →
        ∃ events ∈ asked (trace ++ [.called m]) socket, event.flags.Subset events := by
  obtain ⟨hs, htells, honce, -⟩ := calls_invariant h
  refine ⟨honce, fun m hallowed => ?_⟩
  obtain ⟨p', es, hrun, -, hregistered, -⟩ := step_spec hs hallowed
  refine ⟨p', es, hrun, fun event hevent socket hsocket => ?_⟩
  rw [asked, List.foldl_append]
  exact (htells.step hs hallowed hrun).registered (hregistered event hevent socket hsocket)

/-- Three sockets are reported at once.  After the first was handed out the second is removed and the
    third keeps one of its two flags; the third comes next, with the flag it has kept. -/
theorem poll_sound_changed : ∃ trace p p', calls.Run trace p
    ∧ asked trace 8 = none ∧ asked trace 9 = some writeFlag
    ∧ poll p [] = some (p', [.returned ⟨writeFlag, some 9⟩])
    ∧ ∃ events ∈ asked (trace ++ [.called (.poll [])]) 9, writeFlag.Subset events := by
  have hwait : Allowed (set (set (set clear 7 3 readFlag) 8 4 readFlag) 9 5 (readFlag ||| writeFlag))
      (.poll [(some 7, epollIn), (some 8, epollIn), (some 9, epollIn ||| epollOut)]) := by
    refine ⟨by decide, fun e he socket hsocket => ?_⟩
    have hkeys : keys (set (set (set clear 7 3 readFlag) 8 4 readFlag) 9 5
        (readFlag ||| writeFlag)).interest = [7, 8, 9] := by decide
    rw [hkeys]
    simp only [List.mem_cons, List.not_mem_nil, or_false] at he
    rcases he with rfl | rfl | rfl
    · simp_all
    · simp_all
    · simp_all
  have hstart : calls.Run [] clear := .start rfl
  have hrun := (((((hstart.next
    ⟨.set 7 3 readFlag, _, trivial, rfl, rfl⟩).next ⟨.set 8 4 readFlag, _, trivial, rfl, rfl⟩).next
    ⟨.set 9 5 (readFlag ||| writeFlag), _, trivial, rfl, rfl⟩).next ⟨_, _, hwait, rfl, rfl⟩).next
    ⟨.remove 8, _, trivial, rfl, rfl⟩).next ⟨.set 9 5 writeFlag, _, trivial, rfl, rfl⟩
  obtain ⟨p', es, hpoll, hasked⟩ := (poll_sound hrun).2 (.poll []) ⟨by decide, by simp⟩
  have hes : es = [.returned ⟨writeFlag, some 9⟩] :=
    (Prod.mk.inj (Option.some_inj.mp (hpoll.symm.trans rfl))).2
  subst hes
  exact ⟨_, _, p', hrun, by decide, by decide, hpoll, hasked _ List.mem_cons_self 9 rfl⟩

end Poll

end Nstd
