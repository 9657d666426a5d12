import Nstd.Container.BufferLayout
import Nstd.Server.Poll

/-!
# Writing to the clients of a `Server`

What a client cannot send at once is kept in its `_sendBuffer`, and sent when the socket is ready.

* `Client.write`, `suspend`, `resume`, `writeReady`, `run` — the code.
* `Traffic` — what was written to a client, and what the kernel has accepted of it.
* `Client.flags` — the flags that a client should be registered with.
* **`writes_in_order`** — in every run the kernel has accepted what was written, but for the contents
  of `_sendBuffer`, and the flags are right.

A client is known by its address.  Callbacks are moves between those of `run`.

Bytes are sent from the front of `_sendBuffer`, or at once if it is empty.  So what was accepted and
what is kept are always the two parts of what was written.
-/

namespace Nstd.Writing

open Poll (readFlag writeFlag)

/-- What `send` returns: -1 with `EWOULDBLOCK`, another error or 0, or how many bytes the kernel has
    accepted -/
inductive Sending
  | wouldBlock
  | failed
  | accepted (sent : ℕ)

/-- The fields of a `ClientImpl`, and its descriptor -/
structure Client where
  s : ℤ
  sendBuffer : Buffer
  suspended : Bool

/-- `_sockets` and `_clients` -/
structure State where
  poll : Poll.State
  clients : ℕ → Option Client

/-- What there is to see -/
inductive Event
  | registered (client : ℕ)
  /-- The kernel has accepted bytes. -/
  | accepted (client : ℕ) (data : List UInt8)
  /-- `write` has returned. -/
  | written (client : ℕ) (data : List UInt8) (returned : Bool) (postponed : ℕ)
  /-- The client was put into `_closingClients`. -/
  | closing (client : ℕ)
  | onRead (client : ℕ)
  | onWrite (client : ℕ)
  | onClosed (client : ℕ)

/-- The fields of a client are changed. -/
def State.update (s : State) (i : ℕ) (c : Client) : State :=
  { s with clients := Function.update s.clients i (some c) }

/-- The fields of a client are changed, and then `_sockets.set(*this, events)`. -/
def State.set (s : State) (i : ℕ) (c : Client) (events : Flags) : State :=
  { s.update i c with poll := Poll.set s.poll i c.s events }

/-- The rest of `write` when some of the bytes were sent -/
def postpone (A : Allocator) (s : State) (i : ℕ) (c : Client) (data : List UInt8) (sent : ℕ) :
    Option (State × List Event) :=
  if sent ≥ data.length then
    some (s, [.accepted i (data.take sent), .written i data true 0])
  else do
    let sendBuffer ← c.sendBuffer.append A (data.drop sent)
    let c := { c with sendBuffer }
    some (s.set i c (if c.suspended then writeFlag else readFlag ||| writeFlag),
      [.accepted i (data.take sent), .written i data true sendBuffer.size])

/-- `write`; `send` returns what the kernel says to an offer of so many bytes. -/
def write (A : Allocator) (s : State) (i : ℕ) (c : Client) (data : List UInt8)
    (send : ℕ → Sending) : Option (State × List Event) :=
  if c.sendBuffer.isEmpty then
    match send data.length with
    | .wouldBlock => postpone A s i c data 0
    | .failed => some (s, [.closing i, .written i data false 0])
    | .accepted sent => postpone A s i c data sent
  else do
    let sendBuffer ← c.sendBuffer.append A data
    some (s.update i { c with sendBuffer }, [.written i data true sendBuffer.size])

/-- `suspend` -/
def suspend (s : State) (i : ℕ) (c : Client) : State :=
  if c.suspended then s
  else s.set i { c with suspended := true } (if c.sendBuffer.isEmpty then 0 else writeFlag)

/-- `resume` -/
def resume (s : State) (i : ℕ) (c : Client) : State :=
  if c.suspended then
    s.set i { c with suspended := false }
      (if c.sendBuffer.isEmpty then readFlag else readFlag ||| writeFlag)
  else s

/-- The end of a write event -/
def finish (s : State) (i : ℕ) (c : Client) : State × List Event :=
  if c.sendBuffer.isEmpty then
    (s.set i { c with sendBuffer := c.sendBuffer.free } (if c.suspended then 0 else readFlag),
      [.onWrite i])
  else (s.update i c, [])

/-- A write event of `run` -/
def writeReady (s : State) (i : ℕ) (c : Client) (send : ℕ → Sending) : Option (State × List Event) :=
  if c.sendBuffer.isEmpty then some (finish s i c)
  else
    match send c.sendBuffer.size with
    | .wouldBlock => some (s, [])
    | .failed =>
      let s := s.update i { c with sendBuffer := c.sendBuffer.free }
      some ({ s with poll := Poll.remove s.poll i }, [.onClosed i])
    | .accepted sent => do
      let data ← c.sendBuffer.content
      let (s, es) := finish s i { c with sendBuffer := c.sendBuffer.removeFront sent }
      some (s, .accepted i (data.take sent) :: es)

/-- What `run` does with an event of a client; those of other sockets do not concern clients. -/
def handle (s : State) (event : Poll.Event) (send : ℕ → Sending) : Option (State × List Event) :=
  match event.socket with
  | none => some (s, [])
  | some i =>
    match s.clients i with
    | none => some (s, [])
    | some c =>
      if event.flags &&& readFlag ≠ 0 then some (s, [.onRead i])
      else if event.flags &&& writeFlag ≠ 0 then writeReady s i c send
      else some (s, [])

/-- One turn of `run`: `poll`, and what is done with the event -/
def run (s : State) (events : Poll.Events) (send : ℕ → Sending) : Option (State × List Event) := do
  let (poll, shown) ← Poll.poll s.poll events
  handle { s with poll } (Poll.returned shown) send

/-- What may happen -/
inductive Move
  /-- A client is made: `onAccepted` and `onConnected` come next, or `pair` returns. -/
  | register (i : ℕ) (s : ℤ) (capacityField : ℕ)
  /-- `deleteClient` -/
  | delete (i : ℕ)
  | write (i : ℕ) (data : List UInt8) (send : ℕ → Sending)
  | suspend (i : ℕ)
  | resume (i : ℕ)
  | run (events : Poll.Events) (send : ℕ → Sending)
  /-- A listener or an establisher is registered. -/
  | set (socket : ℕ) (s : ℤ) (events : Flags)
  | remove (socket : ℕ)

/-- A move -/
def step (A : Allocator) (s : State) : Move → Option (State × List Event)
  | .register i fd capacityField =>
    some (s.set i ⟨fd, .null capacityField, false⟩ readFlag, [.registered i])
  | .delete i =>
    some ({ poll := Poll.remove s.poll i, clients := Function.update s.clients i none }, [])
  | .write i data send => do
    let c ← s.clients i
    write A s i c data send
  | .suspend i => do
    let c ← s.clients i
    some (suspend s i c, [])
  | .resume i => do
    let c ← s.clients i
    some (resume s i c, [])
  | .run events send => run s events send
  | .set socket fd events => some ({ s with poll := Poll.set s.poll socket fd events }, [])
  | .remove socket => some ({ s with poll := Poll.remove s.poll socket }, [])

/-- **What the kernel says to an offer**: it accepts some of the bytes, or none for now.  Only an
    offer below `2 ^ 31` is one of so many bytes. -/
def Answers (send : ℕ → Sending) : Prop :=
  ∀ size, 0 < size →
    match send size with
    | .wouldBlock => True
    | .failed => False
    | .accepted sent => 0 < sent ∧ sent ≤ size ∧ size < 2 ^ 31

/-- What may happen when: objects that are there have different addresses, and memory comes from the
    lower half of the addresses. -/
def Allowed (A : Allocator) (s : State) : Move → Prop
  | .register i fd capacityField =>
    s.clients i = none ∧ i ∉ InsertionMap.keys s.poll.sockets ∧ fd ≠ -1
      ∧ Buffer.Place capacityField
  | .delete i => (s.clients i).isSome
  | .write i data send =>
    ∃ c, s.clients i = some c ∧ data ≠ [] ∧ Answers send
      ∧ A.HasRoom (c.sendBuffer.size + data.length + 1) (2 ^ 63)
  | .suspend i => (s.clients i).isSome
  | .resume i => (s.clients i).isSome
  | .run events send => Poll.Allowed s.poll (.poll events) ∧ Answers send
  | .set socket _ _ => s.clients socket = none
  | .remove socket => s.clients socket = none

/-- A server and all that is done with its clients -/
def system : System State Event where
  initial s := s = ⟨Poll.clear, fun _ => none⟩
  step s es s' := ∃ A m, Allowed A s m ∧ step A s m = some (s', es)

/-! ## Traffic -/

/-- What was written to a client since it is there, with success, and what was accepted of it -/
structure Traffic where
  written : List UInt8
  accepted : List UInt8

/-- An event changes the traffic of its client. -/
def Traffic.next (i : ℕ) (t : Traffic) : Event → Traffic
  | .registered j => if j = i then ⟨[], []⟩ else t
  | .accepted j data => if j = i then { t with accepted := t.accepted ++ data } else t
  | .written j data true _ => if j = i then { t with written := t.written ++ data } else t
  | _ => t

/-- The traffic of a client -/
def traffic (i : ℕ) (trace : List Event) : Traffic := trace.foldl (Traffic.next i) ⟨[], []⟩

/-- The flags that a client should be registered with -/
def Client.flags (c : Client) : Flags :=
  (if c.suspended then 0 else readFlag) ||| (if c.sendBuffer.isEmpty then 0 else writeFlag)

/-- The flags that a socket is registered with -/
def registeredFlags (p : Poll.State) (i : ℕ) : Option Flags :=
  (InsertionMap.find? i p.sockets).map Poll.SocketInfo.events

/-! ## Flags -/

lemma flags_set_self {p : Poll.State} {i : ℕ} {fd : ℤ} (events : Flags)
    (h : registeredFlags p i = none → fd ≠ -1) :
    registeredFlags (Poll.set p i fd events) i = some events := by
  rw [registeredFlags, Option.map_eq_none_iff] at h
  rw [Poll.set, registeredFlags]
  cases hfind : InsertionMap.find? i p.sockets with
  | none =>
    dsimp only
    rw [if_neg (h hfind), InsertionMap.find?_append, if_pos rfl]
    rfl
  | some sockInfo =>
    dsimp only
    split_ifs with hevents
    · rw [hfind, ← hevents]
      rfl
    · rw [InsertionMap.find?_append, if_pos rfl]
      rfl

lemma flags_set_other (p : Poll.State) {i j : ℕ} (fd : ℤ) (events : Flags) (hne : j ≠ i) :
    registeredFlags (Poll.set p i fd events) j = registeredFlags p j := by
  rw [Poll.set]
  cases hfind : InsertionMap.find? i p.sockets with
  | none =>
    dsimp only
    split_ifs
    · rfl
    · rw [registeredFlags, InsertionMap.find?_append, if_neg hne]
      rfl
  | some sockInfo =>
    dsimp only
    split_ifs
    · rfl
    · rw [registeredFlags, InsertionMap.find?_append, if_neg hne]
      rfl

lemma flags_remove_other (p : Poll.State) {i j : ℕ} (hne : j ≠ i) :
    registeredFlags (Poll.remove p i) j = registeredFlags p j := by
  rw [Poll.remove]
  cases hfind : InsertionMap.find? i p.sockets with
  | none => rfl
  | some sockInfo =>
    dsimp only
    rw [registeredFlags, InsertionMap.find?_remove, if_neg hne]
    rfl

/-- The flags, by cases as the operations have them -/
lemma Client.flags_eq (c : Client) : c.flags =
    if c.suspended then if c.sendBuffer.isEmpty then 0 else writeFlag
    else if c.sendBuffer.isEmpty then readFlag else readFlag ||| writeFlag := by
  rw [Client.flags]
  split_ifs
  · exact BitVec.or_zero
  · exact BitVec.zero_or
  · exact BitVec.or_zero
  · rfl

/-! ## Invariant -/

/-- A client has sent what was written to it, but for the contents of its `_sendBuffer`. -/
structure Client.Sound (c : Client) (t : Traffic) (registered : Option Flags) : Prop where
  sent : ∃ l, c.sendBuffer.Holds l ∧ t.accepted ++ l = t.written
  low : c.sendBuffer.EndsBy (2 ^ 63)
  flags : registered = some c.flags

/-- All clients are sound, and so is `_sockets`. -/
structure Sound (trace : List Event) (s : State) : Prop where
  poll : Poll.Sound s.poll
  clients : ∀ i c, s.clients i = some c → c.Sound (traffic i trace) (registeredFlags s.poll i)

/-- The client of an event -/
def Event.client : Event → ℕ
  | .registered i => i
  | .accepted i _ => i
  | .written i _ _ _ => i
  | .closing i => i
  | .onRead i => i
  | .onWrite i => i
  | .onClosed i => i

lemma Traffic.next_other (t : Traffic) {i : ℕ} {e : Event} (h : e.client ≠ i) : t.next i e = t := by
  cases e with
  | registered j => exact if_neg h
  | accepted j data => exact if_neg h
  | written j data success postponed =>
    cases success with
    | true => exact if_neg h
    | false => rfl
  | _ => rfl

lemma traffic_append (i : ℕ) (trace es : List Event) :
    traffic i (trace ++ es) = es.foldl (Traffic.next i) (traffic i trace) := List.foldl_append

/-- Events of others do not change the traffic of a client. -/
lemma traffic_other (trace : List Event) {es : List Event} {i j : ℕ} (hes : ∀ e ∈ es, e.client = j)
    (hne : i ≠ j) : traffic i (trace ++ es) = traffic i trace := by
  induction es generalizing trace with
  | nil => rw [List.append_nil]
  | cons e es ih =>
    have he : e.client ≠ i := hes e List.mem_cons_self ▸ Ne.symm hne
    rw [List.append_cons, ih _ fun e' he' => hes e' (List.mem_cons_of_mem e he'), traffic_append]
    exact Traffic.next_other _ he

/-- **What happens to one client** leaves the others as they are. -/
lemma Sound.change {trace es : List Event} {s s' : State} (h : Sound trace s) (i : ℕ)
    (hpoll : Poll.Sound s'.poll)
    (hothers : ∀ j, j ≠ i → s'.clients j = s.clients j
      ∧ registeredFlags s'.poll j = registeredFlags s.poll j)
    (hes : ∀ e ∈ es, e.client = i)
    (hi : ∀ c, s'.clients i = some c →
      c.Sound (traffic i (trace ++ es)) (registeredFlags s'.poll i)) :
    Sound (trace ++ es) s' := by
  refine ⟨hpoll, fun j c hc => ?_⟩
  by_cases hj : j = i
  · subst hj
    exact hi c hc
  · obtain ⟨hclients, hflags⟩ := hothers j hj
    rw [hflags, traffic_other trace hes hj]
    exact h.clients j c (hclients ▸ hc)

lemma update_self (s : State) (i : ℕ) (c : Client) : (s.update i c).clients i = some c :=
  Function.update_self ..

/-- The fields of one client are changed. -/
lemma Sound.update {trace es : List Event} {s : State} (h : Sound trace s) {i : ℕ} {c : Client}
    (hes : ∀ e ∈ es, e.client = i)
    (hi : c.Sound (traffic i (trace ++ es)) (registeredFlags s.poll i)) :
    Sound (trace ++ es) (s.update i c) := by
  refine h.change i h.poll (fun j hj => ⟨Function.update_of_ne hj _ _, rfl⟩) hes fun c' hc' => ?_
  obtain rfl := Option.some_inj.mp ((update_self s i c).symm.trans hc')
  exact hi

/-- One client is changed and registered with other flags. -/
lemma Sound.set {trace es : List Event} {s : State} (h : Sound trace s) {i : ℕ} {c : Client}
    {events : Flags} (hregistered : registeredFlags s.poll i = none → c.s ≠ -1)
    (hes : ∀ e ∈ es, e.client = i)
    (hi : c.Sound (traffic i (trace ++ es)) (some events)) :
    Sound (trace ++ es) (s.set i c events) := by
  refine h.change i (Poll.set_spec h.poll i c.s events).1
    (fun j hj => ⟨Function.update_of_ne hj _ _, flags_set_other s.poll c.s events hj⟩) hes
    fun c' hc' => ?_
  obtain rfl := Option.some_inj.mp ((update_self s i c).symm.trans hc')
  have hflags : registeredFlags (s.set i c events).poll i = some events :=
    flags_set_self events hregistered
  rwa [hflags]

/-- Nothing is changed. -/
lemma Sound.emit {trace es : List Event} {s : State} (h : Sound trace s) {i : ℕ}
    (hes : ∀ e ∈ es, e.client = i)
    (hi : ∀ c, s.clients i = some c →
      c.Sound (traffic i (trace ++ es)) (registeredFlags s.poll i)) : Sound (trace ++ es) s :=
  h.change i h.poll (fun _ _ => ⟨rfl, rfl⟩) hes hi

/-! ## Operations -/

/-- A client that is registered can be registered with other flags. -/
lemma Client.Sound.registered {c : Client} {t : Traffic} {registered : Option Flags} {fd : ℤ}
    (h : c.Sound t registered) : registered = none → fd ≠ -1 := fun hnone =>
  absurd (h.flags.symm.trans hnone) (Option.some_ne_none _)

/-- Bytes were sent, and all bytes were written. -/
lemma traffic_sent (trace : List Event) (i : ℕ) (sent data : List UInt8) (postponed : ℕ) :
    traffic i (trace ++ [.accepted i sent, .written i data true postponed])
      = ⟨(traffic i trace).written ++ data, (traffic i trace).accepted ++ sent⟩ := by
  rw [traffic_append]
  simp [Traffic.next]

/-- **The rest of a `write`** puts the bytes that were not sent into the empty `_sendBuffer`. -/
lemma postpone_spec {A : Allocator} {trace : List Event} {s : State} (h : Sound trace s) {i : ℕ}
    {c : Client} (hc : s.clients i = some c) {data : List UInt8} {sent : ℕ}
    (hempty : c.sendBuffer.isEmpty) (hroom : A.HasRoom (data.length + 1) (2 ^ 63)) :
    ∃ s' es, postpone A s i c data sent = some (s', es) ∧ Sound (trace ++ es) s' := by
  have hsound := h.clients i c hc
  obtain ⟨l, hl, htraffic⟩ := hsound.sent
  obtain rfl : l = [] := List.isEmpty_iff.mp (hl.isEmpty.symm.trans hempty)
  rw [List.append_nil] at htraffic
  rw [postpone]
  split_ifs with hall
  · refine ⟨_, _, rfl, h.emit (i := i) (by simp [Event.client]) fun c' hc' => ?_⟩
    obtain rfl := Option.some_inj.mp (hc.symm.trans hc')
    refine ⟨⟨[], hl, ?_⟩, hsound.low, hsound.flags⟩
    rw [traffic_sent, htraffic, List.append_nil, List.take_of_length_le hall]
  · have hle : ([] : List UInt8).length + (data.drop sent).length + 1 ≤ data.length + 1 := by
      rw [List.length_nil, List.length_drop]
      omega
    obtain ⟨sendBuffer, hrun, hb, hlow⟩ := Buffer.append_low (data.drop sent) hl hsound.low
      fun m hm => hroom m (Nat.le_trans hm hle)
    rw [hrun]
    refine ⟨_, _, rfl, h.set hsound.registered (by simp [Event.client]) ?_⟩
    refine ⟨⟨_, hb, ?_⟩, hlow, ?_⟩
    · rw [traffic_sent, htraffic, List.nil_append, List.append_assoc, List.take_append_drop]
    · have hne : (data.drop sent).isEmpty = false := by
        rw [List.isEmpty_eq_false_iff, ne_eq, List.drop_eq_nil_iff]
        exact hall
      rw [Client.flags_eq, hb.isEmpty, List.nil_append, hne, if_neg Bool.false_ne_true,
        if_neg Bool.false_ne_true]

lemma write_spec {A : Allocator} {trace : List Event} {s : State} (h : Sound trace s) {i : ℕ}
    {c : Client} (hc : s.clients i = some c) {data : List UInt8} {send : ℕ → Sending}
    (hdata : data ≠ []) (hsend : Answers send)
    (hroom : A.HasRoom (c.sendBuffer.size + data.length + 1) (2 ^ 63)) :
    ∃ s' es, write A s i c data send = some (s', es) ∧ Sound (trace ++ es) s' := by
  have hsound := h.clients i c hc
  obtain ⟨l, hl, htraffic⟩ := hsound.sent
  rw [write]
  split_ifs with hempty
  · have hroom' : A.HasRoom (data.length + 1) (2 ^ 63) := fun m hm =>
      hroom m (Nat.le_trans hm (by omega))
    have hanswer := hsend data.length (List.length_pos_iff.mpr hdata)
    cases hsent : send data.length with
    | wouldBlock => exact postpone_spec h hc hempty hroom'
    | failed =>
      rw [hsent] at hanswer
      exact hanswer.elim
    | accepted sent => exact postpone_spec h hc hempty hroom'
  · rw [hl.size] at hroom
    obtain ⟨sendBuffer, hrun, hb, hlow⟩ := Buffer.append_low data hl hsound.low hroom
    rw [hrun]
    refine ⟨_, _, rfl, h.update (by simp [Event.client]) ⟨⟨_, hb, ?_⟩, hlow, ?_⟩⟩
    · rw [traffic_append]
      simp [Traffic.next, ← htraffic]
    · have hne : l.isEmpty = false := by
        rw [← hl.isEmpty]
        exact Bool.eq_false_iff.mpr hempty
      have hne' : (l ++ data).isEmpty = false := by simp [hdata]
      rw [hsound.flags, Client.flags, Client.flags, hl.isEmpty, hb.isEmpty, hne, hne']

lemma suspend_spec {trace : List Event} {s : State} (h : Sound trace s) {i : ℕ} {c : Client}
    (hc : s.clients i = some c) : Sound trace (suspend s i c) := by
  have hsound := h.clients i c hc
  rw [suspend]
  split
  · exact h
  · rw [← List.append_nil trace]
    refine h.set hsound.registered (by simp) ?_
    rw [List.append_nil]
    refine ⟨hsound.sent, hsound.low, ?_⟩
    rw [Client.flags_eq, if_pos rfl]

lemma resume_spec {trace : List Event} {s : State} (h : Sound trace s) {i : ℕ} {c : Client}
    (hc : s.clients i = some c) : Sound trace (resume s i c) := by
  have hsound := h.clients i c hc
  rw [resume]
  split
  · rw [← List.append_nil trace]
    refine h.set hsound.registered (by simp) ?_
    rw [List.append_nil]
    refine ⟨hsound.sent, hsound.low, ?_⟩
    rw [Client.flags_eq, if_neg Bool.false_ne_true]
  · exact h

/-- The end of a write event, when all that has been accepted is gone from `_sendBuffer` -/
lemma finish_spec {trace es : List Event} {s : State} (h : Sound trace s) {i : ℕ} {c c' : Client}
    (hc : s.clients i = some c) (hsuspended : c'.suspended = c.suspended)
    (hflags : c'.sendBuffer.isEmpty = false → c.sendBuffer.isEmpty = false)
    (hes : ∀ e ∈ es, e.client = i) (hlow : c'.sendBuffer.EndsBy (2 ^ 63))
    (hsent : ∃ l, c'.sendBuffer.Holds l ∧
      (traffic i (trace ++ es)).accepted ++ l = (traffic i (trace ++ es)).written) :
    Sound (trace ++ (es ++ (finish s i c').2)) (finish s i c').1 := by
  have hsound := h.clients i c hc
  obtain ⟨l, hl, htraffic⟩ := hsent
  rw [finish]
  by_cases hempty : c'.sendBuffer.isEmpty = true
  · rw [if_pos hempty]
    obtain rfl : l = [] := List.isEmpty_iff.mp (hl.isEmpty.symm.trans hempty)
    have hfree := Buffer.free_spec hl
    have hevents : ∀ e ∈ es ++ [.onWrite i], e.client = i := by
      intro e he
      rcases List.mem_append.mp he with he | he
      · exact hes e he
      · rw [List.mem_singleton.mp he]
        rfl
    refine h.set (c := { c' with sendBuffer := c'.sendBuffer.free })
      (fun hnone => hsound.registered hnone) hevents ⟨⟨[], hfree, ?_⟩, ?_, ?_⟩
    · rw [← List.append_assoc, traffic_append]
      exact htraffic
    · exact fun k hk => absurd hk.symm (Option.some_ne_none k)
    · rw [Client.flags_eq, hfree.isEmpty, List.isEmpty_nil, if_pos rfl, if_pos rfl]
  · have hne := Bool.eq_false_iff.mpr hempty
    rw [if_neg hempty, List.append_nil]
    refine h.update hes ⟨⟨l, hl, htraffic⟩, hlow, ?_⟩
    rw [hsound.flags, Client.flags, Client.flags, hsuspended, hne, hflags hne]

lemma writeReady_spec {trace : List Event} {s : State} (h : Sound trace s) {i : ℕ} {c : Client}
    (hc : s.clients i = some c) {send : ℕ → Sending} (hsend : Answers send) :
    ∃ s' es, writeReady s i c send = some (s', es) ∧ Sound (trace ++ es) s' := by
  have hsound := h.clients i c hc
  obtain ⟨l, hl, htraffic⟩ := hsound.sent
  rw [writeReady]
  by_cases hempty : c.sendBuffer.isEmpty = true
  · rw [if_pos hempty]
    refine ⟨_, _, rfl, ?_⟩
    have hnone : ∀ e ∈ ([] : List Event), e.client = i := fun _ he => absurd he List.not_mem_nil
    have hsent : (traffic i (trace ++ [])).accepted ++ l = (traffic i (trace ++ [])).written := by
      rwa [List.append_nil]
    exact finish_spec h hc rfl id hnone hsound.low ⟨l, hl, hsent⟩
  · rw [if_neg hempty]
    have hne : l ≠ [] := fun hnil => hempty (by rw [hl.isEmpty, hnil]; rfl)
    have hanswer := hsend l.length (List.length_pos_iff.mpr hne)
    rw [hl.size]
    cases hsent : send l.length with
    | wouldBlock =>
      refine ⟨s, [], rfl, ?_⟩
      rwa [List.append_nil]
    | failed =>
      rw [hsent] at hanswer
      exact hanswer.elim
    | accepted sent =>
      rw [hsent] at hanswer
      obtain ⟨-, hle, -⟩ := hanswer
      obtain ⟨hend, hlt⟩ := hl.bounds
      have hb := Buffer.removeFront_spec hl (show c.sendBuffer.bufferStart + sent < 2 ^ 64 by omega)
      have hlow : (c.sendBuffer.removeFront sent).EndsBy (2 ^ 63) := by
        rw [Buffer.EndsBy, Buffer.removeFront_buffer]
        exact hsound.low
      rw [hl.content]
      refine ⟨_, _, rfl, ?_⟩
      have hevents : ∀ e ∈ [Event.accepted i (l.take sent)], e.client = i := by
        simp [Event.client]
      have hsuspended : ({ c with sendBuffer := c.sendBuffer.removeFront sent } : Client).suspended
          = c.suspended := rfl
      refine finish_spec h hc hsuspended (fun _ => Bool.eq_false_iff.mpr hempty) hevents hlow
        ⟨_, hb, ?_⟩
      rw [traffic_append]
      simp [Traffic.next, htraffic]

lemma handle_spec {trace : List Event} {s : State} (h : Sound trace s) (event : Poll.Event)
    {send : ℕ → Sending} (hsend : Answers send) :
    ∃ s' es, handle s event send = some (s', es) ∧ Sound (trace ++ es) s' := by
  have hquiet : Sound (trace ++ []) s := by rwa [List.append_nil]
  rw [handle]
  cases event.socket with
  | none => exact ⟨s, [], rfl, hquiet⟩
  | some i =>
    cases hc : s.clients i with
    | none => exact ⟨s, [], by dsimp only; rw [hc], hquiet⟩
    | some c =>
      have hsound := h.clients i c hc
      dsimp only
      rw [hc]
      dsimp only
      split_ifs
      · refine ⟨s, _, rfl, h.emit (i := i) (by simp [Event.client]) fun c' hc' => ?_⟩
        obtain rfl := Option.some_inj.mp (hc.symm.trans hc')
        rw [traffic_append]
        exact hsound
      · exact writeReady_spec h hc hsend
      · exact ⟨s, [], rfl, hquiet⟩

/-! ## Runs -/

/-- **A move** that may happen goes through, and keeps the invariant. -/
theorem step_spec {A : Allocator} {trace : List Event} {s : State} (h : Sound trace s) {m : Move}
    (hm : Allowed A s m) : ∃ s' es, step A s m = some (s', es) ∧ Sound (trace ++ es) s' := by
  cases m with
  | register i fd capacityField =>
    obtain ⟨-, hsocket, hfd, hplace⟩ := hm
    refine ⟨_, _, rfl, h.set (fun _ => hfd) (by simp [Event.client]) ⟨⟨[], .null hplace, ?_⟩, ?_, ?_⟩⟩
    · rw [traffic_append]
      simp [Traffic.next]
    · exact fun k hk => absurd hk.symm (Option.some_ne_none k)
    · rw [Client.flags_eq, (Buffer.Holds.null hplace).isEmpty]
      rfl
  | delete i =>
    refine ⟨_, [], rfl, h.change i (Poll.remove_spec h.poll i).1
      (fun j hj => ⟨Function.update_of_ne hj _ _, flags_remove_other s.poll hj⟩) (by simp)
      fun c hc => ?_⟩
    have hnone : (none : Option Client) = some c :=
      (Function.update_self i none s.clients).symm.trans hc
    exact absurd hnone.symm (Option.some_ne_none c)
  | write i data send =>
    obtain ⟨c, hc, hdata, hsend, hroom⟩ := hm
    rw [step, hc]
    exact write_spec h hc hdata hsend hroom
  | suspend i =>
    obtain ⟨c, hc⟩ := Option.isSome_iff_exists.mp hm
    refine ⟨suspend s i c, [], by rw [step, hc]; rfl, ?_⟩
    rw [List.append_nil]
    exact suspend_spec h hc
  | resume i =>
    obtain ⟨c, hc⟩ := Option.isSome_iff_exists.mp hm
    refine ⟨resume s i c, [], by rw [step, hc]; rfl, ?_⟩
    rw [List.append_nil]
    exact resume_spec h hc
  | run events send =>
    obtain ⟨poll, shown, hpoll, hsound, hsockets, -⟩ := Poll.poll_spec h.poll hm.1
    rw [step, run, hpoll]
    refine handle_spec (s := { s with poll }) ⟨hsound, fun i c hc => ?_⟩ _ hm.2
    rw [registeredFlags, hsockets]
    exact h.clients i c hc
  | set socket fd events =>
    refine ⟨_, [], rfl, h.change socket (Poll.set_spec h.poll socket fd events).1
      (fun j hj => ⟨rfl, flags_set_other s.poll fd events hj⟩) (by simp) fun c hc => ?_⟩
    exact absurd (hm.symm.trans hc).symm (Option.some_ne_none c)
  | remove socket =>
    refine ⟨_, [], rfl, h.change socket (Poll.remove_spec h.poll socket).1
      (fun j hj => ⟨rfl, flags_remove_other s.poll hj⟩) (by simp) fun c hc => ?_⟩
    exact absurd (hm.symm.trans hc).symm (Option.some_ne_none c)

/-- **Along runs** the invariant holds. -/
lemma Sound.of_run {trace : List Event} {s : State} (h : system.Run trace s) : Sound trace s := by
  refine h.invariant ?_ ?_
  · rintro s rfl
    exact ⟨Poll.sound_clear, fun i c hc => absurd hc.symm (Option.some_ne_none c)⟩
  · rintro trace s es s' hsound ⟨A, m, hm, hstep⟩
    obtain ⟨s₁, es₁, hstep₁, hs₁⟩ := step_spec hsound hm
    obtain ⟨rfl, rfl⟩ := Prod.mk.inj (Option.some_inj.mp (hstep₁.symm.trans hstep))
    exact hs₁

/-- **Every run**: for each client, what the kernel has accepted and the contents of `_sendBuffer`
    are together what was written with success, in order; the client is registered with the flags
    that its state asks for; and no move gets stuck. -/
theorem writes_in_order {trace : List Event} {s : State} (h : system.Run trace s) :
    (∀ i c, s.clients i = some c →
      (∃ l, c.sendBuffer.content = some l
        ∧ (traffic i trace).accepted ++ l = (traffic i trace).written)
      ∧ registeredFlags s.poll i = some c.flags)
    ∧ ∀ A m, Allowed A s m → ∃ s' es, step A s m = some (s', es) := by
  have hsound := Sound.of_run h
  refine ⟨fun i c hc => ?_, fun A m hm => ?_⟩
  · obtain ⟨⟨l, hl, htraffic⟩, -, hflags⟩ := hsound.clients i c hc
    exact ⟨⟨l, hl.content, htraffic⟩, hflags⟩
  · obtain ⟨s', es, hstep, -⟩ := step_spec hsound hm
    exact ⟨s', es, hstep⟩

/-- A byte is appended to an empty `Buffer`. -/
lemma append_one : (Buffer.null 4096).append .first [98] = some (.laid 4096 1 [] [98] [0]) := by
  have hsize : wrapAdd (Buffer.null 4096).size [(98 : UInt8)].length = 1 := by decide
  have hresize : (Buffer.null 4096).resize .first 1 = some (.laid 4096 1 [] [0] [0]) := rfl
  have hend : wrapSub (Buffer.laid 4096 1 [] [0] [0]).bufferEnd [(98 : UInt8)].length = 1 := by
    decide
  have hwrite : (Buffer.laid 4096 1 [] [0] [0]).write 1 [98] = some (.laid 4096 1 [] [98] [0]) :=
    rfl
  rw [Buffer.append, hsize, hresize]
  simp only [Option.bind_eq_bind, Option.bind_some, hend, hwrite]
  rfl

/-- A client to which two bytes are written, of which the kernel accepts one -/
theorem writes_in_order_two :
    ∃ s c, system.Run [.registered 7, .accepted 7 [97], .written 7 [97, 98] true 1] s
      ∧ s.clients 7 = some c
      ∧ (∃ l, c.sendBuffer.content = some l ∧ [97] ++ l = [97, 98])
      ∧ registeredFlags s.poll 7 = some c.flags := by
  let empty : Client := ⟨3, .null 4096, false⟩
  let full : Client := ⟨3, .laid 4096 1 [] [98] [0], false⟩
  let send : ℕ → Sending := fun size => if size = 2 then .accepted 1 else .wouldBlock
  let first : State := State.set ⟨Poll.clear, fun _ => none⟩ 7 empty readFlag
  let second : State := first.set 7 full (readFlag ||| writeFlag)
  have hplace : Buffer.Place 4096 := ⟨by decide, by decide⟩
  have hregister : Allowed .first ⟨Poll.clear, fun _ => none⟩ (.register 7 3 4096) :=
    ⟨rfl, List.not_mem_nil, by decide, hplace⟩
  have hroom : Allocator.first.HasRoom ((Buffer.null 4096).size + 2 + 1) (2 ^ 63) := by
    rw [Buffer.null_size hplace]
    intro m hm
    change 1 + m ≤ 2 ^ 63
    omega
  have hanswers : Answers send := by
    intro size _
    dsimp only [send]
    split_ifs with htwo
    · exact ⟨by decide, by omega, by omega⟩
    · trivial
  have hallowed : Allowed .first first (.write 7 [97, 98] send) :=
    ⟨empty, rfl, by decide, hanswers, hroom⟩
  have hwrite : step .first first (.write 7 [97, 98] send)
      = some (second, [.accepted 7 [97], .written 7 [97, 98] true 1]) := by
    have hempty : empty.sendBuffer.isEmpty = true := rfl
    have hclient : first.clients 7 = some empty := rfl
    have happend : empty.sendBuffer.append .first ([97, 98].drop 1) = some full.sendBuffer :=
      append_one
    have hless : ¬ 1 ≥ [(97 : UInt8), 98].length := by decide
    have hsize : full.sendBuffer.size = 1 := by decide
    have hsend : send [(97 : UInt8), 98].length = .accepted 1 := rfl
    rw [step, hclient, Option.bind_eq_bind, Option.bind_some, write, if_pos hempty, hsend]
    dsimp only
    rw [postpone, if_neg hless, happend]
    simp only [Option.bind_eq_bind, Option.bind_some, hsize]
    rfl
  have hfirst : system.Run [.registered 7] first :=
    System.Run.next (.start rfl) ⟨.first, _, hregister, rfl⟩
  have hsecond : system.Run [.registered 7, .accepted 7 [97], .written 7 [97, 98] true 1] second :=
    hfirst.next ⟨.first, _, hallowed, hwrite⟩
  exact ⟨second, full, hsecond, rfl, (writes_in_order hsecond).1 7 _ rfl⟩

end Nstd.Writing
