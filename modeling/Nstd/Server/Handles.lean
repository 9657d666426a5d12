import Nstd.Server.Writing

/-!
# The objects of a `Server`

Listeners, establishers and clients are known by their addresses, which the tables of `_sockets`,
`_closingClients` and the resolvers hold.  Callbacks of `run` may make and remove any of them.

* `Object`, `Resolver`, `State` — what is in the pools, and where `run` is.
* `listen`, `connect`, `connectHost`, `pair`, `removeClient`, `removeListener`, `removeEstablisher`,
  `write`, `read`, `suspend`, `resume` — what the user may call.
* `run` — the steps of `run`, between which callbacks are called.
* `step`, `system` — all that may happen.

A field of an object is read from its pool.  A step fails if the object is not there any more, and
also if it calls a callback that is null.  Of the bytes in a `_sendBuffer` only their number matters.
-/

namespace Nstd.Handles

open Poll (readFlag writeFlag acceptFlag connectFlag)
open InsertionMap

/-- The fields of a `ClientImpl`, and its descriptor.  `callback` tells whether there is one, and
    `pending` the size of `_sendBuffer`. -/
structure Client where
  s : ℤ
  callback : Bool
  pending : ℕ
  suspended : Bool

/-- A listener, an establisher or a client -/
inductive Object
  | listener (s : ℤ)
  | establisher (s : ℤ) (resolver : Option ℕ)
  | client (c : Client)

/-- The fields of a `Resolver` -/
structure Resolver where
  establisher : Option ℕ
  finished : Bool

/-- What `run` does next -/
inductive Next
  /-- The begin of the loop, where timers are activated -/
  | timers
  /-- `while (!_closingClients.isEmpty())` -/
  | closing
  | poll
  /-- The loop over the resolvers has come to one of them, or to the end. -/
  | visit (i : Option ℕ)
  /-- `_resolvers.remove(resolver)`; `i` comes after it. -/
  | finish (resolver : ℕ) (i : Option ℕ)
  /-- `onAccepted` or `onConnected` has returned. -/
  | accepted (client : ℕ)

/-- The fields of `Server::Private`.  While code of the user runs, outside of `run` or in a callback,
    `user` holds, and `next` comes after it. -/
structure State where
  poll : Poll.State
  objects : ℕ → Option Object
  resolvers : List (ℕ × Resolver)
  closingClients : List ℕ
  user : Bool
  next : Next

namespace State

/-- The client at an address -/
def client (s : State) (a : ℕ) : Option Client :=
  match s.objects a with
  | some (.client c) => some c
  | _ => none

/-- The listener at an address -/
def listener (s : State) (a : ℕ) : Option ℤ :=
  match s.objects a with
  | some (.listener fd) => some fd
  | _ => none

/-- The establisher at an address: its descriptor and `resolver` -/
def establisher (s : State) (a : ℕ) : Option (ℤ × Option ℕ) :=
  match s.objects a with
  | some (.establisher fd resolver) => some (fd, resolver)
  | _ => none

/-- An object is made, or its fields are changed. -/
def put (s : State) (a : ℕ) (object : Object) : State :=
  { s with objects := Function.update s.objects a (some object) }

/-- `_sockets.set` -/
def set (s : State) (a : ℕ) (fd : ℤ) (events : Flags) : State :=
  { s with poll := Poll.set s.poll a fd events }

/-- `_sockets.remove` -/
def unset (s : State) (a : ℕ) : State := { s with poll := Poll.remove s.poll a }

/-- `_closingClients.append` -/
def close (s : State) (a : ℕ) : State :=
  if a ∈ s.closingClients then s else { s with closingClients := s.closingClients ++ [a] }

/-- An object leaves its pool, after `_sockets.remove`. -/
def delete (s : State) (a : ℕ) : State :=
  { s.unset a with objects := Function.update s.objects a none }

/-- `run` goes on. -/
def goto (s : State) (next : Next) : State := { s with user := false, next }

/-- A callback is called that is there for sure. -/
def call (s : State) (next : Next) : State := { s with user := true, next }

end State

/-- A callback of a client is called. -/
def Client.call (c : Client) (s : State) (next : Next) : Option State :=
  if c.callback then some (s.call next) else none

/-! ## Calls of the user -/

/-- `listen`, when all goes well -/
def listen (s : State) (a : ℕ) (fd : ℤ) : State := (s.put a (.listener fd)).set a fd acceptFlag

/-- `connect` to an address, when all goes well -/
def connect (s : State) (a : ℕ) (fd : ℤ) : State :=
  (s.put a (.establisher fd none)).set a fd connectFlag

/-- `connect` to a host whose name has to be resolved -/
def connectHost (s : State) (a resolver : ℕ) : State :=
  { s.put a (.establisher (-1) (some resolver)) with
    resolvers := append resolver ⟨some a, false⟩ s.resolvers }

/-- `pair`, when all goes well -/
def pair (s : State) (a : ℕ) (fd : ℤ) : State :=
  (s.put a (.client ⟨fd, true, 0, false⟩)).set a fd readFlag

/-- `deleteClient` -/
def deleteClient (s : State) (a : ℕ) : State :=
  State.delete { s with closingClients := s.closingClients.filter (· ≠ a) } a

/-- `remove(ClientImpl&)` -/
def removeClient (s : State) (a : ℕ) (c : Client) : State :=
  if c.callback then deleteClient s a else s.close a

/-- `remove(EstablisherImpl&)` -/
def removeEstablisher (s : State) (a : ℕ) (resolver : Option ℕ) : Option State :=
  match resolver with
  | none => some (s.delete a)
  | some r => do
    let resolver ← find? r s.resolvers
    let resolvers := append r { resolver with establisher := none } s.resolvers
    some (State.delete { s with resolvers } a)

/-- `remove`, which is called with any handle -/
def remove (s : State) (a : ℕ) : Option State :=
  match s.objects a with
  | none => none
  | some (.listener _) => some (s.delete a)
  | some (.establisher _ resolver) => removeEstablisher s a resolver
  | some (.client c) => some (removeClient s a c)

/-- The rest of `write` when some of the bytes were sent -/
def postpone (s : State) (a : ℕ) (c : Client) (size sent : ℕ) : State :=
  if sent ≥ size then s
  else
    (s.put a (.client { c with pending := size - sent })).set a c.s
      (if c.suspended then writeFlag else readFlag ||| writeFlag)

/-- `write` -/
def write (s : State) (a : ℕ) (c : Client) (size : ℕ) (sending : Writing.Sending) : State :=
  if c.pending = 0 then
    match sending with
    | .wouldBlock => postpone s a c size 0
    | .failed => s.close a
    | .accepted sent => postpone s a c size sent
  else s.put a (.client { c with pending := c.pending + size })

/-- `read`; `closed` is a connection that was closed, or an error other than `EWOULDBLOCK`. -/
def read (s : State) (a : ℕ) (closed : Bool) : State := if closed then s.close a else s

/-- `suspend` -/
def suspend (s : State) (a : ℕ) (c : Client) : State :=
  if c.suspended then s
  else (s.put a (.client { c with suspended := true })).set a c.s
    (if c.pending = 0 then 0 else writeFlag)

/-- `resume` -/
def resume (s : State) (a : ℕ) (c : Client) : State :=
  if c.suspended then
    (s.put a (.client { c with suspended := false })).set a c.s
      (if c.pending = 0 then readFlag else readFlag ||| writeFlag)
  else s

/-! ## Steps of `run` -/

/-- What a step depends on besides the state -/
structure Outcome where
  /-- A timer is due. -/
  timer : Bool
  /-- What a wait returns -/
  events : Poll.Events
  /-- The name of a host could be resolved. -/
  resolved : Bool
  /-- Functions of `Socket` succeed. -/
  success : Bool
  /-- A descriptor that was opened or accepted -/
  fd : ℤ
  /-- The address of a new client -/
  address : ℕ
  sending : Writing.Sending
  /-- `onAccepted` or `onConnected` has returned a callback. -/
  callback : Bool
  /-- `_interrupted` -/
  interrupted : Bool

/-- A new client is registered, and `onAccepted` or `onConnected` is called. -/
def accept (s : State) (a : ℕ) (fd : ℤ) : State :=
  ((s.put a (.client ⟨fd, false, 0, false⟩)).set a fd readFlag).call (.accepted a)

/-- The end of a write event -/
def finish (s : State) (a : ℕ) (c : Client) : Option State :=
  if c.pending = 0 then
    c.call ((s.put a (.client c)).set a c.s (if c.suspended then 0 else readFlag)) .timers
  else some ((s.put a (.client c)).goto .timers)

/-- A write event -/
def writeReady (s : State) (a : ℕ) (c : Client) (sending : Writing.Sending) : Option State :=
  if c.pending = 0 then finish s a c
  else
    match sending with
    | .wouldBlock => some (s.goto .timers)
    | .failed => c.call ((s.put a (.client { c with pending := 0 })).unset a) .timers
    | .accepted sent => finish s a { c with pending := c.pending - sent }

/-- A connect event -/
def connected (s : State) (a : ℕ) (fd : ℤ) (resolver : Option ℕ) (o : Outcome) : State :=
  let s := s.unset a
  if o.success then accept (s.put a (.establisher (-1) resolver)) o.address fd else s.call .timers

/-- What is done with an event -/
def handle (s : State) (event : Poll.Event) (o : Outcome) : Option State :=
  if event.flags = 0 then some (s.goto (.visit (keys s.resolvers).head?))
  else do
    let a ← event.socket
    if event.flags &&& readFlag ≠ 0 then do
      let c ← s.client a
      c.call s .timers
    else if event.flags &&& writeFlag ≠ 0 then do
      let c ← s.client a
      writeReady s a c o.sending
    else if event.flags &&& acceptFlag ≠ 0 then do
      let _ ← s.listener a
      some (if o.success then accept s o.address o.fd else s.goto .timers)
    else if event.flags &&& connectFlag ≠ 0 then do
      let (fd, resolver) ← s.establisher a
      some (connected s a fd resolver o)
    else some (s.goto .timers)

/-- The resolver after another one -/
def after (r : ℕ) : List ℕ → Option ℕ
  | [] => none
  | i :: l => if i = r then l.head? else after r l

/-- A resolver is looked at. -/
def visit (s : State) (r : ℕ) (o : Outcome) : Option State := do
  let resolver ← find? r s.resolvers
  let i := after r (keys s.resolvers)
  if resolver.finished then
    match resolver.establisher with
    | none => some (s.goto (.finish r i))
    | some a => do
      let (fd, _) ← s.establisher a
      if o.resolved then
        if o.success then
          some (((s.put a (.establisher o.fd none)).set a o.fd connectFlag).goto (.finish r i))
        else some ((s.put a (.establisher o.fd none)).call (.finish r i))
      else some ((s.put a (.establisher fd none)).call (.finish r i))
  else some (s.goto (.visit i))

/-- The next step of `run` -/
def run (s : State) (o : Outcome) : Option State :=
  match s.next with
  | .timers => some (if o.timer then s.call .timers else s.goto .closing)
  | .closing =>
    match s.closingClients with
    | [] => some (s.goto .poll)
    | a :: closingClients => do
      let s := { s with closingClients }
      let c ← s.client a
      if c.callback then c.call s .closing else some ((deleteClient s a).goto .closing)
  | .poll => do
    let (poll, shown) ← Poll.poll s.poll o.events
    handle { s with poll } (Poll.returned shown) o
  | .visit (some r) => visit s r o
  | .visit none => some (if o.interrupted then s.call .timers else s.goto .timers)
  | .finish r i => do
    let _ ← find? r s.resolvers
    some (State.goto { s with resolvers := InsertionMap.remove r s.resolvers } (.visit i))
  | .accepted a => do
    let c ← s.client a
    some (if o.callback then (s.put a (.client { c with callback := true })).goto .timers
      else (deleteClient s a).goto .timers)

/-! ## All that may happen -/

/-- What may happen -/
inductive Move
  | listen (a : ℕ) (fd : ℤ)
  | connect (a : ℕ) (fd : ℤ)
  | connectHost (a resolver : ℕ)
  | pair (a : ℕ) (fd : ℤ)
  | remove (a : ℕ)
  | write (a size : ℕ) (sending : Writing.Sending)
  | read (a : ℕ) (closed : Bool)
  | suspend (a : ℕ)
  | resume (a : ℕ)
  /-- The user calls `run`, or a callback returns. -/
  | leave
  /-- A thread has resolved the name of a host. -/
  | finished (resolver : ℕ)
  | run (o : Outcome)

/-- A move -/
def step (s : State) : Move → Option State
  | .listen a fd => some (listen s a fd)
  | .connect a fd => some (connect s a fd)
  | .connectHost a resolver => some (connectHost s a resolver)
  | .pair a fd => some (pair s a fd)
  | .remove a => remove s a
  | .write a size sending => do
    let c ← s.client a
    some (write s a c size sending)
  | .read a closed => do
    let _ ← s.client a
    some (read s a closed)
  | .suspend a => do
    let c ← s.client a
    some (suspend s a c)
  | .resume a => do
    let c ← s.client a
    some (resume s a c)
  | .leave => some { s with user := false }
  | .finished r => do
    let resolver ← find? r s.resolvers
    some { s with resolvers := append r { resolver with finished := true } s.resolvers }
  | .run o => run s o

/-- **What may happen when**: the user's code runs outside of the steps of `run`, and uses handles of
    objects that are there; new objects have other addresses than those that are there. -/
def Allowed (s : State) : Move → Prop
  | .listen a _ => s.user ∧ s.objects a = none
  | .connect a _ => s.user ∧ s.objects a = none
  | .connectHost a resolver => s.user ∧ s.objects a = none ∧ resolver ∉ keys s.resolvers
  | .pair a _ => s.user ∧ s.objects a = none
  | .remove a => s.user ∧ (s.objects a).isSome
  | .write a _ _ => s.user ∧ (s.client a).isSome
  | .read a _ => s.user ∧ (s.client a).isSome
  | .suspend a => s.user ∧ (s.client a).isSome
  | .resume a => s.user ∧ (s.client a).isSome
  | .leave => s.user
  | .finished r => r ∈ keys s.resolvers
  | .run o => s.user = false ∧ Poll.Allowed s.poll (.poll o.events) ∧ s.objects o.address = none

/-- A server, its user and the threads that resolve names -/
def system : System State Move where
  initial s := s = ⟨Poll.clear, fun _ => none, [], [], true, .timers⟩
  step s ms s' := ∃ m, Allowed s m ∧ step s m = some s' ∧ ms = [m]

end Nstd.Handles
