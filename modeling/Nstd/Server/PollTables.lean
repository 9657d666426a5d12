import Mathlib.Data.List.InsertIdx
import Mathlib.Data.List.Nodup
import Mathlib.Data.Set.Function
import Nstd.Core.Lists
import Nstd.Server.Poll

/-!
# `Socket::Poll` on `poll`

The variant for systems without `epoll`.  Four tables tell which sockets are registered, and one of
them is the array that `::poll` is called with.

* `set`, `remove`, `clear`, `scan`, `poll` — the code.
* `Registration`, `Represents` — one list that all tables are made from.
* `Consistent` — what the tables have to do with each other.
* `set_represents`, `remove_represents`, `scan_represents` — each operation is one on the list.
* **`tables_consistent`** — in every run the tables agree.

A socket is known by its address, and so are the items of `sockets`, which are pointed at.  Sockets
are opened and closed while they are not registered, and no two have the same descriptor.
-/

namespace Nstd.PollTables

open InsertionMap
open Poll (readFlag writeFlag acceptFlag connectFlag Event)

/-- A `short` -/
abbrev Short := BitVec 16

def pollIn : Short := 0x001
def pollOut : Short := 0x004
def pollHup : Short := 0x010
def pollRdHup : Short := 0x2000

/-- `mapEvents` -/
def mapEvents (events : Flags) : Short :=
  let pollEvents := if events &&& (readFlag ||| acceptFlag) ≠ 0 then
    pollIn ||| pollRdHup ||| pollHup else 0
  if events &&& (writeFlag ||| connectFlag) ≠ 0 then
    pollEvents ||| (pollOut ||| pollRdHup ||| pollHup)
  else pollEvents

/-- `unmapEvents` -/
def unmapEvents (nativeEvents : Short) (events : Flags) : Flags :=
  let result := if nativeEvents &&& (pollIn ||| pollRdHup ||| pollHup) ≠ 0 then
    events &&& (readFlag ||| acceptFlag) else 0
  if nativeEvents &&& pollOut ≠ 0
      ∨ result = 0 ∧ nativeEvents &&& (pollRdHup ||| pollHup) ≠ 0 then
    result ||| (events &&& (writeFlag ||| connectFlag))
  else result

structure Pollfd where
  fd : ℤ
  events : Short
  revents : Short

structure SocketInfo where
  socket : ℕ
  index : ℕ
  events : Flags

/-- An item of `sockets`: where it is, and what is in it -/
structure Item where
  address : ℕ
  value : SocketInfo

/-- The fields of `Socket::Poll::Private` -/
structure State where
  interruptFd : ℤ
  pollfds : List Pollfd
  sockets : List (ℕ × Item)
  fdToSocket : List (ℤ × ℕ)
  selectedSockets : List (ℕ × Flags)

/-- The constructor; `interruptFd` is what `eventfd` gives. -/
def create (interruptFd : ℤ) : State :=
  ⟨interruptFd, [⟨interruptFd, pollIn ||| pollRdHup ||| pollHup, 0⟩], [], [], []⟩

section Array

variable {T : Type}

/-- `Array::resize` -/
def resize (a : List T) (size : ℕ) (value : T) : List T :=
  a.take size ++ List.replicate (size - a.length) value

/-- The loop of `Array::remove`: elements move up to the position; `n` of them are left. -/
def moveUp (a : List T) (pos : ℕ) : ℕ → List T
  | 0 => a
  | n + 1 =>
    match a[pos + 1]? with
    | none => a
    | some next => moveUp (a.set pos next) (pos + 1) n

/-- `Array::remove(usize index)` -/
def removeIndex (a : List T) (index : ℕ) : List T :=
  if index < a.length then (moveUp a index (a.length - 1 - index)).dropLast else a

/-- What is removed from an array is gone, and nothing else. -/
lemma removeIndex_eq (a : List T) (index : ℕ) : removeIndex a index = a.eraseIdx index := by
  have hloop : ∀ (n : ℕ) (a : List T) (pos : ℕ), pos + n + 1 = a.length →
      (moveUp a pos n).dropLast = a.eraseIdx pos := by
    intro n
    induction n with
    | zero => exact fun a pos hlen => List.dropLast_eq_eraseIdx hlen
    | succ n ih =>
      intro a pos hlen
      have hlt : pos + 1 < a.length := by omega
      rw [moveUp, List.getElem?_eq_getElem hlt]
      dsimp only
      rw [ih _ _ (by rw [List.length_set]; omega)]
      refine List.ext_getElem? fun j => ?_
      rw [List.getElem?_eraseIdx, List.getElem?_eraseIdx, List.getElem?_set, List.getElem?_set]
      grind
  rw [removeIndex]
  split_ifs with hindex
  · exact hloop _ a index (by omega)
  · exact (List.eraseIdx_of_length_le (Nat.le_of_not_lt hindex)).symm

end Array

/-- `clear` -/
def clear (p : State) : State :=
  { p with
    pollfds := resize p.pollfds 1 ⟨0, 0, 0⟩
    sockets := []
    fdToSocket := []
    selectedSockets := [] }

/-- `set`; `s` is the descriptor of the socket, and a new item of `sockets` is at `address`. -/
def set (p : State) (socket : ℕ) (s : ℤ) (events : Flags) (address : ℕ) : Option State :=
  match find? socket p.sockets with
  | some ⟨item, sockInfo⟩ =>
    if sockInfo.events = events then some p
    else if sockInfo.index < p.pollfds.length then
      let removedEvents := sockInfo.events &&& ~~~events
      let selectedSockets := match find? sockInfo.socket p.selectedSockets with
        | none => p.selectedSockets
        | some selectedEvents =>
          let selectedEvents := selectedEvents &&& ~~~removedEvents
          if selectedEvents = 0 then InsertionMap.remove sockInfo.socket p.selectedSockets
          else append sockInfo.socket selectedEvents p.selectedSockets
      some { p with
        pollfds := p.pollfds.modify sockInfo.index
          fun pfd => { pfd with events := mapEvents events }
        sockets := append socket ⟨item, { sockInfo with events }⟩ p.sockets
        selectedSockets }
    else none
  | none =>
    if s = -1 then some p
    else
      some { p with
        sockets := append socket ⟨address, ⟨socket, p.pollfds.length, events⟩⟩ p.sockets
        fdToSocket := append s address p.fdToSocket
        pollfds := p.pollfds ++ [⟨s, mapEvents events, 0⟩] }

/-- An entry of `pollfds` has gone: those behind it have moved up. -/
def moveIndex (index : ℕ) (e : ℕ × Item) : ℕ × Item :=
  if index < e.2.value.index then
    (e.1, { e.2 with value := { e.2.value with index := e.2.value.index - 1 } })
  else e

/-- `remove` -/
def remove (p : State) (socket : ℕ) : Option State :=
  match find? socket p.sockets with
  | none => some p
  | some item => do
    let index := item.value.index
    let pfd ← p.pollfds[index]?
    some { p with
      fdToSocket := InsertionMap.remove pfd.fd p.fdToSocket
      pollfds := removeIndex p.pollfds index
      sockets := (InsertionMap.remove socket p.sockets).map (moveIndex index)
      selectedSockets := InsertionMap.remove socket p.selectedSockets }

/-- The `SocketInfo` that is pointed at -/
def deref (p : State) (address : ℕ) : Option SocketInfo :=
  (p.sockets.find? fun e => e.2.address = address).map fun e => e.2.value

/-- What `::poll` answers: the entries have new `revents`, or nothing has changed. -/
inductive Answer
  | ready (revents : List Short)
  | failed

/-- What `::poll` returns -/
def Answer.count : Answer → ℤ
  | .ready revents => revents.countP (· ≠ 0)
  | .failed => -1

/-- What `::poll` writes -/
def Answer.fill (pollfds : List Pollfd) : Answer → List Pollfd
  | .ready revents => List.zipWith (fun pfd revents => { pfd with revents }) pollfds revents
  | .failed => pollfds

/-- There is an answer for each entry. -/
def Answer.Fits (pollfds : List Pollfd) : Answer → Prop
  | .ready revents => revents.length = pollfds.length
  | .failed => True

/-- What the loop of `poll` does with an entry that has `revents`; `sockInfo` is the socket's. -/
def mark (p : State) (i : ℕ) (revents : Short) (sockInfo : SocketInfo) : State :=
  { p with
    selectedSockets :=
      append sockInfo.socket (unmapEvents revents sockInfo.events) p.selectedSockets
    pollfds := p.pollfds.modify i fun pfd => { pfd with revents := 0 } }

/-- The loop of `poll` from the entry `i` on, which reads `n` more at most, and the entries it has
    read; `beyond` is in the memory behind the array. -/
def scan (beyond : Pollfd) : ℕ → State → ℕ → ℕ → Option (State × List ℕ)
  | 0, p, _, _ => some (p, [])
  | n + 1, p, i, count =>
    let pfd := p.pollfds.getD i beyond
    if pfd.revents = 0 then do
      let (p, reads) ← scan beyond n p (i + 1) count
      some (p, i :: reads)
    else do
      let sockInfo ← deref p (← find? pfd.fd p.fdToSocket)
      let p := mark p i pfd.revents sockInfo
      if count - 1 = 0 then some (p, [i])
      else do
        let (p, reads) ← scan beyond n p (i + 1) (count - 1)
        some (p, i :: reads)

/-- What is left after a call of `poll`: the tables, the event, the entries of `pollfds` that the
    loop has read, and whether `interruptFd` was read -/
structure Polled where
  state : State
  event : Event
  reads : List ℕ
  interrupted : Bool

/-- The end of `poll`: the oldest socket that is selected is handed out. -/
def take (p : State) (reads : List ℕ) (interrupted : Bool) : Option Polled :=
  match p.selectedSockets with
  | [] => none
  | (socket, flags) :: selectedSockets =>
    some ⟨{ p with selectedSockets }, ⟨flags, some socket⟩, reads, interrupted⟩

/-- The loop of `poll`, which is run when something is ready -/
def collect (p : State) (answer : Answer) (beyond : Pollfd) : Option (State × List ℕ) :=
  let p := { p with pollfds := answer.fill p.pollfds }
  if 0 < answer.count then scan beyond p.pollfds.length p 1 answer.count.toNat else some (p, [])

/-- `poll`; `interrupted` is what is in this variable when it has been given no value. -/
def poll (p : State) (answer : Answer) (beyond : Pollfd) (interrupted : Bool) : Option Polled :=
  if p.selectedSockets.isEmpty then do
    let (p, reads) ← collect p answer beyond
    let pfd ← p.pollfds[0]?
    let interrupted :=
      if p.selectedSockets.isEmpty then interrupted else pfd.revents &&& pollIn ≠ 0
    if p.selectedSockets.isEmpty ∨ interrupted then
      let pollfds := if interrupted then
        p.pollfds.modify 0 fun pfd => { pfd with revents := 0 } else p.pollfds
      some ⟨{ p with pollfds }, .null, reads, interrupted⟩
    else take p reads interrupted
  else take p [] false

/-- A poll, and the descriptors that sockets have; a socket that is not open has −1. -/
structure World where
  tables : State
  descriptor : ℕ → ℤ

/-- No two sockets have the same descriptor. -/
def Distinct (descriptor : ℕ → ℤ) : Prop :=
  ∀ a b, descriptor a = descriptor b → descriptor a ≠ -1 → a = b

/-- What may happen -/
inductive Move
  | reopen (socket : ℕ) (s : ℤ)
  | set (socket : ℕ) (events : Flags) (address : ℕ)
  | remove (socket : ℕ)
  | clear
  | poll (answer : Answer) (beyond : Pollfd) (interrupted : Bool)

/-- A socket is opened or closed while it is not registered, a new item is not where another one
    is, and `::poll` answers for each entry. -/
def Allowed (w : World) : Move → Prop
  | .reopen socket s => socket ∉ keys w.tables.sockets
      ∧ Distinct (Function.update w.descriptor socket s)
  | .set _ _ address => ∀ e ∈ w.tables.sockets, e.2.address ≠ address
  | .poll answer _ _ => answer.Fits w.tables.pollfds
  | _ => True

/-- A move -/
def step (w : World) : Move → Option World
  | .reopen socket s => some { w with descriptor := Function.update w.descriptor socket s }
  | .set socket events address =>
    (set w.tables socket (w.descriptor socket) events address).map fun tables => { w with tables }
  | .remove socket => (remove w.tables socket).map fun tables => { w with tables }
  | .clear => some { w with tables := clear w.tables }
  | .poll answer beyond interrupted =>
    (poll w.tables answer beyond interrupted).map fun polled => { w with tables := polled.state }

/-- A poll and all that is done with it -/
def system : System World Move where
  initial w := (∃ interruptFd, w.tables = create interruptFd) ∧ Distinct w.descriptor
  step w ms w' := ∃ m, ms = [m] ∧ Allowed w m ∧ step w m = some w'

/-! ## The tables -/

/-- What `::poll` is asked -/
def Pollfd.request (pfd : Pollfd) : ℤ × Short := (pfd.fd, pfd.events)

/-- The index of a socket -/
def indexOf (p : State) (socket : ℕ) : ℕ :=
  ((find? socket p.sockets).map fun item => item.value.index).getD 0

/-- **The tables agree.** -/
structure Consistent (w : World) : Prop where
  interrupt : ∃ pfd, w.tables.pollfds[0]? = some pfd ∧ pfd.fd = w.tables.interruptFd
  index : Set.BijOn (indexOf w.tables) {socket | socket ∈ keys w.tables.sockets}
    {index | 1 ≤ index ∧ index < w.tables.pollfds.length}
  pollfd : ∀ socket item, find? socket w.tables.sockets = some item →
    ∃ pfd, w.tables.pollfds[item.value.index]? = some pfd
      ∧ pfd.fd = w.descriptor socket ∧ pfd.events = mapEvents item.value.events
  socket : ∀ socket item, find? socket w.tables.sockets = some item →
    item.value.socket = socket ∧ deref w.tables item.address = some item.value
  fdToSocket : ∀ fd address, find? fd w.tables.fdToSocket = some address ↔
    ∃ socket item, find? socket w.tables.sockets = some item
      ∧ item.address = address ∧ w.descriptor socket = fd
  selected : ∀ socket ∈ keys w.tables.selectedSockets, socket ∈ keys w.tables.sockets

/-- A socket that is registered, where its item is, and its events -/
structure Registration where
  socket : ℕ
  address : ℕ
  events : Flags

/-- The items of `sockets`, where the first has the index `n` -/
def items (n : ℕ) : List Registration → List (ℕ × Item)
  | [] => []
  | r :: rs => (r.socket, ⟨r.address, ⟨r.socket, n, r.events⟩⟩) :: items (n + 1) rs

/-- What `::poll` is asked for a socket -/
def Registration.request (descriptor : ℕ → ℤ) (r : Registration) : ℤ × Short :=
  (descriptor r.socket, mapEvents r.events)

/-- **All tables are made from one list**, oldest first. -/
structure Represents (rs : List Registration) (w : World) : Prop where
  sockets : w.tables.sockets = items 1 rs
  fdToSocket : w.tables.fdToSocket = rs.map fun r => (w.descriptor r.socket, r.address)
  pollfds : w.tables.pollfds.map Pollfd.request
    = (w.tables.interruptFd, pollIn ||| pollRdHup ||| pollHup)
      :: rs.map (Registration.request w.descriptor)
  nodup : (rs.map Registration.socket).Nodup
  addresses : (rs.map Registration.address).Nodup
  opened : ∀ r ∈ rs, w.descriptor r.socket ≠ -1
  selected : ∀ socket ∈ keys w.tables.selectedSockets, socket ∈ rs.map Registration.socket
  distinct : Distinct w.descriptor

lemma keys_items (n : ℕ) (rs : List Registration) : keys (items n rs) = rs.map Registration.socket := by
  induction rs generalizing n with
  | nil => rfl
  | cons r rs ih => rw [items, keys_cons, ih, List.map_cons]

lemma items_append (n : ℕ) (rs₁ rs₂ : List Registration) :
    items n (rs₁ ++ rs₂) = items n rs₁ ++ items (n + rs₁.length) rs₂ := by
  induction rs₁ generalizing n with
  | nil => rfl
  | cons r rs₁ ih =>
    rw [List.cons_append, items, items, ih, List.cons_append, List.length_cons,
      Nat.add_right_comm, Nat.add_assoc]

/-- The items in front of the one that goes stay as they are. -/
lemma moveIndex_front {index n : ℕ} {rs : List Registration} (h : n + rs.length ≤ index + 1) :
    (items n rs).map (moveIndex index) = items n rs := by
  induction rs generalizing n with
  | nil => rfl
  | cons r rs ih =>
    rw [List.length_cons] at h
    have hle : ¬ index < n := by omega
    rw [items, List.map_cons, ih (by omega), moveIndex, if_neg hle]

/-- The items behind the one that goes have their indices lowered. -/
lemma moveIndex_behind {index n : ℕ} (h : index ≤ n) (rs : List Registration) :
    (items (n + 1) rs).map (moveIndex index) = items n rs := by
  induction rs generalizing n with
  | nil => rfl
  | cons r rs ih =>
    have hlt : index < n + 1 := by omega
    rw [items, items, List.map_cons, ih (by omega), moveIndex, if_pos hlt, Nat.add_sub_cancel]

/-- What a registered socket has in the tables -/
structure Found (rs₁ : List Registration) (r : Registration) (rs₂ : List Registration) (w : World) :
    Prop where
  represents : Represents (rs₁ ++ r :: rs₂) w
  front : r.socket ∉ rs₁.map Registration.socket
  behind : r.socket ∉ rs₂.map Registration.socket

lemma Represents.length {rs : List Registration} {w : World} (h : Represents rs w) :
    w.tables.pollfds.length = 1 + rs.length := by
  have hmap := congrArg List.length h.pollfds
  rw [List.length_map, List.length_cons, List.length_map] at hmap
  omega

/-- The first entry of `pollfds` is the one of interrupts. -/
lemma Represents.first {rs : List Registration} {w : World} (h : Represents rs w) :
    ∃ pfd pfds, w.tables.pollfds = pfd :: pfds
      ∧ pfd.request = (w.tables.interruptFd, pollIn ||| pollRdHup ||| pollHup) := by
  have hpollfds := h.pollfds
  cases hlist : w.tables.pollfds with
  | nil => simp [hlist] at hpollfds
  | cons pfd pfds =>
    rw [hlist, List.map_cons, List.cons.injEq] at hpollfds
    exact ⟨pfd, pfds, rfl, hpollfds.1⟩

/-- A socket that is in the list -/
lemma Represents.middle {rs₁ rs₂ : List Registration} {r : Registration} {w : World}
    (h : Represents (rs₁ ++ r :: rs₂) w) : Found rs₁ r rs₂ w :=
  have hnodup := nodup_map_middle h.nodup
  ⟨h, hnodup.1, hnodup.2.1⟩

/-- A socket is in the list, or it is not in `sockets`. -/
lemma Represents.find {rs : List Registration} {w : World} (h : Represents rs w) (socket : ℕ) :
    find? socket w.tables.sockets = none ∧ socket ∉ rs.map Registration.socket
      ∨ ∃ rs₁ r rs₂, rs = rs₁ ++ r :: rs₂ ∧ r.socket = socket ∧ Found rs₁ r rs₂ w := by
  by_cases hmem : socket ∈ rs.map Registration.socket
  · obtain ⟨r, hr, rfl⟩ := List.mem_map.mp hmem
    obtain ⟨rs₁, rs₂, rfl⟩ := List.append_of_mem hr
    exact .inr ⟨rs₁, r, rs₂, rfl, rfl, h.middle⟩
  · refine .inl ⟨find?_eq_none_iff.mpr ?_, hmem⟩
    rwa [h.sockets, keys_items]

section Found

variable {rs₁ rs₂ : List Registration} {r : Registration} {w : World}

lemma Found.sockets (h : Found rs₁ r rs₂ w) : w.tables.sockets = items 1 rs₁
    ++ (r.socket, ⟨r.address, ⟨r.socket, 1 + rs₁.length, r.events⟩⟩)
      :: items (1 + rs₁.length + 1) rs₂ := by
  rw [h.represents.sockets, items_append, items]

lemma Found.find? (h : Found rs₁ r rs₂ w) : find? r.socket w.tables.sockets
    = some ⟨r.address, ⟨r.socket, 1 + rs₁.length, r.events⟩⟩ := by
  rw [h.sockets]
  exact find?_middle (by rw [keys_items]; exact h.front) _ _

/-- The entry of a socket in `pollfds` is the one at its index. -/
lemma Found.pollfd (h : Found rs₁ r rs₂ w) :
    ∃ pfd, w.tables.pollfds[1 + rs₁.length]? = some pfd
      ∧ pfd.request = r.request w.descriptor := by
  have hrequest : (w.tables.pollfds.map Pollfd.request)[1 + rs₁.length]?
      = some (r.request w.descriptor) := by
    rw [h.represents.pollfds, Nat.add_comm, List.getElem?_cons_succ, List.map_append,
      List.getElem?_append_right (by simp), List.length_map, Nat.sub_self]
    rfl
  rw [List.getElem?_map] at hrequest
  exact Option.map_eq_some_iff.mp hrequest

/-- No other socket that is registered has the descriptor. -/
lemma Found.descriptor (h : Found rs₁ r rs₂ w) (f : Registration → ℕ) {rs : List Registration}
    (hrs : r.socket ∉ rs.map Registration.socket) :
    w.descriptor r.socket ∉ keys (rs.map fun r => (w.descriptor r.socket, f r)) := by
  rw [keys, List.map_map]
  intro hmem
  obtain ⟨r', hr', heq⟩ := List.mem_map.mp hmem
  have hopen := h.represents.opened r (List.mem_append_right _ List.mem_cons_self)
  have hsocket := h.represents.distinct r.socket r'.socket heq.symm hopen
  exact hrs (hsocket ▸ List.mem_map_of_mem hr')

end Found

/-! ## Operations -/

/-- The poll that was just created -/
lemma create_represents (interruptFd : ℤ) {descriptor : ℕ → ℤ} (h : Distinct descriptor) :
    Represents [] ⟨create interruptFd, descriptor⟩ :=
  ⟨rfl, rfl, rfl, List.nodup_nil, List.nodup_nil, by simp, by simp [create, keys], h⟩

/-- Sockets that are not registered are opened and closed. -/
lemma reopen_represents {rs : List Registration} {w : World} (h : Represents rs w) {socket : ℕ}
    {s : ℤ} (hallowed : Allowed w (.reopen socket s)) :
    Represents rs { w with descriptor := Function.update w.descriptor socket s } := by
  have hne : ∀ r ∈ rs, r.socket ≠ socket := by
    rintro r hr rfl
    refine hallowed.1 ?_
    rw [h.sockets, keys_items]
    exact List.mem_map_of_mem hr
  have hsame : ∀ r ∈ rs, Function.update w.descriptor socket s r.socket = w.descriptor r.socket :=
    fun r hr => Function.update_of_ne (hne r hr) s w.descriptor
  refine ⟨h.sockets, h.fdToSocket.trans ?_, h.pollfds.trans ?_, h.nodup, h.addresses,
    fun r hr => ?_, h.selected, hallowed.2⟩
  · refine List.map_congr_left fun r hr => ?_
    dsimp only
    rw [hsame r hr]
  · refine congrArg _ (List.map_congr_left fun r hr => ?_)
    dsimp only [Registration.request]
    rw [hsame r hr]
  · dsimp only
    rw [hsame r hr]
    exact h.opened r hr

/-- `clear` leaves the descriptor of interrupts. -/
lemma clear_represents {rs : List Registration} {w : World} (h : Represents rs w) :
    Represents [] { w with tables := clear w.tables } := by
  refine ⟨rfl, rfl, ?_, List.nodup_nil, List.nodup_nil, by simp, by simp [clear, keys], h.distinct⟩
  obtain ⟨pfd, pfds, hlist, hrequest⟩ := h.first
  simp [clear, resize, hlist, hrequest]

/-- A socket is registered that was not. -/
lemma register_represents {rs : List Registration} {w : World} (h : Represents rs w) {socket : ℕ}
    (hnew : socket ∉ rs.map Registration.socket) (hopen : w.descriptor socket ≠ -1)
    {events : Flags} {address : ℕ} (hallowed : Allowed w (.set socket events address)) :
    ∃ tables, set w.tables socket (w.descriptor socket) events address = some tables
      ∧ Represents (rs ++ [⟨socket, address, events⟩]) { w with tables } := by
  have hkeys : socket ∉ keys w.tables.sockets := by rwa [h.sockets, keys_items]
  have hfd : w.descriptor socket ∉ keys w.tables.fdToSocket := by
    rw [h.fdToSocket, keys, List.map_map]
    intro hmem
    obtain ⟨r, hr, heq⟩ := List.mem_map.mp hmem
    exact hnew (h.distinct socket r.socket heq.symm hopen ▸ List.mem_map_of_mem hr)
  have haddress : address ∉ rs.map Registration.address := by
    intro hmem
    obtain ⟨r, hr, rfl⟩ := List.mem_map.mp hmem
    obtain ⟨rs₁, rs₂, rfl⟩ := List.append_of_mem hr
    refine hallowed (r.socket, ⟨r.address, ⟨r.socket, 1 + rs₁.length, r.events⟩⟩) ?_ rfl
    rw [h.sockets, items_append, items]
    exact List.mem_append_right _ List.mem_cons_self
  rw [set, find?_eq_none_iff.mpr hkeys]
  dsimp only
  rw [if_neg hopen, append_of_notMem hkeys, append_of_notMem hfd]
  refine ⟨_, rfl, ?_, ?_, ?_, ?_, ?_, ?_, ?_, h.distinct⟩
  · rw [items_append, h.sockets, h.length]
    rfl
  · rw [List.map_append, h.fdToSocket]
    rfl
  · rw [List.map_append, List.map_append, h.pollfds]
    rfl
  · rw [List.map_append, List.nodup_append_comm]
    exact List.nodup_cons.mpr ⟨hnew, h.nodup⟩
  · rw [List.map_append, List.nodup_append_comm]
    exact List.nodup_cons.mpr ⟨haddress, h.addresses⟩
  · intro r hr
    rcases List.mem_append.mp hr with hr | hr
    · exact h.opened r hr
    · obtain rfl := List.mem_singleton.mp hr
      exact hopen
  · intro s hs
    rw [List.map_append]
    exact List.mem_append_left _ (h.selected s hs)

/-- What was selected is not selected any more, or for other events. -/
lemma keys_selected {socket : ℕ} {selectedSockets : List (ℕ × Flags)} (remaining : Flags → Flags) :
    ∀ s ∈ keys (match find? socket selectedSockets with
      | none => selectedSockets
      | some selectedEvents =>
        if remaining selectedEvents = 0 then InsertionMap.remove socket selectedSockets
        else append socket (remaining selectedEvents) selectedSockets),
      s ∈ keys selectedSockets := by
  intro s hs
  cases hfind : find? socket selectedSockets with
  | none => rwa [hfind] at hs
  | some selectedEvents =>
    rw [hfind] at hs
    dsimp only at hs
    split_ifs at hs
    · rw [keys_remove] at hs
      exact List.mem_of_mem_filter hs
    · rwa [keys_append, if_pos (Poll.find?_isSome_mem hfind)] at hs

/-- The events of a registered socket change. -/
lemma change_represents {rs₁ rs₂ : List Registration} {r : Registration} {w : World}
    (h : Found rs₁ r rs₂ w) (events : Flags) (address : ℕ) :
    ∃ r' tables, set w.tables r.socket (w.descriptor r.socket) events address = some tables
      ∧ Represents (rs₁ ++ r' :: rs₂) { w with tables } := by
  obtain ⟨pfd, hpfd, -⟩ := h.pollfd
  have hlt := (List.getElem?_eq_some_iff.mp hpfd).1
  rw [set, h.find?]
  dsimp only
  split_ifs with hevents
  · exact ⟨r, _, rfl, h.represents⟩
  · refine ⟨{ r with events }, _, rfl, ?_, ?_, ?_, ?_, ?_, ?_, ?_, h.represents.distinct⟩
    · rw [h.sockets, append_middle (by rw [keys_items]; exact h.front), items_append, items]
    · rw [h.represents.fdToSocket, List.map_append, List.map_append]
      rfl
    · have hmodify := map_modify Pollfd.request
        (f := fun pfd => { pfd with events := mapEvents events })
        (g := fun request => (request.1, mapEvents events)) (fun _ => rfl) w.tables.pollfds
        (1 + rs₁.length)
      have hmiddle := modify_middle (rs₁.map (Registration.request w.descriptor))
        (r.request w.descriptor) (rs₂.map (Registration.request w.descriptor))
        (fun request => (request.1, mapEvents events))
      rw [List.length_map] at hmiddle
      rw [hmodify, h.represents.pollfds, Nat.add_comm, List.modify_succ_cons, List.map_append,
        List.map_cons, hmiddle, List.map_append]
      rfl
    · have hnodup := h.represents.nodup
      rwa [List.map_append, List.map_cons] at hnodup ⊢
    · have haddresses := h.represents.addresses
      rwa [List.map_append, List.map_cons] at haddresses ⊢
    · intro r' hr'
      rcases List.mem_append.mp hr' with hr' | hr'
      · exact h.represents.opened r' (List.mem_append_left _ hr')
      · rcases List.mem_cons.mp hr' with rfl | hr'
        · exact h.represents.opened r (List.mem_append_right _ List.mem_cons_self)
        · exact h.represents.opened r' (List.mem_append_right _ (List.mem_cons_of_mem _ hr'))
    · intro s hs
      have hselected := h.represents.selected s (keys_selected _ s hs)
      rwa [List.map_append, List.map_cons] at hselected ⊢

/-- **`remove`** takes the socket out of all tables. -/
lemma remove_represents {rs₁ rs₂ : List Registration} {r : Registration} {w : World}
    (h : Found rs₁ r rs₂ w) :
    ∃ tables, remove w.tables r.socket = some tables
      ∧ Represents (rs₁ ++ rs₂) { w with tables } := by
  obtain ⟨pfd, hpfd, hrequest⟩ := h.pollfd
  have hfd : pfd.fd = w.descriptor r.socket := congrArg Prod.fst hrequest
  have hrep := h.represents
  rw [remove, h.find?]
  dsimp only
  rw [hpfd]
  refine ⟨_, rfl, ?_, ?_, ?_, ?_, ?_, fun r' hr' => ?_, fun s hs => ?_, hrep.distinct⟩
  · rw [h.sockets, remove_middle (by rw [keys_items]; exact h.front) _
      (by rw [keys_items]; exact h.behind), List.map_append,
      moveIndex_front (by omega), moveIndex_behind (Nat.le_refl _), items_append]
  · rw [hrep.fdToSocket, List.map_append, List.map_cons, hfd,
      remove_middle (h.descriptor _ h.front) _ (h.descriptor _ h.behind), List.map_append]
  · have herase := List.eraseIdx_append_of_length_le
      (l := rs₁.map (Registration.request w.descriptor)) (k := rs₁.length)
      (by rw [List.length_map])
      ((r :: rs₂).map (Registration.request w.descriptor))
    rw [List.length_map, Nat.sub_self, List.map_cons, List.eraseIdx_cons_zero] at herase
    rw [removeIndex_eq, ← List.eraseIdx_map, hrep.pollfds, Nat.add_comm, List.eraseIdx_cons_succ,
      List.map_append, List.map_cons, herase, List.map_append]
  · exact (nodup_map_middle hrep.nodup).2.2
  · exact (nodup_map_middle hrep.addresses).2.2
  · refine hrep.opened r' ?_
    rcases List.mem_append.mp hr' with hr' | hr'
    · exact List.mem_append_left _ hr'
    · exact List.mem_append_right _ (List.mem_cons_of_mem _ hr')
  · rw [keys_remove, List.mem_filter, decide_eq_true_eq] at hs
    have hselected := hrep.selected s hs.1
    rw [List.map_append, List.map_cons, List.mem_append, List.mem_cons] at hselected
    rw [List.map_append, List.mem_append]
    rcases hselected with hfront | rfl | hbehind
    · exact .inl hfront
    · exact absurd rfl hs.2
    · exact .inr hbehind

/-- What `poll` leaves alone: everything but the `revents`, and the sockets that are selected, which
    are registered. -/
structure Kept (p p' : State) : Prop where
  interruptFd : p'.interruptFd = p.interruptFd
  pollfds : p'.pollfds.map Pollfd.request = p.pollfds.map Pollfd.request
  sockets : p'.sockets = p.sockets
  fdToSocket : p'.fdToSocket = p.fdToSocket
  selected : ∀ socket ∈ keys p'.selectedSockets,
    socket ∈ keys p.selectedSockets ∨ socket ∈ keys p.sockets

lemma Kept.refl (p : State) : Kept p p := ⟨rfl, rfl, rfl, rfl, fun _ => .inl⟩

lemma Kept.trans {p₁ p₂ p₃ : State} (h : Kept p₁ p₂) (h' : Kept p₂ p₃) : Kept p₁ p₃ := by
  refine ⟨h'.interruptFd.trans h.interruptFd, h'.pollfds.trans h.pollfds,
    h'.sockets.trans h.sockets, h'.fdToSocket.trans h.fdToSocket, fun socket hsocket => ?_⟩
  rcases h'.selected socket hsocket with hsocket | hsocket
  · exact h.selected socket hsocket
  · exact .inr (h.sockets ▸ hsocket)

lemma Kept.represents {rs : List Registration} {w : World} (h : Represents rs w) {tables : State}
    (hkept : Kept w.tables tables) : Represents rs { w with tables } := by
  refine ⟨hkept.sockets.trans h.sockets, hkept.fdToSocket.trans h.fdToSocket, ?_, h.nodup,
    h.addresses, h.opened, fun socket hsocket => ?_, h.distinct⟩
  · dsimp only
    rw [hkept.pollfds, hkept.interruptFd, h.pollfds]
  · rcases hkept.selected socket hsocket with hsocket | hsocket
    · exact h.selected socket hsocket
    · rwa [h.sockets, keys_items] at hsocket

/-- Only `revents` change in an entry. -/
lemma map_request_modify (pollfds : List Pollfd) (i : ℕ) :
    (pollfds.modify i fun pfd => { pfd with revents := 0 }).map Pollfd.request
      = pollfds.map Pollfd.request := by
  have hmodify := map_modify Pollfd.request (f := fun pfd => { pfd with revents := 0 }) (g := id)
    (fun _ => rfl) pollfds i
  rwa [List.modify_id] at hmodify

/-- Every item is about the socket it belongs to. -/
def Named (p : State) : Prop := ∀ e ∈ p.sockets, e.2.value.socket = e.1

lemma Represents.named {rs : List Registration} {w : World} (h : Represents rs w) : Named w.tables := by
  have hitems : ∀ (rs : List Registration) (n : ℕ), ∀ e ∈ items n rs, e.2.value.socket = e.1 := by
    intro rs
    induction rs with
    | nil => simp [items]
    | cons r rs ih =>
      intro n e he
      rcases List.mem_cons.mp he with rfl | he
      · rfl
      · exact ih (n + 1) e he
  rw [Named, h.sockets]
  exact hitems rs 1

/-- What an item is about is registered. -/
lemma deref_registered {p : State} (h : Named p) {address : ℕ} {sockInfo : SocketInfo}
    (hderef : deref p address = some sockInfo) : sockInfo.socket ∈ keys p.sockets := by
  obtain ⟨e, he, rfl⟩ := Option.map_eq_some_iff.mp hderef
  have hmem := List.mem_of_find?_eq_some he
  rw [h e hmem]
  exact List.mem_map_of_mem hmem

/-- One entry of the loop of `poll` -/
lemma mark_kept {p : State} (h : Named p) (i : ℕ) (revents : Short) {address : ℕ}
    {sockInfo : SocketInfo} (hderef : deref p address = some sockInfo) :
    Kept p (mark p i revents sockInfo) := by
  refine ⟨rfl, map_request_modify p.pollfds i, rfl, rfl, fun socket hsocket => ?_⟩
  rw [mark, keys_append] at hsocket
  split_ifs at hsocket
  · exact .inl hsocket
  · rcases List.mem_append.mp hsocket with hsocket | hsocket
    · exact .inl hsocket
    · rw [List.mem_singleton.mp hsocket]
      exact .inr (deref_registered h hderef)

/-- **The loop of `poll`** selects sockets that are registered. -/
lemma scan_kept {beyond : Pollfd} {n : ℕ} {p : State} {i count : ℕ} {p' : State} {reads : List ℕ}
    (h : Named p) (hscan : scan beyond n p i count = some (p', reads)) : Kept p p' := by
  induction n generalizing p i count reads with
  | zero =>
    rw [scan, Option.some_inj, Prod.mk.injEq] at hscan
    exact hscan.1 ▸ Kept.refl p
  | succ n ih =>
    rw [scan] at hscan
    dsimp only at hscan
    by_cases hrevents : (p.pollfds.getD i beyond).revents = 0
    · rw [if_pos hrevents] at hscan
      obtain ⟨⟨p₁, reads₁⟩, hrest, hscan⟩ := Option.bind_eq_some_iff.mp hscan
      rw [Option.some_inj, Prod.mk.injEq] at hscan
      obtain rfl := hscan.1
      exact ih h hrest
    · rw [if_neg hrevents] at hscan
      obtain ⟨address, -, hscan⟩ := Option.bind_eq_some_iff.mp hscan
      obtain ⟨sockInfo, hderef, hscan⟩ := Option.bind_eq_some_iff.mp hscan
      have hkept := mark_kept h i (p.pollfds.getD i beyond).revents hderef
      by_cases hcount : count - 1 = 0
      · rw [if_pos hcount, Option.some_inj, Prod.mk.injEq] at hscan
        exact hscan.1 ▸ hkept
      · rw [if_neg hcount] at hscan
        obtain ⟨⟨p₁, reads₁⟩, hrest, hscan⟩ := Option.bind_eq_some_iff.mp hscan
        rw [Option.some_inj, Prod.mk.injEq] at hscan
        obtain rfl := hscan.1
        exact hkept.trans (ih h hrest)

/-- What `::poll` writes are `revents`. -/
lemma map_request_fill {pollfds : List Pollfd} {answer : Answer} (h : answer.Fits pollfds) :
    (answer.fill pollfds).map Pollfd.request = pollfds.map Pollfd.request := by
  cases answer with
  | failed => rfl
  | ready revents =>
    rw [Answer.fill]
    rw [Answer.Fits] at h
    induction pollfds generalizing revents with
    | nil => rfl
    | cons pfd pollfds ih =>
      cases revents with
      | nil => simp at h
      | cons r revents =>
        rw [List.zipWith_cons_cons, List.map_cons, List.map_cons,
          ih revents (Nat.succ.inj h)]
        rfl

lemma take_kept {p : State} {reads : List ℕ} {interrupted : Bool} {polled : Polled}
    (h : take p reads interrupted = some polled) : Kept p polled.state := by
  rw [take] at h
  cases hselected : p.selectedSockets with
  | nil => simp [hselected] at h
  | cons e selectedSockets =>
    rw [hselected] at h
    obtain rfl := Option.some_inj.mp h
    refine ⟨rfl, rfl, rfl, rfl, fun socket hsocket => .inl ?_⟩
    rw [hselected]
    exact List.mem_cons_of_mem _ hsocket

lemma collect_kept {p : State} (h : Named p) {answer : Answer} (hanswer : answer.Fits p.pollfds)
    {beyond : Pollfd} {p' : State} {reads : List ℕ}
    (hcollect : collect p answer beyond = some (p', reads)) : Kept p p' := by
  have hfill : Kept p { p with pollfds := answer.fill p.pollfds } :=
    ⟨rfl, map_request_fill hanswer, rfl, rfl, fun _ => .inl⟩
  rw [collect] at hcollect
  dsimp only at hcollect
  split_ifs at hcollect
  · exact hfill.trans (scan_kept h hcollect)
  · rw [Option.some_inj, Prod.mk.injEq] at hcollect
    exact hcollect.1 ▸ hfill

/-- **`poll`** keeps the tables. -/
lemma poll_kept {p : State} (h : Named p) {answer : Answer} (hanswer : answer.Fits p.pollfds)
    {beyond : Pollfd} {interrupted : Bool} {polled : Polled}
    (hpoll : poll p answer beyond interrupted = some polled) : Kept p polled.state := by
  rw [poll] at hpoll
  by_cases hempty : p.selectedSockets.isEmpty = true
  · rw [if_pos hempty] at hpoll
    obtain ⟨⟨p₁, reads⟩, hcollect, hpoll⟩ := Option.bind_eq_some_iff.mp hpoll
    obtain ⟨pfd, -, hpoll⟩ := Option.bind_eq_some_iff.mp hpoll
    have hkept := collect_kept h hanswer hcollect
    dsimp only at hpoll
    generalize (if p₁.selectedSockets.isEmpty = true then interrupted
      else decide (pfd.revents &&& pollIn ≠ 0)) = wasInterrupted at hpoll
    by_cases hend : p₁.selectedSockets.isEmpty = true ∨ wasInterrupted = true
    · rw [if_pos hend] at hpoll
      obtain rfl := Option.some_inj.mp hpoll
      refine hkept.trans ⟨rfl, ?_, rfl, rfl, fun _ => .inl⟩
      dsimp only
      split_ifs
      · exact map_request_modify p₁.pollfds 0
      · rfl
    · rw [if_neg hend] at hpoll
      exact hkept.trans (take_kept hpoll)
  · rw [if_neg hempty] at hpoll
    exact take_kept hpoll

/-! ## What the tables have to do with each other -/

section Consistent

variable {rs : List Registration} {w : World}

/-- A socket's item, by its place in the list -/
lemma Represents.find?_eq_some_iff (h : Represents rs w) {socket : ℕ} {item : Item} :
    find? socket w.tables.sockets = some item ↔ ∃ rs₁ r rs₂, rs = rs₁ ++ r :: rs₂
      ∧ Found rs₁ r rs₂ w ∧ r.socket = socket
      ∧ item = ⟨r.address, ⟨r.socket, 1 + rs₁.length, r.events⟩⟩ := by
  constructor
  · intro hfind
    rcases h.find socket with ⟨hnone, -⟩ | ⟨rs₁, r, rs₂, hrs, rfl, hfound⟩
    · exact absurd (hnone.symm.trans hfind) (by simp)
    · exact ⟨rs₁, r, rs₂, hrs, hfound, rfl, Option.some_inj.mp (hfind.symm.trans hfound.find?)⟩
  · rintro ⟨rs₁, r, rs₂, -, hfound, rfl, rfl⟩
    exact hfound.find?

/-- Each place in the list is the place of one socket. -/
lemma Represents.found (h : Represents rs w) {i : ℕ} (hi : i < rs.length) :
    ∃ rs₁ r rs₂, rs = rs₁ ++ r :: rs₂ ∧ rs₁.length = i ∧ Found rs₁ r rs₂ w := by
  have hsplit : rs = rs.take i ++ rs[i] :: rs.drop (i + 1) := by
    rw [List.cons_getElem_drop_succ, List.take_append_drop]
  have hrep : Represents (rs.take i ++ rs[i] :: rs.drop (i + 1)) w := hsplit ▸ h
  exact ⟨rs.take i, rs[i], rs.drop (i + 1), hsplit, List.length_take_of_le (Nat.le_of_lt hi),
    hrep.middle⟩

lemma Found.indexOf {rs₁ rs₂ : List Registration} {r : Registration} (h : Found rs₁ r rs₂ w) :
    indexOf w.tables r.socket = 1 + rs₁.length := by
  rw [PollTables.indexOf, h.find?]
  rfl

/-- The pointer to a socket's item leads to it. -/
lemma Found.deref {rs₁ rs₂ : List Registration} {r : Registration} (h : Found rs₁ r rs₂ w) :
    deref w.tables r.address = some ⟨r.socket, 1 + rs₁.length, r.events⟩ := by
  have haddresses := nodup_map_middle h.represents.addresses
  have hfront : ∀ (rs₁ : List Registration) (n : ℕ), r.address ∉ rs₁.map Registration.address →
      (items n rs₁).find? (fun e => e.2.address = r.address) = none := by
    intro rs₁
    induction rs₁ with
    | nil => exact fun _ _ => rfl
    | cons r' rs₁ ih =>
      intro n hnot
      rw [List.map_cons, List.mem_cons, not_or] at hnot
      rw [items, List.find?_cons_of_neg (by simpa using Ne.symm hnot.1), ih _ hnot.2]
  rw [PollTables.deref, h.sockets, List.find?_append, hfront rs₁ 1 haddresses.1, Option.none_or,
    List.find?_cons_of_pos (by simp)]
  rfl

/-- The pointer to a socket's item is found by the descriptor. -/
lemma Found.fdToSocket {rs₁ rs₂ : List Registration} {r : Registration} (h : Found rs₁ r rs₂ w) :
    InsertionMap.find? (w.descriptor r.socket) w.tables.fdToSocket = some r.address := by
  rw [h.represents.fdToSocket, List.map_append, List.map_cons]
  exact find?_middle (h.descriptor _ h.front) _ _

/-- **Tables that are made from one list** agree. -/
theorem Represents.consistent (h : Represents rs w) : Consistent w where
  interrupt := by
    obtain ⟨pfd, pfds, hlist, hrequest⟩ := h.first
    exact ⟨pfd, congrArg (·[0]?) hlist, congrArg Prod.fst hrequest⟩
  index := by
    have hkeys : keys w.tables.sockets = rs.map Registration.socket := by
      rw [h.sockets, keys_items]
    refine ⟨fun socket hsocket => ?_, fun socket hsocket socket' hsocket' heq => ?_,
      fun index hindex => ?_⟩
    · rcases h.find socket with ⟨-, hnot⟩ | ⟨rs₁, r, rs₂, hrs, rfl, hfound⟩
      · exact absurd (hkeys ▸ hsocket) hnot
      · have hlen := congrArg List.length hrs
        rw [List.length_append, List.length_cons] at hlen
        rw [Set.mem_ofPred_eq, hfound.indexOf, h.length]
        omega
    · rcases h.find socket with ⟨-, hnot⟩ | ⟨rs₁, r, rs₂, hrs, rfl, hfound⟩
      · exact absurd (hkeys ▸ hsocket) hnot
      · rcases h.find socket' with ⟨-, hnot⟩ | ⟨rs₁', r', rs₂', hrs', rfl, hfound'⟩
        · exact absurd (hkeys ▸ hsocket') hnot
        · rw [hfound.indexOf, hfound'.indexOf] at heq
          have hsplit := List.append_inj (hrs.symm.trans hrs') (by omega)
          rw [List.cons.injEq] at hsplit
          rw [hsplit.2.1]
    · rw [Set.mem_ofPred_eq, h.length] at hindex
      obtain ⟨rs₁, r, rs₂, hrs, hlen, hfound⟩ := h.found (i := index - 1) (by omega)
      refine ⟨r.socket, ?_, ?_⟩
      · rw [Set.mem_ofPred_eq, hkeys, hrs, List.map_append]
        exact List.mem_append_right _ List.mem_cons_self
      · rw [hfound.indexOf]
        omega
  pollfd := by
    intro socket item hfind
    obtain ⟨rs₁, r, rs₂, -, hfound, rfl, rfl⟩ := h.find?_eq_some_iff.mp hfind
    obtain ⟨pfd, hpfd, hrequest⟩ := hfound.pollfd
    exact ⟨pfd, hpfd, congrArg Prod.fst hrequest, congrArg Prod.snd hrequest⟩
  socket := by
    intro socket item hfind
    obtain ⟨rs₁, r, rs₂, -, hfound, rfl, rfl⟩ := h.find?_eq_some_iff.mp hfind
    exact ⟨rfl, hfound.deref⟩
  fdToSocket := by
    intro fd address
    constructor
    · intro hfind
      have hmem : fd ∈ keys w.tables.fdToSocket := by
        by_contra hnot
        exact absurd ((find?_eq_none_iff.mpr hnot).symm.trans hfind) (by simp)
      rw [h.fdToSocket, keys, List.map_map] at hmem
      obtain ⟨r, hr, rfl⟩ := List.mem_map.mp hmem
      rcases h.find r.socket with ⟨-, hnot⟩ | ⟨rs₁, r', rs₂, -, hsocket, hfound⟩
      · exact absurd (List.mem_map_of_mem hr) hnot
      · refine ⟨r.socket, _, hsocket ▸ hfound.find?, ?_, rfl⟩
        have haddress := hfound.fdToSocket
        rw [hsocket] at haddress
        exact Option.some_inj.mp (haddress.symm.trans hfind)
    · rintro ⟨socket, item, hfind, rfl, rfl⟩
      obtain ⟨rs₁, r, rs₂, -, hfound, rfl, rfl⟩ := h.find?_eq_some_iff.mp hfind
      exact hfound.fdToSocket
  selected := by
    rw [h.sockets, keys_items]
    exact h.selected

end Consistent

/-! ## Runs -/

/-- **One move** leaves the tables made from one list; `set`, `remove` and `clear` reach no entry
    that is not there. -/
lemma step_represents {rs : List Registration} {w : World} (h : Represents rs w) {m : Move}
    (hallowed : Allowed w m) :
    (∀ w', step w m = some w' → ∃ rs', Represents rs' w')
      ∧ ((∀ answer beyond interrupted, m ≠ .poll answer beyond interrupted) →
        (step w m).isSome = true) := by
  cases m with
  | reopen socket s =>
    refine ⟨fun w' hw' => ?_, fun _ => rfl⟩
    obtain rfl := Option.some_inj.mp hw'
    exact ⟨rs, reopen_represents h hallowed⟩
  | clear =>
    refine ⟨fun w' hw' => ?_, fun _ => rfl⟩
    obtain rfl := Option.some_inj.mp hw'
    exact ⟨[], clear_represents h⟩
  | set socket events address =>
    have hset : ∃ tables rs', set w.tables socket (w.descriptor socket) events address
        = some tables ∧ Represents rs' { w with tables } := by
      rcases h.find socket with ⟨hnone, hnew⟩ | ⟨rs₁, r, rs₂, -, rfl, hfound⟩
      · by_cases hopen : w.descriptor socket = -1
        · exact ⟨w.tables, rs, by rw [set, hnone]; exact if_pos hopen, h⟩
        · obtain ⟨tables, htables, hrep⟩ := register_represents h hnew hopen hallowed
          exact ⟨tables, _, htables, hrep⟩
      · obtain ⟨r', tables, htables, hrep⟩ := change_represents hfound events address
        exact ⟨tables, _, htables, hrep⟩
    obtain ⟨tables, rs', htables, hrep⟩ := hset
    rw [step, htables, Option.map_some]
    exact ⟨fun w' hw' => ⟨rs', Option.some_inj.mp hw' ▸ hrep⟩, fun _ => rfl⟩
  | remove socket =>
    have hremove : ∃ tables rs', remove w.tables socket = some tables
        ∧ Represents rs' { w with tables } := by
      rcases h.find socket with ⟨hnone, -⟩ | ⟨rs₁, r, rs₂, -, rfl, hfound⟩
      · exact ⟨w.tables, rs, by rw [remove, hnone], h⟩
      · obtain ⟨tables, htables, hrep⟩ := remove_represents hfound
        exact ⟨tables, _, htables, hrep⟩
    obtain ⟨tables, rs', htables, hrep⟩ := hremove
    rw [step, htables, Option.map_some]
    exact ⟨fun w' hw' => ⟨rs', Option.some_inj.mp hw' ▸ hrep⟩, fun _ => rfl⟩
  | poll answer beyond interrupted =>
    refine ⟨fun w' hw' => ?_, fun hno => absurd rfl (hno answer beyond interrupted)⟩
    obtain ⟨polled, hpoll, rfl⟩ := Option.map_eq_some_iff.mp hw'
    exact ⟨rs, Kept.represents h (poll_kept h.named hallowed hpoll)⟩

lemma run_represents {trace : List Move} {w : World} (h : system.Run trace w) :
    ∃ rs, Represents rs w := by
  refine @System.Run.invariant _ _ system (fun _ w => ∃ rs, Represents rs w) ?_ ?_ _ _ h
  · rintro w ⟨⟨interruptFd, htables⟩, hdistinct⟩
    obtain ⟨tables, descriptor⟩ := w
    obtain rfl := htables
    exact ⟨[], create_represents interruptFd hdistinct⟩
  · rintro _ w _ w' ⟨rs, hrep⟩ ⟨m, -, hallowed, hstep⟩
    exact (step_represents hrep hallowed).1 w' hstep

/-- **The tables agree** after every history of `set`, `remove`, `clear` and `poll`, and none of the
    first three reaches an entry that is not there. -/
theorem tables_consistent {trace : List Move} {w : World} (h : system.Run trace w) :
    Consistent w ∧ ∀ m, Allowed w m →
      (∀ answer beyond interrupted, m ≠ .poll answer beyond interrupted) →
        (step w m).isSome = true := by
  obtain ⟨rs, hrep⟩ := run_represents h
  exact ⟨hrep.consistent, fun m hallowed => (step_represents hrep hallowed).2⟩

/-- Two sockets that are open -/
def twoOpen (socket : ℕ) : ℤ := if socket = 10 then 5 else if socket = 20 then 6 else -1

lemma twoOpen_distinct : Distinct twoOpen := by
  intro a b heq hopen
  rw [twoOpen, twoOpen] at heq
  rw [twoOpen] at hopen
  split_ifs at heq hopen <;> omega

/-- Two sockets are registered, and the first of them is removed. -/
theorem tables_consistent_two :
    Consistent ⟨⟨3, [⟨3, pollIn ||| pollRdHup ||| pollHup, 0⟩, ⟨6, mapEvents writeFlag, 0⟩],
      [(20, ⟨200, ⟨20, 1, writeFlag⟩⟩)], [(6, 200)], []⟩, twoOpen⟩ := by
  have hstart : system.Run [] ⟨create 3, twoOpen⟩ := .start ⟨⟨3, rfl⟩, twoOpen_distinct⟩
  have hfirst := hstart.next ⟨.set 10 readFlag 100, rfl, by simp [Allowed, create], rfl⟩
  have hsecond := hfirst.next ⟨.set 20 writeFlag 200, rfl,
    by simp [Allowed, create, InsertionMap.append], rfl⟩
  have hremove := hsecond.next ⟨.remove 10, rfl, trivial, rfl⟩
  exact (tables_consistent hremove).1

end Nstd.PollTables
