import Nstd.Server.HandlesInvariant

/-!
# No handle dangles

* `listen_spec`, `remove_spec`, `write_spec` and others — what the user calls keeps the invariant.
* `handle_spec`, `visit_spec`, `run_spec` — so does what `run` does, and it goes through.
* `step_spec` — a move that may happen goes through, and keeps the invariant.
* **`handles_live`** — every address that is held is the one of an object that is there, along runs.
-/

namespace Nstd.Handles

open Poll (readFlag writeFlag acceptFlag connectFlag)
open InsertionMap

variable {s : State}

/-! ## Calls of the user -/

lemma kinds_put_self (s : State) (a : ℕ) (object : Object) :
    (s.put a object).kinds a = some object.kind := by rw [kinds_put, Function.update_self]

lemma readFlag_subset : readFlag.Subset Kind.client.flags := rfl

lemma writeFlag_subset : writeFlag.Subset Kind.client.flags := rfl

lemma bothFlags_subset : (readFlag ||| writeFlag).Subset Kind.client.flags := rfl

lemma acceptFlag_subset : acceptFlag.Subset Kind.listener.flags := rfl

lemma connectFlag_subset : connectFlag.Subset Kind.establisher.flags := rfl

lemma listen_spec (h : Sound s) {a : ℕ} (ha : s.objects a = none) (fd : ℤ) : Sound (listen s a fd) := by
  refine (h.create ha ?_ ?_).set (kinds_put_self s a _) fd acceptFlag_subset
  · rfl
  · simp

lemma connect_spec (h : Sound s) {a : ℕ} (ha : s.objects a = none) (fd : ℤ) :
    Sound (connect s a fd) := by
  refine (h.create ha ?_ ?_).set (kinds_put_self s a _) fd connectFlag_subset
  · rfl
  · simp

lemma pair_spec (h : Sound s) {a : ℕ} (ha : s.objects a = none) (fd : ℤ) : Sound (pair s a fd) := by
  refine (h.create ha rfl fun c heq => ?_).set (kinds_put_self s a _) fd readFlag_subset
  rw [← Object.client.inj heq]

/-- What is processed is not a new resolver. -/
lemma Sound.processed_mem (h : Sound s) {r : ℕ} (hr : s.next.processed = some r) :
    r ∈ keys s.resolvers := by
  refine h.next.resolvers r ?_
  cases hnext : s.next with
  | finish r' i =>
    rw [hnext] at hr
    obtain rfl : r' = r := Option.some_inj.mp hr
    exact List.mem_cons_self
  | _ => rw [hnext] at hr; exact absurd hr.symm (Option.some_ne_none r)

lemma connectHost_spec (h : Sound s) {a r : ℕ} (ha : s.objects a = none)
    (hr : r ∉ keys s.resolvers) : Sound (connectHost s a r) := by
  have hkinds : (connectHost s a r).kinds = Function.update s.kinds a (some .establisher) :=
    kinds_put s a _
  have hlinks : (connectHost s a r).links = Function.update s.links a (some r) :=
    links_put s a _
  refine ⟨?_, ?_, ?_, ?_, callbacks_create h ha fun _ heq => nomatch heq⟩
  · rw [hkinds]; exact h.sockets.create (kinds_of_fresh ha) _
  · rw [hkinds]; exact h.closing.create ha _
  · rw [hlinks]
    exact h.resolvers.connect (links_of_fresh ha) hr fun hprocessed => hr (h.processed_mem hprocessed)
  · rw [hkinds]
    refine ⟨fun r' hr' => ?_, h.next.nodup, (h.next.create ha _).accepting⟩
    have hold := h.next.resolvers r' hr'
    change r' ∈ keys (append r _ s.resolvers)
    rw [keys_append, if_neg hr]
    exact List.mem_append_left _ hold

lemma removeClient_spec (h : Sound s) {a : ℕ} {c : Client} (hc : s.objects a = some (.client c)) :
    Sound (removeClient s a c) := by
  rw [removeClient]
  split_ifs with hcallback
  · exact h.deleteClient (kinds_of_client hc) ((h.callbacks a c hc).mp hcallback)
  · exact h.close (kinds_of_client hc)

lemma removeListener_spec (h : Sound s) {a : ℕ} {fd : ℤ}
    (ha : s.objects a = some (.listener fd)) : Sound (s.delete a) := by
  have hkinds : s.kinds a = some .listener := by rw [State.kinds, ha]; rfl
  have hlinks : s.links a = none := by rw [State.links, ha]; rfl
  obtain ⟨hclosing, haccepting⟩ := h.not_closing (a := a) (by rw [hkinds]; simp)
  exact h.deleteFree hlinks hclosing haccepting

lemma removeEstablisher_spec (h : Sound s) {a : ℕ} {fd : ℤ} {resolver : Option ℕ}
    (ha : s.objects a = some (.establisher fd resolver)) :
    ∃ s', removeEstablisher s a resolver = some s' ∧ Sound s' := by
  have hkinds : s.kinds a = some .establisher := by rw [State.kinds, ha]; rfl
  have hlinks : s.links a = resolver := by rw [State.links, ha]; rfl
  obtain ⟨hclosing, haccepting⟩ := h.not_closing (a := a) (by rw [hkinds]; simp)
  cases resolver with
  | none => exact ⟨_, rfl, h.deleteFree hlinks hclosing haccepting⟩
  | some r =>
    obtain ⟨-, found, hfind, hfound⟩ := h.resolvers.resolver a r hlinks
    rw [removeEstablisher, hfind]
    refine ⟨_, rfl, h.delete (h.resolvers.unlink hfind hfound hlinks) (fun r' hr' => ?_) hclosing
      haccepting⟩
    rw [keys_append]
    split_ifs
    · exact hr'
    · exact List.mem_append_left _ hr'

/-- **`remove`** of a handle of an object that is there -/
lemma remove_spec (h : Sound s) {a : ℕ} (ha : (s.objects a).isSome) :
    ∃ s', remove s a = some s' ∧ Sound s' := by
  rw [remove]
  cases hobject : s.objects a with
  | none => rw [hobject] at ha; exact absurd ha (by simp)
  | some object =>
    cases object with
    | listener fd => exact ⟨_, rfl, removeListener_spec h hobject⟩
    | establisher fd resolver => exact removeEstablisher_spec h hobject
    | client c => exact ⟨_, rfl, removeClient_spec h hobject⟩

/-- A client gets other fields, and is registered. -/
lemma Sound.register (h : Sound s) {a : ℕ} {c c' : Client} (hc : s.objects a = some (.client c))
    (hcallback : c'.callback = c.callback) (fd : ℤ) {events : Flags}
    (hevents : events.Subset Kind.client.flags) :
    Sound ((s.put a (.client c')).set a fd events) :=
  (h.putClient hc hcallback).set (kinds_put_self s a _) fd hevents

lemma postpone_spec (h : Sound s) {a : ℕ} {c : Client} (hc : s.objects a = some (.client c))
    (size sent : ℕ) : Sound (postpone s a c size sent) := by
  rw [postpone]
  split_ifs with hall hsuspended
  · exact h
  · exact h.register hc (by rfl) c.s writeFlag_subset
  · exact h.register hc (by rfl) c.s bothFlags_subset

lemma write_spec (h : Sound s) {a : ℕ} {c : Client} (hc : s.objects a = some (.client c))
    (size : ℕ) (sending : Writing.Sending) : Sound (write s a c size sending) := by
  rw [write.eq_def]
  split_ifs with hempty
  · cases sending with
    | wouldBlock => exact postpone_spec h hc size 0
    | failed => exact h.close (kinds_of_client hc)
    | accepted sent => exact postpone_spec h hc size sent
  · exact h.putClient hc rfl

lemma read_spec (h : Sound s) {a : ℕ} {c : Client} (hc : s.objects a = some (.client c))
    (closed : Bool) : Sound (read s a closed) := by
  rw [read]
  split_ifs
  · exact h.close (kinds_of_client hc)
  · exact h

lemma suspend_spec (h : Sound s) {a : ℕ} {c : Client} (hc : s.objects a = some (.client c)) :
    Sound (suspend s a c) := by
  rw [suspend]
  split_ifs with hsuspended hempty
  · exact h
  · exact h.register hc (by rfl) c.s (Poll.zero_subset _)
  · exact h.register hc (by rfl) c.s writeFlag_subset

lemma resume_spec (h : Sound s) {a : ℕ} {c : Client} (hc : s.objects a = some (.client c)) :
    Sound (resume s a c) := by
  rw [resume]
  split_ifs with hsuspended hempty
  · exact h.register hc (by rfl) c.s readFlag_subset
  · exact h.register hc (by rfl) c.s bothFlags_subset
  · exact h

/-! ## Steps of `run` -/

/-- No resolver is being processed, and no client is new. -/
def Next.Idle (next : Next) : Prop := next.processed = none ∧ next.accepting = none

lemma Next.Idle.nodup {next : Next} (h : next.Idle) : next.resolvers.Nodup := by
  cases next with
  | visit i => cases i <;> simp [Next.resolvers]
  | finish r i => exact absurd h.1 (Option.some_ne_none r)
  | _ => exact List.nodup_nil

/-- **`run` goes on**, or calls a callback. -/
lemma Sound.loop (h : Sound s) (hidle : s.next.Idle) {next : Next} (hnext : next.Idle)
    (hresolvers : ∀ r ∈ next.resolvers, r ∈ keys s.resolvers) (user : Bool) :
    Sound { s with user, next } :=
  h.goto (hnext.1.trans hidle.1.symm) hidle.2 hnext.2 user hresolvers hnext.nodup

lemma idle_timers : Next.timers.Idle := ⟨rfl, rfl⟩

/-- `run` goes on with the timers, or calls a callback and does that. -/
lemma Sound.again (h : Sound s) (hidle : s.next.Idle) (user : Bool) :
    Sound { s with user, next := .timers } :=
  h.loop hidle idle_timers (fun _ hr => absurd hr List.not_mem_nil) user

/-- The loop over the resolvers begins, or goes on. -/
lemma Sound.visits (h : Sound s) (hidle : s.next.Idle) {i : Option ℕ}
    (hi : ∀ r ∈ i, r ∈ keys s.resolvers) : Sound (s.goto (.visit i)) := by
  have hvisit : (Next.visit i).Idle := ⟨rfl, rfl⟩
  exact h.loop hidle hvisit (fun r hr => hi r (Option.mem_toList.mp hr)) false

/-- No client that there is is new. -/
lemma Sound.callback (h : Sound s) (hidle : s.next.Idle) {a : ℕ} {c : Client}
    (hc : s.objects a = some (.client c)) : c.callback = true := by
  rw [h.callbacks a c hc, hidle.2]
  exact (Option.some_ne_none a).symm

/-- A callback of a client is called. -/
lemma Client.call_spec {c : Client} (hcallback : c.callback = true) (h : Sound s)
    (hidle : s.next.Idle) : ∃ s', c.call s .timers = some s' ∧ Sound s' := by
  rw [Client.call, if_pos hcallback]
  exact ⟨_, rfl, h.again hidle true⟩

/-- **A new client** has no callback until `onAccepted` or `onConnected` returns. -/
lemma accept_spec (h : Sound s) (hidle : s.next.Idle) {a : ℕ} (ha : s.objects a = none) (fd : ℤ) :
    Sound (accept s a fd) := by
  have hkinds : (accept s a fd).kinds = Function.update s.kinds a (some .client) :=
    kinds_put s a _
  have hlinks : (accept s a fd).links = s.links := links_put_same (links_of_fresh ha)
  refine ⟨?_, ?_, ?_, ⟨fun _ hr => absurd hr List.not_mem_nil, List.nodup_nil, fun b hb => ?_⟩,
    fun b c hc => ?_⟩
  · rw [hkinds]
    exact (h.sockets.create (kinds_of_fresh ha) _).set (Function.update_self ..) fd readFlag_subset
  · rw [hkinds]; exact h.closing.create ha _
  · rw [hlinks]
    have hresolvers := h.resolvers
    rw [hidle.1] at hresolvers
    exact hresolvers
  · obtain rfl : a = b := Option.some_inj.mp hb
    rw [hkinds, Function.update_self]
  · change (Function.update s.objects a _) b = _ at hc
    change c.callback = true ↔ some a ≠ some b
    by_cases hb : b = a
    · subst hb
      rw [Function.update_self] at hc
      obtain rfl := Object.client.inj (Option.some_inj.mp hc)
      simp
    · rw [Function.update_of_ne hb] at hc
      exact iff_of_true (h.callback hidle hc) fun heq => hb (Option.some_inj.mp heq).symm

/-- The end of a write event -/
lemma finish_spec (h : Sound s) (hidle : s.next.Idle) {a : ℕ} {c c' : Client}
    (hc : s.objects a = some (.client c)) (hcallback : c'.callback = c.callback) :
    ∃ s', finish s a c' = some s' ∧ Sound s' := by
  rw [finish]
  by_cases hempty : c'.pending = 0
  · have hevents : (if c'.suspended then 0 else readFlag).Subset Kind.client.flags :=
      Poll.ite_subset (Poll.zero_subset _) readFlag_subset
    rw [if_pos hempty]
    exact Client.call_spec (hcallback.trans (h.callback hidle hc))
      (h.register hc hcallback c'.s hevents) hidle
  · rw [if_neg hempty]
    exact ⟨_, rfl, (h.putClient hc hcallback).again hidle false⟩

lemma writeReady_spec (h : Sound s) (hidle : s.next.Idle) {a : ℕ} {c : Client}
    (hc : s.objects a = some (.client c)) (sending : Writing.Sending) :
    ∃ s', writeReady s a c sending = some s' ∧ Sound s' := by
  rw [writeReady.eq_def]
  split_ifs with hempty
  · exact finish_spec h hidle hc rfl
  · cases sending with
    | wouldBlock => exact ⟨_, rfl, h.again hidle false⟩
    | failed =>
      have hput : Sound (s.put a (.client { c with pending := 0 })) := h.putClient hc rfl
      exact Client.call_spec (h.callback hidle hc) (hput.unset a) hidle
    | accepted sent => exact finish_spec h hidle hc (by rfl)

/-- The descriptor of an establisher is changed. -/
lemma Sound.putEstablisher (h : Sound s) {a : ℕ} {fd : ℤ} {resolver : Option ℕ}
    (ha : s.objects a = some (.establisher fd resolver)) (fd' : ℤ) :
    Sound (s.put a (.establisher fd' resolver)) := by
  have hkinds : (s.put a (.establisher fd' resolver)).kinds = s.kinds :=
    kinds_put_same (by rw [State.kinds, ha]; rfl)
  have hlinks : (s.put a (.establisher fd' resolver)).links = s.links :=
    links_put_same (by rw [State.links, ha]; rfl)
  refine ⟨?_, ?_, ?_, ?_, fun b c hc => h.callbacks b c ?_⟩
  · rw [hkinds]; exact h.sockets
  · rw [hkinds]; exact h.closing
  · rw [hlinks]; exact h.resolvers
  · rw [hkinds]; exact h.next
  · change (Function.update s.objects a _) b = _ at hc
    by_cases hb : b = a
    · rw [hb, Function.update_self] at hc
      exact absurd (Option.some_inj.mp hc) (by simp)
    · rwa [Function.update_of_ne hb] at hc

lemma connected_spec (h : Sound s) (hidle : s.next.Idle) {a : ℕ} {fd : ℤ} {resolver : Option ℕ}
    (ha : s.objects a = some (.establisher fd resolver)) {o : Outcome}
    (haddress : s.objects o.address = none) : Sound (connected s a fd resolver o) := by
  rw [connected]
  have hunset := h.unset a
  split_ifs with hsuccess
  · have hne : o.address ≠ a := by
      intro heq
      rw [heq, ha] at haddress
      exact Option.some_ne_none _ haddress
    have hfresh : ((s.unset a).put a (.establisher (-1) resolver)).objects o.address = none := by
      change (Function.update s.objects a _) o.address = none
      rw [Function.update_of_ne hne, haddress]
    have hput : Sound ((s.unset a).put a (.establisher (-1) resolver)) :=
      hunset.putEstablisher ha (-1)
    exact accept_spec hput hidle hfresh fd
  · exact hunset.again hidle true

/-! ## Events -/

/-- Flags that are among others have no flag that those do not have. -/
lemma and_eq_zero {flags flags' flag : Flags} (h : flags.Subset flags')
    (hzero : flags' &&& flag = 0) : flags &&& flag = 0 := by
  have hflags : flags = flags &&& flags' := h.symm
  rw [hflags, BitVec.and_assoc, hzero]
  exact BitVec.and_zero

lemma readFlag_other {kind : Kind} (h : kind ≠ .client) : kind.flags &&& readFlag = 0 := by
  cases kind with
  | client => exact absurd rfl h
  | _ => rfl

lemma writeFlag_other {kind : Kind} (h : kind ≠ .client) : kind.flags &&& writeFlag = 0 := by
  cases kind with
  | client => exact absurd rfl h
  | _ => rfl

lemma acceptFlag_other {kind : Kind} (h : kind ≠ .listener) : kind.flags &&& acceptFlag = 0 := by
  cases kind with
  | listener => exact absurd rfl h
  | _ => rfl

lemma connectFlag_other {kind : Kind} (h : kind ≠ .establisher) : kind.flags &&& connectFlag = 0 := by
  cases kind with
  | establisher => exact absurd rfl h
  | _ => rfl

/-- What an event is about -/
structure EventSound (s : State) (event : Poll.Event) (a : ℕ) : Prop where
  socket : event.socket = some a
  kind : ∃ kind, s.kinds a = some kind ∧ event.flags.Subset kind.flags

/-- An event with a flag that only objects of one kind are registered with -/
lemma EventSound.kind_eq {event : Poll.Event} {a : ℕ} (h : EventSound s event a) {flag : Flags}
    (hflag : event.flags &&& flag ≠ 0) {kind : Kind}
    (hkinds : ∀ {kind'}, kind' ≠ kind → kind'.flags &&& flag = 0) : s.kinds a = some kind := by
  obtain ⟨kind', hkind, hsubset⟩ := h.kind
  by_cases heq : kind' = kind
  · rw [hkind, heq]
  · exact absurd (and_eq_zero hsubset (hkinds heq)) hflag

/-- **An event is handled**, and its object is there. -/
lemma handle_spec (h : Sound s) (hidle : s.next.Idle) {event : Poll.Event}
    (hevent : event.flags ≠ 0 → ∃ a, EventSound s event a) {o : Outcome}
    (haddress : s.objects o.address = none) : ∃ s', handle s event o = some s' ∧ Sound s' := by
  rw [handle]
  by_cases hflags : event.flags = 0
  · rw [if_pos hflags]
    exact ⟨_, rfl, h.visits hidle fun r hr => List.mem_of_mem_head? hr⟩
  · rw [if_neg hflags]
    obtain ⟨a, ha⟩ := hevent hflags
    rw [ha.socket]
    simp only [Option.bind_eq_bind, Option.bind_some]
    split_ifs with hread hwrite haccept hsuccess hconnect
    · obtain ⟨c, hc⟩ := exists_client (ha.kind_eq hread readFlag_other)
      rw [client_eq_some.mpr hc]
      exact Client.call_spec (h.callback hidle hc) h hidle
    · obtain ⟨c, hc⟩ := exists_client (ha.kind_eq hwrite writeFlag_other)
      rw [client_eq_some.mpr hc]
      exact writeReady_spec h hidle hc o.sending
    · obtain ⟨fd, hfd⟩ := exists_listener (ha.kind_eq haccept acceptFlag_other)
      rw [hfd]
      exact ⟨_, rfl, accept_spec h hidle haddress o.fd⟩
    · obtain ⟨fd, hfd⟩ := exists_listener (ha.kind_eq haccept acceptFlag_other)
      rw [hfd]
      exact ⟨_, rfl, h.again hidle false⟩
    · obtain ⟨fd, resolver, hfd, hobject⟩ := exists_establisher (ha.kind_eq hconnect connectFlag_other)
      rw [hfd]
      exact ⟨_, rfl, connected_spec h hidle hobject haddress⟩
    · exact ⟨_, rfl, h.again hidle false⟩

/-! ## Resolvers -/

lemma mem_of_mem_after {r i : ℕ} {l : List ℕ} (h : i ∈ after r l) : i ∈ l := by
  induction l with
  | nil => exact absurd h (Option.not_mem_none i)
  | cons r' l ih =>
    rw [after] at h
    split_ifs at h
    · exact List.mem_cons_of_mem r' (List.mem_of_mem_head? h)
    · exact List.mem_cons_of_mem r' (ih h)

/-- What comes after a resolver is another one. -/
lemma ne_of_mem_after {r i : ℕ} {l : List ℕ} (hnodup : l.Nodup) (h : i ∈ after r l) : r ≠ i := by
  induction l with
  | nil => exact absurd h (Option.not_mem_none i)
  | cons r' l ih =>
    rw [List.nodup_cons] at hnodup
    rw [after] at h
    split_ifs at h with heq
    · rintro rfl
      exact hnodup.1 (heq ▸ List.mem_of_mem_head? h)
    · exact ih hnodup.2 h

/-- What `run` goes on with while a completion is processed -/
lemma NextSound.processes {resolvers : List (ℕ × Resolver)} {kinds : ℕ → Option Kind} {r : ℕ}
    (hnodup : (keys resolvers).Nodup) (hr : r ∈ keys resolvers) :
    NextSound (.finish r (after r (keys resolvers))) resolvers kinds := by
  refine ⟨fun r' hr' => ?_, ?_, fun a ha => absurd ha (Option.not_mem_none a)⟩
  · rcases List.mem_cons.mp hr' with rfl | hafter
    · exact hr
    · exact mem_of_mem_after (Option.mem_toList.mp hafter)
  · refine List.nodup_cons.mpr ⟨fun hafter => ?_, ?_⟩
    · exact ne_of_mem_after hnodup (Option.mem_toList.mp hafter) rfl
    · cases after r (keys resolvers) <;> simp

/-- The establisher was removed. -/
lemma Sound.skip (h : Sound s) (hidle : s.next.Idle) {r : ℕ} {resolver : Resolver}
    (hfind : find? r s.resolvers = some resolver) (hnone : resolver.establisher = none)
    (hr : r ∈ keys s.resolvers) :
    Sound (s.goto (.finish r (after r (keys s.resolvers)))) := by
  have hresolvers := h.resolvers
  rw [hidle.1] at hresolvers
  refine ⟨h.sockets, h.closing, hresolvers.skip hfind hnone,
    NextSound.processes h.resolvers.nodup hr, fun a c hc => ?_⟩
  exact iff_of_true (h.callback hidle hc) (Option.some_ne_none a).symm

/-- **A completion is processed.** -/
lemma Sound.process (h : Sound s) (hidle : s.next.Idle) {a r : ℕ} {fd : ℤ} {link : Option ℕ}
    {resolver : Resolver} (hfind : find? r s.resolvers = some resolver)
    (ha : resolver.establisher = some a) (hr : r ∈ keys s.resolvers)
    (hobject : s.objects a = some (.establisher fd link)) (fd' : ℤ) (user : Bool) :
    Sound { s.put a (.establisher fd' none) with
      user, next := .finish r (after r (keys s.resolvers)) } := by
  have hkinds : (s.put a (.establisher fd' none)).kinds = s.kinds :=
    kinds_put_same (by rw [State.kinds, hobject]; rfl)
  have hlinks : (s.put a (.establisher fd' none)).links = Function.update s.links a none :=
    links_put s a _
  have hresolvers := h.resolvers
  rw [hidle.1] at hresolvers
  refine ⟨?_, ?_, ?_, NextSound.processes h.resolvers.nodup hr, fun b c hc => ?_⟩
  · change SocketsSound s.poll (s.put a _).kinds
    rw [hkinds]; exact h.sockets
  · change ClosingSound s.closingClients (s.put a _).kinds
    rw [hkinds]; exact h.closing
  · change ResolversSound s.resolvers (s.put a _).links (some r)
    rw [hlinks]; exact hresolvers.process hfind ha
  · change (Function.update s.objects a _) b = _ at hc
    have hne : b ≠ a := by
      rintro rfl
      rw [Function.update_self] at hc
      exact absurd (Option.some_inj.mp hc) (by simp)
    rw [Function.update_of_ne hne] at hc
    exact iff_of_true (h.callback hidle hc) (Option.some_ne_none b).symm

/-- **A resolver is looked at**, and its establisher is there. -/
lemma visit_spec (h : Sound s) {r : ℕ} (hnext : s.next = .visit (some r)) (o : Outcome) :
    ∃ s', visit s r o = some s' ∧ Sound s' := by
  have hidle : s.next.Idle := by rw [hnext]; exact ⟨rfl, rfl⟩
  have hr : r ∈ keys s.resolvers := h.next.resolvers r (by rw [hnext]; exact List.mem_singleton_self r)
  rw [visit]
  cases hfind : find? r s.resolvers with
  | none => exact absurd hr (find?_eq_none_iff.mp hfind)
  | some resolver =>
    simp only [Option.bind_eq_bind, Option.bind_some]
    by_cases hfinished : resolver.finished = true
    · rw [if_pos hfinished]
      cases hestablisher : resolver.establisher with
      | none => exact ⟨_, rfl, h.skip hidle hfind hestablisher hr⟩
      | some a =>
        have hlink : s.links a = some r :=
          (h.resolvers.establisher r resolver a hfind hestablisher).resolve_left fun hsome => by
            rw [hidle.1] at hsome
            exact absurd hsome.symm (Option.some_ne_none r)
        obtain ⟨fd, hobject⟩ := exists_of_link hlink
        have hfd : s.establisher a = some (fd, some r) := by rw [State.establisher, hobject]
        simp only [hfd, Option.bind_some]
        have hprocess := h.process hidle hfind hestablisher hr hobject
        split_ifs with hresolved hsuccess
        · have hkind : (s.put a (.establisher o.fd none)).kinds a = some .establisher :=
            kinds_put_self s a _
          exact ⟨_, rfl, (hprocess o.fd false).set hkind o.fd connectFlag_subset⟩
        · exact ⟨_, rfl, hprocess o.fd true⟩
        · exact ⟨_, rfl, hprocess fd true⟩
    · rw [if_neg hfinished]
      exact ⟨_, rfl, h.visits hidle fun i hi => mem_of_mem_after hi⟩

/-- The resolver leaves its pool. -/
lemma finished_spec (h : Sound s) {r : ℕ} {i : Option ℕ} (hnext : s.next = .finish r i) :
    Sound (State.goto { s with resolvers := InsertionMap.remove r s.resolvers } (.visit i)) := by
  have hresolvers : ResolversSound s.resolvers s.links (some r) := by
    have hold := h.resolvers
    rw [hnext] at hold
    exact hold
  have hkeys : ∀ r' ∈ r :: i.toList, r' ∈ keys s.resolvers := fun r' hr' =>
    h.next.resolvers r' (by rw [hnext]; exact hr')
  have hnodup : (r :: i.toList).Nodup := by
    have hold := h.next.nodup
    rw [hnext] at hold
    exact hold
  refine ⟨h.sockets, h.closing, hresolvers.finish, ⟨fun r' hr' => ?_, (List.nodup_cons.mp hnodup).2,
    fun a ha => absurd ha (Option.not_mem_none a)⟩, fun a c hc => ?_⟩
  · change r' ∈ keys (InsertionMap.remove r s.resolvers)
    have hne : r' ≠ r := by
      rintro rfl
      exact (List.nodup_cons.mp hnodup).1 hr'
    rw [keys_remove, List.mem_filter]
    exact ⟨hkeys r' (List.mem_cons_of_mem r hr'), by simpa using hne⟩
  · rw [h.callbacks a c hc, hnext]
    exact iff_of_true (Option.some_ne_none a).symm (Option.some_ne_none a).symm

/-! ## Moves -/

/-- **A client that will be closed** is there. -/
lemma closing_spec (h : Sound s) (hidle : s.next.Idle) {a : ℕ} {closingClients : List ℕ}
    (hclosing : s.closingClients = a :: closingClients) :
    ∃ c, s.client a = some c ∧ c.callback = true
      ∧ Sound { s with closingClients, user := true, next := .closing } := by
  obtain ⟨c, hc⟩ := exists_client (h.closing a (by rw [hclosing]; exact List.mem_cons_self))
  have hrest : Sound { s with closingClients } := by
    refine ⟨h.sockets, fun b hb => h.closing b ?_, h.resolvers, h.next, h.callbacks⟩
    rw [hclosing]
    exact List.mem_cons_of_mem a hb
  exact ⟨c, client_eq_some.mpr hc, h.callback hidle hc,
    hrest.loop hidle ⟨rfl, rfl⟩ (fun _ hr => absurd hr List.not_mem_nil) true⟩

/-- **What a poll returns** is about an object that is there. -/
lemma poll_spec (h : Sound s) {events : Poll.Events} (hallowed : Poll.Allowed s.poll (.poll events)) :
    ∃ poll shown, Poll.poll s.poll events = some (poll, shown) ∧ Sound { s with poll }
      ∧ ((Poll.returned shown).flags ≠ 0 → ∃ a, EventSound s (Poll.returned shown) a) := by
  obtain ⟨poll, shown, hpoll, hsound, hsockets, hhanded⟩ :=
    Poll.poll_spec h.sockets.tables hallowed
  have hregistered : SocketsSound poll s.kinds :=
    ⟨hsound, fun a info hfind => h.sockets.registered a info (hsockets ▸ hfind)⟩
  refine ⟨poll, shown, hpoll, ⟨hregistered, h.closing, h.resolvers, h.next, h.callbacks⟩,
    fun hflags => ?_⟩
  have hevent : ∀ {a flags}, Poll.Registered s.poll.sockets a flags →
      EventSound s ⟨flags, some a⟩ a := by
    rintro a flags ⟨info, hfind, hsubset⟩
    obtain ⟨kind, hkind, hkinds⟩ := h.sockets.registered a info hfind
    rw [Poll.subset_iff] at hsubset hkinds
    exact ⟨rfl, kind, hkind, Poll.subset_iff.mpr fun i hi => hkinds i (hsubset i hi)⟩
  rcases hhanded with ⟨rfl, -⟩ | ⟨a, flags, ha, ⟨rfl, -⟩ | ⟨rfl, -⟩⟩
  · exact absurd rfl hflags
  · exact ⟨a, hevent ha⟩
  · exact ⟨a, hevent ha⟩

/-- **A new client** gets a callback, or is deleted. -/
lemma accepted_spec (h : Sound s) {a : ℕ} (hnext : s.next = .accepted a) (o : Outcome) :
    ∃ s', run s o = some s' ∧ Sound s' := by
  obtain ⟨c, hc⟩ := exists_client (h.next.accepting a (by rw [hnext]; rfl))
  have hkinds : (s.put a (.client { c with callback := true })).kinds = s.kinds :=
    kinds_put_same (kinds_of_client hc)
  have hlinks : (s.put a (.client { c with callback := true })).links = s.links :=
    links_put_same (links_of_client hc)
  have hresolvers : ResolversSound s.resolvers s.links none := by
    have hold := h.resolvers
    rw [hnext] at hold
    exact hold
  have hput : Sound ((s.put a (.client { c with callback := true })).goto .timers) := by
    refine ⟨?_, ?_, ?_, ⟨fun _ hr => absurd hr List.not_mem_nil, List.nodup_nil,
      fun b hb => absurd hb (Option.not_mem_none b)⟩, fun b d hd => ?_⟩
    · change SocketsSound s.poll (s.put a _).kinds
      rw [hkinds]; exact h.sockets
    · change ClosingSound s.closingClients (s.put a _).kinds
      rw [hkinds]; exact h.closing
    · change ResolversSound s.resolvers (s.put a _).links none
      rw [hlinks]; exact hresolvers
    · change (Function.update s.objects a _) b = _ at hd
      refine iff_of_true ?_ (Option.some_ne_none b).symm
      by_cases hb : b = a
      · subst hb
        rw [Function.update_self] at hd
        rw [← Object.client.inj (Option.some_inj.mp hd)]
      · rw [Function.update_of_ne hb] at hd
        rw [h.callbacks b d hd, hnext]
        exact fun heq => hb (Option.some_inj.mp heq).symm
  rw [run, hnext]
  simp only [client_eq_some.mpr hc, Option.bind_eq_bind, Option.bind_some]
  split_ifs with hcallback
  · exact ⟨_, rfl, hput⟩
  · refine ⟨_, rfl, ?_⟩
    have hdelete := hput.deleteClient (a := a) (kinds_put_self s a _) (Option.some_ne_none a).symm
    -- The fields that the client got do not matter any more.
    have hobjects : Function.update (Function.update s.objects a
        (some (.client { c with callback := true }))) a none = Function.update s.objects a none :=
      Function.update_idem ..
    have hstate : deleteClient ((s.put a (.client { c with callback := true })).goto .timers) a
        = (deleteClient s a).goto .timers := by
      simp only [deleteClient, State.delete, State.unset, State.put, State.goto, hobjects]
    rwa [hstate] at hdelete

/-- **A step of `run`** uses only objects that are there. -/
lemma run_spec (h : Sound s) {o : Outcome} (hallowed : Allowed s (.run o)) :
    ∃ s', run s o = some s' ∧ Sound s' := by
  obtain ⟨-, hpolls, haddress⟩ := hallowed
  cases hnext : s.next with
  | timers =>
    have hidle : s.next.Idle := by rw [hnext]; exact ⟨rfl, rfl⟩
    rw [run, hnext]
    dsimp only
    split_ifs
    · exact ⟨_, rfl, h.again hidle true⟩
    · exact ⟨_, rfl, h.loop hidle ⟨rfl, rfl⟩ (fun _ hr => absurd hr List.not_mem_nil) false⟩
  | closing =>
    have hidle : s.next.Idle := by rw [hnext]; exact ⟨rfl, rfl⟩
    rw [run, hnext]
    cases hclosing : s.closingClients with
    | nil =>
      exact ⟨_, rfl, h.loop hidle ⟨rfl, rfl⟩ (fun _ hr => absurd hr List.not_mem_nil) false⟩
    | cons a closingClients =>
      obtain ⟨c, hc, hcallback, hsound⟩ := closing_spec h hidle hclosing
      have hclient : State.client ⟨s.poll, s.objects, s.resolvers, closingClients, s.user,
        .closing⟩ a = some c := hc
      simp only [hclient, Option.bind_eq_bind, Option.bind_some, if_pos hcallback, Client.call]
      exact ⟨_, rfl, hsound⟩
  | poll =>
    have hidle : s.next.Idle := by rw [hnext]; exact ⟨rfl, rfl⟩
    obtain ⟨poll, shown, hpoll, hsound, hevent⟩ := poll_spec h hpolls
    rw [run, hnext]
    simp only [hpoll, Option.bind_eq_bind, Option.bind_some]
    refine handle_spec hsound hidle (fun hflags => ?_) haddress
    obtain ⟨a, ha⟩ := hevent hflags
    exact ⟨a, ha.socket, ha.kind⟩
  | visit i =>
    cases i with
    | none =>
      have hidle : s.next.Idle := by rw [hnext]; exact ⟨rfl, rfl⟩
      rw [run, hnext]
      dsimp only
      split_ifs
      · exact ⟨_, rfl, h.again hidle true⟩
      · exact ⟨_, rfl, h.again hidle false⟩
    | some r =>
      rw [run, hnext]
      exact visit_spec h hnext o
  | finish r i =>
    have hr : r ∈ keys s.resolvers := h.processed_mem (by rw [hnext]; rfl)
    rw [run, hnext]
    cases hfind : find? r s.resolvers with
    | none => exact absurd hr (find?_eq_none_iff.mp hfind)
    | some resolver => exact ⟨_, by simp only [hfind]; rfl, finished_spec h hnext⟩
  | accepted a => exact accepted_spec h hnext o

/-- A thread has resolved the name of a host. -/
lemma resolved_spec (h : Sound s) {r : ℕ} {resolver : Resolver}
    (hfind : find? r s.resolvers = some resolver) :
    Sound { s with resolvers := append r { resolver with finished := true } s.resolvers } := by
  refine ⟨h.sockets, h.closing, h.resolvers.replace hfind rfl,
    ⟨fun r' hr' => ?_, h.next.nodup, h.next.accepting⟩, h.callbacks⟩
  have hold := h.next.resolvers r' hr'
  change r' ∈ keys (append r _ s.resolvers)
  rw [keys_append]
  split_ifs
  · exact hold
  · exact List.mem_append_left _ hold

/-- **A move** that may happen goes through, and keeps the invariant. -/
lemma step_spec (h : Sound s) {m : Move} (hallowed : Allowed s m) :
    ∃ s', step s m = some s' ∧ Sound s' := by
  -- The handle of a client, in the moves that use one
  have hclient : ∀ {a}, (s.client a).isSome → ∃ c, s.client a = some c
      ∧ s.objects a = some (.client c) := by
    intro a ha
    obtain ⟨c, hc⟩ := Option.isSome_iff_exists.mp ha
    exact ⟨c, hc, client_eq_some.mp hc⟩
  cases m with
  | listen a fd => exact ⟨_, rfl, listen_spec h hallowed.2 fd⟩
  | connect a fd => exact ⟨_, rfl, connect_spec h hallowed.2 fd⟩
  | connectHost a resolver => exact ⟨_, rfl, connectHost_spec h hallowed.2.1 hallowed.2.2⟩
  | pair a fd => exact ⟨_, rfl, pair_spec h hallowed.2 fd⟩
  | remove a => exact remove_spec h hallowed.2
  | write a size sending =>
    obtain ⟨c, hc, hobject⟩ := hclient hallowed.2
    exact ⟨_, by rw [step, hc]; rfl, write_spec h hobject size sending⟩
  | read a closed =>
    obtain ⟨c, hc, hobject⟩ := hclient hallowed.2
    exact ⟨_, by rw [step, hc]; rfl, read_spec h hobject closed⟩
  | suspend a =>
    obtain ⟨c, hc, hobject⟩ := hclient hallowed.2
    exact ⟨_, by rw [step, hc]; rfl, suspend_spec h hobject⟩
  | resume a =>
    obtain ⟨c, hc, hobject⟩ := hclient hallowed.2
    exact ⟨_, by rw [step, hc]; rfl, resume_spec h hobject⟩
  | leave => exact ⟨_, rfl, h.user false⟩
  | finished r =>
    cases hfind : find? r s.resolvers with
    | none => exact absurd hallowed (find?_eq_none_iff.mp hfind)
    | some resolver =>
      exact ⟨_, by rw [step, hfind]; rfl, resolved_spec h hfind⟩
  | run o => exact run_spec h hallowed

/-! ## Runs -/

lemma sound_initial : Sound ⟨Poll.clear, fun _ => none, [], [], true, .timers⟩ :=
  ⟨⟨Poll.sound_clear, by simp [Poll.clear]⟩, by simp [ClosingSound],
    ⟨List.nodup_nil, by simp, by simp [State.links]⟩,
    ⟨by simp [Next.resolvers], List.nodup_nil, by simp [Next.accepting]⟩, by simp⟩

lemma sound_of_run {ms : List Move} (h : system.Run ms s) : Sound s := by
  have hinitial : ∀ s, system.initial s → Sound s := by
    rintro _ rfl
    exact sound_initial
  have hstep : ∀ (ms : List Move) s es s', Sound s → system.step s es s' → Sound s' := by
    rintro ms s es s' hsound ⟨m, hallowed, hstep, rfl⟩
    obtain ⟨s'', hs'', hsound'⟩ := step_spec hsound hallowed
    obtain rfl := Option.some_inj.mp (hstep.symm.trans hs'')
    exact hsound'
  exact h.invariant hinitial hstep

/-- What is registered is there. -/
lemma Sound.isSome_of_registered (h : Sound s) {a : ℕ} (ha : a ∈ keys s.poll.sockets) :
    (s.objects a).isSome := by
  cases hfind : find? a s.poll.sockets with
  | none => exact absurd ha (find?_eq_none_iff.mp hfind)
  | some info =>
    obtain ⟨kind, hkind, -⟩ := h.sockets.registered a info hfind
    obtain ⟨object, hobject, -⟩ := Option.map_eq_some_iff.mp hkind
    rw [hobject]
    rfl

/-- What is selected is there. -/
lemma Sound.isSome_of_selected (h : Sound s) {a : ℕ} (ha : a ∈ keys s.poll.selectedSockets) :
    (s.objects a).isSome := by
  cases hfind : find? a s.poll.selectedSockets with
  | none => exact absurd ha (find?_eq_none_iff.mp hfind)
  | some flags =>
    obtain ⟨info, hinfo, -⟩ := h.sockets.tables.selected.registered a flags hfind
    refine h.isSome_of_registered ?_
    by_contra hnone
    rw [find?_eq_none_iff.mpr hnone] at hinfo
    exact Option.some_ne_none info hinfo.symm

/-- **No handle dangles**: what `_sockets`, the events that were selected, `_closingClients` and the
    resolvers that are not processed yet refer to is there, and `run` gets at every object that it
    uses, whatever callbacks do. -/
theorem handles_live {ms : List Move} (h : system.Run ms s) :
    (∀ a ∈ keys s.poll.sockets, (s.objects a).isSome)
    ∧ (∀ a info, find? a s.poll.sockets = some info → (s.objects info.socket).isSome)
    ∧ (∀ a ∈ keys s.poll.selectedSockets, (s.objects a).isSome)
    ∧ (∀ a ∈ s.closingClients, (s.client a).isSome)
    ∧ (∀ r resolver a, find? r s.resolvers = some resolver → resolver.establisher = some a →
      s.next.processed ≠ some r → (s.establisher a).isSome)
    ∧ ∀ m, Allowed s m → (step s m).isSome := by
  have hsound := sound_of_run h
  refine ⟨fun a => hsound.isSome_of_registered, fun a info hfind => ?_,
    fun a => hsound.isSome_of_selected, fun a ha => ?_, fun r resolver a hfind ha hr => ?_,
    fun m hm => ?_⟩
  · rw [hsound.sockets.tables.socket a info hfind]
    refine hsound.isSome_of_registered ?_
    by_contra hnone
    rw [find?_eq_none_iff.mpr hnone] at hfind
    exact Option.some_ne_none info hfind.symm
  · obtain ⟨c, hc⟩ := exists_client (hsound.closing a ha)
    rw [client_eq_some.mpr hc]
    rfl
  · have hlink := (hsound.resolvers.establisher r resolver a hfind ha).resolve_left hr
    obtain ⟨fd, hobject⟩ := exists_of_link hlink
    rw [State.establisher, hobject]
    rfl
  · obtain ⟨s', hs', -⟩ := step_spec hsound hm
    rw [hs']
    rfl

/-- A move prolongs a run. -/
lemma run_move {ms : List Move} {s s' : State} (h : system.Run ms s) (m : Move)
    (hallowed : Allowed s m) (hstep : step s m = some s') : system.Run (ms ++ [m]) s' :=
  .next h ⟨m, hallowed, hstep, rfl⟩

/-- An outcome where nothing happens -/
def Outcome.idle : Outcome := ⟨false, [], false, false, -1, 0, .wouldBlock, false, false⟩

/-- A client that was closed is removed in `onClosed`. -/
theorem handles_live_closed : ∃ s, system.Run [.pair 1 5, .read 1 true, .leave, .run .idle,
      .run .idle, .remove 1] s
    ∧ (∀ a ∈ keys s.poll.sockets, (s.objects a).isSome)
    ∧ (∀ a info, find? a s.poll.sockets = some info → (s.objects info.socket).isSome)
    ∧ (∀ a ∈ keys s.poll.selectedSockets, (s.objects a).isSome)
    ∧ (∀ a ∈ s.closingClients, (s.client a).isSome)
    ∧ (∀ r resolver a, find? r s.resolvers = some resolver → resolver.establisher = some a →
      s.next.processed ≠ some r → (s.establisher a).isSome)
    ∧ ∀ m, Allowed s m → (step s m).isSome := by
  have hpolls : ∀ p, Poll.Allowed p (.poll []) := fun p => ⟨Nat.zero_le _, by simp⟩
  have hrun : system.Run [.pair 1 5, .read 1 true, .leave, .run .idle, .run .idle, .remove 1] _ :=
    run_move (run_move (run_move (run_move (run_move (run_move (.start rfl)
      (.pair 1 5) ⟨rfl, rfl⟩ rfl) (.read 1 true) ⟨rfl, rfl⟩ rfl) .leave rfl rfl)
      (.run .idle) ⟨rfl, hpolls _, rfl⟩ rfl) (.run .idle) ⟨rfl, hpolls _, rfl⟩ rfl)
      (.remove 1) ⟨rfl, rfl⟩ rfl
  exact ⟨_, hrun, handles_live hrun⟩

end Nstd.Handles
