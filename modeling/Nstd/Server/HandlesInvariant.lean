import Nstd.Server.Handles

/-!
# Handles and objects

* `Kind`, `State.kinds`, `State.links` — what is at an address, and the resolver of an establisher.
* `SocketsSound`, `ClosingSound`, `ResolversSound`, `NextSound`, `Sound` — every address that is held
  somewhere is the one of an object that is there.
* `Sound.create`, `Sound.delete`, `Sound.set` and others — what operations consist of keeps that.
-/

namespace Nstd.Handles

open Poll (readFlag writeFlag acceptFlag connectFlag)
open InsertionMap

/-- What an object is -/
inductive Kind
  | listener
  | establisher
  | client

/-- The flags that objects of a kind are registered with -/
def Kind.flags : Kind → Flags
  | .listener => acceptFlag
  | .establisher => connectFlag
  | .client => readFlag ||| writeFlag

def Object.kind : Object → Kind
  | .listener _ => .listener
  | .establisher _ _ => .establisher
  | .client _ => .client

/-- The resolver that an object refers to -/
def Object.resolver : Object → Option ℕ
  | .establisher _ resolver => resolver
  | _ => none

/-- What is at an address -/
def State.kinds (s : State) (a : ℕ) : Option Kind := (s.objects a).map Object.kind

/-- The resolver that the object at an address refers to -/
def State.links (s : State) (a : ℕ) : Option ℕ := (s.objects a).bind Object.resolver

/-- The resolver whose completion is being processed -/
def Next.processed : Next → Option ℕ
  | .finish r _ => some r
  | _ => none

/-- The resolvers that the loop over them goes on with -/
def Next.resolvers : Next → List ℕ
  | .visit i => i.toList
  | .finish r i => r :: i.toList
  | _ => []

/-- The client that is handed to the user for the first time -/
def Next.accepting : Next → Option ℕ
  | .accepted a => some a
  | _ => none

/-- **What is registered** is there, and may be registered with these flags. -/
structure SocketsSound (poll : Poll.State) (kinds : ℕ → Option Kind) : Prop where
  tables : Poll.Sound poll
  registered : ∀ a (info : Poll.SocketInfo), find? a poll.sockets = some info →
    ∃ kind, kinds a = some kind ∧ info.events.Subset kind.flags

/-- **Clients that will be closed** are there. -/
def ClosingSound (closingClients : List ℕ) (kinds : ℕ → Option Kind) : Prop :=
  ∀ a ∈ closingClients, kinds a = some .client

/-- **Resolvers and establishers** refer to each other, but for the one whose completion is being
    processed. -/
structure ResolversSound (resolvers : List (ℕ × Resolver)) (links : ℕ → Option ℕ)
    (processed : Option ℕ) : Prop where
  nodup : (keys resolvers).Nodup
  establisher : ∀ r resolver a, find? r resolvers = some resolver →
    resolver.establisher = some a → processed = some r ∨ links a = some r
  resolver : ∀ a r, links a = some r → processed ≠ some r
    ∧ ∃ resolver, find? r resolvers = some resolver ∧ resolver.establisher = some a

/-- **What `run` goes on with** is there. -/
structure NextSound (next : Next) (resolvers : List (ℕ × Resolver)) (kinds : ℕ → Option Kind) :
    Prop where
  resolvers : ∀ r ∈ next.resolvers, r ∈ keys resolvers
  nodup : next.resolvers.Nodup
  accepting : ∀ a ∈ next.accepting, kinds a = some .client

/-- **The invariant** -/
structure Sound (s : State) : Prop where
  sockets : SocketsSound s.poll s.kinds
  closing : ClosingSound s.closingClients s.kinds
  resolvers : ResolversSound s.resolvers s.links s.next.processed
  next : NextSound s.next s.resolvers s.kinds
  callbacks : ∀ a c, s.objects a = some (.client c) →
    (c.callback = true ↔ s.next.accepting ≠ some a)

/-! ## Objects -/

lemma kinds_put (s : State) (a : ℕ) (object : Object) :
    (s.put a object).kinds = Function.update s.kinds a (some object.kind) := by
  funext b
  by_cases hb : b = a
  · subst hb
    simp [State.kinds, State.put]
  · simp [State.kinds, State.put, hb]

lemma links_put (s : State) (a : ℕ) (object : Object) :
    (s.put a object).links = Function.update s.links a object.resolver := by
  funext b
  by_cases hb : b = a
  · subst hb
    simp [State.links, State.put]
  · simp [State.links, State.put, hb]

lemma kinds_delete (s : State) (a : ℕ) : (s.delete a).kinds = Function.update s.kinds a none := by
  funext b
  by_cases hb : b = a
  · subst hb
    simp [State.kinds, State.delete]
  · simp [State.kinds, State.delete, State.unset, hb]

lemma links_delete (s : State) (a : ℕ) : (s.delete a).links = Function.update s.links a none := by
  funext b
  by_cases hb : b = a
  · subst hb
    simp [State.links, State.delete]
  · simp [State.links, State.delete, State.unset, hb]

/-- Fields of an object are changed. -/
lemma kinds_put_same {s : State} {a : ℕ} {object : Object} (h : s.kinds a = some object.kind) :
    (s.put a object).kinds = s.kinds := by
  rw [kinds_put, ← h, Function.update_eq_self]

lemma links_put_same {s : State} {a : ℕ} {object : Object} (h : s.links a = object.resolver) :
    (s.put a object).links = s.links := by
  rw [links_put, ← h, Function.update_eq_self]

lemma client_eq_some {s : State} {a : ℕ} {c : Client} :
    s.client a = some c ↔ s.objects a = some (.client c) := by
  rw [State.client]
  rcases s.objects a with _ | _ | _ | c' <;> simp

lemma exists_client {s : State} {a : ℕ} (h : s.kinds a = some .client) :
    ∃ c, s.objects a = some (.client c) := by
  rw [State.kinds] at h
  rcases hobject : s.objects a with _ | _ | _ | c
  · simp [hobject] at h
  · simp [hobject, Object.kind] at h
  · simp [hobject, Object.kind] at h
  · exact ⟨c, rfl⟩

lemma exists_listener {s : State} {a : ℕ} (h : s.kinds a = some .listener) :
    ∃ fd, s.listener a = some fd := by
  rw [State.kinds] at h
  rcases hobject : s.objects a with _ | fd | _ | _
  · simp [hobject] at h
  · exact ⟨fd, by rw [State.listener, hobject]⟩
  · simp [hobject, Object.kind] at h
  · simp [hobject, Object.kind] at h

lemma exists_establisher {s : State} {a : ℕ} (h : s.kinds a = some .establisher) :
    ∃ fd resolver, s.establisher a = some (fd, resolver)
      ∧ s.objects a = some (.establisher fd resolver) := by
  rw [State.kinds] at h
  rcases hobject : s.objects a with _ | _ | ⟨fd, resolver⟩ | _
  · simp [hobject] at h
  · simp [hobject, Object.kind] at h
  · exact ⟨fd, resolver, by rw [State.establisher, hobject], rfl⟩
  · simp [hobject, Object.kind] at h

lemma kinds_of_client {s : State} {a : ℕ} {c : Client} (h : s.objects a = some (.client c)) :
    s.kinds a = some .client := by rw [State.kinds, h]; rfl

lemma links_of_client {s : State} {a : ℕ} {c : Client} (h : s.objects a = some (.client c)) :
    s.links a = none := by rw [State.links, h]; rfl

/-- An object that refers to a resolver is an establisher. -/
lemma exists_of_link {s : State} {a r : ℕ} (h : s.links a = some r) :
    ∃ fd, s.objects a = some (.establisher fd (some r)) := by
  rw [State.links] at h
  rcases hobject : s.objects a with _ | _ | ⟨fd, resolver⟩ | _
  · simp [hobject] at h
  · simp [hobject, Object.resolver] at h
  · obtain rfl : resolver = some r := by simpa [hobject, Object.resolver] using h
    exact ⟨fd, rfl⟩
  · simp [hobject, Object.resolver] at h

/-! ## Tables of sockets -/

section Sockets

variable {poll : Poll.State} {kinds : ℕ → Option Kind}

/-- What is registered after `set` was registered before, or with these flags. -/
lemma find_set {a b : ℕ} {fd : ℤ} {events : Flags} {info : Poll.SocketInfo}
    (h : find? b (Poll.set poll a fd events).sockets = some info) :
    b = a ∧ info.events = events ∨ find? b poll.sockets = some info := by
  have happend : ∀ sockInfo : Poll.SocketInfo, sockInfo.events = events →
      find? b (append a sockInfo poll.sockets) = some info →
        b = a ∧ info.events = events ∨ find? b poll.sockets = some info := by
    intro sockInfo hevents h
    rw [find?_append] at h
    split_ifs at h with hb
    · exact Or.inl ⟨hb, by rw [← Option.some_inj.mp h, hevents]⟩
    · exact Or.inr h
  rw [Poll.set] at h
  cases hfind : find? a poll.sockets with
  | none =>
    rw [hfind] at h
    dsimp only at h
    split_ifs at h
    · exact Or.inr h
    · exact happend _ rfl h
  | some sockInfo =>
    rw [hfind] at h
    dsimp only at h
    split_ifs at h
    · exact Or.inr h
    · exact happend _ rfl h

lemma find_remove (poll : Poll.State) (a b : ℕ) :
    find? b (Poll.remove poll a).sockets = if b = a then none else find? b poll.sockets := by
  rw [Poll.remove]
  cases hfind : find? a poll.sockets with
  | none =>
    dsimp only
    split_ifs with hb
    · rw [hb, hfind]
    · rfl
  | some sockInfo => exact find?_remove a b poll.sockets

lemma SocketsSound.set (h : SocketsSound poll kinds) {a : ℕ} {kind : Kind}
    (ha : kinds a = some kind) (fd : ℤ) {events : Flags} (hevents : events.Subset kind.flags) :
    SocketsSound (Poll.set poll a fd events) kinds := by
  refine ⟨(Poll.set_spec h.tables a fd events).1, fun b info hfind => ?_⟩
  rcases find_set hfind with ⟨rfl, rfl⟩ | hold
  · exact ⟨kind, ha, hevents⟩
  · exact h.registered b info hold

lemma SocketsSound.unset (h : SocketsSound poll kinds) (a : ℕ) :
    SocketsSound (Poll.remove poll a) kinds := by
  refine ⟨(Poll.remove_spec h.tables a).1, fun b info hfind => ?_⟩
  rw [find_remove] at hfind
  split_ifs at hfind
  exact h.registered b info hfind

lemma SocketsSound.create (h : SocketsSound poll kinds) {a : ℕ} (ha : kinds a = none)
    (kind : Kind) : SocketsSound poll (Function.update kinds a (some kind)) := by
  refine ⟨h.tables, fun b info hfind => ?_⟩
  obtain ⟨kind', hkind, hsubset⟩ := h.registered b info hfind
  have hb : b ≠ a := by
    rintro rfl
    exact absurd (hkind.symm.trans ha) (Option.some_ne_none _)
  exact ⟨kind', by rw [Function.update_of_ne hb, hkind], hsubset⟩

lemma SocketsSound.delete (h : SocketsSound poll kinds) (a : ℕ) :
    SocketsSound (Poll.remove poll a) (Function.update kinds a none) := by
  refine ⟨(Poll.remove_spec h.tables a).1, fun b info hfind => ?_⟩
  rw [find_remove] at hfind
  split_ifs at hfind with hb
  rw [Function.update_of_ne hb]
  exact h.registered b info hfind

end Sockets

/-! ## Resolvers -/

section Resolvers

variable {resolvers : List (ℕ × Resolver)} {links : ℕ → Option ℕ} {processed : Option ℕ}

/-- An establisher is made together with a resolver. -/
lemma ResolversSound.connect (h : ResolversSound resolvers links processed) {a r : ℕ}
    (ha : links a = none) (hr : r ∉ keys resolvers) (hprocessed : processed ≠ some r) :
    ResolversSound (append r ⟨some a, false⟩ resolvers) (Function.update links a (some r))
      processed := by
  refine ⟨nodup_append h.nodup _, fun r' resolver b hfind hb => ?_, fun b r' hlink => ?_⟩
  · rw [find?_append] at hfind
    split_ifs at hfind with heq
    · obtain rfl := Option.some_inj.mp hfind
      obtain rfl := Option.some_inj.mp hb
      exact Or.inr (by rw [Function.update_self, heq])
    · refine (h.establisher r' resolver b hfind hb).imp_right fun hlink => ?_
      have hne : b ≠ a := by
        rintro rfl
        exact absurd (hlink.symm.trans ha) (Option.some_ne_none _)
      rw [Function.update_of_ne hne, hlink]
  · by_cases hb : b = a
    · subst hb
      rw [Function.update_self] at hlink
      obtain rfl := Option.some_inj.mp hlink
      exact ⟨hprocessed, _, by rw [find?_append, if_pos rfl], rfl⟩
    · rw [Function.update_of_ne hb] at hlink
      obtain ⟨hne, resolver, hfind, hresolver⟩ := h.resolver b r' hlink
      refine ⟨hne, resolver, ?_, hresolver⟩
      have hr' : r' ≠ r := by
        rintro rfl
        exact absurd (hfind.symm.trans (find?_eq_none_iff.mpr hr)) (Option.some_ne_none _)
      rw [find?_append, if_neg hr', hfind]

/-- Fields of a resolver are changed. -/
lemma ResolversSound.replace (h : ResolversSound resolvers links processed) {r : ℕ}
    {resolver resolver' : Resolver} (hfind : find? r resolvers = some resolver)
    (hsame : resolver'.establisher = resolver.establisher) :
    ResolversSound (append r resolver' resolvers) links processed := by
  refine ⟨nodup_append h.nodup _, fun r' found b hfound hb => ?_, fun b r' hlink => ?_⟩
  · rw [find?_append] at hfound
    split_ifs at hfound with heq
    · obtain rfl := Option.some_inj.mp hfound
      rw [heq]
      exact h.establisher r resolver b hfind (hsame ▸ hb)
    · exact h.establisher r' found b hfound hb
  · obtain ⟨hne, found, hfound, hb⟩ := h.resolver b r' hlink
    refine ⟨hne, ?_⟩
    by_cases heq : r' = r
    · subst heq
      obtain rfl := Option.some_inj.mp (hfind.symm.trans hfound)
      exact ⟨resolver', by rw [find?_append, if_pos rfl], hsame.trans hb⟩
    · exact ⟨found, by rw [find?_append, if_neg heq, hfound], hb⟩

/-- The establisher of a resolver is removed. -/
lemma ResolversSound.unlink (h : ResolversSound resolvers links processed) {a r : ℕ}
    {resolver : Resolver} (hfind : find? r resolvers = some resolver)
    (ha : resolver.establisher = some a) (hlink : links a = some r) :
    ResolversSound (append r { resolver with establisher := none } resolvers)
      (Function.update links a none) processed := by
  refine ⟨nodup_append h.nodup _, fun r' found b hfound hb => ?_, fun b r' hlink' => ?_⟩
  · rw [find?_append] at hfound
    split_ifs at hfound with heq
    · obtain rfl := Option.some_inj.mp hfound
      exact absurd hb.symm (Option.some_ne_none _)
    · refine (h.establisher r' found b hfound hb).imp_right fun hlink' => ?_
      have hne : b ≠ a := by
        rintro rfl
        exact heq (Option.some_inj.mp (hlink'.symm.trans hlink))
      rw [Function.update_of_ne hne, hlink']
  · have hne : b ≠ a := by
      rintro rfl
      rw [Function.update_self] at hlink'
      exact absurd hlink'.symm (Option.some_ne_none _)
    rw [Function.update_of_ne hne] at hlink'
    obtain ⟨hprocessed, found, hfound, hb⟩ := h.resolver b r' hlink'
    have hr' : r' ≠ r := by
      rintro rfl
      obtain rfl := Option.some_inj.mp (hfind.symm.trans hfound)
      exact hne (Option.some_inj.mp (hb.symm.trans ha))
    exact ⟨hprocessed, found, by rw [find?_append, if_neg hr', hfound], hb⟩

/-- The completion of a resolver is processed: `establisher.resolver = 0`. -/
lemma ResolversSound.process (h : ResolversSound resolvers links none) {a r : ℕ}
    {resolver : Resolver} (hfind : find? r resolvers = some resolver)
    (ha : resolver.establisher = some a) :
    ResolversSound resolvers (Function.update links a none) (some r) := by
  refine ⟨h.nodup, fun r' found b hfound hb => ?_, fun b r' hlink => ?_⟩
  · by_cases heq : r' = r
    · exact Or.inl (congrArg some heq.symm)
    · refine Or.inr ?_
      have hlink := (h.establisher r' found b hfound hb).resolve_left fun hnone => nomatch hnone
      have hlink' := (h.establisher r resolver a hfind ha).resolve_left fun hnone => nomatch hnone
      have hne : b ≠ a := by
        rintro rfl
        exact heq (Option.some_inj.mp (hlink.symm.trans hlink'))
      rw [Function.update_of_ne hne, hlink]
  · have hne : b ≠ a := by
      rintro rfl
      rw [Function.update_self] at hlink
      exact absurd hlink.symm (Option.some_ne_none _)
    rw [Function.update_of_ne hne] at hlink
    obtain ⟨-, found, hfound, hb⟩ := h.resolver b r' hlink
    refine ⟨fun heq => ?_, found, hfound, hb⟩
    obtain rfl := Option.some_inj.mp heq
    obtain rfl := Option.some_inj.mp (hfind.symm.trans hfound)
    exact hne (Option.some_inj.mp (hb.symm.trans ha))

/-- The completion of a resolver whose establisher was removed is processed. -/
lemma ResolversSound.skip (h : ResolversSound resolvers links none) {r : ℕ}
    {resolver : Resolver} (hfind : find? r resolvers = some resolver)
    (hnone : resolver.establisher = none) : ResolversSound resolvers links (some r) := by
  refine ⟨h.nodup, fun r' found b hfound hb => ?_, fun b r' hlink => ?_⟩
  · exact (h.establisher r' found b hfound hb).elim (fun h => nomatch h) Or.inr
  · obtain ⟨-, found, hfound, hb⟩ := h.resolver b r' hlink
    refine ⟨fun heq => ?_, found, hfound, hb⟩
    obtain rfl := Option.some_inj.mp heq
    obtain rfl := Option.some_inj.mp (hfind.symm.trans hfound)
    exact absurd (hb.symm.trans hnone) (Option.some_ne_none _)

/-- The resolver is removed. -/
lemma ResolversSound.finish {r : ℕ} (h : ResolversSound resolvers links (some r)) :
    ResolversSound (InsertionMap.remove r resolvers) links none := by
  refine ⟨?_, fun r' found b hfound hb => ?_, fun b r' hlink => ?_⟩
  · rw [keys_remove]
    exact h.nodup.filter _
  · rw [find?_remove] at hfound
    split_ifs at hfound with heq
    refine Or.inr ((h.establisher r' found b hfound hb).resolve_left fun hsome => ?_)
    exact heq (Option.some_inj.mp hsome).symm
  · obtain ⟨hne, found, hfound, hb⟩ := h.resolver b r' hlink
    have heq : r' ≠ r := fun heq => hne (congrArg some heq.symm)
    exact ⟨(Option.some_ne_none r').symm, found, by rw [find?_remove, if_neg heq, hfound], hb⟩

end Resolvers

/-! ## Parts of operations -/

section Parts

variable {s : State}

lemma Sound.user (h : Sound s) (user : Bool) : Sound { s with user } :=
  ⟨h.sockets, h.closing, h.resolvers, h.next, h.callbacks⟩

/-- Fields of a client are changed. -/
lemma Sound.putClient (h : Sound s) {a : ℕ} {c c' : Client} (hc : s.objects a = some (.client c))
    (hcallback : c'.callback = c.callback) : Sound (s.put a (.client c')) := by
  have hkinds : (s.put a (.client c')).kinds = s.kinds := kinds_put_same (kinds_of_client hc)
  have hlinks : (s.put a (.client c')).links = s.links := links_put_same (links_of_client hc)
  refine ⟨?_, ?_, ?_, ?_, fun b d hd => ?_⟩
  · rw [hkinds]; exact h.sockets
  · rw [hkinds]; exact h.closing
  · rw [hlinks]; exact h.resolvers
  · rw [hkinds]; exact h.next
  · change (Function.update s.objects a (some (.client c'))) b = _ at hd
    by_cases hb : b = a
    · subst hb
      rw [Function.update_self] at hd
      obtain rfl : c' = d := Object.client.inj (Option.some_inj.mp hd)
      rw [hcallback]
      exact h.callbacks b c hc
    · rw [Function.update_of_ne hb] at hd
      exact h.callbacks b d hd

lemma Sound.set (h : Sound s) {a : ℕ} {kind : Kind} (ha : s.kinds a = some kind) (fd : ℤ)
    {events : Flags} (hevents : events.Subset kind.flags) : Sound (s.set a fd events) :=
  ⟨h.sockets.set ha fd hevents, h.closing, h.resolvers, h.next, h.callbacks⟩

lemma Sound.unset (h : Sound s) (a : ℕ) : Sound (s.unset a) :=
  ⟨h.sockets.unset a, h.closing, h.resolvers, h.next, h.callbacks⟩

lemma Sound.close (h : Sound s) {a : ℕ} (ha : s.kinds a = some .client) : Sound (s.close a) := by
  rw [State.close]
  split_ifs
  · exact h
  · refine ⟨h.sockets, fun b hb => ?_, h.resolvers, h.next, h.callbacks⟩
    rcases List.mem_append.mp hb with hb | hb
    · exact h.closing b hb
    · rw [List.mem_singleton.mp hb]
      exact ha

/-- `run` goes on, or calls a callback. -/
lemma Sound.goto (h : Sound s) {next : Next} (hprocessed : next.processed = s.next.processed)
    (hold : s.next.accepting = none) (hnew : next.accepting = none) (user : Bool)
    (hresolvers : ∀ r ∈ next.resolvers, r ∈ keys s.resolvers) (hnodup : next.resolvers.Nodup) :
    Sound { s with user, next } := by
  refine ⟨h.sockets, h.closing, ?_, ⟨hresolvers, hnodup, fun a ha => ?_⟩, fun a c hc => ?_⟩
  · change ResolversSound s.resolvers s.links next.processed
    rw [hprocessed]
    exact h.resolvers
  · exact absurd (hnew ▸ ha) (Option.not_mem_none a)
  · change c.callback = true ↔ next.accepting ≠ some a
    rw [hnew, ← hold]
    exact h.callbacks a c hc

lemma links_of_fresh {a : ℕ} (ha : s.objects a = none) : s.links a = none := by
  rw [State.links, ha]
  rfl

lemma kinds_of_fresh {a : ℕ} (ha : s.objects a = none) : s.kinds a = none := by
  rw [State.kinds, ha]
  rfl

/-- An address that is free is not the one of a client. -/
lemma ne_of_fresh {a b : ℕ} {kind : Kind} (ha : s.objects a = none) (hb : s.kinds b = some kind) :
    b ≠ a := by
  rintro rfl
  exact absurd (hb.symm.trans (kinds_of_fresh ha)) (Option.some_ne_none _)

lemma ClosingSound.create {closingClients : List ℕ} (h : ClosingSound closingClients s.kinds)
    {a : ℕ} (ha : s.objects a = none) (kind : Option Kind) :
    ClosingSound closingClients (Function.update s.kinds a kind) := by
  intro b hb
  rw [Function.update_of_ne (ne_of_fresh ha (h b hb))]
  exact h b hb

lemma NextSound.create {next : Next} {resolvers : List (ℕ × Resolver)}
    (h : NextSound next resolvers s.kinds) {a : ℕ} (ha : s.objects a = none) (kind : Option Kind) :
    NextSound next resolvers (Function.update s.kinds a kind) := by
  refine ⟨h.resolvers, h.nodup, fun b hb => ?_⟩
  rw [Function.update_of_ne (ne_of_fresh ha (h.accepting b hb))]
  exact h.accepting b hb

/-- A new object that is not a client has no callback to be seen to. -/
lemma callbacks_create (h : Sound s) {a : ℕ} (ha : s.objects a = none) {object : Object}
    (hobject : ∀ c, object = .client c → c.callback = true) (b : ℕ) (c : Client)
    (hb : (s.put a object).objects b = some (.client c)) :
    c.callback = true ↔ s.next.accepting ≠ some b := by
  change (Function.update s.objects a (some object)) b = _ at hb
  by_cases heq : b = a
  · subst heq
    rw [Function.update_self] at hb
    refine iff_of_true (hobject c (Option.some_inj.mp hb)) fun haccepting => ?_
    exact ne_of_fresh ha (h.next.accepting b haccepting) rfl
  · rw [Function.update_of_ne heq] at hb
    exact h.callbacks b c hb

/-- **An object is made** that refers to no resolver. -/
lemma Sound.create (h : Sound s) {a : ℕ} (ha : s.objects a = none) {object : Object}
    (hresolver : object.resolver = none) (hobject : ∀ c, object = .client c → c.callback = true) :
    Sound (s.put a object) := by
  have hlinks : (s.put a object).links = s.links :=
    links_put_same ((links_of_fresh ha).trans hresolver.symm)
  refine ⟨?_, ?_, ?_, ?_, callbacks_create h ha hobject⟩
  · rw [kinds_put]; exact h.sockets.create (kinds_of_fresh ha) _
  · rw [kinds_put]; exact h.closing.create ha _
  · rw [hlinks]; exact h.resolvers
  · rw [kinds_put]; exact h.next.create ha _

/-- **An object is deleted** that nothing but `_sockets` and its resolver refers to. -/
lemma Sound.delete (h : Sound s) {a : ℕ} {resolvers : List (ℕ × Resolver)}
    (hresolvers : ResolversSound resolvers (Function.update s.links a none) s.next.processed)
    (hkeys : ∀ r ∈ keys s.resolvers, r ∈ keys resolvers) (hclosing : a ∉ s.closingClients)
    (haccepting : s.next.accepting ≠ some a) : Sound (State.delete { s with resolvers } a) := by
  have hkinds : (State.delete { s with resolvers } a).kinds = Function.update s.kinds a none :=
    kinds_delete _ a
  have hlinks : (State.delete { s with resolvers } a).links = Function.update s.links a none :=
    links_delete _ a
  refine ⟨?_, fun b hb => ?_, ?_, ⟨fun r hr => hkeys r (h.next.resolvers r hr), h.next.nodup,
    fun b hb => ?_⟩, fun b c hc => ?_⟩
  · rw [hkinds]; exact h.sockets.delete a
  · have hne : b ≠ a := by
      rintro rfl
      exact hclosing hb
    rw [hkinds, Function.update_of_ne hne]
    exact h.closing b hb
  · rw [hlinks]; exact hresolvers
  · have hne : b ≠ a := by
      rintro rfl
      exact haccepting hb
    rw [hkinds, Function.update_of_ne hne]
    exact h.next.accepting b hb
  · change (Function.update s.objects a none) b = _ at hc
    by_cases heq : b = a
    · subst heq
      rw [Function.update_self] at hc
      exact absurd hc.symm (Option.some_ne_none _)
    · rw [Function.update_of_ne heq] at hc
      exact h.callbacks b c hc

/-- An object that refers to no resolver is deleted. -/
lemma Sound.deleteFree (h : Sound s) {a : ℕ} (hlink : s.links a = none)
    (hclosing : a ∉ s.closingClients) (haccepting : s.next.accepting ≠ some a) :
    Sound (s.delete a) := by
  have hresolvers : ResolversSound s.resolvers (Function.update s.links a none)
      s.next.processed := by
    rw [← hlink, Function.update_eq_self]
    exact h.resolvers
  exact h.delete hresolvers (fun _ hr => hr) hclosing haccepting

/-- What is not a client will not be closed. -/
lemma Sound.not_closing (h : Sound s) {a : ℕ} (ha : s.kinds a ≠ some .client) :
    a ∉ s.closingClients ∧ s.next.accepting ≠ some a :=
  ⟨fun hclosing => ha (h.closing a hclosing), fun haccepting => ha (h.next.accepting a haccepting)⟩

/-- `deleteClient` -/
lemma Sound.deleteClient (h : Sound s) {a : ℕ} (ha : s.kinds a = some .client)
    (haccepting : s.next.accepting ≠ some a) : Sound (deleteClient s a) := by
  have hclosing : Sound { s with closingClients := s.closingClients.filter (· ≠ a) } :=
    ⟨h.sockets, fun b hb => h.closing b (List.mem_filter.mp hb).1, h.resolvers, h.next,
      h.callbacks⟩
  obtain ⟨c, hc⟩ := exists_client ha
  exact hclosing.deleteFree (links_of_client hc) (by simp) haccepting

end Parts

end Nstd.Handles
