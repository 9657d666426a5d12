import Nstd.Server.PollTables

/-!
# The scan of `Socket::Poll` on `poll`

The loop stops when as many entries as `::poll` has counted were found ready.  The descriptor of
interrupts counts as well, but the loop begins behind its entry and ends one entry too late; and
whether there was an interrupt is asked for after a wait where no socket was ready, too.

* `reported`, `Right` — what is reported, and what a call of `poll` should do with it.
* `picks` — what is selected.
* `Found.scan_succ` — one entry.
* `scan_ready`, `scan_short` — the loop, when there are as many sockets ready as it looks for, and
  when there are less.
* **`poll_right_iff`** — which calls do what they should.
-/

namespace Nstd.PollTables

open InsertionMap
open Poll (Event readFlag)

/-- What `::poll` has reported for an entry; it is not called while sockets are selected. -/
def reported (p : State) : Answer → ℕ → Short
  | .ready revents, i => if p.selectedSockets.isEmpty then revents.getD i 0 else 0
  | .failed, _ => 0

/-- **What a call of `poll` should do**: it reads no entry that is not there, a socket that was
    reported is handed out or selected, and interrupts are read when there are some. -/
structure Right (p : State) (answer : Answer) (polled : Polled) : Prop where
  reads : ∀ i ∈ polled.reads, i < p.pollfds.length
  selected : ∀ socket item, find? socket p.sockets = some item →
    reported p answer item.value.index ≠ 0 →
      polled.event
          = ⟨unmapEvents (reported p answer item.value.index) item.value.events, some socket⟩
        ∨ find? socket polled.state.selectedSockets
          = some (unmapEvents (reported p answer item.value.index) item.value.events)
  interrupted : polled.interrupted = true ↔ reported p answer 0 &&& pollIn ≠ 0

/-- What is selected of sockets, by their `revents` -/
def picks : List Registration → List Short → List (ℕ × Flags)
  | r :: rs, revents :: more =>
    if revents = 0 then picks rs more
    else (r.socket, unmapEvents revents r.events) :: picks rs more
  | _, _ => []

lemma countP_ready {z : Short} (hz : z ≠ 0) (revents : List Short) :
    (z :: revents).countP (· ≠ 0) = revents.countP (· ≠ 0) + 1 :=
  List.countP_cons_of_pos (decide_eq_true hz)

lemma countP_idle {z : Short} (hz : z = 0) (revents : List Short) :
    (z :: revents).countP (· ≠ 0) = revents.countP (· ≠ 0) :=
  List.countP_cons_of_neg (by simp [hz])

lemma picks_none {rs : List Registration} {revents : List Short}
    (h : revents.countP (· ≠ 0) = 0) : picks rs revents = [] := by
  induction rs generalizing revents with
  | nil => rfl
  | cons r rs ih =>
    cases revents with
    | nil => rfl
    | cons z revents =>
      rw [List.countP_eq_zero] at h
      have hz : z = 0 := by simpa using h z List.mem_cons_self
      rw [picks, if_pos hz]
      exact ih (List.countP_eq_zero.mpr fun z' hz' => h z' (List.mem_cons_of_mem z hz'))

section Loop

variable {rs₁ rs₂ : List Registration} {r : Registration} {w : World}

/-- **One entry** of the loop -/
lemma Found.scan_succ (h : Found rs₁ r rs₂ w) {pfd : Pollfd}
    (hpfd : w.tables.pollfds[1 + rs₁.length]? = some pfd) (beyond : Pollfd) (n count : ℕ) :
    scan beyond (n + 1) w.tables (1 + rs₁.length) count
      = if pfd.revents = 0 then
          (scan beyond n w.tables (1 + rs₁.length + 1) count).map
            fun q => (q.1, (1 + rs₁.length) :: q.2)
        else
          let p := mark w.tables (1 + rs₁.length) pfd.revents
            ⟨r.socket, 1 + rs₁.length, r.events⟩
          if count - 1 = 0 then some (p, [1 + rs₁.length])
          else (scan beyond n p (1 + rs₁.length + 1) (count - 1)).map
            fun q => (q.1, (1 + rs₁.length) :: q.2) := by
  obtain ⟨pfd', hpfd', hrequest⟩ := h.pollfd
  obtain rfl := Option.some_inj.mp (hpfd.symm.trans hpfd')
  have hfd : pfd.fd = w.descriptor r.socket := congrArg Prod.fst hrequest
  have hget : w.tables.pollfds.getD (1 + rs₁.length) beyond = pfd := by
    rw [List.getD_eq_getElem?_getD, hpfd]
    rfl
  rw [scan, hget]
  dsimp only
  rw [hfd, h.fdToSocket]
  dsimp only [bind, Option.bind]
  rw [h.deref]
  split_ifs
  · cases scan beyond n w.tables (1 + rs₁.length + 1) count <;> rfl
  · rfl
  · dsimp only
    cases scan beyond n (mark w.tables (1 + rs₁.length) pfd.revents
      ⟨r.socket, 1 + rs₁.length, r.events⟩) (1 + rs₁.length + 1) (count - 1) <;> rfl

/-- The `revents` from an entry on -/
lemma drop_revents {pollfds : List Pollfd} {i : ℕ} {z : Short} {revents : List Short}
    (h : (pollfds.drop i).map Pollfd.revents = z :: revents) :
    ∃ pfd, pollfds[i]? = some pfd ∧ pfd.revents = z
      ∧ (pollfds.drop (i + 1)).map Pollfd.revents = revents := by
  cases hdrop : pollfds.drop i with
  | nil => simp [hdrop] at h
  | cons pfd rest =>
    rw [hdrop, List.map_cons, List.cons.injEq] at h
    refine ⟨pfd, ?_, h.1, ?_⟩
    · rw [← Nat.add_zero i, ← List.getElem?_drop, hdrop]
      rfl
    · rw [← List.drop_drop, hdrop]
      exact h.2

/-- The world after an entry of the loop -/
def World.mark (w : World) (i : ℕ) (revents : Short) (sockInfo : SocketInfo) : World :=
  { w with tables := PollTables.mark w.tables i revents sockInfo }

lemma Found.mark (h : Found rs₁ r rs₂ w) (revents : Short) :
    Represents (rs₁ ++ r :: rs₂)
      (w.mark (1 + rs₁.length) revents ⟨r.socket, 1 + rs₁.length, r.events⟩) :=
  (mark_kept h.represents.named _ revents h.deref).represents h.represents

/-- What the loop is at when it goes on behind a socket -/
structure At (rs₁ rs₂ : List Registration) (revents : List Short) (w : World) : Prop where
  represents : Represents (rs₁ ++ rs₂) w
  revents : (w.tables.pollfds.drop (1 + rs₁.length)).map Pollfd.revents = revents

lemma At.length {revents : List Short} (h : At rs₁ rs₂ revents w) :
    w.tables.pollfds.length = 1 + rs₁.length + rs₂.length ∧ revents.length = rs₂.length := by
  have hlen := h.represents.length
  have hrevents := congrArg List.length h.revents
  rw [List.length_append] at hlen
  rw [List.length_map, List.length_drop] at hrevents
  omega

/-- **The loop goes on**, whether the entry was ready or not. -/
lemma At.next {z : Short} {revents : List Short} (h : At rs₁ (r :: rs₂) (z :: revents) w) :
    Found rs₁ r rs₂ w ∧ (∃ pfd, w.tables.pollfds[1 + rs₁.length]? = some pfd ∧ pfd.revents = z)
      ∧ At (rs₁ ++ [r]) rs₂ revents w
      ∧ At (rs₁ ++ [r]) rs₂ revents
        (w.mark (1 + rs₁.length) z ⟨r.socket, 1 + rs₁.length, r.events⟩) := by
  have hfound := h.represents.middle
  obtain ⟨pfd, hpfd, hz, hmore⟩ := drop_revents h.revents
  have hrest : rs₁ ++ r :: rs₂ = (rs₁ ++ [r]) ++ rs₂ := by simp
  have hindex : 1 + rs₁.length + 1 = 1 + (rs₁ ++ [r]).length := by simp [Nat.add_assoc]
  refine ⟨hfound, ⟨pfd, hpfd, hz⟩, ⟨hrest ▸ h.represents, hindex ▸ hmore⟩,
    ⟨hrest ▸ hfound.mark z, ?_⟩⟩
  rw [← hindex, ← hmore]
  exact congrArg _ (List.drop_modify_of_lt _ _ _ _ (Nat.lt_succ_self _))

/-- **As many sockets are ready as the loop looks for**: it finds them all and reads nothing else
    than their entries and those between them. -/
lemma scan_ready (beyond : Pollfd) {n count : ℕ} {revents : List Short}
    (h : At rs₁ rs₂ revents w) (hn : rs₂.length ≤ n) (hcount : revents.countP (· ≠ 0) = count)
    (hpos : 0 < count) (hnew : ∀ r ∈ rs₂, r.socket ∉ keys w.tables.selectedSockets) :
    ∃ p reads, scan beyond n w.tables (1 + rs₁.length) count = some (p, reads)
      ∧ (∀ i ∈ reads, i < w.tables.pollfds.length)
      ∧ p.selectedSockets = w.tables.selectedSockets ++ picks rs₂ revents
      ∧ p.pollfds[0]? = w.tables.pollfds[0]? := by
  induction revents generalizing rs₁ rs₂ w n count with
  | nil => simp [← hcount] at hpos
  | cons z revents ih =>
    cases rs₂ with
    | nil => simpa using h.length.2
    | cons r rs₂ =>
      obtain ⟨hfound, ⟨pfd, hpfd, rfl⟩, hrest, hmark⟩ := h.next
      have hlen := h.length.1
      have hindex : 1 + rs₁.length + 1 = 1 + (rs₁ ++ [r]).length := by simp [Nat.add_assoc]
      rw [List.length_cons] at hlen hn
      obtain ⟨n, rfl⟩ : ∃ m, n = m + 1 := ⟨n - 1, by omega⟩
      have hn := Nat.le_of_succ_le_succ hn
      rw [hfound.scan_succ hpfd]
      by_cases hz : pfd.revents = 0
      · rw [countP_idle hz] at hcount
        obtain ⟨p, reads, hscan, hreads, hselected, hfirst⟩ := ih hrest hn hcount hpos
          fun r' hr' => hnew r' (List.mem_cons_of_mem r hr')
        rw [if_pos hz, hindex, hscan]
        refine ⟨p, _, rfl, List.forall_mem_cons.mpr ⟨by omega, hreads⟩, ?_, hfirst⟩
        rw [hselected, picks, if_pos hz]
      · rw [countP_ready hz] at hcount
        have hselect := append_of_notMem (hnew r List.mem_cons_self)
          (unmapEvents pfd.revents r.events)
        have hzero : (mark w.tables (1 + rs₁.length) pfd.revents
            ⟨r.socket, 1 + rs₁.length, r.events⟩).pollfds[0]? = w.tables.pollfds[0]? :=
          List.getElem?_modify_ne _ _ (by omega)
        rw [if_neg hz]
        dsimp only
        by_cases hlast : count - 1 = 0
        · rw [if_pos hlast]
          refine ⟨_, _, rfl, List.forall_mem_cons.mpr ⟨by omega, by simp⟩, ?_, hzero⟩
          rw [picks, if_neg hz, picks_none (by omega)]
          exact hselect
        · have hold : ∀ r' ∈ rs₂, r'.socket ∉ keys (w.mark (1 + rs₁.length) pfd.revents
              ⟨r.socket, 1 + rs₁.length, r.events⟩).tables.selectedSockets := by
            intro r' hr' hmem
            rw [World.mark, mark, hselect, keys, List.map_append] at hmem
            rcases List.mem_append.mp hmem with hmem | hmem
            · exact hnew r' (List.mem_cons_of_mem r hr') hmem
            · have heq : r'.socket = r.socket := List.mem_singleton.mp hmem
              exact hfound.behind (heq ▸ List.mem_map_of_mem hr')
          obtain ⟨p, reads, hscan, hreads, hselected, hfirst⟩ :=
            ih hmark hn (by omega : revents.countP (· ≠ 0) = count - 1) (by omega) hold
          have hmarked : (w.mark (1 + rs₁.length) pfd.revents
              ⟨r.socket, 1 + rs₁.length, r.events⟩).tables.pollfds.length
              = w.tables.pollfds.length := List.length_modify _ _ _
          rw [World.mark] at hscan
          rw [hmarked] at hreads
          rw [if_neg hlast, hindex, hscan]
          refine ⟨p, _, rfl, List.forall_mem_cons.mpr ⟨by omega, hreads⟩, ?_,
            hfirst.trans hzero⟩
          rw [hselected, picks, if_neg hz, World.mark, mark, hselect, List.append_assoc]
          rfl

/-- The entry that the loop is at is read. -/
lemma scan_reads {beyond : Pollfd} {n : ℕ} {p : State} {i count : ℕ} {p' : State} {reads : List ℕ}
    (hscan : scan beyond (n + 1) p i count = some (p', reads)) : i ∈ reads := by
  have hcons : ∀ {reads₁ : List ℕ}, i :: reads₁ = reads → i ∈ reads := by
    rintro reads₁ rfl
    exact List.mem_cons_self
  rw [scan] at hscan
  dsimp only at hscan
  by_cases hrevents : (p.pollfds.getD i beyond).revents = 0
  · rw [if_pos hrevents] at hscan
    obtain ⟨_, -, hscan⟩ := Option.bind_eq_some_iff.mp hscan
    exact hcons (congrArg Prod.snd (Option.some_inj.mp hscan))
  · rw [if_neg hrevents] at hscan
    obtain ⟨_, -, hscan⟩ := Option.bind_eq_some_iff.mp hscan
    obtain ⟨_, -, hscan⟩ := Option.bind_eq_some_iff.mp hscan
    by_cases hlast : count - 1 = 0
    · rw [if_pos hlast] at hscan
      exact hcons (congrArg Prod.snd (Option.some_inj.mp hscan))
    · rw [if_neg hlast] at hscan
      obtain ⟨_, -, hscan⟩ := Option.bind_eq_some_iff.mp hscan
      exact hcons (congrArg Prod.snd (Option.some_inj.mp hscan))

/-- **Less sockets are ready than the loop looks for**: it reads the entry behind the last one. -/
lemma scan_short {beyond : Pollfd} {n count : ℕ} {revents : List Short}
    (h : At rs₁ rs₂ revents w) (hn : rs₂.length < n) (hcount : revents.countP (· ≠ 0) < count)
    {p : State} {reads : List ℕ} (hscan : scan beyond n w.tables (1 + rs₁.length) count
      = some (p, reads)) : w.tables.pollfds.length ∈ reads := by
  obtain ⟨n, rfl⟩ : ∃ m, n = m + 1 := ⟨n - 1, by omega⟩
  induction revents generalizing rs₁ rs₂ w n count reads with
  | nil =>
    have hlen := h.length
    rw [List.length_nil] at hlen
    have hend : w.tables.pollfds.length = 1 + rs₁.length := by omega
    rw [hend]
    exact scan_reads hscan
  | cons z revents ih =>
    cases rs₂ with
    | nil => simpa using h.length.2
    | cons r rs₂ =>
      obtain ⟨hfound, ⟨pfd, hpfd, rfl⟩, hrest, hmark⟩ := h.next
      have hindex : 1 + rs₁.length + 1 = 1 + (rs₁ ++ [r]).length := by simp [Nat.add_assoc]
      rw [List.length_cons] at hn
      obtain ⟨n, rfl⟩ : ∃ m, n = m + 1 := ⟨n - 1, by omega⟩
      have hn := Nat.lt_of_succ_lt_succ hn
      rw [hfound.scan_succ hpfd] at hscan
      by_cases hz : pfd.revents = 0
      · rw [countP_idle hz] at hcount
        rw [if_pos hz, hindex] at hscan
        obtain ⟨⟨p₁, reads₁⟩, hnext, heq⟩ := Option.map_eq_some_iff.mp hscan
        obtain ⟨rfl, rfl⟩ := Prod.mk.inj heq
        exact List.mem_cons_of_mem _ (ih hrest hcount n hn hnext)
      · rw [countP_ready hz] at hcount
        rw [if_neg hz] at hscan
        dsimp only at hscan
        rw [if_neg (by omega), hindex] at hscan
        obtain ⟨⟨p₁, reads₁⟩, hnext, heq⟩ := Option.map_eq_some_iff.mp hscan
        have hmarked : (w.mark (1 + rs₁.length) pfd.revents
            ⟨r.socket, 1 + rs₁.length, r.events⟩).tables.pollfds.length
            = w.tables.pollfds.length := List.length_modify _ _ _
        obtain ⟨rfl, rfl⟩ := Prod.mk.inj heq
        have hmem := ih hmark (by omega : revents.countP (· ≠ 0) < count - 1) n hn hnext
        rw [hmarked] at hmem
        exact List.mem_cons_of_mem _ hmem

end Loop

/-- A socket that was reported is among what is selected. -/
lemma find?_picks {rs₁ : List Registration} {r : Registration} (rs₂ : List Registration)
    (h : r.socket ∉ rs₁.map Registration.socket) {revents : List Short} {z : Short}
    (hz : revents[rs₁.length]? = some z) (hready : z ≠ 0) :
    find? r.socket (picks (rs₁ ++ r :: rs₂) revents) = some (unmapEvents z r.events) := by
  induction rs₁ generalizing revents with
  | nil =>
    cases revents with
    | nil => simp at hz
    | cons z' revents =>
      obtain rfl : z' = z := by simpa using hz
      rw [List.nil_append, picks, if_neg hready, find?_cons, if_pos rfl]
  | cons r' rs₁ ih =>
    rw [List.map_cons, List.mem_cons, not_or] at h
    cases revents with
    | nil => simp at hz
    | cons z' revents =>
      have hz : revents[rs₁.length]? = some z := by simpa using hz
      have hrest := ih h.2 hz
      rw [List.cons_append, picks]
      split_ifs
      · exact hrest
      · rw [find?_cons, if_neg (Ne.symm h.1), hrest]

/-- Something is selected when a socket is ready. -/
lemma picks_ne_nil {rs : List Registration} {revents : List Short}
    (hlen : revents.length = rs.length) (h : 0 < revents.countP (· ≠ 0)) :
    picks rs revents ≠ [] := by
  induction rs generalizing revents with
  | nil =>
    rw [List.length_nil, List.length_eq_zero_iff] at hlen
    simp [hlen] at h
  | cons r rs ih =>
    cases revents with
    | nil => simp at h
    | cons z revents =>
      rw [picks]
      split_ifs with hz
      · exact ih (Nat.succ.inj hlen) (countP_idle hz revents ▸ h)
      · exact List.cons_ne_nil _ _

/-! ## Calls -/

/-- **No defect is met**: no wait is made, or no interrupt is reported, and, if no socket is ready
    either, the variable without a value is false. -/
def Spared (p : State) (answer : Answer) (interrupted : Bool) : Prop :=
  p.selectedSockets ≠ [] ∨ reported p answer 0 = 0
    ∧ ((∃ i, 0 < i ∧ reported p answer i ≠ 0) ∨ interrupted = false)

section Calls

variable {rs : List Registration} {w : World}

/-- A call that hands out what was selected before -/
lemma poll_selected (hselected : w.tables.selectedSockets ≠ []) (answer : Answer)
    (beyond : Pollfd) (interrupted : Bool) :
    ∃ polled, poll w.tables answer beyond interrupted = some polled
      ∧ Right w.tables answer polled := by
  have hempty : w.tables.selectedSockets.isEmpty = false := by simpa using hselected
  have hreported : ∀ i, reported w.tables answer i = 0 := by
    intro i
    cases answer with
    | ready revents => rw [reported, hempty]; rfl
    | failed => rfl
  rw [poll, hempty, if_neg Bool.false_ne_true, take]
  cases hlist : w.tables.selectedSockets with
  | nil => exact absurd hlist hselected
  | cons e selectedSockets =>
    refine ⟨_, rfl, by simp, fun socket item _ hready => absurd (hreported _) hready, ?_⟩
    simp [hreported]

/-- A call that waits: what is collected, and what comes of it -/
lemma poll_wait (hselected : w.tables.selectedSockets = []) {answer : Answer} {beyond pfd : Pollfd}
    {p : State} {reads : List ℕ} (hcollect : collect w.tables answer beyond = some (p, reads))
    (hpfd : p.pollfds[0]? = some pfd) (interrupted : Bool) :
    poll w.tables answer beyond interrupted =
      let interrupted :=
        if p.selectedSockets.isEmpty then interrupted else pfd.revents &&& pollIn ≠ 0
      if p.selectedSockets.isEmpty ∨ interrupted then
        let pollfds := if interrupted then
          p.pollfds.modify 0 fun pfd => { pfd with revents := 0 } else p.pollfds
        some ⟨{ p with pollfds }, .null, reads, interrupted⟩
      else take p reads interrupted := by
  rw [poll, hselected, if_pos List.isEmpty_nil, hcollect]
  dsimp only [bind, Option.bind]
  rw [hpfd]

/-- The tables when `::poll` has written to them -/
def World.fill (w : World) (answer : Answer) : World :=
  { w with tables := { w.tables with pollfds := answer.fill w.tables.pollfds } }

lemma Represents.fill (h : Represents rs w) {answer : Answer}
    (hanswer : answer.Fits w.tables.pollfds) : Represents rs (w.fill answer) :=
  Kept.represents h ⟨rfl, map_request_fill hanswer, rfl, rfl, fun _ => .inl⟩

/-- The loop is run on the tables that `::poll` has written to. -/
lemma collect_ready {z : Short} {revents : List Short} (beyond : Pollfd)
    (hready : 0 < (z :: revents).countP (· ≠ 0)) :
    collect w.tables (.ready (z :: revents)) beyond
      = scan beyond (w.fill (.ready (z :: revents))).tables.pollfds.length
        (w.fill (.ready (z :: revents))).tables 1 ((z :: revents).countP (· ≠ 0)) := by
  have hcount : 0 < (Answer.ready (z :: revents)).count := Int.natCast_pos.mpr hready
  rw [collect, if_pos hcount]
  rfl

/-- What the loop has read -/
lemma poll_reads (hselected : w.tables.selectedSockets = []) {answer : Answer} {beyond : Pollfd}
    {interrupted : Bool} {polled : Polled}
    (hpoll : poll w.tables answer beyond interrupted = some polled) :
    ∃ p, collect w.tables answer beyond = some (p, polled.reads) := by
  rw [poll, hselected, if_pos List.isEmpty_nil] at hpoll
  obtain ⟨⟨p, reads⟩, hcollect, hpoll⟩ := Option.bind_eq_some_iff.mp hpoll
  obtain ⟨pfd, -, hpoll⟩ := Option.bind_eq_some_iff.mp hpoll
  dsimp only at hpoll
  refine ⟨p, hcollect.trans ?_⟩
  generalize (if p.selectedSockets.isEmpty = true then interrupted
    else decide (pfd.revents &&& pollIn ≠ 0)) = wasInterrupted at hpoll
  by_cases hend : p.selectedSockets.isEmpty = true ∨ wasInterrupted = true
  · rw [if_pos hend] at hpoll
    obtain rfl := Option.some_inj.mp hpoll
    rfl
  · rw [if_neg hend, take] at hpoll
    cases hlist : p.selectedSockets with
    | nil => simp [hlist] at hpoll
    | cons e selectedSockets =>
      rw [hlist] at hpoll
      obtain rfl := Option.some_inj.mp hpoll
      rfl

/-- Nothing was ready: nothing is reported. -/
lemma reported_nothing {p : State} {answer : Answer} (hcount : answer.count ≤ 0) (i : ℕ) :
    reported p answer i = 0 := by
  cases answer with
  | failed => rfl
  | ready revents =>
    have hnone : revents.countP (· ≠ 0) = 0 := by
      rw [Answer.count] at hcount
      omega
    rw [List.countP_eq_zero] at hnone
    rw [reported, List.getD_eq_getElem?_getD]
    split_ifs
    · cases hget : revents[i]? with
      | none => rfl
      | some z => simpa using hnone z (List.mem_of_getElem? hget)
    · rfl

/-- A wait where nothing was ready -/
lemma poll_nothing (h : Represents rs w) (hselected : w.tables.selectedSockets = [])
    {answer : Answer} (hanswer : answer.Fits w.tables.pollfds) (hcount : answer.count ≤ 0)
    (beyond : Pollfd) (interrupted : Bool) :
    (∃ polled, poll w.tables answer beyond interrupted = some polled
      ∧ Right w.tables answer polled) ↔ interrupted = false := by
  obtain ⟨pfd, hpfd, -⟩ := (h.fill hanswer).consistent.interrupt
  have hcollect : collect w.tables answer beyond = some ((w.fill answer).tables, []) := by
    rw [collect, if_neg (by omega)]
    rfl
  have hreported := reported_nothing (p := w.tables) hcount
  rw [poll_wait hselected hcollect hpfd]
  dsimp only
  rw [World.fill]
  dsimp only
  rw [hselected, if_pos List.isEmpty_nil, if_pos (.inl List.isEmpty_nil)]
  constructor
  · rintro ⟨polled, hpolled, hright⟩
    obtain rfl := Option.some_inj.mp hpolled
    have hinterrupted := hright.interrupted
    rw [hreported] at hinterrupted
    simpa using hinterrupted
  · rintro rfl
    refine ⟨_, rfl, by simp, fun socket item _ hready => absurd (hreported _) hready, ?_⟩
    simp [hreported]

/-- What was written is what was answered. -/
lemma map_revents_fill {pollfds : List Pollfd} {revents : List Short}
    (h : revents.length = pollfds.length) :
    ((Answer.ready revents).fill pollfds).map Pollfd.revents = revents := by
  rw [Answer.fill]
  induction pollfds generalizing revents with
  | nil =>
    rw [List.length_nil, List.length_eq_zero_iff] at h
    rw [h]
    rfl
  | cons pfd pollfds ih =>
    cases revents with
    | nil => simp at h
    | cons z revents =>
      rw [List.zipWith_cons_cons, List.map_cons, ih (Nat.succ.inj h)]

/-- The loop begins behind the entry of interrupts. -/
lemma Represents.begin (h : Represents rs w) (z : Short) {revents : List Short}
    (hlen : revents.length = rs.length) :
    At [] rs revents (w.fill (.ready (z :: revents)))
      ∧ (w.fill (.ready (z :: revents))).tables.pollfds.length = w.tables.pollfds.length
      ∧ ∃ pfd, (w.fill (.ready (z :: revents))).tables.pollfds[0]? = some pfd
        ∧ pfd.revents = z := by
  have hanswer : (Answer.ready (z :: revents)).Fits w.tables.pollfds := by
    rw [Answer.Fits, List.length_cons, hlen, h.length, Nat.add_comm]
  have hrep := h.fill hanswer
  have hrevents := map_revents_fill hanswer
  cases hfill : (Answer.ready (z :: revents)).fill w.tables.pollfds with
  | nil => simp [hfill] at hrevents
  | cons pfd pfds =>
    rw [hfill, List.map_cons, List.cons.injEq] at hrevents
    refine ⟨⟨hrep, ?_⟩, hrep.length.trans h.length.symm, pfd, ?_, hrevents.1⟩
    · rw [World.fill, hfill]
      exact hrevents.2
    · rw [World.fill, hfill]
      rfl

/-- A wait where sockets were ready, and no interrupt -/
lemma poll_ready (h : Represents rs w) (hselected : w.tables.selectedSockets = [])
    {revents : List Short} (hlen : revents.length = rs.length) (hready : 0 < revents.countP (· ≠ 0))
    (beyond : Pollfd) (interrupted : Bool) :
    ∃ polled, poll w.tables (.ready (0 :: revents)) beyond interrupted = some polled
      ∧ Right w.tables (.ready (0 :: revents)) polled := by
  obtain ⟨hbegin, hsame, pfd, hpfd, hzero⟩ := h.begin 0 hlen
  have hcount := countP_idle (z := 0) rfl revents
  obtain ⟨p, reads, hscan, hreads, hpicks, hfirst⟩ := scan_ready beyond
    (n := (w.fill (.ready (0 :: revents))).tables.pollfds.length) hbegin
    (by rw [hsame, h.length]; omega) hcount.symm (by omega)
    fun r _ => by simp [World.fill, hselected, keys]
  have hcollect := (collect_ready (w := w) beyond (by omega)).trans hscan
  have hnil : (w.fill (.ready (0 :: revents))).tables.selectedSockets = [] := hselected
  rw [hnil, List.nil_append] at hpicks
  rw [poll_wait hselected hcollect (hfirst.trans hpfd), hpicks, hzero]
  cases hlist : picks rs revents with
  | nil => exact absurd hlist (picks_ne_nil hlen hready)
  | cons e rest =>
    refine ⟨⟨{ p with selectedSockets := rest }, ⟨e.2, some e.1⟩, reads, false⟩, ?_, ?_, ?_, ?_⟩
    · simp [take, hpicks, hlist]
    · exact fun i hi => hsame ▸ hreads i hi
    · intro socket item hfind hreported
      obtain ⟨rs₁, r, rs₂, hrs, hfound, rfl, rfl⟩ := h.find?_eq_some_iff.mp hfind
      have hget : reported w.tables (.ready (0 :: revents)) (1 + rs₁.length)
          = (revents[rs₁.length]?).getD 0 := by
        rw [reported, hselected, if_pos List.isEmpty_nil, Nat.add_comm,
          List.getD_eq_getElem?_getD, List.getElem?_cons_succ]
      dsimp only at hreported ⊢
      rw [hget] at hreported ⊢
      cases hz : revents[rs₁.length]? with
      | none => simp [hz] at hreported
      | some z =>
        rw [hz, Option.getD_some] at hreported
        have hpick := find?_picks rs₂ hfound.front hz hreported
        rw [← hrs, hlist, find?_cons] at hpick
        rw [Option.getD_some]
        split_ifs at hpick with hsocket
        · left
          rw [hsocket, Option.some_inj.mp hpick]
        · exact .inr hpick
    · simp [reported, hselected]

/-- A wait that was interrupted -/
lemma poll_interrupted (h : Represents rs w) (hselected : w.tables.selectedSockets = [])
    {z : Short} {revents : List Short} (hlen : revents.length = rs.length) (hz : z ≠ 0)
    (beyond : Pollfd) (interrupted : Bool) :
    ¬ ∃ polled, poll w.tables (.ready (z :: revents)) beyond interrupted = some polled
      ∧ Right w.tables (.ready (z :: revents)) polled := by
  rintro ⟨polled, hpoll, hright⟩
  obtain ⟨hbegin, hsame, -⟩ := h.begin z hlen
  obtain ⟨p, hcollect⟩ := poll_reads hselected hpoll
  have hready := countP_ready hz revents
  rw [collect_ready beyond (by omega), hready] at hcollect
  have hshort := scan_short hbegin (by rw [hsame, h.length]; omega) (Nat.lt_succ_self _) hcollect
  rw [hsame] at hshort
  exact Nat.lt_irrefl _ (hright.reads _ hshort)

end Calls

/-- A socket was reported when one of the answers behind the first is not zero. -/
lemma exists_reported {p : State} (hselected : p.selectedSockets = []) (z : Short)
    (revents : List Short) :
    (∃ i, 0 < i ∧ reported p (.ready (z :: revents)) i ≠ 0) ↔ 0 < revents.countP (· ≠ 0) := by
  have hreported : ∀ i, reported p (.ready (z :: revents)) (i + 1) = (revents[i]?).getD 0 := by
    intro i
    rw [reported, hselected, if_pos List.isEmpty_nil, List.getD_eq_getElem?_getD,
      List.getElem?_cons_succ]
  rw [List.countP_pos_iff]
  constructor
  · rintro ⟨_ | i, hpos, hne⟩
    · exact absurd hpos (Nat.lt_irrefl 0)
    · rw [hreported] at hne
      cases hget : revents[i]? with
      | none => simp [hget] at hne
      | some z' =>
        rw [hget, Option.getD_some] at hne
        exact ⟨z', List.mem_of_getElem? hget, decide_eq_true hne⟩
  · rintro ⟨z', hmem, hne⟩
    obtain ⟨i, hget⟩ := List.mem_iff_getElem?.mp hmem
    refine ⟨i + 1, Nat.succ_pos i, ?_⟩
    rw [hreported, hget, Option.getD_some]
    exact of_decide_eq_true hne

/-- **Which calls of `poll` do what they should**, for every number of sockets, every answer and
    every content of the memory behind the array: those where no interrupt is reported, and, if no
    socket is reported either, the variable that was given no value happens to be false. -/
theorem poll_right_iff {trace : List Move} {w : World} (h : system.Run trace w) {answer : Answer}
    (hanswer : answer.Fits w.tables.pollfds) (beyond : Pollfd) (interrupted : Bool) :
    (∃ polled, poll w.tables answer beyond interrupted = some polled
      ∧ Right w.tables answer polled) ↔ Spared w.tables answer interrupted := by
  obtain ⟨rs, hrep⟩ := run_represents h
  by_cases hselected : w.tables.selectedSockets = []
  · by_cases hcount : answer.count ≤ 0
    · have hreported := reported_nothing (p := w.tables) hcount
      rw [poll_nothing hrep hselected hanswer hcount, Spared]
      simp [hselected, hreported]
    · cases answer with
      | failed => exact absurd (by decide) hcount
      | ready all =>
        cases all with
        | nil => exact absurd (by simp [Answer.count]) hcount
        | cons z revents =>
          have hlen : revents.length = rs.length := by
            rw [Answer.Fits, hrep.length, List.length_cons] at hanswer
            omega
          have hfirst : reported w.tables (.ready (z :: revents)) 0 = z := by
            rw [reported, hselected, if_pos List.isEmpty_nil]
            rfl
          rw [Spared, hfirst, exists_reported hselected]
          by_cases hz : z = 0
          · subst hz
            have hready : 0 < revents.countP (· ≠ 0) := by
              rw [Answer.count, countP_idle rfl] at hcount
              omega
            exact iff_of_true (poll_ready hrep hselected hlen hready beyond interrupted)
              (.inr ⟨rfl, .inl hready⟩)
          · refine iff_of_false (poll_interrupted hrep hselected hlen hz beyond interrupted) ?_
            rintro (hne | ⟨hzero, -⟩)
            · exact hne hselected
            · exact hz hzero
  · exact iff_of_true (poll_selected hselected answer beyond interrupted) (.inl hselected)

/-- A poll where one socket is registered -/
def oneSocket : World :=
  ⟨⟨3, [⟨3, pollIn ||| pollRdHup ||| pollHup, 0⟩, ⟨5, mapEvents readFlag, 0⟩],
    [(10, ⟨100, ⟨10, 1, readFlag⟩⟩)], [(5, 100)], []⟩, twoOpen⟩

lemma oneSocket_run : system.Run [.set 10 readFlag 100] oneSocket := by
  have hstart : system.Run [] ⟨create 3, twoOpen⟩ := .start ⟨⟨3, rfl⟩, twoOpen_distinct⟩
  exact hstart.next ⟨.set 10 readFlag 100, rfl, by simp [Allowed, create], rfl⟩

/-- The socket is ready, and no interrupt was made. -/
theorem poll_right_iff_socket :
    ∃ polled, poll oneSocket.tables (.ready [0, pollIn]) ⟨7, 0, 1⟩ true = some polled
      ∧ Right oneSocket.tables (.ready [0, pollIn]) polled :=
  have hanswer : (Answer.ready [0, pollIn]).Fits oneSocket.tables.pollfds := Eq.refl 2
  (poll_right_iff oneSocket_run hanswer ⟨7, 0, 1⟩ true).mpr
    (.inr ⟨rfl, .inl ⟨1, Nat.one_pos, by decide⟩⟩)

/-- The socket is ready and an interrupt was made: the loop reads the entry behind the last one.
    A wait ends with nothing ready: what the variable holds decides whether `interruptFd` is
    read. -/
theorem poll_not_right : system.Run [.set 10 readFlag 100] oneSocket
    ∧ (¬ ∃ polled, poll oneSocket.tables (.ready [pollIn, pollIn]) ⟨0, 0, 0⟩ false = some polled
      ∧ Right oneSocket.tables (.ready [pollIn, pollIn]) polled)
    ∧ ¬ ∃ polled, poll oneSocket.tables (.ready [0, 0]) ⟨0, 0, 0⟩ true = some polled
      ∧ Right oneSocket.tables (.ready [0, 0]) polled := by
  obtain ⟨rs, hrep⟩ := run_represents oneSocket_run
  have hlen : 2 = 1 + rs.length := hrep.length
  refine ⟨oneSocket_run, ?_, fun hright => ?_⟩
  · exact poll_interrupted hrep rfl (by rw [List.length_singleton]; omega) (by decide) _ _
  · have hanswer : (Answer.ready [0, 0]).Fits oneSocket.tables.pollfds := Eq.refl 2
    have hfalse := (poll_nothing hrep rfl hanswer (Int.le_refl 0) ⟨0, 0, 0⟩ true).mp hright
    exact absurd hfalse (by simp)

end Nstd.PollTables
