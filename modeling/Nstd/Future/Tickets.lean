import Mathlib.Data.List.Nodup
import Mathlib.Data.List.Range
import Mathlib.Data.Nat.Cast.Order.Ring
import Mathlib.Tactic.SplitIfs
import Nstd.Future.LockFreeQueue

/-!
# Tickets

What the queue is for: a counter gives tickets to pushes, another one gives the same tickets to
pops, and the value of a ticket goes from its push to its pop.  There is no bound and there are no
slots; a slot of the queue is a ticket for a time.

* `Stage` — what has become of a ticket.
* `Tickets` — the stages of all tickets, with both counters.
* `Tickets.Step` — what one step does.
* **`told_of_run`** — what the events of a run say about the tickets, and that no ticket is pushed
  or popped twice.
-/

namespace Nstd.LockFreeQueue

/-- What has become of a ticket; `i` is the thread that is busy with it, `v` its value. -/
inductive Stage (T : Type)
  | free
  /-- A push has the ticket. -/
  | taken (i : ℕ) (v : T)
  /-- The value is in the slot. -/
  | written (i : ℕ) (v : T)
  /-- The push is over. -/
  | ready (v : T)
  /-- A pop has the ticket. -/
  | claimed (i : ℕ) (v : T)
  /-- The value is in the result. -/
  | copied (i : ℕ) (v : T)
  /-- The slot is raw memory again. -/
  | cleared (i : ℕ) (v : T)
  /-- The pop is over. -/
  | done (v : T)

variable {T : Type}

/-- How far a ticket has come -/
def Stage.rank : Stage T → ℕ
  | .free => 0
  | .taken _ _ => 1
  | .written _ _ => 2
  | .ready _ => 3
  | .claimed _ _ => 4
  | .copied _ _ => 5
  | .cleared _ _ => 6
  | .done _ => 7

/-- The value of a ticket -/
def Stage.value : Stage T → Option T
  | .free => none
  | .taken _ v => some v
  | .written _ v => some v
  | .ready v => some v
  | .claimed _ v => some v
  | .copied _ v => some v
  | .cleared _ v => some v
  | .done v => some v

lemma Stage.rank_eq_zero {a : Stage T} : a.rank = 0 ↔ a = .free := by
  cases a <;> simp [rank]

lemma Stage.rank_eq_seven {a : Stage T} : a.rank = 7 ↔ ∃ v, a = .done v := by
  cases a <;> simp [rank]

/-- All tickets, of which the ones below a counter are taken -/
structure Tickets (T : Type) where
  stage : ℕ → Stage T
  tail : ℕ
  head : ℕ
  taken_iff : ∀ t, (stage t).rank = 0 ↔ tail ≤ t
  claimed_iff : ∀ t, 4 ≤ (stage t).rank ↔ t < head

namespace Tickets

/-- No ticket is taken. -/
def empty : Tickets T where
  stage _ := .free
  tail := 0
  head := 0
  taken_iff := by simp [Stage.rank]
  claimed_iff := by simp [Stage.rank]

/-- A push takes the next ticket. -/
def take (g : Tickets T) (i : ℕ) (v : T) : Tickets T where
  stage := Function.update g.stage g.tail (.taken i v)
  tail := g.tail + 1
  head := g.head
  taken_iff t := by
    by_cases h : t = g.tail
    · subst h
      simp [Stage.rank]
    · rw [Function.update_of_ne h, g.taken_iff]
      omega
  claimed_iff t := by
    by_cases h : t = g.tail
    · subst h
      have hfree := (g.taken_iff g.tail).mpr le_rfl
      have hclaimed := g.claimed_iff g.tail
      simp only [Function.update_self, Stage.rank]
      omega
    · rw [Function.update_of_ne h, g.claimed_iff]

/-- A pop takes the next ticket, which is ready. -/
def claim (g : Tickets T) (i : ℕ) (v : T) (h : g.stage g.head = .ready v) : Tickets T where
  stage := Function.update g.stage g.head (.claimed i v)
  tail := g.tail
  head := g.head + 1
  taken_iff t := by
    by_cases ht : t = g.head
    · subst ht
      have htaken := g.taken_iff g.head
      rw [h] at htaken
      simp only [Function.update_self, Stage.rank] at htaken ⊢
      omega
    · rw [Function.update_of_ne ht, g.taken_iff]
  claimed_iff t := by
    by_cases ht : t = g.head
    · subst ht
      simp [Stage.rank]
    · rw [Function.update_of_ne ht, g.claimed_iff]
      omega

/-- A taken ticket comes one stage further, but does not get from the push to the pop. -/
def advance (g : Tickets T) (t : ℕ) (b : Stage T) (ht : (g.stage t).rank ≠ 0) (hb : b.rank ≠ 0)
    (hpop : 4 ≤ b.rank ↔ 4 ≤ (g.stage t).rank) : Tickets T where
  stage := Function.update g.stage t b
  tail := g.tail
  head := g.head
  taken_iff u := by
    by_cases h : u = t
    · subst h
      rw [Function.update_self, ← g.taken_iff]
      omega
    · rw [Function.update_of_ne h, g.taken_iff]
  claimed_iff u := by
    by_cases h : u = t
    · subst h
      rw [Function.update_self, hpop, g.claimed_iff]
    · rw [Function.update_of_ne h, g.claimed_iff]

/-- What a step does to the tickets, and what it tells of it -/
inductive Step (g : Tickets T) : List (Event T) → Tickets T → Prop
  | stay : Step g [] g
  | take (i : ℕ) (v : T) : Step g [.tookTail g.tail v] (g.take i v)
  | write {t i : ℕ} {v : T} (h : g.stage t = .taken i v) :
      Step g [] (g.advance t (.written i v) (by simp [h, Stage.rank]) (by simp [Stage.rank])
        (by simp [h, Stage.rank]))
  | publish {t i : ℕ} {v : T} (h : g.stage t = .written i v) :
      Step g [.pushed t v] (g.advance t (.ready v) (by simp [h, Stage.rank])
        (by simp [Stage.rank]) (by simp [h, Stage.rank]))
  | claim (i : ℕ) {v : T} (h : g.stage g.head = .ready v) :
      Step g [.tookHead g.head] (g.claim i v h)
  | copy {t i : ℕ} {v : T} (h : g.stage t = .claimed i v) :
      Step g [] (g.advance t (.copied i v) (by simp [h, Stage.rank]) (by simp [Stage.rank])
        (by simp [h, Stage.rank]))
  | clear {t i : ℕ} {v : T} (h : g.stage t = .copied i v) :
      Step g [] (g.advance t (.cleared i v) (by simp [h, Stage.rank]) (by simp [Stage.rank])
        (by simp [h, Stage.rank]))
  | finish {t i : ℕ} {v : T} (h : g.stage t = .cleared i v) :
      Step g [.popped t (some v)] (g.advance t (.done v) (by simp [h, Stage.rank])
        (by simp [Stage.rank]) (by simp [h, Stage.rank]))

/-- The runs of the tickets -/
def system (T : Type) : System (Tickets T) (Event T) where
  initial := (· = .empty)
  step := Step

end Tickets

/-! ## What events say -/

/-- The ticket of a push that begins -/
def Event.tailTicket : Event T → Option ℕ
  | .tookTail t _ => some t
  | _ => none

/-- The ticket of a pop that begins -/
def Event.headTicket : Event T → Option ℕ
  | .tookHead t => some t
  | _ => none

/-- The ticket of a push that is over -/
def Event.pushedTicket : Event T → Option ℕ
  | .pushed t _ => some t
  | _ => none

/-- The ticket of a pop that is over -/
def Event.poppedTicket : Event T → Option ℕ
  | .popped t _ => some t
  | _ => none

/-- The events tell what has become of the tickets. -/
structure Told (trace : List (Event T)) (g : Tickets T) : Prop where
  tails : trace.filterMap Event.tailTicket = List.range g.tail
  heads : trace.filterMap Event.headTicket = List.range g.head
  took : ∀ t v, .tookTail t v ∈ trace ↔ (g.stage t).value = some v
  pushed : ∀ t v, .pushed t v ∈ trace ↔ 3 ≤ (g.stage t).rank ∧ (g.stage t).value = some v
  popped : ∀ t r, .popped t r ∈ trace ↔ ∃ v, r = some v ∧ g.stage t = .done v
  pushedOnce : (trace.filterMap Event.pushedTicket).Nodup
  poppedOnce : (trace.filterMap Event.poppedTicket).Nodup

namespace Tickets

/-- What was told stays true as long as nothing happens that is worth telling. -/
lemma told_silent {trace : List (Event T)} {g g' : Tickets T} (h : Told trace g)
    (htail : g'.tail = g.tail) (hhead : g'.head = g.head)
    (hvalue : ∀ t, (g'.stage t).value = (g.stage t).value)
    (hpushed : ∀ t, 3 ≤ (g'.stage t).rank ↔ 3 ≤ (g.stage t).rank)
    (hdone : ∀ t v, g'.stage t = .done v ↔ g.stage t = .done v) : Told trace g' where
  tails := by rw [htail, h.tails]
  heads := by rw [hhead, h.heads]
  took t v := by rw [hvalue, h.took]
  pushed t v := by rw [hvalue, hpushed, h.pushed]
  popped t r := by simp only [hdone, h.popped]
  pushedOnce := h.pushedOnce
  poppedOnce := h.poppedOnce

/-- A stage that a thread goes through by itself -/
lemma told_advance {trace : List (Event T)} {g : Tickets T} (h : Told trace g) {t : ℕ}
    {b : Stage T} (ht : (g.stage t).rank ≠ 0) (hb : b.rank ≠ 0)
    (hpop : 4 ≤ b.rank ↔ 4 ≤ (g.stage t).rank) (hvalue : b.value = (g.stage t).value)
    (hpushed : 3 ≤ b.rank ↔ 3 ≤ (g.stage t).rank) (hrank : b.rank ≠ 7)
    (hrank' : (g.stage t).rank ≠ 7) : Told trace (g.advance t b ht hb hpop) := by
  have hdone : ∀ v, b ≠ .done v := fun v h => hrank (Stage.rank_eq_seven.mpr ⟨v, h⟩)
  have hdone' : ∀ v, g.stage t ≠ .done v := fun v h => hrank' (Stage.rank_eq_seven.mpr ⟨v, h⟩)
  refine told_silent h rfl rfl (fun u => ?_) (fun u => ?_) fun u v => ?_
  all_goals
    rw [advance]
    by_cases hu : u = t
    · subst hu
      simp [hvalue, hpushed, hdone, hdone']
    · simp [Function.update_of_ne hu]

lemma told_take {trace : List (Event T)} {g : Tickets T} (h : Told trace g) (i : ℕ) (v : T) :
    Told (trace ++ [.tookTail g.tail v]) (g.take i v) := by
  have hfree : g.stage g.tail = .free := Stage.rank_eq_zero.mp ((g.taken_iff g.tail).mpr le_rfl)
  constructor
  · simp [h.tails, Event.tailTicket, take, List.range_succ]
  · simp [h.heads, Event.headTicket, take]
  · intro t w
    by_cases ht : t = g.tail
    · simp [h.took, take, ht, hfree, Stage.value, eq_comm]
    · simp [h.took, take, ht]
  · intro t w
    by_cases ht : t = g.tail
    · simp [h.pushed, take, ht, hfree, Stage.rank]
    · simp [h.pushed, take, ht]
  · intro t r
    by_cases ht : t = g.tail
    · simp [h.popped, take, ht, hfree]
    · simp [h.popped, take, ht]
  · simpa [List.filterMap_cons, Event.pushedTicket] using h.pushedOnce
  · simpa [List.filterMap_cons, Event.poppedTicket] using h.poppedOnce

lemma told_claim {trace : List (Event T)} {g : Tickets T} (h : Told trace g) (i : ℕ) {v : T}
    (hready : g.stage g.head = .ready v) :
    Told (trace ++ [.tookHead g.head]) (g.claim i v hready) := by
  constructor
  · simp [h.tails, Event.tailTicket, claim]
  · simp [h.heads, Event.headTicket, claim, List.range_succ]
  · intro t w
    by_cases ht : t = g.head
    · simp [h.took, claim, ht, hready, Stage.value]
    · simp [h.took, claim, ht]
  · intro t w
    by_cases ht : t = g.head
    · simp [h.pushed, claim, ht, hready, Stage.rank, Stage.value]
    · simp [h.pushed, claim, ht]
  · intro t r
    by_cases ht : t = g.head
    · simp [h.popped, claim, ht, hready]
    · simp [h.popped, claim, ht]
  · simpa [List.filterMap_cons, Event.pushedTicket] using h.pushedOnce
  · simpa [List.filterMap_cons, Event.poppedTicket] using h.poppedOnce

lemma told_publish {trace : List (Event T)} {g : Tickets T} (h : Told trace g) {t i : ℕ} {v : T}
    (hwritten : g.stage t = .written i v) (ht : (g.stage t).rank ≠ 0)
    (hb : (Stage.ready v).rank ≠ 0) (hpop : 4 ≤ (Stage.ready v).rank ↔ 4 ≤ (g.stage t).rank) :
    Told (trace ++ [.pushed t v]) (g.advance t (.ready v) ht hb hpop) := by
  have hnew : t ∉ trace.filterMap Event.pushedTicket := by
    intro hmem
    obtain ⟨e, he, hticket⟩ := List.mem_filterMap.mp hmem
    cases e with
    | pushed u w =>
      obtain rfl : u = t := Option.some_inj.mp hticket
      have hpushed := ((h.pushed u w).mp he).1
      rw [hwritten] at hpushed
      exact absurd hpushed (by simp [Stage.rank])
    | _ => exact absurd hticket (by simp [Event.pushedTicket])
  constructor
  · simp [h.tails, Event.tailTicket, advance]
  · simp [h.heads, Event.headTicket, advance]
  · intro u w
    by_cases hu : u = t
    · simp [h.took, advance, hu, hwritten, Stage.value]
    · simp [h.took, advance, hu]
  · intro u w
    by_cases hu : u = t
    · simp [h.pushed, advance, hu, hwritten, Stage.rank, Stage.value, eq_comm]
    · simp [h.pushed, advance, hu]
  · intro u r
    by_cases hu : u = t
    · simp [h.popped, advance, hu, hwritten]
    · simp [h.popped, advance, hu]
  · have hsplit : (trace ++ [Event.pushed t v]).filterMap Event.pushedTicket =
        trace.filterMap Event.pushedTicket ++ [t] := by simp [Event.pushedTicket]
    rw [hsplit]
    exact List.nodup_append.mpr ⟨h.pushedOnce, List.nodup_singleton t, by
      rintro a ha b hb rfl
      exact hnew (List.mem_singleton.mp hb ▸ ha)⟩
  · simpa [List.filterMap_cons, Event.poppedTicket] using h.poppedOnce

lemma told_finish {trace : List (Event T)} {g : Tickets T} (h : Told trace g) {t i : ℕ} {v : T}
    (hcleared : g.stage t = .cleared i v) (ht : (g.stage t).rank ≠ 0)
    (hb : (Stage.done v).rank ≠ 0) (hpop : 4 ≤ (Stage.done v).rank ↔ 4 ≤ (g.stage t).rank) :
    Told (trace ++ [.popped t (some v)]) (g.advance t (.done v) ht hb hpop) := by
  have hnew : t ∉ trace.filterMap Event.poppedTicket := by
    intro hmem
    obtain ⟨e, he, hticket⟩ := List.mem_filterMap.mp hmem
    cases e with
    | popped u r =>
      obtain rfl : u = t := Option.some_inj.mp hticket
      obtain ⟨w, -, hdone⟩ := (h.popped u r).mp he
      rw [hcleared] at hdone
      exact absurd hdone (by simp)
    | _ => exact absurd hticket (by simp [Event.poppedTicket])
  constructor
  · simp [h.tails, Event.tailTicket, advance]
  · simp [h.heads, Event.headTicket, advance]
  · intro u w
    by_cases hu : u = t
    · simp [h.took, advance, hu, hcleared, Stage.value]
    · simp [h.took, advance, hu]
  · intro u w
    by_cases hu : u = t
    · simp [h.pushed, advance, hu, hcleared, Stage.rank, Stage.value]
    · simp [h.pushed, advance, hu]
  · intro u r
    by_cases hu : u = t
    · simp [h.popped, advance, hu, hcleared]
    · simp [h.popped, advance, hu]
  · simpa [List.filterMap_cons, Event.pushedTicket] using h.pushedOnce
  · have hsplit : (trace ++ [Event.popped t (some v)]).filterMap Event.poppedTicket =
        trace.filterMap Event.poppedTicket ++ [t] := by simp [Event.poppedTicket]
    rw [hsplit]
    exact List.nodup_append.mpr ⟨h.poppedOnce, List.nodup_singleton t, by
      rintro a ha b hb rfl
      exact hnew (List.mem_singleton.mp hb ▸ ha)⟩

/-- **The events of a run** tell what has become of the tickets. -/
theorem told_of_run {trace : List (Event T)} {g : Tickets T} (h : (system T).Run trace g) :
    Told trace g := by
  refine @System.Run.invariant _ _ (system T) Told ?_ ?_ _ _ h
  · rintro g rfl
    constructor <;> simp [empty, Stage.value, Stage.rank]
  · intro trace g es g' hg hstep
    cases hstep with
    | stay => rwa [List.append_nil]
    | take i v => exact told_take hg i v
    | claim i hready => exact told_claim hg i hready
    | publish hwritten => exact told_publish hg hwritten _ _ _
    | finish hcleared => exact told_finish hg hcleared _ _ _
    | write htaken =>
      rw [List.append_nil]
      exact told_advance hg _ _ _ (by simp [htaken, Stage.value]) (by simp [htaken, Stage.rank])
        (by simp [Stage.rank]) (by simp [htaken, Stage.rank])
    | copy hclaimed =>
      rw [List.append_nil]
      exact told_advance hg _ _ _ (by simp [hclaimed, Stage.value])
        (by simp [hclaimed, Stage.rank]) (by simp [Stage.rank]) (by simp [hclaimed, Stage.rank])
    | clear hcopied =>
      rw [List.append_nil]
      exact told_advance hg _ _ _ (by simp [hcopied, Stage.value])
        (by simp [hcopied, Stage.rank]) (by simp [Stage.rank]) (by simp [hcopied, Stage.rank])

end Tickets

end Nstd.LockFreeQueue
