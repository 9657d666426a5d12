import Mathlib.Data.Nat.Find
import Mathlib.Data.Nat.ModEq
import Nstd.Future.Tickets

/-!
# The queue is safe

The queue refines the tickets: in every slot there is one ticket at a time, and the node says what
has become of it.

* `Current` — the ticket that a slot is there for.
* `nodeOf` — the node of this ticket.
* `PointOk` — what a thread knows at a point of its program.
* `Refines` — the queue and the tickets.
* **`queue_safe`** — nothing is lost, nothing comes out twice, and no slot is written or read at the
  wrong time.

The counters give each ticket to one push and one pop.  The number in a node says which of them may use
it next, so no two threads are ever at one slot.
-/

namespace Nstd.LockFreeQueue

variable {T : Type}

/-! ## The relation -/

/-- The thread that is busy with a ticket -/
def Stage.owner : Stage T → Option ℕ
  | .taken i _ => some i
  | .written i _ => some i
  | .claimed i _ => some i
  | .copied i _ => some i
  | .cleared i _ => some i
  | _ => none

/-- What the slot of a ticket holds -/
def Stage.stored : Stage T → Option T
  | .written _ v => some v
  | .ready v => some v
  | .claimed _ v => some v
  | .copied _ v => some v
  | _ => none

/-- The ticket that its slot is there for: the first one of the slot that is not done -/
def Current (capacity : ℕ) (g : Tickets T) (t : ℕ) : Prop :=
  (g.stage t).rank ≠ 7 ∧ ∀ u, u + capacity = t → (g.stage u).rank = 7

/-- The node of the slot of a ticket -/
def nodeOf (capacity t : ℕ) (a : Stage T) : Node T where
  data := a.stored
  tail := t
  head := if 3 ≤ a.rank then t else if t < capacity then -1 else (t : ℤ) - capacity

/-- What thread `i` knows about the tickets -/
def PointOk (capacity : ℕ) (g : Tickets T) (i : ℕ) : Point T → Prop
  | .pushSwap _ t => Current capacity g t ∨ t < g.tail
  | .pushData v t => g.stage t = .taken i v
  | .pushHead v t => g.stage t = .written i v
  | .popSwap t => 3 ≤ (g.stage t).rank
  | .popData t => ∃ v, g.stage t = .claimed i v
  | .popClear t r => ∃ v, r = some v ∧ g.stage t = .copied i v
  | .popTail t r => ∃ v, r = some v ∧ g.stage t = .cleared i v
  | _ => True

/-- The queue shows the tickets. -/
structure Refines (s : State T) (g : Tickets T) : Prop where
  pos : 0 < s.capacity
  mask : ∀ t, t &&& s.capacityMask = t % s.capacity
  tail : s.tail = g.tail
  head : s.head = g.head
  prev : ∀ t, (g.stage (t + s.capacity)).rank ≠ 0 → (g.stage t).rank = 7
  node : ∀ t, Current s.capacity g t → s.node t = nodeOf s.capacity t (g.stage t)
  threads : ∀ i, PointOk s.capacity g i (s.threads i)

/-! ## Slots -/

namespace Refines

variable {s s' : State T} {g g' : Tickets T}

/-- A ticket that is taken, and not done, is the one its slot is there for. -/
lemma current (h : Refines s g) {t : ℕ} (hfree : (g.stage t).rank ≠ 0)
    (hdone : (g.stage t).rank ≠ 7) : Current s.capacity g t := by
  refine ⟨hdone, fun u hu => ?_⟩
  subst hu
  exact h.prev u hfree

/-- Of the tickets of a slot, the ones before a done one are done. -/
lemma done_before (h : Refines s g) {t k : ℕ} (hdone : (g.stage (t + k * s.capacity)).rank = 7) :
    (g.stage t).rank = 7 := by
  induction k with
  | zero => simpa using hdone
  | succ k ih =>
    refine ih (h.prev _ ?_)
    rw [Nat.add_assoc, ← Nat.succ_mul]
    rw [Nat.succ_eq_add_one, hdone]
    decide

lemma current_le (h : Refines s g) {t u : ℕ} (ht : Current s.capacity g t)
    (hu : Current s.capacity g u) (hslot : t % s.capacity = u % s.capacity) : u ≤ t := by
  by_contra hlt
  rw [not_le] at hlt
  obtain ⟨k, hk⟩ : s.capacity ∣ u - t := (Nat.modEq_iff_dvd' hlt.le).mp hslot
  cases k with
  | zero => omega
  | succ k =>
    rw [Nat.mul_succ] at hk
    have hbefore : t + k * s.capacity + s.capacity = u := by
      rw [Nat.mul_comm k]
      omega
    exact ht.1 (h.done_before (hu.2 _ hbefore))

/-- A slot is there for one ticket at a time. -/
lemma current_unique (h : Refines s g) {t u : ℕ} (ht : Current s.capacity g t)
    (hu : Current s.capacity g u) (hslot : t % s.capacity = u % s.capacity) : t = u :=
  le_antisymm (h.current_le hu ht hslot.symm) (h.current_le ht hu hslot)

/-- Every slot is there for some ticket. -/
lemma exists_current (h : Refines s g) (t : ℕ) :
    ∃ u, u % s.capacity = t % s.capacity ∧ Current s.capacity g u := by
  have hex : ∃ k, (g.stage (t % s.capacity + k * s.capacity)).rank ≠ 7 := by
    refine ⟨g.tail, ?_⟩
    have hle : g.tail ≤ t % s.capacity + g.tail * s.capacity :=
      le_trans (Nat.le_mul_of_pos_right _ h.pos) (Nat.le_add_left _ _)
    rw [(g.taken_iff _).mpr hle]
    decide
  have hslot : t % s.capacity < s.capacity := Nat.mod_lt _ h.pos
  refine ⟨t % s.capacity + Nat.find hex * s.capacity, ?_, Nat.find_spec hex, fun u hu => ?_⟩
  · rw [Nat.add_mul_mod_self_right, Nat.mod_mod]
  · cases hk : Nat.find hex with
    | zero =>
      rw [hk] at hu
      omega
    | succ k =>
      rw [hk, Nat.succ_mul] at hu
      have hmin := Nat.find_min hex (m := k) (by omega)
      rw [not_not] at hmin
      rwa [show u = t % s.capacity + k * s.capacity by omega]

lemma node_eq (h : Refines s g) {t u : ℕ} (hslot : t % s.capacity = u % s.capacity) :
    s.node t = s.node u := by
  rw [State.node, State.node, h.mask, h.mask, hslot]

/-- If a node has a ticket in `tail`, its slot is there for it. -/
lemma current_of_tail (h : Refines s g) {t : ℕ} (ht : (s.node t).tail = t) : Current s.capacity g t := by
  obtain ⟨u, hslot, hu⟩ := h.exists_current t
  rw [h.node_eq hslot.symm, h.node u hu] at ht
  obtain rfl : u = t := ht
  exact hu

/-- If a node has a ticket in `head`, its push is over. -/
lemma pushed_of_head (h : Refines s g) {t : ℕ} (ht : (s.node t).head = t) : 3 ≤ (g.stage t).rank := by
  obtain ⟨u, hslot, hu⟩ := h.exists_current t
  rw [h.node_eq hslot.symm, h.node u hu] at ht
  simp only [nodeOf] at ht
  split_ifs at ht with hpushed hfirst
  · obtain rfl : u = t := by omega
    exact hpushed
  · rw [hu.2 t (by omega)]
    decide

/-! ## Steps -/

end Refines

/-- What a thread knows stays true as long as the others leave its tickets alone. -/
lemma PointOk.mono {capacity : ℕ} {g g' : Tickets T} {i : ℕ} {point : Point T}
    (h : PointOk capacity g i point)
    (howner : ∀ t, (g.stage t).owner = some i → g'.stage t = g.stage t)
    (hcurrent : ∀ t, Current capacity g t ∨ t < g.tail → Current capacity g' t ∨ t < g'.tail)
    (hpushed : ∀ t, 3 ≤ (g.stage t).rank → 3 ≤ (g'.stage t).rank) :
    PointOk capacity g' i point := by
  cases point with
  | pushSwap v t => exact hcurrent t h
  | pushData v t =>
    have hstage : g.stage t = .taken i v := h
    show g'.stage t = .taken i v
    rw [howner t (by rw [hstage]; rfl), hstage]
  | pushHead v t =>
    have hstage : g.stage t = .written i v := h
    show g'.stage t = .written i v
    rw [howner t (by rw [hstage]; rfl), hstage]
  | popSwap t => exact hpushed t h
  | popData t =>
    obtain ⟨v, hstage⟩ := h
    exact ⟨v, by rw [howner t (by rw [hstage]; rfl), hstage]⟩
  | popClear t r =>
    obtain ⟨v, hr, hstage⟩ := h
    exact ⟨v, hr, by rw [howner t (by rw [hstage]; rfl), hstage]⟩
  | popTail t r =>
    obtain ⟨v, hr, hstage⟩ := h
    exact ⟨v, hr, by rw [howner t (by rw [hstage]; rfl), hstage]⟩
  | _ => trivial

namespace Refines

variable {s s' : State T} {g g' : Tickets T}

/-- The nodes after a node is written to -/
lemma node_setNode (h : Refines s g) (t i : ℕ) (f : Node T → Node T) (point : Point T) (u : ℕ) :
    ((s.setNode t f).goto i point).node u =
      if u % s.capacity = t % s.capacity then f (s.node t) else s.node u := by
  simp only [State.node, State.goto, State.setNode, h.mask]
  by_cases hslot : u % s.capacity = t % s.capacity
  · rw [hslot, Function.update_self, if_pos rfl]
  · rw [Function.update_of_ne hslot, if_neg hslot]

/-- A step that changes nothing but the point of a thread -/
lemma goto (h : Refines s g) {i : ℕ} {point : Point T} (hpoint : PointOk s.capacity g i point) :
    Refines (s.goto i point) g where
  pos := h.pos
  mask := h.mask
  tail := h.tail
  head := h.head
  prev := h.prev
  node := h.node
  threads j := by
    by_cases hj : j = i
    · subst hj
      simpa [State.goto] using hpoint
    · simpa [State.goto, Function.update_of_ne hj] using h.threads j

/-- A step that takes the ticket of a slot further, but not to its end -/
lemma advance (h : Refines s g) {t i : ℕ} {b : Stage T} {point : Point T}
    (hstage : g'.stage = Function.update g.stage t b) (hcurrent : Current s.capacity g t)
    (hdone : b.rank ≠ 7) (hle : (g.stage t).rank ≤ b.rank)
    (howner : ∀ j, j ≠ i → (g.stage t).owner ≠ some j)
    (hcapacity : s'.capacity = s.capacity) (hmask : s'.capacityMask = s.capacityMask)
    (htail : s'.tail = g'.tail) (hhead : s'.head = g'.head) (hmono : g.tail ≤ g'.tail)
    (hnode : s'.node t = nodeOf s.capacity t b)
    (hother : ∀ u, u % s.capacity ≠ t % s.capacity → s'.node u = s.node u)
    (hthreads : s'.threads = Function.update s.threads i point)
    (hpoint : PointOk s.capacity g' i point) : Refines s' g' := by
  have hself : g'.stage t = b := by rw [hstage, Function.update_self]
  have hne : ∀ {u}, u ≠ t → g'.stage u = g.stage u := fun hu => by
    rw [hstage, Function.update_of_ne hu]
  have hseven : ∀ u, (g'.stage u).rank = 7 ↔ (g.stage u).rank = 7 := by
    intro u
    by_cases hu : u = t
    · subst hu
      rw [hself]
      exact iff_of_false hdone hcurrent.1
    · rw [hne hu]
  have hcur : ∀ u, Current s.capacity g' u ↔ Current s.capacity g u := fun u => by
    simp only [Current, ne_eq, hseven]
  constructor
  · rw [hcapacity]
    exact h.pos
  · rw [hcapacity, hmask]
    exact h.mask
  · exact htail
  · exact hhead
  · intro u hu
    rw [hcapacity] at hu
    rw [hseven]
    by_cases hnext : u + s.capacity = t
    · exact hcurrent.2 u hnext
    · rw [hne hnext] at hu
      exact h.prev u hu
  · intro u hu
    rw [hcapacity] at hu ⊢
    rw [hcur] at hu
    by_cases hut : u = t
    · rw [hut, hself]
      exact hnode
    · have hslot : u % s.capacity ≠ t % s.capacity := fun hslot =>
        hut (h.current_unique hu hcurrent hslot)
      rw [hother u hslot, hne hut]
      exact h.node u hu
  · intro j
    rw [hcapacity, hthreads]
    by_cases hj : j = i
    · subst hj
      rwa [Function.update_self]
    · rw [Function.update_of_ne hj]
      refine (h.threads j).mono (fun u hu => ?_) (fun u hu => ?_) fun u hu => ?_
      · exact hne fun hut => howner j hj (hut ▸ hu)
      · rw [hcur]
        exact hu.imp_right fun hlt => lt_of_lt_of_le hlt hmono
      · by_cases hut : u = t
        · subst hut
          rw [hself]
          exact hu.trans hle
        · rwa [hne hut]

/-- The step that ends a pop: the slot is there for its next ticket. -/
lemma finish (h : Refines s g) {t i : ℕ} {v : T} (hcleared : g.stage t = .cleared i v)
    (hstage : g'.stage = Function.update g.stage t (.done v)) (htail : g'.tail = g.tail)
    (hhead : g'.head = g.head) :
    Refines ((s.setNode t fun n => { n with tail := t + s.capacity }).goto i .idle) g' := by
  have hself : g'.stage t = .done v := by rw [hstage, Function.update_self]
  have hne : ∀ {u}, u ≠ t → g'.stage u = g.stage u := fun hu => by
    rw [hstage, Function.update_of_ne hu]
  have hrank : (g.stage t).rank = 6 := by rw [hcleared]; rfl
  have hcurrent : Current s.capacity g t :=
    h.current (by rw [hrank]; decide) (by rw [hrank]; decide)
  have hpos := h.pos
  have hdone : ∀ {u}, (g.stage u).rank = 7 → (g'.stage u).rank = 7 := by
    intro u hu
    by_cases hut : u = t
    · rw [hut, hself]
      rfl
    · rwa [hne hut]
  have hnext : g.stage (t + s.capacity) = .free := by
    by_contra hfree
    have := h.prev t fun h0 => hfree (Stage.rank_eq_zero.mp h0)
    omega
  constructor
  · exact h.pos
  · exact h.mask
  · exact h.tail.trans htail.symm
  · exact h.head.trans hhead.symm
  · intro u hu
    have hu' : (g'.stage (u + s.capacity)).rank ≠ 0 := hu
    by_cases hut : u + s.capacity = t
    · exact hdone (hcurrent.2 u hut)
    · rw [hne hut] at hu'
      exact hdone (h.prev u hu')
  · intro u hu
    have hu' : Current s.capacity g' u := hu
    rw [h.node_setNode]
    show _ = nodeOf s.capacity u (g'.stage u)
    by_cases hslot : u % s.capacity = t % s.capacity
    · -- the first ticket of the slot that is not done is now the next one
      have hu'' : u = t + s.capacity := by
        by_contra hne'
        have hut : u ≠ t := fun hut => hu'.1 (by rw [hut, hself]; rfl)
        have hcur : Current s.capacity g u := by
          refine ⟨fun h7 => hu'.1 (hdone h7), fun w hw => ?_⟩
          have hw' := hu'.2 w hw
          have hwt : w ≠ t := fun hwt => hne' (by rw [← hw, hwt])
          rwa [hne hwt] at hw'
        exact hut (h.current_unique hcur hcurrent hslot)
      have hut : t + s.capacity ≠ t := by omega
      rw [if_pos hslot, hu'', hne hut, hnext, h.node t hcurrent, hcleared]
      simp only [nodeOf, Stage.stored, Stage.rank]
      simp
    · rw [if_neg hslot]
      have hut : u ≠ t := fun hut => hslot (by rw [hut])
      rw [hne hut]
      refine h.node u ⟨fun h7 => hu'.1 (hdone h7), fun w hw => ?_⟩
      have hw' := hu'.2 w hw
      have hwt : w ≠ t := fun hwt => hslot (by rw [← hw, hwt, Nat.add_mod_right])
      rwa [hne hwt] at hw'
  · intro j
    by_cases hj : j = i
    · subst hj
      simp [State.goto, PointOk]
    · have hthread : ((s.setNode t fun n => { n with tail := t + s.capacity }).goto i
          .idle).threads j = s.threads j := by simp [State.goto, State.setNode, hj]
      rw [hthread]
      refine (h.threads j).mono (fun u hu => ?_) (fun u hu => ?_) fun u hu => ?_
      · refine hne fun hut => ?_
        rw [hut, hcleared] at hu
        exact hj (Option.some_inj.mp hu).symm
      · rw [htail]
        by_cases hut : u = t
        · refine Or.inr ?_
          have htaken := g.taken_iff t
          rw [hut]
          omega
        · refine hu.imp_left fun hcur => ⟨?_, fun w hw => hdone (hcur.2 w hw)⟩
          rw [hne hut]
          exact hcur.1
      · by_cases hut : u = t
        · rw [hut, hself]
          simp [Stage.rank]
        · rwa [hne hut]

/-- A step in which the thread that has the ticket of a slot writes to its node -/
lemma write (h : Refines s g) {t i : ℕ} {b : Stage T} {f : Node T → Node T} {point : Point T}
    (howner : (g.stage t).owner = some i) (hstage : g'.stage = Function.update g.stage t b)
    (htail : g'.tail = g.tail) (hhead : g'.head = g.head) (hdone : b.rank ≠ 7)
    (hle : (g.stage t).rank ≤ b.rank)
    (hnode : f (nodeOf s.capacity t (g.stage t)) = nodeOf s.capacity t b)
    (hpoint : PointOk s.capacity g' i point) :
    Refines ((s.setNode t f).goto i point) g' := by
  have hcurrent : Current s.capacity g t := by
    refine h.current (fun h0 => ?_) fun h7 => ?_
    · rw [Stage.rank_eq_zero.mp h0] at howner
      exact absurd howner (by simp [Stage.owner])
    · obtain ⟨v, hv⟩ := Stage.rank_eq_seven.mp h7
      rw [hv] at howner
      exact absurd howner (by simp [Stage.owner])
  refine h.advance hstage hcurrent hdone hle (fun j hj hown => ?_) rfl rfl
    (h.tail.trans htail.symm) (h.head.trans hhead.symm) htail.ge ?_ (fun u hu => ?_) rfl hpoint
  · exact hj (Option.some_inj.mp (hown.symm.trans howner))
  · rw [h.node_setNode, if_pos rfl, h.node t hcurrent, hnode]
  · rw [h.node_setNode, if_neg hu]

/-- A step of a push -/
lemma push_step (h : Refines s g) {i t : ℕ} {v : T} {es : List (Event T)} {point : Point T}
    (hthread : s.threads i = point)
    (hpoint : point ∈ [.pushTail v, .pushNode v t, .pushSwap v t, .pushData v t, .pushHead v t])
    (hrun : run s i point = some (s', es)) : ∃ g', Tickets.Step g es g' ∧ Refines s' g' := by
  have hok := h.threads i
  rw [hthread] at hok
  simp only [List.mem_cons, List.not_mem_nil, or_false] at hpoint
  rcases hpoint with rfl | rfl | rfl | rfl | rfl
  · obtain ⟨rfl, rfl⟩ := Prod.mk.inj (Option.some_inj.mp hrun)
    exact ⟨g, .stay, h.goto trivial⟩
  · rw [run] at hrun
    split_ifs at hrun with htail
    · obtain ⟨rfl, rfl⟩ := Prod.mk.inj (Option.some_inj.mp hrun)
      exact ⟨g, .stay, h.goto trivial⟩
    · obtain ⟨rfl, rfl⟩ := Prod.mk.inj (Option.some_inj.mp hrun)
      exact ⟨g, .stay, h.goto (Or.inl (h.current_of_tail (not_not.mp htail)))⟩
  · rw [run] at hrun
    split_ifs at hrun with htail
    · -- the ticket is the next one, so it is not below the counter
      obtain ⟨rfl, rfl⟩ := Prod.mk.inj (Option.some_inj.mp hrun)
      obtain rfl : t = g.tail := htail.symm.trans h.tail
      have hcurrent : Current s.capacity g g.tail := hok.resolve_right (lt_irrefl _)
      have hfree := Stage.rank_eq_zero.mp ((g.taken_iff g.tail).mpr le_rfl)
      refine ⟨g.take i v, .take i v, h.advance (i := i) rfl hcurrent (by simp [Stage.rank])
        (by simp [hfree, Stage.rank]) (by simp [hfree, Stage.owner]) rfl rfl rfl h.head
        (Nat.le_succ _) ?_ (fun u hu => rfl) rfl ?_⟩
      · refine (h.node g.tail hcurrent).trans ?_
        simp [hfree, nodeOf, Stage.stored, Stage.rank]
      · simp [PointOk, Tickets.take]
    · obtain ⟨rfl, rfl⟩ := Prod.mk.inj (Option.some_inj.mp hrun)
      exact ⟨g, .stay, h.goto trivial⟩
  · have htaken : g.stage t = .taken i v := hok
    obtain ⟨rfl, rfl⟩ := Prod.mk.inj (Option.some_inj.mp hrun)
    refine ⟨_, .write htaken, h.write (by rw [htaken]; rfl) rfl rfl rfl (by simp [Stage.rank])
      (by simp [htaken, Stage.rank]) ?_ ?_⟩
    · simp [htaken, nodeOf, Stage.stored, Stage.rank]
    · simp [PointOk, Tickets.advance]
  · have hwritten : g.stage t = .written i v := hok
    obtain ⟨rfl, rfl⟩ := Prod.mk.inj (Option.some_inj.mp hrun)
    refine ⟨_, .publish hwritten, h.write (by rw [hwritten]; rfl) rfl rfl rfl
      (by simp [Stage.rank]) (by simp [hwritten, Stage.rank]) ?_ trivial⟩
    simp [hwritten, nodeOf, Stage.stored, Stage.rank]

/-- A step of a pop -/
lemma pop_step (h : Refines s g) {i t : ℕ} {r : Option T} {es : List (Event T)} {point : Point T}
    (hthread : s.threads i = point)
    (hpoint : point ∈ [.popHead, .popNode t, .popSwap t, .popData t, .popClear t r, .popTail t r])
    (hrun : run s i point = some (s', es)) : ∃ g', Tickets.Step g es g' ∧ Refines s' g' := by
  have hok := h.threads i
  rw [hthread] at hok
  simp only [List.mem_cons, List.not_mem_nil, or_false] at hpoint
  rcases hpoint with rfl | rfl | rfl | rfl | rfl | rfl
  · obtain ⟨rfl, rfl⟩ := Prod.mk.inj (Option.some_inj.mp hrun)
    exact ⟨g, .stay, h.goto trivial⟩
  · rw [run] at hrun
    split_ifs at hrun with hhead
    · obtain ⟨rfl, rfl⟩ := Prod.mk.inj (Option.some_inj.mp hrun)
      exact ⟨g, .stay, h.goto trivial⟩
    · obtain ⟨rfl, rfl⟩ := Prod.mk.inj (Option.some_inj.mp hrun)
      exact ⟨g, .stay, h.goto (h.pushed_of_head (not_not.mp hhead))⟩
  · rw [run] at hrun
    split_ifs at hrun with hhead
    · -- the ticket is pushed and, as the next one, not claimed
      obtain ⟨rfl, rfl⟩ := Prod.mk.inj (Option.some_inj.mp hrun)
      obtain rfl : t = g.head := hhead.symm.trans h.head
      have hpushed : 3 ≤ (g.stage g.head).rank := hok
      have hclaimed := g.claimed_iff g.head
      obtain ⟨v, hready⟩ : ∃ v, g.stage g.head = .ready v := by
        cases hstage : g.stage g.head <;> rw [hstage] at hpushed hclaimed <;>
          simp_all [Stage.rank]
      have hcurrent : Current s.capacity g g.head :=
        h.current (by simp [hready, Stage.rank]) (by simp [hready, Stage.rank])
      refine ⟨g.claim i v hready, .claim i hready, h.advance (i := i) rfl hcurrent
        (by simp [Stage.rank]) (by simp [hready, Stage.rank]) (by simp [hready, Stage.owner]) rfl
        rfl h.tail rfl le_rfl ?_ (fun u hu => rfl) rfl ?_⟩
      · refine (h.node g.head hcurrent).trans ?_
        simp [hready, nodeOf, Stage.stored, Stage.rank]
      · exact ⟨v, by simp [Tickets.claim]⟩
    · obtain ⟨rfl, rfl⟩ := Prod.mk.inj (Option.some_inj.mp hrun)
      exact ⟨g, .stay, h.goto trivial⟩
  · obtain ⟨v, hclaimed⟩ := hok
    obtain ⟨rfl, rfl⟩ := Prod.mk.inj (Option.some_inj.mp hrun)
    have hcurrent : Current s.capacity g t :=
      h.current (by simp [hclaimed, Stage.rank]) (by simp [hclaimed, Stage.rank])
    have hdata : (s.node t).data = some v := by
      rw [h.node t hcurrent, hclaimed]
      rfl
    refine ⟨_, .copy hclaimed, h.advance (i := i) rfl hcurrent (by simp [Stage.rank])
      (by simp [hclaimed, Stage.rank]) (fun j hj => ?_) rfl rfl h.tail h.head le_rfl ?_
      (fun u hu => rfl) rfl ?_⟩
    · simpa [hclaimed, Stage.owner] using Ne.symm hj
    · refine (h.node t hcurrent).trans ?_
      simp [hclaimed, nodeOf, Stage.stored, Stage.rank]
    · exact ⟨v, hdata, by simp [Tickets.advance]⟩
  · obtain ⟨v, rfl, hcopied⟩ := hok
    obtain ⟨rfl, rfl⟩ := Prod.mk.inj (Option.some_inj.mp hrun)
    refine ⟨_, .clear hcopied, h.write (by rw [hcopied]; rfl) rfl rfl rfl (by simp [Stage.rank])
      (by simp [hcopied, Stage.rank]) ?_ ?_⟩
    · simp [hcopied, nodeOf, Stage.stored, Stage.rank]
    · exact ⟨v, rfl, by simp [Tickets.advance]⟩
  · obtain ⟨v, rfl, hcleared⟩ := hok
    obtain ⟨rfl, rfl⟩ := Prod.mk.inj (Option.some_inj.mp hrun)
    exact ⟨_, .finish hcleared, h.finish hcleared rfl rfl rfl⟩

/-- **Every step of the queue** is a step of the tickets. -/
theorem step (h : Refines s g) {m : Move T} {es : List (Event T)}
    (hstep : LockFreeQueue.step s m = some (s', es)) :
    ∃ g', Tickets.Step g es g' ∧ Refines s' g' := by
  cases m with
  | push i data =>
    rw [LockFreeQueue.step] at hstep
    cases hthread : s.threads i with
    | idle =>
      rw [hthread] at hstep
      obtain ⟨rfl, rfl⟩ := Prod.mk.inj (Option.some_inj.mp hstep)
      exact ⟨g, .stay, h.goto trivial⟩
    | _ =>
      rw [hthread] at hstep
      exact absurd hstep (by simp)
  | pop i =>
    rw [LockFreeQueue.step] at hstep
    cases hthread : s.threads i with
    | idle =>
      rw [hthread] at hstep
      obtain ⟨rfl, rfl⟩ := Prod.mk.inj (Option.some_inj.mp hstep)
      exact ⟨g, .stay, h.goto trivial⟩
    | _ =>
      rw [hthread] at hstep
      exact absurd hstep (by simp)
  | run i =>
    rw [LockFreeQueue.step] at hstep
    cases hthread : s.threads i with
    | idle =>
      rw [hthread, run] at hstep
      exact absurd hstep (by simp)
    | pushTail v => exact h.push_step (v := v) (t := 0) hthread (by simp) (hthread ▸ hstep)
    | pushNode v t => exact h.push_step (v := v) (t := t) hthread (by simp) (hthread ▸ hstep)
    | pushSwap v t => exact h.push_step (v := v) (t := t) hthread (by simp) (hthread ▸ hstep)
    | pushData v t => exact h.push_step (v := v) (t := t) hthread (by simp) (hthread ▸ hstep)
    | pushHead v t => exact h.push_step (v := v) (t := t) hthread (by simp) (hthread ▸ hstep)
    | popHead => exact h.pop_step (t := 0) (r := none) hthread (by simp) (hthread ▸ hstep)
    | popNode t => exact h.pop_step (t := t) (r := none) hthread (by simp) (hthread ▸ hstep)
    | popSwap t => exact h.pop_step (t := t) (r := none) hthread (by simp) (hthread ▸ hstep)
    | popData t => exact h.pop_step (t := t) (r := none) hthread (by simp) (hthread ▸ hstep)
    | popClear t r => exact h.pop_step (t := t) (r := r) hthread (by simp) (hthread ▸ hstep)
    | popTail t r => exact h.pop_step (t := t) (r := r) hthread (by simp) (hthread ▸ hstep)

end Refines

/-! ## The constructor -/

/-- For a power of two, the constructor has the mask of its bits. -/
lemma capacityMask_of_pow {capacity : UInt64} (h : capacity.toNat.isPowerOfTwo) :
    ∃ k, capacity.toNat = 2 ^ k ∧ (capacityMask capacity).toNat = 2 ^ k - 1 := by
  obtain ⟨k, hk⟩ := h
  have hall : ∀ k : Fin 64, (capacityMask (UInt64.ofNat (2 ^ k.val))).toNat = 2 ^ k.val - 1 := by
    decide +kernel
  have hlt : k < 64 := by
    refine (Nat.pow_lt_pow_iff_right (a := 2) (by decide)).mp ?_
    rw [← hk]
    exact capacity.toNat_lt
  refine ⟨k, hk, ?_⟩
  have hcapacity : capacity = UInt64.ofNat (2 ^ k) := by rw [← hk, UInt64.ofNat_toNat]
  rw [hcapacity]
  exact hall ⟨k, hlt⟩

lemma refines_initial {capacity : UInt64} (h : capacity.toNat.isPowerOfTwo) :
    Refines (State.initial T capacity) Tickets.empty := by
  obtain ⟨k, -, hmask⟩ := capacityMask_of_pow h
  have hpos : 0 < 2 ^ k := Nat.pow_pos (by decide)
  constructor
  · exact Nat.succ_pos _
  · intro t
    show t &&& (capacityMask capacity).toNat = t % ((capacityMask capacity).toNat + 1)
    rw [hmask, Nat.sub_add_cancel hpos, Nat.and_two_pow_sub_one_eq_mod]
  · rfl
  · rfl
  · intro t ht
    exact absurd rfl ht
  · intro t ht
    -- only the first ticket of a slot has no ticket before it that is not done
    have hlt : t < (capacityMask capacity).toNat + 1 := by
      by_contra hle
      have := ht.2 (t - ((capacityMask capacity).toNat + 1))
        (by simp only [State.initial]; omega)
      exact absurd this (by simp [Tickets.empty, Stage.rank])
    have hindex : t &&& (capacityMask capacity).toNat = t := by
      rw [hmask, Nat.and_two_pow_sub_one_eq_mod, Nat.mod_eq_of_lt (by omega)]
    have hnode : (State.initial T capacity).node t = ⟨none, t, -1⟩ := by
      show (⟨none, t &&& (capacityMask capacity).toNat, -1⟩ : Node T) = _
      rw [hindex]
    rw [hnode]
    simp [nodeOf, Tickets.empty, Stage.stored, Stage.rank, State.initial, hlt]
  · intro i
    trivial

/-! ## The runs of the queue -/

/-- What the queue promises after the events of `trace`, in the state `s` -/
structure Safe (trace : List (Event T)) (s : State T) : Prop where
  /-- A pop returns the value that was pushed with its ticket. -/
  popped : ∀ t r, .popped t r ∈ trace → ∃ v, r = some v ∧ .pushed t v ∈ trace
  /-- A push is over under the ticket, and with the value, that it began with. -/
  pushed : ∀ t v, .pushed t v ∈ trace → .tookTail t v ∈ trace
  /-- No ticket has two values. -/
  value : ∀ t v w, .pushed t v ∈ trace → .pushed t w ∈ trace → v = w
  /-- No two pushes have the same ticket. -/
  pushedOnce : (trace.filterMap Event.pushedTicket).Nodup
  /-- No two pops return the value of the same ticket. -/
  poppedOnce : (trace.filterMap Event.poppedTicket).Nodup
  /-- Pushes get their tickets in order. -/
  tails : trace.filterMap Event.tailTicket = List.range s.tail
  /-- Pops get their tickets in order. -/
  heads : trace.filterMap Event.headTicket = List.range s.head
  /-- Nothing is written to a slot that holds a value. -/
  noOverwrite : ∀ i v t, s.threads i = .pushData v t → (s.node t).data = none
  /-- Nothing is read from a slot that does not hold the value of the ticket. -/
  noEarlyRead : ∀ i t, s.threads i = .popData t →
    ∃ v, (s.node t).data = some v ∧ .pushed t v ∈ trace

lemma Refines.safe {trace : List (Event T)} {s : State T} {g : Tickets T} (h : Refines s g)
    (htold : Told trace g) : Safe trace s where
  popped t r ht := by
    obtain ⟨v, rfl, hdone⟩ := (htold.popped t r).mp ht
    exact ⟨v, rfl, (htold.pushed t v).mpr (by simp [hdone, Stage.rank, Stage.value])⟩
  pushed t v ht := (htold.took t v).mpr ((htold.pushed t v).mp ht).2
  value t v w hv hw := by
    have hboth := ((htold.pushed t v).mp hv).2.symm.trans ((htold.pushed t w).mp hw).2
    exact Option.some_inj.mp hboth
  pushedOnce := htold.pushedOnce
  poppedOnce := htold.poppedOnce
  tails := by rw [htold.tails, h.tail]
  heads := by rw [htold.heads, h.head]
  noOverwrite i v t hi := by
    have htaken : PointOk s.capacity g i (s.threads i) := h.threads i
    rw [hi] at htaken
    have hstage : g.stage t = .taken i v := htaken
    rw [h.node t (h.current (by simp [hstage, Stage.rank]) (by simp [hstage, Stage.rank])), hstage]
    rfl
  noEarlyRead i t hi := by
    have hclaimed : PointOk s.capacity g i (s.threads i) := h.threads i
    rw [hi] at hclaimed
    obtain ⟨v, hstage⟩ := hclaimed
    refine ⟨v, ?_, (htold.pushed t v).mpr (by simp [hstage, Stage.rank, Stage.value])⟩
    rw [h.node t (h.current (by simp [hstage, Stage.rank]) (by simp [hstage, Stage.rank])), hstage]
    rfl

/-- **The queue is safe** in every run, for every power of two as its capacity. -/
theorem queue_safe {capacity : UInt64} (hcapacity : capacity.toNat.isPowerOfTwo)
    {trace : List (Event T)} {s : State T} (h : (system T capacity).Run trace s) :
    Safe trace s := by
  have hinit : ∀ s : State T, (system T capacity).initial s →
      ∃ g, (Tickets.system T).initial g ∧ Refines s g := by
    rintro s rfl
    exact ⟨.empty, rfl, refines_initial hcapacity⟩
  have hstep : ∀ (s : State T) g es s', Refines s g → (system T capacity).step s es s' →
      ∃ g', (Tickets.system T).step g es g' ∧ Refines s' g' := by
    rintro s g es s' hrefines ⟨m, hm⟩
    exact hrefines.step hm
  obtain ⟨g, hrun, hrefines⟩ := h.simulation hinit hstep
  exact hrefines.safe (Tickets.told_of_run hrun)

/-- A value goes through a queue of one slot. -/
theorem queue_safe_one : ∃ s : State ℕ, Safe [.tookTail 0 7, .pushed 0 7, .tookHead 0,
    .popped 0 (some 7)] s := by
  have hexec : ((System.exec step (State.initial ℕ 1) [.push 0 7, .pop 1, .run 0, .run 0, .run 0, .run 0,
      .run 0, .run 1, .run 1, .run 1, .run 1, .run 1, .run 1]).map Prod.snd) =
        some [.tookTail 0 7, .pushed 0 7, .tookHead 0, .popped 0 (some 7)] := by decide +kernel
  obtain ⟨⟨s, es⟩, hs, hes⟩ := Option.map_eq_some_iff.mp hexec
  dsimp only at hes
  subst hes
  have hstep : ∀ s m s' es, step s m = some (s', es) → (system ℕ 1).step s es s' :=
    fun _ m _ _ h => ⟨m, h⟩
  have hrun : (system ℕ 1).Run ([] ++ _) s := System.Run.exec hstep (.start rfl) hs
  exact ⟨s, queue_safe ⟨0, rfl⟩ hrun⟩

end Nstd.LockFreeQueue
