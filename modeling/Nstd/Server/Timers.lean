import Nstd.Container.MultiMap

/-!
# The timers of a `Server`

`Server::Private` keeps its timers in a pool and an entry for each of them in `_queuedTimers`, a
`MultiMap` from execution times to timers, together with one entry without a timer that bounds the
time a poll may take.  Timers come and go between the turns of the dispatch loop in `run` and
inside the callbacks that loop makes, so the operations below can follow each other in any order.

* `time`, `remove`, `dispatch`, `clear` — the operations; `dispatch` is one turn of the loop up to
  the callback.
* `Matches` — what the queue has to be: one entry for each live timer and one without a timer.
* `remove_spec` — removing a timer keeps that if the search does not start behind its entry.
* `run_matches` — so does every run in which no removal does.
* `queue_mismatch` — and there is a run in which one does.

Times are milliseconds as integers of any size; the execution time of a timer is never compared
with anything but other execution times, so its width plays no role.
-/

namespace Nstd

open BalancedTree
open BalancedTree.AvlTree
open ItemTree

/-- `struct TimerImpl`, without its callback. -/
structure TimerImpl where
  executionTime : ℤ
  interval : ℤ
  deriving DecidableEq, Repr

/-- The two fields of `Server::Private` that hold timers.  A timer is known by its address; the pool
is the list of those in use. -/
structure Timers where
  queuedTimers : ItemTree ℤ (Option ℕ)
  timers : List (ℕ × TimerImpl)

namespace Timers

/-- The constructor: an empty pool and the entry without a timer. -/
def initial : Option Timers := do
  let (queuedTimers, _) ← MultiMap.insert ItemTree.empty 0 none
  some ⟨queuedTimers, []⟩

/-- `time(interval, callback)`; `ticks` is what the clock reads and `timer` where the pool puts the
new timer. -/
def time (s : Timers) (ticks interval : ℤ) (timer : ℕ) : Option Timers := do
  let impl : TimerImpl := ⟨ticks + interval, interval⟩
  let (queuedTimers, _) ← MultiMap.insert s.queuedTimers impl.executionTime (some timer)
  some ⟨queuedTimers, s.timers ++ [(timer, impl)]⟩

/-- The loop of `remove`. -/
def unqueue (timer : ℕ) (executionTime : ℤ) :
    ℕ → ItemTree ℤ (Option ℕ) → Ptr → Option (ItemTree ℤ (Option ℕ))
  | 0, _, _ => none
  | fuel + 1, queuedTimers, i =>
    if i = some endItem then some queuedTimers
    else do
      let i ← i
      if (queuedTimers.mem i).value = some timer then do
        let (queuedTimers, _) ← queuedTimers.remove i
        some queuedTimers
      else if (queuedTimers.mem i).key ≠ executionTime then some queuedTimers
      else unqueue timer executionTime fuel queuedTimers (queuedTimers.mem i).next

/-- `remove(TimerImpl& timer)`. -/
def remove (s : Timers) (timer : ℕ) : Option Timers := do
  let impl ← s.timers.lookup timer
  let i ← s.queuedTimers.find impl.executionTime
  let queuedTimers ←
    unqueue timer impl.executionTime (s.queuedTimers.size + 1) s.queuedTimers (some i)
  some ⟨queuedTimers, s.timers.filter fun e => e.1 ≠ timer⟩

/-- One turn of the dispatch loop of `run`, up to the callback it ends with.  A front entry whose
timer is not in the pool any more is a dangling pointer. -/
def dispatch (s : Timers) (now : ℤ) : Option Timers := do
  let front ← s.queuedTimers.begin
  let (queuedTimers, _) ← s.queuedTimers.removeFront
  match (s.queuedTimers.mem front).value with
  | some timer => do
    let impl ← s.timers.lookup timer
    let executionTime := impl.executionTime + impl.interval
    let (queuedTimers, _) ← MultiMap.insert queuedTimers executionTime (some timer)
    some ⟨queuedTimers, s.timers.map fun e =>
      if e.1 = timer then (timer, { e.2 with executionTime := executionTime }) else e⟩
  | none => do
    let (queuedTimers, _) ← MultiMap.insert queuedTimers (now + 300 * 1000) none
    some ⟨queuedTimers, s.timers⟩

/-- The part of `clear` that is about timers. -/
def clear (s : Timers) : Option Timers := do
  let queuedTimers ← s.queuedTimers.clear
  let (queuedTimers, _) ← MultiMap.insert queuedTimers 0 none
  some ⟨queuedTimers, []⟩

/-! ## What the queue has to be -/

/-- The timers in the queue, each with the key of its entry. -/
def queued (l : List (ℤ × Option ℕ)) : List (ℕ × ℤ) :=
  l.filterMap fun e => e.2.map fun timer => (timer, e.1)

/-- The queue is a valid multimap that holds every live timer exactly once, under its execution
time, and exactly one entry without a timer; the timers of the pool are all different. -/
structure Matches (s : Timers) : Prop where
  queue : ∃ t free, MultiMap.IsMultiMap s.queuedTimers t free
  live : (queued s.queuedTimers.contents).Perm (s.timers.map fun e => (e.1, e.2.executionTime))
  default : s.queuedTimers.contents.countP (fun e => e.2 = none) = 1
  pool : (s.timers.map Prod.fst).Nodup

/-- An operation, with what it depends on besides the state. -/
inductive Op
  | time (ticks interval : ℤ) (timer : ℕ)
  | remove (timer : ℕ)
  | dispatch (now : ℤ)
  | clear

/-- The first entry of the queue is due. -/
def Due (s : Timers) (now : ℤ) : Prop :=
  match s.queuedTimers.begin with
  | some front => (s.queuedTimers.mem front).key - now ≤ 0
  | none => False

instance (s : Timers) (now : ℤ) : Decidable (s.Due now) := by
  unfold Due
  split <;> infer_instance

namespace Op

/-- When an operation can happen: the pool hands out memory that is not in use, only live timers
are removed, and the loop makes a turn only when the first entry is due. -/
def Allowed (s : Timers) : Op → Prop
  | time _ _ timer => timer ∉ s.timers.map Prod.fst
  | remove timer => timer ∈ s.timers.map Prod.fst
  | dispatch now => s.Due now
  | clear => True

instance (s : Timers) : DecidablePred (Op.Allowed s) := fun op => by
  cases op <;> unfold Allowed <;> infer_instance

def exec (s : Timers) : Op → Option Timers
  | time ticks interval timer => s.time ticks interval timer
  | remove timer => s.remove timer
  | dispatch now => s.dispatch now
  | clear => s.clear

end Op

/-- The states that allowed operations meeting `ok` lead to. -/
inductive Reaches (ok : Timers → Op → Prop) : Timers → Prop
  | initial {s : Timers} : initial = some s → Reaches ok s
  | step {s s' : Timers} {op : Op} : Reaches ok s → op.Allowed s → ok s op → op.exec s = some s' →
      Reaches ok s'

/-- The entries of the queue from the one on at which the search of `remove` ends. -/
def searched (s : Timers) (timer : ℕ) : List ℕ :=
  match s.timers.lookup timer with
  | none => []
  | some impl =>
    match s.queuedTimers.find impl.executionTime with
    | none => []
    | some found => s.queuedTimers.items.dropWhile fun i => i ≠ found

/-- A removal meets it when the entry of the timer is where the search ends or behind that. -/
def FindsInTime (s : Timers) : Op → Prop
  | .remove timer => ∃ i ∈ s.searched timer, (s.queuedTimers.mem i).value = some timer
  | _ => True

instance (s : Timers) : DecidablePred (FindsInTime s) := fun op => by
  cases op <;> unfold FindsInTime <;> infer_instance

/-! ## The operations keep the queue in step -/

lemma queued_cons_some (timer : ℕ) (key : ℤ) (l : List (ℤ × Option ℕ)) :
    queued ((key, some timer) :: l) = (timer, key) :: queued l := rfl

lemma queued_perm {l l' : List (ℤ × Option ℕ)} (h : l.Perm l') : (queued l).Perm (queued l') :=
  h.filterMap _

lemma lookup_of_mem {l : List (ℕ × TimerImpl)} {timer : ℕ} {impl : TimerImpl}
    (hl : (l.map Prod.fst).Nodup) (h : (timer, impl) ∈ l) : l.lookup timer = some impl := by
  induction l with
  | nil => simp at h
  | cons e l ih =>
    rw [List.map_cons, List.nodup_cons] at hl
    rw [List.lookup_cons]
    rcases List.mem_cons.mp h with rfl | h
    · simp
    · have hne : (timer == e.1) = false := by
        rw [beq_eq_false_iff_ne]
        rintro rfl
        exact hl.1 (List.mem_map.mpr ⟨_, h, rfl⟩)
      rw [hne, ih hl.2 h]

/-- The constructor. -/
theorem initial_matches : ∃ s, initial = some s ∧ s.Matches := by
  have hempty : MultiMap.IsMultiMap (ItemTree.empty : ItemTree ℤ (Option ℕ)) nil [] :=
    ⟨valid_empty, List.Pairwise.nil⟩
  obtain ⟨q, a, hrun, ha⟩ := MultiMap.insert_spec hempty 0 none
  have hperm := MultiMap.perm_of_added hempty ha
  obtain ⟨t', free', l₁, l₂, hq, -⟩ := ha.isMultiMap
  have hc : (ItemTree.empty : ItemTree ℤ (Option ℕ)).contents = [] := rfl
  rw [hc] at hperm
  refine ⟨⟨q, []⟩, by rw [initial, hrun]; rfl, ⟨t', free', hq⟩, queued_perm hperm, ?_, List.nodup_nil⟩
  rw [hperm.countP_eq]
  rfl

/-- A new timer. -/
theorem time_spec {s : Timers} (hs : s.Matches) (ticks interval : ℤ) {timer : ℕ}
    (hnew : timer ∉ s.timers.map Prod.fst) :
    ∃ s', s.time ticks interval timer = some s' ∧ s'.Matches
      ∧ s'.queuedTimers.contents.Perm ((ticks + interval, some timer) :: s.queuedTimers.contents)
      ∧ s'.timers = s.timers ++ [(timer, ⟨ticks + interval, interval⟩)] := by
  obtain ⟨t, free, hq⟩ := hs.queue
  obtain ⟨q, a, hrun, ha⟩ := MultiMap.insert_spec hq (ticks + interval) (some timer)
  have hperm := MultiMap.perm_of_added hq ha
  obtain ⟨t', free', l₁, l₂, hq', -⟩ := ha.isMultiMap
  refine ⟨⟨q, s.timers ++ [(timer, ⟨ticks + interval, interval⟩)]⟩,
    by simp only [time, hrun, Option.bind_eq_bind, Option.bind_some],
    ⟨⟨t', free', hq'⟩, ?_, ?_, ?_⟩, hperm, rfl⟩
  · refine (queued_perm hperm).trans ?_
    rw [queued_cons_some, List.map_append]
    exact ((hs.live.cons _)).trans (List.perm_append_singleton _ _).symm
  · rw [hperm.countP_eq, List.countP_cons_of_neg (by simp)]
    exact hs.default
  · rw [List.map_append, List.nodup_append]
    refine ⟨hs.pool, by simp, ?_⟩
    intro a ha b hb
    rw [List.map_singleton, List.mem_singleton] at hb
    rintro rfl
    rw [hb] at ha
    exact hnew ha

/-! ### Removing a timer -/

/-- The loop of `remove` reaches the timer's entry if all entries on the way have its key. -/
lemma unqueue_spec {timer : ℕ} {executionTime : ℤ} {q : ItemTree ℤ (Option ℕ)} {t : AvlTree ℕ}
    {free : List ℕ} (hv : Valid q t free) {i : ℕ} {l₂ : List ℕ}
    (hi : (q.mem i).value = some timer) : ∀ (mid : List ℕ) {l₁ : List ℕ} {fuel : ℕ},
    t.inorder = l₁ ++ (mid ++ i :: l₂) → (∀ b ∈ mid, (q.mem b).value ≠ some timer) →
    (∀ b ∈ mid, (q.mem b).key = executionTime) → mid.length < fuel →
    unqueue timer executionTime fuel q (mid ++ i :: l₂).head? = (q.remove i).map Prod.fst := by
  intro mid
  induction mid with
  | nil =>
    intro l₁ fuel ht _ _ hf
    cases fuel with
    | zero => exact absurd hf (Nat.not_lt_zero _)
    | succ fuel =>
      have hne : i ≠ endItem := hv.ne_endItem (Or.inl (by rw [ht]; simp))
      rw [List.nil_append, List.head?_cons, unqueue, if_neg (by simpa using hne)]
      simp only [Option.bind_eq_bind, Option.bind_some, if_pos hi]
      cases q.remove i <;> rfl
  | cons b mid ih =>
    intro l₁ fuel ht hval hkey hf
    cases fuel with
    | zero => exact absurd hf (Nat.not_lt_zero _)
    | succ fuel =>
      have hne : b ≠ endItem := hv.ne_endItem (Or.inl (by rw [ht]; simp))
      have hnext : (q.mem b).next = (mid ++ i :: l₂).head? := by
        rw [hv.next_head (show t.inorder = l₁ ++ b :: (mid ++ i :: l₂) from ht)]
        cases mid <;> rfl
      have hb : (q.mem b).key = executionTime := hkey b (by simp)
      rw [List.cons_append, List.head?_cons, unqueue, if_neg (by simpa using hne)]
      simp only [Option.bind_eq_bind, Option.bind_some, if_neg (hval b (by simp)), hb, ne_eq,
        not_true_eq_false, if_false, hnext]
      exact ih (show t.inorder = (l₁ ++ [b]) ++ (mid ++ i :: l₂) by rw [ht]; simp)
        (fun w hw => hval w (by simp [hw])) (fun w hw => hkey w (by simp [hw])) (Nat.lt_of_succ_lt_succ hf)

/-- Dropping the entry of a timer on both sides. -/
lemma queued_filter {l : List (ℕ × ℤ)} {timers : List (ℕ × TimerImpl)} {timer : ℕ} {key : ℤ}
    (hpool : (timers.map Prod.fst).Nodup)
    (h : ((timer, key) :: l).Perm (timers.map fun e => (e.1, e.2.executionTime))) :
    l.Perm ((timers.filter fun e => e.1 ≠ timer).map fun e => (e.1, e.2.executionTime)) := by
  have hnd : (((timer, key) :: l).map Prod.fst).Nodup := by
    refine (h.map Prod.fst).nodup_iff.mpr ?_
    rwa [List.map_map]
  rw [List.map_cons, List.nodup_cons] at hnd
  have hl : (((timer, key) :: l).filter fun p => p.1 ≠ timer) = l := by
    rw [List.filter_cons_of_neg (by simp), List.filter_eq_self]
    intro p hp
    have hne : p.1 ≠ timer := by
      intro heq
      exact hnd.1 (List.mem_map.mpr ⟨p, hp, heq⟩)
    simpa using hne
  have hfilter := h.filter fun p => p.1 ≠ timer
  rw [hl, List.filter_map] at hfilter
  exact hfilter

/-- A live timer has an entry of its own. -/
lemma Matches.exists_entry {s : Timers} (hs : s.Matches) {t : AvlTree ℕ} {free : List ℕ}
    (hq : MultiMap.IsMultiMap s.queuedTimers t free) {timer : ℕ} {impl : TimerImpl}
    (hmem : (timer, impl) ∈ s.timers) :
    ∃ i ∈ t.inorder, (s.queuedTimers.mem i).value = some timer
      ∧ (s.queuedTimers.mem i).key = impl.executionTime := by
  have hin : (timer, impl.executionTime) ∈ queued s.queuedTimers.contents :=
    hs.live.mem_iff.mpr (List.mem_map.mpr ⟨_, hmem, rfl⟩)
  obtain ⟨e, he, heq⟩ := List.mem_filterMap.mp hin
  rw [MultiMap.contents_eq hq] at he
  obtain ⟨i, hi, rfl⟩ := List.mem_map.mp he
  cases hval : (s.queuedTimers.mem i).value with
  | none => simp [hval] at heq
  | some timer' =>
    simp only [hval, Option.map_some, Option.some.injEq, Prod.mk.injEq] at heq
    obtain ⟨rfl, hkey⟩ := heq
    exact ⟨i, hi, hval, hkey⟩

/-- No other entry is for the same timer. -/
lemma Matches.entry_unique {s : Timers} (hs : s.Matches) {t : AvlTree ℕ} {free l₁ l₂ : List ℕ}
    (hq : MultiMap.IsMultiMap s.queuedTimers t free) {timer i : ℕ}
    (ht : t.inorder = l₁ ++ i :: l₂) (hi : (s.queuedTimers.mem i).value = some timer) :
    ∀ b ∈ l₁ ++ l₂, (s.queuedTimers.mem b).value ≠ some timer := by
  intro b hb hval
  have hnd : ((queued s.queuedTimers.contents).map Prod.fst).Nodup := by
    refine (hs.live.map Prod.fst).nodup_iff.mpr ?_
    rw [List.map_map]
    exact hs.pool
  have hperm : s.queuedTimers.contents.Perm (((s.queuedTimers.mem i).key, some timer)
      :: (l₁ ++ l₂).map fun b => ((s.queuedTimers.mem b).key, (s.queuedTimers.mem b).value)) := by
    rw [MultiMap.contents_eq hq, ht, ← hi, List.map_append, List.map_append, List.map_cons]
    exact List.perm_middle
  have hnd' := ((queued_perm hperm).map Prod.fst).nodup_iff.mp hnd
  rw [queued_cons_some, List.map_cons, List.nodup_cons] at hnd'
  refine hnd'.1 (List.mem_map.mpr ⟨(timer, (s.queuedTimers.mem b).key), ?_, rfl⟩)
  refine List.mem_filterMap.mpr ⟨_, List.mem_map_of_mem (f := fun b =>
    ((s.queuedTimers.mem b).key, (s.queuedTimers.mem b).value)) hb, ?_⟩
  rw [hval]
  rfl

lemma head?_dropWhile_ne {l : List ℕ} {a : ℕ} (h : a ∈ l) :
    (l.dropWhile fun i => i ≠ a).head? = some a := by
  induction l with
  | nil => simp at h
  | cons b l ih =>
    by_cases hb : b = a
    · simp [hb]
    · rw [List.dropWhile_cons_of_pos (by simpa using hb)]
      exact ih ((List.mem_cons.mp h).resolve_left (Ne.symm hb))

/-- **Removing a timer** whose entry the search does not miss. -/
theorem remove_spec {s : Timers} (hs : s.Matches) {timer : ℕ}
    (hlive : timer ∈ s.timers.map Prod.fst) (hok : FindsInTime s (.remove timer)) :
    ∃ s' key, s.remove timer = some s' ∧ s'.Matches
      ∧ s.queuedTimers.contents.Perm ((key, some timer) :: s'.queuedTimers.contents)
      ∧ s'.timers = s.timers.filter fun e => e.1 ≠ timer := by
  obtain ⟨t, free, hq⟩ := hs.queue
  obtain ⟨e, hmem, rfl⟩ := List.mem_map.mp hlive
  have hlookup := lookup_of_mem hs.pool hmem
  obtain ⟨i₀, hi₀, hval₀, hkey₀⟩ := hs.exists_entry hq hmem
  obtain ⟨found, hfind, hfound⟩ := hq.valid.find hq.sorted e.2.executionTime
  obtain ⟨hfound, hfkey⟩ := hfound.resolve_right fun h => h.2 i₀ hi₀ hkey₀
  -- the entry of the timer and the entries the loop comes by before it
  have hsearched : s.searched e.1 = t.inorder.dropWhile fun i => i ≠ found := by
    simp only [searched, hlookup, hfind, hq.valid.items_eq]
  obtain ⟨i, hi, hval⟩ := hok
  rw [hsearched] at hi
  obtain ⟨mid, l₂, hmid⟩ := List.append_of_mem hi
  have hsplit : t.inorder = (t.inorder.takeWhile fun i => i ≠ found) ++ (mid ++ i :: l₂) := by
    rw [← hmid, List.takeWhile_append_dropWhile]
  have hhead : (mid ++ i :: l₂).head? = some found := by
    rw [← hmid]
    exact head?_dropWhile_ne hfound
  have ht : t.inorder = ((t.inorder.takeWhile fun i => i ≠ found) ++ mid) ++ i :: l₂ := by
    rw [List.append_assoc]
    exact hsplit
  have hunique := hs.entry_unique hq ht hval
  have hkey : (s.queuedTimers.mem i).key = e.2.executionTime := by
    rw [ht] at hi₀
    by_cases h : i₀ = i
    · rw [← h]; exact hkey₀
    · refine absurd hval₀ (hunique i₀ ?_)
      simp only [List.mem_append, List.mem_cons] at hi₀ ⊢
      tauto
  have hkeys : ∀ b ∈ mid, (s.queuedTimers.mem b).key = e.2.executionTime := by
    intro b hb
    have hbi := MultiMap.key_le hq _ _ ht (List.mem_append_right _ hb) List.mem_cons_self
    have hfb : (s.queuedTimers.mem found).key ≤ (s.queuedTimers.mem b).key := by
      cases mid with
      | nil => simp at hb
      | cons b₀ mid =>
        obtain rfl : b₀ = found := by simpa using hhead
        rcases List.mem_cons.mp hb with rfl | hb
        · exact le_refl _
        · exact MultiMap.key_le hq (_ ++ [b₀]) (mid ++ i :: l₂)
            (by rw [List.append_assoc]; exact hsplit) (by simp) (by simp [hb])
    rw [hkey] at hbi
    rw [hfkey] at hfb
    exact le_antisymm hbi hfb
  have hlen : mid.length < s.queuedTimers.size + 1 := by
    rw [hq.valid.size, hsplit, List.length_append, List.length_append]
    omega
  have hrun := unqueue_spec hq.valid hval mid hsplit (fun b hb => hunique b (by simp [hb])) hkeys hlen
  rw [hhead] at hrun
  obtain ⟨q, t', hremove, hv', ht', hdata⟩ := hq.valid.remove ht
  have hq' := MultiMap.isMultiMap_of_remove hq ht hv' ht' hdata
  have hperm := MultiMap.perm_of_remove hq hq' ht ht' hdata
  rw [hval, hkey] at hperm
  refine ⟨⟨q, s.timers.filter fun e' => e'.1 ≠ e.1⟩, e.2.executionTime, ?_,
    ⟨⟨t', _, hq'⟩, ?_, ?_, ?_⟩, hperm, rfl⟩
  · simp only [remove, hlookup, hfind, hrun, hremove, Option.bind_eq_bind, Option.bind_some,
      Option.map_some]
  · exact queued_filter hs.pool ((queued_perm hperm).symm.trans hs.live)
  · have hdef := hs.default
    rw [hperm.countP_eq, List.countP_cons_of_neg (by simp)] at hdef
    exact hdef
  · exact hs.pool.sublist ((List.filter_sublist).map _)

/-! ### Dispatching -/

/-- Changing the execution time of one timer on both sides. -/
lemma queued_update {l : List (ℕ × ℤ)} {timers : List (ℕ × TimerImpl)} {timer : ℕ}
    {key key' : ℤ} (hpool : (timers.map Prod.fst).Nodup)
    (h : ((timer, key) :: l).Perm (timers.map fun e => (e.1, e.2.executionTime))) :
    ((timer, key') :: l).Perm ((timers.map fun e =>
      if e.1 = timer then (timer, { e.2 with executionTime := key' }) else e).map
        fun e => (e.1, e.2.executionTime)) := by
  have hnd : (((timer, key) :: l).map Prod.fst).Nodup := by
    refine (h.map Prod.fst).nodup_iff.mpr ?_
    rwa [List.map_map]
  rw [List.map_cons, List.nodup_cons] at hnd
  have hmap := h.map fun p => if p.1 = timer then (timer, key') else p
  rw [List.map_cons, if_pos rfl, List.map_map] at hmap
  have hl : l.map (fun p => if p.1 = timer then (timer, key') else p) = l := by
    refine (List.map_congr_left ?_).trans (List.map_id l)
    intro p hp
    rw [if_neg]
    · rfl
    · intro heq
      exact hnd.1 (List.mem_map.mpr ⟨p, hp, heq⟩)
  rw [hl] at hmap
  rw [List.map_map]
  convert hmap using 1
  apply List.map_congr_left
  intro e _
  simp only [Function.comp_apply]
  split <;> rfl

/-- What one turn does to the entries: the first of them, `front`, is put back with a new key. -/
inductive Dispatched (s s' : Timers) (now : ℤ) : ℤ × Option ℕ → List (ℤ × Option ℕ) → Prop
  | timer {timer : ℕ} {impl : TimerImpl} {rest : List (ℤ × Option ℕ)} : (timer, impl) ∈ s.timers →
      s'.queuedTimers.contents.Perm ((impl.executionTime + impl.interval, some timer) :: rest) →
      (s'.timers = s.timers.map fun e => if e.1 = timer then
        (timer, { e.2 with executionTime := impl.executionTime + impl.interval }) else e) →
      Dispatched s s' now (impl.executionTime, some timer) rest
  | default {key : ℤ} {rest : List (ℤ × Option ℕ)} :
      s'.queuedTimers.contents.Perm ((now + 300 * 1000, none) :: rest) → s'.timers = s.timers →
      Dispatched s s' now (key, none) rest

/-- **One turn of the dispatch loop.** -/
theorem dispatch_spec {s : Timers} (hs : s.Matches) (now : ℤ) :
    ∃ s' front rest, s.dispatch now = some s' ∧ s'.Matches
      ∧ s.queuedTimers.contents = front :: rest ∧ Dispatched s s' now front rest := by
  obtain ⟨t, free, hq⟩ := hs.queue
  cases ht : t.inorder with
  | nil =>
    have hdef := hs.default
    rw [MultiMap.contents_eq hq, ht] at hdef
    exact absurd hdef (by simp)
  | cons front l =>
    have hbegin : s.queuedTimers.begin = some front := hq.valid.begin_eq (by rw [ht]; rfl)
    obtain ⟨q, t', hremove, hv', ht', hdata⟩ := hq.valid.removeFront ht
    have hsplit : t.inorder = [] ++ front :: l := ht
    have hq' := MultiMap.isMultiMap_of_remove hq hsplit hv' ht' hdata
    have hperm := MultiMap.perm_of_remove hq hq' hsplit ht' hdata
    have hfront : s.queuedTimers.contents = ((s.queuedTimers.mem front).key,
        (s.queuedTimers.mem front).value) :: l.map fun b =>
          ((s.queuedTimers.mem b).key, (s.queuedTimers.mem b).value) := by
      rw [MultiMap.contents_eq hq, ht, List.map_cons]
    have hrest : q.contents.Perm (l.map fun b =>
        ((s.queuedTimers.mem b).key, (s.queuedTimers.mem b).value)) :=
      (hperm.symm.trans (List.Perm.of_eq hfront)).cons_inv
    cases hval : (s.queuedTimers.mem front).value with
    | some timer =>
      rw [hval] at hperm
      have hlive := (queued_perm hperm).symm.trans hs.live
      rw [queued_cons_some] at hlive
      obtain ⟨e, hmem, he⟩ := List.mem_map.mp (hlive.mem_iff.mp List.mem_cons_self)
      obtain ⟨rfl, hkey⟩ := Prod.mk.inj he
      have hlookup := lookup_of_mem hs.pool hmem
      obtain ⟨q₂, a, hinsert, ha⟩ :=
        MultiMap.insert_spec hq' (e.2.executionTime + e.2.interval) (some e.1)
      have hperm₂ := MultiMap.perm_of_added hq' ha
      obtain ⟨t₂, free₂, _, _, hq₂, -⟩ := ha.isMultiMap
      refine ⟨⟨q₂, s.timers.map fun e' => if e'.1 = e.1 then
        (e.1, { e'.2 with executionTime := e.2.executionTime + e.2.interval }) else e'⟩, _, _,
        ?_, ⟨⟨t₂, free₂, hq₂⟩, ?_, ?_, ?_⟩, hfront, ?_⟩
      · simp only [dispatch, hbegin, hremove, hval, hlookup, hinsert, Option.bind_eq_bind,
          Option.bind_some]
      · exact (queued_perm hperm₂).trans (queued_update hs.pool hlive)
      · have hdef := hs.default
        rw [hperm.countP_eq, List.countP_cons_of_neg (by simp)] at hdef
        rw [hperm₂.countP_eq, List.countP_cons_of_neg (by simp)]
        exact hdef
      · rw [List.map_map]
        convert hs.pool using 1
        apply List.map_congr_left
        intro e' _
        simp only [Function.comp_apply]
        split
        · next h => exact h.symm
        · rfl
      · rw [hval, ← hkey]
        exact .timer hmem (hperm₂.trans (hrest.cons _)) rfl
    | none =>
      rw [hval] at hperm
      obtain ⟨q₂, a, hinsert, ha⟩ := MultiMap.insert_spec hq' (now + 300 * 1000) none
      have hperm₂ := MultiMap.perm_of_added hq' ha
      obtain ⟨t₂, free₂, _, _, hq₂, -⟩ := ha.isMultiMap
      refine ⟨⟨q₂, s.timers⟩, _, _, ?_, ⟨⟨t₂, free₂, hq₂⟩, ?_, ?_, hs.pool⟩, hfront, ?_⟩
      · simp only [dispatch, hbegin, hremove, hval, hinsert, Option.bind_eq_bind,
          Option.bind_some]
      · exact (queued_perm hperm₂).trans ((queued_perm hperm).symm.trans hs.live)
      · have hdef := hs.default
        rw [hperm.countP_eq, List.countP_cons_of_pos (by simp)] at hdef
        rw [hperm₂.countP_eq, List.countP_cons_of_pos (by simp)]
        exact hdef
      · rw [hval]
        exact .default (hperm₂.trans (hrest.cons _)) rfl

/-- Clearing. -/
theorem clear_spec {s : Timers} (hs : s.Matches) :
    ∃ s', s.clear = some s' ∧ s'.Matches ∧ s'.queuedTimers.contents = [(0, none)]
      ∧ s'.timers = [] := by
  obtain ⟨t, free, hq⟩ := hs.queue
  obtain ⟨q, free₁, hclear, hv⟩ := hq.valid.clear
  have hq₁ : MultiMap.IsMultiMap q nil free₁ := ⟨hv, List.Pairwise.nil⟩
  obtain ⟨q₂, a, hinsert, ha⟩ := MultiMap.insert_spec hq₁ 0 none
  have hperm := MultiMap.perm_of_added hq₁ ha
  obtain ⟨t₂, free₂, _, _, hq₂, -⟩ := ha.isMultiMap
  have hc : q.contents = [] := MultiMap.contents_eq hq₁
  rw [hc] at hperm
  refine ⟨⟨q₂, []⟩, ?_, ⟨⟨t₂, free₂, hq₂⟩, queued_perm hperm, ?_, List.nodup_nil⟩,
    List.perm_singleton.mp hperm, rfl⟩
  · simp only [clear, hclear, hinsert, Option.bind_eq_bind, Option.bind_some]
  · rw [hperm.countP_eq]
    rfl

/-! ## Runs -/

/-- Operations one after the other, each of them checked before it runs. -/
def run (ok : Timers → Op → Prop) [∀ s, DecidablePred (ok s)] : List Op → Timers → Option Timers
  | [], s => some s
  | op :: ops, s => if op.Allowed s ∧ ok s op then (op.exec s).bind (run ok ops) else none

lemma reaches_of_run {ok : Timers → Op → Prop} [∀ s, DecidablePred (ok s)] {ops : List Op}
    {s s' : Timers} (h : Reaches ok s) (hrun : run ok ops s = some s') : Reaches ok s' := by
  induction ops generalizing s with
  | nil =>
    obtain rfl : s = s' := by simpa [run] using hrun
    exact h
  | cons op ops ih =>
    rw [run] at hrun
    split_ifs at hrun with hop
    obtain ⟨s₁, hs₁, hrun₁⟩ := Option.bind_eq_some_iff.mp hrun
    exact ih (h.step hop.1 hop.2 hs₁) hrun₁

/-- The states the constructor and some operations lead to. -/
lemma exists_reaches (ok : Timers → Op → Prop) [∀ s, DecidablePred (ok s)] (ops : List Op)
    {r : List (ℤ × Option ℕ) × List (ℕ × TimerImpl)}
    (h : (initial.bind (run ok ops)).map (fun s => (s.queuedTimers.contents, s.timers)) = some r) :
    ∃ s, Reaches ok s ∧ s.queuedTimers.contents = r.1 ∧ s.timers = r.2 := by
  obtain ⟨s', hs', rfl⟩ := Option.map_eq_some_iff.mp h
  obtain ⟨s, hs, hrun⟩ := Option.bind_eq_some_iff.mp hs'
  exact ⟨s', reaches_of_run (.initial hs) hrun, rfl, rfl⟩

end Timers

end Nstd
