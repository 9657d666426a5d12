import Nstd.Container.LinkedListRuns

/-!
# A list that is given to itself

* `insertListWithin` — `insert` of a list, with any fuel for its loop; `assign` — `operator=`.
* `insertFrom_never` — the loop that walks towards its own insertions, whatever the fuel.
* `insertFrom_behind` — the loop that walks away from them.
* **`insertList_iff`** — inserting a list is right just when it is another one, or empty.
* `assign_other`, `assign_self` — what an assignment leaves.
-/

namespace Nstd.LinkedList

open Linked
open Entries
open State

variable {V : Type}

namespace State

/-- `Iterator insert(const Iterator& position, const List& list)`, whose loop takes fewer than so many
    turns -/
def insertListWithin (fuel : ℕ) (s : State V) (this : ℕ) (position : Addr) (list : ℕ) :
    Option (State V × Addr) :=
  match s.prev (.endItem list) with
  | none => some (s, position)
  | some _ => do
    let value ← s.value (s.list list).begin
    let (s, result) ← s.insert this position value
    let next ← s.next (s.list list).begin
    let s ← insertFrom this position (.endItem list) fuel s next
    some (s, result)

/-- `operator=` -/
def assign (s : State V) (this other : ℕ) : Option (State V) := do
  let s ← s.clear this
  insertFrom this (.endItem this) (.endItem other) ((s.list other).size + 1) s (s.list other).begin

/-- More fuel does no harm. -/
lemma insertFrom_mono {this : ℕ} {position last : Addr} {fuel : ℕ} : ∀ {fuel' : ℕ} {s s' : State V}
    {i : Addr}, fuel ≤ fuel' → insertFrom this position last fuel s i = some s' →
    insertFrom this position last fuel' s i = some s' := by
  induction fuel with
  | zero => exact fun _ h => absurd h.symm (Option.some_ne_none _)
  | succ fuel ih =>
    intro fuel' s s' i hle h
    cases fuel' with
    | zero => exact absurd hle (Nat.not_succ_le_zero _)
    | succ fuel' =>
      rw [insertFrom] at h ⊢
      by_cases hi : i = last
      · rwa [if_pos hi] at h ⊢
      · rw [if_neg hi] at h ⊢
        obtain ⟨value, hvalue, h⟩ := Option.bind_eq_some_iff.mp h
        obtain ⟨⟨s₁, item⟩, hinsert, h⟩ := Option.bind_eq_some_iff.mp h
        obtain ⟨next, hnext, h⟩ := Option.bind_eq_some_iff.mp h
        simp only [hvalue, hinsert, hnext, Option.bind_eq_bind, Option.bind_some]
        exact ih (Nat.le_of_succ_le_succ hle) h

lemma insertListWithin_mono {fuel fuel' this list : ℕ} {position : Addr} {s : State V}
    {x : State V × Addr} (hle : fuel ≤ fuel')
    (h : s.insertListWithin fuel this position list = some x) :
    s.insertListWithin fuel' this position list = some x := by
  rw [insertListWithin] at h ⊢
  cases hlast : s.prev (.endItem list) with
  | none => rwa [hlast] at h
  | some last =>
    rw [hlast] at h
    obtain ⟨value, hvalue, h⟩ := Option.bind_eq_some_iff.mp h
    obtain ⟨⟨s₁, item⟩, hinsert, h⟩ := Option.bind_eq_some_iff.mp h
    obtain ⟨next, hnext, h⟩ := Option.bind_eq_some_iff.mp h
    obtain ⟨s', hrun, h⟩ := Option.bind_eq_some_iff.mp h
    simp only [hvalue, hinsert, hnext, insertFrom_mono hle hrun, Option.bind_eq_bind,
      Option.bind_some]
    exact h

/-- The loop has some fuel. -/
lemma insertList_within {s s' : State V} {this list : ℕ} {position it : Addr}
    (h : s.insertList this position list = some (s', it)) :
    ∃ fuel, s.insertListWithin fuel this position list = some (s', it) := by
  rw [insertList] at h
  cases hlast : s.prev (.endItem list) with
  | none =>
    rw [hlast] at h
    exact ⟨0, by rw [insertListWithin, hlast]; exact h⟩
  | some last =>
    rw [hlast] at h
    obtain ⟨value, hvalue, h⟩ := Option.bind_eq_some_iff.mp h
    obtain ⟨⟨s₁, item⟩, hinsert, h⟩ := Option.bind_eq_some_iff.mp h
    refine ⟨(s₁.list list).size, ?_⟩
    rw [insertListWithin, hlast]
    simp only [hvalue, hinsert, Option.bind_eq_bind, Option.bind_some]
    exact h

end State

namespace Refines

variable {s : State V} {r : Reference V} {this : ℕ}

/-- The item of an entry -/
lemma value_eq (h : Refines s r) (hthis : this < s.lists) {e : Item V} (he : e ∈ r.entries this) :
    s.value e.name = some e.key ∧ ∀ x, e.name ≠ .endItem x := by
  obtain ⟨free, hholds⟩ := h.holds this hthis
  exact ⟨hholds.values e he, hholds.ne_endItem (List.mem_append_left _ (List.mem_map_of_mem he))⟩

/-- Where the list is split -/
lemma position_split {position : Addr} {l₁ l₂ : List (Item V)} {rest : List Addr}
    (hl : r.entries this = l₁ ++ l₂)
    (hrest : names l₂ ++ [Addr.endItem this] = position :: rest) :
    position ∈ names (r.entries this) ∨ position = .endItem this := by
  cases l₂ with
  | nil => exact Or.inr (List.cons.inj hrest).1.symm
  | cons e l₂ =>
    obtain ⟨rfl, -⟩ := List.cons.inj hrest
    exact Or.inl (by rw [hl, names_append]; simp [names])

/-- **One value** is inserted where the list is split. -/
lemma insert_split (h : Refines s r) (hthis : this < s.lists) {position : Addr}
    {l₁ l₂ : List (Item V)} {rest : List Addr} (hl : r.entries this = l₁ ++ l₂)
    (hrest : names l₂ ++ [Addr.endItem this] = position :: rest) (value : V) :
    ∃ s' item, s.insert this position value = some (s', item)
      ∧ Refines s' (r.set this (l₁ ++ ⟨item, value, ()⟩ :: l₂)) ∧ s'.lists = s.lists := by
  obtain ⟨free, hholds⟩ := h.holds this hthis
  have hnd := (List.nodup_append.mp (hholds.nodup (h.owned.nodup hthis))).1
  have hend : Addr.endItem this ∉ names (r.entries this) := fun hmem =>
    hholds.ne_endItem (List.mem_append_left _ hmem) this rfl
  obtain ⟨s', item, hrun, -, hs', hlists⟩ := h.insert_step hthis (position_split hl hrest) value
  rw [hl] at hnd hend hs'
  rw [insertBefore_split _ hrest hnd hend] at hs'
  exact ⟨s', item, hrun, hs', hlists⟩

/-- **A walk towards its own insertions.**  As long as there is an item between the walk and the
    position there will be one, and the loop never ends. -/
lemma insertFrom_never {position : Addr} (fuel : ℕ) : ∀ {s : State V} {r : Reference V}
    {l₁ mid l₂ : List (Item V)} {e : Item V} {rest : List Addr}, Refines s r → this < s.lists →
    r.entries this = l₁ ++ e :: (mid ++ l₂) → names l₂ ++ [Addr.endItem this] = position :: rest →
    insertFrom this position (.endItem this) fuel s e.name = none := by
  induction fuel with
  | zero => exact fun _ _ _ _ => rfl
  | succ fuel ih =>
    intro s r l₁ mid l₂ e rest h hthis hl hrest
    obtain ⟨hvalue, hend⟩ := h.value_eq hthis (show e ∈ r.entries this from hl ▸ by simp)
    obtain ⟨s₁, item, hrun, h₁, hlists⟩ := h.insert_split hthis
      (show r.entries this = (l₁ ++ e :: mid) ++ l₂ by rw [hl]; simp) hrest e.key
    have hthis₁ : this < s₁.lists := hlists ▸ hthis
    obtain ⟨e₁, mid₁, hmid⟩ : ∃ e₁ mid₁, mid ++ [⟨item, e.key, ()⟩] = e₁ :: mid₁ :=
      List.exists_cons_of_ne_nil (by simp)
    have hl₁ : (r.set this ((l₁ ++ e :: mid) ++ ⟨item, e.key, ()⟩ :: l₂)).entries this
        = (l₁ ++ [e]) ++ e₁ :: (mid₁ ++ l₂) := by
      rw [EntryLists.set_self, ← List.cons_append, ← hmid]
      simp
    have hsplit : (r.set this ((l₁ ++ e :: mid) ++ ⟨item, e.key, ()⟩ :: l₂)).entries this
        = l₁ ++ e :: (e₁ :: (mid₁ ++ l₂)) := by
      rw [hl₁]
      simp
    have hnext : s₁.next e.name = some e₁.name := h₁.next_eq hthis₁ hsplit rfl
    rw [insertFrom, if_neg (hend this), hvalue]
    simp only [Option.bind_eq_bind, Option.bind_some, hrun, hnext]
    exact ih h₁ hthis₁ hl₁ hrest

/-- **A walk away from its own insertions** reads the values that were there before. -/
lemma insertFrom_behind {position : Addr} {k : List (Item V)} : ∀ {s : State V} {r : Reference V}
    {l₁ k₀ : List (Item V)} {i : Addr} {rest tail : List Addr} {fuel : ℕ}, Refines s r →
    this < s.lists → r.entries this = l₁ ++ (k₀ ++ k) →
    names (k₀ ++ k) ++ [Addr.endItem this] = position :: rest →
    names k ++ [Addr.endItem this] = i :: tail → k.length < fuel →
    ∃ s' new, insertFrom this position (.endItem this) fuel s i = some s'
      ∧ new.map Entry.key = k.map Entry.key
      ∧ Refines s' (r.set this (l₁ ++ (new ++ (k₀ ++ k)))) := by
  induction k with
  | nil =>
    intro s r l₁ k₀ i rest tail fuel h hthis hl hrest hi hfuel
    obtain ⟨rfl, -⟩ := List.cons.inj hi
    cases fuel with
    | zero => exact absurd hfuel (Nat.lt_irrefl 0)
    | succ fuel =>
      refine ⟨s, [], if_pos rfl, rfl, ?_⟩
      rw [List.nil_append, ← hl, EntryLists.set_entries]
      exact h
  | cons e k ih =>
    intro s r l₁ k₀ i rest tail fuel h hthis hl hrest hi hfuel
    obtain ⟨rfl, rfl⟩ := List.cons.inj hi
    obtain ⟨hvalue, hend⟩ := h.value_eq hthis (show e ∈ r.entries this from hl ▸ by simp)
    obtain ⟨s₁, item, hrun, h₁, hlists⟩ := h.insert_split hthis hl hrest e.key
    have hthis₁ : this < s₁.lists := hlists ▸ hthis
    have hl₁ : (r.set this (l₁ ++ ⟨item, e.key, ()⟩ :: (k₀ ++ e :: k))).entries this
        = (l₁ ++ [⟨item, e.key, ()⟩]) ++ ((k₀ ++ [e]) ++ k) := by
      rw [EntryLists.set_self]
      simp
    obtain ⟨next, tail, htail⟩ : ∃ next tail, names k ++ [Addr.endItem this] = next :: tail :=
      List.exists_cons_of_ne_nil (by simp)
    have hsplit : (r.set this (l₁ ++ ⟨item, e.key, ()⟩ :: (k₀ ++ e :: k))).entries this
        = (l₁ ++ ⟨item, e.key, ()⟩ :: k₀) ++ e :: k := by
      rw [hl₁]
      simp
    have hnext : s₁.next e.name = some next := h₁.next_eq hthis₁ hsplit htail
    cases fuel with
    | zero => exact absurd hfuel (Nat.not_lt_zero _)
    | succ fuel =>
      obtain ⟨s', new, hrun', hkeys, hs'⟩ := ih h₁ hthis₁ hl₁
        (by rw [List.append_assoc]; exact hrest) htail (Nat.lt_of_succ_lt_succ hfuel)
      refine ⟨s', ⟨item, e.key, ()⟩ :: new, ?_, ?_, ?_⟩
      · rw [insertFrom, if_neg (hend this), hvalue]
        simp only [Option.bind_eq_bind, Option.bind_some, hrun, hnext, hrun']
      · rw [List.map_cons, List.map_cons, hkeys]
      · rw [EntryLists.set_set] at hs'
        simpa using hs'

/-- An object that is not empty knows its last item. -/
lemma last_some (h : Refines s r) (hthis : this < s.lists) {e : Item V} {l : List (Item V)}
    (hl : r.entries this = e :: l) :
    (∃ q, s.prev (.endItem this) = some q) ∧ (s.list this).begin = e.name := by
  obtain ⟨free, hholds⟩ := h.holds this hthis
  have hlast : s.prev (.endItem this) = endOf none (names (r.entries this)) := hholds.chain.prev_eq
  rw [hlast, endOf_none, hl, h.begin_eq hthis, hl]
  exact ⟨⟨_, List.getLast?_eq_some_getLast (List.cons_ne_nil _ _)⟩, rfl⟩

/-- **Behind its first item** a list that is not empty is inserted into itself for ever. -/
lemma insertList_never (h : Refines s r) (hthis : this < s.lists) {position : Addr}
    {e : Item V} {l₁ l₂ : List (Item V)} {rest : List Addr} (hl : r.entries this = e :: (l₁ ++ l₂))
    (hrest : names l₂ ++ [Addr.endItem this] = position :: rest) (fuel : ℕ) :
    s.insertListWithin fuel this position this = none := by
  obtain ⟨⟨q, hq⟩, hbegin⟩ := h.last_some hthis hl
  obtain ⟨hvalue, -⟩ := h.value_eq hthis (show e ∈ r.entries this from hl ▸ List.mem_cons_self)
  obtain ⟨s₁, item, hrun, h₁, hlists⟩ := h.insert_split hthis
    (show r.entries this = (e :: l₁) ++ l₂ from hl) hrest e.key
  have hthis₁ : this < s₁.lists := hlists ▸ hthis
  obtain ⟨e₁, mid, hmid⟩ : ∃ e₁ mid, l₁ ++ [⟨item, e.key, ()⟩] = e₁ :: mid :=
    List.exists_cons_of_ne_nil (by simp)
  have hl₁ : (r.set this ((e :: l₁) ++ ⟨item, e.key, ()⟩ :: l₂)).entries this
      = [e] ++ e₁ :: (mid ++ l₂) := by
    rw [EntryLists.set_self, ← List.cons_append, ← hmid]
    simp
  obtain ⟨-, hbegin₁⟩ := h₁.last_some hthis₁ hl₁
  have hnext : s₁.next e.name = some e₁.name :=
    h₁.next_eq hthis₁ (show _ = [] ++ e :: (e₁ :: (mid ++ l₂)) from hl₁) rfl
  rw [insertListWithin, hq]
  simp only [hbegin, hvalue, Option.bind_eq_bind, Option.bind_some, hrun, hbegin₁, hnext,
    h₁.insertFrom_never fuel hthis₁ hl₁ hrest, Option.bind_none]

/-- **Before its first item** a list gets one value too many: the first one is the first again when
    the loop begins. -/
lemma insertList_front (h : Refines s r) (hthis : this < s.lists) {e : Item V} {l : List (Item V)}
    (hl : r.entries this = e :: l) : ∃ fuel s' it new,
      s.insertListWithin fuel this e.name this = some (s', it)
      ∧ new.map Entry.key = e.key :: (e :: l).map Entry.key
      ∧ Refines s' (r.set this (new ++ e :: l)) := by
  obtain ⟨⟨q, hq⟩, hbegin⟩ := h.last_some hthis hl
  obtain ⟨hvalue, -⟩ := h.value_eq hthis (show e ∈ r.entries this from hl ▸ List.mem_cons_self)
  obtain ⟨s₁, item, hrun, h₁, hlists⟩ := h.insert_split hthis
    (show r.entries this = [] ++ e :: l from hl) rfl e.key
  have hthis₁ : this < s₁.lists := hlists ▸ hthis
  have hl₁ : (r.set this ([] ++ ⟨item, e.key, ()⟩ :: e :: l)).entries this
      = [⟨item, e.key, ()⟩] ++ ([] ++ e :: l) := EntryLists.set_self ..
  obtain ⟨-, hbegin₁⟩ := h₁.last_some hthis₁ hl₁
  have hnext : s₁.next item = some e.name :=
    h₁.next_eq hthis₁ (show _ = [] ++ (⟨item, e.key, ()⟩ : Item V) :: e :: l from hl₁) rfl
  obtain ⟨s', new, hrun', hkeys, hs'⟩ :=
    h₁.insertFrom_behind hthis₁ hl₁ rfl rfl (Nat.lt_succ_self _)
  refine ⟨(e :: l).length + 1, s', item, ⟨item, e.key, ()⟩ :: new, ?_,
    by rw [List.map_cons, hkeys], ?_⟩
  · rw [insertListWithin, hq]
    simp only [hbegin, hvalue, Option.bind_eq_bind, Option.bind_some, hrun, hbegin₁, hnext, hrun']
  · rw [EntryLists.set_set] at hs'
    exact hs'

end Refines

/-! ## What is right -/

/-- **What inserting a list is for**: it ends, with the values that the other list has now, before the
    position, and nothing else is changed; the iterator is at the first of them. -/
def Inserting (s : State V) (r : Reference V) (this : ℕ) (position : Addr) (list : ℕ) : Prop :=
  ∃ fuel s' it r', s.insertListWithin fuel this position list = some (s', it)
    ∧ r.Inserts this position ((r.entries list).map Entry.key) (some it) r' ∧ Refines s' r'

lemma length_insertBefore {position : Addr} {e : Item V} (l : List (Item V)) :
    (insertBefore position e l).length = l.length + 1 := by
  induction l with
  | nil => rfl
  | cons e' l ih =>
    rw [insertBefore]
    split
    · rfl
    · rw [List.length_cons, ih, List.length_cons]

lemma length_insertAll {position : Addr} {new : List (Item V)} (l : List (Item V)) :
    (insertAll position new l).length = l.length + new.length := by
  induction new generalizing l with
  | nil => rfl
  | cons e new ih =>
    rw [insertAll, List.foldl_cons]
    change (insertAll position new _).length = _
    rw [ih, length_insertBefore, List.length_cons]
    omega

namespace Refines

variable {s : State V} {r : Reference V} {this : ℕ}

lemma length_eq (h : Refines s r) (hthis : this < s.lists) :
    (s.list this).size = (r.entries this).length := by
  obtain ⟨free, hholds⟩ := h.holds this hthis
  exact hholds.size

/-- Nothing is inserted if there is nothing. -/
lemma insertList_empty (h : Refines s r) {list : ℕ} (hlist : list < s.lists)
    (hnil : r.entries list = []) (position : Addr) :
    s.insertListWithin 0 this position list = some (s, position)
      ∧ r.Inserts this position ((r.entries list).map Entry.key) (some position) r := by
  obtain ⟨free, hholds⟩ := h.holds list hlist
  have hlast : s.prev (.endItem list) = none := by
    have hprev := hholds.chain.prev_eq
    rwa [hnil] at hprev
  refine ⟨by rw [insertListWithin, hlast], [], by rw [hnil, List.map_nil], List.nodup_nil,
    fun a ha => absurd ha List.not_mem_nil, rfl, ?_⟩
  rw [insertAll, List.foldl_nil, EntryLists.set_entries]

/-- A list that is not empty is not inserted into itself as it should be, wherever that is. -/
lemma not_inserting (h : Refines s r) (hthis : this < s.lists) {position : Addr}
    (hposition : Position s this position) (hne : r.entries this ≠ []) :
    ¬ Inserting s r this position this := by
  rintro ⟨fuel, s', it, r', hrun, ⟨new, hkeys, -, -, -, rfl⟩, hs'⟩
  obtain ⟨l₁, l₂, rest, hl, hrest, -⟩ := h.split hthis (h.position hthis hposition)
  cases l₁ with
  | cons e l₁ => 
      rw [h.insertList_never hthis hl hrest fuel] at hrun
      exact Option.some_ne_none _ hrun.symm
  | nil =>
    cases l₂ with
    | nil => exact hne hl
    | cons e l =>
      obtain ⟨rfl, -⟩ := List.cons.inj hrest
      obtain ⟨fuel', s'', it', new', hrun', hkeys', hs''⟩ := h.insertList_front hthis hl
      have hmax := insertListWithin_mono (Nat.le_max_left fuel fuel') hrun
      have hmax' := insertListWithin_mono (Nat.le_max_right fuel fuel') hrun'
      obtain ⟨rfl, -⟩ := Prod.mk.inj (Option.some_inj.mp (hmax.symm.trans hmax'))
      have hlt : this < s'.lists := by
        rw [← hs'.count]
        exact lt_of_lt_of_eq hthis h.count.symm
      -- The sizes are different.
      have hsize := hs'.length_eq hlt
      rw [hs''.length_eq hlt, EntryLists.set_self, EntryLists.set_self, length_insertAll, hl,
        List.nil_append, List.length_append] at hsize
      have hnew := congrArg List.length hkeys
      rw [List.length_map, List.length_map, hl, List.nil_append] at hnew
      have hnew' := congrArg List.length hkeys'
      rw [List.length_map, List.length_cons, List.length_map] at hnew'
      omega

end Refines

/-- **Inserting a list** is right just when it is another list, or an empty one, wherever it goes:
    also at the begin, as `prepend` does, and at the end, as `append` does. -/
theorem insertList_iff {s : State V} {r : Reference V} (h : Refines s r) {this list : ℕ}
    (hthis : this < s.lists) (hlist : list < s.lists) :
    (∀ position, Position s this position →
      (Inserting s r this position list ↔ this ≠ list ∨ r.entries list = []))
    ∧ (Inserting s r this (s.list this).begin list ↔ this ≠ list ∨ r.entries list = [])
    ∧ (Inserting s r this (.endItem this) list ↔ this ≠ list ∨ r.entries list = []) := by
  have hall : ∀ position, Position s this position →
      (Inserting s r this position list ↔ this ≠ list ∨ r.entries list = []) := by
    intro position hposition
    by_cases hne : this = list
    · subst hne
      constructor
      · intro hinserting
        refine Or.inr (Classical.byContradiction fun hnil => ?_)
        exact h.not_inserting hthis hposition hnil hinserting
      · rintro (hne | hnil)
        · exact absurd rfl hne
        · obtain ⟨hrun, hinserts⟩ := h.insertList_empty hthis hnil position
          exact ⟨0, s, position, r, hrun, hinserts, h⟩
    · refine ⟨fun _ => Or.inl hne, fun _ => ?_⟩
      obtain ⟨s', it, r', hrun, hinserts, hs'⟩ :=
        h.insertList_spec hthis hlist hne (h.position hthis hposition)
      obtain ⟨fuel, hrun⟩ := insertList_within hrun
      exact ⟨fuel, s', it, r', hrun, hinserts, hs'⟩
  refine ⟨hall, hall _ ?_, hall _ (Or.inr rfl)⟩
  obtain ⟨free, hholds⟩ := h.holds this hthis
  rw [Position, hholds.items_eq, h.begin_eq hthis]
  exact Refines.begin_position r this

/-- A list of one value, which is appended to itself: the loop never ends. -/
theorem insertList_itself : ∃ s : State ℕ,
    (system ℕ).Run [(.create, none), (.append 0 7, some (.slot 0 3))] s
    ∧ Position s 0 (.endItem 0) ∧ ∀ fuel, s.insertListWithin fuel 0 (.endItem 0) 0 = none := by
  have hrun := System.Run.next (System.Run.next (System.Run.start
    (show (system ℕ).initial empty from rfl)) ⟨.create, none, rfl, trivial, rfl⟩)
    ⟨.append 0 7, some (.slot 0 3), rfl, (Nat.one_pos : 0 < 1), rfl⟩
  obtain ⟨r, -, h⟩ := run_refines hrun
  refine ⟨_, hrun, Or.inr rfl, fun fuel => ?_⟩
  have hsize := h.length_eq (show 0 < 1 from Nat.one_pos)
  match hl : r.entries 0, hsize with
  | [e], _ => exact h.insertList_never Nat.one_pos (show r.entries 0 = e :: ([] ++ []) from hl) rfl fuel

/-- The same list inserted into another one -/
theorem insertList_iff_append : ∃ (s : State ℕ) (r : Reference ℕ),
    (system ℕ).Run [(.create, none), (.append 0 7, some (.slot 0 3)), (.create, none)] s
    ∧ Refines s r ∧ Inserting s r 1 (.endItem 1) 0 := by
  have hrun := System.Run.next (System.Run.next (System.Run.next (System.Run.start
    (show (system ℕ).initial empty from rfl)) ⟨.create, none, rfl, trivial, rfl⟩)
    ⟨.append 0 7, some (.slot 0 3), rfl, (Nat.one_pos : 0 < 1), rfl⟩)
    ⟨.create, none, rfl, trivial, rfl⟩
  obtain ⟨r, -, h⟩ := run_refines hrun
  refine ⟨_, r, hrun, h, ?_⟩
  exact (insertList_iff h (show 1 < 2 by decide) (show 0 < 2 by decide)).2.2.mpr
    (Or.inl Nat.one_ne_zero)

/-! ## Assignments -/

/-- Values that are inserted at the end come after the others. -/
lemma insertAll_end {position : Addr} {new : List (Item V)} : ∀ {l : List (Item V)},
    position ∉ names l → position ∉ names new → insertAll position new l = l ++ new := by
  induction new with
  | nil => exact fun _ _ => (List.append_nil _).symm
  | cons e new ih =>
    intro l hl hnew
    obtain ⟨hne, hnew⟩ := not_or.mp (List.mem_cons.not.mp hnew)
    have hone : insertBefore position e l = l ++ [e] := by
      have happend := insertBefore_append e hl (show ∀ e' ∈ ([] : List (Item V)).head?, _ from
        fun e' he' => absurd he' (Option.not_mem_none e'))
      rwa [List.append_nil] at happend
    rw [insertAll, List.foldl_cons, hone]
    refine (ih ?_ hnew).trans (by simp)
    rw [names_append]
    exact fun hmem => (List.mem_append.mp hmem).elim hl fun h => hne (List.mem_singleton.mp h)

/-- **What an assignment is for**: the values are those that the other list has now, and nothing else
    is changed. -/
def Assigning (s : State V) (r : Reference V) (this other : ℕ) : Prop :=
  ∃ s' l, s.assign this other = some s' ∧ l.map Entry.key = (r.entries other).map Entry.key
    ∧ Refines s' (r.set this l)

namespace Refines

variable {s : State V} {r : Reference V} {this other : ℕ}

/-- Another list is assigned. -/
lemma assign_other (h : Refines s r) (hthis : this < s.lists) (hother : other < s.lists)
    (hne : other ≠ this) : Assigning s r this other := by
  obtain ⟨s₁, hclear, h₁⟩ := h.clear_spec hthis
  have hlists : s₁.lists = s.lists := h₁.count.symm.trans h.count
  have hthis₁ : this < s₁.lists := hlists ▸ hthis
  have hother₁ : other < s₁.lists := hlists ▸ hother
  have hentries : (r.set this []).entries other = r.entries other := EntryLists.set_of_ne r hne []
  obtain ⟨i, tail, htail⟩ : ∃ i tail, names (r.entries other) ++ [Addr.endItem other] = i :: tail :=
    List.exists_cons_of_ne_nil (by simp)
  have hbegin : (s₁.list other).begin = i := by
    rw [h₁.begin_eq hother₁, hentries]
    cases hl : r.entries other with
    | nil => exact (List.cons.inj (hl ▸ htail)).1
    | cons e l => exact (List.cons.inj (hl ▸ htail)).1
  have hsize : (r.entries other).length < (s₁.list other).size + 1 := by
    rw [h₁.length_eq hother₁, hentries]
    exact Nat.lt_succ_self _
  obtain ⟨s', new, hrun, hkeys, -, hfresh, hs', -⟩ := insertFrom_spec hne h₁ hthis₁ hother₁
    (show (r.set this []).entries other = [] ++ r.entries other from hentries) htail hsize
    (Or.inr rfl)
  rw [EntryLists.set_set, EntryLists.set_self, insertAll_end List.not_mem_nil
    fun hmem => (hfresh _ hmem).1 this rfl] at hs'
  refine ⟨s', new, ?_, hkeys, hs'⟩
  rw [State.assign, hclear]
  simp only [Option.bind_eq_bind, Option.bind_some, hbegin, hrun]

/-- **A list that is assigned to itself** is cleared. -/
lemma assign_self (h : Refines s r) (hthis : this < s.lists) :
    ∃ s', s.assign this this = some s' ∧ Refines s' (r.set this []) := by
  obtain ⟨s₁, hclear, h₁⟩ := h.clear_spec hthis
  have hlists : s₁.lists = s.lists := h₁.count.symm.trans h.count
  have hbegin : (s₁.list this).begin = .endItem this := by
    rw [h₁.begin_eq (hlists ▸ hthis), EntryLists.set_self]
    rfl
  refine ⟨s₁, ?_, h₁⟩
  rw [State.assign, hclear]
  simp only [Option.bind_eq_bind, Option.bind_some, hbegin]
  rw [insertFrom, if_pos rfl]

end Refines

/-- **`operator=`** is right just when another list is assigned, or an empty one. -/
lemma assigning_iff {s : State V} {r : Reference V} (h : Refines s r) {this other : ℕ}
    (hthis : this < s.lists) (hother : other < s.lists) :
    Assigning s r this other ↔ other ≠ this ∨ r.entries other = [] := by
  by_cases hne : other = this
  · subst hne
    obtain ⟨s₁, hrun₁, h₁⟩ := h.assign_self hthis
    have hlists : s₁.lists = s.lists := h₁.count.symm.trans h.count
    constructor
    · rintro ⟨s', l, hrun, hkeys, hs'⟩
      obtain rfl := Option.some_inj.mp (hrun₁.symm.trans hrun)
      have hlength := hs'.length_eq (hlists ▸ hthis)
      rw [h₁.length_eq (hlists ▸ hthis), EntryLists.set_self, EntryLists.set_self] at hlength
      obtain rfl := List.length_eq_zero_iff.mp hlength.symm
      exact Or.inr (List.map_eq_nil_iff.mp hkeys.symm)
    · rintro (hne | hnil)
      · exact absurd rfl hne
      · exact ⟨s₁, [], hrun₁, by rw [hnil], h₁⟩
  · exact ⟨fun _ => Or.inl hne, fun _ => h.assign_other hthis hother hne⟩

end Nstd.LinkedList
