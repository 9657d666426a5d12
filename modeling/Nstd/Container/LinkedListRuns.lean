import Nstd.Container.LinkedListSteps
import Nstd.Core.EntryLists
import Nstd.Core.Lists
import Nstd.Core.System

/-!
# Programs with lists

* `State.items` — the items from `begin` on, which iterators can point to.
* `Op.Allowed` — what an operation needs of a program.
* `Reference`, `Spec` — lists of entries, and what operations do to them.
* `Refines` — objects that hold the entries of a reference.
* `insert_step`, `insertList_step`, `remove_step`, … — one operation each.
* `run_refines` — the reference of a run.
* **`lists_refine`** — every run does what the reference does, and all its objects are well linked.

An operation relinks items at one place of one list.  The links elsewhere stay, and so do the entries of
the other lists.
-/

namespace Nstd.LinkedList

open Linked
open Entries
open State

variable {V : Type}

namespace State

/-- The items of an object, from `begin` on -/
def items (s : State V) (this : ℕ) : List Addr :=
  walk s.next (.endItem this) (s.list this).size (s.list this).begin

lemma Holds.items_eq {s : State V} {this : ℕ} {l : List (Item V)} {free : List Addr}
    (h : s.Holds this l free) : s.items this = names l := by
  have hsize : (s.list this).size = (names l).length := by rw [h.size, names, List.length_map]
  rw [items, hsize]
  refine h.chain.walk_eq rfl fun hmem => ?_
  exact h.ne_endItem (List.mem_append_left _ hmem) this rfl

end State

/-- An iterator can be at a position. -/
def Position (s : State V) (this : ℕ) (position : Addr) : Prop :=
  position ∈ s.items this ∨ position = .endItem this

/-- What an operation needs of a program: its objects are there, iterators belong to them, another
    list is another one, and there is something to remove. -/
def Op.Allowed (s : State V) : Op V → Prop
  | .create => True
  | .insert this position _ => this < s.lists ∧ Position s this position
  | .prepend this _ | .append this _ | .poolAppend this _ => this < s.lists
  | .insertList this position list =>
    this < s.lists ∧ list < s.lists ∧ this ≠ list ∧ Position s this position
  | .prependList this list | .appendList this list =>
    this < s.lists ∧ list < s.lists ∧ this ≠ list
  | .remove this it => this < s.lists ∧ it ∈ s.items this
  | .removeValue this _ | .clear this => this < s.lists
  | .removeFront this | .removeBack this => this < s.lists ∧ s.items this ≠ []
  | .swap this other => this < s.lists ∧ other < s.lists

/-! ## The reference -/

/-- Lists of entries without a value beside the key -/
abbrev Reference (V : Type) := EntryLists V Unit

/-- Values get an item each, one that is in no list, and go before a position.  The iterator is at the
    first of them. -/
def Reference.Inserts (r : Reference V) (this : ℕ) (position : Addr) (values : List V)
    (it : Option Addr) (r' : Reference V) : Prop :=
  ∃ new : List (Item V), new.map Entry.key = values ∧ (names new).Nodup
    ∧ (∀ a ∈ names new, r.Fresh a) ∧ it = some (firstName position new)
    ∧ r' = r.set this (insertAll position new (r.entries this))

/-- **What operations do** to lists of entries, and the iterators they return -/
def Spec [BEq V] (r : Reference V) : Op V → Option Addr → Reference V → Prop
  | .create, it, r' => it = none ∧ r' = ⟨r.count + 1, Function.update r.entries r.count []⟩
  | .insert this position value, it, r' => r.Inserts this position [value] it r'
  | .prepend this value, it, r' =>
    r.Inserts this (firstName (.endItem this) (r.entries this)) [value] it r'
  | .append this value, it, r' | .poolAppend this value, it, r' =>
    r.Inserts this (.endItem this) [value] it r'
  | .insertList this position list, it, r' =>
    r.Inserts this position ((r.entries list).map Entry.key) it r'
  | .prependList this list, it, r' => r.Inserts this (firstName (.endItem this) (r.entries this))
      ((r.entries list).map Entry.key) it r'
  | .appendList this list, it, r' =>
    r.Inserts this (.endItem this) ((r.entries list).map Entry.key) it r'
  | .remove this name, it, r' => r.Removes this name it r'
  | .removeValue this value, it, r' => it = none ∧ r' = match find? value (r.entries this) with
      | some e => r.set this (Entries.remove e.name (r.entries this))
      | none => r
  | .removeFront this, it, r' => it = some (firstName (.endItem this) (r.entries this).tail)
      ∧ r' = r.set this (r.entries this).tail
  | .removeBack this, it, r' => it = some (.endItem this)
      ∧ r' = r.set this (r.entries this).dropLast
  | .clear this, it, r' => it = none ∧ r' = r.set this []
  | .swap this other, it, r' =>
    it = none ∧ r' = (r.set this (r.entries other)).set other (r.entries this)

/-- **Objects hold the entries of a reference.** -/
structure Refines (s : State V) (r : Reference V) : Prop where
  count : r.count = s.lists
  owned : s.Owned
  holds : ∀ x < s.lists, ∃ free, s.Holds x (r.entries x) free

namespace Refines

variable {s : State V} {r : Reference V}

/-- Only one object was written to. -/
lemma set (h : Refines s r) {s' : State V} {this : ℕ} {l : List (Item V)} {free : List Addr}
    (hthis : this < s.lists) (honly : Only s s' this) (howned : s'.Owned)
    (hholds : s'.Holds this l free) : Refines s' (r.set this l) := by
  refine ⟨h.count.trans honly.lists.symm, howned, fun x hx => ?_⟩
  rw [honly.lists] at hx
  by_cases hxt : x = this
  · subst hxt
    refine ⟨free, ?_⟩
    rw [EntryLists.set_self]
    exact hholds
  · obtain ⟨free', hx'⟩ := h.holds x hx
    refine ⟨free', ?_⟩
    rw [EntryLists.set_of_ne r hxt]
    refine hx'.congr (h.owned.nodup hx) (honly.list x hxt) fun a ha => honly.item a fun hown => ?_
    refine howned.not_owns (honly.lists ▸ hx) (honly.lists ▸ hthis) hxt ?_ hown
    rw [honly.list x hxt]
    exact ha

/-- Where an iterator can be -/
lemma position (h : Refines s r) {this : ℕ} (hthis : this < s.lists) {position : Addr}
    (hposition : Position s this position) :
    position ∈ names (r.entries this) ∨ position = .endItem this := by
  obtain ⟨free, hholds⟩ := h.holds this hthis
  rw [Position, hholds.items_eq] at hposition
  exact hposition

/-- Where an iterator can be, the list is split. -/
lemma split (h : Refines s r) {this : ℕ} (hthis : this < s.lists) {position : Addr}
    (hposition : position ∈ names (r.entries this) ∨ position = .endItem this) :
    ∃ l₁ l₂ rest, r.entries this = l₁ ++ l₂ ∧ names l₂ ++ [Addr.endItem this] = position :: rest
      ∧ ∀ e : Item V, insertBefore position e (r.entries this) = l₁ ++ e :: l₂ := by
  obtain ⟨free, hholds⟩ := h.holds this hthis
  have hnd := (List.nodup_append.mp (hholds.nodup (h.owned.nodup hthis))).1
  have hend : Addr.endItem this ∉ names (r.entries this) := fun hmem =>
    hholds.ne_endItem (List.mem_append_left _ hmem) this rfl
  obtain ⟨l₁, l₂, rest, hl, hrest⟩ := split_at_position hposition
  obtain ⟨k₁, k₂, hk, rfl, rfl⟩ := exists_append hl
  rw [hk] at hnd hend ⊢
  exact ⟨k₁, k₂, rest, rfl, hrest, fun e => insertBefore_split e hrest hnd hend⟩

/-- The object begins with the first entry. -/
lemma begin_eq (h : Refines s r) {this : ℕ} (hthis : this < s.lists) :
    (s.list this).begin = firstName (.endItem this) (r.entries this) := by
  obtain ⟨free, hholds⟩ := h.holds this hthis
  have hchain := hholds.chain
  cases hl : r.entries this with
  | nil =>
    rw [hl] at hchain
    exact Option.some_inj.mp hchain.1
  | cons e l =>
    rw [hl] at hchain
    exact Option.some_inj.mp hchain.1

lemma begin_position (r : Reference V) (this : ℕ) :
    firstName (.endItem this) (r.entries this) ∈ names (r.entries this)
      ∨ firstName (.endItem this) (r.entries this) = .endItem this := by
  cases r.entries this with
  | nil => exact Or.inr rfl
  | cons e l => exact Or.inl List.mem_cons_self

/-- An item that is free is in no list. -/
lemma fresh (h : Refines s r) {this : ℕ} (hthis : this < s.lists) {free : List Addr}
    (hholds : s.Holds this (r.entries this) free) {a : Addr} (ha : a ∈ free) : r.Fresh a := by
  refine ⟨hholds.ne_endItem (List.mem_append_right _ ha), fun x hx hmem => ?_⟩
  rw [h.count] at hx
  obtain ⟨free', hx'⟩ := h.holds x hx
  by_cases hxt : x = this
  · subst hxt
    exact (List.nodup_append.mp (hholds.nodup (h.owned.nodup hx))).2.2 a hmem a ha rfl
  · exact h.owned.not_owns hx hthis hxt (hx'.owns (List.mem_append_left _ hmem))
      (hholds.owns (List.mem_append_right _ ha))

/-! ## Inserting -/

/-- **One value** is inserted. -/
lemma insert_step (h : Refines s r) {this : ℕ} (hthis : this < s.lists) {position : Addr}
    (hposition : position ∈ names (r.entries this) ∨ position = .endItem this) (value : V) :
    ∃ s' item, s.insert this position value = some (s', item) ∧ r.Fresh item
      ∧ Refines s' (r.set this (insertBefore position ⟨item, value, ()⟩ (r.entries this)))
      ∧ s'.lists = s.lists := by
  obtain ⟨free, hholds⟩ := h.holds this hthis
  obtain ⟨s₁, item, free', hrun₁, hholds₁, howned₁, honly₁⟩ :=
    allocateFreeItem_spec hholds h.owned hthis
  have h₁ : Refines s₁ r := by
    have hset := h.set hthis honly₁ howned₁ hholds₁
    rwa [EntryLists.set_entries] at hset
  have hthis₁ : this < s₁.lists := honly₁.lists ▸ hthis
  obtain ⟨l₁, l₂, rest, hl, hrest, hinsert⟩ := h.split hthis hposition
  have hfresh := h₁.fresh hthis₁ hholds₁ List.mem_cons_self
  rw [hl] at hholds₁
  obtain ⟨s₂, hrun₂, hholds₂, howned₂, honly₂⟩ :=
    linkBefore_spec hholds₁ howned₁ hthis₁ hrest value
  refine ⟨_, item, ?_, hfresh, ?_, honly₂.lists.trans honly₁.lists⟩
  · rw [State.insert, hrun₁]
    simp only [Option.bind_eq_bind, Option.bind_some, hrun₂]
  · rw [hinsert]
    exact h₁.set hthis₁ honly₂ howned₂ hholds₂

/-- One value, as the reference has it -/
lemma insert_spec (h : Refines s r) {this : ℕ} (hthis : this < s.lists) {position : Addr}
    (hposition : position ∈ names (r.entries this) ∨ position = .endItem this) (value : V) :
    ∃ s' item r', s.insert this position value = some (s', item)
      ∧ r.Inserts this position [value] (some item) r' ∧ Refines s' r' := by
  obtain ⟨s', item, hrun, hfresh, hs', -⟩ := h.insert_step hthis hposition value
  refine ⟨s', item, _, hrun, ⟨[⟨item, value, ()⟩], rfl, List.nodup_singleton _, ?_, rfl, rfl⟩, hs'⟩
  intro a ha
  rw [List.mem_singleton.mp ha]
  exact hfresh

/-- The item after an entry of another object -/
lemma next_eq (h : Refines s r) {x : ℕ} (hx : x < s.lists) {k₁ k₂ : List (Item V)} {e : Item V}
    (hk : r.entries x = k₁ ++ e :: k₂) {next : Addr} {tail : List Addr}
    (hnext : names k₂ ++ [Addr.endItem x] = next :: tail) : s.next e.name = some next := by
  obtain ⟨free, hholds⟩ := h.holds x hx
  have hchain := hholds.chain
  rw [hk, names_append, List.append_assoc] at hchain
  change Chain _ _ _ (names k₁ ++ e.name :: (names k₂ ++ [Addr.endItem x])) at hchain
  rw [hnext] at hchain
  exact hchain.next_eq

/-- The entries are still there when something is inserted. -/
lemma mem_insertBefore {position a : Addr} (e : Item V) {l : List (Item V)} (h : a ∈ names l) :
    a ∈ names (insertBefore position e l) := by
  induction l with
  | nil => exact absurd h List.not_mem_nil
  | cons e' l ih =>
    rw [insertBefore]
    split_ifs
    · exact List.mem_cons_of_mem _ h
    · rcases List.mem_cons.mp h with h | h
      · exact h ▸ List.mem_cons_self
      · exact List.mem_cons_of_mem _ (ih h)

/-- **The loop over another list** -/
lemma insertFrom_spec {this list : ℕ} (hne : list ≠ this) {position : Addr} {k : List (Item V)} :
    ∀ {s : State V} {r : Reference V} {k₀ : List (Item V)} {i : Addr} {tail : List Addr} {fuel : ℕ},
    Refines s r → this < s.lists → list < s.lists → r.entries list = k₀ ++ k →
    names k ++ [.endItem list] = i :: tail → k.length < fuel →
    (position ∈ names (r.entries this) ∨ position = .endItem this) →
    ∃ s' new, insertFrom this position (.endItem list) fuel s i = some s'
      ∧ new.map Entry.key = k.map Entry.key ∧ (names new).Nodup ∧ (∀ a ∈ names new, r.Fresh a)
      ∧ Refines s' (r.set this (insertAll position new (r.entries this)))
      ∧ ∀ e ∈ k.head?, ∃ s₁, s.insert this position e.key = some (s₁, firstName position new) := by
  induction k with
  | nil =>
    intro s r k₀ i tail fuel h _ _ _ hi hfuel _
    obtain ⟨rfl, -⟩ := List.cons.inj hi
    cases fuel with
    | zero => exact absurd hfuel (Nat.lt_irrefl 0)
    | succ fuel =>
      refine ⟨s, [], if_pos rfl, rfl, List.nodup_nil, fun a ha => absurd ha List.not_mem_nil, ?_,
        fun e he => absurd he (Option.not_mem_none e)⟩
      rw [insertAll, List.foldl_nil, EntryLists.set_entries]
      exact h
  | cons e k ih =>
    intro s r k₀ i tail fuel h hthis hlist hk hi hfuel hposition
    obtain ⟨rfl, rfl⟩ := List.cons.inj hi
    obtain ⟨free, hholds⟩ := h.holds list hlist
    have hmem : e ∈ r.entries list := by
      rw [hk]
      simp
    have hend : e.name ≠ .endItem list :=
      hholds.ne_endItem (List.mem_append_left _ (List.mem_map_of_mem hmem)) list
    obtain ⟨s₁, item, hrun₁, hfresh, h₁, hlists⟩ := h.insert_step hthis hposition e.key
    generalize hr₁ : r.set this (insertBefore position ⟨item, e.key, ()⟩ (r.entries this)) = r₁
      at h₁
    have hk₁ : r₁.entries list = k₀ ++ e :: k := by rw [← hr₁, EntryLists.set_of_ne r hne, hk]
    have hthisEntries : r₁.entries this
        = insertBefore position ⟨item, e.key, ()⟩ (r.entries this) := by
      rw [← hr₁, EntryLists.set_self]
    obtain ⟨next, tail, htail⟩ : ∃ next tail, names k ++ [Addr.endItem list] = next :: tail :=
      List.exists_cons_of_ne_nil (by simp)
    have hnext := h₁.next_eq (hlists ▸ hlist) hk₁ htail
    have hposition₁ : position ∈ names (r₁.entries this) ∨ position = .endItem this :=
      hthisEntries ▸ hposition.imp_left (mem_insertBefore _)
    have hitem : item ∈ names (r₁.entries this) := by
      obtain ⟨l₁, l₂, -, -, -, hinsert⟩ := h.split hthis hposition
      rw [hthisEntries, hinsert]
      simp [names]
    cases fuel with
    | zero => exact absurd hfuel (Nat.not_lt_zero _)
    | succ fuel =>
      obtain ⟨s', new, hrun, hkeys, hnodup, hfresh', hs', -⟩ :=
        @ih s₁ r₁ (k₀ ++ [e]) next tail fuel h₁ (hlists ▸ hthis) (hlists ▸ hlist)
          (by rw [hk₁]; simp) htail (Nat.lt_of_succ_lt_succ hfuel) hposition₁
      have hthis₁ : this < r₁.count := by
        rw [h₁.count, hlists]
        exact hthis
      refine ⟨s', ⟨item, e.key, ()⟩ :: new, ?_, ?_, ?_, ?_, ?_, ?_⟩
      · rw [insertFrom, if_neg hend, hholds.values e hmem]
        simp only [Option.bind_eq_bind, Option.bind_some, hrun₁, hnext, hrun]
      · rw [List.map_cons, List.map_cons, hkeys]
      · exact List.nodup_cons.mpr ⟨fun hin => (hfresh' item hin).2 this hthis₁ hitem, hnodup⟩
      · intro a ha
        rcases List.mem_cons.mp ha with rfl | ha
        · exact hfresh
        · refine ⟨(hfresh' a ha).1, fun x hx hin => ?_⟩
          have hx₁ : x < r₁.count := by rw [← hr₁]; exact hx
          refine (hfresh' a ha).2 x hx₁ ?_
          by_cases hxt : x = this
          · subst hxt
            rw [hthisEntries]
            exact mem_insertBefore _ hin
          · rw [← hr₁, EntryLists.set_of_ne r hxt]
            exact hin
      · rw [← hr₁, EntryLists.set_set, EntryLists.set_self] at hs'
        exact hs'
      · intro e' he'
        rw [← Option.some_inj.mp he']
        exact ⟨s₁, hrun₁⟩

/-- **Another list** is inserted. -/
lemma insertList_spec (h : Refines s r) {this list : ℕ} (hthis : this < s.lists)
    (hlist : list < s.lists) (hne : this ≠ list) {position : Addr}
    (hposition : position ∈ names (r.entries this) ∨ position = .endItem this) :
    ∃ s' it r', s.insertList this position list = some (s', it)
      ∧ r.Inserts this position ((r.entries list).map Entry.key) (some it) r' ∧ Refines s' r' := by
  obtain ⟨free, hholds⟩ := h.holds list hlist
  have hlast : s.prev (.endItem list) = endOf none (names (r.entries list)) := hholds.chain.prev_eq
  cases hl : r.entries list with
  | nil =>
    rw [hl] at hlast
    refine ⟨s, position, r, ?_, ⟨[], rfl, List.nodup_nil, fun a ha => absurd ha List.not_mem_nil,
      rfl, ?_⟩, h⟩
    · rw [insertList, hlast]
      rfl
    · rw [insertAll, List.foldl_nil, EntryLists.set_entries]
  | cons e k =>
    have hmem : e ∈ r.entries list := hl ▸ List.mem_cons_self
    have hbegin : (s.list list).begin = e.name := by rw [h.begin_eq hlist, hl]; rfl
    obtain ⟨q, hq⟩ : ∃ q, s.prev (.endItem list) = some q := by
      rw [hlast, endOf_none, hl]
      exact ⟨_, List.getLast?_eq_some_getLast (List.cons_ne_nil _ _)⟩
    -- The first value is inserted before the loop, as the loop would do it.
    obtain ⟨s₁, item, hrun₁, -, h₁, hlists⟩ := h.insert_step hthis hposition e.key
    have hlist₁ : list < s₁.lists := hlists ▸ hlist
    have hentries₁ : (r.set this (insertBefore position ⟨item, e.key, ()⟩ (r.entries this))).entries
        list = e :: k := by rw [EntryLists.set_of_ne r (Ne.symm hne), hl]
    have hbegin₁ : (s₁.list list).begin = e.name := by
      rw [h₁.begin_eq hlist₁, hentries₁]
      rfl
    have hsize₁ : (s₁.list list).size = (e :: k).length := by
      obtain ⟨free₁, hholds₁⟩ := h₁.holds list hlist₁
      rw [hholds₁.size, hentries₁]
    have hfuel : (e :: k).length < (s₁.list list).size + 1 := by
      rw [hsize₁]
      exact Nat.lt_succ_self _
    obtain ⟨s', new, hrun, hkeys, hnodup, hfresh, hs', hfirst⟩ := insertFrom_spec (Ne.symm hne) h
      hthis hlist (show r.entries list = [] ++ e :: k from hl)
      (rfl : names (e :: k) ++ [Addr.endItem list] = e.name :: _) hfuel hposition
    obtain ⟨s₁', hrun₁'⟩ := hfirst e rfl
    obtain ⟨rfl, hitem⟩ := Prod.mk.inj (Option.some_inj.mp (hrun₁'.symm.trans hrun₁))
    have hend : e.name ≠ .endItem list :=
      hholds.ne_endItem (List.mem_append_left _ (List.mem_map_of_mem hmem)) list
    refine ⟨s', item, _, ?_, ⟨new, hkeys, hnodup, hfresh, by rw [hitem], rfl⟩, hs'⟩
    rw [insertFrom, if_neg hend, hholds.values e hmem] at hrun
    simp only [Option.bind_eq_bind, Option.bind_some, hrun₁] at hrun
    obtain ⟨next, hnext, hrun⟩ := Option.bind_eq_some_iff.mp hrun
    rw [insertList, hq]
    simp only [hbegin, hholds.values e hmem, Option.bind_eq_bind, Option.bind_some, hrun₁, hbegin₁,
      hnext, hrun]

/-! ## Removing -/

/-- **An item** is removed. -/
lemma unlink_step (h : Refines s r) {this : ℕ} (hthis : this < s.lists) {l₁ l₂ : List (Item V)}
    {e : Item V} (hl : r.entries this = l₁ ++ e :: l₂) :
    ∃ s', s.unlink this e.name = some s' ∧ Refines s' (r.set this (l₁ ++ l₂))
      ∧ s'.next e.name = some (firstName (.endItem this) l₂)
      ∧ Entries.remove e.name (r.entries this) = l₁ ++ l₂
      ∧ nameAfter (.endItem this) e.name (r.entries this) = firstName (.endItem this) l₂ := by
  obtain ⟨free, hholds⟩ := h.holds this hthis
  have hnd := (List.nodup_append.mp (hholds.nodup (h.owned.nodup hthis))).1
  rw [hl] at hholds hnd ⊢
  obtain ⟨s', hrun, hs', howned, honly, hnext⟩ := unlink_spec hholds h.owned hthis
  refine ⟨s', hrun, h.set hthis honly howned hs', hnext.trans ?_, remove_append hnd,
    nameAfter_append fun hmem => ?_⟩
  · cases l₂ with
    | nil => rfl
    | cons e' l₂ => rfl
  · rw [names_append] at hnd
    exact (List.nodup_append.mp hnd).2.2 _ hmem _ List.mem_cons_self rfl

/-- `remove`, wherever the item is -/
lemma remove_step (h : Refines s r) {this : ℕ} (hthis : this < s.lists) {l₁ l₂ : List (Item V)}
    {e : Item V} (hl : r.entries this = l₁ ++ e :: l₂) :
    ∃ s', s.remove this e.name = some (s', firstName (.endItem this) l₂)
      ∧ Refines s' (r.set this (l₁ ++ l₂)) := by
  obtain ⟨s', hrun, hs', hnext, -⟩ := h.unlink_step hthis hl
  refine ⟨s', ?_, hs'⟩
  rw [State.remove, hrun]
  simp only [Option.bind_eq_bind, Option.bind_some, hnext]

/-- **`remove` of an iterator** -/
lemma remove_spec (h : Refines s r) {this : ℕ} (hthis : this < s.lists) {it : Addr}
    (hit : it ∈ names (r.entries this)) :
    ∃ s' next r', s.remove this it = some (s', next) ∧ r.Removes this it (some next) r'
      ∧ Refines s' r' := by
  obtain ⟨k₁, k₂, hk⟩ := List.append_of_mem hit
  obtain ⟨l₁, e, l₂, hl, -, rfl, -⟩ := exists_middle hk
  obtain ⟨-, -, -, -, hremove, hafter⟩ := h.unlink_step hthis hl
  obtain ⟨s', hrun, hs'⟩ := h.remove_step hthis hl
  refine ⟨s', _, _, hrun, ⟨by rw [hafter], by rw [hremove]⟩, hs'⟩

lemma removeFront_spec (h : Refines s r) {this : ℕ} (hthis : this < s.lists)
    (hne : r.entries this ≠ []) :
    ∃ s', s.removeFront this = some (s', firstName (.endItem this) (r.entries this).tail)
      ∧ Refines s' (r.set this (r.entries this).tail) := by
  obtain ⟨e, l, hl⟩ := List.exists_cons_of_ne_nil hne
  obtain ⟨s', hrun, hs'⟩ := h.remove_step hthis (show r.entries this = [] ++ e :: l from hl)
  have hbegin : (s.list this).begin = e.name := by rw [h.begin_eq hthis, hl]; rfl
  refine ⟨s', ?_, ?_⟩
  · rw [State.removeFront, hbegin, hrun, hl]
    rfl
  · rw [hl]
    exact hs'

lemma removeBack_spec (h : Refines s r) {this : ℕ} (hthis : this < s.lists) (hne : r.entries this ≠ []) :
    ∃ s', s.removeBack this = some (s', .endItem this)
      ∧ Refines s' (r.set this (r.entries this).dropLast) := by
  obtain ⟨free, hholds⟩ := h.holds this hthis
  have hlast : s.prev (.endItem this) = endOf none (names (r.entries this)) := hholds.chain.prev_eq
  rcases List.eq_nil_or_concat (r.entries this) with hnil | ⟨l, e, hl⟩
  · exact absurd hnil hne
  · rw [List.concat_eq_append] at hl
    obtain ⟨s', hrun, hs'⟩ := h.remove_step hthis (show r.entries this = l ++ e :: [] from hl)
    rw [hl, names_append] at hlast
    have hprev : s.prev (.endItem this) = some e.name := hlast.trans (endOf_concat ..)
    refine ⟨s', ?_, ?_⟩
    · rw [State.removeBack, hprev]
      exact hrun
    · rw [hl, List.dropLast_concat]
      rwa [List.append_nil] at hs'

lemma removeValue_spec [BEq V] (h : Refines s r) {this : ℕ} (hthis : this < s.lists) (value : V) :
    ∃ s', s.removeValue this value = some s' ∧ Refines s' (match find? value (r.entries this) with
      | some e => r.set this (Entries.remove e.name (r.entries this))
      | none => r) := by
  obtain ⟨free, hholds⟩ := h.holds this hthis
  obtain ⟨i, tail, htail⟩ : ∃ i tail, names (r.entries this) ++ [Addr.endItem this] = i :: tail :=
    List.exists_cons_of_ne_nil (by simp)
  have hchain := hholds.chain
  rw [htail] at hchain
  have hbegin : (s.list this).begin = i := Option.some_inj.mp hchain.1
  have hend : ∀ e ∈ r.entries this, e.name ≠ .endItem this := fun e he =>
    hholds.ne_endItem (List.mem_append_left _ (List.mem_map_of_mem he)) this
  have hfind : s.find this value
      = some (((find? value (r.entries this)).map Entry.name).getD (.endItem this)) := by
    rw [State.find, hbegin]
    exact findFrom_spec value (by rw [hholds.size]; exact Nat.lt_succ_self _) htail hchain.isChain
      hend hholds.values
  cases hsome : find? value (r.entries this) with
  | none =>
    rw [hsome] at hfind
    refine ⟨s, ?_, h⟩
    rw [State.removeValue, hfind]
    exact if_neg fun hne => hne rfl
  | some e =>
    rw [hsome] at hfind
    have hmem : e ∈ r.entries this := List.mem_of_find?_eq_some hsome
    obtain ⟨l₁, l₂, hl⟩ := List.append_of_mem hmem
    obtain ⟨s', hrun, hs', -, hremove, -⟩ := h.unlink_step hthis hl
    refine ⟨s', ?_, ?_⟩
    · rw [State.removeValue, hfind]
      exact (if_pos (hend e hmem)).trans hrun
    · rw [← hremove] at hs'
      exact hs'

lemma clear_spec (h : Refines s r) {this : ℕ} (hthis : this < s.lists) :
    ∃ s', s.clear this = some s' ∧ Refines s' (r.set this []) := by
  obtain ⟨free, hholds⟩ := h.holds this hthis
  obtain ⟨s', hrun, hs', howned, honly⟩ := State.clear_spec hholds h.owned hthis
  exact ⟨s', hrun, h.set hthis honly howned hs'⟩

/-! ## Objects -/

lemma create_spec (h : Refines s r) :
    Refines s.create ⟨r.count + 1, Function.update r.entries r.count []⟩ := by
  obtain ⟨howned, hnew, hold⟩ := State.create_spec h.owned
  refine ⟨congrArg (· + 1) h.count, howned, fun x hx => ?_⟩
  by_cases hxs : x = s.lists
  · rw [hxs, h.count]
    refine ⟨[], ?_⟩
    simp only [Function.update_self]
    exact hnew
  · have hx' : x < s.lists := Nat.lt_of_le_of_ne (Nat.le_of_lt_succ hx) hxs
    obtain ⟨free, hholds⟩ := h.holds x hx'
    refine ⟨free, ?_⟩
    rw [h.count]
    simp only [Function.update_of_ne hxs]
    exact hold x hx' _ _ hholds

lemma swap_spec (h : Refines s r) {this other : ℕ} (hthis : this < s.lists) (hother : other < s.lists) :
    Refines (s.swap this other) ((r.set this (r.entries other)).set other (r.entries this)) := by
  obtain ⟨free, hholds⟩ := h.holds this hthis
  by_cases hne : this = other
  · subst hne
    rw [swap_self hholds, EntryLists.set_entries, EntryLists.set_entries]
    exact h
  · obtain ⟨free', hholds'⟩ := h.holds other hother
    obtain ⟨howned, hthis', hother', hrest⟩ :=
      State.swap_spec h.owned hthis hother hne hholds hholds'
    have hlists : (s.swap this other).lists = s.lists := by
      obtain ⟨-, -, -, -, -, hlists, -⟩ := take_run s this (s.list other) (s.prev (.endItem other))
      obtain ⟨-, -, -, -, -, hlists', -⟩ := take_run
        (s.take this (s.list other) (s.prev (.endItem other))) other (s.list this)
        (s.prev (.endItem this))
      exact hlists'.trans hlists
    refine ⟨h.count.trans hlists.symm, howned, fun x hx => ?_⟩
    rw [hlists] at hx
    by_cases hxo : x = other
    · subst hxo
      rw [EntryLists.set_self]
      exact ⟨free, hother'⟩
    · rw [EntryLists.set_of_ne _ hxo]
      by_cases hxt : x = this
      · subst hxt
        rw [EntryLists.set_self]
        exact ⟨free', hthis'⟩
      · rw [EntryLists.set_of_ne _ hxt]
        obtain ⟨free'', hx'⟩ := h.holds x hx
        exact ⟨free'', hrest x hx hxt hxo _ _ hx'⟩

end Refines

/-- `append` of `PoolList` is `append` of `List`: the item that was constructed is the one that is
    linked. -/
lemma PoolList.append_eq (s : State V) (this : ℕ) (value : V) :
    PoolList.append s this value = s.append this value := by
  have hfree : ((s.allocateFreeItem this).1.list this).freeItem = (s.allocateFreeItem this).2 := by
    rw [allocateFreeItem]
    cases hitem : (s.list this).freeItem with
    | some item => exact hitem
    | none => simp only [setList, Function.update_self]
  rw [PoolList.append, State.append, State.insert]
  generalize s.allocateFreeItem this = r at hfree
  obtain ⟨s₁, item⟩ := r
  cases item with
  | none => rfl
  | some item =>
    simp only [Option.bind_eq_bind, Option.bind_some]
    cases hvalue : s₁.value item with
    | some v => simp only [construct, hvalue, Option.bind_none]
    | none =>
      have hfree' : (s₁.list this).freeItem = some item := hfree
      simp only [construct, hvalue, Option.bind_some, linkFreeItem, hfree',
        Option.bind_eq_bind]

/-! ## Runs -/

/-- An insertion, as an operation -/
lemma exec_inserts {r : Reference V} {this : ℕ} {position : Addr} {values : List V}
    {x : Option (State V × Addr)}
    (h : ∃ s' it r', x = some (s', it) ∧ r.Inserts this position values (some it) r'
      ∧ Refines s' r') :
    ∃ s' it r', x.map (fun x => (x.1, some x.2)) = some (s', it)
      ∧ r.Inserts this position values it r' ∧ Refines s' r' := by
  obtain ⟨s', it, r', rfl, hinserts, hs'⟩ := h
  exact ⟨s', some it, r', rfl, hinserts, hs'⟩

/-- **One operation** does what it does to lists of entries. -/
theorem exec_spec [BEq V] {s : State V} {r : Reference V} (h : Refines s r) {op : Op V}
    (hop : op.Allowed s) :
    ∃ s' it r', exec s op = some (s', it) ∧ Spec r op it r' ∧ Refines s' r' := by
  have hitems : ∀ this < s.lists, s.items this = names (r.entries this) := by
    intro this hthis
    obtain ⟨free, hholds⟩ := h.holds this hthis
    exact hholds.items_eq
  cases op with
  | create => exact ⟨_, none, _, rfl, ⟨rfl, rfl⟩, h.create_spec⟩
  | insert this position value =>
    exact exec_inserts (h.insert_spec hop.1 (h.position hop.1 hop.2) value)
  | prepend this value =>
    rw [exec, State.prepend, h.begin_eq hop]
    exact exec_inserts (h.insert_spec hop (Refines.begin_position r this) value)
  | append this value => exact exec_inserts (h.insert_spec hop (Or.inr rfl) value)
  | poolAppend this value =>
    rw [exec, PoolList.append_eq]
    exact exec_inserts (h.insert_spec hop (Or.inr rfl) value)
  | insertList this position list =>
    obtain ⟨hthis, hlist, hne, hposition⟩ := hop
    exact exec_inserts (h.insertList_spec hthis hlist hne (h.position hthis hposition))
  | prependList this list =>
    obtain ⟨hthis, hlist, hne⟩ := hop
    rw [exec, State.prependList, h.begin_eq hthis]
    exact exec_inserts (h.insertList_spec hthis hlist hne (Refines.begin_position r this))
  | appendList this list =>
    obtain ⟨hthis, hlist, hne⟩ := hop
    exact exec_inserts (h.insertList_spec hthis hlist hne (Or.inr rfl))
  | remove this it =>
    obtain ⟨hthis, hit⟩ := hop
    rw [hitems this hthis] at hit
    obtain ⟨s', next, r', hrun, hremoves, hs'⟩ := h.remove_spec hthis hit
    exact ⟨s', some next, r', by rw [exec, hrun]; rfl, hremoves, hs'⟩
  | removeValue this value =>
    obtain ⟨s', hrun, hs'⟩ := h.removeValue_spec hop value
    exact ⟨s', none, _, by rw [exec, hrun]; rfl, ⟨rfl, rfl⟩, hs'⟩
  | removeFront this =>
    obtain ⟨hthis, hne⟩ := hop
    have hne' : r.entries this ≠ [] := fun hnil => hne (by rw [hitems this hthis, hnil]; rfl)
    obtain ⟨s', hrun, hs'⟩ := h.removeFront_spec hthis hne'
    exact ⟨s', _, _, by rw [exec, hrun]; rfl, ⟨rfl, rfl⟩, hs'⟩
  | removeBack this =>
    obtain ⟨hthis, hne⟩ := hop
    have hne' : r.entries this ≠ [] := fun hnil => hne (by rw [hitems this hthis, hnil]; rfl)
    obtain ⟨s', hrun, hs'⟩ := h.removeBack_spec hthis hne'
    exact ⟨s', _, _, by rw [exec, hrun]; rfl, ⟨rfl, rfl⟩, hs'⟩
  | clear this =>
    obtain ⟨s', hrun, hs'⟩ := h.clear_spec hop
    exact ⟨s', none, _, by rw [exec, hrun]; rfl, ⟨rfl, rfl⟩, hs'⟩
  | swap this other => exact ⟨_, none, _, rfl, ⟨rfl, rfl⟩, h.swap_spec hop.1 hop.2⟩

/-- Programs with lists: what they do, and the iterators they get -/
def system (V : Type) [BEq V] : System (State V) (Op V × Option Addr) where
  initial s := s = empty
  step s es s' := ∃ op it, es = [(op, it)] ∧ op.Allowed s ∧ exec s op = some (s', it)

/-- The same programs with lists of entries -/
def referenceSystem (V : Type) [BEq V] : System (Reference V) (Op V × Option Addr) where
  initial r := r = ⟨0, fun _ => []⟩
  step r es r' := ∃ op it, es = [(op, it)] ∧ Spec r op it r'

lemma empty_refines : Refines (empty : State V) ⟨0, fun _ => []⟩ :=
  ⟨rfl, ⟨⟨fun _ hx => absurd hx (Nat.not_lt_zero _), fun _ hx => absurd hx (Nat.not_lt_zero _),
    fun _ hx => absurd hx (Nat.not_lt_zero _)⟩, fun _ _ _ => rfl⟩,
    fun _ hx => absurd hx (Nat.not_lt_zero _)⟩

/-- Every run does what the reference does. -/
lemma run_refines [BEq V] {trace : List (Op V × Option Addr)} {s : State V}
    (h : (system V).Run trace s) : ∃ r, (referenceSystem V).Run trace r ∧ Refines s r := by
  refine h.simulation ?_ ?_
  · rintro s rfl
    exact ⟨_, rfl, empty_refines⟩
  · rintro s r es s' hs ⟨op, it, rfl, hop, hexec⟩
    obtain ⟨s₁, it₁, r', hexec₁, hspec, hs'⟩ := exec_spec hs hop
    obtain ⟨rfl, rfl⟩ := Prod.mk.inj (Option.some_inj.mp (hexec₁.symm.trans hexec))
    exact ⟨r', ⟨op, it₁, rfl, hspec⟩, hs'⟩

/-- **Lists are lists of entries** in every run: the iterators are those of the reference, in which
    new values get items that are in no list.  From `begin` to the sentinel an object links its
    entries both ways, and the sentinel knows the last of them; the entries and the free items are the
    items of its blocks, each once, which no other object has; and the next operation that is allowed
    returns. -/
theorem lists_refine [BEq V] {trace : List (Op V × Option Addr)} {s : State V}
    (h : (system V).Run trace s) :
    ∃ r : Reference V, (referenceSystem V).Run trace r ∧ r.count = s.lists ∧ s.Owned
      ∧ (∀ x < s.lists, ∃ free, s.Holds x (r.entries x) free
        ∧ (names (r.entries x) ++ free).Nodup
        ∧ s.prev (.endItem x) = (names (r.entries x)).getLast?)
      ∧ ∀ op : Op V, op.Allowed s → (exec s op).isSome := by
  obtain ⟨r, hrun, hs⟩ := run_refines h
  refine ⟨r, hrun, hs.count, hs.owned, fun x hx => ?_, fun op hop => ?_⟩
  · obtain ⟨free, hholds⟩ := hs.holds x hx
    exact ⟨free, hholds, hholds.nodup (hs.owned.nodup hx),
      hholds.chain.prev_eq.trans (endOf_none _)⟩
  · obtain ⟨s', it, r', hexec, -⟩ := exec_spec hs hop
    rw [hexec]
    rfl

/-- Two values in a list that is swapped with another one; the last value is the one before. -/
theorem lists_refine_swap : ∃ r : Reference ℕ, (referenceSystem ℕ).Run
      [(.create, none), (.create, none), (.append 0 7, some (.slot 0 3)),
        (.prepend 0 8, some (.slot 0 2)), (.swap 0 1, none)] r
    ∧ (names (r.entries 1)).getLast? = some (Addr.slot 0 3) := by
  obtain ⟨r, hrun, -, -, hholds, -⟩ := lists_refine (V := ℕ) (.next (.next (.next (.next (.next
    (.start rfl) ⟨.create, none, rfl, trivial, rfl⟩) ⟨.create, none, rfl, trivial, rfl⟩)
    ⟨.append 0 7, some (.slot 0 3), rfl, (Nat.zero_lt_two : 0 < 2), rfl⟩)
    ⟨.prepend 0 8, some (.slot 0 2), rfl, (Nat.zero_lt_two : 0 < 2), rfl⟩)
    ⟨.swap 0 1, none, rfl, (⟨Nat.zero_lt_two, Nat.one_lt_two⟩ : 0 < 2 ∧ 1 < 2), rfl⟩)
  obtain ⟨free, -, -, hlast⟩ := hholds 1 Nat.one_lt_two
  exact ⟨r, hrun, hlast.symm⟩

end Nstd.LinkedList
