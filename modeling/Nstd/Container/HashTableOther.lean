import Mathlib.Data.List.Pairwise
import Nstd.Container.HashTableRuns

/-!
# A hash container and another one, which may be itself

* `assignAll` — `operator=`.
* `Distinct` — the keys of a container; `putsAll_entries` — what appending them comes to.
* `drop_eq`, `dropAll_entries` — what removing keys comes to.
* `removeFrom_self` — a container whose items are removed from it while it is walked along.
* **`appendAll_removeAll_iff`** — `HashSet::append` and `HashSet::remove` of a set do what they are for
  just when the buckets of its keys are there.
* `assigning_iff` — an assignment.

The loops follow `next`, which an item keeps when it is removed; so it makes no difference if the
argument is the set itself.
-/

namespace Nstd.HashTable

open Linked
open Entries
open State

variable {T V : Type}

/-- `operator=` of `HashMap` and of `HashSet` -/
def assignAll [BEq T] (hash : T → ℕ) [Inhabited V] (kind : Kind) (s : State T V)
    (this other : ℕ) : Option (State T V) := do
  let s ← s.clear this
  appendAll hash kind s this other

/-! ## Keys -/

section Keys

variable [BEq T]

/-- No key comes twice. -/
def Distinct (l : List (Entry Addr T V)) : Prop := l.Pairwise fun e e' => (e.key == e'.key) = false

lemma Holds.distinct {hash : T → ℕ} {s : State T V} {this : ℕ} {l : List (Entry Addr T V)}
    {free : List Addr} (h : Holds hash s this l free) : Distinct l := by
  have hunique := h.valid.unique
  rw [State.Unique, names, List.pairwise_map] at hunique
  refine hunique.imp_of_mem fun {e e'} he he' hkeys => ?_
  rwa [h.keys e he, h.keys e' he'] at hkeys

/-- Entries with the same key are the same. -/
lemma Distinct.eq [PartialEquivBEq T] {l : List (Entry Addr T V)} (h : Distinct l)
    {e e' : Entry Addr T V} (he : e ∈ l) (he' : e' ∈ l) (heq : (e.key == e'.key) = true) : e = e' := by
  have hsymm : Std.Symm fun e e' : Entry Addr T V => (e.key == e'.key) = false :=
    ⟨fun e e' hkeys => by rwa [BEq.comm]⟩
  by_contra hne
  rw [List.Pairwise.forall h he he' hne] at heq
  exact Bool.false_ne_true heq

lemma find?_append_none {l : List (Entry Addr T V)} {e : Entry Addr T V} {key : T}
    (h : (e.key == key) = false) : find? key (l ++ [e]) = find? key l := by
  rw [find?, List.find?_append, List.find?_cons_of_neg (by simp [h]), List.find?_nil, Option.or_none]
  rfl

/-- In an empty list there is no key. -/
lemma filter_absent_nil (k : List (Entry Addr T V)) :
    k.filter (fun e => (find? e.key ([] : List (Entry Addr T V))).isNone) = k :=
  List.filter_eq_self.mpr fun _ _ => rfl

/-- **Appending entries**, of which none is overwritten: the new ones are those whose key is not there
    yet. -/
lemma putsAll_entries [Inhabited V] {kind : Kind} {this : ℕ} {k : List (Entry Addr T V)} :
    ∀ {r r' : EntryLists T V}, PutsAll kind this k r r' → Distinct k →
    (kind = .hashMap → ∀ e ∈ k, find? e.key (r.entries this) = none) →
    Addr.endItem this ∉ names (r.entries this) →
    ∃ new, r' = r.set this (r.entries this ++ new)
      ∧ new.map (fun e => (e.key, e.value)) = (k.filter fun e =>
          (find? e.key (r.entries this)).isNone).map fun e => (e.key, kind.value e.value) := by
  induction k with
  | nil =>
    rintro r r' rfl - - -
    refine ⟨[], ?_, rfl⟩
    rw [List.append_nil, EntryLists.set_entries]
  | cons e k ih =>
    rintro r r' ⟨it, r₁, hputs, hputsAll⟩ hdistinct hmap hend
    obtain ⟨he, hdistinct⟩ := List.pairwise_cons.mp hdistinct
    rw [Puts] at hputs
    cases hfind : find? e.key (r.entries this) with
    | some e' =>
      rw [hfind] at hputs
      obtain ⟨-, hr₁⟩ := hputs
      have hkind : kind ≠ .hashMap := by
        intro hkind
        rw [hmap hkind e List.mem_cons_self] at hfind
        exact Option.some_ne_none _ hfind.symm
      rw [if_neg fun h => hkind h.1] at hr₁
      subst hr₁
      obtain ⟨new, hr', hnew⟩ := ih hputsAll hdistinct
        (fun hkind' => absurd hkind' hkind) hend
      refine ⟨new, hr', ?_⟩
      rw [hnew, List.filter_cons_of_neg (by simp [hfind])]
    | none =>
      rw [hfind] at hputs
      obtain ⟨hfresh, hr₁⟩ := hputs
      have hinsert : insertBefore (.endItem this) ⟨it, e.key, kind.value e.value⟩ (r.entries this)
          = r.entries this ++ [⟨it, e.key, kind.value e.value⟩] := by
        have happend := insertBefore_append ⟨it, e.key, kind.value e.value⟩ hend
          (show ∀ e' ∈ ([] : List (Entry Addr T V)).head?, _ from
            fun e' he' => absurd he' (Option.not_mem_none e'))
        rwa [List.append_nil] at happend
      rw [hinsert] at hr₁
      have hentries : r₁.entries this
          = r.entries this ++ [⟨it, e.key, kind.value e.value⟩] := by
        rw [hr₁, EntryLists.set_self]
      have hsame : ∀ e' ∈ k, find? e'.key (r₁.entries this) = find? e'.key (r.entries this) := by
        intro e' he'
        rw [hentries]
        exact find?_append_none (he e' he')
      obtain ⟨new, hr', hnew⟩ := ih hputsAll hdistinct
        (fun hkind e' he' => (hsame e' he').trans
          (hmap hkind e' (List.mem_cons_of_mem _ he')))
        (by
          rw [hentries, names_append]
          refine fun hmem => (List.mem_append.mp hmem).elim hend fun hit => ?_
          exact hfresh.1 this (List.mem_singleton.mp hit).symm)
      refine ⟨⟨it, e.key, kind.value e.value⟩ :: new, ?_, ?_⟩
      · rw [hr', hentries, hr₁, EntryLists.set_set, List.append_assoc, List.singleton_append]
      · rw [List.map_cons, hnew, List.filter_cons_of_pos (by simp [hfind]), List.map_cons,
          List.filter_congr fun e' he' => by rw [hsame e' he']]

/-- **Removing a key** is leaving the entries that do not have it. -/
lemma drop_eq [PartialEquivBEq T] {r : EntryLists T V} {this : ℕ}
    (hnd : (names (r.entries this)).Nodup) (hdistinct : Distinct (r.entries this)) (key : T) :
    drop r this key = r.set this ((r.entries this).filter fun e => !(e.key == key)) := by
  rw [drop]
  cases hfind : find? key (r.entries this) with
  | none =>
    have hall : ∀ e ∈ r.entries this, (!(e.key == key)) = true := fun e he => by
      simpa using List.find?_eq_none.mp hfind e he
    rw [List.filter_eq_self.mpr hall, EntryLists.set_entries]
  | some e =>
    have hkey : (e.key == key) = true := by
      rw [find?] at hfind
      simpa using List.find?_some hfind
    have hmem : e ∈ r.entries this := List.mem_of_find?_eq_some hfind
    change r.set this (Entries.remove e.name (r.entries this)) = _
    refine congrArg (r.set this) (List.filter_congr fun e' he' => ?_)
    by_cases hname : e'.name = e.name
    · obtain rfl := List.inj_on_of_nodup_map hnd he' hmem hname
      simp [hkey]
    · have hne : (e'.key == key) = false := by
        refine Bool.eq_false_iff.mpr fun hkey' => hname ?_
        have hsame := PartialEquivBEq.trans hkey' (PartialEquivBEq.symm hkey)
        rw [hdistinct.eq he' hmem hsame]
      simp [hname, hne]

/-- **Removing keys** is leaving the entries that have none of them. -/
lemma dropAll_entries [PartialEquivBEq T] {this : ℕ} {k : List (Entry Addr T V)} :
    ∀ {r : EntryLists T V}, (names (r.entries this)).Nodup → Distinct (r.entries this) →
    k.foldl (fun r e => drop r this e.key) r
      = r.set this ((r.entries this).filter fun e => (find? e.key k).isNone) := by
  induction k with
  | nil =>
    intro r _ _
    rw [List.foldl_nil, filter_absent_nil, EntryLists.set_entries]
  | cons e k ih =>
    intro r hnd hdistinct
    rw [List.foldl_cons, drop_eq hnd hdistinct, ih, EntryLists.set_set, EntryLists.set_self,
      List.filter_filter]
    · refine congrArg (r.set this) (List.filter_congr fun e' _ => ?_)
      rw [find?, find?, List.find?_cons, BEq.comm]
      cases e.key == e'.key with
      | true => exact Bool.and_false _
      | false => exact Bool.and_true _
    · rw [EntryLists.set_self]
      exact hnd.sublist (List.filter_sublist.map _)
    · rw [EntryLists.set_self]
      exact hdistinct.filter _

end Keys

namespace Refines

variable [BEq T] {hash : T → ℕ} {s : State T V} {r : EntryLists T V}

/-- The bucket of a key that is there is in the table. -/
lemma fits_of_mem (h : Refines hash s r) {this : ℕ} (hthis : this < s.maps) {e : Entry Addr T V}
    (he : e ∈ r.entries this) : s.Fits hash this e.key := by
  obtain ⟨free, hholds⟩ := h.holds this hthis
  have hmem : e.name ∈ names (r.entries this) := List.mem_map_of_mem he
  obtain ⟨data, -, chain, ht⟩ := hholds.valid.hashed.table hmem
  have hinside := ht.inside e.name hmem
  rwa [ht.cells, hholds.keys e he] at hinside

/-- **A container is walked along while its items are removed**: what comes after an item that is
    gone is still known to it, and is the first of the others. -/
lemma removeFrom_self [EquivBEq T] (hhash : ∀ k k' : T, (k == k') = true → hash k = hash k')
    {this : ℕ} {k : List (Entry Addr T V)} : ∀ {s : State T V} {r : EntryLists T V} {i : Addr}
    {tail : List Addr} {fuel : ℕ}, Refines hash s r → this < s.maps → r.entries this = k →
    names k ++ [.endItem this] = i :: tail → k.length < fuel →
    ∃ s', removeFrom hash this (.endItem this) fuel s i = some s'
      ∧ Refines hash s' (r.set this []) := by
  induction k with
  | nil =>
    intro s r i tail fuel h _ hk hi hfuel
    obtain ⟨rfl, -⟩ := List.cons.inj hi
    cases fuel with
    | zero => exact absurd hfuel (Nat.lt_irrefl 0)
    | succ fuel =>
      refine ⟨s, if_pos rfl, ?_⟩
      rw [← hk, EntryLists.set_entries]
      exact h
  | cons e k ih =>
    intro s r i tail fuel h hthis hk hi hfuel
    obtain ⟨rfl, rfl⟩ := List.cons.inj hi
    have he : e ∈ r.entries this := hk ▸ List.mem_cons_self
    obtain ⟨free, hholds⟩ := h.holds this hthis
    have hend : e.name ≠ .endItem this :=
      hholds.valid.stored.ne_endItem (List.mem_append_left _ (List.mem_map_of_mem he)) this
    have hfind := h.find_step hhash hthis fun _ => h.fits_of_mem hthis he
    have hhead : find? e.key (e :: k) = some e := List.find?_cons_of_pos BEq.rfl
    rw [hk, hhead] at hfind
    obtain ⟨s₁, hrun, h₁, hnext, -, -, honly, -⟩ :=
      h.unlink_step hthis (show r.entries this = [] ++ e :: k from hk)
    cases fuel with
    | zero => exact absurd hfuel (Nat.not_lt_zero _)
    | succ fuel =>
      have htail : ∃ tail, names k ++ [Addr.endItem this] = firstName (.endItem this) k :: tail := by
        cases k with
        | nil => exact ⟨[], rfl⟩
        | cons e' k => exact ⟨_, rfl⟩
      obtain ⟨tail, htail⟩ := htail
      obtain ⟨s', hrun', hs'⟩ := ih h₁ (honly.maps ▸ hthis) (EntryLists.set_self ..) htail
        (Nat.lt_of_succ_lt_succ hfuel)
      rw [EntryLists.set_set] at hs'
      refine ⟨s', ?_, hs'⟩
      rw [removeFrom, if_neg hend, hholds.keys e he, removeKey, hfind]
      simp only [Option.bind_eq_bind, Option.bind_some, Option.map_some, Option.getD_some]
      rw [if_pos hend]
      simp only [hrun, hnext, Option.bind_some, hrun']

end Refines

/-! ## What is right -/

section Sets

variable [BEq T] [Inhabited V]

/-- **What `HashSet::append` of a set is for**: behind the entries there are new ones, with those keys
    of the other set that were not there, and nothing else is changed. -/
def Appending (hash : T → ℕ) (s : State T V) (r : EntryLists T V) (this other : ℕ) : Prop :=
  ∃ s' new, appendAll hash .hashSet s this other = some s'
    ∧ new.map Entry.key = ((r.entries other).filter fun e =>
        (find? e.key (r.entries this)).isNone).map Entry.key
    ∧ Refines hash s' (r.set this (r.entries this ++ new))

omit [Inhabited V] in
/-- **What `HashSet::remove` of a set is for**: the entries are those whose key is not in the other set,
    and nothing else is changed. -/
def Removing (hash : T → ℕ) (s : State T V) (r : EntryLists T V) (this other : ℕ) : Prop :=
  ∃ s', removeAll hash s this other = some s'
    ∧ Refines hash s' (r.set this ((r.entries this).filter fun e =>
        (find? e.key (r.entries other)).isNone))

namespace Refines

variable {hash : T → ℕ} {s : State T V} {r : EntryLists T V}

omit [Inhabited V] in
/-- The names of an object, and its keys -/
lemma entries_spec (h : Refines hash s r) {this : ℕ} (hthis : this < s.maps) :
    (names (r.entries this)).Nodup ∧ Distinct (r.entries this)
      ∧ Addr.endItem this ∉ names (r.entries this) := by
  obtain ⟨free, hholds⟩ := h.holds this hthis
  refine ⟨(List.nodup_append.mp (hholds.valid.stored.nodup (h.owned.nodup this hthis))).1,
    hholds.distinct, fun hmem => ?_⟩
  exact hholds.valid.stored.ne_endItem (List.mem_append_left _ hmem) this rfl

omit [Inhabited V] in
/-- Without its items a set is what is left of it by itself. -/
lemma filter_self [EquivBEq T] (l : List (Entry Addr T V)) :
    l.filter (fun e => (find? e.key l).isNone) = [] := by
  refine List.filter_eq_nil_iff.mpr fun e he => ?_
  rw [Option.isNone_iff_eq_none, find?, List.find?_eq_none]
  exact fun hnone => hnone e he BEq.rfl

end Refines

/-- **`HashSet::append` and `HashSet::remove` of a set**, which may be the set itself: they are right
    just when the buckets of its keys are in the table, if there is one yet when keys are removed. -/
theorem appendAll_removeAll_iff [EquivBEq T] {hash : T → ℕ}
    (hhash : ∀ k k' : T, (k == k') = true → hash k = hash k') {s : State T V} {r : EntryLists T V}
    (h : Refines hash s r) {this other : ℕ} (hthis : this < s.maps) (hother : other < s.maps) :
    (Appending hash s r this other ↔ ∀ e ∈ r.entries other, s.Fits hash this e.key)
      ∧ (Removing hash s r this other ↔
        ∀ e ∈ r.entries other, (s.map this).data.isSome → s.Fits hash this e.key) := by
  obtain ⟨hnd, hdistinct, hend⟩ := h.entries_spec hthis
  constructor
  · obtain ⟨hsome, hnone⟩ := h.appendAll_step hhash .hashSet hthis hother fun _ _ _ => BEq.rfl
    constructor
    · rintro ⟨s', new, hrun, -⟩
      by_contra hfits
      rw [hnone hfits] at hrun
      exact Option.some_ne_none _ hrun.symm
    · intro hfits
      obtain ⟨s', r', hrun, hputs, hs'⟩ := hsome hfits
      obtain ⟨new, rfl, hnew⟩ := putsAll_entries hputs (h.entries_spec hother).2.1
        (fun hkind => Kind.noConfusion hkind) hend
      refine ⟨s', new, hrun, ?_, hs'⟩
      have hkeys := congrArg (List.map Prod.fst) hnew
      rwa [List.map_map, List.map_map] at hkeys
  · by_cases hne : other = this
    · subst hne
      obtain ⟨i, tail, htail⟩ : ∃ i tail,
          names (r.entries other) ++ [Addr.endItem other] = i :: tail :=
        List.exists_cons_of_ne_nil (by simp)
      obtain ⟨s', hrun, hs'⟩ := Refines.removeFrom_self hhash h hthis rfl htail (Nat.lt_succ_self _)
      refine ⟨fun _ e he _ => h.fits_of_mem hother he, fun _ => ⟨s', ?_, ?_⟩⟩
      · rw [removeAll, h.begin_eq hother htail, h.size_eq hother]
        exact hrun
      · rw [Refines.filter_self]
        exact hs'
    · obtain ⟨hsome, hnone⟩ := h.removeAll_step hhash hthis hother hne
      constructor
      · rintro ⟨s', hrun, -⟩
        by_contra hfits
        rw [hnone hfits] at hrun
        exact Option.some_ne_none _ hrun.symm
      · intro hfits
        obtain ⟨s', hrun, hs'⟩ := hsome hfits
        rw [dropAll_entries hnd hdistinct] at hs'
        exact ⟨s', hrun, hs'⟩

end Sets

/-- A set that is appended to itself and removed from itself -/
theorem appendAll_removeAll_itself : ∃ (s : State ℕ ℕ) (r : EntryLists ℕ ℕ),
    (system id .hashSet).Run [(.create 2, none), (.append 0 1 0 true, some (.slot 0 0)),
      (.append 0 3 0 true, some (.slot 0 3))] s
    ∧ Refines id s r ∧ Appending id s r 0 0 ∧ Removing id s r 0 0 := by
  have hhash : ∀ k k' : ℕ, (k == k') = true → id k = id k' := fun k k' h => eq_of_beq h
  have h₀ : (system id .hashSet).Run [] (State.empty : State ℕ ℕ) := .start rfl
  have h₁ := h₀.next ⟨.create 2, none, rfl, (by decide : 2 < 2 ^ 64), trivial, rfl⟩
  have h₂ := h₁.next ⟨.append 0 1 0 true, some (.slot 0 0), rfl, Nat.zero_lt_one,
    (by decide : 1 % 2 < 16 / 8), rfl⟩
  have h₃ := h₂.next ⟨.append 0 3 0 true, some (.slot 0 3), rfl, Nat.zero_lt_one,
    (by decide : 3 % 2 < 16 / 8), rfl⟩
  obtain ⟨r, -, h, -⟩ := maps_refine hhash h₃
  have hthis : 0 < 1 := Nat.zero_lt_one
  obtain ⟨hAppend, hRemove⟩ := appendAll_removeAll_iff hhash h hthis hthis
  exact ⟨_, r, h₃, h, hAppend.mpr fun e he => h.fits_of_mem hthis he,
    hRemove.mpr fun e he _ => h.fits_of_mem hthis he⟩

/-- **A capacity of 2⁶¹ + 1** for the set, and a key with the hash 5 in the other one -/
theorem appendAll_beyond_table : ∃ s : State ℕ ℕ,
    (system id .hashSet).Run [(.create (2 ^ 61 + 1), none), (.create 1, none),
      (.append 1 5 0 true, some (.slot 0 0))] s
    ∧ Op.Allowed s (.appendAll 0 1) ∧ appendAll id .hashSet s 0 1 = none := by
  have h₀ : (system id .hashSet).Run [] (State.empty : State ℕ ℕ) := .start rfl
  have h₁ := h₀.next ⟨.create (2 ^ 61 + 1), none, rfl, (by decide : 2 ^ 61 + 1 < 2 ^ 64), trivial, rfl⟩
  have h₂ := h₁.next ⟨.create 1, none, rfl, (by decide : 1 < 2 ^ 64), trivial, rfl⟩
  have h₃ := h₂.next ⟨.append 1 5 0 true, some (.slot 0 0), rfl, (by decide : 1 < 2),
    (by decide : 5 % 1 < 8 / 8), rfl⟩
  exact ⟨_, h₃, ⟨(by decide : 0 < 2), (by decide : 1 < 2), fun h => absurd h (by decide)⟩, rfl⟩

/-! ## Assignments -/

/-- **What an assignment is for**: the entries have the keys and values that those of the other
    container have now, and nothing else is changed. -/
def Assigning [BEq T] [Inhabited V] (hash : T → ℕ) (kind : Kind) (s : State T V)
    (r : EntryLists T V) (this other : ℕ) : Prop :=
  ∃ s' l, assignAll hash kind s this other = some s'
    ∧ l.map (fun e => (e.key, e.value))
      = (r.entries other).map (fun e => (e.key, kind.value e.value))
    ∧ Refines hash s' (r.set this l)

/-- **`operator=`** is right just when another container is assigned whose buckets are there, or an
    empty one. -/
lemma assigning_iff [BEq T] [PartialEquivBEq T] [Inhabited V] {hash : T → ℕ}
    (hhash : ∀ k k' : T, (k == k') = true → hash k = hash k') (kind : Kind) {s : State T V}
    {r : EntryLists T V} (h : Refines hash s r) {this other : ℕ} (hthis : this < s.maps)
    (hother : other < s.maps) : Assigning hash kind s r this other
      ↔ (other ≠ this ∧ ∀ e ∈ r.entries other, s.Fits hash this e.key) ∨ r.entries other = [] := by
  obtain ⟨s₁, hclear, h₁, honly⟩ := h.clear_spec hthis
  have hthis₁ : this < s₁.maps := honly.maps ▸ hthis
  have hother₁ : other < s₁.maps := honly.maps ▸ hother
  have hfits : ∀ key, s₁.Fits hash this key ↔ s.Fits hash this key := by
    intro key
    rw [Fits, Fits, honly.capacity]
  have hrun : assignAll hash kind s this other = appendAll hash kind s₁ this other := by
    rw [assignAll, hclear]
    rfl
  obtain ⟨hsome, hnone⟩ := h₁.appendAll_step hhash kind hthis₁ hother₁ fun heq e he => by
    rw [← heq, EntryLists.set_self] at he
    exact absurd he List.not_mem_nil
  by_cases hne : other = this
  · subst hne
    obtain ⟨s', r', hrun', hputs, hs'⟩ := hsome fun e he => by
      rw [EntryLists.set_self] at he
      exact absurd he List.not_mem_nil
    rw [EntryLists.set_self] at hputs
    obtain rfl : r' = r.set other [] := hputs
    constructor
    · rintro ⟨s'', l, hrun'', hl, hs''⟩
      rw [hrun, hrun'] at hrun''
      obtain rfl := Option.some_inj.mp hrun''
      have hlt : other < s'.maps := lt_of_lt_of_eq hother (h.count.symm.trans hs'.count)
      have hsize := hs''.size_eq hlt
      rw [hs'.size_eq hlt, EntryLists.set_self, EntryLists.set_self] at hsize
      obtain rfl := List.length_eq_zero_iff.mp hsize.symm
      exact Or.inr (List.map_eq_nil_iff.mp hl.symm)
    · rintro (⟨hne, -⟩ | hnil)
      · exact absurd rfl hne
      · exact ⟨s', [], hrun.trans hrun', by rw [hnil]; rfl, hs'⟩
  · rw [EntryLists.set_of_ne r hne] at hsome hnone
    have hall : (∀ e ∈ r.entries other, s₁.Fits hash this e.key)
        ↔ ∀ e ∈ r.entries other, s.Fits hash this e.key :=
      forall₂_congr fun e _ => hfits e.key
    constructor
    · rintro ⟨s', l, hrun', -⟩
      refine Or.inl ⟨hne, ?_⟩
      by_contra hnot
      rw [hrun, hnone (hall.not.mpr hnot)] at hrun'
      exact Option.some_ne_none _ hrun'.symm
    · intro hcases
      have hfit : ∀ e ∈ r.entries other, s₁.Fits hash this e.key := by
        rcases hcases with ⟨-, hfit⟩ | hnil
        · exact hall.mpr hfit
        · rw [hnil]
          exact fun e he => absurd he List.not_mem_nil
      obtain ⟨s', r', hrun', hputs, hs'⟩ := hsome hfit
      have hempty : (r.set this []).entries this = [] := EntryLists.set_self ..
      obtain ⟨new, rfl, hnew⟩ := putsAll_entries hputs (h.entries_spec hother).2.1
        (fun _ e _ => by rw [hempty]; rfl) (by rw [hempty]; exact List.not_mem_nil)
      rw [hempty] at hnew hs'
      rw [List.nil_append, EntryLists.set_set] at hs'
      refine ⟨s', new, hrun.trans hrun', ?_, hs'⟩
      rw [hnew, filter_absent_nil]

end Nstd.HashTable
