import Nstd.Container.HashTableSteps
import Nstd.Core.System

/-!
# Programs with hash containers

* `Op.Allowed` — what an operation needs of a program; `Op.Fits` — the buckets that it looks in are
  there.
* `Spec` — what operations do to lists of entries.
* `exec_spec`, `exec_eq_none` — one operation, which fails if it does not fit.
* **`maps_refine`** — every run whose operations fit does what the reference does.
* `append_beyond_table` — a capacity whose table is too small.

A key belongs to one bucket, and the chain of a bucket has the items with such keys.  Each operation
changes one chain and the list of all items at one place, and fails only if the bucket is not in the
table.
-/

namespace Nstd.HashTable

open Entries
open State

variable {T V : Type}

namespace Op

/-- What an operation needs of a program: its objects are there, iterators belong to them, keys that
    are appended to their own container equal themselves, another container is another one, and there
    is something to remove. -/
def Allowed [BEq T] (s : State T V) : Op T V → Prop
  | .create capacity => capacity < 2 ^ 64
  | .insert this position _ _ _ =>
    this < s.maps ∧ (position ∈ s.items this ∨ position = .endItem this)
  | .append this _ _ _ | .prepend this _ _ _ => this < s.maps
  | .appendAll this other => this < s.maps ∧ other < s.maps
      ∧ (this = other → ∀ a ∈ s.items other, (s.key a == s.key a) = true)
  | .find this _ | .removeKey this _ | .clear this => this < s.maps
  | .removeAll this other => this < s.maps ∧ other < s.maps ∧ other ≠ this
  | .remove this it | .assign this it _ => this < s.maps ∧ it ∈ s.items this
  | .removeFront this | .removeBack this => this < s.maps ∧ s.items this ≠ []
  | .swap this other => this < s.maps ∧ other < s.maps

/-- **When an operation is right**: the bucket of the key is in the table, which is made for an item
    if there is none yet. -/
def Fits (hash : T → ℕ) (s : State T V) : Op T V → Prop
  | .insert this _ key _ _ | .append this key _ _ | .prepend this key _ _ => s.Fits hash this key
  | .appendAll this other => ∀ a ∈ s.items other, s.Fits hash this (s.key a)
  | .find this key | .removeKey this key => (s.map this).data.isSome → s.Fits hash this key
  | .removeAll this other =>
    ∀ a ∈ s.items other, (s.map this).data.isSome → s.Fits hash this (s.key a)
  | _ => True

end Op

/-- **What operations do** to lists of entries, and the iterators they return -/
def Spec [BEq T] [Inhabited V] (kind : Kind) (r : EntryLists T V) :
    Op T V → Option Addr → EntryLists T V → Prop
  | .create _, it, r' => it = none ∧ r' = ⟨r.count + 1, Function.update r.entries r.count []⟩
  | .insert this position key value overwrite, it, r' =>
    ∃ a, it = some a ∧ Puts kind r this position key value overwrite a r'
  | .append this key value overwrite, it, r' =>
    ∃ a, it = some a ∧ Puts kind r this (.endItem this) key value overwrite a r'
  | .prepend this key value overwrite, it, r' => ∃ a, it = some a
      ∧ Puts kind r this (firstName (.endItem this) (r.entries this)) key value overwrite a r'
  | .appendAll this other, it, r' => it = none ∧ PutsAll kind this (r.entries other) r r'
  | .find this key, it, r' =>
    it = some (((find? key (r.entries this)).map Entry.name).getD (.endItem this)) ∧ r' = r
  | .removeKey this key, it, r' => it = none ∧ r' = drop r this key
  | .removeAll this other, it, r' =>
    it = none ∧ r' = (r.entries other).foldl (fun r e => drop r this e.key) r
  | .remove this name, it, r' => r.Removes this name it r'
  | .removeFront this, it, r' => it = some (firstName (.endItem this) (r.entries this).tail)
      ∧ r' = r.set this (r.entries this).tail
  | .removeBack this, it, r' => it = some (.endItem this)
      ∧ r' = r.set this (r.entries this).dropLast
  | .clear this, it, r' => it = none ∧ r' = r.set this []
  | .swap this other, it, r' =>
    it = none ∧ r' = (r.set this (r.entries other)).set other (r.entries this)
  | .assign this name value, it, r' =>
    it = none ∧ r' = r.set this (Entries.assign name value (r.entries this))

section Exec

variable [BEq T] [PartialEquivBEq T] [Inhabited V] {hash : T → ℕ} {s : State T V}
  {r : EntryLists T V}

omit [PartialEquivBEq T] [Inhabited V] in
lemma Refines.items_eq (h : Refines hash s r) {this : ℕ} (hthis : this < s.maps) :
    s.items this = names (r.entries this) := by
  obtain ⟨free, hholds⟩ := h.holds this hthis
  exact hholds.valid.items_eq

omit [PartialEquivBEq T] [Inhabited V] in
/-- The keys of the items are those of the entries. -/
lemma Refines.forall_items (h : Refines hash s r) {this : ℕ} (hthis : this < s.maps)
    (p : T → Prop) : (∀ a ∈ s.items this, p (s.key a)) ↔ ∀ e ∈ r.entries this, p e.key := by
  obtain ⟨free, hholds⟩ := h.holds this hthis
  rw [h.items_eq hthis, names, List.forall_mem_map]
  refine forall₂_congr fun e he => ?_
  rw [hholds.keys e he]

omit [PartialEquivBEq T] [Inhabited V] in
lemma Refines.begin_firstName (h : Refines hash s r) {this : ℕ} (hthis : this < s.maps) :
    (s.map this).begin = firstName (.endItem this) (r.entries this)
      ∧ ((s.map this).begin ∈ names (r.entries this) ∨ (s.map this).begin = .endItem this) := by
  cases hl : r.entries this with
  | nil =>
    have hbegin : (s.map this).begin = .endItem this := h.begin_eq hthis (by rw [hl]; rfl)
    exact ⟨hbegin, Or.inr hbegin⟩
  | cons e l =>
    have hbegin : (s.map this).begin = e.name := h.begin_eq hthis (by rw [hl]; rfl)
    exact ⟨hbegin, Or.inl (hbegin ▸ List.mem_cons_self)⟩

/-- **One operation** that fits does what it does to lists of entries. -/
theorem exec_spec (h : Refines hash s r) (hhash : ∀ k k' : T, (k == k') = true → hash k = hash k')
    (kind : Kind) {op : Op T V} (hop : op.Allowed s) (hfits : op.Fits hash s) :
    ∃ s' it r', exec hash kind s op = some (s', it) ∧ Spec kind r op it r'
      ∧ Refines hash s' r' := by
  cases op with
  | create capacity => exact ⟨_, none, _, rfl, ⟨rfl, rfl⟩, h.create_spec capacity⟩
  | insert this position key value overwrite =>
    obtain ⟨hthis, hposition⟩ := hop
    rw [h.items_eq hthis] at hposition
    obtain ⟨s', it, r', hrun, hputs, hs', -⟩ :=
      h.insert_step hhash hthis hposition hfits kind value overwrite
    exact ⟨s', some it, r', by rw [exec, hrun]; rfl, ⟨it, rfl, hputs⟩, hs'⟩
  | append this key value overwrite =>
    obtain ⟨s', it, r', hrun, hputs, hs', -⟩ :=
      h.insert_step hhash hop (Or.inr rfl) hfits kind value overwrite
    exact ⟨s', some it, r', by rw [exec, hrun]; rfl, ⟨it, rfl, hputs⟩, hs'⟩
  | prepend this key value overwrite =>
    obtain ⟨hbegin, hposition⟩ := h.begin_firstName hop
    obtain ⟨s', it, r', hrun, hputs, hs', -⟩ :=
      h.insert_step hhash hop hposition hfits kind value overwrite
    rw [hbegin] at hputs
    exact ⟨s', some it, r', by rw [exec, hrun]; rfl, ⟨it, rfl, hputs⟩, hs'⟩
  | appendAll this other =>
    obtain ⟨hthis, hother, hrefl⟩ := hop
    have hrefl' : this = other → ∀ e ∈ r.entries other, (e.key == e.key) = true := fun heq =>
      (h.forall_items hother fun k => (k == k) = true).mp (hrefl heq)
    obtain ⟨s', r', hrun, hputs, hs'⟩ := (h.appendAll_step hhash kind hthis hother hrefl').1
      ((h.forall_items hother (s.Fits hash this)).mp hfits)
    exact ⟨s', none, r', by rw [exec, hrun]; rfl, ⟨rfl, hputs⟩, hs'⟩
  | find this key =>
    exact ⟨s, _, r, by rw [exec, h.find_step hhash hop hfits]; rfl, ⟨rfl, rfl⟩, h⟩
  | removeKey this key =>
    obtain ⟨s', hrun, hs', -⟩ := h.removeKey_step hhash hop hfits
    exact ⟨s', none, _, by rw [exec, hrun]; rfl, ⟨rfl, rfl⟩, hs'⟩
  | removeAll this other =>
    obtain ⟨hthis, hother, hne⟩ := hop
    obtain ⟨s', hrun, hs'⟩ := (h.removeAll_step hhash hthis hother hne).1
      ((h.forall_items hother fun k => (s.map this).data.isSome → s.Fits hash this k).mp hfits)
    exact ⟨s', none, _, by rw [exec, hrun]; rfl, ⟨rfl, rfl⟩, hs'⟩
  | remove this it =>
    obtain ⟨hthis, hit⟩ := hop
    rw [h.items_eq hthis] at hit
    obtain ⟨s', next, r', hrun, hremoves, hs'⟩ := h.remove_spec hthis hit
    exact ⟨s', some next, r', by rw [exec, hrun]; rfl, hremoves, hs'⟩
  | removeFront this =>
    obtain ⟨hthis, hne⟩ := hop
    have hne' : r.entries this ≠ [] := fun hnil => hne (by rw [h.items_eq hthis, hnil]; rfl)
    obtain ⟨s', hrun, hs'⟩ := h.removeFront_spec hthis hne'
    exact ⟨s', _, _, by rw [exec, hrun]; rfl, ⟨rfl, rfl⟩, hs'⟩
  | removeBack this =>
    obtain ⟨hthis, hne⟩ := hop
    have hne' : r.entries this ≠ [] := fun hnil => hne (by rw [h.items_eq hthis, hnil]; rfl)
    obtain ⟨s', hrun, hs'⟩ := h.removeBack_spec hthis hne'
    exact ⟨s', _, _, by rw [exec, hrun]; rfl, ⟨rfl, rfl⟩, hs'⟩
  | clear this =>
    obtain ⟨s', hrun, hs', -⟩ := h.clear_spec hop
    exact ⟨s', none, _, by rw [exec, hrun]; rfl, ⟨rfl, rfl⟩, hs'⟩
  | swap this other => exact ⟨_, none, _, rfl, ⟨rfl, rfl⟩, h.swap_spec hop.1 hop.2⟩
  | assign this it value =>
    obtain ⟨hthis, hit⟩ := hop
    rw [h.items_eq hthis] at hit
    exact ⟨_, none, _, rfl, ⟨rfl, rfl⟩, (h.assign_step hthis hit value).1⟩

/-- **One operation** that does not fit reads or writes beyond the table. -/
theorem exec_eq_none (h : Refines hash s r)
    (hhash : ∀ k k' : T, (k == k') = true → hash k = hash k') (kind : Kind) {op : Op T V}
    (hop : op.Allowed s) (hfits : ¬ op.Fits hash s) : exec hash kind s op = none := by
  cases op with
  | insert this position key value overwrite =>
    rw [exec, h.insert_eq_none hop.1 hfits]
    rfl
  | append this key value overwrite =>
    rw [exec, h.insert_eq_none hop hfits]
    rfl
  | prepend this key value overwrite =>
    rw [exec, h.insert_eq_none hop hfits]
    rfl
  | appendAll this other =>
    obtain ⟨hthis, hother, hrefl⟩ := hop
    have hrefl' : this = other → ∀ e ∈ r.entries other, (e.key == e.key) = true := fun heq =>
      (h.forall_items hother fun k => (k == k) = true).mp (hrefl heq)
    rw [exec, (h.appendAll_step hhash kind hthis hother hrefl').2
      ((h.forall_items hother (s.Fits hash this)).not.mp hfits)]
    rfl
  | find this key =>
    rw [exec, h.find_fails hop hfits]
    rfl
  | removeKey this key =>
    rw [exec, removeKey, h.find_fails hop hfits]
    rfl
  | removeAll this other =>
    obtain ⟨hthis, hother, hne⟩ := hop
    rw [exec, (h.removeAll_step hhash hthis hother hne).2
      ((h.forall_items hother fun k => (s.map this).data.isSome → s.Fits hash this k).not.mp
        hfits)]
    rfl
  | create | remove | removeFront | removeBack | clear | swap | assign => exact absurd trivial hfits

end Exec

/-! ## Runs -/

section Runs

variable [BEq T] [Inhabited T] [Inhabited V]

/-- Programs with containers, whose operations fit: what they do, and the iterators they get -/
def system (hash : T → ℕ) (kind : Kind) : System (State T V) (Op T V × Option Addr) where
  initial s := s = State.empty
  step s es s' := ∃ op it, es = [(op, it)] ∧ op.Allowed s ∧ op.Fits hash s
    ∧ exec hash kind s op = some (s', it)

omit [Inhabited T] in
/-- The same programs with lists of entries -/
def referenceSystem (T V : Type) [BEq T] [Inhabited V] (kind : Kind) :
    System (EntryLists T V) (Op T V × Option Addr) where
  initial r := r = ⟨0, fun _ => []⟩
  step r es r' := ∃ op it, es = [(op, it)] ∧ Spec kind r op it r'

lemma empty_refines (hash : T → ℕ) : Refines hash (State.empty : State T V) ⟨0, fun _ => []⟩ :=
  ⟨rfl, ⟨fun _ hx => absurd hx (Nat.not_lt_zero _), fun _ hx => absurd hx (Nat.not_lt_zero _),
    fun _ hx => absurd hx (Nat.not_lt_zero _), fun _ hx => absurd hx (Nat.not_lt_zero _),
    fun _ hx => absurd hx (Nat.not_lt_zero _)⟩, fun _ hx => absurd hx (Nat.not_lt_zero _)⟩

omit [Inhabited T] [Inhabited V] in
/-- An item knows the pointer to it. -/
lemma Refines.pointer_cell {hash : T → ℕ} {s : State T V} {r : EntryLists T V}
    (h : Refines hash s r) {x : ℕ} (hx : x < s.maps) {e : Entry Addr T V} (he : e ∈ r.entries x) :
    s.pointer (s.cell e.name) = some e.name := by
  obtain ⟨free, hholds⟩ := h.holds x hx
  have hmem : e.name ∈ names (r.entries x) := List.mem_map_of_mem he
  obtain ⟨data, -, chain, ht⟩ := hholds.valid.hashed.table hmem
  exact (ht.hung _ (ht.inside _ hmem)).pointer_cell ((ht.mem _ _).mpr ⟨hmem, rfl⟩)

/-- **Containers are lists of entries** in every run whose operations fit: the iterators are those of
    the reference, in which a new key gets an item that is in no list.  An object links its entries
    both ways, from `begin` to the sentinel; keys are different; an item hangs in the bucket of its
    key and knows the pointer to it; the free items and these are the items of its blocks; objects
    share nothing; and of the operations that are allowed next just those return that fit. -/
theorem maps_refine [PartialEquivBEq T] {hash : T → ℕ}
    (hhash : ∀ k k' : T, (k == k') = true → hash k = hash k') {kind : Kind}
    {trace : List (Op T V × Option Addr)} {s : State T V}
    (h : (system hash kind).Run trace s) :
    ∃ r : EntryLists T V, (referenceSystem T V kind).Run trace r ∧ Refines hash s r
      ∧ (∀ x < s.maps, ∀ e ∈ r.entries x, s.pointer (s.cell e.name) = some e.name)
      ∧ ∀ op : Op T V, op.Allowed s → ((exec hash kind s op).isSome ↔ op.Fits hash s) := by
  have hsimulation : ∃ r, (referenceSystem T V kind).Run trace r ∧ Refines hash s r := by
    refine h.simulation ?_ ?_
    · rintro s rfl
      exact ⟨_, rfl, empty_refines hash⟩
    · rintro s r es s' hs ⟨op, it, rfl, hop, hfits, hexec⟩
      obtain ⟨s₁, it₁, r', hexec₁, hspec, hs'⟩ := exec_spec hs hhash kind hop hfits
      obtain ⟨rfl, rfl⟩ := Prod.mk.inj (Option.some_inj.mp (hexec₁.symm.trans hexec))
      exact ⟨r', ⟨op, it₁, rfl, hspec⟩, hs'⟩
  obtain ⟨r, hrun, hs⟩ := hsimulation
  refine ⟨r, hrun, hs, fun x hx e he => hs.pointer_cell hx he, fun op hop => ?_⟩
  constructor
  · intro hsome
    by_contra hfits
    rw [exec_eq_none hs hhash kind hop hfits] at hsome
    exact Bool.false_ne_true hsome
  · intro hfits
    obtain ⟨s', it, r', hexec, -⟩ := exec_spec hs hhash kind hop hfits
    rw [hexec]
    rfl

end Runs

/-- Two keys in one bucket; the first one is removed, and the other one is found. -/
def collision : List (Op ℕ ℕ × Option Addr) :=
  [(.create 2, none), (.append 0 1 10 true, some (.slot 0 0)),
    (.append 0 3 30 true, some (.slot 0 3)), (.removeKey 0 1, none), (.find 0 3, some (.slot 0 3))]

/-- `maps_refine` for such a run -/
theorem maps_refine_collision : ∃ s r, (referenceSystem ℕ ℕ .hashMap).Run collision r
    ∧ Refines id s r := by
  have hhash : ∀ k k' : ℕ, (k == k') = true → id k = id k' := fun k k' h => eq_of_beq h
  have h₀ : (system id .hashMap).Run [] (State.empty : State ℕ ℕ) := .start rfl
  have h₁ := h₀.next ⟨.create 2, none, rfl, (by decide : 2 < 2 ^ 64), trivial, rfl⟩
  have h₂ := h₁.next ⟨.append 0 1 10 true, some (.slot 0 0), rfl, Nat.zero_lt_one,
    (by decide : 1 % 2 < 16 / 8), rfl⟩
  have h₃ := h₂.next ⟨.append 0 3 30 true, some (.slot 0 3), rfl, Nat.zero_lt_one,
    (by decide : 3 % 2 < 16 / 8), rfl⟩
  have h₄ := h₃.next ⟨.removeKey 0 1, none, rfl, Nat.zero_lt_one,
    fun _ => (by decide : 1 % 2 < 16 / 8), rfl⟩
  have h₅ := h₄.next ⟨.find 0 3, some (.slot 0 3), rfl, Nat.zero_lt_one,
    fun _ => (by decide : 3 % 2 < 16 / 8), rfl⟩
  obtain ⟨r, hrun, hs, -⟩ := maps_refine hhash h₅
  exact ⟨_, r, hrun, hs⟩

/-- **A capacity of 2⁶¹ + 1**: the table has one entry, and a key with the hash 5 is put into the
    sixth. -/
theorem append_beyond_table : ∃ s : State ℕ ℕ,
    Op.Allowed (State.empty : State ℕ ℕ) (.create (2 ^ 61 + 1))
      ∧ exec id .hashMap State.empty (.create (2 ^ 61 + 1)) = some (s, none)
      ∧ Op.Allowed s (.append 0 5 0 true) ∧ exec id .hashMap s (.append 0 5 0 true) = none := by
  have hcapacity : 2 ^ 61 + 1 < 2 ^ 64 := by decide
  exact ⟨_, hcapacity, rfl, Nat.zero_lt_one, rfl⟩

end Nstd.HashTable
