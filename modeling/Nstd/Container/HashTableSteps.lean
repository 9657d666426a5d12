import Nstd.Container.HashTableObjects
import Nstd.Core.EntryLists

/-!
# Hash containers and lists of entries

* `State.items` — the items from `begin` on, which iterators can point to.
* `Holds`, `Refines` — objects that hold the entries of a reference.
* `Puts`, `PutsAll`, `drop` — what inserting and removing do to lists of entries.
* `insert_step`, `appendAll_step`, `removeKey_step`, … — one operation each, and where it fails.
-/

namespace Nstd.HashTable

open Linked
open Entries
open State

variable {T V : Type}

namespace State

/-- The items of an object, from `begin` on -/
def items (s : State T V) (this : ℕ) : List Addr :=
  walk s.next (.endItem this) (s.map this).size (s.map this).begin

lemma Valid.items_eq [BEq T] {hash : T → ℕ} {s : State T V} {this : ℕ} {items free : List Addr}
    (h : Valid hash s this items free) : s.items this = items := by
  rw [State.items, h.listed.size]
  refine h.listed.chain.walk_eq rfl fun hmem => ?_
  exact h.stored.ne_endItem (List.mem_append_left _ hmem) this rfl

/-- The invariant does not depend on values. -/
lemma Valid.assign [BEq T] {hash : T → ℕ} {s : State T V} {this : ℕ} {items free : List Addr}
    (h : Valid hash s this items free) (it : Addr) (value : V) :
    Valid hash (s.assign it value) this items free := by
  refine ⟨⟨h.listed.chain, h.listed.size⟩, ⟨h.stored.freeChain, h.stored.slots⟩, ?_, h.unique⟩
  have hhashed := h.hashed
  unfold Hashed at hhashed ⊢
  rw [show (s.assign it value).map this = s.map this from rfl]
  cases hdata : (s.map this).data with
  | none => rwa [hdata] at hhashed
  | some data =>
    rw [hdata] at hhashed
    obtain ⟨chain, ht⟩ := hhashed
    exact ⟨chain, ht.cells, ht.hung, ht.mem, ht.nodup, ht.inside⟩

end State

/-- The value of a new item -/
def Kind.value [Inhabited V] : Kind → V → V
  | .hashMap, value => value
  | .hashSet, _ => default
  | .poolMap, _ => default

/-- What is done to an item that has the key already -/
def Kind.found (kind : Kind) (value : V) (overwrite : Bool) (s : State T V) (it : Addr) : State T V :=
  if kind = .hashMap ∧ overwrite = true then s.assign it value else s

/-- How an item is taken for a new key -/
def Kind.take : Kind → State T V → ℕ → T → V → State T V × Addr
  | .hashMap => newItem
  | .hashSet => newItem
  | .poolMap => newPoolItem

lemma Kind.insert_eq [BEq T] [Inhabited V] (kind : Kind) (hash : T → ℕ) (s : State T V) (this : ℕ)
    (position : Addr) (key : T) (value : V) (overwrite : Bool) :
    kind.insert hash s this position key value overwrite
      = s.insertWith hash (kind.found value overwrite) kind.take this position key
        (kind.value value) := by
  cases kind with
  | hashMap => cases overwrite <;> rfl
  | hashSet => rfl
  | poolMap => rfl

lemma Kind.take_spec (kind : Kind) {t : State T V} {this : ℕ} {used free : List Addr}
    (h : t.Stored this used free) (ho : t.Owned) (hthis : this < t.maps) (key : T) (value : V) :
    Taking t this key value used (kind.take t this key value) := by
  cases kind with
  | hashMap => exact newItem_spec h ho hthis key value
  | hashSet => exact newItem_spec h ho hthis key value
  | poolMap => exact newPoolItem_spec h ho hthis key value

/-! ## The reference -/

section Reference

variable [BEq T] [Inhabited V]

/-- An entry is inserted, unless there is one with the key, whose value may be overwritten. -/
def Puts (kind : Kind) (r : EntryLists T V) (this : ℕ) (position : Addr) (key : T) (value : V)
    (overwrite : Bool) (it : Addr) (r' : EntryLists T V) : Prop :=
  match find? key (r.entries this) with
  | some e =>
    it = e.name ∧ r' = if kind = .hashMap ∧ overwrite = true then
      r.set this (Entries.assign e.name value (r.entries this)) else r
  | none =>
    r.Fresh it ∧ r' = r.set this
      (insertBefore position ⟨it, key, kind.value value⟩ (r.entries this))

/-- Entries are inserted at the end, one after the other. -/
def PutsAll (kind : Kind) (this : ℕ) : List (Entry Addr T V) → EntryLists T V → EntryLists T V → Prop
  | [], r, r' => r' = r
  | e :: l, r, r' => ∃ it r₁, Puts kind r this (.endItem this) e.key e.value true it r₁
      ∧ PutsAll kind this l r₁ r'

omit [Inhabited V] in
/-- The entry with a key goes away, if there is one. -/
def drop (r : EntryLists T V) (this : ℕ) (key : T) : EntryLists T V :=
  match find? key (r.entries this) with
  | some e => r.set this (Entries.remove e.name (r.entries this))
  | none => r

end Reference

/-! ## Objects that hold entries -/

/-- **An object holds entries**: it is valid, with their items, keys and values. -/
structure Holds [BEq T] (hash : T → ℕ) (s : State T V) (this : ℕ) (l : List (Entry Addr T V))
    (free : List Addr) : Prop where
  valid : Valid hash s this (names l) free
  keys : ∀ e ∈ l, s.key e.name = e.key
  values : ∀ e ∈ l, s.value e.name = e.value

/-- **Objects hold the entries of a reference.** -/
structure Refines [BEq T] (hash : T → ℕ) (s : State T V) (r : EntryLists T V) : Prop where
  count : r.count = s.maps
  owned : s.Owned
  holds : ∀ x < s.maps, ∃ free, Holds hash s x (r.entries x) free

namespace Holds

variable [BEq T] {hash : T → ℕ} {s s' : State T V} {this : ℕ} {l l₁ l₂ : List (Entry Addr T V)}
  {free : List Addr}

/-- Another object was written to. -/
lemma congr (h : Holds hash s this l free) (hb : (s.map this).blocks.Nodup)
    (hmap : s'.map this = s.map this) (hitem : ∀ a, (s.map this).Owns this a → SameItem s s' a)
    (htable : ∀ data, (s.map this).data = some data → SameTable s s' data) :
    Holds hash s' this l free := by
  have hsame : ∀ e ∈ l, SameItem s s' e.name := fun e he =>
    hitem e.name (h.valid.stored.owns (List.mem_append_left _ (List.mem_map_of_mem he)))
  refine ⟨h.valid.congr hb hmap hitem htable, fun e he => ?_, fun e he => ?_⟩
  · rw [(hsame e he).key]
    exact h.keys e he
  · rw [(hsame e he).value]
    exact h.values e he

end Holds

namespace Refines

variable [BEq T] {hash : T → ℕ} {s : State T V} {r : EntryLists T V}

/-- Only one object was written to. -/
lemma set (h : Refines hash s r) {s' : State T V} {this : ℕ} {l : List (Entry Addr T V)}
    {free : List Addr} (hthis : this < s.maps) (honly : Only s s' this) (howned : s'.Owned)
    (hholds : Holds hash s' this l free) : Refines hash s' (r.set this l) := by
  refine ⟨h.count.trans honly.maps.symm, howned, fun x hx => ?_⟩
  rw [honly.maps] at hx
  by_cases hxt : x = this
  · subst hxt
    refine ⟨free, ?_⟩
    rw [EntryLists.set_self]
    exact hholds
  · obtain ⟨free', hx'⟩ := h.holds x hx
    have hmap := honly.map x hxt
    refine ⟨free', ?_⟩
    rw [EntryLists.set_of_ne r hxt]
    refine hx'.congr (h.owned.nodup x hx) hmap (fun a ha => honly.item a fun hown => ?_)
      fun data hd => honly.table data (h.owned.table x hx data hd) fun hd' => ?_
    · refine howned.not_owns (honly.maps ▸ hx) (honly.maps ▸ hthis) hxt ?_ hown
      rw [hmap]
      exact ha
    · refine hxt (howned.tableOwner x (honly.maps ▸ hx) this (honly.maps ▸ hthis) data ?_ hd')
      rw [hmap]
      exact hd

/-! ## Inserting -/

/-- A new item is in no list. -/
lemma fresh (h : Refines hash s r) {s' : State T V} {this : ℕ} (hthis : this < s.maps)
    (honly : Only s s' this) (howned : s'.Owned) {item : Addr} (hslot : ∀ x, item ≠ .endItem x)
    (hown : (s'.map this).Owns this item) (hitem : item ∉ names (r.entries this)) : r.Fresh item := by
  refine ⟨hslot, fun x hx hmem => ?_⟩
  rw [h.count] at hx
  by_cases hxt : x = this
  · exact hitem (hxt ▸ hmem)
  · obtain ⟨free, hholds⟩ := h.holds x hx
    refine howned.not_owns (honly.maps ▸ hx) (honly.maps ▸ hthis) hxt ?_ hown
    rw [honly.map x hxt]
    exact hholds.valid.stored.owns (List.mem_append_left _ hmem)

/-- The value of an item is overwritten. -/
lemma assign_step (h : Refines hash s r) {this : ℕ} (hthis : this < s.maps) {it : Addr}
    (hit : it ∈ names (r.entries this)) (value : V) :
    Refines hash (s.assign it value) (r.set this (Entries.assign it value (r.entries this)))
      ∧ Only s (s.assign it value) this := by
  obtain ⟨free, hholds⟩ := h.holds this hthis
  have hv := hholds.valid
  have hown : (s.map this).Owns this it := hv.stored.owns (List.mem_append_left _ hit)
  have honly : Only s (s.assign it value) this := by
    refine ⟨rfl, fun _ _ => rfl, rfl, Nat.le_refl _, fun _ hb => hb, fun _ hd => hd, fun a ha => ?_,
      fun _ _ _ => ⟨rfl, fun _ => rfl⟩⟩
    refine ⟨rfl, Function.update_of_ne ?_ .., rfl, rfl, rfl, rfl⟩
    rintro rfl
    exact ha hown
  have hentry : ∀ e ∈ Entries.assign it value (r.entries this), ∃ e₀ ∈ r.entries this,
      e.name = e₀.name ∧ e.key = e₀.key ∧ (e.name = it → e.value = value)
      ∧ (e.name ≠ it → e.value = e₀.value) := by
    intro e he
    obtain ⟨e₀, he₀, rfl⟩ := List.mem_map.mp he
    refine ⟨e₀, he₀, ?_⟩
    by_cases hname : e₀.name = it
    · rw [if_pos hname]
      exact ⟨rfl, rfl, fun _ => rfl, fun hne => absurd hname hne⟩
    · rw [if_neg hname]
      exact ⟨rfl, rfl, fun heq => absurd heq hname, fun _ => rfl⟩
  have howned : (s.assign it value).Owned :=
    ⟨h.owned.block, h.owned.nodup, h.owned.blockOwner, h.owned.table, h.owned.tableOwner⟩
  have hholds' : Holds hash (s.assign it value) this (Entries.assign it value (r.entries this))
      free := by
    refine ⟨?_, fun e he => ?_, fun e he => ?_⟩
    · rw [names_assign]
      exact hv.assign it value
    · obtain ⟨e₀, he₀, hname, hkey, -, -⟩ := hentry e he
      rw [hname, hkey]
      exact hholds.keys e₀ he₀
    · obtain ⟨e₀, he₀, hname, -, heq, hne⟩ := hentry e he
      by_cases hit' : e.name = it
      · rw [heq hit', hit']
        exact Function.update_self ..
      · rw [hne hit', ← hholds.values e₀ he₀, ← hname]
        exact Function.update_of_ne hit' ..
  exact ⟨h.set hthis honly howned hholds', honly⟩

section Insert

variable [Inhabited V] [PartialEquivBEq T]

omit [Inhabited V] [PartialEquivBEq T] in
/-- **A new item** goes where it is inserted. -/
lemma insert_new (h : Refines hash s r) {this : ℕ} (hthis : this < s.maps) {s' : State T V}
    {item position : Addr} {key : T} {value : V} {l₁ l₂ rest : List Addr}
    (hl : names (r.entries this) = l₁ ++ l₂) (hrest : l₂ ++ [Addr.endItem this] = position :: rest)
    (hinserted : Inserted hash s s' this item key value (l₁ ++ item :: l₂)) :
    r.Fresh item ∧ Refines hash s'
      (r.set this (insertBefore position ⟨item, key, value⟩ (r.entries this))) := by
  obtain ⟨free, hholds⟩ := h.holds this hthis
  obtain ⟨k₁, k₂, hk, rfl, rfl⟩ := exists_append hl
  obtain ⟨free', hvalid⟩ := hinserted.valid
  have hthis' : this < s'.maps := hinserted.only.maps ▸ hthis
  have hnd := (List.nodup_append.mp (hvalid.stored.nodup (hinserted.owned.nodup this hthis'))).1
  have hitem : item ∉ names (r.entries this) := by
    rw [hl]
    exact (List.nodup_cons.mp (List.perm_middle.nodup_iff.mp hnd)).1
  have hmem : item ∈ (names k₁ ++ item :: names k₂) ++ free' := by simp
  refine ⟨h.fresh hthis hinserted.only hinserted.owned (hvalid.stored.ne_endItem hmem)
    (hvalid.stored.owns hmem) hitem, ?_⟩
  have hndOld : (names (r.entries this)).Nodup :=
    (List.nodup_append.mp (hholds.valid.stored.nodup (h.owned.nodup this hthis))).1
  have hend : Addr.endItem this ∉ names (r.entries this) := fun hend =>
    hholds.valid.stored.ne_endItem (List.mem_append_left _ hend) this rfl
  have hold : ∀ e ∈ r.entries this, e.name ≠ item := by
    rintro e he rfl
    exact hitem (List.mem_map_of_mem he)
  have hentry : ∀ e ∈ k₁ ++ ⟨item, key, value⟩ :: k₂, e = ⟨item, key, value⟩ ∨ e ∈ r.entries this := by
    intro e he
    rw [hk]
    exact List.mem_cons.mp (List.perm_middle.mem_iff.mp he)
  have hholds' : Holds hash s' this (k₁ ++ ⟨item, key, value⟩ :: k₂) free' := by
    refine ⟨?_, fun e he => ?_, fun e he => ?_⟩
    · rw [names_append]
      exact hvalid
    · rw [hinserted.keys]
      rcases hentry e he with rfl | he
      · exact Function.update_self ..
      · rw [Function.update_of_ne (hold e he)]
        exact hholds.keys e he
    · rw [hinserted.values]
      rcases hentry e he with rfl | he
      · exact Function.update_self ..
      · rw [Function.update_of_ne (hold e he)]
        exact hholds.values e he
  have hset := h.set hthis hinserted.only hinserted.owned hholds'
  rw [hk] at hndOld hend ⊢
  rwa [insertBefore_split _ hrest hndOld hend]

/-- **Inserting** a key whose bucket is there -/
lemma insert_step (h : Refines hash s r) (hhash : ∀ k k' : T, (k == k') = true → hash k = hash k')
    {this : ℕ} (hthis : this < s.maps) {position : Addr}
    (hposition : position ∈ names (r.entries this) ∨ position = .endItem this) {key : T}
    (hfits : s.Fits hash this key) (kind : Kind) (value : V) (overwrite : Bool) :
    ∃ s' it r', kind.insert hash s this position key value overwrite = some (s', it)
      ∧ Puts kind r this position key value overwrite it r' ∧ Refines hash s' r'
      ∧ Only s s' this := by
  obtain ⟨free, hholds⟩ := h.holds this hthis
  have hfind := find?_names hholds.keys key
  rw [Kind.insert_eq]
  rcases insertWith_spec hholds.valid h.owned hthis hhash hfits hposition
    (kind.found value overwrite) (fun h ho hthis => kind.take_spec h ho hthis key _) with
    ⟨it, hit, hkey, hrun⟩ | ⟨hnew, s', item, l₁, l₂, rest, hl, hrest, hrun, hinserted⟩
  · rw [hholds.valid.unique.find hit hkey] at hfind
    obtain ⟨e, he, rfl⟩ := Option.map_eq_some_iff.mp hfind.symm
    refine ⟨_, _, if kind = .hashMap ∧ overwrite = true then
      r.set this (Entries.assign e.name value (r.entries this)) else r, hrun, ?_, ?_⟩
    · rw [Puts, he]
      exact ⟨rfl, rfl⟩
    · rw [Kind.found]
      split_ifs with hassign
      · exact h.assign_step hthis hit value
      · exact ⟨h, Only.refl s this⟩
  · have hnone : find? key (r.entries this) = none := by
      rw [List.find?_eq_none.mpr fun a ha => by rw [hnew a ha]; exact Bool.false_ne_true] at hfind
      exact Option.map_eq_none_iff.mp hfind.symm
    obtain ⟨hfresh, hs'⟩ := h.insert_new hthis hl hrest hinserted
    refine ⟨s', item, _, hrun, ?_, hs', hinserted.only⟩
    rw [Puts, hnone]
    exact ⟨hfresh, rfl⟩

omit [PartialEquivBEq T] in
/-- If the bucket is not there, inserting fails. -/
lemma insert_eq_none (h : Refines hash s r) {this : ℕ} (hthis : this < s.maps) {key : T}
    (hfits : ¬ s.Fits hash this key) (kind : Kind) (position : Addr) (value : V) (overwrite : Bool) :
    kind.insert hash s this position key value overwrite = none := by
  obtain ⟨free, hholds⟩ := h.holds this hthis
  rw [Kind.insert_eq]
  exact insertWith_eq_none hholds.valid h.owned hthis hfits _ _ _
    fun h ho hthis => kind.take_spec h ho hthis key _

omit [Inhabited V] [PartialEquivBEq T] in
/-- The item after an entry -/
lemma next_eq (h : Refines hash s r) {x : ℕ} (hx : x < s.maps) {k₁ k₂ : List (Entry Addr T V)}
    {e : Entry Addr T V} (hk : r.entries x = k₁ ++ e :: k₂) {next : Addr} {tail : List Addr}
    (hnext : names k₂ ++ [Addr.endItem x] = next :: tail) : s.next e.name = some next := by
  obtain ⟨free, hholds⟩ := h.holds x hx
  have hchain := hholds.valid.listed.chain
  rw [hk, names_append, List.append_assoc] at hchain
  change Chain _ _ _ (names k₁ ++ e.name :: (names k₂ ++ [Addr.endItem x])) at hchain
  rw [hnext] at hchain
  exact hchain.next_eq

/-- An entry of the other list is still there when it is inserted; in its own list it changes
    nothing. -/
lemma puts_entries (h : Refines hash s r) {this other : ℕ} (hthis : this < s.maps)
    {e : Entry Addr T V} (he : e ∈ r.entries other) (hrefl : this = other → (e.key == e.key) = true)
    {kind : Kind} {position it : Addr} {overwrite : Bool} {r' : EntryLists T V}
    (hputs : Puts kind r this position e.key e.value overwrite it r') :
    r'.entries other = r.entries other := by
  by_cases hne : this = other
  · subst hne
    obtain ⟨free, hholds⟩ := h.holds this hthis
    have hnd : (names (r.entries this)).Nodup :=
      (List.nodup_append.mp (hholds.valid.stored.nodup (h.owned.nodup this hthis))).1
    have hkey : (s.key e.name == e.key) = true := by
      rw [hholds.keys e he]
      exact hrefl rfl
    have hfind := find?_names hholds.keys e.key
    rw [hholds.valid.unique.find (List.mem_map_of_mem he) hkey] at hfind
    obtain ⟨e', he', hname⟩ := Option.map_eq_some_iff.mp hfind.symm
    rw [Puts, he'] at hputs
    obtain ⟨-, rfl⟩ := hputs
    split_ifs
    · rw [EntryLists.set_self, hname]
      refine assign_eq_self fun e'' he'' heq => ?_
      rw [List.inj_on_of_nodup_map hnd he'' he heq]
    · rfl
  · rw [Puts] at hputs
    cases hfind : find? e.key (r.entries this) with
    | some e' =>
      rw [hfind] at hputs
      obtain ⟨-, rfl⟩ := hputs
      split_ifs
      · exact EntryLists.set_of_ne r (Ne.symm hne) _
      · rfl
    | none =>
      rw [hfind] at hputs
      obtain ⟨-, rfl⟩ := hputs
      exact EntryLists.set_of_ne r (Ne.symm hne) _

/-- **The loop over another container** that inserts, and where it fails -/
lemma appendFrom_step (hhash : ∀ k k' : T, (k == k') = true → hash k = hash k') (kind : Kind)
    {this other : ℕ} {k : List (Entry Addr T V)} :
    ∀ {s : State T V} {r : EntryLists T V} {k₀ : List (Entry Addr T V)} {i : Addr}
      {tail : List Addr} {fuel : ℕ}, Refines hash s r → this < s.maps → other < s.maps →
    r.entries other = k₀ ++ k → names k ++ [.endItem other] = i :: tail → k.length < fuel →
    (this = other → ∀ e ∈ k, (e.key == e.key) = true) →
    ((∀ e ∈ k, s.Fits hash this e.key) →
      ∃ s' r', appendFrom hash kind this (.endItem other) fuel s i = some s'
        ∧ PutsAll kind this k r r' ∧ Refines hash s' r')
    ∧ ((¬ ∀ e ∈ k, s.Fits hash this e.key) →
      appendFrom hash kind this (.endItem other) fuel s i = none) := by
  induction k with
  | nil =>
    intro s r k₀ i tail fuel h _ _ _ hi hfuel _
    obtain ⟨rfl, -⟩ := List.cons.inj hi
    cases fuel with
    | zero => exact absurd hfuel (Nat.lt_irrefl 0)
    | succ fuel =>
      exact ⟨fun _ => ⟨s, r, if_pos rfl, rfl, h⟩,
        fun hnot => absurd (fun e he => absurd he List.not_mem_nil) hnot⟩
  | cons e k ih =>
    intro s r k₀ i tail fuel h hthis hother hk hi hfuel hrefl
    obtain ⟨rfl, rfl⟩ := List.cons.inj hi
    have he : e ∈ r.entries other := hk ▸ by simp
    obtain ⟨free, hholds⟩ := h.holds other hother
    have hend : e.name ≠ .endItem other :=
      hholds.valid.stored.ne_endItem (List.mem_append_left _ (List.mem_map_of_mem he)) other
    cases fuel with
    | zero => exact absurd hfuel (Nat.not_lt_zero _)
    | succ fuel =>
      rw [appendFrom, if_neg hend, hholds.keys e he, hholds.values e he]
      by_cases hhead : s.Fits hash this e.key
      · obtain ⟨s₁, it, r₁, hrun, hputs, h₁, honly⟩ :=
          h.insert_step hhash hthis (Or.inr rfl) hhead kind e.value true
        have hk₁ : r₁.entries other = (k₀ ++ [e]) ++ k := by
          rw [h.puts_entries hthis he (fun heq => hrefl heq e List.mem_cons_self) hputs, hk]
          simp
        obtain ⟨next, tail, htail⟩ : ∃ next tail, names k ++ [Addr.endItem other] = next :: tail :=
          List.exists_cons_of_ne_nil (by simp)
        have hother₁ : other < s₁.maps := honly.maps ▸ hother
        have hnext : s₁.next e.name = some next :=
          h₁.next_eq hother₁ (by rw [hk₁, List.append_assoc]; rfl) htail
        have hfits : ∀ key, s₁.Fits hash this key ↔ s.Fits hash this key := by
          intro key
          rw [Fits, Fits, honly.capacity]
        obtain ⟨hsome, hnone⟩ := ih h₁ (honly.maps ▸ hthis) hother₁ hk₁ htail
          (Nat.lt_of_succ_lt_succ hfuel)
          fun heq e' he' => hrefl heq e' (List.mem_cons_of_mem e he')
        simp only [hrun, hnext, Option.bind_eq_bind, Option.bind_some]
        refine ⟨fun hall => ?_, fun hnot => hnone fun hall => hnot ?_⟩
        · obtain ⟨s', r', hrun', hputs', h'⟩ := hsome fun e' he' =>
            (hfits _).mpr (hall e' (List.mem_cons_of_mem e he'))
          exact ⟨s', r', hrun', ⟨it, r₁, hputs, hputs'⟩, h'⟩
        · intro e' he'
          rcases List.mem_cons.mp he' with rfl | he'
          · exact hhead
          · exact (hfits _).mp (hall e' he')
      · refine ⟨fun hall => absurd (hall e List.mem_cons_self) hhead, fun _ => ?_⟩
        rw [h.insert_eq_none hthis hhead]
        rfl

omit [Inhabited V] [PartialEquivBEq T] in
/-- An object begins with the first entry. -/
lemma begin_eq (h : Refines hash s r) {this : ℕ} (hthis : this < s.maps) {i : Addr}
    {tail : List Addr} (hi : names (r.entries this) ++ [Addr.endItem this] = i :: tail) :
    (s.map this).begin = i := by
  obtain ⟨free, hholds⟩ := h.holds this hthis
  have hchain := hholds.valid.listed.chain
  rw [hi] at hchain
  exact Option.some_inj.mp hchain.1

omit [Inhabited V] [PartialEquivBEq T] in
lemma size_eq (h : Refines hash s r) {this : ℕ} (hthis : this < s.maps) :
    (s.map this).size = (r.entries this).length := by
  obtain ⟨free, hholds⟩ := h.holds this hthis
  rw [hholds.valid.listed.size, names, List.length_map]

/-- **`appendAll`**, and where it fails -/
lemma appendAll_step (h : Refines hash s r)
    (hhash : ∀ k k' : T, (k == k') = true → hash k = hash k') (kind : Kind) {this other : ℕ}
    (hthis : this < s.maps) (hother : other < s.maps)
    (hrefl : this = other → ∀ e ∈ r.entries other, (e.key == e.key) = true) :
    ((∀ e ∈ r.entries other, s.Fits hash this e.key) →
      ∃ s' r', appendAll hash kind s this other = some s'
        ∧ PutsAll kind this (r.entries other) r r' ∧ Refines hash s' r')
    ∧ ((¬ ∀ e ∈ r.entries other, s.Fits hash this e.key) →
      appendAll hash kind s this other = none) := by
  obtain ⟨i, tail, htail⟩ : ∃ i tail, names (r.entries other) ++ [Addr.endItem other] = i :: tail :=
    List.exists_cons_of_ne_nil (by simp)
  rw [appendAll, h.begin_eq hother htail, h.size_eq hother]
  exact appendFrom_step hhash kind h hthis hother (List.nil_append _).symm htail
    (Nat.lt_succ_self _) hrefl

end Insert

/-! ## Removing -/

/-- **`remove`** without the iterator, wherever the item is -/
lemma unlink_step (h : Refines hash s r) {this : ℕ} (hthis : this < s.maps)
    {l₁ l₂ : List (Entry Addr T V)} {e : Entry Addr T V} (hl : r.entries this = l₁ ++ e :: l₂) :
    ∃ s', s.unlink this e.name = some s' ∧ Refines hash s' (r.set this (l₁ ++ l₂))
      ∧ s'.next e.name = some (firstName (.endItem this) l₂)
      ∧ Entries.remove e.name (r.entries this) = l₁ ++ l₂
      ∧ nameAfter (.endItem this) e.name (r.entries this) = firstName (.endItem this) l₂
      ∧ Only s s' this ∧ (s'.map this).data = (s.map this).data := by
  obtain ⟨free, hholds⟩ := h.holds this hthis
  have hnd := (List.nodup_append.mp (hholds.valid.stored.nodup (h.owned.nodup this hthis))).1
  have hvalid := hholds.valid
  rw [hl, names_append] at hvalid
  obtain ⟨s', hrun, hremoved, hnext⟩ := unlink_spec hvalid h.owned hthis
  obtain ⟨free', hvalid'⟩ := hremoved.valid
  rw [hl] at hnd ⊢
  have hold : ∀ e' ∈ l₁ ++ l₂, e' ∈ r.entries this := fun e' he' =>
    hl ▸ List.perm_middle.mem_iff.mpr (List.mem_cons_of_mem e he')
  have hholds' : Holds hash s' this (l₁ ++ l₂) free' := by
    refine ⟨by rw [names_append]; exact hvalid', fun e' he' => ?_, fun e' he' => ?_⟩
    · rw [hremoved.keys]
      exact hholds.keys e' (hold e' he')
    · rw [hremoved.values]
      exact hholds.values e' (hold e' he')
  refine ⟨s', hrun, h.set hthis hremoved.only hremoved.owned hholds', hnext.trans ?_,
    remove_append hnd, nameAfter_append fun hmem => ?_, hremoved.only, ?_⟩
  · cases l₂ with
    | nil => rfl
    | cons e' l₂ => rfl
  · rw [names_append] at hnd
    exact (List.nodup_append.mp hnd).2.2 _ hmem _ List.mem_cons_self rfl
  · obtain ⟨data, hdata, -⟩ := hvalid.hashed.table (List.mem_append_right _ List.mem_cons_self)
    rw [hdata]
    exact hremoved.only.dataOf data hdata

/-- `remove`, wherever the item is -/
lemma remove_step (h : Refines hash s r) {this : ℕ} (hthis : this < s.maps)
    {l₁ l₂ : List (Entry Addr T V)} {e : Entry Addr T V} (hl : r.entries this = l₁ ++ e :: l₂) :
    ∃ s', s.remove this e.name = some (s', firstName (.endItem this) l₂)
      ∧ Refines hash s' (r.set this (l₁ ++ l₂)) := by
  obtain ⟨s', hrun, hs', hnext, -⟩ := h.unlink_step hthis hl
  refine ⟨s', ?_, hs'⟩
  rw [State.remove, hrun]
  simp only [Option.bind_eq_bind, Option.bind_some, hnext]

/-- **`remove` of an iterator** -/
lemma remove_spec (h : Refines hash s r) {this : ℕ} (hthis : this < s.maps) {it : Addr}
    (hit : it ∈ names (r.entries this)) :
    ∃ s' next r', s.remove this it = some (s', next) ∧ r.Removes this it (some next) r'
      ∧ Refines hash s' r' := by
  obtain ⟨k₁, k₂, hk⟩ := List.append_of_mem hit
  obtain ⟨l₁, e, l₂, hl, -, rfl, -⟩ := exists_middle hk
  obtain ⟨-, -, -, -, hremove, hafter, -⟩ := h.unlink_step hthis hl
  obtain ⟨s', hrun, hs'⟩ := h.remove_step hthis hl
  exact ⟨s', _, _, hrun, ⟨by rw [hafter], by rw [hremove]⟩, hs'⟩

lemma removeFront_spec (h : Refines hash s r) {this : ℕ} (hthis : this < s.maps)
    (hne : r.entries this ≠ []) :
    ∃ s', s.removeFront this = some (s', firstName (.endItem this) (r.entries this).tail)
      ∧ Refines hash s' (r.set this (r.entries this).tail) := by
  obtain ⟨e, l, hl⟩ := List.exists_cons_of_ne_nil hne
  obtain ⟨s', hrun, hs'⟩ := h.remove_step hthis (show r.entries this = [] ++ e :: l from hl)
  have hbegin : (s.map this).begin = e.name := h.begin_eq hthis (by rw [hl]; rfl)
  refine ⟨s', ?_, ?_⟩
  · rw [State.removeFront, hbegin, hrun, hl]
    rfl
  · rw [hl]
    exact hs'

lemma removeBack_spec (h : Refines hash s r) {this : ℕ} (hthis : this < s.maps)
    (hne : r.entries this ≠ []) :
    ∃ s', s.removeBack this = some (s', .endItem this)
      ∧ Refines hash s' (r.set this (r.entries this).dropLast) := by
  obtain ⟨free, hholds⟩ := h.holds this hthis
  have hlast : s.prev (.endItem this) = endOf none (names (r.entries this)) :=
    hholds.valid.listed.chain.prev_eq
  rcases List.eq_nil_or_concat (r.entries this) with hnil | ⟨l, e, hl⟩
  · exact absurd hnil hne
  · rw [List.concat_eq_append] at hl
    obtain ⟨s', hrun, hs'⟩ := h.remove_step hthis (show r.entries this = l ++ e :: [] from hl)
    rw [hl, names_append] at hlast
    have hprev : s.prev (.endItem this) = some e.name := hlast.trans (endOf_concat ..)
    refine ⟨s', ?_, ?_⟩
    · rw [State.removeBack, hprev]
      exact hrun
    · rw [hl, List.dropLast_concat]
      rwa [List.append_nil] at hs'

lemma clear_spec (h : Refines hash s r) {this : ℕ} (hthis : this < s.maps) :
    ∃ s', s.clear this = some s' ∧ Refines hash s' (r.set this []) ∧ Only s s' this := by
  obtain ⟨free, hholds⟩ := h.holds this hthis
  obtain ⟨s', hrun, hremoved⟩ := State.clear_spec hholds.valid h.owned hthis
  obtain ⟨free', hvalid'⟩ := hremoved.valid
  have hholds' : Holds hash s' this [] free' :=
    ⟨hvalid', fun e he => absurd he List.not_mem_nil, fun e he => absurd he List.not_mem_nil⟩
  exact ⟨s', hrun, h.set hthis hremoved.only hremoved.owned hholds', hremoved.only⟩

section RemoveKey

variable [PartialEquivBEq T]

/-- **`find`**, where the bucket is there -/
lemma find_step (h : Refines hash s r) (hhash : ∀ k k' : T, (k == k') = true → hash k = hash k')
    {this : ℕ} (hthis : this < s.maps) {key : T}
    (hfits : (s.map this).data.isSome → s.Fits hash this key) :
    s.find hash this key
      = some (((find? key (r.entries this)).map Entry.name).getD (.endItem this)) := by
  obtain ⟨free, hholds⟩ := h.holds this hthis
  rw [find_spec hholds.valid hhash hfits, find?_names hholds.keys key]

omit [PartialEquivBEq T] in
/-- If there is a table without the bucket, `find` fails. -/
lemma find_fails (h : Refines hash s r) {this : ℕ} (hthis : this < s.maps) {key : T}
    (hfits : ¬ ((s.map this).data.isSome → s.Fits hash this key)) : s.find hash this key = none := by
  obtain ⟨free, hholds⟩ := h.holds this hthis
  obtain ⟨hdata, hnot⟩ := Classical.not_imp.mp hfits
  exact find_eq_none hholds.valid hdata hnot

/-- **`remove` of a key**, where the bucket is there -/
lemma removeKey_step (h : Refines hash s r)
    (hhash : ∀ k k' : T, (k == k') = true → hash k = hash k') {this : ℕ} (hthis : this < s.maps)
    {key : T} (hfits : (s.map this).data.isSome → s.Fits hash this key) :
    ∃ s', s.removeKey hash this key = some s' ∧ Refines hash s' (drop r this key)
      ∧ Only s s' this ∧ (s'.map this).data = (s.map this).data := by
  obtain ⟨free, hholds⟩ := h.holds this hthis
  have hfind := h.find_step hhash hthis hfits
  rw [drop]
  cases hsome : find? key (r.entries this) with
  | none =>
    rw [hsome] at hfind
    refine ⟨s, ?_, h, Only.refl s this, rfl⟩
    rw [removeKey, hfind]
    exact if_neg fun hne => hne rfl
  | some e =>
    rw [hsome] at hfind
    have hmem : e ∈ r.entries this := List.mem_of_find?_eq_some hsome
    have hend : e.name ≠ .endItem this :=
      hholds.valid.stored.ne_endItem (List.mem_append_left _ (List.mem_map_of_mem hmem)) this
    obtain ⟨l₁, l₂, hl⟩ := List.append_of_mem hmem
    obtain ⟨s', hrun, hs', -, hremove, -, honly, hdata⟩ := h.unlink_step hthis hl
    refine ⟨s', ?_, ?_, honly, hdata⟩
    · rw [removeKey, hfind]
      exact (if_pos hend).trans hrun
    · rw [← hremove] at hs'
      exact hs'

omit [PartialEquivBEq T] in
lemma drop_of_ne (r : EntryLists T V) {this other : ℕ} (hne : other ≠ this) (key : T) :
    (drop r this key).entries other = r.entries other := by
  rw [drop]
  cases find? key (r.entries this) with
  | some e => exact EntryLists.set_of_ne r hne _
  | none => rfl

/-- **The loop over another container** that removes, and where it fails -/
lemma removeFrom_step (hhash : ∀ k k' : T, (k == k') = true → hash k = hash k') {this other : ℕ}
    (hne : other ≠ this) {k : List (Entry Addr T V)} :
    ∀ {s : State T V} {r : EntryLists T V} {k₀ : List (Entry Addr T V)} {i : Addr}
      {tail : List Addr} {fuel : ℕ}, Refines hash s r → this < s.maps → other < s.maps →
    r.entries other = k₀ ++ k → names k ++ [.endItem other] = i :: tail → k.length < fuel →
    ((∀ e ∈ k, (s.map this).data.isSome → s.Fits hash this e.key) →
      ∃ s', removeFrom hash this (.endItem other) fuel s i = some s'
        ∧ Refines hash s' (k.foldl (fun r e => drop r this e.key) r))
    ∧ ((¬ ∀ e ∈ k, (s.map this).data.isSome → s.Fits hash this e.key) →
      removeFrom hash this (.endItem other) fuel s i = none) := by
  induction k with
  | nil =>
    intro s r k₀ i tail fuel h _ _ _ hi hfuel
    obtain ⟨rfl, -⟩ := List.cons.inj hi
    cases fuel with
    | zero => exact absurd hfuel (Nat.lt_irrefl 0)
    | succ fuel =>
      exact ⟨fun _ => ⟨s, if_pos rfl, h⟩,
        fun hnot => absurd (fun e he => absurd he List.not_mem_nil) hnot⟩
  | cons e k ih =>
    intro s r k₀ i tail fuel h hthis hother hk hi hfuel
    obtain ⟨rfl, rfl⟩ := List.cons.inj hi
    have he : e ∈ r.entries other := hk ▸ by simp
    obtain ⟨free, hholds⟩ := h.holds other hother
    have hend : e.name ≠ .endItem other :=
      hholds.valid.stored.ne_endItem (List.mem_append_left _ (List.mem_map_of_mem he)) other
    cases fuel with
    | zero => exact absurd hfuel (Nat.not_lt_zero _)
    | succ fuel =>
      rw [removeFrom, if_neg hend, hholds.keys e he]
      by_cases hhead : (s.map this).data.isSome → s.Fits hash this e.key
      · obtain ⟨s₁, hrun, h₁, honly, hdata⟩ := h.removeKey_step hhash hthis hhead
        have hk₁ : (drop r this e.key).entries other = (k₀ ++ [e]) ++ k := by
          rw [drop_of_ne r hne, hk, List.append_assoc]
          rfl
        obtain ⟨next, tail, htail⟩ : ∃ next tail, names k ++ [Addr.endItem other] = next :: tail :=
          List.exists_cons_of_ne_nil (by simp)
        have hother₁ : other < s₁.maps := honly.maps ▸ hother
        have hnext : s₁.next e.name = some next :=
          h₁.next_eq hother₁ (by rw [hk₁, List.append_assoc]; rfl) htail
        have hfits : ∀ key, ((s₁.map this).data.isSome → s₁.Fits hash this key)
            ↔ ((s.map this).data.isSome → s.Fits hash this key) := by
          intro key
          rw [Fits, Fits, honly.capacity, hdata]
        obtain ⟨hsome, hnone⟩ := ih h₁ (honly.maps ▸ hthis) hother₁ hk₁ htail
          (Nat.lt_of_succ_lt_succ hfuel)
        simp only [hrun, hnext, Option.bind_eq_bind, Option.bind_some]
        refine ⟨fun hall => hsome fun e' he' => ?_, fun hnot => hnone fun hall => hnot ?_⟩
        · exact (hfits _).mpr (hall e' (List.mem_cons_of_mem e he'))
        · intro e' he'
          rcases List.mem_cons.mp he' with rfl | he'
          · exact hhead
          · exact (hfits _).mp (hall e' he')
      · refine ⟨fun hall => absurd (hall e List.mem_cons_self) hhead, fun _ => ?_⟩
        rw [removeKey, h.find_fails hthis hhead]
        rfl

/-- **`removeAll`**, and where it fails -/
lemma removeAll_step (h : Refines hash s r)
    (hhash : ∀ k k' : T, (k == k') = true → hash k = hash k') {this other : ℕ}
    (hthis : this < s.maps) (hother : other < s.maps) (hne : other ≠ this) :
    ((∀ e ∈ r.entries other, (s.map this).data.isSome → s.Fits hash this e.key) →
      ∃ s', removeAll hash s this other = some s'
        ∧ Refines hash s' ((r.entries other).foldl (fun r e => drop r this e.key) r))
    ∧ ((¬ ∀ e ∈ r.entries other, (s.map this).data.isSome → s.Fits hash this e.key) →
      removeAll hash s this other = none) := by
  obtain ⟨i, tail, htail⟩ : ∃ i tail, names (r.entries other) ++ [Addr.endItem other] = i :: tail :=
    List.exists_cons_of_ne_nil (by simp)
  rw [removeAll, h.begin_eq hother htail, h.size_eq hother]
  exact removeFrom_step hhash hne h hthis hother (List.nil_append _).symm htail
    (Nat.lt_succ_self _)

end RemoveKey

/-! ## Objects -/

lemma create_spec (h : Refines hash s r) (capacity : ℕ) :
    Refines hash (s.create capacity) ⟨r.count + 1, Function.update r.entries r.count []⟩ := by
  obtain ⟨howned, hnew, hold⟩ := State.create_spec h.owned capacity
  refine ⟨congrArg (· + 1) h.count, howned, fun x hx => ?_⟩
  by_cases hxs : x = s.maps
  · rw [hxs, h.count]
    refine ⟨[], ?_⟩
    simp only [Function.update_self]
    exact ⟨hnew, fun e he => absurd he List.not_mem_nil, fun e he => absurd he List.not_mem_nil⟩
  · have hx' : x < s.maps := Nat.lt_of_le_of_ne (Nat.le_of_lt_succ hx) hxs
    obtain ⟨free, hholds⟩ := h.holds x hx'
    refine ⟨free, ?_⟩
    rw [h.count]
    simp only [Function.update_of_ne hxs]
    exact ⟨hold x hx' _ _ hholds.valid, hholds.keys, hholds.values⟩

lemma swap_spec (h : Refines hash s r) {this other : ℕ} (hthis : this < s.maps)
    (hother : other < s.maps) : Refines hash (s.swap this other)
      ((r.set this (r.entries other)).set other (r.entries this)) := by
  obtain ⟨free, hholds⟩ := h.holds this hthis
  by_cases hne : this = other
  · subst hne
    rw [swap_self hholds.valid, EntryLists.set_entries, EntryLists.set_entries]
    exact h
  · obtain ⟨free', hholds'⟩ := h.holds other hother
    obtain ⟨howned, hsame, hthis', hother', hrest⟩ :=
      State.swap_spec h.owned hthis hother hne hholds.valid hholds'.valid
    have hkeys : ∀ {x : ℕ} {l f}, Holds hash s x l f → ∀ e ∈ l, (s.swap this other).key e.name = e.key :=
      fun hl e he => (congrFun hsame.key e.name).trans (hl.keys e he)
    have hvalues : ∀ {x : ℕ} {l f}, Holds hash s x l f →
        ∀ e ∈ l, (s.swap this other).value e.name = e.value :=
      fun hl e he => (congrFun hsame.value e.name).trans (hl.values e he)
    refine ⟨h.count.trans hsame.maps.symm, howned, fun x hx => ?_⟩
    rw [hsame.maps] at hx
    by_cases hxo : x = other
    · subst hxo
      rw [EntryLists.set_self]
      exact ⟨free, hother', hkeys hholds, hvalues hholds⟩
    · rw [EntryLists.set_of_ne _ hxo]
      by_cases hxt : x = this
      · subst hxt
        rw [EntryLists.set_self]
        exact ⟨free', hthis', hkeys hholds', hvalues hholds'⟩
      · rw [EntryLists.set_of_ne _ hxt]
        obtain ⟨free'', hx'⟩ := h.holds x hx
        exact ⟨free'', hrest x hx hxt hxo _ _ hx'.valid, hkeys hx', hvalues hx'⟩

end Refines

end Nstd.HashTable
