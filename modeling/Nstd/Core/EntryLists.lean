import Nstd.Core.Entries
import Nstd.Core.ItemBlocks

/-!
# Many lists of entries

What containers are for whose objects keep entries in items: an object is a list, and the names of
entries are their items.

* `EntryLists` — the lists; `EntryLists.set` — one of them is replaced.
* `EntryLists.Fresh` — an item that no list has.
* `EntryLists.Removes` — an entry is removed, with the iterator to what comes after it.
-/

namespace Nstd

/-- Lists of entries, `count` of them -/
structure EntryLists (T V : Type) where
  count : ℕ
  entries : ℕ → List (Entry Addr T V)

namespace EntryLists

open Entries

variable {T V : Type}

/-- One list is replaced. -/
def set (r : EntryLists T V) (this : ℕ) (l : List (Entry Addr T V)) : EntryLists T V :=
  { r with entries := Function.update r.entries this l }

@[simp] lemma set_self (r : EntryLists T V) (this : ℕ) (l : List (Entry Addr T V)) :
    (r.set this l).entries this = l := Function.update_self ..

@[simp] lemma set_of_ne (r : EntryLists T V) {this x : ℕ} (hx : x ≠ this)
    (l : List (Entry Addr T V)) : (r.set this l).entries x = r.entries x :=
  Function.update_of_ne hx ..

@[simp] lemma set_set (r : EntryLists T V) (this : ℕ) (l l' : List (Entry Addr T V)) :
    (r.set this l).set this l' = r.set this l' := by
  simp only [set, Function.update_idem]

@[simp] lemma set_entries (r : EntryLists T V) (this : ℕ) : r.set this (r.entries this) = r := by
  simp only [set, Function.update_eq_self]

/-- The item is in no list. -/
def Fresh (r : EntryLists T V) (a : Addr) : Prop :=
  (∀ x, a ≠ .endItem x) ∧ ∀ x < r.count, a ∉ names (r.entries x)

/-- An item goes away.  The iterator is at what comes after it. -/
def Removes (r : EntryLists T V) (this : ℕ) (name : Addr) (it : Option Addr)
    (r' : EntryLists T V) : Prop :=
  it = some (nameAfter (.endItem this) name (r.entries this))
    ∧ r' = r.set this (Entries.remove name (r.entries this))

end EntryLists

end Nstd
