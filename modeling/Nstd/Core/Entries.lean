import Mathlib.Data.List.Basic
import Mathlib.Data.List.Nodup
import Mathlib.Tactic.Lemma

/-!
# Association lists with named entries

A list of entries in an order that the caller determines.  What a caller keeps of an entry is its
name, and entries keep their names.

* `find?` — the entry with a key.
* `insertBefore`, `insertAll`, `assign`, `remove` — an entry is put before another one, or at the end;
  several are; it gets another value; it goes away.
* `nameAfter`, `firstName`, `lastName` — where a caller can go on from.
* `insertBefore_append`, `remove_append`, `nameAfter_append` — the same where the list is split at the
  entry; `insertBefore_split` — at its end, too.
-/

namespace Nstd

structure Entry (A T V : Type) where
  name : A
  key : T
  value : V

namespace Entries

variable {A T V : Type}

/-- The names of the entries, in their order -/
def names (l : List (Entry A T V)) : List A := l.map Entry.name

/-- The first entry with a key -/
def find? [BEq T] (key : T) (l : List (Entry A T V)) : Option (Entry A T V) :=
  l.find? fun e => e.key == key

/-- The name of the first entry; `last` stands for the end. -/
def firstName (last : A) (l : List (Entry A T V)) : A := (l.head?.map Entry.name).getD last

/-- The name of the last entry -/
def lastName (last : A) (l : List (Entry A T V)) : A := (l.getLast?.map Entry.name).getD last

variable [DecidableEq A]

/-- A new entry before the one with a name, or at the end if there is no such entry -/
def insertBefore (position : A) (e : Entry A T V) : List (Entry A T V) → List (Entry A T V)
  | [] => [e]
  | e' :: l => if e'.name = position then e :: e' :: l else e' :: insertBefore position e l

/-- New entries, one after the other, before the one with a name -/
def insertAll (position : A) (new l : List (Entry A T V)) : List (Entry A T V) :=
  new.foldl (fun l e => insertBefore position e l) l

/-- The entry with a name gets another value. -/
def assign (name : A) (value : V) (l : List (Entry A T V)) : List (Entry A T V) :=
  l.map fun e => if e.name = name then { e with value } else e

/-- The entry with a name goes away. -/
def remove (name : A) (l : List (Entry A T V)) : List (Entry A T V) :=
  l.filter fun e => e.name ≠ name

/-- The name after a name -/
def nameAfter (last name : A) : List (Entry A T V) → A
  | [] => last
  | e :: l => if e.name = name then firstName last l else nameAfter last name l

omit [DecidableEq A] in
lemma names_append (l₁ l₂ : List (Entry A T V)) : names (l₁ ++ l₂) = names l₁ ++ names l₂ :=
  List.map_append

omit [DecidableEq A] in
/-- Looking for an entry is looking for its name. -/
lemma find?_names [BEq T] {key : A → T} {l : List (Entry A T V)} (h : ∀ e ∈ l, key e.name = e.key)
    (k : T) : ((names l).find? fun a => key a == k) = (find? k l).map Entry.name := by
  induction l with
  | nil => rfl
  | cons e l ih =>
    have htail := ih fun e' he' => h e' (List.mem_cons_of_mem e he')
    rw [find?, List.find?_cons]
    change List.find? _ (e.name :: names l) = _
    rw [List.find?_cons, h e List.mem_cons_self]
    cases e.key == k with
    | true => rfl
    | false => exact htail

omit [DecidableEq A] in
/-- Where the names split, the entries do. -/
lemma exists_append {l : List (Entry A T V)} {l₁ l₂ : List A} (h : names l = l₁ ++ l₂) :
    ∃ k₁ k₂, l = k₁ ++ k₂ ∧ names k₁ = l₁ ∧ names k₂ = l₂ := by
  obtain ⟨k₁, k₂, rfl, h₁, h₂⟩ := List.map_eq_append_iff.mp h
  exact ⟨k₁, k₂, rfl, h₁, h₂⟩

omit [DecidableEq A] in
/-- The entry with a name -/
lemma exists_middle {l : List (Entry A T V)} {l₁ l₂ : List A} {a : A} (h : names l = l₁ ++ a :: l₂) :
    ∃ k₁ e k₂, l = k₁ ++ e :: k₂ ∧ names k₁ = l₁ ∧ e.name = a ∧ names k₂ = l₂ := by
  obtain ⟨k₁, k, rfl, h₁, hk⟩ := exists_append h
  obtain ⟨e, k₂, rfl, rfl, h₂⟩ := List.map_eq_cons_iff.mp hk
  exact ⟨k₁, e, k₂, rfl, h₁, rfl, h₂⟩

/-- **Inserting** at the place where the list is split -/
lemma insertBefore_append {position : A} (e : Entry A T V) {l₁ l₂ : List (Entry A T V)}
    (h₁ : position ∉ names l₁) (h₂ : ∀ e' ∈ l₂.head?, e'.name = position) :
    insertBefore position e (l₁ ++ l₂) = l₁ ++ e :: l₂ := by
  induction l₁ with
  | nil =>
    cases l₂ with
    | nil => rfl
    | cons e' l₂ => exact if_pos (h₂ e' rfl)
  | cons e' l₁ ih =>
    obtain ⟨hne, h₁⟩ := not_or.mp (List.mem_cons.not.mp h₁)
    exact (if_neg (Ne.symm hne)).trans (congrArg (e' :: ·) (ih h₁))

/-- **Inserting** before a name, or before `last`, which no entry has -/
lemma insertBefore_split {position last : A} (e : Entry A T V) {l₁ l₂ : List (Entry A T V)}
    {rest : List A} (hrest : names l₂ ++ [last] = position :: rest) (hnd : (names (l₁ ++ l₂)).Nodup)
    (hlast : last ∉ names (l₁ ++ l₂)) : insertBefore position e (l₁ ++ l₂) = l₁ ++ e :: l₂ := by
  rw [names_append] at hnd hlast
  cases l₂ with
  | nil =>
    obtain ⟨rfl, -⟩ := List.cons.inj hrest
    refine insertBefore_append e (fun hmem => hlast (List.mem_append_left _ hmem)) ?_
    exact fun e' he' => absurd he' (by simp)
  | cons e' l₂ =>
    obtain ⟨rfl, -⟩ := List.cons.inj hrest
    refine insertBefore_append e (fun hmem => ?_) fun e'' he'' => ?_
    · exact (List.nodup_append.mp hnd).2.2 _ hmem _ List.mem_cons_self rfl
    · rw [← Option.some_inj.mp he'']

/-- **Removing** the entry where the list is split -/
lemma remove_append {l₁ l₂ : List (Entry A T V)} {e : Entry A T V}
    (hnd : (names (l₁ ++ e :: l₂)).Nodup) : remove e.name (l₁ ++ e :: l₂) = l₁ ++ l₂ := by
  have hne : ∀ e' ∈ l₁ ++ l₂, e'.name ≠ e.name := by
    have hperm : (names (l₁ ++ e :: l₂)).Perm (e.name :: names (l₁ ++ l₂)) :=
      List.perm_middle.map Entry.name
    have hnot := (List.nodup_cons.mp (hperm.nodup_iff.mp hnd)).1
    intro e' he' heq
    exact hnot (List.mem_map.mpr ⟨e', he', heq⟩)
  rw [remove, List.filter_append, List.filter_cons_of_neg (by simp), ← List.filter_append,
    List.filter_eq_self]
  intro e' he'
  simpa using hne e' he'

/-- **What comes after** the entry where the list is split -/
lemma nameAfter_append {last : A} {l₁ l₂ : List (Entry A T V)} {e : Entry A T V}
    (h : e.name ∉ names l₁) : nameAfter last e.name (l₁ ++ e :: l₂) = firstName last l₂ := by
  induction l₁ with
  | nil => exact if_pos rfl
  | cons e' l₁ ih =>
    obtain ⟨hne, h⟩ := not_or.mp (List.mem_cons.not.mp h)
    exact (if_neg (Ne.symm hne)).trans (ih h)

/-- The entry has the value already. -/
lemma assign_eq_self {name : A} {value : V} {l : List (Entry A T V)}
    (h : ∀ e ∈ l, e.name = name → e.value = value) : assign name value l = l := by
  refine (List.map_congr_left fun e he => ?_).trans (List.map_id l)
  by_cases hname : e.name = name
  · rw [if_pos hname, ← h e he hname]
    rfl
  · exact if_neg hname

lemma names_assign (name : A) (value : V) (l : List (Entry A T V)) :
    names (assign name value l) = names l := by
  rw [names, names, assign, List.map_map]
  refine List.map_congr_left fun e _ => ?_
  change (if e.name = name then { e with value } else e).name = e.name
  by_cases h : e.name = name
  · rw [if_pos h]
  · rw [if_neg h]

end Entries

end Nstd
