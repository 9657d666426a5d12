import Mathlib.Algebra.Order.BigOperators.Group.List
import Mathlib.Algebra.Order.Group.Nat
import Mathlib.Data.List.Perm.Subperm
import Nstd.Core.InsertionMap
import Nstd.Core.SortedAssoc

/-!
# Names and values in one text

A name and a value are written as one text, with a mark between them, and a list of such texts is read
back as a map.

* `write`, `read` — the text of a name and a value; a text is split at its first mark.
* `read_write`, `read_eq_some_iff` — what is read is what has been written.
* `named` — the names and values of a list of texts; `named_put`, `named_drop`, `valueOf_eq`.
* `insertAll_of_nodup` — what a sorted map has for a key after entries with different keys.
* **`kept_of_read_back`** — entries that are read back as the same map are each read back as they are,
  where none is read as something longer.
-/

namespace Nstd

namespace NamedTexts

open InsertionMap

variable {α : Type}

/-- The text of a name and a value -/
def write (mark : α) (name value : List α) : List α := name ++ mark :: value

variable [DecidableEq α] {mark : α}

/-- A text is split at its first mark. -/
def read (mark : α) : List α → Option (List α × List α)
  | [] => none
  | c :: l => if c = mark then some ([], l) else (read mark l).map fun e => (c :: e.1, e.2)

lemma read_write {name : List α} (h : mark ∉ name) (value : List α) :
    read mark (write mark name value) = some (name, value) := by
  induction name with
  | nil => exact if_pos rfl
  | cons c name ih =>
    obtain ⟨hc, hname⟩ := not_or.mp (mt List.mem_cons.mpr h)
    have hrest : read mark (name ++ mark :: value) = some (name, value) := ih hname
    rw [write, List.cons_append, read, if_neg (Ne.symm hc), hrest]
    rfl

lemma read_eq_some_iff {l name value : List α} :
    read mark l = some (name, value) ↔ mark ∉ name ∧ l = write mark name value := by
  refine ⟨fun h => ?_, fun h => h.2 ▸ read_write h.1 value⟩
  induction l generalizing name with
  | nil => cases h
  | cons c l ih =>
    rw [read] at h
    split_ifs at h with hc
    · cases h
      exact ⟨List.not_mem_nil, by rw [hc]; rfl⟩
    · obtain ⟨e, he, heq⟩ := Option.map_eq_some_iff.mp h
      cases heq
      obtain ⟨hname, hl⟩ := ih he
      exact ⟨by simp [Ne.symm hc, hname], by rw [hl]; rfl⟩

lemma read_eq_none_iff {l : List α} : read mark l = none ↔ mark ∉ l := by
  induction l with
  | nil => simp [read]
  | cons c l ih =>
    rw [read]
    by_cases hc : c = mark
    · simp [hc]
    · simp [hc, Ne.symm hc, ih]

/-- The first mark of a text with a mark ends its name at the latest. -/
lemma exists_read (name value : List α) :
    ∃ name' value', read mark (write mark name value) = some (name', value') := by
  cases h : read mark (write mark name value) with
  | none => exact absurd (by simp [write]) (read_eq_none_iff.mp h)
  | some e => exact ⟨e.1, e.2, rfl⟩

/-- A name that is read is the one that was written, or a part of it, also from the beginning of a
    text. -/
lemma length_name_le {name value text name' value' : List α} (hstart : text <+: write mark name value)
    (h : read mark text = some (name', value')) :
    name'.length ≤ name.length ∧ (name'.length = name.length → mark ∉ name) := by
  obtain ⟨hmark, rfl⟩ := read_eq_some_iff.mp h
  obtain ⟨rest, hrest⟩ := hstart
  have heq : name ++ mark :: value = name' ++ mark :: (value' ++ rest) := by
    rw [← write, ← hrest, write, List.append_assoc, List.cons_append]
  rcases List.append_eq_append_iff.mp heq with ⟨t, ht, hrest⟩ | ⟨t, ht, hrest⟩
  · cases t with
    | nil => exact ⟨by simp [ht], fun _ => by rwa [ht, List.append_nil] at hmark⟩
    | cons c t =>
      obtain ⟨rfl, -⟩ := List.cons.inj hrest
      exact absurd (by simp [ht]) hmark
  · rw [ht, List.length_append]
    refine ⟨Nat.le_add_right _ _, fun hlength => ?_⟩
    obtain rfl := List.length_eq_zero_iff.mp (Nat.add_eq_left.mp hlength.symm)
    rwa [List.append_nil]

/-- All that is read is as long as the text. -/
lemma length_read {text name value : List α} (h : read mark text = some (name, value)) :
    name.length + value.length + 1 = text.length := by
  obtain ⟨-, rfl⟩ := read_eq_some_iff.mp h
  simp [write]
  omega

/-! ## Lists of texts -/

/-- The names and values of a list of texts -/
def named (mark : α) (texts : List (List α)) : List (List α × List α) := texts.filterMap (read mark)

/-- A text has this name. -/
def HasName (mark : α) (name text : List α) : Prop := write mark name [] <+: text

instance (name text : List α) : Decidable (HasName mark name text) :=
  inferInstanceAs (Decidable (_ <+: _))

/-- The first text with a name gets a value, a new one goes to the end. -/
def put (mark : α) (name value : List α) : List (List α) → List (List α)
  | [] => [write mark name value]
  | text :: texts =>
    if HasName mark name text then write mark name value :: texts
    else text :: put mark name value texts

/-- The texts with a name go away. -/
def drop (mark : α) (name : List α) (texts : List (List α)) : List (List α) :=
  texts.filter fun text => ¬ HasName mark name text

/-- The value of the first text with a name -/
def valueOf (mark : α) (name : List α) : List (List α) → Option (List α)
  | [] => none
  | text :: texts =>
    if HasName mark name text then some (text.drop (name.length + 1)) else valueOf mark name texts

/-- A text has a name exactly if that is read from it. -/
lemma hasName_iff {name text : List α} (h : mark ∉ name) :
    HasName mark name text ↔ read mark text = some (name, text.drop (name.length + 1)) := by
  rw [read_eq_some_iff]
  constructor
  · rintro ⟨value, rfl⟩
    exact ⟨h, by simp [write]⟩
  · rintro ⟨-, htext⟩
    exact ⟨text.drop (name.length + 1), by rw [write, List.append_assoc]; exact htext.symm⟩

lemma read_ne_of_not_hasName {name text : List α} (h : mark ∉ name) (hno : ¬ HasName mark name text)
    {e : List α × List α} (he : read mark text = some e) : e.1 ≠ name := by
  rintro rfl
  refine hno ((hasName_iff h).mpr ?_)
  obtain ⟨-, htext⟩ := read_eq_some_iff.mp he
  rw [he, htext]
  simp [write]

/-- Putting a text writes its entry. -/
lemma named_put {name : List α} (h : mark ∉ name) (value : List α) (texts : List (List α)) :
    named mark (put mark name value texts) = append name value (named mark texts) := by
  induction texts with
  | nil => simp [put, named, append, read_write h]
  | cons text texts ih =>
    rw [put]
    split_ifs with hname
    · have hread := (hasName_iff h).mp hname
      simp [named, read_write h, hread, append]
    · rw [named, List.filterMap_cons, ← named, ih, named, named, List.filterMap_cons]
      cases hread : read mark text with
      | none => rfl
      | some e => exact (if_neg (read_ne_of_not_hasName h hname hread)).symm

/-- Dropping texts removes the entry. -/
lemma named_drop {name : List α} (h : mark ∉ name) (texts : List (List α)) :
    named mark (drop mark name texts) = remove name (named mark texts) := by
  induction texts with
  | nil => rfl
  | cons text texts ih =>
    by_cases hname : HasName mark name text
    · have hdrop : drop mark name (text :: texts) = drop mark name texts :=
        List.filter_cons_of_neg (by simp [hname])
      rw [hdrop, ih, named, named, List.filterMap_cons_some ((hasName_iff h).mp hname)]
      exact (List.filter_cons_of_neg (by simp)).symm
    · have hdrop : drop mark name (text :: texts) = text :: drop mark name texts :=
        List.filter_cons_of_pos (by simp [hname])
      have hcons : ∀ texts, named mark (text :: texts)
          = (read mark text).toList ++ named mark texts := fun texts => by
        rw [named, List.filterMap_cons]
        cases read mark text <;> rfl
      rw [hdrop, hcons, hcons, ih, remove, remove, List.filter_append]
      congr 1
      refine (List.filter_eq_self.mpr fun e he => ?_).symm
      simpa using read_ne_of_not_hasName h hname (Option.mem_toList.mp he)

/-- The value of a name is that of its entry. -/
lemma valueOf_eq {name : List α} (h : mark ∉ name) (texts : List (List α)) :
    valueOf mark name texts = find? name (named mark texts) := by
  induction texts with
  | nil => rfl
  | cons text texts ih =>
    rw [valueOf]
    split_ifs with hname
    · rw [named, List.filterMap_cons_some ((hasName_iff h).mp hname), find?_cons, if_pos rfl]
    · rw [ih, named, named, List.filterMap_cons]
      cases hread : read mark text with
      | none => rfl
      | some e => rw [find?_cons, if_neg (read_ne_of_not_hasName h hname hread)]

end NamedTexts

/-! ## Entries read into a map -/

section

open SortedAssoc

variable {K V : Type} [LinearOrder K]

/-- After entries with different keys, a key has the value of its entry, or the one it had. -/
lemma insertAll_of_nodup [DecidableEq K] {new : List (K × V)} (h : (InsertionMap.keys new).Nodup)
    (l : List (K × V)) (k : K) :
    get k (insertAll l new) = (InsertionMap.find? k new).or (get k l) := by
  induction new generalizing l with
  | nil => rfl
  | cons e new ih =>
    obtain ⟨he, hnew⟩ := List.nodup_cons.mp h
    have hrest := ih hnew (SortedAssoc.insert e.1 e.2 l)
    rw [insertAll, List.foldl_cons, ← insertAll, hrest, get_insert, InsertionMap.find?_cons]
    by_cases hk : e.1 = k
    · obtain rfl := hk
      simp [InsertionMap.find?_eq_none_iff.mpr he]
    · rw [if_neg hk, if_neg (Ne.symm hk)]

/-- A list that a function only rearranges has every measure unchanged that never grows. -/
lemma measure_eq_of_perm {β : Type} {f : β → β} {l : List β} (hperm : l.Perm (l.map f)) {μ : β → ℕ}
    (hle : ∀ e ∈ l, μ (f e) ≤ μ e) : ∀ e ∈ l, μ (f e) = μ e := by
  by_contra hne
  push Not at hne
  obtain ⟨e, he, hne⟩ := hne
  have hlt := List.sum_lt_sum (fun e => μ (f e)) μ hle ⟨e, he, lt_of_le_of_ne (hle e he) hne⟩
  have hsum := (hperm.map μ).sum_eq
  rw [List.map_map] at hsum
  exact absurd hsum (ne_of_gt hlt)

/-- **Entries that are read back** as the same map, each as one entry or as none: each is read as one,
    and with all its measures that reading never makes greater. -/
theorem kept_of_read_back {l : List (K × V)} (hl : Sorted l) {f : K × V → Option (K × V)}
    (h : insertAll [] (l.filterMap f) = l) : ∀ e ∈ l, ∃ e', f e = some e' ∧
      ∀ μ : K × V → ℕ, (∀ e e', f e = some e' → μ e' ≤ μ e) → μ e' = μ e := by
  have hlength : (l.filterMap f).length = l.length := by
    refine le_antisymm (List.length_filterMap_le f l) ?_
    have hle := length_insertAll_le [] (l.filterMap f)
    rwa [h, List.length_nil, Nat.zero_add] at hle
  have hsome : ∀ e ∈ l, (f e).isSome := List.filterMap_length_eq_length.mp hlength
  have hmap : l.filterMap f = l.map fun e => (f e).getD e := by
    rw [← List.filterMap_eq_map]
    refine List.filterMap_congr fun e he => ?_
    obtain ⟨e', he'⟩ := Option.isSome_iff_exists.mp (hsome e he)
    simp [he']
  have hperm : l.Perm (l.map fun e => (f e).getD e) := by
    rw [← hmap]
    refine ((nodup_of_sorted hl).subperm fun e he => ?_).perm_of_length_le (le_of_eq hlength)
    rw [← h] at he
    exact (mem_of_mem_insertAll he).resolve_right List.not_mem_nil
  intro e he
  obtain ⟨e', he'⟩ := Option.isSome_iff_exists.mp (hsome e he)
  refine ⟨e', he', fun μ hle => ?_⟩
  have heq := measure_eq_of_perm hperm (μ := μ) (fun e he => ?_) e he
  · rwa [he', Option.getD_some] at heq
  · obtain ⟨e', he'⟩ := Option.isSome_iff_exists.mp (hsome e he)
    rw [he', Option.getD_some]
    exact hle e e' he'

end

end Nstd
