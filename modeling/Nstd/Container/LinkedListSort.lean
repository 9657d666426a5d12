import Mathlib.Data.List.Chain
import Mathlib.Order.Defs.Unbundled
import Nstd.Container.LinkedListRuns

/-!
# Sorting a list

* `swapValues`, `exchange`, `partition`, `sortFrom`, `sort` — `QuickSort` of `List::sort`, which moves
  values between items and follows `next`.
* `Partitioned` — what the loop keeps; `partition_spec` — the values after it: those that are smaller
  than the pivot are in front of the others.
* `Placed` — the pivot between the two sides; `split_spec` — one call up to its recursive ones.
* `Sorts` — what sorting leaves; `sortFrom_spec` — items that are linked one after the other are
  sorted, and only their values are written to.
* **`sort_sorted`** — `sort` returns, and the values are a permutation in order.

The induction is on the number of items between both ends.  Links stay as they are, so the items of
either side are still linked when the other one has been sorted.
-/

namespace Nstd.LinkedList

open Linked
open Entries

variable {V : Type}

namespace State

/-! ## The code -/

/-- `QuickSort::swap` -/
def swapValues (s : State V) (a b : Addr) : Option (State V) := do
  let tmp ← s.value a
  let value ← s.value b
  let s := { s with value := Function.update s.value a (some value) }
  some { s with value := Function.update s.value b (some tmp) }

/-- The `if` in the loop of `QuickSort::sort`.  The pivot is read where it is, in `left`. -/
def exchange [LT V] [DecidableLT V] (left : Addr) (s : State V) (ptr0 ptr1 ptr2 : Addr) :
    Option (State V × Addr × Addr) := do
  let value ← s.value ptr2
  let pivot ← s.value left
  if value < pivot then do
    let ptr0 := ptr1
    let ptr1 ← s.next ptr1
    let s ← s.swapValues ptr1 ptr2
    some (s, ptr0, ptr1)
  else some (s, ptr0, ptr1)

/-- The loop of `QuickSort::sort` -/
def partition [LT V] [DecidableLT V] (left right : Addr) :
    ℕ → State V → Addr → Addr → Addr → Option (State V × Addr × Addr)
  | 0, _, _, _, _ => none
  | fuel + 1, s, ptr0, ptr1, ptr2 => do
    let ptr2 ← s.next ptr2
    let (s, ptr0, ptr1) ← exchange left s ptr0 ptr1 ptr2
    if ptr2 ≠ right then partition left right fuel s ptr0 ptr1 ptr2
    else some (s, ptr0, ptr1)

/-- `QuickSort::sort` -/
def sortFrom [LT V] [DecidableLT V] : ℕ → State V → Addr → Addr → Option (State V)
  | 0, _, _, _ => none
  | fuel + 1, s, left, right => do
    let (s, ptr0, ptr1) ← partition left right fuel s left left left
    let s ← s.swapValues left ptr1
    let ptr1 ← (if ptr1 ≠ right then s.next ptr1 else some ptr1)
    let s ← (if left ≠ ptr0 then sortFrom fuel s left ptr0 else some s)
    if ptr1 ≠ right then sortFrom fuel s ptr1 right else some s

/-- `sort` -/
def sort [LT V] [DecidableLT V] (s : State V) (this : ℕ) : Option (State V) :=
  match s.prev (.endItem this) with
  | none => some s
  | some right =>
    if (s.list this).begin = right then some s
    else sortFrom (s.list this).size s (s.list this).begin right

/-! ## Partitioning -/

/-- Two items exchange their values. -/
lemma swapValues_eq {s : State V} {a b : Addr} {x y : V} (ha : s.value a = some x)
    (hb : s.value b = some y) :
    s.swapValues a b = some { s with
      value := Function.update (Function.update s.value a (some y)) b (some x) } := by
  rw [swapValues, ha, hb]
  rfl

section Partition

variable [LT V] {s : State V} {left : Addr} {pivot : V} {below others : List Addr}
  {small large : List V}

/-- **What the loop keeps**: the items that it has read are those with smaller values and the
    others, behind the pivot in this order. -/
structure Partitioned (value : Addr → Option V) (left : Addr) (pivot : V) (below others : List Addr)
    (small large : List V) : Prop where
  pivotValue : value left = some pivot
  belowValues : below.map value = small.map some
  otherValues : others.map value = large.map some
  smaller : ∀ v ∈ small, v < pivot
  notSmaller : ∀ v ∈ large, ¬ v < pivot

omit [LT V] in
/-- Writing elsewhere -/
lemma map_update {items : List Addr} {a : Addr} (h : a ∉ items) (value : Addr → Option V)
    (x : Option V) : items.map (Function.update value a x) = items.map value := by
  refine List.map_congr_left fun b hb => Function.update_of_ne ?_ _ _
  rintro rfl
  exact h hb

/-- After the last of the items comes the next one. -/
lemma rel_getLastD {R : Addr → Addr → Prop} {x b : Addr} {l rest : List Addr}
    (h : (x :: (l ++ b :: rest)).IsChain R) : R (l.getLastD x) b := by
  induction l generalizing x with
  | nil => exact (List.isChain_cons_cons.mp h).1
  | cons y l ih =>
    rw [List.getLastD_cons]
    exact ih (List.isChain_cons_cons.mp h).2

lemma getLast?_eq_getLastD {l : List Addr} (x : Addr) (h : l ≠ []) :
    l.getLast? = some (l.getLastD x) := by
  rw [List.getLastD_eq_getLast?, List.getLast?_eq_some_getLast h, Option.getD_some]

lemma getLastD_middle (x b : Addr) (l rest : List Addr) :
    (l ++ b :: rest).getLastD x = rest.getLastD b := by
  induction l generalizing x with
  | nil => rw [List.nil_append, List.getLastD_cons]
  | cons y l ih => rw [List.cons_append, List.getLastD_cons, ih]

/-- A value that is not smaller stays where it is. -/
lemma Partitioned.keep (h : Partitioned s.value left pivot below others small large) {item : Addr} {v : V}
    (hitem : s.value item = some v) (hv : ¬ v < pivot) :
    Partitioned s.value left pivot below (others ++ [item]) small (large ++ [v]) := by
  refine ⟨h.pivotValue, h.belowValues, ?_, h.smaller, ?_⟩
  · rw [List.map_append, List.map_append, h.otherValues, List.map_singleton, List.map_singleton,
      hitem]
  · intro w hw
    rcases List.mem_append.mp hw with hw | hw
    · exact h.notSmaller w hw
    · rwa [List.mem_singleton.mp hw]

/-- **A smaller value** goes to the first of the other items, whose value takes its place. -/
lemma Partitioned.exchange (h : Partitioned s.value left pivot below others small large) {item : Addr}
    {v : V} (hitem : s.value item = some v) (hv : v < pivot)
    (hnd : (left :: (below ++ (others ++ [item]))).Nodup) {first : Addr} {rest : List Addr}
    (hfirst : others ++ [item] = first :: rest) :
    ∃ value large', s.swapValues first item = some { s with value }
      ∧ Partitioned value left pivot (below ++ [first]) rest (small ++ [v]) large'
      ∧ large'.Perm large ∧ ∀ a, a ∉ others ++ [item] → value a = s.value a := by
  have hsmaller : ∀ w ∈ small ++ [v], w < pivot := by
    intro w hw
    rcases List.mem_append.mp hw with hw | hw
    · exact h.smaller w hw
    · rwa [List.mem_singleton.mp hw]
  cases others with
  | nil =>
    -- Nothing is between the two, and the item is exchanged with itself.
    obtain ⟨rfl, rfl⟩ := List.cons.inj hfirst
    have hsame : Function.update s.value item (some v) = s.value :=
      Function.update_eq_self_iff.mpr hitem.symm
    refine ⟨s.value, large, ?_, ⟨h.pivotValue, ?_, h.otherValues, hsmaller, h.notSmaller⟩,
      .refl _, fun _ _ => rfl⟩
    · rw [swapValues_eq hitem hitem, hsame, hsame]
    · rw [List.map_append, List.map_append, h.belowValues, List.map_singleton,
        List.map_singleton, hitem]
  | cons b others =>
    obtain ⟨rfl, rfl⟩ := List.cons.inj hfirst
    have hothers := h.otherValues
    cases large with
    | nil => exact absurd hothers (List.cons_ne_nil _ _)
    | cons w large =>
      obtain ⟨hb, hrest⟩ := List.cons.inj hothers
      obtain ⟨hleft, hnd⟩ := List.nodup_cons.mp hnd
      obtain ⟨-, hnd, hdisjoint⟩ := List.nodup_append.mp hnd
      have hleft' : ∀ a ∈ b :: others ++ [item], left ≠ a := fun a ha heq =>
        hleft (heq ▸ List.mem_append_right _ ha)
      have hbelow : ∀ a ∈ b :: others ++ [item], a ∉ below := fun a ha hmem =>
        hdisjoint a hmem a ha rfl
      obtain ⟨hbnot, hnd⟩ := List.nodup_cons.mp hnd
      obtain ⟨-, -, hitemne⟩ := List.nodup_append.mp hnd
      have hitemnot : item ∉ others := fun hmem =>
        hitemne item hmem item (List.mem_singleton_self _) rfl
      have hbitem : b ≠ item := fun heq =>
        hbnot (heq ▸ List.mem_append_right _ (List.mem_singleton_self _))
      have hmemItem : item ∈ b :: others ++ [item] :=
        List.mem_append_right _ (List.mem_singleton_self _)
      have hmemFirst : b ∈ b :: others ++ [item] := List.mem_cons_self
      refine ⟨_, large ++ [w], swapValues_eq hb hitem, ⟨?_, ?_, ?_, hsmaller, ?_⟩, ?_, ?_⟩
      · exact (Function.update_of_ne (hleft' item hmemItem) ..).trans
          ((Function.update_of_ne (hleft' b hmemFirst) ..).trans h.pivotValue)
      · rw [List.map_append, List.map_append, map_update (hbelow item hmemItem),
          map_update (hbelow b hmemFirst), h.belowValues, List.map_singleton,
          List.map_singleton, Function.update_of_ne hbitem, Function.update_self]
      · change (others ++ [item]).map _ = _
        rw [List.map_append, List.map_append, map_update hitemnot,
          map_update fun hmem => hbnot (List.mem_append_left _ hmem), hrest,
          List.map_singleton, List.map_singleton, Function.update_self]
      · intro x hx
        rcases List.mem_append.mp hx with hx | hx
        · exact h.notSmaller x (List.mem_cons_of_mem _ hx)
        · rw [List.mem_singleton.mp hx]
          exact h.notSmaller w List.mem_cons_self
      · exact List.perm_append_singleton w large
      · intro a ha
        have hne : ∀ c ∈ b :: others ++ [item], a ≠ c := fun c hc heq => ha (heq ▸ hc)
        exact (Function.update_of_ne (hne item hmemItem) ..).trans
          (Function.update_of_ne (hne b hmemFirst) ..)

/-- **One turn of the loop**, without the test at its end -/
lemma exchange_spec [DecidableLT V] {item : Addr} {v : V}
    (h : Partitioned s.value left pivot below others small large) (hitem : s.value item = some v)
    (hnd : (left :: (below ++ (others ++ [item]))).Nodup)
    (hchain : (left :: (below ++ (others ++ [item]))).IsChain fun a b => s.next a = some b) :
    ∃ value below' others' small' large',
      State.exchange left s (below.dropLast.getLastD left) (below.getLastD left) item
        = some ({ s with value }, below'.dropLast.getLastD left, below'.getLastD left)
      ∧ Partitioned value left pivot below' others' small' large'
      ∧ below' ++ others' = below ++ (others ++ [item])
      ∧ (small' ++ large').Perm (small ++ (large ++ [v]))
      ∧ (∀ a ∈ others', a ∈ others ++ [item]) ∧ ∀ a, a ∉ others ++ [item] → value a = s.value a := by
  rw [State.exchange, hitem, h.pivotValue]
  simp only [Option.bind_eq_bind, Option.bind_some]
  by_cases hv : v < pivot
  · obtain ⟨first, rest, hfirst⟩ : ∃ first rest, others ++ [item] = first :: rest :=
      List.exists_cons_of_ne_nil (by simp)
    obtain ⟨value, large', hswap, hpart, hperm, hother⟩ := h.exchange hitem hv hnd hfirst
    have hnext : s.next (below.getLastD left) = some first := by
      rw [hfirst] at hchain
      exact rel_getLastD hchain
    refine ⟨value, below ++ [first], rest, small ++ [v], large', ?_, hpart, ?_, ?_, ?_, hother⟩
    · rw [if_pos hv, hnext, List.dropLast_concat, List.getLastD_concat]
      simp only [Option.bind_some, hswap]
    · rw [hfirst, List.append_assoc, List.singleton_append]
    · rw [List.append_assoc]
      refine List.Perm.append_left small ?_
      exact (List.perm_append_comm.trans (hperm.append_right [v]))
    · intro a ha
      rw [hfirst]
      exact List.mem_cons_of_mem _ ha
  · exact ⟨s.value, below, others ++ [item], small, large ++ [v], if_neg hv, h.keep hitem hv, rfl,
      .refl _, fun _ ha => ha, fun _ _ => rfl⟩

/-- **The loop**: all values of the items are on the side where they belong. -/
lemma partition_spec [DecidableLT V] {right : Addr} {todo : List Addr} :
    ∀ {s : State V} {below others : List Addr} {small large values : List V} {fuel : ℕ},
    Partitioned s.value left pivot below others small large →
    todo.map s.value = values.map some → (left :: (below ++ (others ++ todo))).Nodup →
    ((left :: (below ++ (others ++ todo))).IsChain fun a b => s.next a = some b) →
    todo.getLast? = some right → todo.length ≤ fuel →
    ∃ value below' others' small' large',
      partition left right fuel s (below.dropLast.getLastD left) (below.getLastD left)
          ((below ++ others).getLastD left)
        = some ({ s with value }, below'.dropLast.getLastD left, below'.getLastD left)
      ∧ Partitioned value left pivot below' others' small' large'
      ∧ below' ++ others' = below ++ (others ++ todo)
      ∧ (small' ++ large').Perm (small ++ (large ++ values))
      ∧ ∀ a, a ∉ others ++ todo → value a = s.value a := by
  induction todo with
  | nil => exact fun _ _ _ _ hright => absurd hright (Option.some_ne_none _).symm
  | cons item todo ih =>
    intro s below others small large values fuel h hvalues hnd hchain hright hfuel
    cases fuel with
    | zero => exact absurd hfuel (Nat.not_succ_le_zero _)
    | succ fuel =>
    cases values with
    | nil => exact absurd hvalues (List.cons_ne_nil _ _)
    | cons v values =>
    obtain ⟨hitem, hvalues⟩ := List.cons.inj hvalues
    have hnext : s.next ((below ++ others).getLastD left) = some item := by
      rw [← List.append_assoc] at hchain
      exact rel_getLastD hchain
    have hsplit : left :: (below ++ (others ++ item :: todo))
        = (left :: (below ++ (others ++ [item]))) ++ todo := by simp
    have hnd' := hnd
    have hchain' := hchain
    rw [hsplit] at hnd' hchain'
    obtain ⟨hnd₁, -, hdisjoint⟩ := List.nodup_append.mp hnd'
    obtain ⟨value, below₁, others₁, small₁, large₁, hrun, h₁, hitems, hperm, hsub, hother⟩ :=
      exchange_spec h hitem hnd₁ hchain'.left_of_append
    have hlast : (below₁ ++ others₁).getLastD left = item := by
      rw [hitems, ← List.append_assoc, List.getLastD_concat]
    have hitems' : below₁ ++ (others₁ ++ todo) = below ++ (others ++ item :: todo) := by
      rw [← List.append_assoc, hitems]
      simp
    rw [partition, hnext]
    simp only [Option.bind_eq_bind, Option.bind_some, hrun]
    cases todo with
    | nil =>
      obtain rfl : item = right := Option.some_inj.mp hright
      obtain rfl : values = [] := List.map_eq_nil_iff.mp hvalues.symm
      exact ⟨value, below₁, others₁, small₁, large₁, if_neg fun hne => hne rfl, h₁, hitems, hperm,
        hother⟩
    | cons next todo =>
      have hright' : (next :: todo).getLast? = some right := by
        rwa [List.getLast?_cons_cons] at hright
      have hmem : ∀ a ∈ others ++ [item], a ∈ left :: (below ++ (others ++ [item])) :=
        fun a ha => List.mem_cons_of_mem _ (List.mem_append_right _ ha)
      have hne : item ≠ right := hdisjoint item (hmem item (by simp)) right
        (List.mem_of_getLast? hright')
      have htodo : (next :: todo).map value = values.map some := by
        rw [← hvalues]
        refine List.map_congr_left fun a ha => hother a fun ha' => ?_
        exact hdisjoint a (hmem a ha') a ha rfl
      obtain ⟨value', below', others', small', large', hrun', h', hitems'', hperm', hother'⟩ :=
        @ih { s with value } below₁ others₁ small₁ large₁ values fuel h₁ htodo
          (by rwa [hitems']) (by rwa [hitems']) hright' (Nat.le_of_succ_le_succ hfuel)
      rw [hlast] at hrun'
      refine ⟨value', below', others', small', large', ?_, h', hitems''.trans hitems', ?_, ?_⟩
      · rw [if_pos hne]
        exact hrun'
      · refine hperm'.trans ?_
        have hperm'' := hperm.append_right values
        simpa using hperm''
      · intro a ha
        refine (hother' a fun ha' => ha ?_).trans (hother a fun ha' => ha ?_)
        · rcases List.mem_append.mp ha' with ha' | ha'
          · have := hsub a ha'
            simp only [List.mem_append, List.mem_singleton] at this
            rcases this with hin | rfl
            · exact List.mem_append_left _ hin
            · exact List.mem_append_right _ List.mem_cons_self
          · exact List.mem_append_right _ (List.mem_cons_of_mem _ ha')
        · rcases List.mem_append.mp ha' with hin | hin
          · exact List.mem_append_left _ hin
          · rw [List.mem_singleton.mp hin]
            exact List.mem_append_right _ List.mem_cons_self

end Partition

/-! ## Sorting -/

section Sorting

variable [LT V]

/-- **What sorting items leaves**: their values in order, and other items as they were. -/
structure Sorts (old : Addr → Option V) (items : List Addr) (values : List V)
    (value : Addr → Option V) (sorted : List V) : Prop where
  itemValues : items.map value = sorted.map some
  perm : sorted.Perm values
  pairwise : sorted.Pairwise fun a b => ¬ b < a
  other : ∀ a, a ∉ items → value a = old a

/-- No item, or one item, is sorted. -/
lemma sorts_short {old : Addr → Option V} {items : List Addr} {values : List V}
    (h : items.map old = values.map some) (hlength : items.length ≤ 1) :
    Sorts old items values old values := by
  refine ⟨h, .refl _, ?_, fun _ _ => rfl⟩
  have hvalues : values.length ≤ 1 := by
    rwa [← List.length_map (f := some), ← h, List.length_map]
  match values, hvalues with
  | [], _ => exact .nil
  | [v], _ => exact List.pairwise_singleton _ v

/-- Sorted values around a pivot -/
lemma sorted_join [IsStrictOrder V (· < ·)] {pivot : V} {small large : List V}
    (hsmall : small.Pairwise fun a b => ¬ b < a) (hlarge : large.Pairwise fun a b => ¬ b < a)
    (hbelow : ∀ v ∈ small, v < pivot) (hnot : ∀ v ∈ large, ¬ v < pivot) :
    (small ++ pivot :: large).Pairwise fun a b => ¬ b < a := by
  have hirrefl : ∀ a : V, ¬ a < a := irrefl_of (· < ·)
  have htrans : ∀ {a b c : V}, a < b → b < c → a < c := fun h h' => trans_of (· < ·) h h'
  refine List.pairwise_append.mpr ⟨hsmall, List.pairwise_cons.mpr ⟨hnot, hlarge⟩, ?_⟩
  intro a ha b hb hlt
  have hpivot := hbelow a ha
  rcases List.mem_cons.mp hb with rfl | hb
  · exact hirrefl a (htrans hpivot hlt)
  · exact hnot b hb (htrans hlt hpivot)

/-- **The pivot in its place**: the smaller values are in front of it, and the others behind it. -/
structure Placed (old : Addr → Option V) (front : List Addr) (item : Addr) (others : List Addr)
    (small : List V) (pivot : V) (large : List V) (value : Addr → Option V) : Prop where
  frontValues : front.map value = small.map some
  pivotValue : value item = some pivot
  otherValues : others.map value = large.map some
  smaller : ∀ v ∈ small, v < pivot
  notSmaller : ∀ v ∈ large, ¬ v < pivot
  other : ∀ a, a ∉ front ++ item :: others → value a = old a

/-- The last of the smaller values and the pivot exchange their places. -/
lemma Partitioned.place {s : State V} {left : Addr} {pivot : V} {below others : List Addr}
    {small large : List V} (h : Partitioned s.value left pivot below others small large)
    (hnd : (left :: (below ++ others)).Nodup) :
    ∃ (value : Addr → Option V) (front : List Addr) (frontValues : List V),
      s.swapValues left (below.getLastD left) = some { s with value }
      ∧ (front = [] ∧ below = [] ∨ front = left :: below.dropLast)
      ∧ left :: below = front ++ [below.getLastD left] ∧ frontValues.Perm small
      ∧ Placed s.value front (below.getLastD left) others frontValues pivot large value := by
  rcases List.eq_nil_or_concat below with rfl | ⟨below, last, rfl⟩
  · -- No value is smaller, and the pivot is exchanged with itself.
    obtain rfl : small = [] := List.map_eq_nil_iff.mp h.belowValues.symm
    have hsame : Function.update s.value left (some pivot) = s.value :=
      Function.update_eq_self_iff.mpr h.pivotValue.symm
    refine ⟨s.value, [], [], ?_, Or.inl ⟨rfl, rfl⟩, rfl, .refl _, rfl, h.pivotValue, h.otherValues,
      h.smaller, h.notSmaller, fun _ _ => rfl⟩
    rw [List.getLastD_nil, swapValues_eq h.pivotValue h.pivotValue, hsame, hsame]
  · rw [List.concat_eq_append] at h hnd ⊢
    rcases List.eq_nil_or_concat small with rfl | ⟨small, v, rfl⟩
    · exact absurd h.belowValues (by simp)
    · have hbelow := h.belowValues
      rw [List.concat_eq_append, List.map_append, List.map_append] at hbelow
      obtain ⟨hbelow, hlast⟩ := List.append_inj' hbelow rfl
      have hlast : s.value last = some v := (List.cons.inj hlast).1
      obtain ⟨hleft, hnd⟩ := List.nodup_cons.mp hnd
      obtain ⟨hnd, -, hdisjoint⟩ := List.nodup_append.mp hnd
      have hlastnot : last ∉ below := fun hmem =>
        (List.nodup_append.mp hnd).2.2 last hmem last (List.mem_singleton_self _) rfl
      have hleftnot : left ∉ below := fun hmem =>
        hleft (List.mem_append_left _ (List.mem_append_left _ hmem))
      have hne : left ≠ last := by
        rintro rfl
        exact hleft (List.mem_append_left _ (List.mem_append_right _ (List.mem_singleton_self _)))
      have hothersLast : last ∉ others := fun hmem =>
        hdisjoint last (List.mem_append_right _ (List.mem_singleton_self _)) last hmem rfl
      have hothersLeft : left ∉ others := fun hmem => hleft (List.mem_append_right _ hmem)
      have hperm : (v :: small).Perm (small.concat v) := by
        rw [List.concat_eq_append]
        exact (List.perm_append_comm : ([v] ++ small).Perm (small ++ [v]))
      rw [List.getLastD_concat, List.dropLast_concat]
      refine ⟨_, left :: below, v :: small, swapValues_eq h.pivotValue hlast, Or.inr rfl, rfl, hperm,
        ?_, Function.update_self .., ?_, fun w hw => h.smaller w (hperm.mem_iff.mp hw), h.notSmaller,
        ?_⟩
      · rw [List.map_cons, List.map_cons, map_update hlastnot, map_update hleftnot, hbelow,
          Function.update_of_ne hne, Function.update_self]
      · rw [map_update hothersLast, map_update hothersLeft, h.otherValues]
      · intro a ha
        have halast : a ≠ last := fun heq =>
          ha (heq ▸ List.mem_append_right _ List.mem_cons_self)
        have hal : a ≠ left := fun heq => ha (heq ▸ List.mem_cons_self)
        rw [Function.update_of_ne halast, Function.update_of_ne hal]

/-- What is sorted on either side of the pivot is sorted. -/
lemma Placed.join [IsStrictOrder V (· < ·)] {old value₂ value₃ value₄ : Addr → Option V}
    {front others : List Addr} {item : Addr} {small large sorted₁ sorted₂ : List V} {pivot : V}
    (h : Placed old front item others small pivot large value₂)
    (h₁ : Sorts value₂ front small value₃ sorted₁) (h₂ : Sorts value₃ others large value₄ sorted₂)
    (hnd : (front ++ item :: others).Nodup) :
    Sorts old (front ++ item :: others) (pivot :: (small ++ large)) value₄
      (sorted₁ ++ pivot :: sorted₂) := by
  obtain ⟨-, hnd, hdisjoint⟩ := List.nodup_append.mp hnd
  have hitem := (List.nodup_cons.mp hnd).1
  have hfront : item ∉ front := fun hmem => hdisjoint item hmem item List.mem_cons_self rfl
  have hfrontValues : front.map value₄ = front.map value₃ :=
    List.map_congr_left fun a ha => h₂.other a fun hmem =>
      hdisjoint a ha a (List.mem_cons_of_mem _ hmem) rfl
  refine ⟨?_, ?_, sorted_join h₁.pairwise h₂.pairwise ?_ ?_, fun a ha => ?_⟩
  · rw [List.map_append, List.map_cons, List.map_append, List.map_cons, hfrontValues, h₁.itemValues,
      h₂.itemValues, h₂.other item hitem, h₁.other item hfront, h.pivotValue]
  · exact List.perm_middle.trans ((h₁.perm.append h₂.perm).cons pivot)
  · exact fun v hv => h.smaller v (h₁.perm.mem_iff.mp hv)
  · exact fun v hv => h.notSmaller v (h₂.perm.mem_iff.mp hv)
  · rw [← h.other a ha, h₂.other a, h₁.other a]
    · exact fun hmem => ha (List.mem_append_left _ hmem)
    · exact fun hmem => ha (List.mem_append_right _ (List.mem_cons_of_mem _ hmem))

omit [LT V] in
/-- The last of the items is the last of those behind one of them. -/
lemma getLastD_split {left item : Addr} {rest front others : List Addr}
    (h : left :: rest = front ++ item :: others) : rest.getLastD left = others.getLastD item := by
  have hlast := getLastD_middle left item front others
  rwa [← h, List.getLastD_cons] at hlast

/-- **The loop and the exchange after it** put the pivot in its place. -/
lemma split_spec [DecidableLT V] {fuel : ℕ} {s : State V} {left : Addr} {rest : List Addr} {pivot : V}
    {values : List V} (hrest : rest ≠ []) (hnd : (left :: rest).Nodup)
    (hchain : (left :: rest).IsChain fun a b => s.next a = some b)
    (hpivot : s.value left = some pivot) (hvalues : rest.map s.value = values.map some)
    (hfuel : rest.length ≤ fuel) :
    ∃ value₁ value front ptr0 ptr1 others small large,
      partition left (rest.getLastD left) fuel s left left left
          = some ({ s with value := value₁ }, ptr0, ptr1)
      ∧ swapValues { s with value := value₁ } left ptr1 = some { s with value }
      ∧ left :: rest = front ++ ptr1 :: others
      ∧ (front = [] ∧ ptr0 = left ∨ ∃ rest', front = left :: rest' ∧ ptr0 = rest'.getLastD left)
      ∧ Placed s.value front ptr1 others small pivot large value
      ∧ (small ++ large).Perm values := by
  have hright := getLast?_eq_getLastD left hrest
  have hstart : Partitioned s.value left pivot [] [] [] [] := ⟨hpivot, rfl, rfl,
    fun _ hv => absurd hv List.not_mem_nil, fun _ hv => absurd hv List.not_mem_nil⟩
  obtain ⟨value₁, below, others, small, large, hpart, h₁, hitems, hperm, hother₁⟩ :=
    partition_spec hstart hvalues hnd hchain hright hfuel
  change below ++ others = rest at hitems
  obtain ⟨value, front, frontValues, hswap, hfront, hbelow, hfrontPerm, hplaced⟩ :=
    Partitioned.place (s := { s with value := value₁ }) h₁ (by rw [hitems]; exact hnd)
  have hwhole : left :: rest = front ++ below.getLastD left :: others := by
    rw [← hitems, ← List.cons_append, hbelow, List.append_assoc, List.singleton_append]
  refine ⟨value₁, value, front, _, _, others, frontValues, large, hpart, hswap, hwhole, ?_, ?_, ?_⟩
  · rcases hfront with ⟨hfront, rfl⟩ | hfront
    · exact Or.inl ⟨hfront, rfl⟩
    · exact Or.inr ⟨_, hfront, rfl⟩
  · refine { hplaced with other := fun a ha => (hplaced.other a ha).trans (hother₁ a fun hmem => ha ?_) }
    rw [← hwhole]
    exact List.mem_cons_of_mem _ hmem
  · exact (hfrontPerm.append_right large).trans hperm

/-- **The recursion** sorts the items from `left` on; there is no call for one item. -/
lemma sortFrom_spec [DecidableLT V] [IsStrictOrder V (· < ·)] {fuel : ℕ} : ∀ {s : State V}
    {left : Addr} {rest : List Addr} {values : List V}, (left :: rest).Nodup →
    ((left :: rest).IsChain fun a b => s.next a = some b) →
    (left :: rest).map s.value = values.map some → rest.length < fuel →
    ∃ value sorted, (if left ≠ rest.getLastD left then sortFrom fuel s left (rest.getLastD left)
        else some s) = some { s with value }
      ∧ Sorts s.value (left :: rest) values value sorted := by
  induction fuel with
  | zero => exact fun _ _ _ hfuel => absurd hfuel (Nat.not_lt_zero _)
  | succ fuel ih =>
    intro s left rest values hnd hchain hvalues hfuel
    rcases eq_or_ne rest [] with rfl | hrest
    · exact ⟨s.value, values, if_neg fun hne => hne rfl, sorts_short hvalues (le_refl 1)⟩
    cases values with
    | nil => exact absurd hvalues (List.cons_ne_nil _ _)
    | cons pivot values =>
    obtain ⟨hpivot, hvalues⟩ := List.cons.inj hvalues
    have hne : left ≠ rest.getLastD left := fun heq =>
      (List.nodup_cons.mp hnd).1 (heq ▸ List.mem_of_getLast? (getLast?_eq_getLastD left hrest))
    obtain ⟨value₁, value₂, front, ptr0, ptr1, others, small, large, hpart, hswap, hwhole, hfront,
      hplaced, hperm⟩ := split_spec hrest hnd hchain hpivot hvalues (Nat.le_of_lt_succ hfuel)
    have hlast := getLastD_split hwhole
    have hlength := congrArg List.length hwhole
    rw [List.length_cons, List.length_append, List.length_cons] at hlength
    rw [hwhole] at hnd hchain ⊢
    rw [hlast] at hne hpart ⊢
    obtain ⟨hndFront, hndBehind, hdisjoint⟩ := List.nodup_append.mp hnd
    have hchainBehind := hchain.right_of_append
    -- The items before the pivot
    obtain ⟨value₃, sorted₁, hrun₁, hsorts₁⟩ : ∃ value₃ sorted₁,
        (if left ≠ ptr0 then sortFrom fuel { s with value := value₂ } left ptr0
          else some { s with value := value₂ }) = some { s with value := value₃ }
          ∧ Sorts value₂ front small value₃ sorted₁ := by
      rcases hfront with ⟨rfl, rfl⟩ | ⟨rest', rfl, rfl⟩
      · exact ⟨value₂, small, if_neg fun hne => hne rfl,
          sorts_short hplaced.frontValues (Nat.zero_le 1)⟩
      · refine ih hndFront hchain.left_of_append hplaced.frontValues ?_
        rw [List.length_cons] at hlength
        omega
    have hothers : others.map value₃ = large.map some := by
      rw [← hplaced.otherValues]
      exact List.map_congr_left fun a ha => hsorts₁.other a fun hmem =>
        hdisjoint a hmem a (List.mem_cons_of_mem _ ha) rfl
    -- The items behind it
    obtain ⟨next, hnext, value₄, sorted₂, hrun₂, hsorts₂⟩ : ∃ next,
        (if ptr1 ≠ others.getLastD ptr1 then s.next ptr1 else some ptr1) = some next
          ∧ ∃ value₄ sorted₂, (if next ≠ others.getLastD ptr1 then
              sortFrom fuel { s with value := value₃ } next (others.getLastD ptr1)
            else some { s with value := value₃ }) = some { s with value := value₄ }
          ∧ Sorts value₃ others large value₄ sorted₂ := by
      cases others with
      | nil =>
        exact ⟨ptr1, if_neg fun hne => hne rfl, value₃, large, if_neg fun hne => hne rfl,
          sorts_short hothers (Nat.zero_le 1)⟩
      | cons c others =>
        have hne₁ : ptr1 ≠ others.getLastD c := fun heq =>
          (List.nodup_cons.mp hndBehind).1 (heq ▸ List.getLastD_mem_cons)
        rw [List.getLastD_cons]
        refine ⟨c, (if_pos hne₁).trans hchainBehind.rel, ?_⟩
        refine ih (List.nodup_cons.mp hndBehind).2 (List.isChain_cons_cons.mp hchainBehind).2
          hothers ?_
        rw [List.length_cons] at hlength
        omega
    have hjoin := hplaced.join hsorts₁ hsorts₂ hnd
    refine ⟨value₄, sorted₁ ++ pivot :: sorted₂, ?_, hjoin.itemValues,
      hjoin.perm.trans (hperm.cons pivot), hjoin.pairwise, hjoin.other⟩
    rw [if_pos hne, sortFrom]
    simp only [Option.bind_eq_bind, hpart, Option.bind_some, hswap, hnext, hrun₁, hrun₂]

end Sorting

end State

open State

/-- Entries with these names and values -/
lemma exists_entries {value : Addr → Option V} {items : List Addr} : ∀ {values : List V},
    items.map value = values.map some → ∃ l : List (Item V), names l = items
      ∧ l.map Entry.key = values ∧ ∀ e ∈ l, value e.name = some e.key := by
  induction items with
  | nil =>
    intro values h
    exact ⟨[], rfl, (List.map_eq_nil_iff.mp h.symm).symm, fun e he => absurd he List.not_mem_nil⟩
  | cons a items ih =>
    intro values h
    cases values with
    | nil => exact absurd h (List.cons_ne_nil _ _)
    | cons v values =>
      obtain ⟨ha, h⟩ := List.cons.inj h
      obtain ⟨l, rfl, rfl, hl⟩ := ih h
      refine ⟨⟨a, v, ()⟩ :: l, rfl, rfl, fun e he => ?_⟩
      rcases List.mem_cons.mp he with rfl | he
      · exact ha
      · exact hl e he

/-- The entries of an object whose values were written to -/
lemma Refines.written {s : State V} {r : Reference V} (h : Refines s r) {this : ℕ}
    (hthis : this < s.lists) {value : Addr → Option V} {l : List (Item V)}
    (hnames : names l = names (r.entries this)) (hvalues : ∀ e ∈ l, value e.name = some e.key)
    (hother : ∀ a, a ∉ names (r.entries this) → value a = s.value a) :
    Refines { s with value } (r.set this l) := by
  obtain ⟨free, hholds⟩ := h.holds this hthis
  have hnot : ∀ a, ¬ (s.list this).Owns this a → a ∉ names (r.entries this) := fun a ha hmem =>
    ha (hholds.owns (List.mem_append_left _ hmem))
  have hholds' : State.Holds { s with value } this l free := by
    refine ⟨?_, ?_, hholds.freeChain, ?_, hvalues, fun a ha => ?_⟩
    · rw [hnames]
      exact hholds.chain
    · rw [hholds.size, ← List.length_map (f := Entry.name), ← List.length_map (f := Entry.name)]
      exact congrArg List.length hnames.symm
    · rw [hnames]
      exact hholds.slots
    · refine (hother a fun hmem => ?_).trans (hholds.raw a ha)
      exact (List.nodup_append.mp (hholds.nodup (h.owned.nodup hthis))).2.2 a hmem a ha rfl
  refine h.set hthis ⟨rfl, fun _ _ => rfl, fun _ hb => hb, fun a ha => ?_⟩
    ⟨h.owned.owners, fun b hb i => ?_⟩ hholds'
  · exact ⟨hother a (hnot a ha), rfl, rfl⟩
  · refine (hother _ (hnot _ fun hown => ?_)).trans (h.owned.fresh b hb i)
    exact absurd (h.owned.owners.lt this hthis b hown) (Nat.not_lt_of_le hb)

/-- **`sort` sorts.**  For every list and every strict order, so for every strict weak order: it
    returns, and writes to nothing but the values of the items.  The object has the same items in the
    same order; their values are those from before, and no value is smaller than one before it. -/
theorem sort_sorted [LT V] [DecidableLT V] [IsStrictOrder V (· < ·)] {s : State V}
    {r : Reference V} (h : Refines s r) {this : ℕ} (hthis : this < s.lists) :
    ∃ value l, s.sort this = some { s with value } ∧ Refines { s with value } (r.set this l)
      ∧ names l = names (r.entries this)
      ∧ (l.map Entry.key).Perm ((r.entries this).map Entry.key)
      ∧ (l.map Entry.key).Pairwise fun a b => ¬ b < a := by
  obtain ⟨free, hholds⟩ := h.holds this hthis
  have hlast : s.prev (.endItem this) = endOf none (names (r.entries this)) := hholds.chain.prev_eq
  have hbegin := h.begin_eq hthis
  have hvalues : (names (r.entries this)).map s.value
      = ((r.entries this).map Entry.key).map some := by
    rw [names, List.map_map, List.map_map]
    exact List.map_congr_left hholds.values
  cases hl : r.entries this with
  | nil =>
    rw [hl] at hlast
    refine ⟨s.value, [], by rw [State.sort, hlast]; rfl, ?_, rfl, .refl _, .nil⟩
    rw [← hl, EntryLists.set_entries]
    exact h
  | cons e l =>
    rw [hl] at hlast hbegin hvalues
    have hnd := (List.nodup_append.mp (hholds.nodup (h.owned.nodup hthis))).1
    have hchain := (chain_append.mp hholds.chain).1.isChain
    have hsize := hholds.size
    rw [hl] at hnd hchain hsize
    have hright : s.prev (.endItem this) = some ((names l).getLastD e.name) := by
      rw [hlast, endOf_none, List.getLastD_eq_getLast?]
      exact List.getLast?_cons
    have hfuel : (names l).length < (s.list this).size := by
      rw [hsize, names, List.length_map]
      exact Nat.lt_succ_self _
    obtain ⟨value, sorted, hrun, hsorts⟩ := sortFrom_spec hnd hchain hvalues hfuel
    obtain ⟨l', hnames, hkeys, hvalues'⟩ := exists_entries hsorts.itemValues
    refine ⟨value, l', ?_, h.written hthis ?_ hvalues' ?_, hnames, ?_, ?_⟩
    · rw [State.sort, hright, hbegin]
      rw [ite_not] at hrun
      exact hrun
    · rw [hl]
      exact hnames
    · rw [hl]
      exact hsorts.other
    · rw [hkeys]
      exact hsorts.perm
    · rw [hkeys]
      exact hsorts.pairwise

/-- Three values, of which two are equal -/
theorem sort_sorted_three : ∃ (s : State ℕ) (value : Addr → Option ℕ) (l : List (Item ℕ)),
    (system ℕ).Run [(.create, none), (.append 0 2, some (.slot 0 3)),
      (.append 0 1, some (.slot 0 2)), (.append 0 2, some (.slot 0 1))] s
    ∧ s.sort 0 = some { s with value } ∧ (l.map Entry.key).Pairwise fun a b => ¬ b < a := by
  have hrun := System.Run.next (System.Run.next (System.Run.next (System.Run.next
    (System.Run.start (show (system ℕ).initial empty from rfl)) ⟨.create, none, rfl, trivial, rfl⟩)
    ⟨.append 0 2, some (.slot 0 3), rfl, (Nat.one_pos : 0 < 1), rfl⟩)
    ⟨.append 0 1, some (.slot 0 2), rfl, (Nat.one_pos : 0 < 1), rfl⟩)
    ⟨.append 0 2, some (.slot 0 1), rfl, (Nat.one_pos : 0 < 1), rfl⟩
  obtain ⟨r, -, h⟩ := run_refines hrun
  obtain ⟨value, l, hsort, -, -, -, hpairwise⟩ := sort_sorted h (show 0 < 1 from Nat.one_pos)
  exact ⟨_, value, l, hrun, hsort, hpairwise⟩

end Nstd.LinkedList
