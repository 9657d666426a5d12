import Mathlib.Data.List.Induction
import Nstd.Document.Variant

/-!
# Filling a map that has entries

* `merge` — entries appended to a map, one after the other.
* `merge_merge` — entries that are appended again under the same keys leave no trace.
* `marked` — the map as it is where some keys have lost their values.
* **`merge_eq_iff`** — when two maps become equal by the same entries.
-/

namespace Nstd.HashMap

variable {V W : Type}

/-- The map after all the entries of `ps` are appended to it -/
def merge (m ps : List (List UInt8 × V)) : List (List UInt8 × V) :=
  ps.foldl (fun m e => append e.1 e.2 m) m

lemma merge_nil (m : List (List UInt8 × V)) : merge m [] = m := rfl

lemma merge_cons (m ps : List (List UInt8 × V)) (e : List UInt8 × V) :
    merge m (e :: ps) = merge (append e.1 e.2 m) ps := rfl

lemma merge_append (m ps qs : List (List UInt8 × V)) :
    merge m (ps ++ qs) = merge (merge m ps) qs := List.foldl_append

/-! ## Appending twice -/

lemma append_append_same (k : List UInt8) (a b : V) (m : List (List UInt8 × V)) :
    append k b (append k a m) = append k b m := by
  induction m with
  | nil => simp [append]
  | cons e m ih =>
    rw [append]
    by_cases h : e.1 = k
    · rw [if_pos h, append, append, if_pos rfl, if_pos h]
    · rw [if_neg h, append, append, if_neg h, if_neg h, ih]

/-- The value of a key that is there is replaced before or after another key is appended. -/
lemma append_append_comm {k k' : List UInt8} (hne : k ≠ k') (a b : V)
    {m : List (List UInt8 × V)} (hk : k' ∈ m.map Prod.fst) :
    append k' b (append k a m) = append k a (append k' b m) := by
  induction m with
  | nil => exact absurd hk (by simp)
  | cons e m ih =>
    by_cases h : e.1 = k
    · have h' : e.1 ≠ k' := fun h' => hne (h.symm.trans h')
      rw [append, if_pos h, append, if_neg hne, append, if_neg h', append, if_pos h]
    · rw [append, if_neg h]
      by_cases h' : e.1 = k'
      · rw [append, if_pos h', append, if_pos h', append, if_neg (Ne.symm hne)]
      · have htail : k' ∈ m.map Prod.fst := by
          rcases List.mem_cons.mp hk with h'' | h''
          · exact absurd h''.symm h'
          · exact h''
        rw [append, if_neg h', append, if_neg h', append, if_neg h, ih htail]

lemma mem_keys_append {k k' : List UInt8} {v : V} {m : List (List UInt8 × V)} :
    k' ∈ (append k v m).map Prod.fst ↔ k' = k ∨ k' ∈ m.map Prod.fst := by
  induction m with
  | nil => simp [append]
  | cons e m ih =>
    by_cases h : e.1 = k
    · rw [append, if_pos h, List.map_cons, List.map_cons, List.mem_cons, List.mem_cons, h]
      exact ⟨fun hk => hk.imp_right Or.inr, fun hk => hk.elim Or.inl id⟩
    · rw [append, if_neg h, List.map_cons, List.map_cons, List.mem_cons, List.mem_cons, ih]
      exact or_left_comm

lemma mem_keys_merge {k : List UInt8} {m ps : List (List UInt8 × V)} :
    k ∈ (merge m ps).map Prod.fst ↔ k ∈ m.map Prod.fst ∨ k ∈ ps.map Prod.fst := by
  induction ps generalizing m with
  | nil => simp [merge_nil]
  | cons e ps ih =>
    rw [merge_cons, ih, mem_keys_append, List.map_cons, List.mem_cons]
    exact or_assoc.trans or_left_comm

/-- An entry that is appended at the end need not be appended before. -/
lemma append_merge_append {k : List UInt8} (a b : V) {m ps : List (List UInt8 × V)}
    (hps : ∀ e ∈ ps, e.1 ∈ m.map Prod.fst) :
    append k b (merge (append k a m) ps) = append k b (merge m ps) := by
  induction ps generalizing m with
  | nil => exact append_append_same k a b m
  | cons e ps ih =>
    have he := hps e List.mem_cons_self
    have hrest : ∀ f ∈ ps, f.1 ∈ (append e.1 e.2 m).map Prod.fst := fun f hf =>
      mem_keys_append.mpr (Or.inr (hps f (List.mem_cons_of_mem e hf)))
    rw [merge_cons, merge_cons]
    by_cases h : k = e.1
    · rw [← h, append_append_same]
    · rw [append_append_comm h a e.2 he, ih hrest]

/-- **Appending again** under the same keys leaves no trace of the first time. -/
theorem merge_merge {as bs : List (List UInt8 × V)} (h : as.map Prod.fst = bs.map Prod.fst)
    (m : List (List UInt8 × V)) : merge (merge m as) bs = merge m bs := by
  induction as using List.reverseRecOn generalizing bs with
  | nil =>
    rw [List.map_nil, eq_comm, List.map_eq_nil_iff] at h
    rw [h, merge_nil, merge_nil]
  | append_singleton as a ih =>
    rw [List.map_append, List.map_singleton] at h
    obtain ⟨bs, cs, rfl, hbs, hcs⟩ := List.map_eq_append_iff.mp h.symm
    obtain ⟨b, rfl, hb⟩ := List.map_eq_singleton_iff.mp hcs
    have hkeys : ∀ e ∈ bs, e.1 ∈ (merge m as).map Prod.fst := by
      intro e he
      refine mem_keys_merge.mpr (Or.inr ?_)
      rw [← hbs]
      exact List.mem_map_of_mem he
    have hlast : append b.1 b.2 (merge (append a.1 a.2 (merge m as)) bs) =
        append b.1 b.2 (merge (merge m as) bs) := by
      rw [← hb]
      exact append_merge_append a.2 b.2 hkeys
    rw [merge_append, merge_append, merge_append]
    exact hlast.trans (by rw [ih hbs.symm]; rfl)

/-! ## Maps without some of their values -/

/-- The entries with their values changed -/
def mapValues (f : V → W) (m : List (List UInt8 × V)) : List (List UInt8 × W) :=
  m.map fun e => (e.1, f e.2)

lemma mapValues_append (f : V → W) (k : List UInt8) (v : V) (m : List (List UInt8 × V)) :
    mapValues f (append k v m) = append k (f v) (mapValues f m) := by
  induction m with
  | nil => rfl
  | cons e m ih =>
    have hcons : mapValues f (e :: m) = (e.1, f e.2) :: mapValues f m := rfl
    rw [hcons, append, append]
    by_cases h : e.1 = k
    · rw [if_pos h, if_pos h]
      rfl
    · rw [if_neg h, if_neg h, ← ih]
      rfl

lemma mapValues_merge (f : V → W) (m ps : List (List UInt8 × V)) :
    mapValues f (merge m ps) = merge (mapValues f m) (mapValues f ps) := by
  induction ps generalizing m with
  | nil => rfl
  | cons e ps ih =>
    have hcons : mapValues f (e :: ps) = (e.1, f e.2) :: mapValues f ps := rfl
    rw [hcons, merge_cons, merge_cons, ih, mapValues_append]

/-- The map without the values of the keys `ks`, which are all in it -/
def marked (m : List (List UInt8 × V)) (ks : List (List UInt8)) : List (List UInt8 × Option V) :=
  merge (mapValues some m) (ks.map fun k => (k, none))

/-- **Two maps become equal** by the same entries if they are equal up to values of their keys. -/
theorem merge_eq_iff (m m' ps : List (List UInt8 × V)) :
    merge m ps = merge m' ps ↔ marked m (ps.map Prod.fst) = marked m' (ps.map Prod.fst) := by
  have hkeys : (mapValues some ps).map Prod.fst =
      ((ps.map Prod.fst).map fun k => (k, (none : Option V))).map Prod.fst := by
    simp [mapValues]
  have hmarked : ∀ m : List (List UInt8 × V),
      marked m (ps.map Prod.fst) = marked (merge m ps) (ps.map Prod.fst) := by
    intro m
    rw [marked, marked, mapValues_merge, merge_merge hkeys]
  have hmerge : ∀ m : List (List UInt8 × V),
      mapValues some (merge m ps) = merge (marked m (ps.map Prod.fst)) (mapValues some ps) := by
    intro m
    rw [mapValues_merge, marked, merge_merge hkeys.symm]
  constructor
  · intro h
    rw [hmarked m, hmarked m', h]
  · intro h
    have hsome : mapValues some (merge m ps) = mapValues some (merge m' ps) := by
      rw [hmerge m, hmerge m', h]
    refine List.map_injective_iff.mpr (fun a b hab => ?_) hsome
    obtain ⟨hkey, hvalue⟩ := Prod.mk.inj hab
    exact Prod.ext hkey (Option.some_inj.mp hvalue)

end Nstd.HashMap
