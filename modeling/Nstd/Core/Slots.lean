import Mathlib.Data.List.Basic
import Mathlib.Tactic.Lemma

/-!
# Raw storage for objects

Slots in which objects are constructed and destroyed by hand.

* `Slots` — the slots, with the number of constructions and destructions in them.
* `construct`, `destroy`, `read`, `assign` — what is done to one slot.  Only a raw slot is constructed,
  and only an object is destroyed, read or assigned.
* `constructAll`, `fillAll`, `copyAll`, `moveAll`, `destroyAll`, `shift` — loops over slots, with a
  lemma each for slots that are seen as three parts.
-/

namespace Nstd

/-- Slots: an object or raw memory each -/
structure Slots (T : Type) where
  objects : List (Option T)
  constructed : Nat
  destroyed : Nat

namespace Slots

variable {T : Type}

/-- Raw memory -/
def raw (n : Nat) : Slots T := ⟨List.replicate n none, 0, 0⟩

/-- A constructor is called for a slot. -/
def construct (m : Slots T) (i : Nat) (v : T) : Option (Slots T) :=
  match m.objects[i]? with
  | some none => some ⟨m.objects.set i (some v), m.constructed + 1, m.destroyed⟩
  | _ => none

/-- The destructor of the object in a slot is called. -/
def destroy (m : Slots T) (i : Nat) : Option (Slots T) :=
  match m.objects[i]? with
  | some (some _) => some ⟨m.objects.set i none, m.constructed, m.destroyed + 1⟩
  | _ => none

/-- The object in a slot -/
def read (m : Slots T) (i : Nat) : Option T :=
  match m.objects[i]? with
  | some (some v) => some v
  | _ => none

/-- The object in a slot gets another value. -/
def assign (m : Slots T) (i : Nat) (v : T) : Option (Slots T) :=
  match m.objects[i]? with
  | some (some _) => some { m with objects := m.objects.set i (some v) }
  | _ => none

/-- Objects of the given values are constructed from a slot on. -/
def constructAll (m : Slots T) (i : Nat) : List T → Option (Slots T)
  | [] => some m
  | v :: vs => do
    let m ← m.construct i v
    constructAll m (i + 1) vs

/-- Objects of one value are constructed from a slot on. -/
def fillAll (m : Slots T) (i : Nat) (v : T) : Nat → Option (Slots T)
  | 0 => some m
  | n + 1 => do
    let m ← m.construct i v
    fillAll m (i + 1) v n

/-- Objects are constructed from a slot on, as copies of those in other slots. -/
def copyAll (src : Slots T) (j : Nat) (m : Slots T) (i : Nat) : Nat → Option (Slots T)
  | 0 => some m
  | n + 1 => do
    let v ← src.read j
    let m ← m.construct i v
    copyAll src (j + 1) m (i + 1) n

/-- Objects are constructed as copies, and each original is destroyed after it was copied. -/
def moveAll (src m : Slots T) (i : Nat) : Nat → Option (Slots T × Slots T)
  | 0 => some (src, m)
  | n + 1 => do
    let v ← src.read i
    let m ← m.construct i v
    let src ← src.destroy i
    moveAll src m (i + 1) n

/-- Objects are destroyed from a slot on. -/
def destroyAll (m : Slots T) (i : Nat) : Nat → Option (Slots T)
  | 0 => some m
  | n + 1 => do
    let m ← m.destroy i
    destroyAll m (i + 1) n

/-- Each object from a slot on gets the value of the next one. -/
def shift (m : Slots T) (i : Nat) : Nat → Option (Slots T)
  | 0 => some m
  | n + 1 => do
    let v ← m.read (i + 1)
    let m ← m.assign i v
    shift m (i + 1) n

/-! ## One slot -/

lemma getElem?_middle {α : Type} (xs : List α) (a : α) (zs : List α) :
    (xs ++ a :: zs)[xs.length]? = some a := by
  rw [List.getElem?_append_right (Nat.le_refl _), Nat.sub_self, List.getElem?_cons_zero]

lemma set_middle {α : Type} (xs : List α) (a b : α) (zs : List α) :
    (xs ++ a :: zs).set xs.length b = xs ++ b :: zs := by
  rw [List.set_append_right _ _ (Nat.le_refl _), Nat.sub_self, List.set_cons_zero]

lemma construct_middle {m : Slots T} {xs zs : List (Option T)} (h : m.objects = xs ++ none :: zs)
    (v : T) : m.construct xs.length v =
      some ⟨xs ++ some v :: zs, m.constructed + 1, m.destroyed⟩ := by
  rw [construct, h, getElem?_middle, set_middle]

lemma destroy_middle {m : Slots T} {xs zs : List (Option T)} {v : T}
    (h : m.objects = xs ++ some v :: zs) :
    m.destroy xs.length = some ⟨xs ++ none :: zs, m.constructed, m.destroyed + 1⟩ := by
  rw [destroy, h, getElem?_middle, set_middle]

lemma read_middle {m : Slots T} {xs zs : List (Option T)} {v : T}
    (h : m.objects = xs ++ some v :: zs) : m.read xs.length = some v := by
  rw [read, h, getElem?_middle]

lemma assign_middle {m : Slots T} {xs zs : List (Option T)} {v : T}
    (h : m.objects = xs ++ some v :: zs) (w : T) :
    m.assign xs.length w = some { m with objects := xs ++ some w :: zs } := by
  rw [assign, h, getElem?_middle, set_middle]

/-! ## Loops -/

/-- A list of raw slots of a positive number -/
lemma replicate_cons {zs : List (Option T)} (n : Nat) :
    List.replicate (n + 1) (none : Option T) ++ zs = none :: (List.replicate n none ++ zs) := rfl

/-- A slot goes from the part after it to the part before it. -/
lemma append_cons {α : Type} (xs : List α) (a : α) (zs : List α) :
    xs ++ a :: zs = (xs ++ [a]) ++ zs := by
  rw [List.append_assoc, List.singleton_append]

lemma constructAll_spec {m : Slots T} {xs zs : List (Option T)} {vs : List T}
    (h : m.objects = xs ++ (List.replicate vs.length none ++ zs)) :
    m.constructAll xs.length vs =
      some ⟨xs ++ (vs.map some ++ zs), m.constructed + vs.length, m.destroyed⟩ := by
  induction vs generalizing m xs with
  | nil =>
    rw [constructAll, List.map_nil, List.nil_append]
    rw [List.length_nil, List.replicate_zero, List.nil_append] at h
    rw [← h]
    rfl
  | cons v vs ih =>
    rw [List.length_cons, replicate_cons] at h
    have hnext : (⟨xs ++ some v :: (List.replicate vs.length none ++ zs), m.constructed + 1,
        m.destroyed⟩ : Slots T).objects
        = (xs ++ [some v]) ++ (List.replicate vs.length none ++ zs) := append_cons ..
    have hrun := ih hnext
    rw [List.length_append, List.length_singleton] at hrun
    rw [constructAll, construct_middle h]
    simp only [Option.bind_eq_bind, Option.bind_some, hrun, List.map_cons, List.length_cons,
      List.append_assoc, List.cons_append, List.nil_append, Nat.add_assoc,
      Nat.add_comm 1 vs.length]

/-- There are not enough slots. -/
lemma constructAll_eq_none {m : Slots T} {xs : List (Option T)} {n : Nat} {vs : List T}
    (h : m.objects = xs ++ List.replicate n none) (hlt : n < vs.length) :
    m.constructAll xs.length vs = none := by
  induction vs generalizing m xs n with
  | nil => exact absurd hlt (Nat.not_lt_zero _)
  | cons v vs ih =>
    rw [constructAll]
    cases n with
    | zero =>
      have hnone : m.objects[xs.length]? = none := by
        rw [h, List.replicate_zero, List.append_nil]
        exact List.getElem?_eq_none (Nat.le_refl _)
      rw [construct, hnone]
      rfl
    | succ n =>
      rw [List.replicate_succ] at h
      have hnext : (⟨xs ++ some v :: List.replicate n none, m.constructed + 1, m.destroyed⟩ :
          Slots T).objects = (xs ++ [some v]) ++ List.replicate n none := append_cons ..
      have hrun := ih hnext (Nat.lt_of_succ_lt_succ hlt)
      rw [List.length_append, List.length_singleton] at hrun
      rw [construct_middle h]
      exact hrun

/-- Objects of one value are objects of the values of a list. -/
lemma fillAll_eq (m : Slots T) (i : Nat) (v : T) (n : Nat) :
    m.fillAll i v n = m.constructAll i (List.replicate n v) := by
  induction n generalizing m i with
  | zero => rfl
  | succ n ih =>
    rw [fillAll, List.replicate_succ, constructAll]
    simp only [ih]

/-- Copies of objects are objects of their values. -/
lemma copyAll_eq {src : Slots T} {xs zs : List (Option T)} {vs : List T}
    (h : src.objects = xs ++ (vs.map some ++ zs)) (m : Slots T) (i : Nat) :
    copyAll src xs.length m i vs.length = m.constructAll i vs := by
  induction vs generalizing xs m i with
  | nil => rfl
  | cons v vs ih =>
    rw [List.map_cons, List.cons_append] at h
    have hread := read_middle h
    rw [append_cons] at h
    rw [List.length_cons, copyAll, constructAll, hread]
    simp only [Option.bind_eq_bind, Option.bind_some]
    cases m.construct i v with
    | none => rfl
    | some m =>
      have hrest := ih h m (i + 1)
      rw [List.length_append, List.length_singleton] at hrest
      exact hrest

lemma destroyAll_spec {m : Slots T} {xs zs : List (Option T)} {vs : List T}
    (h : m.objects = xs ++ (vs.map some ++ zs)) :
    m.destroyAll xs.length vs.length = some ⟨xs ++ (List.replicate vs.length none ++ zs),
      m.constructed, m.destroyed + vs.length⟩ := by
  induction vs generalizing m xs with
  | nil =>
    rw [List.length_nil, destroyAll, List.replicate_zero, List.nil_append]
    rw [List.map_nil, List.nil_append] at h
    rw [← h]
    rfl
  | cons v vs ih =>
    rw [List.map_cons, List.cons_append] at h
    have hnext : (⟨xs ++ none :: (vs.map some ++ zs), m.constructed, m.destroyed + 1⟩ :
        Slots T).objects = (xs ++ [none]) ++ (vs.map some ++ zs) := append_cons ..
    have hrun := ih hnext
    rw [List.length_append, List.length_singleton] at hrun
    rw [List.length_cons, destroyAll, destroy_middle h]
    simp only [Option.bind_eq_bind, Option.bind_some, hrun, replicate_cons, List.append_assoc,
      List.singleton_append, Nat.add_assoc, Nat.add_comm 1 vs.length]

/-- Objects that are moved are objects of their values, and the originals are raw memory then. -/
lemma moveAll_eq {src : Slots T} {xs zs : List (Option T)} {vs : List T}
    (h : src.objects = xs ++ (vs.map some ++ zs)) (m : Slots T) :
    moveAll src m xs.length vs.length = (m.constructAll xs.length vs).map fun m =>
      (⟨xs ++ (List.replicate vs.length none ++ zs), src.constructed, src.destroyed + vs.length⟩,
        m) := by
  induction vs generalizing src m xs with
  | nil =>
    rw [List.map_nil, List.nil_append] at h
    rw [List.length_nil, moveAll, constructAll, List.replicate_zero, List.nil_append, ← h]
    rfl
  | cons v vs ih =>
    rw [List.map_cons, List.cons_append] at h
    have hnext : (⟨xs ++ none :: (vs.map some ++ zs), src.constructed, src.destroyed + 1⟩ :
        Slots T).objects = (xs ++ [none]) ++ (vs.map some ++ zs) := append_cons ..
    rw [List.length_cons, moveAll, constructAll, read_middle h]
    simp only [Option.bind_eq_bind, Option.bind_some]
    cases m.construct xs.length v with
    | none => rfl
    | some m =>
      have hrun := ih hnext m
      rw [List.length_append, List.length_singleton] at hrun
      simp only [Option.bind_some, destroy_middle h, hrun, replicate_cons, List.append_assoc,
        List.singleton_append, Nat.add_assoc, Nat.add_comm 1 vs.length]

lemma moveAll_spec {src m : Slots T} {xs zs ys ws : List (Option T)} {vs : List T}
    (hsrc : src.objects = xs ++ (vs.map some ++ zs))
    (hm : m.objects = ys ++ (List.replicate vs.length none ++ ws)) (hlength : xs.length = ys.length) :
    moveAll src m xs.length vs.length = some
      (⟨xs ++ (List.replicate vs.length none ++ zs), src.constructed, src.destroyed + vs.length⟩,
        ⟨ys ++ (vs.map some ++ ws), m.constructed + vs.length, m.destroyed⟩) := by
  rw [moveAll_eq hsrc, hlength, constructAll_spec hm, Option.map_some]

/-- The values after a slot move up by one; the last one stays twice. -/
lemma shift_spec {m : Slots T} {xs zs : List (Option T)} {v : T} {vs : List T}
    (h : m.objects = xs ++ some v :: (vs.map some ++ zs)) :
    ∃ w, m.shift xs.length vs.length =
      some { m with objects := (xs ++ vs.map some) ++ some w :: zs } := by
  induction vs generalizing m xs v with
  | nil =>
    rw [List.map_nil, List.nil_append] at h
    exact ⟨v, by rw [List.length_nil, shift, List.map_nil, List.append_nil, ← h]⟩
  | cons v' vs ih =>
    rw [List.map_cons, List.cons_append] at h
    have hnext := h
    rw [append_cons] at hnext
    have hread := read_middle hnext
    rw [List.length_append, List.length_singleton] at hread
    have hassigned : ({ m with objects := xs ++ some v' :: some v' :: (vs.map some ++ zs) } :
        Slots T).objects = (xs ++ [some v']) ++ some v' :: (vs.map some ++ zs) := append_cons ..
    obtain ⟨w, hrun⟩ := ih hassigned
    rw [List.length_append, List.length_singleton] at hrun
    refine ⟨w, ?_⟩
    rw [List.length_cons, shift, hread]
    simp only [Option.bind_eq_bind, Option.bind_some, assign_middle h, hrun, List.map_cons,
      List.append_assoc, List.cons_append, List.nil_append]

end Slots

end Nstd
