import Mathlib.Data.List.Nodup
import Mathlib.Logic.Function.Basic
import Mathlib.Tactic.Common

/-!
# Chains of linked nodes

A doubly linked chain keeps its first node in a variable of its own and marks the first node by a
null `prev`.  Both are the same thing here: `next` is a function on optional addresses, and its
value at `none` is that variable.  A chain is then a list of nodes in which every node is linked
both ways with the one before it, the first node being linked with `none`.

* `Chain next prev x l` — the nodes `l` follow `x`.
* `chain_append` — a chain splits at any point.
* `Chain.insert`, `Chain.remove` — the two edits, for any pair of functions that differ from the
  old links in the right places only; `Chain.link`, `Chain.unlink` — the functions as code writes them.
* `Chain.relocate` — the last node is exchanged for another one.
* `walk` — the nodes as far as a last one; `Chain.walk_eq` — those of a chain.
* `Stack prev p l` — a chain linked one way, as free lists are; `thread` makes one longer.
-/

namespace Linked

variable {A : Type} {next next' : Option A → Option A} {prev prev' : A → Option A}

/-- The nodes `l` follow `x`, linked both ways. -/
def Chain (next : Option A → Option A) (prev : A → Option A) : Option A → List A → Prop
  | _, [] => True
  | x, y :: l => next x = some y ∧ prev y = x ∧ Chain next prev (some y) l

/-- The last node of `l`, or `x` if there is none. -/
def endOf : Option A → List A → Option A
  | x, [] => x
  | _, y :: l => endOf (some y) l

@[simp] lemma chain_nil (x : Option A) : Chain next prev x [] := trivial

lemma chain_cons {x : Option A} {y : A} {l : List A} :
    Chain next prev x (y :: l) ↔ next x = some y ∧ prev y = x ∧ Chain next prev (some y) l :=
  Iff.rfl

@[simp] lemma endOf_nil (x : Option A) : endOf x [] = x := rfl
@[simp] lemma endOf_cons (x : Option A) (y : A) (l : List A) :
    endOf x (y :: l) = endOf (some y) l := rfl

lemma endOf_append (x : Option A) (l₁ l₂ : List A) : endOf x (l₁ ++ l₂) = endOf (endOf x l₁) l₂ := by
  induction l₁ generalizing x with
  | nil => rfl
  | cons y l ih => exact ih (some y)

@[simp] lemma endOf_concat (x : Option A) (l : List A) (y : A) : endOf x (l ++ [y]) = some y := by
  rw [endOf_append]; rfl

lemma endOf_mem (x : Option A) (l : List A) : endOf x l ∈ x :: l.map some := by
  induction l generalizing x with
  | nil => simp
  | cons y l ih => exact List.mem_cons_of_mem _ (ih (some y))

lemma ne_endOf {l : List A} {a : A} (h : a ∉ l) : some a ≠ endOf none l := by
  intro heq
  have hmem := endOf_mem none l
  rw [← heq] at hmem
  exact h (by simpa using hmem)

lemma endOf_none (l : List A) : endOf none l = l.getLast? := by
  rcases List.eq_nil_or_concat l with rfl | ⟨l, y, rfl⟩
  · rfl
  · rw [List.concat_eq_append, endOf_concat, List.getLast?_concat]

/-- A chain splits at any point. -/
theorem chain_append {x : Option A} {l₁ l₂ : List A} :
    Chain next prev x (l₁ ++ l₂) ↔ Chain next prev x l₁ ∧ Chain next prev (endOf x l₁) l₂ := by
  induction l₁ generalizing x with
  | nil => simp
  | cons y l ih => rw [List.cons_append, chain_cons, chain_cons, ih, endOf_cons, and_assoc, and_assoc]

/-- A chain reads `next` at its start and at every node but the last, and `prev` at every node. -/
theorem Chain.congr {x : Option A} {l : List A} (h : Chain next prev x l)
    (hnd : (x :: l.map some).Nodup)
    (hn : ∀ z ∈ x :: l.map some, z ≠ endOf x l → next' z = next z)
    (hp : ∀ y ∈ l, prev' y = prev y) : Chain next' prev' x l := by
  induction l generalizing x with
  | nil => trivial
  | cons y l ih =>
    obtain ⟨h₁, h₂, h₃⟩ := h
    have hne : x ≠ endOf x (y :: l) := by
      intro he
      have := endOf_mem (some y) l
      rw [← endOf_cons x, ← he] at this
      exact (List.nodup_cons.mp hnd).1 this
    refine ⟨(hn x (by simp) hne).trans h₁, (hp y (by simp)).trans h₂, ?_⟩
    refine ih h₃ (List.nodup_cons.mp hnd).2 (fun z hz => ?_) fun w hw => hp w (by simp [hw])
    exact hn z (List.mem_cons_of_mem _ hz)

/-- The two halves of a chain have no node in common. -/
lemma split_nodup {x : Option A} {l₁ l₂ : List A} (hnd : (x :: (l₁ ++ l₂).map some).Nodup) :
    (x :: l₁.map some).Nodup ∧ (l₂.map some).Nodup
      ∧ ∀ z ∈ x :: l₁.map some, z ∉ l₂.map some := by
  rw [List.map_append, ← List.cons_append, List.nodup_append] at hnd
  exact ⟨hnd.1, hnd.2.1, fun z hz hz' => hnd.2.2 z hz z hz' rfl⟩

/-- Nodes that are all different, and nothing -/
lemma nodup_optional {l : List A} (h : l.Nodup) : (none :: l.map some).Nodup :=
  List.nodup_cons.mpr ⟨by simp, h.map fun _ _ => Option.some_inj.mp⟩

lemma mem_optional {l : List A} {a : A} (h : some a ∈ none :: l.map some) : a ∈ l := by
  simpa using h

/-- **Linking a node in** before `y`. -/
theorem Chain.insert {x : Option A} {l₁ l₂ : List A} {a y : A}
    (h : Chain next prev x (l₁ ++ y :: l₂)) (hnd : (x :: (l₁ ++ y :: l₂).map some).Nodup)
    (ha : some a ∉ x :: (l₁ ++ y :: l₂).map some)
    (hna : next' (endOf x l₁) = some a) (hny : next' (some a) = some y)
    (hpa : prev' a = endOf x l₁) (hpy : prev' y = some a)
    (hn : ∀ z, z ≠ endOf x l₁ → z ≠ some a → next' z = next z)
    (hp : ∀ b, b ≠ a → b ≠ y → prev' b = prev b) :
    Chain next' prev' x (l₁ ++ a :: y :: l₂) := by
  obtain ⟨hnd₁, hnd₂, hdis⟩ := split_nodup hnd
  obtain ⟨h₁, -, -, h₂⟩ := chain_append.mp h
  have hmem : ∀ z, (z ∈ x :: l₁.map some ∨ z ∈ (y :: l₂).map some) → z ≠ some a := by
    rintro z hz rfl
    exact ha (by simpa [or_assoc] using hz)
  refine chain_append.mpr ⟨?_, hna, hpa, hny, hpy, ?_⟩
  · refine h₁.congr hnd₁ (fun z hz he => hn z he (hmem z (Or.inl hz))) fun b hb => hp b ?_ ?_
    · rintro rfl; exact hmem (some b) (Or.inl (by simp [hb])) rfl
    · rintro rfl; exact hdis (some b) (by simp [hb]) (by simp)
  · refine h₂.congr hnd₂ (fun z hz _ => hn z ?_ (hmem z (Or.inr hz))) fun b hb => hp b ?_ ?_
    · rintro rfl; exact hdis _ (endOf_mem x l₁) hz
    · rintro rfl; exact hmem (some b) (Or.inr (by simp [hb])) rfl
    · rintro rfl; exact (List.nodup_cons.mp hnd₂).1 (by simp [hb])

/-- **Unlinking a node.** -/
theorem Chain.remove {x : Option A} {l₁ l₂ : List A} {a y : A}
    (h : Chain next prev x (l₁ ++ a :: y :: l₂))
    (hnd : (x :: (l₁ ++ a :: y :: l₂).map some).Nodup)
    (hny : next' (endOf x l₁) = some y) (hpy : prev' y = endOf x l₁)
    (hn : ∀ z, z ≠ endOf x l₁ → z ≠ some a → next' z = next z)
    (hp : ∀ b, b ≠ a → b ≠ y → prev' b = prev b) :
    Chain next' prev' x (l₁ ++ y :: l₂) := by
  obtain ⟨hnd₁, hnd₂, hdis⟩ := split_nodup hnd
  obtain ⟨h₁, -, -, -, -, h₂⟩ := chain_append.mp h
  obtain ⟨ha, hnd₃⟩ := List.nodup_cons.mp (show (some a :: (y :: l₂).map some).Nodup from hnd₂)
  refine chain_append.mpr ⟨?_, hny, hpy, ?_⟩
  · refine h₁.congr hnd₁ (fun z hz he => hn z he ?_) fun b hb => hp b ?_ ?_
    · rintro rfl; exact hdis _ hz (by simp)
    · rintro rfl; exact hdis (some b) (by simp [hb]) (by simp)
    · rintro rfl; exact hdis (some b) (by simp [hb]) (by simp)
  · refine h₂.congr hnd₃ (fun z hz _ => hn z ?_ ?_) fun b hb => hp b ?_ ?_
    · rintro rfl; exact hdis _ (endOf_mem x l₁) (List.mem_cons_of_mem _ hz)
    · rintro rfl; exact ha hz
    · rintro rfl; exact ha (by simp [hb])
    · rintro rfl; exact (List.nodup_cons.mp hnd₃).1 (by simp [hb])

/-- Linking a node in, as it is written -/
theorem Chain.link [DecidableEq A] {x : Option A} {l₁ l₂ : List A} {a y : A}
    (h : Chain next prev x (l₁ ++ y :: l₂)) (hnd : (x :: (l₁ ++ y :: l₂).map some).Nodup)
    (ha : some a ∉ x :: (l₁ ++ y :: l₂).map some) :
    Chain (Function.update (Function.update next (prev y) (some a)) (some a) (some y))
      (Function.update (Function.update prev a (prev y)) y (some a)) x (l₁ ++ a :: y :: l₂) := by
  have hlast : prev y = endOf x l₁ := (chain_append.mp h).2.2.1
  have hne : endOf x l₁ ≠ some a := by
    intro heq
    refine ha (heq ▸ ?_)
    rw [List.map_append, ← List.cons_append]
    exact List.mem_append_left _ (endOf_mem x l₁)
  have hay : a ≠ y := by
    rintro rfl
    exact ha (by simp)
  rw [hlast]
  refine h.insert hnd ha ?_ (Function.update_self ..) ?_ (Function.update_self ..) ?_ ?_
  · rw [Function.update_of_ne hne, Function.update_self]
  · rw [Function.update_of_ne hay, Function.update_self]
  · intro z hz hza
    rw [Function.update_of_ne hza, Function.update_of_ne hz]
  · intro b hba hby
    rw [Function.update_of_ne hby, Function.update_of_ne hba]

/-- **Another last node** takes the place of the last one. -/
theorem Chain.relocate {x : Option A} {l : List A} {e e' : A} (h : Chain next prev x (l ++ [e]))
    (hnd : (x :: l.map some).Nodup) (hne : next' (endOf x l) = some e')
    (hpe : prev' e' = endOf x l) (hn : ∀ z ∈ x :: l.map some, z ≠ endOf x l → next' z = next z)
    (hp : ∀ a ∈ l, prev' a = prev a) : Chain next' prev' x (l ++ [e']) :=
  chain_append.mpr ⟨(chain_append.mp h).1.congr hnd hn hp, hne, hpe, trivial⟩

/-- Unlinking a node, as it is written; the node itself may be used for something else. -/
theorem Chain.unlink [DecidableEq A] {x : Option A} {l₁ l₂ : List A} {a y : A}
    (h : Chain next prev x (l₁ ++ a :: y :: l₂))
    (hnd : (x :: (l₁ ++ a :: y :: l₂).map some).Nodup) (p : Option A) :
    Chain (Function.update next (prev a) (some y))
      (Function.update (Function.update prev y (prev a)) a p) x (l₁ ++ y :: l₂) := by
  have hlast : prev a = endOf x l₁ := (chain_append.mp h).2.2.1
  have hya : y ≠ a := by
    rintro rfl
    have hnd₂ := (split_nodup hnd).2.1
    exact (List.nodup_cons.mp hnd₂).1 (by simp)
  rw [hlast]
  refine h.remove hnd (Function.update_self ..) ?_ ?_ ?_
  · rw [Function.update_of_ne hya, Function.update_self]
  · intro z hz _
    exact Function.update_of_ne hz ..
  · intro b hba hby
    rw [Function.update_of_ne hba, Function.update_of_ne hby]

/-- In a chain, a node is followed by the next one of the list. -/
lemma Chain.next_eq {x : Option A} {l₁ l₂ : List A} {a y : A}
    (h : Chain next prev x (l₁ ++ a :: y :: l₂)) : next (some a) = some y :=
  (chain_append.mp h).2.2.2.1

/-- In a chain, a node is preceded by the end of what comes before it. -/
lemma Chain.prev_eq {x : Option A} {l₁ l₂ : List A} {a : A}
    (h : Chain next prev x (l₁ ++ a :: l₂)) : prev a = endOf x l₁ :=
  (chain_append.mp h).2.2.1

/-- Every node of a chain is followed by the next one. -/
lemma Chain.isChain {x : Option A} {l : List A} (h : Chain next prev x l) :
    l.IsChain fun a b => next (some a) = some b := by
  induction l generalizing x with
  | nil => exact .nil
  | cons a l ih =>
    cases l with
    | nil => exact .singleton a
    | cons b l => exact .cons_cons h.2.2.1 (ih h.2.2)

/-- The nodes from `i` on, as far as `last` -/
def walk [DecidableEq A] (next : A → Option A) (last : A) : ℕ → A → List A
  | 0, _ => []
  | fuel + 1, i =>
    if i = last then []
    else i :: match next i with
      | some j => walk next last fuel j
      | none => []

lemma walk_spec [DecidableEq A] {next : A → Option A} {last : A} {l : List A} :
    ∀ {i : A} {tail : List A} {fuel : ℕ}, l.length = fuel → l ++ [last] = i :: tail →
    ((i :: tail).IsChain fun a b => next a = some b) → last ∉ l → walk next last fuel i = l := by
  induction l with
  | nil =>
    rintro i tail fuel rfl _ _ _
    rfl
  | cons a l ih =>
    rintro i tail fuel rfl hl hnext hlast
    obtain ⟨rfl, rfl⟩ := List.cons.inj hl
    obtain ⟨hne, hlast⟩ := not_or.mp (List.mem_cons.not.mp hlast)
    obtain ⟨j, tail, htail⟩ : ∃ j tail, l ++ [last] = j :: tail :=
      List.exists_cons_of_ne_nil (by simp)
    change (a :: (l ++ [last])).IsChain _ at hnext
    rw [htail] at hnext
    obtain ⟨hnextItem, hnext⟩ := List.isChain_cons_cons.mp hnext
    rw [List.length_cons, walk, if_neg (Ne.symm hne), hnextItem]
    exact congrArg (a :: ·) (ih rfl htail hnext hlast)

/-- **Walking along a chain** -/
lemma Chain.walk_eq [DecidableEq A] {x : Option A} {l : List A} {last i : A}
    (h : Chain next prev x (l ++ [last])) (hbegin : next x = some i) (hlast : last ∉ l) :
    walk (fun a => next (some a)) last l.length i = l := by
  obtain ⟨j, tail, htail⟩ : ∃ j tail, l ++ [last] = j :: tail :=
    List.exists_cons_of_ne_nil (by simp)
  rw [htail] at h
  obtain rfl : i = j := Option.some_inj.mp (hbegin.symm.trans h.1)
  exact walk_spec rfl htail h.isChain hlast

/-! ## Chains linked one way -/

/-- The nodes `l` hang on `p`, linked by `prev` and ended by a null pointer. -/
def Stack (prev : A → Option A) : Option A → List A → Prop
  | p, [] => p = none
  | p, a :: l => p = some a ∧ Stack prev (prev a) l

lemma stack_none {l : List A} : Stack prev none l ↔ l = [] := by
  cases l with
  | nil => simp [Stack]
  | cons a l => simp [Stack]

lemma stack_some {a : A} {l : List A} :
    Stack prev (some a) l ↔ ∃ l', l = a :: l' ∧ Stack prev (prev a) l' := by
  cases l with
  | nil => simp [Stack]
  | cons b l =>
    simp only [Stack, Option.some.injEq, List.cons.injEq]
    constructor
    · rintro ⟨rfl, h⟩; exact ⟨l, ⟨rfl, rfl⟩, h⟩
    · rintro ⟨_, ⟨rfl, rfl⟩, h⟩; exact ⟨rfl, h⟩

/-- The first of the nodes is the one that `p` points to. -/
lemma Stack.eq_head {p : Option A} {l : List A} (h : Stack prev p l) : p = l.head? := by
  cases l with
  | nil => exact h
  | cons a l => exact h.1

lemma Stack.congr {p : Option A} {l : List A} (h : Stack prev p l)
    (hp : ∀ a ∈ l, prev' a = prev a) : Stack prev' p l := by
  induction l generalizing p with
  | nil => exact h
  | cons a l ih =>
    refine ⟨h.1, ?_⟩
    rw [hp a (by simp)]
    exact ih h.2 fun b hb => hp b (by simp [hb])

/-- Nodes are put in front of a stack, one after the other. -/
def thread [DecidableEq A] (prev : A → Option A) (p : Option A) : List A → (A → Option A) × Option A
  | [] => (prev, p)
  | a :: l => thread (Function.update prev a p) (some a) l

/-- **A longer stack**, with the last of the new nodes on top -/
lemma thread_spec [DecidableEq A] {slots : List A} : ∀ {prev : A → Option A} {p : Option A}
    {l : List A}, Stack prev p l → slots.Nodup → (∀ a ∈ slots, a ∉ l) →
    (thread prev p slots).2 = (slots.reverse ++ l).head?
      ∧ Stack (thread prev p slots).1 (slots.reverse ++ l).head? (slots.reverse ++ l)
      ∧ ∀ a ∉ slots, (thread prev p slots).1 a = prev a := by
  induction slots with
  | nil =>
    intro prev p l h _ _
    exact ⟨h.eq_head, h.eq_head ▸ h, fun _ _ => rfl⟩
  | cons i rest ih =>
    intro prev p l h hnd hdisjoint
    obtain ⟨hi, hrest⟩ := List.nodup_cons.mp hnd
    have hl := hdisjoint i List.mem_cons_self
    have hstack : Stack (Function.update prev i p) (some i) (i :: l) := by
      refine ⟨rfl, ?_⟩
      rw [Function.update_self]
      refine h.congr fun a ha => Function.update_of_ne ?_ _ _
      rintro rfl
      exact hl ha
    have hdisjoint' : ∀ a ∈ rest, a ∉ i :: l := by
      intro a ha hmem
      rcases List.mem_cons.mp hmem with rfl | hmem
      · exact hi ha
      · exact hdisjoint a (List.mem_cons_of_mem i ha) hmem
    obtain ⟨htop, hprev, hother⟩ := ih hstack hrest hdisjoint'
    have hlist : (i :: rest).reverse ++ l = rest.reverse ++ i :: l := by
      rw [List.reverse_cons, List.append_assoc, List.singleton_append]
    rw [hlist]
    refine ⟨htop, hprev, fun a ha => ?_⟩
    refine (hother a fun hmem => ha (List.mem_cons_of_mem i hmem)).trans ?_
    refine Function.update_of_ne ?_ _ _
    rintro rfl
    exact ha List.mem_cons_self

end Linked
