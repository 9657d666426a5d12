import Nstd.Document.VariantEqual
import Nstd.Shared.Variants

/-!
# Copies of variants are equal

* `operand` — what `operator==` sees of a variant, which is in the blocks that it points to.
* `operand_copy` — a copy shares them.
* **`equal_laws`** — copies are equal, and comparing comparable variants is an equivalence;
  `equal_not_symmetric`.

A copy has the same scalar or shares the block, and that is all that a comparison sees.
-/

namespace Nstd.Variant

namespace Sharing

open VariantEqual

variable {D : Type}

/-! ## What is compared -/

def Scalar.operand : Scalar D → Operand D
  | .bool b => .bool b
  | .double d => .double d
  | .int n => .int n
  | .uint n => .uint n
  | .int64 n => .int64 n
  | .uint64 n => .uint64 n

/-- What `operator==` sees of a variant if it looks into at most `n` blocks, one in another;
    `begins` are the addresses where the elements of arrays begin. -/
def operand (begins : ℕ → ℕ) (h : Heap (Data D)) : ℕ → Cell D → Option (Operand D)
  | _, .null => some .null
  | _, .scalar s => some (Scalar.operand s)
  | 0, .block _ => none
  | n + 1, .block data => do
    match (← (h.get? data).map Block.content) with
    | .map m => some (.map (← m.mapM fun e => (operand begins h n e.2).map (e.1, ·)))
    | .list l => some (.list (← l.mapM (operand begins h n)))
    | .array _ a => some (.array (begins data) (← a.mapM (operand begins h n)))
    | .string s => some (.string s)

/-- Counts are not seen. -/
lemma operand_congr {begins : ℕ → ℕ} {h h' : Heap (Data D)} (hsame : Heap.SameContent h h') (n : ℕ) :
    operand begins h' n = operand begins h n := by
  induction n with
  | zero =>
    funext c
    cases c <;> rw [operand, operand]
  | succ n ih =>
    funext c
    cases c with
    | block data => rw [operand, operand, hsame.2 data, ih]
    | _ => rw [operand, operand]

/-- **A copy** is seen as what has been copied. -/
lemma operand_copy {begins : ℕ → ℕ} {h h' : Heap (Data D)} {c c' : Cell D}
    (hcopy : copy h c = some (h', c')) (n : ℕ) : operand begins h' n c' = operand begins h n c := by
  cases c with
  | block data =>
    obtain ⟨h₁, hincrement, heq⟩ := Option.bind_eq_some_iff.mp hcopy
    obtain ⟨rfl, rfl⟩ := Prod.mk.inj (Option.some.inj heq)
    obtain ⟨b, hb, hwrite⟩ := Option.bind_eq_some_iff.mp hincrement
    obtain rfl := Option.some.inj hwrite
    rw [operand_congr (Heap.sameContent_write hb (b.ref + 1))]
  | null | scalar _ =>
    obtain ⟨rfl, rfl⟩ := Prod.mk.inj (Option.some.inj hcopy)
    rfl

/-! ## The comparison -/

/-- **Variants without doubles** are equal to themselves and to their copies, and lists with equal items
    are equal.  Comparing those between which no conversion loses anything is symmetric and transitive,
    and a string may stand on either side. -/
theorem equal_laws [DoubleNumber D] (a b c : Operand D) (ha : noDouble a = true)
    (hb : noDouble b = true) (hc : noDouble c = true) :
    equal a a = true ∧
    (∀ (begins : ℕ → ℕ) (h h' : Heap (Data D)) (n : ℕ) (x x' : Cell D),
      operand begins h n x = some a → copy h x = some (h', x') →
        ∃ a', operand begins h' n x' = some a' ∧ equal a a' = true ∧ equal a' a = true) ∧
    (∀ l l' : List (Operand D), List.Forall₂ (fun v w => equal v w = true) l l' →
      equal (.list l) (.list l') = true) ∧
    (Similar a b → equal a b = true → equal b a = true) ∧
    (∀ s, equal (.string s) a = equal a (.string s)) ∧
    (Similar a b → Similar b c → Similar a c → equal a b = true → equal b c = true →
      equal a c = true) := by
  refine ⟨equal_refl a ha, ?_, fun _ _ => equal_list_of_items, equal_symm a b ha hb,
    fun s => equal_string s a, equal_trans a b c ha hb hc⟩
  intro begins h h' n x x' hx hcopy
  exact ⟨a, (operand_copy hcopy n).trans hx, equal_refl a ha, equal_refl a ha⟩

/-- Doubles that are integers -/
instance : DoubleNumber ℤ where
  toDouble s := (Nstd.toInt64 s).toInt
  fromDouble := intText
  equal n n' := n = n'
  fromInt n := n
  toBool n := n ≠ 0
  toInt := Int32.ofInt
  toUInt := UInt32.ofInt
  toInt64 := Int64.ofInt
  toUInt64 := UInt64.ofInt

/-- A list of a number and a string -/
def numbered (n : Operand ℤ) : Operand ℤ := .list [n, .string (bytes "x")]

/-- An `int`, a `uint` and an `int64` are equal if they are the same number. -/
theorem equal_laws_numbered :
    equal (numbered (.uint 7)) (numbered (.int 7)) = true ∧
      equal (numbered (.int 7)) (numbered (.int64 7)) = true := by
  have hint : Similar (numbered (.int 7)) (numbered (.uint 7)) :=
    ⟨Or.inr ⟨2 ^ 32, rfl, rfl⟩, trivial, trivial⟩
  have huint : Similar (numbered (.uint 7)) (numbered (.int64 7)) :=
    ⟨Or.inl ⟨by decide, by decide⟩, trivial, trivial⟩
  have hint64 : Similar (numbered (.int 7)) (numbered (.int64 7)) :=
    ⟨Or.inl ⟨by decide, by decide⟩, trivial, trivial⟩
  obtain ⟨-, -, -, hsymm, -, htrans⟩ :=
    equal_laws (numbered (.int 7)) (numbered (.uint 7)) (numbered (.int64 7)) rfl rfl rfl
  exact ⟨hsymm hint rfl, htrans hint huint hint64 rfl rfl⟩

/-- `true` is equal to 2, and 2 is not equal to `true`. -/
theorem equal_not_symmetric :
    ¬ ((∀ a : Operand ℤ, noDouble a = true → equal a a = true) ∧
      (∀ a b : Operand ℤ, noDouble a = true → noDouble b = true → equal a b = true →
        equal b a = true) ∧
      (∀ a b c : Operand ℤ, noDouble a = true → noDouble b = true → noDouble c = true →
        equal a b = true → equal b c = true → equal a c = true) ∧
      (∀ (begins : ℕ → ℕ) (h h' : Heap (Data ℤ)) (n : ℕ) (x x' : Cell ℤ) (a : Operand ℤ),
        noDouble a = true → operand begins h n x = some a → copy h x = some (h', x') →
          ∃ a', operand begins h' n x' = some a' ∧ equal a a' = true ∧ equal a' a = true) ∧
      (∀ l l' : List (Operand ℤ), List.Forall₂ (fun v w => equal v w = true) l l' →
        equal (.list l) (.list l') = true) ∧
      ∀ (begin begin' : ℕ) (l l' : List (Operand ℤ)),
        List.Forall₂ (fun v w => equal v w = true) l l' →
          equal (.array begin l) (.array begin' l') = true) := by
  rintro ⟨-, hsymm, -⟩
  exact absurd (hsymm (.bool true) (.int 2) rfl rfl rfl) (by decide)

end Sharing

end Nstd.Variant
