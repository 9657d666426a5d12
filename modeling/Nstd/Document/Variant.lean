import Mathlib.Algebra.Ring.Int.Defs
import Nstd.Core.Bytes

/-!
# `Variant`

* `Variant D` — a value of `Variant`; `D` is the type of the doubles.  Sharing is not visible in
  it: two variants are the same value if their trees are.
* `HashMap.append` — a `HashMap<String, Variant>` is the list of its entries in insertion order.
* `toInt64`, `fromInt` — the conversions of `String` between integers and text, as `atoll` and
  `printf` do them; those of doubles are a parameter (`DoubleText`).
-/

namespace Nstd

/-- `Variant` -/
inductive Variant (D : Type)
  | null
  | bool (b : Bool)
  | double (d : D)
  | int (n : Int32)
  | uint (n : UInt32)
  | int64 (n : Int64)
  | uint64 (n : UInt64)
  | map (m : List (List UInt8 × Variant D))
  | list (l : List (Variant D))
  | array (a : List (Variant D))
  | string (s : List UInt8)

/-- What the C library does with doubles: `atof` and `printf` with `%f` -/
class DoubleText (D : Type) where
  toDouble : List UInt8 → D
  fromDouble : D → List UInt8

/-- Doubles as the texts they were written as -/
instance : DoubleText (List UInt8) := ⟨id, id⟩

/-- `HashMap::append`: a new key goes to the end, a key that is there has its value replaced. -/
def HashMap.append {V : Type} (key : List UInt8) (value : V) :
    List (List UInt8 × V) → List (List UInt8 × V)
  | [] => [(key, value)]
  | e :: m => if e.1 = key then (key, value) :: m else e :: HashMap.append key value m

lemma HashMap.append_of_notMem {V : Type} {k : List UInt8} (v : V) {m : List (List UInt8 × V)}
    (hk : k ∉ m.map Prod.fst) : HashMap.append k v m = m ++ [(k, v)] := by
  induction m with
  | nil => rfl
  | cons e m ih =>
    rw [List.map_cons, List.mem_cons, not_or] at hk
    rw [HashMap.append, if_neg (Ne.symm hk.1), ih hk.2, List.cons_append]

/-- The number that a run of digits stands for -/
def digitsValue (s : List UInt8) : ℕ :=
  s.foldl (fun n c => 10 * n + (c.toNat - (ch '0').toNat)) 0

/-- `String::toInt64`, which is `atoll`: white space, a sign, and digits up to the first byte that
    is none; too large a number becomes the nearest one there is. -/
def toInt64 (s : List UInt8) : Int64 :=
  let s := s.dropWhile isSpace
  let n : Int :=
    if s.head? = some (ch '-') then - digitsValue (s.tail.takeWhile isDigit)
    else if s.head? = some (ch '+') then digitsValue (s.tail.takeWhile isDigit)
    else digitsValue (s.takeWhile isDigit)
  Int64.ofInt (max (- 2 ^ 63) (min (2 ^ 63 - 1) n))

/-- The decimal digits of a number -/
def natText (n : ℕ) : List UInt8 := (Nat.toDigits 10 n).map ch

/-- What `printf` writes for an integer -/
def intText (n : Int) : List UInt8 :=
  if n < 0 then ch '-' :: natText n.natAbs else natText n.natAbs

namespace Variant

variable {D : Type}

/-- `Variant::toMap` -/
def toMap : Variant D → List (List UInt8 × Variant D)
  | .map m => m
  | _ => []

/-- `Variant::toList` -/
def toList : Variant D → List (Variant D)
  | .list l => l
  | _ => []

/-- `Variant::toString` -/
def toString [DoubleText D] : Variant D → List UInt8
  | .string s => s
  | .bool b => if b then bytes "true" else bytes "false"
  | .double d => DoubleText.fromDouble d
  | .int n => intText n.toInt
  | .uint n => natText n.toNat
  | .int64 n => intText n.toInt
  | .uint64 n => natText n.toNat
  | _ => []

end Variant

end Nstd
