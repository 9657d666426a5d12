import Mathlib.Data.List.Forall2
import Nstd.Core.IntegerTypes
import Nstd.Document.Variant

/-!
# Comparing variants

* `Operand D` — a `Variant` as `operator==` sees it: arrays also have an address.
* `toBool`, `toInt`, `toUInt`, `toInt64`, `toUInt64` — its conversions, and those of `String`.
* `equal` — `operator==`, which converts the right operand to the type of the left one.
* `number`, `equal_number` — numbers are compared as `IntegerType.Number.Equals` says.
* `Similar` — variants between whose parts no conversion loses anything.
* `matches_of_equal` — how such variants can be equal.
* **`equal_refl`**, **`equal_symm`**, **`equal_trans`** — for them it is an equivalence.
-/

namespace Nstd.VariantEqual

/-! ## Conversions of strings -/

/-- `String::toLowerCase` -/
def toLowerCase (c : UInt8) : UInt8 := if ch 'A' ≤ c ∧ c ≤ ch 'Z' then c + 32 else c

/-- `String::toBool` -/
def stringToBool (s : List UInt8) : Bool :=
  if s = [] ∨ s.map toLowerCase = bytes "false" ∨ s = bytes "0" then false
  else
    match (s.takeWhile (· ≠ 0)).dropWhile (· = ch '0') with
    | [] => true
    | c :: p =>
      -- nothing but zeros behind the point, and some zero
      !(c = ch '.' && p.all (· = ch '0') && (p ≠ [] || s.head? = some (ch '0')))

/-- `String::toInt`, which is `atoi`, `strtol` with a `long` of 64 bits -/
def stringToInt (s : List UInt8) : Int32 := (toInt64 s).toInt32

/-- `String::toUInt64`, which is `strtoull`: too large a number becomes the largest one there is, and
    a sign negates the number modulo 2 ^ 64. -/
def stringToUInt64 (s : List UInt8) : UInt64 :=
  let s := s.dropWhile isSpace
  let negative : Bool := s.head? = some (ch '-')
  let s := if negative ∨ s.head? = some (ch '+') then s.tail else s
  let n := digitsValue (s.takeWhile isDigit)
  if 2 ^ 64 ≤ n then UInt64.ofNat (2 ^ 64 - 1)
  else UInt64.ofInt (if negative then - (n : ℤ) else n)

/-- `String::toUInt`, which is `strtoul` with a `long` of 64 bits -/
def stringToUInt (s : List UInt8) : UInt32 := (stringToUInt64 s).toUInt32

/-- What `operator==` needs of doubles -/
class DoubleNumber (D : Type) extends DoubleText D where
  equal : D → D → Bool
  fromInt : ℤ → D
  toBool : D → Bool
  toInt : D → Int32
  toUInt : D → UInt32
  toInt64 : D → Int64
  toUInt64 : D → UInt64

/-! ## Variants -/

/-- A `Variant`: an array also has the address where its elements begin. -/
inductive Operand (D : Type)
  | null
  | bool (b : Bool)
  | double (d : D)
  | int (n : Int32)
  | uint (n : UInt32)
  | int64 (n : Int64)
  | uint64 (n : UInt64)
  | map (m : List (List UInt8 × Operand D))
  | list (l : List (Operand D))
  | array (begin : ℕ) (a : List (Operand D))
  | string (s : List UInt8)

variable {D : Type} [DoubleNumber D]

/-- `isNull` -/
def isNull : Operand D → Bool
  | .null => true
  | _ => false

def toBool : Operand D → Bool
  | .bool b => b
  | .double d => DoubleNumber.toBool d
  | .int n => n ≠ 0
  | .uint n => n ≠ 0
  | .int64 n => n ≠ 0
  | .uint64 n => n ≠ 0
  | .string s => stringToBool s
  | _ => false

def toDouble : Operand D → D
  | .bool b => DoubleNumber.fromInt (if b then 1 else 0)
  | .double d => d
  | .int n => DoubleNumber.fromInt n.toInt
  | .uint n => DoubleNumber.fromInt n.toNat
  | .int64 n => DoubleNumber.fromInt n.toInt
  | .uint64 n => DoubleNumber.fromInt n.toNat
  | .string s => DoubleText.toDouble s
  | _ => DoubleNumber.fromInt 0

def toInt : Operand D → Int32
  | .bool b => if b then 1 else 0
  | .double d => DoubleNumber.toInt d
  | .int n => n
  | .uint n => Int32.ofInt n.toNat
  | .int64 n => Int32.ofInt n.toInt
  | .uint64 n => Int32.ofInt n.toNat
  | .string s => stringToInt s
  | _ => 0

def toUInt : Operand D → UInt32
  | .bool b => if b then 1 else 0
  | .double d => DoubleNumber.toUInt d
  | .int n => UInt32.ofInt n.toInt
  | .uint n => n
  | .int64 n => UInt32.ofInt n.toInt
  | .uint64 n => UInt32.ofInt n.toNat
  | .string s => stringToUInt s
  | _ => 0

def toInt64 : Operand D → Int64
  | .bool b => if b then 1 else 0
  | .double d => DoubleNumber.toInt64 d
  | .int n => Int64.ofInt n.toInt
  | .uint n => Int64.ofInt n.toNat
  | .int64 n => n
  | .uint64 n => Int64.ofInt n.toNat
  | .string s => Nstd.toInt64 s
  | _ => 0

def toUInt64 : Operand D → UInt64
  | .bool b => if b then 1 else 0
  | .double d => DoubleNumber.toUInt64 d
  | .int n => UInt64.ofInt n.toInt
  | .uint n => UInt64.ofInt n.toNat
  | .int64 n => UInt64.ofInt n.toInt
  | .uint64 n => n
  | .string s => stringToUInt64 s
  | _ => 0

/-- The cases of `operator==` that do not look into containers, and not at two strings -/
def equalScalar : Operand D → Operand D → Bool
  | .null, other => isNull other
  | .bool b, other => b = toBool other
  | .double d, other => DoubleNumber.equal d (toDouble other)
  | .int n, other => n = toInt other
  | .uint n, other => n = toUInt other
  | .int64 n, other => n = toInt64 other
  | .uint64 n, other => n = toUInt64 other
  | _, _ => false

mutual

/-- `operator==` -/
def equal : Operand D → Operand D → Bool
  | .map m, .map m' => m.length = m'.length && equalEntries m m'
  | .list l, .list l' => l.length = l'.length && equalItems l l'
  -- `Array` has no comparison of its own; both are converted to pointers
  | .array begin _, .array begin' _ => begin = begin'
  | .string s, .string s' => s = s'
  -- `other == *this`
  | .string s, other => equalScalar other (.string s)
  | this, other => equalScalar this other

/-- The loop of `List::operator==` -/
def equalItems : List (Operand D) → List (Operand D) → Bool
  | a :: l, b :: l' => equal a b && equalItems l l'
  | _, _ => true

/-- The loop of `HashMap::operator==` -/
def equalEntries : List (List UInt8 × Operand D) → List (List UInt8 × Operand D) → Bool
  | (key, a) :: m, (key', b) :: m' => key = key' && equal a b && equalEntries m m'
  | _, _ => true

end

/-! ## Numbers -/

lemma toNat_ofInt32 (n : ℤ) : ((UInt32.ofInt n).toNat : ℤ) = n % (2 ^ 32 : ℕ) := by
  rw [UInt32.ofInt, UInt32.toNat_ofNat']
  omega

lemma toNat_ofInt64 (n : ℤ) : ((UInt64.ofInt n).toNat : ℤ) = n % (2 ^ 64 : ℕ) := by
  rw [UInt64.ofInt, UInt64.toNat_ofNat']
  omega

open IntegerType (Number)

lemma fits_int32 (n : Int32) : (IntegerType.signed (2 ^ 32)).Fits n.toInt :=
  Int32.toInt_ofInt.symm.trans (congrArg Int32.toInt (Int32.ofInt_toInt n))

lemma fits_int64 (n : Int64) : (IntegerType.signed (2 ^ 64)).Fits n.toInt :=
  Int64.toInt_ofInt.symm.trans (congrArg Int64.toInt (Int64.ofInt_toInt n))

lemma fits_uint32 (n : UInt32) : (IntegerType.unsigned (2 ^ 32)).Fits n.toNat :=
  Int.emod_eq_of_lt (Int.natCast_nonneg _) (Int.ofNat_lt.mpr n.toNat_lt)

lemma fits_uint64 (n : UInt64) : (IntegerType.unsigned (2 ^ 64)).Fits n.toNat :=
  Int.emod_eq_of_lt (Int.natCast_nonneg _) (Int.ofNat_lt.mpr n.toNat_lt)

/-- The number in a variant -/
def number : Operand D → Option Number
  | .bool b => some ⟨.bool, if b then 1 else 0, by cases b <;> rfl⟩
  | .int n => some ⟨.signed (2 ^ 32), n.toInt, fits_int32 n⟩
  | .uint n => some ⟨.unsigned (2 ^ 32), n.toNat, fits_uint32 n⟩
  | .int64 n => some ⟨.signed (2 ^ 64), n.toInt, fits_int64 n⟩
  | .uint64 n => some ⟨.unsigned (2 ^ 64), n.toNat, fits_uint64 n⟩
  | _ => none

section

variable {v : Operand D} {x y : Number}

lemma toBool_eq (h : number v = some x) :
    (if toBool v then 1 else 0 : ℤ) = IntegerType.bool.convert x.n := by
  cases v with
  | bool b =>
    obtain rfl := Option.some.inj h
    cases b <;> rfl
  | int n =>
    obtain rfl := Option.some.inj h
    have hzero : n.toInt = 0 ↔ n = 0 := @Int32.toInt_inj n 0
    by_cases hn : n = 0 <;> simp [toBool, IntegerType.convert, hzero, hn]
  | uint n =>
    obtain rfl := Option.some.inj h
    have hzero : n.toNat = 0 ↔ n = 0 := @UInt32.toNat_inj n 0
    by_cases hn : n = 0 <;> simp [toBool, IntegerType.convert, hzero, hn]
  | int64 n =>
    obtain rfl := Option.some.inj h
    have hzero : n.toInt = 0 ↔ n = 0 := @Int64.toInt_inj n 0
    by_cases hn : n = 0 <;> simp [toBool, IntegerType.convert, hzero, hn]
  | uint64 n =>
    obtain rfl := Option.some.inj h
    have hzero : n.toNat = 0 ↔ n = 0 := @UInt64.toNat_inj n 0
    by_cases hn : n = 0 <;> simp [toBool, IntegerType.convert, hzero, hn]
  | _ => cases h

lemma toInt_eq (h : number v = some x) :
    (toInt v).toInt = (IntegerType.signed (2 ^ 32)).convert x.n := by
  cases v with
  | bool b =>
    obtain rfl := Option.some.inj h
    cases b <;> rfl
  | int n =>
    obtain rfl := Option.some.inj h
    exact (fits_int32 n).symm
  | uint n =>
    obtain rfl := Option.some.inj h
    exact Int32.toInt_ofInt
  | int64 n =>
    obtain rfl := Option.some.inj h
    exact Int32.toInt_ofInt
  | uint64 n =>
    obtain rfl := Option.some.inj h
    exact Int32.toInt_ofInt
  | _ => exact nomatch h

lemma toUInt_eq (h : number v = some x) :
    ((toUInt v).toNat : ℤ) = (IntegerType.unsigned (2 ^ 32)).convert x.n := by
  cases v with
  | bool b =>
    obtain rfl := Option.some.inj h
    cases b <;> rfl
  | int n =>
    obtain rfl := Option.some.inj h
    exact toNat_ofInt32 _
  | uint n =>
    obtain rfl := Option.some.inj h
    exact (fits_uint32 n).symm
  | int64 n =>
    obtain rfl := Option.some.inj h
    exact toNat_ofInt32 _
  | uint64 n =>
    obtain rfl := Option.some.inj h
    exact toNat_ofInt32 _
  | _ => exact nomatch h

lemma toInt64_eq (h : number v = some x) :
    (toInt64 v).toInt = (IntegerType.signed (2 ^ 64)).convert x.n := by
  cases v with
  | bool b =>
    obtain rfl := Option.some.inj h
    cases b <;> rfl
  | int n =>
    obtain rfl := Option.some.inj h
    exact Int64.toInt_ofInt
  | uint n =>
    obtain rfl := Option.some.inj h
    exact Int64.toInt_ofInt
  | int64 n =>
    obtain rfl := Option.some.inj h
    exact (fits_int64 n).symm
  | uint64 n =>
    obtain rfl := Option.some.inj h
    exact Int64.toInt_ofInt
  | _ => exact nomatch h

lemma toUInt64_eq (h : number v = some x) :
    ((toUInt64 v).toNat : ℤ) = (IntegerType.unsigned (2 ^ 64)).convert x.n := by
  cases v with
  | bool b =>
    obtain rfl := Option.some.inj h
    cases b <;> rfl
  | int n =>
    obtain rfl := Option.some.inj h
    exact toNat_ofInt64 _
  | uint n =>
    obtain rfl := Option.some.inj h
    exact toNat_ofInt64 _
  | int64 n =>
    obtain rfl := Option.some.inj h
    exact toNat_ofInt64 _
  | uint64 n =>
    obtain rfl := Option.some.inj h
    exact (fits_uint64 n).symm
  | _ => exact nomatch h

/-- **Numbers** are compared in the type of the left one. -/
lemma equal_number {a b : Operand D} (ha : number a = some x) (hb : number b = some y) :
    equal a b = true ↔ x.Equals y := by
  cases a with
  | bool n =>
    obtain rfl := Option.some.inj ha
    rw [Number.Equals, ← toBool_eq hb]
    cases n <;> cases hn : toBool b <;> simp [equal, equalScalar, hn]
  | int n =>
    obtain rfl := Option.some.inj ha
    rw [Number.Equals, ← toInt_eq hb, Int32.toInt_inj]
    exact decide_eq_true_iff
  | uint n =>
    obtain rfl := Option.some.inj ha
    rw [Number.Equals, ← toUInt_eq hb, Int.natCast_inj, UInt32.toNat_inj]
    exact decide_eq_true_iff
  | int64 n =>
    obtain rfl := Option.some.inj ha
    rw [Number.Equals, ← toInt64_eq hb, Int64.toInt_inj]
    exact decide_eq_true_iff
  | uint64 n =>
    obtain rfl := Option.some.inj ha
    rw [Number.Equals, ← toUInt64_eq hb, Int.natCast_inj, UInt64.toNat_inj]
    exact decide_eq_true_iff
  | _ => cases ha

end

/-! ## Which variants are comparable -/

mutual

/-- There are no doubles in a variant. -/
def noDouble : Operand D → Bool
  | .double _ => false
  | .map m => noDoubleEntries m
  | .list l => noDoubleItems l
  | .array _ a => noDoubleItems a
  | _ => true

def noDoubleItems : List (Operand D) → Bool
  | [] => true
  | a :: l => noDouble a && noDoubleItems l

def noDoubleEntries : List (List UInt8 × Operand D) → Bool
  | [] => true
  | (_, a) :: m => noDouble a && noDoubleEntries m

end

def isString : Operand D → Bool
  | .string _ => true
  | _ => false

/-- Numbers that agree; apart from that, no conversion makes a number of something else, or of something
    else a number that is there. -/
def Comparable (a b : Operand D) : Prop :=
  match number a, number b with
  | some x, some y => x.Agree y
  | some x, none => x.n ≠ 0 ∧ isString b = false
  | none, some y => y.n ≠ 0 ∧ isString a = false
  | none, none => True

mutual

/-- Comparable throughout -/
def Similar : Operand D → Operand D → Prop
  | .map m, .map m' => SimilarEntries m m'
  | .list l, .list l' => SimilarItems l l'
  | a, b => Comparable a b

def SimilarItems : List (Operand D) → List (Operand D) → Prop
  | a :: l, b :: l' => Similar a b ∧ SimilarItems l l'
  | _, _ => True

def SimilarEntries : List (List UInt8 × Operand D) → List (List UInt8 × Operand D) → Prop
  | (_, a) :: m, (_, b) :: m' => Similar a b ∧ SimilarEntries m m'
  | _, _ => True

end

omit [DoubleNumber D] in
/-- Variants are made of smaller ones. -/
theorem Operand.induction {P : Operand D → Prop}
    (leaf : ∀ v, (∀ m, v ≠ .map m) → (∀ l, v ≠ .list l) → P v)
    (map : ∀ m, (∀ e ∈ m, P e.2) → P (.map m)) (list : ∀ l, (∀ a ∈ l, P a) → P (.list l)) :
    ∀ v, P v
  | .map m => map m fun e _he => Operand.induction leaf map list e.2
  | .list l => list l fun a _ => Operand.induction leaf map list a
  | .null => leaf _ nofun nofun
  | .bool _ => leaf _ nofun nofun
  | .double _ => leaf _ nofun nofun
  | .int _ => leaf _ nofun nofun
  | .uint _ => leaf _ nofun nofun
  | .int64 _ => leaf _ nofun nofun
  | .uint64 _ => leaf _ nofun nofun
  | .array _ _ => leaf _ nofun nofun
  | .string _ => leaf _ nofun nofun
  decreasing_by
    · have hlt := List.sizeOf_lt_of_mem _he
      obtain ⟨key, a⟩ := e
      simp only [Prod.mk.sizeOf_spec, Operand.map.sizeOf_spec] at hlt ⊢
      omega
    · decreasing_tactic

/-! ## Lists are compared like maps -/

/-- The items of a list as entries, all with the same key -/
def entries (l : List (Operand D)) : List (List UInt8 × Operand D) := l.map fun a => ([], a)

lemma equal_list (l l' : List (Operand D)) :
    equal (.list l) (.list l') = equal (.map (entries l)) (.map (entries l')) := by
  have hitems : equalItems l l' = equalEntries (entries l) (entries l') := by
    induction l generalizing l' with
    | nil => cases l' <;> simp [entries, equalItems, equalEntries]
    | cons a l ih =>
      cases l' with
      | nil => simp [entries, equalItems, equalEntries]
      | cons b l' => simp [entries, equalItems, equalEntries, ih l']
  simp [equal, hitems, entries]

omit [DoubleNumber D] in
lemma similar_list (l l' : List (Operand D)) :
    Similar (.list l) (.list l') ↔ Similar (.map (entries l)) (.map (entries l')) := by
  rw [Similar, Similar]
  induction l generalizing l' with
  | nil => cases l' <;> simp [entries, SimilarItems, SimilarEntries]
  | cons a l ih =>
    cases l' with
    | nil => simp [entries, SimilarItems, SimilarEntries]
    | cons b l' => simpa [entries, SimilarItems, SimilarEntries] using fun _ => ih l'

omit [DoubleNumber D] in
lemma noDouble_list (l : List (Operand D)) : noDouble (.list l) = noDouble (.map (entries l)) := by
  rw [noDouble, noDouble]
  induction l with
  | nil => rfl
  | cons a l ih => simp [entries, noDoubleItems, noDoubleEntries, ih]

/-! ## The entries of maps -/

/-- Equal entries, in the same order -/
def Entries (m m' : List (List UInt8 × Operand D)) : Prop :=
  List.Forall₂ (fun e e' => e.1 = e'.1 ∧ equal e.2 e'.2 = true) m m'

lemma equal_map (m m' : List (List UInt8 × Operand D)) :
    equal (.map m) (.map m') = true ↔ Entries m m' := by
  have hentries : m.length = m'.length →
      (equalEntries m m' = true ↔ Entries m m') := by
    induction m generalizing m' with
    | nil =>
      intro hlength
      obtain rfl := List.eq_nil_of_length_eq_zero hlength.symm
      simp [equalEntries, Entries]
    | cons e m ih =>
      intro hlength
      obtain ⟨key, a⟩ := e
      cases m' with
      | nil => exact nomatch hlength
      | cons e' m' =>
        obtain ⟨key', b⟩ := e'
        have ih := ih m' (Nat.succ.inj hlength)
        rw [Entries] at ih ⊢
        simp [equalEntries, ih, and_assoc]
  constructor
  · intro h
    simp only [equal, Bool.and_eq_true, decide_eq_true_eq] at h
    exact (hentries h.1).mp h.2
  · intro h
    have hlength := List.Forall₂.length_eq h
    simp only [equal, Bool.and_eq_true, decide_eq_true_eq]
    exact ⟨hlength, (hentries hlength).mpr h⟩

omit [DoubleNumber D] in
lemma noDouble_map (m : List (List UInt8 × Operand D)) :
    noDouble (.map m) = true ↔ ∀ e ∈ m, noDouble e.2 = true := by
  rw [noDouble]
  induction m with
  | nil => simp [noDoubleEntries]
  | cons e m ih => simp [noDoubleEntries, ih]

lemma Entries.refl {m : List (List UInt8 × Operand D)} (h : ∀ e ∈ m, equal e.2 e.2 = true) :
    Entries m m :=
  List.forall₂_same.mpr fun e he => ⟨rfl, h e he⟩

lemma Entries.symm {m m' : List (List UInt8 × Operand D)} (h : Entries m m')
    (hs : SimilarEntries m m')
    (ih : ∀ e ∈ m, ∀ e' ∈ m', Similar e.2 e'.2 → equal e.2 e'.2 = true → equal e'.2 e.2 = true) :
    Entries m' m := by
  induction h with
  | nil => exact .nil
  | cons hab _ ih' =>
    refine .cons ⟨hab.1.symm, ih _ List.mem_cons_self _ List.mem_cons_self hs.1 hab.2⟩ ?_
    exact ih' hs.2 fun e he e' he' => ih e (List.mem_cons_of_mem _ he) e' (List.mem_cons_of_mem _ he')

lemma Entries.trans {m m' m'' : List (List UInt8 × Operand D)} (h : Entries m m')
    (h' : Entries m' m'') (hs : SimilarEntries m m') (hs' : SimilarEntries m' m'')
    (hs'' : SimilarEntries m m'')
    (ih : ∀ e ∈ m, ∀ e' ∈ m', ∀ e'' ∈ m'', Similar e.2 e'.2 → Similar e'.2 e''.2 →
      Similar e.2 e''.2 → equal e.2 e'.2 = true → equal e'.2 e''.2 = true →
        equal e.2 e''.2 = true) :
    Entries m m'' := by
  induction h generalizing m'' with
  | nil =>
    cases h' with
    | nil => exact .nil
  | cons hab _ ih' =>
    cases h' with
    | cons hbc hrest =>
      refine .cons ⟨hab.1.trans hbc.1, ?_⟩ (ih' hrest hs.2 hs'.2 hs''.2 ?_)
      · exact ih _ List.mem_cons_self _ List.mem_cons_self _ List.mem_cons_self
          hs.1 hs'.1 hs''.1 hab.2 hbc.2
      · exact fun e he e' he' e'' he'' => ih e (List.mem_cons_of_mem _ he) e'
          (List.mem_cons_of_mem _ he') e'' (List.mem_cons_of_mem _ he'')

/-! ## When variants are equal -/

/-- How two comparable variants can be equal -/
inductive Matches : Operand D → Operand D → Prop
  | number {a b : Operand D} {x y : Number} :
      number a = some x → number b = some y → x.Agree y → x.Equals y → Matches a b
  | null : Matches .null .null
  | array (begin : ℕ) (a a' : List (Operand D)) : Matches (.array begin a) (.array begin a')
  | string (s : List UInt8) : Matches (.string s) (.string s)
  | map {m m' : List (List UInt8 × Operand D)} :
      SimilarEntries m m' → Entries m m' → Matches (.map m) (.map m')
  | list {l l' : List (Operand D)} :
      SimilarEntries (entries l) (entries l') → Entries (entries l) (entries l') →
        Matches (.list l) (.list l')

omit [DoubleNumber D] in
lemma comparable_of_similar {a b : Operand D} {x : Number} (hx : number a = some x)
    (h : Similar a b) : Comparable a b := by
  cases a with
  | bool _ | int _ | uint _ | int64 _ | uint64 _ => exact h
  | _ => exact nomatch hx

omit [DoubleNumber D] in
lemma comparable_of_similar_number {a b : Operand D} {y : Number} (hy : number b = some y)
    (h : Similar a b) : Comparable a b := by
  cases b with
  | bool _ | int _ | uint _ | int64 _ | uint64 _ => cases a <;> exact h
  | _ => exact nomatch hy

/-- What is no number is converted to zero. -/
lemma equal_of_number_left {a b : Operand D} {x : Number} (hx : number a = some x) (hne : x.n ≠ 0)
    (hy : number b = none) (hstring : isString b = false) (hb : noDouble b = true) :
    equal a b = false := by
  have hzero : toBool b = false ∧ toInt b = 0 ∧ toUInt b = 0 ∧ toInt64 b = 0 ∧ toUInt64 b = 0 := by
    cases b with
    | null | map _ | list _ | array _ _ => exact ⟨rfl, rfl, rfl, rfl, rfl⟩
    | double _ => exact nomatch hb
    | string _ => exact nomatch hstring
    | _ => exact nomatch hy
  obtain ⟨hbool, hint, huint, hint64, huint64⟩ := hzero
  cases a with
  | bool n =>
    obtain rfl := Option.some.inj hx
    simp_all [equal, equalScalar]
  | int n =>
    obtain rfl := Option.some.inj hx
    refine decide_eq_false fun hn => hne ?_
    rw [hn, hint]
    rfl
  | uint n =>
    obtain rfl := Option.some.inj hx
    refine decide_eq_false fun hn => hne ?_
    rw [hn, huint]
    rfl
  | int64 n =>
    obtain rfl := Option.some.inj hx
    refine decide_eq_false fun hn => hne ?_
    rw [hn, hint64]
    rfl
  | uint64 n =>
    obtain rfl := Option.some.inj hx
    refine decide_eq_false fun hn => hne ?_
    rw [hn, huint64]
    rfl
  | _ => exact nomatch hx

/-- What is no number does not look for one. -/
lemma equal_of_number_right {a b : Operand D} {y : Number} (hx : number a = none)
    (hstring : isString a = false) (ha : noDouble a = true) (hy : number b = some y) :
    equal a b = false := by
  cases b with
  | bool _ | int _ | uint _ | int64 _ | uint64 _ =>
    cases a with
    | null | map _ | list _ | array _ _ => rfl
    | double _ => exact nomatch ha
    | string _ => exact nomatch hstring
    | _ => exact nomatch hx
  | _ => exact nomatch hy

/-- **Comparable variants** are equal only if they match. -/
lemma matches_of_equal {a b : Operand D} (ha : noDouble a = true) (hb : noDouble b = true)
    (hs : Similar a b) (h : equal a b = true) : Matches a b := by
  cases hx : number a with
  | some x =>
    have hcomparable := comparable_of_similar hx hs
    rw [Comparable, hx] at hcomparable
    cases hy : number b with
    | some y =>
      rw [hy] at hcomparable
      exact .number hx hy hcomparable ((equal_number hx hy).mp h)
    | none =>
      rw [hy] at hcomparable
      obtain ⟨hne, hstring⟩ := hcomparable
      exact absurd h (by rw [equal_of_number_left hx hne hy hstring hb]; simp)
  | none =>
    cases hy : number b with
    | some y =>
      have hcomparable := comparable_of_similar_number hy hs
      rw [Comparable, hx, hy] at hcomparable
      exact absurd h (by rw [equal_of_number_right hx hcomparable.2 ha hy]; simp)
    | none =>
      cases a with
      | null =>
        cases b with
        | null => exact .null
        | _ => exact nomatch h
      | map m =>
        cases b with
        | map m' => exact .map hs ((equal_map m m').mp h)
        | _ => exact nomatch h
      | list l =>
        cases b with
        | list l' =>
          rw [equal_list] at h
          exact .list ((similar_list l l').mp hs) ((equal_map _ _).mp h)
        | _ => exact nomatch h
      | array begin l =>
        cases b with
        | array begin' l' =>
          obtain rfl : begin = begin' := of_decide_eq_true h
          exact .array begin l l'
        | _ => exact nomatch h
      | string s =>
        cases b with
        | string s' =>
          obtain rfl : s = s' := of_decide_eq_true h
          exact .string s
        | null | map _ | list _ | array _ _ => exact nomatch h
        | double _ => exact nomatch hb
        | _ => exact nomatch hy
      | double _ => exact nomatch ha
      | _ => exact nomatch hx

/-- **Reflexivity** -/
theorem equal_refl (v : Operand D) : noDouble v = true → equal v v = true := by
  induction v using Operand.induction with
  | leaf v hmap hlist =>
    intro hv
    cases v with
    | bool _ | int _ | uint _ | int64 _ | uint64 _ =>
      exact (equal_number rfl rfl).mpr (Number.Equals.refl _)
    | null => rfl
    | array _ _ | string _ => exact decide_eq_true rfl
    | double _ => exact nomatch hv
    | map m => exact absurd rfl (hmap m)
    | list l => exact absurd rfl (hlist l)
  | map m ih =>
    intro hv
    exact (equal_map m m).mpr (Entries.refl fun e he => ih e he ((noDouble_map m).mp hv e he))
  | list l ih =>
    intro hv
    rw [noDouble_list, noDouble_map] at hv
    rw [equal_list, equal_map]
    refine Entries.refl fun e he => ?_
    obtain ⟨a, ha, rfl⟩ := List.mem_map.mp he
    exact ih a ha (hv _ he)

/-- **Symmetry** -/
theorem equal_symm (a : Operand D) : ∀ b, noDouble a = true → noDouble b = true → Similar a b →
    equal a b = true → equal b a = true := by
  induction a using Operand.induction with
  | leaf a hmap hlist =>
    intro b ha hb hs h
    cases matches_of_equal ha hb hs h with
    | number hx hy hagree hxy => exact (equal_number hy hx).mpr (hagree.equals_symm hxy)
    | null => rfl
    | array _ _ _ | string _ => exact decide_eq_true rfl
    | map _ _ => exact absurd rfl (hmap _)
    | list _ _ => exact absurd rfl (hlist _)
  | map m ih =>
    intro b ha hb hs h
    cases matches_of_equal ha hb hs h with
    | number hx _ _ _ => exact nomatch hx
    | map hsimilar hentries =>
      rw [noDouble_map] at ha hb
      refine (equal_map _ _).mpr (hentries.symm hsimilar fun e he e' he' => ?_)
      exact ih e he e'.2 (ha e he) (hb e' he')
  | list l ih =>
    intro b ha hb hs h
    cases matches_of_equal ha hb hs h with
    | number hx _ _ _ => exact nomatch hx
    | list hsimilar hentries =>
      rw [noDouble_list, noDouble_map] at ha hb
      rw [equal_list, equal_map]
      refine hentries.symm hsimilar fun e he e' he' => ?_
      obtain ⟨a, hmem, rfl⟩ := List.mem_map.mp he
      exact ih a hmem e'.2 (ha _ he) (hb e' he')

/-- **Transitivity** -/
theorem equal_trans (a : Operand D) : ∀ b c, noDouble a = true → noDouble b = true →
    noDouble c = true → Similar a b → Similar b c → Similar a c →
      equal a b = true → equal b c = true → equal a c = true := by
  induction a using Operand.induction with
  | leaf a hmap hlist =>
    intro b c ha hb hc hab hbc hac h h'
    cases matches_of_equal ha hb hab h with
    | number hx hy hagree hxy =>
      cases matches_of_equal hb hc hbc h' with
      | number hy' hz hagree' hyz =>
        obtain rfl := Option.some.inj (hy.symm.trans hy')
        have hcomparable := comparable_of_similar hx hac
        rw [Comparable, hx, hz] at hcomparable
        exact (equal_number hx hz).mpr (hagree.equals_trans hagree' hcomparable hxy hyz)
      | null | array _ _ _ | string _ | map _ _ | list _ _ => exact nomatch hy
    | null => exact h'
    | array _ _ _ =>
      cases matches_of_equal hb hc hbc h' with
      | number hx _ _ _ => exact nomatch hx
      | array _ _ _ => exact decide_eq_true rfl
    | string _ => exact h'
    | map _ _ => exact absurd rfl (hmap _)
    | list _ _ => exact absurd rfl (hlist _)
  | map m ih =>
    intro b c ha hb hc hab hbc hac h h'
    cases matches_of_equal ha hb hab h with
    | number hx _ _ _ => exact nomatch hx
    | map hsimilar hentries =>
      cases matches_of_equal hb hc hbc h' with
      | number hx _ _ _ => exact nomatch hx
      | map hsimilar' hentries' =>
        rw [noDouble_map] at ha hb hc
        refine (equal_map _ _).mpr (hentries.trans hentries' hsimilar hsimilar' hac ?_)
        exact fun e he e' he' e'' he'' =>
          ih e he e'.2 e''.2 (ha e he) (hb e' he') (hc e'' he'')
  | list l ih =>
    intro b c ha hb hc hab hbc hac h h'
    cases matches_of_equal ha hb hab h with
    | number hx _ _ _ => exact nomatch hx
    | list hsimilar hentries =>
      cases matches_of_equal hb hc hbc h' with
      | number hx _ _ _ => exact nomatch hx
      | list hsimilar' hentries' =>
        rw [noDouble_list, noDouble_map] at ha hb hc
        rw [equal_list, equal_map]
        refine hentries.trans hentries' hsimilar hsimilar' ((similar_list _ _).mp hac) ?_
        intro e he e' he' e'' he''
        obtain ⟨a, hmem, rfl⟩ := List.mem_map.mp he
        exact ih a hmem e'.2 e''.2 (ha _ he) (hb e' he') (hc e'' he'')

/-- A string and something else are compared the same way on both sides. -/
lemma equal_string (s : List UInt8) (v : Operand D) : equal (.string s) v = equal v (.string s) := by
  cases v with
  | string s' =>
    rw [equal, equal]
    exact decide_eq_decide.mpr eq_comm
  | _ => rfl

/-- Lists with equal items are equal. -/
lemma equal_list_of_items {l l' : List (Operand D)}
    (h : List.Forall₂ (fun a b => equal a b = true) l l') : equal (.list l) (.list l') = true := by
  rw [equal_list, equal_map, Entries, entries, entries, List.forall₂_map_left_iff,
    List.forall₂_map_right_iff]
  exact h.imp fun _ _ hab => ⟨rfl, hab⟩

end Nstd.VariantEqual
