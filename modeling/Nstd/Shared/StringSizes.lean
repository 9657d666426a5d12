import Nstd.Shared.StringRuns

/-!
# The sizes of the blocks of strings

On the machine the size of a block is computed in `usize`.  A capacity near the largest `usize` gives a
size that wraps: `new` is asked for less than the `Data` of the block, and the string is written behind
the end of it.

* `Sized` — the size of a block of that capacity does not wrap.
* `Op.Room`, `Init.Room`, `Move.Room` — the string is in a block that is large enough and its own, or
  the new block it needs is sized.  These are conditions on the state before.
* `Agrees` — a function succeeds on the machine exactly if there is room, and does then what it does
  where numbers have any size.
* `detach_agrees`, `append_agrees`, `prepend_agrees` and so on — one function each.
* `step_agrees` — the same of a move.
* **`strings_safe_iff`** — the main result: sharing is safe in every run whose moves have room, and
  the next move leaves the other strings alone exactly if it has room.

What the functions do is not looked into again.  Where there is room the machine does what `step_spec`
is about; where there is none, the block has no byte for the string, and every constructor and
`detach` writes at least the end of the string.
-/

namespace Nstd.Strings

variable (memory : ℕ → ℕ → UInt8)

/-! ## Room -/

/-- The size of a block of that capacity is a number of the machine. -/
def Sized (capacity : ℕ) : Prop := capacity + 1 + sizeofData < 2 ^ 64

instance : DecidablePred Sized := fun _ => Nat.decLt _ _

/-- The string is in a large enough block of its own, or a new one of that capacity is sized. -/
def Cell.Gets (h : Heap Data) (this : Cell) (minCapacity : ℕ) : Prop :=
  this.Fits h minCapacity ∨ Sized (minCapacity ||| 3)

/-- A copy of the string shares its block, or is in one that is sized. -/
def Cell.Copies : Cell → Prop
  | .attached str => Sized (str.length ||| 3)
  | _ => True

/-- **There is room** for what an operation writes. -/
def Op.Room (arg : ℕ → Option Arg) (h : Heap Data) (this : Cell) : Op → Prop
  | .assign y => ∀ other ∈ arg y, (other.cell this).Copies
  | .attach _ => True
  | .clear => True
  | .resize length => this.Gets h length
  | .reserve size => ∀ len ∈ lenOf h this, this.Gets h (if size < len then len else size)
  | .append y => ∀ str ∈ arg y, ∀ len ∈ lenOf h this, ∀ strLen ∈ lenOf h (str.cell this),
      this.Gets h (len + strLen)
  | .appendBytes str => ∀ len ∈ lenOf h this, this.Gets h (len + str.length)
  | .prepend y => ∀ str ∈ arg y, this.Copies ∧ ∀ len ∈ lenOf h this,
      ∀ strLen ∈ lenOf h (str.cell this), Sized ((strLen + len) ||| 3)
  | .prependBytes str => this.Copies ∧ ∀ len ∈ lenOf h this, Sized ((str.length + len) ||| 3)
  | _ => ∀ len ∈ lenOf h this, this.Gets h len

/-- **There is room** for the string that is constructed. -/
def Init.Room (s : State) : Init → Prop
  | .copy y => ∀ other ∈ s.get y, other.Copies
  | .ofBytes str => Sized (str.length ||| 3)
  | .ofChar length _ => Sized (length ||| 3)
  | .ofCapacity capacity => Sized capacity
  | _ => True

/-- **There is room** for a move, if it does anything. -/
def Move.Room (s : State) : Move → Prop
  | .construct x init => s.vars[x]? = some none → init.Room s
  | .op x operation => ∀ this ∈ s.get x, operation.Room (s.arg x) s.heap this
  | .destroy _ => True

/-- The numbers that a constructor is called with are of the type `usize`. -/
def Init.Usizes : Init → Prop
  | .ofChar length _ => length < 2 ^ 64
  | .ofCapacity capacity => capacity < 2 ^ 64
  | _ => True

/-- The numbers that an operation is called with are of the type `usize`. -/
def Op.Usizes : Op → Prop
  | .resize length => length < 2 ^ 64
  | .reserve size => size < 2 ^ 64
  | _ => True

/-- The numbers of a move are of the type `usize`. -/
def Move.Usizes : Move → Prop
  | .construct _ init => init.Usizes
  | .op _ operation => operation.Usizes
  | .destroy _ => True

/-! ## Blocks that are sized -/

/-- All blocks are in memory: each is smaller than the largest `usize`. -/
def Small (h : Heap Data) : Prop :=
  ∀ a b, h.get? a = some b → b.content.str.length + sizeofData < 2 ^ 64

/-- **A function on the machine** succeeds exactly if there is room, and does then what it does where
    numbers have any size.  Its blocks are in memory if those before were. -/
structure Agrees {A : Type} (room : Prop) (f : Usize → Option (Heap Data × A)) : Prop where
  same : room → f .machine = f .unbounded
  room : ∀ r, f .machine = some r → room ∧ Small r.1

lemma Agrees.iff {A : Type} {room room' : Prop} {f : Usize → Option (Heap Data × A)}
    (h : Agrees room f) (hroom : room' ↔ room) : Agrees room' f :=
  ⟨fun h' => h.same (hroom.mp h'), fun r hr => (h.room r hr).imp_left hroom.mpr⟩

/-- What is done after the only step that needs room -/
lemma Agrees.bind {A B : Type} {room : Prop} {f : Usize → Option (Heap Data × A)}
    {g : Heap Data × A → Option (Heap Data × B)} (h : Agrees room f)
    (hg : ∀ r r', Small r.1 → g r = some r' → Small r'.1) : Agrees room fun u => (f u).bind g := by
  refine ⟨fun hroom => by rw [h.same hroom], fun r hr => ?_⟩
  obtain ⟨r₁, hr₁, hr⟩ := Option.bind_eq_some_iff.mp hr
  obtain ⟨hroom, hsmall⟩ := h.room r₁ hr₁
  exact ⟨hroom, hg r₁ r hsmall hr⟩

/-- What needs no room -/
lemma Agrees.of_small {A : Type} {r : Option (Heap Data × A)} (h : ∀ r', r = some r' → Small r'.1) :
    Agrees True fun _ => r := ⟨fun _ => rfl, fun r' hr => ⟨trivial, h r' hr⟩⟩

lemma Small.shrinks {h h' : Heap Data} (hsmall : Small h) (hs : Heap.Shrinks h h') : Small h' := by
  intro a b hb
  obtain ⟨b', hb', hcontent, -⟩ := hs a b hb
  exact hcontent ▸ hsmall a b' hb'

lemma Small.release {h h' : Heap Data} (hsmall : Small h) {this : Cell}
    (hrun : release h this = some h') : Small h' := by
  cases this with
  | empty => exact Option.some.inj hrun ▸ hsmall
  | attached str => exact Option.some.inj hrun ▸ hsmall
  | block data => exact hsmall.shrinks (.of_release hrun)

lemma Small.increment {h h' : Heap Data} (hsmall : Small h) {data : ℕ}
    (hrun : h.increment data = some h') : Small h' := by
  obtain ⟨b, hb, hrun⟩ := Option.bind_eq_some_iff.mp hrun
  obtain rfl := Option.some.inj hrun
  intro a b' hb'
  by_cases ha : a = data
  · rw [ha, Heap.get?_write (Heap.lt_of_get? hb)] at hb'
    obtain rfl := Option.some.inj hb'
    exact hsmall data b hb
  · rw [Heap.get?_write_of_ne ha] at hb'
    exact hsmall a b' hb'

/-- Writing into a block does not make it longer. -/
lemma Small.edit {h h' : Heap Data} (hsmall : Small h) {data : ℕ} {f : Data → Option Data}
    (hf : ∀ c c', f c = some c' → c'.str.length = c.str.length)
    (hrun : edit h data f = some h') : Small h' := by
  obtain ⟨b, hb, hrun⟩ := Option.bind_eq_some_iff.mp hrun
  obtain ⟨content, hcontent, hrun⟩ := Option.bind_eq_some_iff.mp hrun
  obtain rfl := Option.some.inj hrun
  intro a b' hb'
  by_cases ha : a = data
  · rw [ha, Heap.get?_write (Heap.lt_of_get? hb)] at hb'
    obtain rfl := Option.some.inj hb'
    rw [show content.str.length = _ from hf _ _ hcontent]
    exact hsmall data b hb
  · rw [Heap.get?_write_of_ne ha] at hb'
    exact hsmall a b' hb'

/-! ## What is written -/

lemma put_length {str s bytes : List UInt8} {i : ℕ} (h : put str i bytes = some s) :
    s.length = str.length ∧ i + bytes.length ≤ str.length := by
  rw [put] at h
  split_ifs at h with hle
  obtain rfl := Option.some.inj h
  refine ⟨?_, hle⟩
  simp only [List.length_append, List.length_take, List.length_drop]
  omega

lemma putString_length {bytes str s : List UInt8} (h : putString bytes str = some s) :
    s.length = str.length ∧ bytes.length < str.length := by
  obtain ⟨s₁, hput, h⟩ := Option.bind_eq_some_iff.mp h
  obtain ⟨hlen₁, -⟩ := put_length hput
  obtain ⟨hlen, hle⟩ := put_length h
  exact ⟨hlen.trans hlen₁, by rw [hlen₁] at hle; exact hle⟩

lemma putDetached_length {bytes str s : List UInt8} {len copyLength : ℕ}
    (h : putDetached bytes len copyLength str = some s) :
    s.length = str.length ∧ 0 < str.length ∧ (len > 0 → copyLength < str.length) := by
  rw [putDetached] at h
  by_cases hpos : len > 0
  · rw [if_pos hpos] at h
    obtain ⟨_, -, h⟩ := Option.bind_eq_some_iff.mp h
    obtain ⟨s₁, hput, h⟩ := Option.bind_eq_some_iff.mp h
    obtain ⟨hlen₁, -⟩ := put_length hput
    obtain ⟨hlen, hle⟩ := put_length h
    rw [hlen₁, List.length_singleton] at hle
    exact ⟨hlen.trans hlen₁, by omega, fun _ => hle⟩
  · rw [if_neg hpos] at h
    obtain ⟨hlen, hle⟩ := put_length h
    exact ⟨hlen, hle, fun h => absurd h hpos⟩

lemma detachHere_length {copyLength : ℕ} (c c' : Data) (h : detachHere copyLength c = some c') :
    c'.str.length = c.str.length := by
  obtain ⟨s, hput, h⟩ := Option.bind_eq_some_iff.mp h
  obtain rfl := Option.some.inj h
  exact (put_length hput).1

lemma fill_length {i newLen : ℕ} {bytes : List UInt8} (c c' : Data)
    (h : fill i bytes newLen c = some c') :
    c'.str.length = c.str.length ∧ i + bytes.length ≤ c.str.length := by
  obtain ⟨s₁, hput, h⟩ := Option.bind_eq_some_iff.mp h
  obtain ⟨s, hend, h⟩ := Option.bind_eq_some_iff.mp h
  obtain rfl := Option.some.inj h
  exact ⟨(put_length hend).1.trans (put_length hput).1, (put_length hput).2⟩

lemma prependFill_length {newLen : ℕ} {bytes copyBytes : List UInt8} (c c' : Data)
    (h : prependFill bytes copyBytes newLen c = some c') :
    c'.str.length = c.str.length ∧ bytes.length + copyBytes.length ≤ c.str.length := by
  obtain ⟨s, hput, h⟩ := Option.bind_eq_some_iff.mp h
  obtain ⟨hlen, hle⟩ := fill_length _ _ h
  rw [(put_length hput).1] at hlen hle
  exact ⟨hlen, hle⟩

lemma replaceBytes_length {f : UInt8 → UInt8} {str s : List UInt8} (h : replaceBytes f str = some s) :
    s.length = str.length := by
  induction str generalizing s with
  | nil => cases h
  | cons c str ih =>
    rw [replaceBytes] at h
    split_ifs at h
    · obtain rfl := Option.some.inj h
      rfl
    · obtain ⟨s', hrest, h⟩ := Option.bind_eq_some_iff.mp h
      obtain rfl := Option.some.inj h
      rw [List.length_cons, List.length_cons, ih hrest]

lemma length_foldl_set (writes : List (ℕ × UInt8)) (str : List UInt8) :
    (writes.foldl (fun str w => str.set w.1 w.2) str).length = str.length := by
  induction writes generalizing str with
  | nil => rfl
  | cons w writes ih => rw [List.foldl_cons, ih, List.length_set]

/-! ## New blocks -/

/-- **A new block** is in memory exactly if it is sized: a size that wraps leaves no byte for what is
    written, and at least one byte is. -/
lemma create_agrees {h : Heap Data} (hsmall : Small h) (capacity len : ℕ)
    (write : List UInt8 → Option (List UInt8))
    (hwrite : ∀ s s', write s = some s' → s'.length = s.length ∧ 0 < s.length
      ∧ (s.length + sizeofData < 2 ^ 64 → capacity < 2 ^ 64)) :
    Agrees (Sized capacity) fun u => @create u memory h capacity len write := by
  refine ⟨fun hsized => ?_, fun r hr => ?_⟩
  · have hwrap : Usize.machine.wrap (capacity + 1 + sizeofData) = capacity + 1 + sizeofData :=
      Nat.mod_eq_of_lt hsized
    unfold create
    rw [hwrap]
    rfl
  · obtain ⟨str, hstr, hr⟩ := Option.bind_eq_some_iff.mp hr
    obtain ⟨hlength, hpos, hcapacity⟩ := hwrite _ _ hstr
    rw [List.length_map, List.length_range] at hlength hpos hcapacity
    have hsize : Usize.machine.wrap (capacity + 1 + sizeofData)
        = (capacity + 1 + sizeofData) % 2 ^ 64 := rfl
    have hlt := Nat.mod_lt (capacity + 1 + sizeofData) (Nat.two_pow_pos 64)
    rw [hsize] at hlength hpos hcapacity
    have hcap := hcapacity (by omega)
    have hsized : Sized capacity := by
      rw [Sized]
      rw [sizeofData] at *
      omega
    refine ⟨hsized, ?_⟩
    obtain rfl := Option.some.inj hr
    intro a b hb
    by_cases ha : a = (h.new (⟨str, len, capacity⟩ : Data)).2
    · rw [ha, Heap.new, Heap.get?] at hb
      simp only [List.getElem?_concat_length, Option.join_some, Option.some.injEq] at hb
      subst hb
      dsimp only
      rw [sizeofData] at *
      omega
    · exact hsmall a b ((Heap.get?_new_of_ne _ ha).symm.trans hb)

/-! ## The functions -/

variable {memory} {h : Heap Data} {this : Cell}

/-- The cell that a new block is for is put behind what `create` gives. -/
lemma Agrees.block {room : Prop} {f : Usize → Option (Heap Data × ℕ)} (hf : Agrees room f) :
    Agrees room fun u => (f u).bind fun r => some (r.1, Cell.block r.2) :=
  hf.bind fun _ _ hsmall hr => Option.some.inj hr ▸ hsmall

lemma ofBytes_agrees (hsmall : Small h) (str : List UInt8) :
    Agrees (Sized (str.length ||| 3)) fun u => @ofBytes u memory h str := by
  refine (create_agrees memory hsmall _ _ _ fun s s' hs => ?_).block
  obtain ⟨hlength, hlt⟩ := putString_length hs
  refine ⟨hlength, by omega, fun hle => Nat.or_lt_two_pow ?_ (by omega)⟩
  omega

lemma ofChar_agrees (hsmall : Small h) (length : ℕ) (c : UInt8) :
    Agrees (Sized (length ||| 3)) fun u => @ofChar u memory h length c := by
  have heq : (fun u => @ofChar u memory h length c)
      = fun u => @ofBytes u memory h (List.replicate length c) :=
    funext fun u => by rw [ofChar, ofBytes, List.length_replicate]
  have hbytes := @ofBytes_agrees memory h hsmall (List.replicate length c)
  rwa [List.length_replicate, ← heq] at hbytes

lemma ofCapacity_agrees (hsmall : Small h) {capacity : ℕ} (hcapacity : capacity < 2 ^ 64) :
    Agrees (Sized capacity) fun u => @ofCapacity u memory h capacity := by
  refine (create_agrees memory hsmall _ _ _ fun s s' hs => ?_).block
  obtain ⟨hlength, hle⟩ := put_length hs
  exact ⟨hlength, hle, fun _ => hcapacity⟩

lemma copy_agrees (hsmall : Small h) (this : Cell) :
    Agrees this.Copies fun u => @copy u memory h this := by
  cases this with
  | empty => exact .of_small fun r hr => Option.some.inj hr ▸ hsmall
  | attached str => exact ofBytes_agrees hsmall str
  | block data =>
    refine .of_small fun r hr => ?_
    obtain ⟨h', hincrement, hr⟩ := Option.bind_eq_some_iff.mp hr
    exact Option.some.inj hr ▸ hsmall.increment hincrement

/-- **`detach` to a new block** -/
lemma detachNew_agrees (hsmall : Small h) {copyLength minCapacity : ℕ}
    (hmin : minCapacity < 2 ^ 64 ∨ lenOf h this = some copyLength ∧ minCapacity = copyLength) :
    Agrees (Sized (minCapacity ||| 3))
      fun u => @detachNew u memory h this copyLength minCapacity := by
  cases hstr : strOf h this with
  | none =>
    refine ⟨fun _ => ?_, fun r hr => ?_⟩
    · simp only [detachNew, hstr, Option.bind_eq_bind, Option.bind_none]
    · simp [detachNew, hstr] at hr
  | some str =>
    cases hlen : lenOf h this with
    | none =>
      refine ⟨fun _ => ?_, fun r hr => ?_⟩
      · simp only [detachNew, hstr, hlen, Option.bind_eq_bind, Option.bind_none, Option.bind_some]
      · simp [detachNew, hstr, hlen] at hr
    | some len =>
      have hcreate := create_agrees memory hsmall (minCapacity ||| 3) copyLength
        (putDetached str len copyLength) fun s s' hs => by
          obtain ⟨hlength, hpos, hlt⟩ := putDetached_length hs
          refine ⟨hlength, hpos, fun hle => Nat.or_lt_two_pow ?_ (by omega)⟩
          rcases hmin with hmin | ⟨hlen', rfl⟩
          · exact hmin
          · obtain rfl := Option.some.inj (hlen.symm.trans hlen')
            omega
      have hbind := hcreate.bind (g := fun r => (release r.1 this).bind fun h => some (h, r.2))
          fun r r' hsmall hr => by
        obtain ⟨h', hrelease, hr⟩ := Option.bind_eq_some_iff.mp hr
        exact Option.some.inj hr ▸ hsmall.release hrelease
      simpa only [detachNew, hstr, hlen, Option.bind_eq_bind, Option.bind_some] using hbind

/-- **`detach`** -/
lemma detach_agrees (hsmall : Small h) (hlive : ∀ a ∈ this.pointers, ∃ b, h.get? a = some b)
    {copyLength minCapacity : ℕ}
    (hmin : minCapacity < 2 ^ 64 ∨ lenOf h this = some copyLength ∧ minCapacity = copyLength) :
    Agrees (this.Gets h minCapacity)
      fun u => @detach u memory h this copyLength minCapacity := by
  by_cases hfits : this.Fits h minCapacity
  · -- in place, where no size is computed
    have hgets : this.Gets h minCapacity := .inl hfits
    obtain ⟨data, c, rfl, hb, hroom⟩ := hfits
    have hhere : ∀ u, @detach u memory h (.block data) copyLength minCapacity
        = (edit h data (detachHere copyLength)).bind fun h => some (h, data) := by
      intro u
      simp [detach, hb, hroom]
    refine ⟨fun _ => by rw [hhere, hhere], fun r hr => ⟨hgets, ?_⟩⟩
    rw [hhere] at hr
    obtain ⟨h', hedit, hr⟩ := Option.bind_eq_some_iff.mp hr
    exact Option.some.inj hr ▸ hsmall.edit detachHere_length hedit
  · have heq : (fun u => @detach u memory h this copyLength minCapacity)
        = fun u => @detachNew u memory h this copyLength minCapacity :=
      funext fun u => @detach_eq_new memory u h this copyLength minCapacity hlive hfits
    rw [heq]
    exact (detachNew_agrees hsmall hmin).iff (or_iff_right hfits)

/-- `detach()` of a string -/
lemma detachAll_agrees (hsmall : Small h) (hlive : ∀ a ∈ this.pointers, ∃ b, h.get? a = some b) :
    Agrees (∀ len ∈ lenOf h this, this.Gets h len) fun u => @detachAll u memory h this := by
  cases hlen : lenOf h this with
  | none =>
    refine ⟨fun _ => ?_, fun r hr => ?_⟩
    · simp only [detachAll, hlen, Option.bind_eq_bind, Option.bind_none]
    · simp [detachAll, hlen] at hr
  | some len =>
    have hdetach := (@detach_agrees memory h this hsmall hlive len len
      (.inr ⟨hlen, rfl⟩)).iff (show (∀ len' ∈ some len, this.Gets h len') ↔ this.Gets h len by simp)
    simpa only [detachAll, hlen, Option.bind_eq_bind, Option.bind_some] using hdetach

/-- A string that is there has a length. -/
lemma exists_len {c : Cell} (hlive : ∀ a ∈ c.pointers, ∃ b, h.get? a = some b) :
    ∃ len, lenOf h c = some len := by
  cases c with
  | empty => exact ⟨0, rfl⟩
  | attached str => exact ⟨str.length, rfl⟩
  | block data =>
    obtain ⟨b, hb⟩ := hlive data (List.mem_singleton_self data)
    exact ⟨b.content.len, by rw [lenOf, hb]; rfl⟩

/-- What a new block is like, and that the others are left alone -/
lemma detachNew_of_some [Usize] {h' : Heap Data} {data copyLength minCapacity : ℕ}
    (hrun : detachNew memory h this copyLength minCapacity = some (h', data)) :
    (∀ b, h'.get? data = some b → b.content.len = copyLength ∧ b.content.str.length
        = Usize.wrap ((minCapacity ||| 3) + 1 + sizeofData) - sizeofData)
      ∧ ∀ a b b', h.get? a = some b → h'.get? a = some b' → b'.content = b.content := by
  obtain ⟨_, -, hrun⟩ := Option.bind_eq_some_iff.mp hrun
  obtain ⟨len, -, hrun⟩ := Option.bind_eq_some_iff.mp hrun
  obtain ⟨⟨h₁, newData⟩, hcreate, hrun⟩ := Option.bind_eq_some_iff.mp hrun
  obtain ⟨h₂, hrelease, hrun⟩ := Option.bind_eq_some_iff.mp hrun
  obtain ⟨rfl, rfl⟩ := Prod.mk.inj (Option.some.inj hrun)
  obtain ⟨str, hstr, hcreate⟩ := Option.bind_eq_some_iff.mp hcreate
  obtain ⟨rfl, rfl⟩ := Prod.mk.inj (Option.some.inj hcreate)
  have hshrinks : Heap.Shrinks (h.new ⟨str, copyLength, minCapacity ||| 3⟩).1 h₂ := by
    cases this with
    | empty => exact Option.some.inj hrelease ▸ .refl _
    | attached _ => exact Option.some.inj hrelease ▸ .refl _
    | block data => exact .of_release hrelease
  refine ⟨fun b hb => ?_, fun a b b' hb hb' => ?_⟩
  · obtain ⟨b₁, hb₁, hcontent, -⟩ := hshrinks _ _ hb
    rw [Heap.new, Heap.get?] at hb₁
    simp only [List.getElem?_concat_length, Option.join_some, Option.some.injEq] at hb₁
    subst hb₁
    rw [← hcontent]
    refine ⟨rfl, ?_⟩
    rw [(putDetached_length hstr).1, List.length_map, List.length_range]
  · obtain ⟨b₁, hb₁, hcontent, -⟩ := hshrinks _ _ hb'
    rw [Heap.get?_new_of_ne _ (Nat.ne_of_lt (Heap.lt_of_get? hb)), hb] at hb₁
    rw [← hcontent, ← Option.some.inj hb₁]

/-- A string in a block that keeps its content keeps its length. -/
lemma len_unique {h' : Heap Data} (hsame : ∀ a b b', h.get? a = some b → h'.get? a = some b' →
    b'.content.len = b.content.len) {c : Cell} {len len' : ℕ} (hlen : lenOf h c = some len)
    (hlen' : lenOf h' c = some len') : len' = len := by
  cases c with
  | empty => exact Option.some.inj (hlen'.symm.trans hlen)
  | attached str => exact Option.some.inj (hlen'.symm.trans hlen)
  | block data =>
    obtain ⟨b, hb, rfl⟩ := Option.map_eq_some_iff.mp hlen
    obtain ⟨b', hb', rfl⟩ := Option.map_eq_some_iff.mp hlen'
    exact hsame data b b' hb hb'

/-- **Lengths after `detach`** that does not shorten the string -/
lemma detach_len [Usize] {h' : Heap Data} {data len minCapacity : ℕ}
    (hlive : ∀ a ∈ this.pointers, ∃ b, h.get? a = some b) (hlen : lenOf h this = some len)
    (hrun : detach memory h this len minCapacity = some (h', data)) :
    (∀ len', lenOf h' (.block data) = some len' → len' = len)
      ∧ ∀ c k k', lenOf h c = some k → lenOf h' c = some k' → k' = k := by
  by_cases hfits : this.Fits h minCapacity
  · obtain ⟨data', c, rfl, hb, hroom⟩ := hfits
    have hhere : detach memory h (.block data') len minCapacity
        = (edit h data' (detachHere len)).bind fun h => some (h, data') := by
      simp [detach, hb, hroom]
    rw [hhere] at hrun
    obtain ⟨h₁, hedit, hrun⟩ := Option.bind_eq_some_iff.mp hrun
    obtain ⟨rfl, rfl⟩ := Prod.mk.inj (Option.some.inj hrun)
    obtain ⟨b, hb', hedit⟩ := Option.bind_eq_some_iff.mp hedit
    obtain ⟨content, hcontent, hedit⟩ := Option.bind_eq_some_iff.mp hedit
    obtain rfl := Option.some.inj hedit
    obtain ⟨s, -, hcontent⟩ := Option.bind_eq_some_iff.mp hcontent
    obtain rfl := Option.some.inj hcontent
    have hwrite := Heap.get?_write (Heap.lt_of_get? hb') (some { b with
      content := { b.content with str := s, len := len } })
    have hbl : b.content.len = len := by
      rw [lenOf, hb'] at hlen
      exact Option.some.inj hlen
    refine ⟨fun len' hlen' => ?_, fun c k k' => len_unique fun a b₁ b₂ hb₁ hb₂ => ?_⟩
    · rw [lenOf, hwrite] at hlen'
      exact (Option.some.inj hlen').symm
    · by_cases ha : a = data'
      · subst ha
        rw [hwrite] at hb₂
        rw [← Option.some.inj hb₂, ← Option.some.inj (hb'.symm.trans hb₁)]
        exact hbl.symm
      · rw [Heap.get?_write_of_ne ha, hb₁] at hb₂
        rw [Option.some.inj hb₂]
  · rw [detach_eq_new memory hlive hfits] at hrun
    obtain ⟨hnew, hsame⟩ := detachNew_of_some hrun
    refine ⟨fun len' hlen' => ?_, fun c k k' => len_unique fun a b₁ b₂ hb₁ hb₂ => ?_⟩
    · obtain ⟨b, hb, rfl⟩ := Option.map_eq_some_iff.mp hlen'
      exact (hnew b hb).1
    · rw [hsame a b₁ b₂ hb₁ hb₂]

/-- A number that a string has room for is one of the machine. -/
lemma Cell.Gets.lt {n : ℕ} (hgets : this.Gets h n) (hsmall : Small h) (hwf : Wf h) : n < 2 ^ 64 := by
  rcases hgets with ⟨data, c, rfl, hb, hroom⟩ | hsized
  · have hlt := hsmall data _ hb
    have hstr := (hwf data _ hb).str
    dsimp only at hlt hstr
    omega
  · have hle : n ≤ n ||| 3 := Nat.left_le_or
    rw [Sized] at hsized
    omega

lemma take_length {str bytes : List UInt8} {n : ℕ} (h : take str n = some bytes) : bytes.length = n := by
  rw [take] at h
  split_ifs at h with hle
  rw [← Option.some.inj h, List.length_take_of_le hle]

/-- **`append(const String&)`**: when the sum of the lengths wraps, more bytes are copied than the block
    has. -/
lemma append_agrees (hsmall : Small h) (hwf : Wf h) {str : Arg}
    (hlive : ∀ a ∈ this.pointers, ∃ b, h.get? a = some b)
    (hlive' : ∀ a ∈ (str.cell this).pointers, ∃ b, h.get? a = some b) :
    Agrees (∀ len ∈ lenOf h this, ∀ strLen ∈ lenOf h (str.cell this), this.Gets h (len + strLen))
      fun u => @append u memory h this str := by
  obtain ⟨len, hlen⟩ := exists_len hlive
  obtain ⟨strLen, hstrLen⟩ := exists_len hlive'
  have hroom : (∀ len ∈ lenOf h this, ∀ strLen ∈ lenOf h (str.cell this),
      this.Gets h (len + strLen)) ↔ this.Gets h (len + strLen) := by
    rw [hlen, hstrLen]
    simp
  refine Agrees.iff ?_ hroom
  have hdetach := fun n (hn : n < 2 ^ 64) => @detach_agrees memory h this hsmall hlive len n (.inl hn)
  refine ⟨fun hgets => ?_, fun r hr => ?_⟩
  · have hlt := hgets.lt hsmall hwf
    have hwrap : Usize.machine.wrap (len + strLen) = len + strLen := Nat.mod_eq_of_lt hlt
    simp only [append, hlen, hstrLen, Option.bind_eq_bind, Option.bind_some, hwrap,
      (hdetach _ hlt).same hgets, Usize.unbounded_wrap]
  · simp only [append, hlen, hstrLen, Option.bind_eq_bind, Option.bind_some] at hr
    obtain ⟨⟨h₁, data⟩, hrun, hr⟩ := Option.bind_eq_some_iff.mp hr
    obtain ⟨_, -, hr⟩ := Option.bind_eq_some_iff.mp hr
    obtain ⟨strLen', hstrLen', hr⟩ := Option.bind_eq_some_iff.mp hr
    obtain ⟨bytes, hbytes, hr⟩ := Option.bind_eq_some_iff.mp hr
    obtain ⟨h₂, hedit, hr⟩ := Option.bind_eq_some_iff.mp hr
    obtain rfl := Option.some.inj hr
    obtain ⟨hself, hother⟩ := @detach_len memory h this Usize.machine _ _ _ _ hlive hlen hrun
    obtain ⟨hgets, hsmall₁⟩ := (hdetach _ (Nat.mod_lt _ (Nat.two_pow_pos 64))).room _ hrun
    have hsame : strLen' = strLen := by
      cases str with
      | self => rw [hself _ hstrLen', ← Option.some.inj (hlen.symm.trans hstrLen)]
      | other c => exact hother c strLen strLen' hstrLen hstrLen'
    have hlt : len + strLen < 2 ^ 64 := by
      obtain ⟨b, hb, hfill⟩ := Option.bind_eq_some_iff.mp hedit
      obtain ⟨content, hfill, -⟩ := Option.bind_eq_some_iff.mp hfill
      have hle := (fill_length _ _ hfill).2
      rw [take_length hbytes, hsame] at hle
      have := hsmall₁ data b hb
      omega
    refine ⟨?_, hsmall₁.edit (fun c c' hc => (fill_length c c' hc).1) hedit⟩
    rwa [Nat.mod_eq_of_lt hlt] at hgets

lemma or_three_le (n : ℕ) : n ||| 3 ≤ n + 3 := by
  have hdiv : (n ||| 3) / 2 ^ 2 = n / 2 ^ 2 ||| 3 / 2 ^ 2 := Nat.or_div_two_pow
  rw [show 3 / 2 ^ 2 = 0 from rfl, Nat.or_zero] at hdiv
  omega

/-- A copy is empty or in a block, and so in memory. -/
lemma copy_len_lt {h' : Heap Data} {c : Cell} {len : ℕ} (hcopy : copy memory h this = some (h', c))
    (hsmall : Small h') (hwf : Wf h') (hlen : lenOf h' c = some len) :
    len + sizeofData < 2 ^ 64 := by
  have hblock : ∀ a, lenOf h' (.block a) = some len → len + sizeofData < 2 ^ 64 := by
    intro a ha
    obtain ⟨b, hb, hlen⟩ := Option.map_eq_some_iff.mp ha
    have hlt := hsmall a b hb
    have hstr := (hwf a b hb).str
    have hle := (hwf a b hb).len
    omega
  cases this with
  | empty =>
    obtain ⟨rfl, rfl⟩ := Prod.mk.inj (Option.some.inj hcopy)
    obtain rfl : 0 = len := Option.some.inj hlen
    decide
  | attached str =>
    obtain ⟨⟨h₁, a⟩, -, hcopy⟩ := Option.bind_eq_some_iff.mp hcopy
    obtain ⟨rfl, rfl⟩ := Prod.mk.inj (Option.some.inj hcopy)
    exact hblock a hlen
  | block a =>
    obtain ⟨h₁, -, hcopy⟩ := Option.bind_eq_some_iff.mp hcopy
    obtain ⟨rfl, rfl⟩ := Prod.mk.inj (Option.some.inj hcopy)
    exact hblock a hlen

/-- **`prepend(const String&)`**: the string shares its block with the copy then, so there is a new block
    in any case. -/
lemma prepend_agrees (hsmall : Small h) (hwf : Wf h) {str : Arg} {kept : List ℕ}
    (hs : h.Sound (this.pointers ++ kept)) (hstr : str.Kept kept) :
    Agrees (this.Copies ∧ ∀ len ∈ lenOf h this, ∀ strLen ∈ lenOf h (str.cell this),
      Sized ((strLen + len) ||| 3)) fun u => @prepend u memory h this str := by
  have hlive : ∀ a ∈ this.pointers, ∃ b, h.get? a = some b :=
    fun a ha => hs.live (.inl (List.mem_append_left _ ha))
  obtain ⟨v, hv⟩ := Cell.exists_shows hwf this hlive
  obtain ⟨w, hw⟩ := Cell.exists_shows hwf (str.cell this) (hstr.live this hs)
  have hroom : (this.Copies ∧ ∀ len ∈ lenOf h this, ∀ strLen ∈ lenOf h (str.cell this),
      Sized ((strLen + len) ||| 3)) ↔ this.Copies ∧ Sized ((w.length + v.length) ||| 3) := by
    rw [hv.1, hw.1]
    simp
  refine Agrees.iff ?_ hroom
  have hcopies := @copy_agrees memory h hsmall this
  obtain ⟨h₁, copy, hcopy, hcv, -, hs₁, hwf₁, hkeep₁⟩ := copy_yields memory hs hwf hlive hv
    (p := fun _ => True) (fun _ _ _ _ => trivial) fun _ _ => trivial
  have hv₁ : this.Shows h₁ v := hv.keep hkeep₁ (List.subset_append_left _ _)
  have hw₁ : (str.cell this).Shows h₁ w := hw.keep hkeep₁ (hstr.pointers this)
  have hlive₁ : ∀ a ∈ this.pointers, ∃ b, h₁.get? a = some b := fun a ha =>
    hs₁.live (.inl (List.mem_append_right _ (List.mem_append_left _ ha)))
  have hfits : ∀ {n}, ¬ this.Fits h₁ n := copy_not_fits memory hcopy hs₁
  have hdetach := fun hsmall₁ n (hn : n < 2 ^ 64) =>
    @detach_agrees memory h₁ this hsmall₁ hlive₁ 0 n (.inl hn)
  refine ⟨fun ⟨hcopied, hsized⟩ => ?_, fun r hr => ?_⟩
  · have hmachine := (hcopies.same hcopied).trans hcopy
    have hsmall₁ := (hcopies.room _ hmachine).2
    have hgets : this.Gets h₁ (w.length + v.length) := .inr hsized
    have hlt := hgets.lt hsmall₁ hwf₁
    have hwrap : Usize.machine.wrap (w.length + v.length) = w.length + v.length :=
      Nat.mod_eq_of_lt hlt
    simp only [prepend, hmachine, hcopy, hw₁.1, hcv.1, Option.bind_eq_bind, Option.bind_some, hwrap,
      (hdetach hsmall₁ _ hlt).same hgets, Usize.unbounded_wrap]
  · obtain ⟨⟨h₁', copy'⟩, hmachine, hr⟩ := Option.bind_eq_some_iff.mp hr
    obtain ⟨hcopied, hsmall₁⟩ := hcopies.room _ hmachine
    obtain ⟨rfl, rfl⟩ := Prod.mk.inj (Option.some.inj
      ((hmachine.symm.trans (hcopies.same hcopied)).trans hcopy))
    dsimp only at hr hsmall₁
    simp only [hw₁.1, hcv.1, Option.bind_eq_bind, Option.bind_some] at hr
    obtain ⟨⟨h₂, data⟩, hrun, hr⟩ := Option.bind_eq_some_iff.mp hr
    obtain ⟨_, -, hr⟩ := Option.bind_eq_some_iff.mp hr
    obtain ⟨strLen, hstrLen, hr⟩ := Option.bind_eq_some_iff.mp hr
    obtain ⟨bytes, hbytes, hr⟩ := Option.bind_eq_some_iff.mp hr
    obtain ⟨_, -, hr⟩ := Option.bind_eq_some_iff.mp hr
    obtain ⟨copyBytes, hcopyBytes, hr⟩ := Option.bind_eq_some_iff.mp hr
    obtain ⟨h₃, hedit, hr⟩ := Option.bind_eq_some_iff.mp hr
    obtain ⟨h₄, hrelease, hr⟩ := Option.bind_eq_some_iff.mp hr
    obtain rfl := Option.some.inj hr
    dsimp only at hstrLen hedit
    have hn := Nat.mod_lt (w.length + v.length) (Nat.two_pow_pos 64)
    obtain ⟨hgets, hsmall₂⟩ := (hdetach hsmall₁ _ hn).room _ hrun
    have hsized := hgets.resolve_left hfits
    rw [@detach_eq_new memory Usize.machine _ _ _ _ hlive₁ hfits] at hrun
    obtain ⟨hnew, hsame⟩ := @detachNew_of_some memory _ _ Usize.machine _ _ _ _ hrun
    have hlt : w.length + v.length < 2 ^ 64 := by
      obtain ⟨b, hb, hfill⟩ := Option.bind_eq_some_iff.mp hedit
      obtain ⟨content, hfill, -⟩ := Option.bind_eq_some_iff.mp hfill
      have hle := (prependFill_length _ _ hfill).2
      rw [take_length hbytes, take_length hcopyBytes] at hle
      have hsmallb := hsmall₂ data b hb
      cases str with
      | other c =>
        have hk : strLen = w.length :=
          len_unique (fun a b b' hb hb' => by rw [hsame a b b' hb hb']) hw₁.1 hstrLen
        omega
      | self =>
        -- the copy alone would not fit into a block of the sum that has wrapped
        obtain rfl := hw₁.unique hv₁
        have hlength := (hnew b hb).2
        have hor := or_three_le ((w.length + w.length) % 2 ^ 64)
        have hwrap : Usize.machine.wrap (((w.length + w.length) % 2 ^ 64 ||| 3) + 1 + sizeofData)
            = ((w.length + w.length) % 2 ^ 64 ||| 3) + 1 + sizeofData := Nat.mod_eq_of_lt hsized
        have hown := copy_len_lt hcopy hsmall₁ hwf₁ hcv.1
        have hlength := hlength.trans (congrArg (· - sizeofData) hwrap)
        rw [sizeofData] at *
        omega
    rw [Nat.mod_eq_of_lt hlt] at hsized
    exact ⟨⟨hcopied, hsized⟩, (hsmall₂.edit (fun c c' hc => (prependFill_length c c' hc).1)
      hedit).release hrelease⟩

/-- **`operator=`** -/
lemma assign_agrees (hsmall : Small h) (other : Arg) :
    Agrees (other.cell this).Copies fun u => @assign u memory h this other := by
  have hbytes : ∀ str : List UInt8, Agrees (Sized (str.length ||| 3))
      fun u => (release h this).bind fun h => @ofBytes u memory h str := by
    intro str
    cases hrelease : release h this with
    | none => exact ⟨fun _ => (Option.bind_none _).trans (Option.bind_none _).symm, fun r hr => by cases hr⟩
    | some h₁ => exact ofBytes_agrees (hsmall.release hrelease) str
  cases hcell : other.cell this with
  | empty =>
    refine Agrees.iff ?_ (show Cell.empty.Copies ↔ Sized (([] : List UInt8).length ||| 3) from
      ⟨fun _ => by decide, fun _ => trivial⟩)
    simp only [assign, hcell]
    exact hbytes []
  | attached str =>
    simp only [assign, hcell]
    exact hbytes str
  | block data =>
    have hnone : Agrees True fun _ : Usize => (h.increment data).bind fun h =>
        (release h this).bind fun h => some (h, Cell.block data) := by
      refine .of_small fun r hr => ?_
      obtain ⟨h₁, hincrement, hr⟩ := Option.bind_eq_some_iff.mp hr
      obtain ⟨h₂, hrelease, hr⟩ := Option.bind_eq_some_iff.mp hr
      exact Option.some.inj hr ▸ (hsmall.increment hincrement).release hrelease
    simp only [assign, hcell]
    exact hnone

/-- What is done to all bytes of a string after `detach()` -/
lemma detached_agrees (hsmall : Small h) (hlive : ∀ a ∈ this.pointers, ∃ b, h.get? a = some b)
    {f : Data → Option Data} (hf : ∀ c c', f c = some c' → c'.str.length = c.str.length) :
    Agrees (∀ len ∈ lenOf h this, this.Gets h len) fun u => (@detachAll u memory h this).bind
      fun r => (edit r.1 r.2 f).bind fun h => some (h, Cell.block r.2) := by
  refine (detachAll_agrees hsmall hlive).bind fun r r' hsmall hr => ?_
  obtain ⟨h', hedit, hr⟩ := Option.bind_eq_some_iff.mp hr
  exact Option.some.inj hr ▸ hsmall.edit hf hedit

lemma replaceWith_agrees (hsmall : Small h) (hlive : ∀ a ∈ this.pointers, ∃ b, h.get? a = some b)
    (f : UInt8 → UInt8) :
    Agrees (∀ len ∈ lenOf h this, this.Gets h len) fun u => @replaceWith u memory f h this := by
  refine detached_agrees hsmall hlive fun c c' hc => ?_
  obtain ⟨s, hs, hc⟩ := Option.bind_eq_some_iff.mp hc
  exact Option.some.inj hc ▸ replaceBytes_length hs

lemma writeBytes_agrees (hsmall : Small h) (hlive : ∀ a ∈ this.pointers, ∃ b, h.get? a = some b)
    (writes : List (ℕ × UInt8)) :
    Agrees (∀ len ∈ lenOf h this, this.Gets h len) fun u => @writeBytes u memory writes h this := by
  refine detached_agrees hsmall hlive fun c c' hc => ?_
  exact Option.some.inj hc ▸ length_foldl_set writes c.str

lemma reserve_agrees (hsmall : Small h) (hlive : ∀ a ∈ this.pointers, ∃ b, h.get? a = some b)
    {size : ℕ} (hsize : size < 2 ^ 64) :
    Agrees (∀ len ∈ lenOf h this, this.Gets h (if size < len then len else size))
      fun u => @reserve u memory h this size := by
  obtain ⟨len, hlen⟩ := exists_len hlive
  have hdetach := @detach_agrees memory h this hsmall hlive len (if size < len then len else size)
    (by
      split_ifs with hlt
      · exact .inr ⟨hlen, rfl⟩
      · exact .inl hsize)
  have hroom : (∀ len ∈ lenOf h this, this.Gets h (if size < len then len else size))
      ↔ this.Gets h (if size < len then len else size) := by
    rw [hlen]
    simp
  refine Agrees.iff ?_ hroom
  simpa only [reserve, hlen, Option.bind_eq_bind, Option.bind_some] using hdetach.block

/-! ## Moves -/

/-- **An operation** -/
lemma Op.run_agrees (hsmall : Small h) (hwf : Wf h) {arg : ℕ → Option Arg} {kept : List ℕ}
    {op : Op} (hus : op.Usizes) (hs : h.Sound (this.pointers ++ kept))
    (hargs : ∀ y a, arg y = some a → a.Kept kept) :
    Agrees (op.Room arg h this) fun u => @Op.run u memory arg h this op := by
  have hlive : ∀ a ∈ this.pointers, ∃ b, h.get? a = some b :=
    fun a ha => hs.live (.inl (List.mem_append_left _ ha))
  have hnone : ∀ y (room : Arg → Prop), arg y = none → Agrees (∀ a ∈ arg y, room a)
      fun _ => some (h, this) := fun y room hy =>
    (Agrees.of_small fun r hr => Option.some.inj hr ▸ hsmall).iff (by simp [hy])
  have hsome : ∀ y a (room : Arg → Prop), arg y = some a → ((∀ a ∈ arg y, room a) ↔ room a) :=
    fun y a room hy => by simp [hy]
  cases op with
  | assign y =>
    cases hy : arg y with
    | none =>
      simp only [Op.run, hy]
      exact hnone y _ hy
    | some other =>
      simpa only [Op.run, hy] using (assign_agrees hsmall other).iff (hsome y other _ hy)
  | attach str =>
    refine .of_small fun r hr => ?_
    obtain ⟨h', hrelease, hr⟩ := Option.bind_eq_some_iff.mp hr
    exact Option.some.inj hr ▸ hsmall.release hrelease
  | detach => exact (detachAll_agrees hsmall hlive).block
  | clear =>
    refine .of_small fun r hr => ?_
    cases this with
    | empty => exact Option.some.inj hr ▸ hsmall
    | attached str => exact Option.some.inj hr ▸ hsmall
    | block data =>
      obtain ⟨b, hb, hr⟩ := Option.bind_eq_some_iff.mp hr
      split_ifs at hr with hone
      · obtain ⟨h', hedit, hr⟩ := Option.bind_eq_some_iff.mp hr
        exact Option.some.inj hr ▸ hsmall.edit detachHere_length hedit
      · obtain ⟨h', hrelease, hr⟩ := Option.bind_eq_some_iff.mp hr
        exact Option.some.inj hr ▸ hsmall.release hrelease
  | resize length => exact (detach_agrees hsmall hlive (.inl hus)).block
  | reserve size => exact reserve_agrees hsmall hlive hus
  | append y =>
    cases hy : arg y with
    | none =>
      simp only [Op.run, hy]
      exact hnone y _ hy
    | some str =>
      simpa only [Op.run, hy] using (append_agrees hsmall hwf hlive
        ((hargs y str hy).live this hs)).iff (hsome y str _ hy)
  | appendBytes str =>
    have hattached := @append_agrees memory h this hsmall hwf (.other (.attached str)) hlive
      (by simp [Arg.cell, Cell.pointers])
    simp only [← @appendBytes_eq memory] at hattached
    refine hattached.iff ?_
    simp [Op.Room, Arg.cell, lenOf]
  | prepend y =>
    cases hy : arg y with
    | none =>
      simp only [Op.run, hy]
      exact hnone y _ hy
    | some str =>
      simpa only [Op.run, hy] using (prepend_agrees hsmall hwf hs
        (hargs y str hy)).iff (hsome y str _ hy)
  | prependBytes str =>
    have hattached := @prepend_agrees memory h this hsmall hwf (.other (.attached str)) kept hs
      (List.nil_subset _)
    simp only [← @prependBytes_eq memory] at hattached
    refine hattached.iff ?_
    simp [Op.Room, Arg.cell, lenOf]
  | toLowerCase => exact replaceWith_agrees hsmall hlive _
  | toUpperCase => exact replaceWith_agrees hsmall hlive _
  | replace needle replacement => exact replaceWith_agrees hsmall hlive _
  | write writes => exact writeBytes_agrees hsmall hlive writes

/-- **A string that is constructed** -/
lemma Init.run_agrees {s : State} (hsmall : Small s.heap) {init : Init} (hus : init.Usizes) :
    Agrees (init.Room s) fun u => @Init.run u memory s init := by
  have hmade : ∀ {room : Prop} {f : Usize → Option (Heap Data × Cell)}, Agrees room f →
      Agrees room fun u => (f u).bind fun r => some (r.1, some r.2) := fun hf =>
    hf.bind fun _ _ hsmall hr => Option.some.inj hr ▸ hsmall
  cases init with
  | default => exact .of_small fun r hr => Option.some.inj hr ▸ hsmall
  | attach str => exact .of_small fun r hr => Option.some.inj hr ▸ hsmall
  | copy y =>
    cases hy : s.get y with
    | none =>
      have hnone : Agrees True fun _ : Usize => some (s.heap, (none : Option Cell)) :=
        .of_small fun r hr => Option.some.inj hr ▸ hsmall
      simp only [Init.run, hy]
      exact hnone.iff (by simp [Init.Room, hy])
    | some other =>
      simp only [Init.run, hy]
      exact (hmade (copy_agrees hsmall other)).iff (by simp [Init.Room, hy])
  | ofBytes str => exact hmade (ofBytes_agrees hsmall str)
  | ofChar length c => exact hmade (ofChar_agrees hsmall length c)
  | ofCapacity capacity => exact hmade (ofCapacity_agrees hsmall hus)

/-- **A move on the machine** is the move where numbers have any size, if there is room for it, and
    succeeds only then. -/
lemma step_agrees {s : State} (hs : s.Sound) (hsmall : Small s.heap) {m : Move} (hus : m.Usizes) :
    (m.Room s → @step .machine memory s m = step memory s m)
      ∧ ∀ s', @step .machine memory s m = some s' → m.Room s ∧ Small s'.heap := by
  cases m with
  | construct x init =>
    have hinit := @Init.run_agrees memory s hsmall init hus
    by_cases hx : s.vars[x]? = some none
    · refine ⟨fun hroom => by simp only [step, if_pos hx, hinit.same (hroom hx)], fun s' h => ?_⟩
      simp only [step, if_pos hx] at h
      obtain ⟨r, hr, h⟩ := Option.bind_eq_some_iff.mp h
      obtain ⟨hroom, hsmall'⟩ := hinit.room r hr
      exact ⟨fun _ => hroom, Option.some.inj h ▸ hsmall'⟩
    · refine ⟨fun _ => by simp only [step, if_neg hx], fun s' h => ⟨fun h => absurd h hx, ?_⟩⟩
      simp only [step, if_neg hx] at h
      exact Option.some.inj h ▸ hsmall
  | op x op =>
    cases hx : s.get x with
    | none =>
      refine ⟨fun _ => by simp only [step, hx], fun s' h => ⟨by simp [Move.Room, hx], ?_⟩⟩
      simp only [step, hx] at h
      exact Option.some.inj h ▸ hsmall
    | some this =>
      have hop := @Op.run_agrees memory _ this hsmall hs.wf (s.arg x) _ op hus
        (hs.at (State.vars_of_get hx)) fun y a => State.arg_kept
      refine ⟨fun hroom => by simp only [step, hx, hop.same (hroom this hx)], fun s' h => ?_⟩
      simp only [step, hx] at h
      obtain ⟨r, hr, h⟩ := Option.bind_eq_some_iff.mp h
      obtain ⟨hroom, hsmall'⟩ := hop.room r hr
      refine ⟨fun this' hthis => ?_, Option.some.inj h ▸ hsmall'⟩
      rwa [← Option.some.inj (hx.symm.trans hthis)]
  | destroy x =>
    refine ⟨fun _ => rfl, fun s' h => ⟨trivial, ?_⟩⟩
    cases hx : s.get x with
    | none =>
      simp only [step, hx] at h
      exact Option.some.inj h ▸ hsmall
    | some this =>
      simp only [step, hx] at h
      obtain ⟨heap, hrelease, h⟩ := Option.bind_eq_some_iff.mp h
      exact Option.some.inj h ▸ hsmall.release hrelease

/-! ## Runs -/

/-- Programs on the machine, all of whose moves have room -/
def machine (memory : ℕ → ℕ → UInt8) (n : ℕ) : System State Move where
  initial s := s = State.initial n
  step s ms s' := ∃ m, ms = [m] ∧ m.Usizes ∧ m.Room s ∧ @step .machine memory s m = some s'

lemma Small.initial (n : ℕ) : Small (State.initial n).heap := by
  intro a b hb
  simp [State.initial, Heap.empty, Heap.get?] at hb

/-- **A move on the machine** that succeeds has had room, and is the move where numbers have any size. -/
lemma State.Sound.machine {s s' : State} (hs : s.Sound) (hsmall : Small s.heap) {m : Move}
    (hus : m.Usizes) (h : @Strings.step .machine memory s m = some s') :
    m.Room s ∧ Strings.step memory s m = some s' ∧ Small s'.heap := by
  obtain ⟨hsame, hrun⟩ := @step_agrees memory s hs hsmall m hus
  obtain ⟨hroom, hsmall'⟩ := hrun s' h
  exact ⟨hroom, (hsame hroom).symm.trans h, hsmall'⟩

/-- **Every run on the machine** keeps the counts right and the blocks in memory. -/
lemma machine_sound {n : ℕ} {ms : List Move} {s : State} (h : (machine memory n).Run ms s) :
    s.Sound ∧ Small s.heap := by
  refine @System.Run.invariant _ _ (Strings.machine memory n) (fun _ s => s.Sound ∧ Small s.heap) ?_ ?_ _ _ h
  · rintro s rfl
    exact ⟨.initial n, .initial n⟩
  · rintro _ s _ s' ⟨hs, hsmall⟩ ⟨m, -, hus, -, hrun⟩
    obtain ⟨-, hstep, hsmall'⟩ := hs.machine hsmall hus hrun
    exact ⟨(hs.leaves_of_step memory hstep).sound, hsmall'⟩

/-- **When sharing is safe.**  In every run whose moves have room counts are right, and blocks are
    there while a string points to them.  The next move succeeds and changes no other string exactly
    if there is room for it; where there is none it writes outside the block that it was given. -/
theorem strings_safe_iff (memory : ℕ → ℕ → UInt8) {n : ℕ} {ms : List Move} {s : State}
    (h : (machine memory n).Run ms s) :
    s.Counted ∧ (∀ x c, s.get x = some c → ∃ v, s.Value x v) ∧
      ∀ m : Move, m.Usizes → ((∃ s', @step .machine memory s m = some s' ∧
        ∀ y v, y ≠ m.target → s.Value y v → s'.Value y v) ↔ m.Room s) := by
  obtain ⟨hs, hsmall⟩ := machine_sound h
  refine ⟨hs.counted, fun x c hx => hs.value hx, fun m hus => ⟨?_, fun hroom => ?_⟩⟩
  · rintro ⟨s', hrun, -⟩
    exact (hs.machine hsmall hus hrun).1
  · obtain ⟨s', hstep, hleaves, -⟩ := step_spec memory hs m
    exact ⟨s', ((step_agrees hs hsmall hus).1 hroom).trans hstep, hleaves.value⟩

/-- Two strings, of which the second is made longer by `append`; then the first gets its value. -/
theorem strings_safe_iff_assign : ∃ s, (machine (fun _ _ => 0) 2).Run
      [.construct 0 (.ofBytes [97]), .construct 1 (.ofBytes [98]), .op 1 (.append 0),
        .op 0 (.assign 1)] s
    ∧ s.Counted ∧ s.Value 0 [98, 97] ∧ s.Value 1 [98, 97] := by
  have hstart : (machine (fun _ _ => 0) 2).Run [] (State.initial 2) := .start rfl
  have hmade : (machine (fun _ _ => 0) 2).Run [.construct 0 (.ofBytes [97]), .construct 1 (.ofBytes [98])]
      ⟨⟨[some ⟨1, ⟨[97, 0, 0, 0], 1, 3⟩⟩, some ⟨1, ⟨[98, 0, 0, 0], 1, 3⟩⟩]⟩,
        [some (.block 0), some (.block 1)]⟩ :=
    (hstart.next ⟨.construct 0 (.ofBytes [97]), rfl, trivial, fun _ => show Sized _ by decide, rfl⟩).next
      ⟨.construct 1 (.ofBytes [98]), rfl, trivial, fun _ => show Sized _ by decide, rfl⟩
  have hlonger : (machine (fun _ _ => 0) 2).Run
      ([.construct 0 (.ofBytes [97]), .construct 1 (.ofBytes [98])] ++ [.op 1 (.append 0)])
      ⟨⟨[some ⟨1, ⟨[97, 0, 0, 0], 1, 3⟩⟩, some ⟨1, ⟨[98, 97, 0, 0], 2, 3⟩⟩]⟩,
        [some (.block 0), some (.block 1)]⟩ := by
    refine hmade.next ⟨.op 1 (.append 0), rfl, trivial, fun this hx => ?_, rfl⟩
    obtain rfl := Option.some.inj hx
    rintro str hstr len hlen strLen hstrLen
    obtain rfl := Option.some.inj hstr
    obtain rfl := Option.some.inj hlen
    obtain rfl := Option.some.inj hstrLen
    exact .inr (by decide)
  have hshared : (machine (fun _ _ => 0) 2).Run
      ([.construct 0 (.ofBytes [97]), .construct 1 (.ofBytes [98])] ++ [.op 1 (.append 0)]
        ++ [.op 0 (.assign 1)])
      ⟨⟨[none, some ⟨2, ⟨[98, 97, 0, 0], 2, 3⟩⟩]⟩, [some (.block 1), some (.block 1)]⟩ := by
    refine hlonger.next ⟨.op 0 (.assign 1), rfl, trivial, fun this hx => ?_, ?_⟩
    · rintro other hother
      obtain rfl := Option.some.inj hother
      trivial
    · have hrelease : (⟨[some ⟨1, ⟨[97, 0, 0, 0], 1, 3⟩⟩, some ⟨2, ⟨[98, 97, 0, 0], 2, 3⟩⟩]⟩ :
          Heap Data).release [0] = some ⟨[none, some ⟨2, ⟨[98, 97, 0, 0], 2, 3⟩⟩]⟩ := by
        rw [Heap.release_one rfl]
        exact Heap.release_nil _
      simp [step, State.get, Op.run, State.arg, assign, Arg.cell, Heap.increment, Heap.get?, Heap.write,
        release, hrelease]
  exact ⟨_, hshared, (strings_safe_iff _ hshared).1, ⟨_, _, _, rfl, rfl, rfl, rfl⟩,
    ⟨_, _, _, rfl, rfl, rfl, rfl⟩⟩

/-- **A size that wraps**: `reserve(usize(-1))` and `String(usize(-1))` ask `new` for no more than the
    `Data` of the block, and put the end of the string behind it; another string is there. -/
theorem reserve_wraps : ∃ s, (machine (fun _ _ => 0) 3).Run
      [.construct 0 (.ofBytes [97]), .construct 1 (.ofBytes [98])] s
    ∧ s.Value 1 [98]
    ∧ (Move.op 0 (.reserve (2 ^ 64 - 1))).Usizes
    ∧ @step .machine (fun _ _ => 0) s (.op 0 (.reserve (2 ^ 64 - 1))) = none
    ∧ @step .machine (fun _ _ => 0) s (.construct 2 (.ofCapacity (2 ^ 64 - 1))) = none := by
  have hstart : (machine (fun _ _ => 0) 3).Run [] (State.initial 3) := .start rfl
  refine ⟨_, (hstart.next ⟨.construct 0 (.ofBytes [97]), rfl, trivial,
      fun _ => show Sized _ by decide, rfl⟩).next
    ⟨.construct 1 (.ofBytes [98]), rfl, trivial, fun _ => show Sized _ by decide, rfl⟩,
    ⟨_, _, _, rfl, rfl, rfl, rfl⟩, show _ < _ by decide, rfl, rfl⟩

end Nstd.Strings
