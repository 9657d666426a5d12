import Nstd.Shared.StringCompare
import Nstd.Shared.StringMembers
import Nstd.Shared.StringSearch

/-!
# The loop of `replace`

* `Confined` — no match that `replace` finds in memory ends behind the string, and there is an end of
  each search.
* `Replaced` — the string that it comes to, by the bytes of the string alone.
* `State.Replacing` — what holds before each search of the loop.
* `goOn_confined`, `confined_of_goOn` — the loop ends where the search is confined, and only there.
* `State.Confines` — the search of `replace` is confined in a state.
* **`State.Shows.replace`**, **`confines_of_replace`** — `replace` returns exactly then.
-/

namespace Nstd.Strings

open Texts (upTo find)

/-! ## In memory -/

/-- **Where a search is confined** to the first `n` bytes of memory: from `p` on, each match ends within
    them, up to a text in which there is none.  The needle is looked for up to its first zero, and
    skipped with all its bytes. -/
inductive Confined (w : List UInt8) (n : ℕ) (str : List UInt8) : ℕ → Prop
  | last {p : ℕ} {text : List UInt8} (hp : p ≤ n) (htext : upTo 0 (str.drop p) = some text)
      (hfind : find (cBytes w) text = none) : Confined w n str p
  | next {p i : ℕ} {text : List UInt8} (htext : upTo 0 (str.drop p) = some text)
      (hfind : find (cBytes w) text = some i) (h : Confined w n str (p + i + w.length)) :
      Confined w n str p

/-- **What is left of a string** from `p` on, with `u` in place of each match -/
inductive Replaced (w u v : List UInt8) : ℕ → List UInt8 → Prop
  | last {p : ℕ} (hfind : find (cBytes w) (cBytes (v.drop p)) = none) : Replaced w u v p (v.drop p)
  | next {p i : ℕ} {out : List UInt8} (hfind : find (cBytes w) (cBytes (v.drop p)) = some i)
      (h : Replaced w u v (p + i + w.length) out) :
      Replaced w u v p ((v.drop p).take i ++ u ++ out)

variable {v w u rest text : List UInt8} {n p i : ℕ}

lemma Confined.le {str : List UInt8} (h : Confined w n str p) : p ≤ n := by
  induction h with
  | last hp => exact hp
  | next _ _ _ ih => omega

lemma Replaced.unique {out out' : List UInt8} (h : Replaced w u v p out) (h' : Replaced w u v p out') :
    out = out' := by
  induction h generalizing out' with
  | last hfind =>
    cases h' with
    | last => rfl
    | next hfind' => exact nomatch hfind.symm.trans hfind'
  | next hfind _ ih =>
    cases h' with
    | last hfind' => exact nomatch hfind.symm.trans hfind'
    | next hfind' h' =>
      obtain rfl := Option.some.inj (hfind.symm.trans hfind')
      rw [ih h']

lemma cBytes_length_le (v : List UInt8) : (cBytes v).length ≤ v.length :=
  (List.takeWhile_prefix _).length_le

/-- A text in memory begins with the C string that is there, and goes on if that has no end. -/
lemma text_eq (hp : p ≤ v.length) (htext : upTo 0 ((v ++ rest).drop p) = some text) :
    ∃ extra, text = cBytes (v.drop p) ++ extra ∧ (extra = [] ∨ cBytes (v.drop p) = v.drop p) := by
  rw [List.drop_append_of_le_length hp] at htext
  by_cases hnul : 0 ∈ v.drop p
  · rw [Texts.upTo_of_mem hnul] at htext
    obtain rfl := Option.some.inj htext
    exact ⟨[], (List.append_nil _).symm, .inl rfl⟩
  · have hall : cBytes (v.drop p) = v.drop p := Texts.takeWhile_of_not_mem hnul
    rw [Texts.upTo_append hnul] at htext
    obtain ⟨extra, -, rfl⟩ := Option.map_eq_some_iff.mp htext
    exact ⟨extra, by rw [hall], .inr hall⟩

/-- Without a match in memory there is none in the string. -/
lemma find_string_none (hp : p ≤ v.length) (htext : upTo 0 ((v ++ rest).drop p) = some text)
    (hfind : find (cBytes w) text = none) : find (cBytes w) (cBytes (v.drop p)) = none := by
  obtain ⟨extra, rfl, -⟩ := text_eq hp htext
  exact Texts.find_none_of_append hfind

/-- A match in memory that ends within the string is one in the string. -/
lemma find_string_some (hp : p + i + w.length ≤ v.length)
    (htext : upTo 0 ((v ++ rest).drop p) = some text) (hfind : find (cBytes w) text = some i) :
    find (cBytes w) (cBytes (v.drop p)) = some i := by
  obtain ⟨extra, rfl, hextra⟩ := text_eq (show p ≤ v.length by omega) htext
  rcases hextra with rfl | hall
  · rwa [List.append_nil] at hfind
  · have hle := cBytes_length_le w
    refine Texts.find_some_of_append hfind ?_
    rw [hall, List.length_drop]
    omega

/-- The bytes in front of a match are there. -/
lemma take_piece {str : List UInt8} (htext : upTo 0 (str.drop p) = some text)
    (hfind : find (cBytes w) text = some i) :
    take (str.drop p) i = some ((str.drop p).take i) := by
  obtain ⟨-, rest, hrest⟩ := Texts.upTo_eq_some htext
  obtain ⟨-, hle, -⟩ := Texts.find_eq_some hfind
  rw [take, if_pos]
  rw [← hrest, List.length_append, List.length_append]
  omega

/-- The text in memory is the same whatever is behind the end of a string. -/
lemma upTo_ended (hp : p ≤ v.length) :
    upTo 0 ((v ++ 0 :: rest).drop p) = some (cBytes (v.drop p)) := CStrings.upTo_drop rest hp

/-- Behind the end of a string, nothing matters for a search that is confined. -/
lemma Confined.ended {rest' : List UInt8} (h : Confined w v.length (v ++ 0 :: rest) p) :
    Confined w v.length (v ++ 0 :: rest') p := by
  induction h with
  | @last p text hp htext hfind =>
    rw [upTo_ended hp] at htext
    exact .last hp ((upTo_ended hp).trans htext) hfind
  | @next p i text htext hfind h ih =>
    have hp : p ≤ v.length := by
      have hle := h.le
      omega
    rw [upTo_ended hp] at htext
    exact .next ((upTo_ended hp).trans htext) hfind ih

/-! ## Rounds -/

variable (memory : ℕ → ℕ → UInt8) {behind : ℕ → Behind} {x y z r : ℕ} {str : Cell} {vs : Values}
  {s s' : State} {acc : List UInt8}

/-- Searching in memory from any place on -/
lemma strstr_run {s₁ : State} {needle : Cell} {str' rest' : List UInt8}
    (hconst : s.constChars memory behind y = some (s₁, needle)) (hy : s₁.get y = some needle)
    (hneedle : s₁.InMemory behind y w (0 :: rest'))
    (hstr : memoryOf s₁.heap (behind x) str = some str') (p : ℕ) :
    s.strstr memory behind x str p y
      = (upTo 0 (str'.drop p)).map fun text => (s₁, (find (cBytes w) text).map (p + ·)) := by
  have hw : upTo 0 (w ++ 0 :: rest') = some (cBytes w) := CStrings.upTo_memory rest'
  cases htext : upTo 0 (str'.drop p) <;>
    simp [State.strstr, hconst, hstr, hneedle.cell hy, htext, hw]

/-- **Before a search**: the string is where it was, and its memory is known; the end of the needle is
    behind its bytes; `result`, which is the variable `r`, has certain bytes. -/
structure State.Replacing (behind : ℕ → Behind) (x y z r : ℕ) (str : Cell)
    (v w u rest : List UInt8) (vs : Values) (s : State) (acc : List UInt8) : Prop where
  fresh : x ≠ r ∧ y ≠ r ∧ z ≠ r
  shown : vs.at x = some v ∧ vs.at z = some u
  room : r < vs.length
  shows : s.Shows (vs.set r (some acc))
  this : s.get x = some str
  text : s.InMemory behind x v rest
  needle : ∃ rest', s.InMemory behind y w (0 :: rest')

lemma State.Replacing.result (h : State.Replacing behind x y z r str v w u rest vs s acc) :
    s.Value r acc :=
  h.shows.value r acc (by rw [Values.at_set _ h.room, if_pos rfl])

lemma State.Replacing.replacement (h : State.Replacing behind x y z r str v w u rest vs s acc) :
    s.Value z u :=
  h.shows.value z u (by rw [Values.at_set _ h.room, if_neg h.fresh.2.2, h.shown.2])

/-- Writing to `result` leaves the rest. -/
lemma State.Replacing.sets {p : Data → Prop} {acc' : List UInt8}
    (h : State.Replacing behind x y z r str v w u rest vs s acc) (hsets : s.Sets r p acc' s') :
    State.Replacing behind x y z r str v w u rest vs s' acc' := by
  obtain ⟨hx, hy, -⟩ := h.fresh
  obtain ⟨rest', hneedle⟩ := h.needle
  have hshows := h.shows.set hsets.toLeaves hsets.sets
  rw [List.set_set] at hshows
  exact ⟨h.fresh, h.shown, h.room, hshows, (hsets.get x hx).trans h.this,
    h.text.leaves hsets.toLeaves hx, rest', hneedle.leaves hsets.toLeaves hy⟩

/-- Bytes of the memory are appended to `result`. -/
lemma State.Replacing.appendFrom (h : State.Replacing behind x y z r str v w u rest vs s acc)
    {length : ℕ} {piece : List UInt8} (hpiece : take ((v ++ rest).drop p) length = some piece) :
    ∃ s', s.appendFrom memory behind r x str p length = some s'
      ∧ State.Replacing behind x y z r str v w u rest vs s' (acc ++ piece) := by
  obtain ⟨s', hstep, hsets⟩ := step_appendBytes memory h.shows.sound piece h.result
  exact ⟨s', by simp [State.appendFrom, h.text.cell h.this, hpiece, hstep], h.sets hsets⟩

/-- Searching changes nothing. -/
lemma State.Replacing.strstr (h : State.Replacing behind x y z r str v w u rest vs s acc) (p : ℕ) :
    s.strstr memory behind x str p y
      = (upTo 0 ((v ++ rest).drop p)).map fun text => (s, (find (cBytes w) text).map (p + ·)) := by
  obtain ⟨rest', hneedle⟩ := h.needle
  obtain ⟨s₁, this, rest₁, hconst, hy, -, -, hsame, -⟩ :=
    constChars_spec memory h.shows.sound hneedle
  obtain ⟨rfl, -⟩ := hsame rfl
  exact strstr_run memory hconst hy hneedle (h.text.cell h.this) p

/-- The rest of the loop from a search on -/
def State.goOn (behind : ℕ → Behind) (x y z r : ℕ) (str : Cell) (w str' : List UInt8) (n : ℕ)
    (s : State) (p : ℕ) : Option State :=
  (upTo 0 (str'.drop p)).bind fun text =>
    match find (cBytes w) text with
    | none => s.replaceEnd memory behind x r str p
    | some i => State.replaceLoop memory behind x y z r str n s p (p + i)

/-- **One round of the loop**, and what is left to do -/
lemma State.Replacing.loop_succ (h : State.Replacing behind x y z r str v w u rest vs s acc)
    (htext : upTo 0 ((v ++ rest).drop p) = some text) (hfind : find (cBytes w) text = some i) :
    ∃ s₁, State.Replacing behind x y z r str v w u rest vs s₁ (acc ++ ((v ++ rest).drop p).take i ++ u)
      ∧ ∀ n, State.replaceLoop memory behind x y z r str (n + 1) s p (p + i)
        = s₁.goOn memory behind x y z r str w (v ++ rest) n (p + i + w.length) := by
  obtain ⟨s₁, hpiece, h₁⟩ := h.appendFrom memory (take_piece htext hfind)
  obtain ⟨s₂, hstep, hsets⟩ := step_append memory h₁.shows.sound h₁.result h₁.replacement
  have h₂ := h₁.sets hsets
  obtain ⟨rest', needle, hneedle, hlen, -⟩ := h₂.needle
  refine ⟨s₂, h₂, fun n => ?_⟩
  rw [State.replaceLoop, Nat.add_sub_cancel_left]
  simp only [hpiece, hstep, hneedle, hlen, h₂.strstr memory, Option.bind_eq_bind, Option.bind_some,
    State.goOn]
  cases htext : upTo 0 ((v ++ rest).drop (p + i + w.length)) with
  | none => rfl
  | some text => cases hfind : find (cBytes w) text <;> simp [hfind]

/-- The last round gives the string what is in `result` and the rest of the bytes, if there are any. -/
lemma State.Replacing.replaceEnd (h : State.Replacing behind x y z r str v w u rest vs s acc)
    (hp : p ≤ v.length) : ∃ s' acc', s.replaceEnd memory behind x r str p = some s'
      ∧ s'.Shows ((vs.set x (some (acc ++ v.drop p))).set r (some acc')) := by
  have hrest : take ((v ++ rest).drop p) (v.length - p) = some (v.drop p) := by
    have hbegins : v.drop p <+: (v ++ rest).drop p := by
      rw [List.drop_append_of_le_length hp]
      exact List.prefix_append _ _
    have htake := take_eq hbegins
    rwa [List.length_drop] at htake
  obtain ⟨s₁, hpiece, h₁⟩ := h.appendFrom memory hrest
  obtain ⟨s₂, hstep, hsets⟩ := step_assign memory h₁.shows.sound h₁.text.value h₁.result
    (p := fun _ => True) (fun _ _ _ _ _ _ => trivial) fun _ _ => trivial
  obtain ⟨c, hx, hlen, -⟩ := h.text
  obtain rfl := Option.some.inj (hx.symm.trans h.this)
  have hshows := h₁.shows.set hsets.toLeaves hsets.sets
  rw [List.set_comm _ _ (Ne.symm h.fresh.1)] at hshows
  exact ⟨s₂, _, by simp [State.replaceEnd, hx, hlen, hp, hpiece, hstep], hshows⟩

/-- The last round is possible only there. -/
lemma State.Replacing.le_of_replaceEnd (h : State.Replacing behind x y z r str v w u rest vs s acc)
    (hrun : s.replaceEnd memory behind x r str p = some s') : p ≤ v.length := by
  obtain ⟨c, hx, hlen, -⟩ := h.text
  refine Nat.not_lt.mp fun hp => ?_
  simp [State.replaceEnd, hx, hlen, Nat.not_le.mpr hp] at hrun

/-! ## The loop -/

/-- **The loop ends** if the search is confined, with each match replaced. -/
theorem goOn_confined (hconfined : Confined w v.length (v ++ rest) p) : ∀ {s : State}
    {acc : List UInt8}, State.Replacing behind x y z r str v w u rest vs s acc →
      ∃ out acc' s', Replaced w u v p out
        ∧ s'.Shows ((vs.set x (some (acc ++ out))).set r (some acc'))
        ∧ Returns (fun n => s.goOn memory behind x y z r str w (v ++ rest) n p) s' := by
  -- each match that the search finds
  induction hconfined with
  | @last p text hp htext hfind =>
    intro s acc h
    obtain ⟨s', acc', hlast, hshows⟩ := h.replaceEnd memory hp
    exact ⟨_, acc', s', .last (find_string_none hp htext hfind), hshows, .stop fun n => by
      simp [State.goOn, htext, hfind, hlast]⟩
  | @next p i text htext hfind hconfined ih =>
    intro s acc h
    have hle := hconfined.le
    obtain ⟨s₁, h₁, hloop⟩ := h.loop_succ memory htext hfind
    obtain ⟨out, acc', s', hreplaced, hshows, hrun⟩ := ih h₁
    have hpiece : ((v ++ rest).drop p).take i = (v.drop p).take i := by
      rw [List.drop_append_of_le_length (by omega),
        List.take_append_of_le_length (by rw [List.length_drop]; omega)]
    refine ⟨_, acc', s', .next (find_string_some hle htext hfind) hreplaced, ?_,
      hrun.next fun n => ?_⟩
    · rw [hpiece] at hshows
      simpa only [List.append_assoc] using hshows
    · rw [State.goOn, htext]
      simp only [Option.bind_some, hfind]
      rw [hloop n]

/-- **Only then**: if the loop ends, the search is confined. -/
theorem confined_of_goOn {n : ℕ} : ∀ {s s' : State} {acc : List UInt8} {p : ℕ},
    State.Replacing behind x y z r str v w u rest vs s acc →
      s.goOn memory behind x y z r str w (v ++ rest) n p = some s' →
        Confined w v.length (v ++ rest) p := by
  induction n with
  | zero =>
    intro s s' acc p h hrun
    obtain ⟨text, htext, hrun⟩ := Option.bind_eq_some_iff.mp hrun
    cases hfind : find (cBytes w) text with
    | none => exact .last (h.le_of_replaceEnd memory (by rwa [hfind] at hrun)) htext hfind
    | some i =>
      rw [hfind] at hrun
      exact nomatch hrun
  | succ n ih =>
    intro s s' acc p h hrun
    obtain ⟨text, htext, hrun⟩ := Option.bind_eq_some_iff.mp hrun
    cases hfind : find (cBytes w) text with
    | none => exact .last (h.le_of_replaceEnd memory (by rwa [hfind] at hrun)) htext hfind
    | some i =>
      rw [hfind] at hrun
      obtain ⟨s₁, h₁, hloop⟩ := h.loop_succ memory htext hfind
      exact .next htext hfind (ih h₁ ((hloop n).symm.trans hrun))

/-! ## Before and behind the loop -/

/-- **`result` is constructed**, if something is found. -/
lemma replace_run {s₁ : State} {needle : Cell} {rest' : List UInt8} (hstr : s.get x = some str)
    (hconst : s.constChars memory behind y = some (s₁, needle)) (hy₁ : s₁.get y = some needle)
    (h : s₁.Shows vs) (hx : vs.at x = some v) (hz : vs.at z = some u)
    (hcell : memoryOf s₁.heap (behind x) str = some (v ++ rest))
    (hneedle : s₁.InMemory behind y w (0 :: rest')) : ∃ s₂,
      State.Sets ⟨s₁.heap, s₁.vars ++ [none]⟩ vs.length Data.Ended [] s₂
      ∧ ∀ n, s.replace memory behind x y z n = (upTo 0 (v ++ rest)).bind fun text =>
        match find (cBytes w) text with
        | none => some s₁
        | some i => (do
            let s ← State.replaceLoop memory behind x y z vs.length str n s₂ 0 i
            let s ← step memory s (.destroy vs.length)
            some (⟨s.heap, s.vars.take vs.length⟩ : State)) := by
  obtain ⟨this, hthis, hlen, -⟩ := h.sound.value_iff.mp (h.value x v hx)
  obtain ⟨replacement, hreplacement, hlen', -⟩ := h.sound.value_iff.mp (h.value z u hz)
  have hsound : State.Sound ⟨s₁.heap, s₁.vars ++ [none]⟩ := h.push.sound
  have hroom : (s₁.vars ++ [none])[vs.length]? = some none := by
    rw [← h.length, List.getElem?_append_right (Nat.le_refl _), Nat.sub_self]
    rfl
  obtain ⟨heap, this', hrun, hsets⟩ := hsound.sets hroom
    (ofCapacity_yields memory (v.length + u.length * 10) (hsound.at hroom) hsound.wf)
  refine ⟨_, hsets, fun n => ?_⟩
  have hstep : step memory ⟨s₁.heap, s₁.vars ++ [none]⟩
      (.construct vs.length (.ofCapacity (v.length + u.length * 10)))
        = some ⟨heap, (s₁.vars ++ [none]).set vs.length (some this')⟩ := by
    simp [step, hroom, Init.run, hrun]
  have hfind := strstr_run memory hconst hy₁ hneedle hcell 0
  rw [List.drop_zero] at hfind
  rw [State.replace, hstr]
  simp only [Option.bind_eq_bind, Option.bind_some, hfind]
  cases htext : upTo 0 (v ++ rest) with
  | none => rfl
  | some text =>
    cases hfound : find (cBytes w) text with
    | none => simp [hfound]
    | some i =>
      simp only [Option.map_some, Option.bind_some, hfound, hthis, hlen, hreplacement, hlen',
        h.length, Usize.unbounded_wrap, hstep, Nat.zero_add]

/-- **Before the first round** -/
lemma replacing_first {s₁ s₂ : State} {p : Data → Prop} {rest' : List UInt8} (h : s₁.Shows vs)
    (hsets : State.Sets ⟨s₁.heap, s₁.vars ++ [none]⟩ vs.length p [] s₂)
    (hx : vs.at x = some v) (hy : vs.at y = some w) (hz : vs.at z = some u)
    (hx₁ : s₁.get x = some str) (hmemory : s₁.InMemory behind x v rest)
    (hneedle : s₁.InMemory behind y w (0 :: rest')) :
    State.Replacing behind x y z vs.length str v w u rest (vs ++ [none]) s₂ [] := by
  have hxr := Nat.ne_of_lt (Values.lt_of_at hx)
  have hyr := Nat.ne_of_lt (Values.lt_of_at hy)
  refine ⟨⟨hxr, hyr, Nat.ne_of_lt (Values.lt_of_at hz)⟩,
    ⟨Values.at_append hx, Values.at_append hz⟩, by simp, h.push.set hsets.toLeaves hsets.sets, ?_,
    (State.inMemory_push.mpr hmemory).leaves hsets.toLeaves hxr, rest',
    (State.inMemory_push.mpr hneedle).leaves hsets.toLeaves hyr⟩
  rw [hsets.get x hxr, State.get_push]
  exact hx₁

/-! ## Strings that are detached -/

/-- A string that alone has its block keeps it. -/
lemma detach_stays {this : Cell} (hs : s.Sound) (hv : s.Value x v) (hx : s.get x = some this)
    (hfits : this.Fits s.heap v.length) (h : step memory s (.op x .detach) = some s') :
    s'.get x = some this := by
  obtain ⟨data', hdetach, hx'⟩ := get_detached memory hx h
  obtain ⟨c, hc, hlen, -⟩ := hs.value_iff.mp hv
  obtain rfl := Option.some.inj (hx.symm.trans hc)
  obtain ⟨data, content, rfl, hb, hroom⟩ := hfits
  simp only [detachAll, hlen, detach, hb, Option.bind_eq_bind, Option.bind_some, hroom, and_self,
    if_true] at hdetach
  obtain ⟨heap, -, hsame⟩ := Option.bind_eq_some_iff.mp hdetach
  obtain ⟨-, rfl⟩ := Prod.mk.inj (Option.some.inj hsame)
  exact hx'

/-- The block of a string that does not alone have it is that of another one, too. -/
lemma State.Sound.shared (hs : s.Sound) {data : ℕ} (hv : s.Value x v)
    (hx : s.get x = some (.block data)) (hfits : ¬ (Cell.block data).Fits s.heap v.length) :
    ∃ k, k ≠ x ∧ s.get k = some (.block data) := by
  obtain ⟨c, hc, hshows⟩ := hs.value_iff.mp hv
  obtain rfl := Option.some.inj (hx.symm.trans hc)
  obtain ⟨⟨ref, content⟩, hb⟩ := hs.live hx data (List.mem_singleton_self data)
  have hmem : data ∈ s.rest x := by
    by_contra hnot
    have hcount := (hs.roots hx).count data
    have hnone : s.heap.pointers = [] := by
      refine List.flatMap_eq_nil_iff.mpr fun b _ => ?_
      cases b <;> rfl
    rw [Heap.ref_of_get? hb, hnone, Cell.pointers, List.singleton_append, List.count_cons_self,
      List.count_eq_zero_of_not_mem hnot] at hcount
    refine hfits ⟨data, content, rfl, ?_, ?_⟩
    · rw [hb, show ref = 1 from hcount]
    · have hok := (hs.wf data _ hb).len
      rwa [(hshows.block hb).1] at hok
  obtain ⟨c, hc, ha⟩ := List.mem_flatMap.mp hmem
  obtain ⟨k, hk, hget⟩ := List.mem_eraseIdx_iff_getElem?.mp hc
  cases c with
  | none => exact absurd ha List.not_mem_nil
  | some c =>
    cases c with
    | empty => exact absurd ha List.not_mem_nil
    | attached str => exact absurd ha List.not_mem_nil
    | block other =>
      obtain rfl := List.mem_singleton.mp ha
      exact ⟨k, hk, by rw [State.get, hget]; rfl⟩

/-- Any other string gets a new block, and what it pointed to is still in memory. -/
lemma detach_away {this : Cell} (hs : s.Sound) (hv : s.Value x v) (hx : s.get x = some this)
    (hfits : ¬ this.Fits s.heap v.length) (hleaves : s.Leaves x s')
    (h : step memory s (.op x .detach) = some s') :
    s'.get x ≠ some this ∧ ∀ b, memoryOf s'.heap b this = memoryOf s.heap b this := by
  obtain ⟨data', hdetach, hx'⟩ := get_detached memory hx h
  rw [hx']
  cases this with
  | empty => exact ⟨fun h => Cell.noConfusion (Option.some.inj h), fun _ => rfl⟩
  | attached str => exact ⟨fun h => Cell.noConfusion (Option.some.inj h), fun _ => rfl⟩
  | block data =>
    obtain ⟨k, hk, hother⟩ := hs.shared hv hx hfits
    have hother' := (hleaves.get k hk).trans hother
    obtain ⟨w, hw⟩ := hs.value hother
    obtain ⟨c, rest, hmemory⟩ := hs.inMemory (fun _ => ⟨0, []⟩) hw
    refine ⟨fun hsame => ?_, fun b => ?_⟩
    · obtain rfl : data' = data := by injection Option.some.inj hsame
      obtain ⟨c, hc, hshows⟩ := hs.value_iff.mp hv
      obtain rfl := Option.some.inj (hx.symm.trans hc)
      obtain ⟨h₁, data₁, d, hrun, hb, -⟩ := detachAll_spec memory (hs.roots hx) hs.wf hshows
      obtain ⟨rfl, rfl⟩ := Prod.mk.inj (Option.some.inj (hdetach.symm.trans hrun))
      exact ((hleaves.sound.roots hx').unshared hb rfl).1
        (Heap.mem_roots_of_ne hk (State.vars_of_get hother') (List.mem_singleton_self _))
    · exact ((hmemory.leaves hleaves hk).cell hother').trans (hmemory.cell hother).symm

/-- If the string itself is the needle and has got a new block, the loop does not end. -/
lemma loop_moved {rest : List UInt8} (n : ℕ) : ∀ {s : State} {p found : ℕ}, s.Sound →
    s.get x ≠ some str → s.InMemory behind x v (0 :: rest) → x ≠ r →
      State.replaceLoop memory behind x x z r str n s p found = none := by
  induction n with
  | zero => exact fun _ _ _ _ => rfl
  | succ n ih =>
    intro s p found hs hmoved hmemory hxr
    refine Option.eq_none_iff_forall_not_mem.mpr fun s' hrun => ?_
    obtain ⟨bytes, s₁, s₂, s₃, needle, hpiece, hreplacement, hconst, hlater⟩ :=
      State.replaceLoop_of_some hrun
    have hleaves₁ : s.Leaves r s₁ := hs.leaves_of_step memory hpiece
    have hleaves : s.Leaves r s₂ :=
      hleaves₁.trans (hleaves₁.sound.leaves_of_step memory hreplacement)
    have hmemory₂ := hmemory.leaves hleaves hxr
    have hmoved₂ : s₂.get x ≠ some str := by rwa [hleaves.get x hxr]
    -- the end of the needle is behind its bytes, so that the search changes nothing
    obtain ⟨s₃', needle', _, hconst', -, -, -, hsame, -⟩ :=
      constChars_spec memory hleaves.sound hmemory₂
    rw [(hsame rfl).1] at hconst'
    obtain ⟨rfl, -⟩ := Prod.mk.inj (Option.some.inj (hconst.symm.trans hconst'))
    rcases hlater with ⟨p, hend⟩ | ⟨p, found, hloop⟩
    · exact hmoved₂ (State.replaceEnd_of_some hend).1
    · have hnone := @ih s₃ p found hleaves.sound hmoved₂ hmemory₂ hxr
      exact nomatch hnone.symm.trans hloop

/-! ## When `replace` returns -/

/-- **When the search of `replace` is confined** to the string, whatever is behind it: another needle is
    looked for in memory as it is; a string that is its own needle must have its end behind its bytes or
    get it in place. -/
def State.Confines (behind : ℕ → Behind) (s : State) (x y : ℕ) (v w : List UInt8) : Prop :=
  ∃ c rest, s.InMemory behind x v (c :: rest)
    ∧ ((y ≠ x ∧ Confined w v.length (v ++ c :: rest) 0)
      ∨ (y = x ∧ (c = 0 ∨ ∃ this, s.get x = some this ∧ this.Fits s.heap v.length)
        ∧ Confined v v.length (v ++ [0]) 0))

/-- **The first search**: the string is where it was, and the search of its memory is confined. -/
lemma State.Confines.start (h : s.Shows vs) (hx : vs.at x = some v) (hy : vs.at y = some w)
    (hstr : s.get x = some str) (hconf : s.Confines behind x y v w) :
    ∃ s₁ needle rest rest', s.constChars memory behind y = some (s₁, needle)
      ∧ s₁.get y = some needle ∧ s₁.Shows vs ∧ s₁.get x = some str ∧ s₁.InMemory behind x v rest
      ∧ s₁.InMemory behind y w (0 :: rest') ∧ Confined w v.length (v ++ rest) 0 := by
  obtain ⟨d, rest', hneedle⟩ := h.sound.inMemory behind (h.value y w hy)
  obtain ⟨s₁, needle, rest₁, hconst, hy₁, hleaves, hneedle₁, hsame, hdetach⟩ :=
    constChars_spec memory h.sound hneedle
  have h₁ := h.keep hy hleaves hneedle₁.value
  obtain ⟨c, rest, hmemory, ⟨hyx, hconf⟩ | ⟨rfl, hor, hconf⟩⟩ := hconf
  · have hxy : x ≠ y := Ne.symm hyx
    exact ⟨s₁, needle, c :: rest, rest₁, hconst, hy₁, h₁, (hleaves.get x hxy).trans hstr,
      hmemory.leaves hleaves hxy, hneedle₁, hconf⟩
  · obtain rfl := Option.some.inj (hx.symm.trans hy)
    refine ⟨s₁, needle, 0 :: rest₁, rest₁, hconst, hy₁, h₁, ?_, hneedle₁, hneedle₁, hconf.ended⟩
    have hcd : d = c := by
      have heq := (hneedle.cell hstr).symm.trans (hmemory.cell hstr)
      exact (List.cons.inj (List.append_cancel_left (Option.some.inj heq))).1
    subst hcd
    rcases hor with hzero | ⟨this, hthis, hfits⟩
    · rw [(hsame hzero).1]
      exact hstr
    · obtain rfl := Option.some.inj (hstr.symm.trans hthis)
      by_cases hzero : d = 0
      · rw [(hsame hzero).1]
        exact hstr
      · exact detach_stays memory h.sound (h.value _ v hx) hstr hfits (hdetach hzero)

/-- **`replace` returns** if its search is confined, with each match replaced. -/
theorem State.Shows.replace (h : s.Shows vs) (hx : vs.at x = some v) (hy : vs.at y = some w)
    (hz : vs.at z = some u) (hconf : s.Confines behind x y v w) : ∃ out s', Replaced w u v 0 out
      ∧ s'.Shows (vs.set x (some out)) ∧ Returns (s.replace memory behind x y z) s' := by
  obtain ⟨str, hstr, -⟩ := h.sound.value_iff.mp (h.value x v hx)
  obtain ⟨s₁, needle, rest, rest', hconst, hy₁, h₁, hx₁, hmemory, hneedle, hconfined⟩ :=
    hconf.start memory h hx hy hstr
  obtain ⟨s₂, hsets, hreplace⟩ :=
    replace_run memory hstr hconst hy₁ h₁ hx hz (hmemory.cell hx₁) hneedle
  have hfirst := replacing_first h₁ hsets hx hy hz hx₁ hmemory hneedle
  obtain ⟨out, acc', s₃, hreplaced, h₃, k, hrun⟩ := goOn_confined memory hconfined hfirst
  obtain ⟨text, htext⟩ : ∃ text, upTo 0 (v ++ rest) = some text := by
    cases hconfined with
    | last _ htext _ => exact ⟨_, htext⟩
    | next htext _ _ => exact ⟨_, htext⟩
  cases hfind : find (cBytes w) text with
  | none =>
    have hnone : out = v := by
      have hlast : find (cBytes w) (cBytes (v.drop 0)) = none :=
        find_string_none (Nat.zero_le _) htext hfind
      exact hreplaced.unique (.last hlast)
    refine ⟨out, s₁, hreplaced, ?_, 0, fun n _ => by simp [hreplace n, htext, hfind]⟩
    rw [hnone]
    exact h₁.set (h₁.sound.leaves_self x) (h₁.value x v hx)
  | some i =>
    have hlt := Values.lt_of_at hx
    have hsplit : ((vs ++ [none]).set x (some ([] ++ out))).set vs.length (some acc')
        = vs.set x (some out) ++ [some acc'] := by
      rw [List.set_append_left _ _ hlt, List.set_append_right _ _ (by simp)]
      simp
    rw [hsplit] at h₃
    obtain ⟨s₄, hpop, h₄⟩ := h₃.pop memory
    rw [List.length_set] at hpop
    refine ⟨out, s₄, hreplaced, h₄, k, fun n hn => ?_⟩
    have hloop := hrun n hn
    simp only [State.goOn, List.drop_zero, htext, Option.bind_some, hfind, Nat.zero_add] at hloop
    rw [hreplace n, htext]
    simp only [Option.bind_some, hfind, hloop, Option.bind_eq_bind]
    exact hpop

/-- If `replace` returns and the string stays where it was, the search is confined. -/
lemma confined_of_replace {n : ℕ} {s₁ : State} {needle : Cell} {rest' : List UInt8}
    (hstr : s.get x = some str) (hconst : s.constChars memory behind y = some (s₁, needle))
    (hy₁ : s₁.get y = some needle) (h₁ : s₁.Shows vs) (hx : vs.at x = some v)
    (hy : vs.at y = some w) (hz : vs.at z = some u) (hx₁ : s₁.get x = some str)
    (hmemory : s₁.InMemory behind x v rest) (hneedle : s₁.InMemory behind y w (0 :: rest'))
    (hrun : s.replace memory behind x y z n = some s') : Confined w v.length (v ++ rest) 0 := by
  obtain ⟨s₂, hsets, hreplace⟩ :=
    replace_run memory hstr hconst hy₁ h₁ hx hz (hmemory.cell hx₁) hneedle
  have hfirst := replacing_first h₁ hsets hx hy hz hx₁ hmemory hneedle
  rw [hreplace n] at hrun
  obtain ⟨text, htext, hrun⟩ := Option.bind_eq_some_iff.mp hrun
  cases hfind : find (cBytes w) text with
  | none => exact .last (Nat.zero_le _) htext hfind
  | some i =>
    rw [hfind] at hrun
    obtain ⟨s₃, hloop, -⟩ := Option.bind_eq_some_iff.mp hrun
    have hgo : s₂.goOn memory behind x y z vs.length str w (v ++ rest) n 0 = some s₃ := by
      rw [State.goOn, List.drop_zero, htext]
      simp only [Option.bind_some, hfind, Nat.zero_add]
      exact hloop
    exact confined_of_goOn memory hfirst hgo

/-- A string that is its own needle and gets a new block is not replaced. -/
lemma replace_moved {n : ℕ} {s₁ : State} {needle : Cell} {rest' : List UInt8}
    (hstr : s.get x = some str) (hconst : s.constChars memory behind x = some (s₁, needle))
    (hx₁ : s₁.get x = some needle) (h₁ : s₁.Shows vs) (hx : vs.at x = some v)
    (hz : vs.at z = some u) (hmoved : s₁.get x ≠ some str)
    (hcell : memoryOf s₁.heap (behind x) str = some (v ++ rest))
    (hneedle : s₁.InMemory behind x v (0 :: rest')) : s.replace memory behind x x z n = none := by
  obtain ⟨s₂, hsets, hreplace⟩ := replace_run memory hstr hconst hx₁ h₁ hx hz hcell hneedle
  have hxr := Nat.ne_of_lt (Values.lt_of_at hx)
  have hmoved₂ : s₂.get x ≠ some str := by rwa [hsets.get x hxr, State.get_push]
  rw [hreplace n]
  cases htext : upTo 0 (v ++ rest) with
  | none => rfl
  | some text =>
    obtain ⟨extra, rfl, -⟩ := text_eq (p := 0) (Nat.zero_le _) htext
    have hfound := Texts.find_of_prefix (List.prefix_append (cBytes v) extra)
    have hnone : State.replaceLoop memory behind x x z vs.length str n s₂ 0 0 = none :=
      loop_moved memory n hsets.sound hmoved₂
        ((State.inMemory_push.mpr hneedle).leaves hsets.toLeaves hxr) hxr
    simp only [List.drop_zero, Option.bind_some, hfound, hnone, Option.bind_eq_bind,
      Option.bind_none]

/-- **Only then**: if `replace` returns, its search is confined. -/
theorem confines_of_replace {n : ℕ} (h : s.Shows vs) (hx : vs.at x = some v)
    (hy : vs.at y = some w) (hz : vs.at z = some u)
    (hrun : s.replace memory behind x y z n = some s') : s.Confines behind x y v w := by
  obtain ⟨str, hstr, -⟩ := h.sound.value_iff.mp (h.value x v hx)
  obtain ⟨d, rest', hneedle⟩ := h.sound.inMemory behind (h.value y w hy)
  obtain ⟨s₁, needle, rest₁, hconst, hy₁, hleaves, hneedle₁, hsame, hdetach⟩ :=
    constChars_spec memory h.sound hneedle
  have h₁ := h.keep hy hleaves hneedle₁.value
  by_cases hyx : y = x
  · subst hyx
    obtain rfl := Option.some.inj (hx.symm.trans hy)
    have hstays : d = 0 ∨ str.Fits s.heap v.length → s₁.get y = some str := by
      intro hor
      by_cases hzero : d = 0
      · rw [(hsame hzero).1]
        exact hstr
      · exact detach_stays memory h.sound (h.value _ v hx) hstr (hor.resolve_left hzero)
          (hdetach hzero)
    by_cases hor : d = 0 ∨ str.Fits s.heap v.length
    · have hconf := confined_of_replace memory hstr hconst hy₁ h₁ hx hx hz (hstays hor) hneedle₁
        hneedle₁ hrun
      exact ⟨d, rest', hneedle, .inr ⟨rfl, hor.imp_right fun hfits => ⟨str, hstr, hfits⟩,
        hconf.ended⟩⟩
    · obtain ⟨hzero, hfits⟩ := not_or.mp hor
      obtain ⟨hmoved, hkept⟩ :=
        detach_away memory h.sound (h.value _ v hx) hstr hfits hleaves (hdetach hzero)
      have hcell := (hkept (behind y)).trans (hneedle.cell hstr)
      rw [replace_moved memory hstr hconst hy₁ h₁ hx hz hmoved hcell hneedle₁] at hrun
      exact nomatch hrun
  · have hxy : x ≠ y := Ne.symm hyx
    obtain ⟨c, rest, hmemory⟩ := h.sound.inMemory behind (h.value x v hx)
    have hconf := confined_of_replace memory hstr hconst hy₁ h₁ hx hy hz
      ((hleaves.get x hxy).trans hstr) (hmemory.leaves hleaves hxy) hneedle₁ hrun
    exact ⟨c, rest, hmemory, .inl ⟨hyx, hconf⟩⟩

end Nstd.Strings
