import Nstd.Core.RefHeap

/-!
# Which blocks outlive a release

* `Counted` — every count is right, as in `Sound`; blocks may lead to each other in circles, and there
  may be blocks that were never counted.
* `Held` — a block that something other than the given up pointers keeps.
* **`Counted.release`** — giving up pointers succeeds and keeps the counts right.
* **`Counted.release_iff`** — what is still there after that: the held blocks.
* `Denotes.not_reach`, `Sound.held_of_cons` — where blocks have values they do not lead to themselves,
  and do not keep the blocks that lead to them.
-/

namespace Nstd.Heap

variable {C V : Type} [Content C V]

/-- Every count is right if `roots` are the pointers from outside. -/
def Counted (roots : List ℕ) (h : Heap C) : Prop :=
  ∀ a, h.ref a = roots.count a + h.pointers.count a

/-- **A block that is kept**: it is in a set of blocks each of which a root or a block of the set points
    to, unless it was never counted at all. -/
def Held (roots : List ℕ) (h : Heap C) (a : ℕ) : Prop :=
  ∃ K : ℕ → Prop, K a ∧ ∀ b, K b → (∃ x, h.get? b = some x) ∧
    (b ∈ roots ∨ h.ref b = 0 ∨ ∃ c x, K c ∧ h.get? c = some x ∧ b ∈ Content.pointers x.content)

lemma Sound.counted {roots : List ℕ} {h : Heap C} (hs : Sound roots h) : h.Counted roots := hs.count

lemma Counted.perm {roots roots' : List ℕ} {h : Heap C} (hs : h.Counted roots)
    (hperm : roots.Perm roots') : h.Counted roots' := fun a => by rw [hs a, hperm.count_eq]

/-- Writing a block keeps the counts right if they add up. -/
lemma Counted.write {roots roots' : List ℕ} {h : Heap C} (hs : h.Counted roots) {a : ℕ}
    (ha : a < h.blocks.length) {x : Option (Block C)}
    (hother : ∀ p, p ≠ a → roots'.count p + (pointersOf x).count p =
      roots.count p + (pointersOf (h.get? a)).count p)
    (hself : roots'.count a + (pointersOf x).count a + h.ref a =
      roots.count a + (pointersOf (h.get? a)).count a + x.elim 0 Block.ref) :
    (h.write a x).Counted roots' := by
  intro p
  have hold := hs p
  have hpointers := count_pointers_write ha x p
  by_cases hp : p = a
  · subst hp
    have href : (h.write p x).ref p = x.elim 0 Block.ref := by rw [ref, get?_write ha]
    omega
  · have href : (h.write a x).ref p = h.ref p := by rw [ref, ref, get?_write_of_ne hp]
    have := hother p hp
    omega

/-- One more pointer to a block -/
lemma Counted.increment {a : ℕ} {b : Block C} {roots : List ℕ} {h : Heap C} (hs : h.Counted roots)
    (hb : h.get? a = some b) :
    ∃ h', h.increment a = some h' ∧ h'.Counted (a :: roots) ∧ SameContent h h' := by
  refine ⟨_, by rw [Heap.increment, hb]; rfl, hs.write (lt_of_get? hb) (fun p hp => ?_) ?_,
    sameContent_write hb (b.ref + 1)⟩
  · rw [List.count_cons_of_ne (Ne.symm hp), hb]
    rfl
  · simp only [List.count_cons_self, pointersOf, ref, hb, Option.elim_some]
    omega

/-- A pointer from outside is counted. -/
lemma Counted.ref_ne_zero {roots : List ℕ} {h : Heap C} (hs : h.Counted roots) {a : ℕ}
    (ha : a ∈ roots) : h.ref a ≠ 0 := by
  have hcount := hs a
  have hpos := List.count_pos_iff.mpr ha
  omega

lemma ref_of_none {h : Heap C} {a : ℕ} (hb : h.get? a = none) : h.ref a = 0 := by
  rw [ref, hb]
  rfl

/-- A pointer in a block leads to a block. -/
lemma Counted.live_of_mem {roots : List ℕ} {h : Heap C} (hs : h.Counted roots) {a : ℕ}
    (ha : a ∈ h.pointers) : ∃ b, h.get? a = some b := by
  have hcount := hs a
  have hpos := List.count_pos_iff.mpr ha
  cases hb : h.get? a with
  | none =>
    rw [ref_of_none hb] at hcount
    omega
  | some b => exact ⟨b, rfl⟩

/-- A root with a count of 1 is the only pointer to its block. -/
lemma Counted.unshared {a : ℕ} {c : C} {roots : List ℕ} {h : Heap C} (hs : h.Counted (a :: roots))
    (hb : h.get? a = some ⟨1, c⟩) : a ∉ roots ∧ a ∉ h.pointers := by
  have hcount := hs a
  have href : h.ref a = 1 := ref_of_get? hb
  rw [href, List.count_cons_self] at hcount
  constructor
  · intro ha
    have := List.count_pos_iff.mpr ha
    omega
  · intro ha
    have := List.count_pos_iff.mpr ha
    omega

/-- Nothing else keeps such a block. -/
lemma Counted.not_held {a : ℕ} {c : C} {roots : List ℕ} {h : Heap C} (hs : h.Counted (a :: roots))
    (hb : h.get? a = some ⟨1, c⟩) : ¬ h.Held roots a := by
  obtain ⟨hroots, hin⟩ := hs.unshared hb
  rintro ⟨K, ha, hK⟩
  rcases (hK a ha).2 with hroot | hzero | ⟨d, x, -, hx, hp⟩
  · exact hroots hroot
  · rw [ref_of_get? hb] at hzero
    exact absurd hzero Nat.one_ne_zero
  · exact hin (mem_pointers hx hp)

/-- The only pointer to a block is given up. -/
lemma Counted.drop {a : ℕ} {c : C} {roots : List ℕ} {h : Heap C} (hs : h.Counted (a :: roots))
    (hb : h.get? a = some ⟨1, c⟩) : (h.write a none).Counted (Content.pointers c ++ roots) := by
  obtain ⟨hroots, hin⟩ := hs.unshared hb
  refine hs.write (lt_of_get? hb) (fun p hp => ?_) ?_
  · simp only [List.count_cons_of_ne (Ne.symm hp), List.count_append, pointersOf, hb,
      Option.elim_none, Option.elim_some, List.count_nil]
    omega
  · simp only [List.count_cons_self, List.count_append, pointersOf, ref, hb, Option.elim_none,
      Option.elim_some, List.count_nil]
    omega

/-- One of several pointers to a block is given up. -/
lemma Counted.decrement {a n : ℕ} {c : C} {roots : List ℕ} {h : Heap C}
    (hs : h.Counted (a :: roots)) (hb : h.get? a = some ⟨n + 2, c⟩) :
    (h.write a (some ⟨n + 1, c⟩)).Counted roots := by
  refine hs.write (lt_of_get? hb) (fun p hp => ?_) ?_
  · rw [List.count_cons_of_ne (Ne.symm hp), hb]
    rfl
  · simp only [List.count_cons_self, pointersOf, ref, hb, Option.elim_some]
    omega

/-- What is there was there, with the same content, and was not counted if it is not. -/
def Remains (h h' : Heap C) : Prop :=
  ∀ a x', h'.get? a = some x' →
    ∃ x, h.get? a = some x ∧ x.content = x'.content ∧ (x'.ref = 0 → x.ref = 0)

lemma Remains.write {h h' : Heap C} {a : ℕ} {b : Block C} (hb : h.get? a = some b)
    {x : Option (Block C)} (hx : ∀ b', x = some b' → b.content = b'.content ∧ b'.ref ≠ 0)
    (hr : Remains (h.write a x) h') : Remains h h' := by
  intro p x' hx'
  obtain ⟨y, hy, hcontent, hzero⟩ := hr p x' hx'
  by_cases hp : p = a
  · subst hp
    rw [get?_write (lt_of_get? hb)] at hy
    obtain ⟨hsame, hne⟩ := hx y hy
    exact ⟨b, hb, hsame.trans hcontent, fun h0 => absurd (hzero h0) hne⟩
  · rw [get?_write_of_ne hp] at hy
    exact ⟨y, hy, hcontent, hzero⟩

/-- **Giving up pointers** succeeds and keeps the counts right. -/
theorem Counted.release {as roots : List ℕ} {h : Heap C} (hs : h.Counted (as ++ roots)) :
    ∃ h', h.release as = some h' ∧ h'.Counted roots ∧ Remains h h' := by
  induction h, as using Heap.release.induct with
  | case1 h => exact ⟨h, release_nil h, hs, fun a x hx => ⟨x, hx, rfl, id⟩⟩
  | case2 h a as hb => exact absurd (ref_of_none hb) (hs.ref_ne_zero List.mem_cons_self)
  | case3 h a as c hb => exact absurd (ref_of_get? hb) (hs.ref_ne_zero List.mem_cons_self)
  | case4 h a as c hb ih =>
    rw [List.cons_append] at hs
    have hdrop := hs.drop hb
    rw [← List.append_assoc] at hdrop
    obtain ⟨h', hrun, hs', hremains⟩ := ih hdrop
    refine ⟨h', (release_one hb as).trans hrun, hs', hremains.write hb ?_⟩
    rintro b' ⟨⟩
  | case5 h a as n c hb ih =>
    obtain ⟨h', hrun, hs', hremains⟩ := ih (hs.decrement hb)
    refine ⟨h', (release_succ hb as).trans hrun, hs', hremains.write hb ?_⟩
    rintro b' ⟨⟩
    exact ⟨rfl, Nat.succ_ne_zero n⟩

/-- Blocks that are held are still there. -/
lemma Counted.release_held {as roots : List ℕ} {h h' : Heap C} (hs : h.Counted (as ++ roots))
    (hrun : h.release as = some h') {a : ℕ} (ha : h.Held roots a) : ∃ x, h'.get? a = some x := by
  induction h, as using Heap.release.induct with
  | case1 h =>
    obtain rfl := Option.some.inj ((release_nil h).symm.trans hrun)
    obtain ⟨K, ha, hK⟩ := ha
    exact (hK a ha).1
  | case2 h p as hb => exact absurd (ref_of_none hb) (hs.ref_ne_zero List.mem_cons_self)
  | case3 h p as c hb => exact absurd (ref_of_get? hb) (hs.ref_ne_zero List.mem_cons_self)
  | case4 h p as c hb ih =>
    rw [List.cons_append] at hs
    have hdrop := hs.drop hb
    rw [← List.append_assoc] at hdrop
    refine ih hdrop ((release_one hb as).symm.trans hrun) ?_
    obtain ⟨K, ha, hK⟩ := ha
    have hne : ∀ b, K b → b ≠ p := by
      rintro b hKb rfl
      refine hs.not_held hb ⟨K, hKb, fun d hd => ⟨(hK d hd).1, ?_⟩⟩
      exact (hK d hd).2.imp_left (List.mem_append_right as)
    refine ⟨K, ha, fun b hKb => ?_⟩
    obtain ⟨hlive, hby⟩ := hK b hKb
    rw [ref, get?_write_of_ne (hne b hKb)]
    refine ⟨hlive, hby.imp_right (Or.imp_right ?_)⟩
    rintro ⟨d, x, hd, hx, hp⟩
    exact ⟨d, x, hd, (get?_write_of_ne (hne d hd) none).trans hx, hp⟩
  | case5 h p as n c hb ih =>
    refine ih (hs.decrement hb) ((release_succ hb as).symm.trans hrun) ?_
    obtain ⟨K, ha, hK⟩ := ha
    have hlt := lt_of_get? hb
    refine ⟨K, ha, fun b hKb => ?_⟩
    obtain ⟨⟨x, hx⟩, hby⟩ := hK b hKb
    refine ⟨?_, ?_⟩
    · by_cases hbp : b = p
      · subst hbp
        exact ⟨_, get?_write hlt _⟩
      · exact ⟨x, (get?_write_of_ne hbp _).trans hx⟩
    · rcases hby with hroot | hzero | ⟨d, y, hd, hy, hp⟩
      · exact Or.inl hroot
      · refine Or.inr (Or.inl ?_)
        have hbp : b ≠ p := by
          rintro rfl
          rw [ref_of_get? hb] at hzero
          exact absurd hzero (Nat.succ_ne_zero _)
        rwa [ref, get?_write_of_ne hbp]
      · refine Or.inr (Or.inr ?_)
        by_cases hdp : d = p
        · subst hdp
          obtain rfl := Option.some.inj (hb.symm.trans hy)
          exact ⟨d, _, hd, get?_write hlt _, hp⟩
        · exact ⟨d, y, hd, (get?_write_of_ne hdp _).trans hy, hp⟩

/-- **What outlives a release** is what is held. -/
theorem Counted.release_iff {as roots : List ℕ} {h h' : Heap C} (hs : h.Counted (as ++ roots))
    (hrun : h.release as = some h') (a : ℕ) : (∃ x, h'.get? a = some x) ↔ h.Held roots a := by
  refine ⟨fun hlive => ?_, hs.release_held hrun⟩
  obtain ⟨h'', hrun', hs', hremains⟩ := hs.release
  obtain rfl := Option.some.inj (hrun.symm.trans hrun')
  -- all that is left over holds each other, as the counts are right
  refine ⟨fun b => ∃ x, h'.get? b = some x, hlive, ?_⟩
  rintro b ⟨x', hx'⟩
  obtain ⟨x, hx, -, hzero⟩ := hremains b x' hx'
  refine ⟨⟨x, hx⟩, ?_⟩
  have hcount := hs' b
  rw [ref_of_get? hx'] at hcount
  by_cases hroot : b ∈ roots
  · exact Or.inl hroot
  · rw [List.count_eq_zero_of_not_mem hroot, Nat.zero_add] at hcount
    refine Or.inr ?_
    by_cases hin : b ∈ h'.pointers
    · obtain ⟨y, hy, hb⟩ := List.mem_flatMap.mp hin
      cases y with
      | none => exact absurd hb List.not_mem_nil
      | some y =>
        obtain ⟨c, hlt, hc⟩ := List.mem_iff_getElem.mp hy
        have hc' : h'.get? c = some y :=
          get?_eq_some.mpr (List.getElem?_eq_some_iff.mpr ⟨hlt, hc⟩)
        obtain ⟨z, hz, hcontent, -⟩ := hremains c y hc'
        refine Or.inr ⟨c, z, ⟨y, hc'⟩, hz, ?_⟩
        rw [hcontent]
        exact hb
    · rw [List.count_eq_zero_of_not_mem hin] at hcount
      exact Or.inl (by rw [ref_of_get? hx, hzero hcount])

/-! ## Blocks with values -/

/-- The first step of a way along pointers -/
lemma Reach.first {h : Heap C} {p a : ℕ} (hr : Reach [p] h a) :
    a = p ∨ ∃ b q, h.get? p = some b ∧ q ∈ Content.pointers b.content ∧ Reach [q] h a := by
  induction hr with
  | root ha => exact Or.inl (List.mem_singleton.mp ha)
  | @next c a b _ hb hp ih =>
    rcases ih with rfl | ⟨x, q, hx, hq, hr⟩
    · exact Or.inr ⟨b, a, hb, hp, .root (List.mem_singleton_self a)⟩
    · exact Or.inr ⟨x, q, hx, hq, .next hr hb hp⟩

/-- A block with a value does not lead to itself. -/
lemma Denotes.not_reach {h : Heap C} {a : ℕ} {v : V} (hd : h.Denotes a v) : ∀ b, h.get? a = some b →
    ∀ p ∈ Content.pointers b.content, ¬ Reach [p] h a := by
  induction hd with
  | @block a b f hb _ ih =>
    intro b' hb' p hp hr
    obtain rfl := Option.some.inj (hb.symm.trans hb')
    rcases hr.first with rfl | ⟨x, q, hx, hq, hr⟩
    · exact ih a hp b hb a hp (.root (List.mem_singleton_self a))
    · exact ih p hp x hx q hq (.next hr hb hp)

/-- A block is not kept by what it leads to. -/
lemma Sound.held_of_cons {roots kept : List ℕ} {h : Heap C} (hs : Sound roots h) {a p : ℕ}
    {b : Block C} (hb : h.get? a = some b) (hp : p ∈ Content.pointers b.content)
    (ha : h.Held (p :: kept) a) : h.Held kept a := by
  obtain ⟨v, hd⟩ := hs.value a b hb
  obtain ⟨K, ha, hK⟩ := ha
  refine ⟨fun b => K b ∧ ¬ Reach [p] h b, ⟨ha, hd.not_reach b hb p hp⟩, ?_⟩
  rintro c ⟨hc, hnot⟩
  obtain ⟨hlive, hby⟩ := hK c hc
  refine ⟨hlive, ?_⟩
  rcases hby with hroot | hzero | ⟨d, x, hd, hx, hcx⟩
  · rcases List.mem_cons.mp hroot with rfl | hroot
    · exact absurd (.root (List.mem_singleton_self c)) hnot
    · exact Or.inl hroot
  · exact Or.inr (Or.inl hzero)
  · exact Or.inr (Or.inr ⟨d, x, ⟨hd, fun hr => hnot (.next hr hx hcx)⟩, hx, hcx⟩)

/-- Counts do not say what is held, unless they are zero. -/
lemma Held.of_sameContent {h h' : Heap C} (hsame : SameContent h h') {roots : List ℕ} {a : ℕ}
    (hzero : ∀ b, b ∉ roots → h.ref b = 0 → h'.ref b = 0) (ha : h.Held roots a) :
    h'.Held roots a := by
  obtain ⟨K, ha, hK⟩ := ha
  have hget : ∀ b x, h.get? b = some x → ∃ x', h'.get? b = some x' ∧ x'.content = x.content := by
    intro b x hx
    have hmap : (h'.get? b).map Block.content = some x.content := by rw [hsame.2, hx]; rfl
    exact Option.map_eq_some_iff.mp hmap
  refine ⟨K, ha, fun b hb => ?_⟩
  obtain ⟨⟨x, hx⟩, hby⟩ := hK b hb
  obtain ⟨x', hx', -⟩ := hget b x hx
  refine ⟨⟨x', hx'⟩, ?_⟩
  by_cases hroot : b ∈ roots
  · exact Or.inl hroot
  · rcases hby with hroot' | h0 | ⟨c, y, hc, hy, hby⟩
    · exact absurd hroot' hroot
    · exact Or.inr (Or.inl (hzero b hroot h0))
    · obtain ⟨y', hy', hcontent⟩ := hget c y hy
      exact Or.inr (Or.inr ⟨c, y', hc, hy', by rwa [hcontent]⟩)

/-- One more pointer to a root makes no difference. -/
lemma held_increment {h h' : Heap C} {a : ℕ} (hrun : h.increment a = some h') (roots : List ℕ)
    (p : ℕ) : h'.Held (a :: roots) p ↔ h.Held (a :: roots) p := by
  obtain ⟨b, hb, hwrite⟩ := Option.bind_eq_some_iff.mp hrun
  have hsame := sameContent_write hb (b.ref + 1)
  obtain rfl := Option.some.inj hwrite
  have hback : SameContent (h.write a (some ⟨b.ref + 1, b.content⟩)) h :=
    ⟨Nat.le_of_eq (List.length_set ..), fun p => (hsame.2 p).symm⟩
  have href : ∀ p, p ∉ a :: roots →
      (h.write a (some ⟨b.ref + 1, b.content⟩)).ref p = h.ref p := by
    intro p hp
    rw [ref, ref, get?_write_of_ne (List.ne_of_not_mem_cons hp)]
  exact ⟨.of_sameContent hback fun p hp h0 => (href p hp).symm.trans h0,
    .of_sameContent hsame fun p hp h0 => (href p hp).trans h0⟩

end Nstd.Heap
