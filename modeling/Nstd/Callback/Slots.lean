import Nstd.Callback.Callback

/-!
# The slots of a signal

What the operations do to the list of slots of one signal, counted by receiver and slot function.

* `liveSlots_detachFirst`, `firstLive_detachFirst` — the search that `disconnect` and `~Listener`
  share takes one live item away, if it ends at one.
* `SignalData.Settled` — items that are not connected occur only in a dirty signal that is being
  emitted, so that a search in any other signal ends at a live item.
-/

namespace Nstd.Callback

variable {F : Type} [LinearOrder F]

/-! ## Lists of slots -/

lemma refers_iff {r : ℕ} {f : F} {c : ℕ × Slot F} :
    refers r f c = true ↔ c.2.receiver = r ∧ c.2.slot = f := by
  simp [refers]

@[simp] lemma liveSlots_nil (r : ℕ) (f : F) : liveSlots r f [] = 0 := rfl

lemma liveSlots_cons (r : ℕ) (f : F) (c : ℕ × Slot F) (cs : List (ℕ × Slot F)) :
    liveSlots r f (c :: cs) = liveSlots r f cs +
      if (c.2.receiver = r ∧ c.2.slot = f) ∧ c.2.state ≠ .disconnected then 1 else 0 := by
  simp [liveSlots, List.countP_cons, refers]

@[simp] lemma liveSlots_append (r : ℕ) (f : F) (cs cs' : List (ℕ × Slot F)) :
    liveSlots r f (cs ++ cs') = liveSlots r f cs + liveSlots r f cs' :=
  List.countP_append

lemma liveSlots_pos {c : ℕ × Slot F} {cs : List (ℕ × Slot F)} (h : c ∈ cs)
    (hc : c.2.state ≠ .disconnected) : 0 < liveSlots c.2.receiver c.2.slot cs := by
  rw [liveSlots, List.countP_pos_iff]
  exact ⟨c, h, by simp [refers, hc]⟩

lemma firstLive_of_connected {r : ℕ} {f : F} {cs : List (ℕ × Slot F)}
    (h : ∀ c ∈ cs, c.2.state = .connected) : FirstLive r f cs := by
  intro c hc
  left
  rw [h c (List.mem_of_find?_eq_some hc)]
  decide

lemma firstLive_of_eq_zero {r : ℕ} {f : F} {cs : List (ℕ × Slot F)}
    (h : liveSlots r f cs = 0) : FirstLive r f cs := fun _ _ => Or.inr h

lemma firstLive_cons_of_not {r : ℕ} {f : F} {c : ℕ × Slot F} {cs : List (ℕ × Slot F)}
    (hc : ¬ (c.2.receiver = r ∧ c.2.slot = f)) : FirstLive r f (c :: cs) ↔ FirstLive r f cs := by
  have hb : refers r f c = false := by simpa [refers] using hc
  simp only [FirstLive, List.find?_cons, hb, liveSlots_cons, hc, false_and, if_false, Nat.add_zero]

lemma firstLive_cons_of_refers {r : ℕ} {f : F} {c : ℕ × Slot F} {cs : List (ℕ × Slot F)}
    (hc : c.2.receiver = r ∧ c.2.slot = f) : FirstLive r f (c :: cs) ↔
      c.2.state ≠ .disconnected ∨ liveSlots r f (c :: cs) = 0 := by
  have hb : refers r f c = true := refers_iff.mpr hc
  simp [FirstLive, hb]

/-- A search that ends at a live item takes one away, and touches no other connection. -/
lemma liveSlots_detachFirst (active : Bool) {r : ℕ} {f : F} {cs : List (ℕ × Slot F)}
    (h : FirstLive r f cs) (r' : ℕ) (f' : F) :
    liveSlots r' f' (detachFirst active r f cs) =
      liveSlots r' f' cs - if r = r' ∧ f = f' then 1 else 0 := by
  induction cs with
  | nil => simp [detachFirst]
  | cons c cs ih =>
    rw [detachFirst]
    by_cases hc : c.2.receiver = r ∧ c.2.slot = f
    · rw [if_pos (refers_iff.mpr hc)]
      have hrest : liveSlots r' f' (if active then (c.1, { c.2 with state := .disconnected }) :: cs
          else cs) = liveSlots r' f' cs := by
        cases active <;> simp [liveSlots_cons]
      rw [hrest]
      rw [firstLive_cons_of_refers hc, liveSlots_cons] at h
      rw [liveSlots_cons, hc.1, hc.2]
      grind
    · rw [if_neg (by rwa [refers_iff]), liveSlots_cons, liveSlots_cons,
        ih ((firstLive_cons_of_not hc).mp h)]
      grind

lemma detachFirst_false_sublist (r : ℕ) (f : F) (cs : List (ℕ × Slot F)) :
    (detachFirst false r f cs).Sublist cs := by
  induction cs with
  | nil => exact List.Sublist.slnil
  | cons c cs ih =>
    rw [detachFirst, if_neg Bool.false_ne_true]
    by_cases hc : refers r f c = true
    · rw [if_pos hc]
      exact List.sublist_cons_self c cs
    · rw [if_neg hc]
      exact ih.cons_cons c

lemma detachFirst_true_items (r : ℕ) (f : F) (cs : List (ℕ × Slot F)) :
    (detachFirst true r f cs).map Prod.fst = cs.map Prod.fst := by
  induction cs with
  | nil => rfl
  | cons c cs ih =>
    rw [detachFirst, if_pos rfl]
    by_cases hc : refers r f c = true
    · rw [if_pos hc, List.map_cons, List.map_cons]
    · rw [if_neg hc, List.map_cons, List.map_cons, ih]

lemma detachFirst_of_forall_not {active : Bool} {r : ℕ} {f : F} {cs : List (ℕ × Slot F)}
    (h : cs.any (refers r f) = false) : detachFirst active r f cs = cs := by
  induction cs with
  | nil => rfl
  | cons c cs ih =>
    simp only [List.any_cons, Bool.or_eq_false_iff] at h
    rw [detachFirst, if_neg (by simp [h.1]), ih h.2]

/-- The search for another pair finds what it found before. -/
lemma find?_detachFirst {active : Bool} {r r' : ℕ} {f f' : F} {cs : List (ℕ × Slot F)}
    (h : ¬ (r = r' ∧ f = f')) :
    (detachFirst active r f cs).find? (refers r' f') = cs.find? (refers r' f') := by
  induction cs with
  | nil => rfl
  | cons c cs ih =>
    rw [detachFirst]
    by_cases hc : c.2.receiver = r ∧ c.2.slot = f
    · have hb : ∀ s, refers r' f' (c.1, { c.2 with state := s }) = false := by
        intro s
        simpa [refers, hc.1, hc.2] using h
      have hb' : refers r' f' c = false := hb c.2.state
      rw [if_pos (refers_iff.mpr hc), List.find?_cons, hb']
      cases active with
      | true => rw [if_pos rfl, List.find?_cons, hb]
      | false => rw [if_neg (by simp)]
    · rw [if_neg (by rwa [refers_iff]), List.find?_cons, List.find?_cons, ih]

/-- After a search the next one, for any pair, ends at a live item too, if a running emission has
    no second live item of the pair. -/
lemma firstLive_detachFirst {active : Bool} {r r' : ℕ} {f f' : F} {cs : List (ℕ × Slot F)}
    (h : FirstLive r f cs) (h' : FirstLive r' f' cs) (hon : active = true → liveSlots r f cs ≤ 1)
    (hoff : active = false → ∀ c ∈ cs, c.2.state = .connected) :
    FirstLive r' f' (detachFirst active r f cs) := by
  cases active with
  | false =>
    apply firstLive_of_connected
    intro c hc
    exact hoff rfl c ((detachFirst_false_sublist r f cs).subset hc)
  | true =>
    by_cases hsame : r = r' ∧ f = f'
    · apply firstLive_of_eq_zero
      have hone := hon rfl
      rw [liveSlots_detachFirst true h, if_pos hsame, ← hsame.1, ← hsame.2]
      omega
    · intro c hc
      rw [liveSlots_detachFirst true h, if_neg hsame, Nat.sub_zero]
      rw [find?_detachFirst hsame] at hc
      exact h' c hc

@[simp] lemma liveSlots_clean (r : ℕ) (f : F) (cs : List (ℕ × Slot F)) :
    liveSlots r f (clean cs) = liveSlots r f cs := by
  induction cs with
  | nil => rfl
  | cons c cs ih =>
    rw [liveSlots_cons, ← ih, clean, List.filterMap_cons, ← clean]
    cases hs : c.2.state <;> simp [liveSlots_cons, hs]

omit [LinearOrder F] in
lemma connected_of_mem_clean {cs : List (ℕ × Slot F)} {c : ℕ × Slot F} (h : c ∈ clean cs) :
    c.2.state = .connected := by
  obtain ⟨c', -, hc⟩ := List.mem_filterMap.mp h
  cases hs : c'.2.state <;> simp only [hs] at hc
  · rw [← Option.some.inj hc, hs]
  · rw [← Option.some.inj hc]
  · exact absurd hc (by simp)

omit [LinearOrder F] in
lemma after_isSome {i : ℕ} {cs : List (ℕ × Slot F)} (h : i ∈ cs.map Prod.fst) :
    ∃ rest, after i cs = some rest ∧ ∀ c ∈ rest, c ∈ cs := by
  induction cs with
  | nil => exact absurd h (by simp)
  | cons c cs ih =>
    rw [after]
    by_cases hc : c.1 = i
    · exact ⟨cs, if_pos hc, fun c' hc' => List.mem_cons_of_mem _ hc'⟩
    · rw [if_neg hc]
      obtain ⟨rest, hrest, hsub⟩ := ih (by simpa [Ne.symm hc] using h)
      exact ⟨rest, hrest, fun c' hc' => List.mem_cons_of_mem _ (hsub c' hc')⟩

/-! ## One signal -/

/-- Items that are not connected occur only in a dirty signal that is being emitted. -/
def SignalData.Settled (d : SignalData F) : Prop :=
  d.activation = none ∨ d.dirty = false → ∀ c ∈ d.slots, c.2.state = .connected

lemma SignalData.Settled.detach {d : SignalData F} (h : d.Settled) (r : ℕ) (f : F) :
    (d.detach r f).Settled := by
  intro hd c hc
  simp only [SignalData.detach] at hd hc
  cases ha : d.activation with
  | none =>
    rw [ha] at hc
    exact h (Or.inl ha) c ((detachFirst_false_sublist r f d.slots).subset hc)
  | some a =>
    simp only [ha, reduceCtorEq, Option.isSome_some, Bool.true_and, Bool.or_eq_false_iff,
      false_or] at hd
    rw [detachFirst_of_forall_not hd.2] at hc
    exact h (Or.inr hd.1) c hc

omit [LinearOrder F] in
lemma SignalData.Settled.leave {d : SignalData F} (h : d.Settled) (next : Option ℕ) :
    (d.leave next).Settled := by
  intro hd c hc
  rw [SignalData.leave] at hd hc
  split_ifs at hd hc with hclean
  · exact connected_of_mem_clean hc
  · apply h _ c hc
    right
    rcases hd with hd | hd
    · have hnext : next = none := hd
      simpa [hnext] using hclean
    · exact hd

lemma SignalData.Settled.firstLive {d : SignalData F} (h : d.Settled) (ha : d.activation = none)
    (r : ℕ) (f : F) : FirstLive r f d.slots := firstLive_of_connected (h (Or.inl ha))

omit [LinearOrder F] in
@[simp] lemma SignalData.leave_activation (d : SignalData F) (next : Option ℕ) :
    (d.leave next).activation = next := by
  rw [SignalData.leave]
  split_ifs with h
  · exact h.1.symm
  · rfl

@[simp] lemma SignalData.liveSlots_leave (d : SignalData F) (next : Option ℕ) (r : ℕ) (f : F) :
    liveSlots r f (d.leave next).slots = liveSlots r f d.slots := by
  rw [SignalData.leave]
  split_ifs
  · exact liveSlots_clean r f d.slots
  · rfl

omit [LinearOrder F] in
lemma SignalData.leave_slots_of_some (d : SignalData F) (a : ℕ) :
    (d.leave (some a)).slots = d.slots := by simp [SignalData.leave]

end Nstd.Callback
