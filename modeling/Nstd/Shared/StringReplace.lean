import Nstd.Shared.StringReplaceLoop

/-!
# Replacing in strings

* `Inside`, `State.Searchable` — all occurrences end within the string, or the end of the string is
  behind its bytes.
* `confined_iff` — without zeros, the search of `replace` is confined exactly then.
* `Replaced.eq` — without zeros, all occurrences are replaced from left to right.
* **`replace_iff`** — `replace` ends and replaces all occurrences exactly for needles that are not
  empty, in strings where it can search.

The search goes on to a zero, and not to the end of the string; up to the end, both are the same.
-/

namespace Nstd.Strings

open Texts (upTo find starts replaceFrom replaceAll)

variable (memory : ℕ → ℕ → UInt8) {behind : ℕ → Behind} {x y z : ℕ}
  {v w u text rest : List UInt8} {s s' : State} {p : ℕ}

/-! ## Where `replace` can search -/

/-- No occurrence that a search from left to right finds ends behind the first `n` bytes. -/
def Inside (needle text : List UInt8) (n : ℕ) : Prop :=
  ∀ i ∈ starts needle 0 0 text, i + needle.length ≤ n

/-- **Where `replace` can search**: the end of the string is behind its bytes; or the string is its own
    needle and alone has its block; or there is a zero further on, and all occurrences of another
    string that are found in front of it end within the string. -/
def State.Searchable (behind : ℕ → Behind) (s : State) (x y : ℕ) (v w : List UInt8) : Prop :=
  ∃ c rest, s.InMemory behind x v (c :: rest)
    ∧ (c = 0 ∨ (y = x ∧ ∃ this, s.get x = some this ∧ this.Fits s.heap v.length)
      ∨ (y ≠ x ∧ ∃ text, upTo 0 (v ++ c :: rest) = some text ∧ Inside w text v.length))

/-! ## Strings without zeros -/

lemma cBytes_eq (h : 0 ∉ v) : cBytes v = v := Texts.takeWhile_of_not_mem h

/-- A search for the empty string is not confined. -/
lemma Confined.ne_nil {n : ℕ} {str : List UInt8} (h : Confined w n str p) : w ≠ [] := by
  induction h with
  | @last p text _ _ hfind =>
    rintro rfl
    exact nomatch (Texts.find_nil text).symm.trans hfind
  | next _ _ _ ih => exact ih

/-- **A search is confined** exactly if all occurrences end within the string. -/
theorem confined_iff (hnv : 0 ∉ v) (hnw : 0 ∉ w) (hne : w ≠ [])
    (htext : upTo 0 (v ++ rest) = some text) (hp : p ≤ v.length) :
    Confined w v.length (v ++ rest) p
      ↔ ∀ j ∈ starts w 0 p (text.drop p), j + w.length ≤ v.length := by
  have hle : v.length ≤ text.length := by
    rw [Texts.upTo_append hnv] at htext
    obtain ⟨extra, -, rfl⟩ := Option.map_eq_some_iff.mp htext
    rw [List.length_append]
    omega
  have hfrom : ∀ p, p ≤ v.length → upTo 0 ((v ++ rest).drop p) = some (text.drop p) :=
    fun p hp => Texts.upTo_drop htext (hp.trans hle)
  rw [← cBytes_eq hnw] at hne
  refine ⟨fun h => ?_, fun h => ?_⟩
  · induction h with
    | @last p t hp ht hfind =>
      obtain rfl := Option.some.inj ((hfrom p hp).symm.trans ht)
      rw [cBytes_eq hnw] at hfind
      rw [Texts.starts_of_none p hfind]
      exact fun j hj => absurd hj List.not_mem_nil
    | @next p i t ht hfind h ih =>
      have hend := h.le
      obtain rfl := Option.some.inj ((hfrom p (by omega)).symm.trans ht)
      rw [cBytes_eq hnw] at hfind hne
      rw [Texts.starts_of_some hne p hfind, List.drop_drop, ← Nat.add_assoc]
      exact List.forall_mem_cons.mpr ⟨hend, ih hend⟩
  · rw [cBytes_eq hnw] at hne
    have hpos := List.length_pos_iff.mpr hne
    induction hk : v.length - p using Nat.strong_induction_on generalizing p with
    | _ k ih =>
      cases hfind : find w (text.drop p) with
      | none => exact .last hp (hfrom p hp) (by rwa [cBytes_eq hnw])
      | some i =>
        rw [Texts.starts_of_some hne p hfind, List.drop_drop, ← Nat.add_assoc] at h
        obtain ⟨hend, hlater⟩ := List.forall_mem_cons.mp h
        exact .next (hfrom p hp) (by rwa [cBytes_eq hnw]) (ih _ (by omega) hend hlater rfl)

/-- **What a string comes to**: all occurrences are replaced. -/
theorem Replaced.eq {out : List UInt8} (hnv : 0 ∉ v) (hnw : 0 ∉ w) (hne : w ≠ [])
    (h : Replaced w u v p out) : out = replaceFrom w u 0 (v.drop p) := by
  have hleft : ∀ p, cBytes (v.drop p) = v.drop p := fun p =>
    cBytes_eq fun hmem => hnv (List.mem_of_mem_drop hmem)
  induction h with
  | @last p hfind =>
    rw [hleft, cBytes_eq hnw] at hfind
    rw [Texts.replaceFrom_of_none hfind]
  | @next p i out hfind h ih =>
    rw [hleft, cBytes_eq hnw] at hfind
    rw [Texts.replaceFrom_of_some hne hfind, List.drop_drop, ← Nat.add_assoc, ih]

/-- A string that ends behind its bytes is the text, in which all occurrences end. -/
lemma inside_self (w v : List UInt8) : Inside w v v.length := by
  intro i hi
  have hle := Texts.starts_le i hi
  rwa [Nat.zero_add] at hle

lemma upTo_self (hnv : 0 ∉ v) (rest : List UInt8) : upTo 0 (v ++ 0 :: rest) = some v := by
  rw [Texts.upTo_append hnv]
  simp [upTo]

/-- **`replace` can search** exactly if its search is confined. -/
theorem confines_iff (hnv : 0 ∉ v) (hnw : 0 ∉ w) (hself : y = x → w = v) :
    s.Confines behind x y v w ↔ w ≠ [] ∧ s.Searchable behind x y v w := by
  refine ⟨?_, ?_⟩
  · rintro ⟨c, rest, hmemory, ⟨hyx, hconf⟩ | ⟨hyx, hor, hconf⟩⟩
    · obtain ⟨text, htext⟩ : ∃ text, upTo 0 (v ++ c :: rest) = some text := by
        cases hconf with
        | last _ htext _ => exact ⟨_, htext⟩
        | next htext _ _ => exact ⟨_, htext⟩
      have hinside := (confined_iff hnv hnw hconf.ne_nil htext (Nat.zero_le _)).mp hconf
      exact ⟨hconf.ne_nil, c, rest, hmemory, .inr (.inr ⟨hyx, text, htext, hinside⟩)⟩
    · refine ⟨hself hyx ▸ hconf.ne_nil, c, rest, hmemory, ?_⟩
      exact hor.imp_right fun hfits => .inl ⟨hyx, hfits⟩
  · rintro ⟨hne, c, rest, hmemory, hor⟩
    refine ⟨c, rest, hmemory, ?_⟩
    by_cases hyx : y = x
    · obtain rfl := hself hyx
      have hconf := (confined_iff hnv hnv hne (upTo_self hnv []) (Nat.zero_le _)).mpr
        (inside_self _ _)
      refine .inr ⟨hyx, ?_, hconf⟩
      rcases hor with hzero | ⟨-, hfits⟩ | ⟨hyx', -⟩
      · exact .inl hzero
      · exact .inr hfits
      · exact absurd hyx hyx'
    · refine .inl ⟨hyx, ?_⟩
      rcases hor with rfl | ⟨hyx', -⟩ | ⟨-, text, htext, hinside⟩
      · exact (confined_iff hnv hnw hne (upTo_self hnv rest) (Nat.zero_le _)).mpr (inside_self w v)
      · exact absurd hyx' hyx
      · exact (confined_iff hnv hnw hne htext (Nat.zero_le _)).mpr hinside

/-! ## The theorem -/

/-- `replace` ends, gives the string certain bytes and leaves the other variables. -/
def State.Replaces (behind : ℕ → Behind) (s : State) (x y z : ℕ) (v' : List UInt8) : Prop :=
  ∃ n s', s.replace memory behind x y z n = some s' ∧ s'.Value x v'
    ∧ ∀ k t, k ≠ x → s.Value k t → s'.Value k t

/-- **`replace` ends** and replaces all occurrences where it can search. -/
theorem State.Searchable.replaces (hs : s.Sound) (hv : s.Value x v) (hw : s.Value y w)
    (hu : s.Value z u) (hnv : 0 ∉ v) (hnw : 0 ∉ w) (hne : w ≠ [])
    (h : s.Searchable behind x y v w) :
    s.Replaces memory behind x y z (replaceAll w u v) := by
  obtain ⟨vs, hshows⟩ := hs.shows
  have hself : y = x → w = v := fun hyx => (hyx ▸ hw).unique hv
  obtain ⟨out, s', hreplaced, h', n, hrun⟩ := hshows.replace memory (hshows.at hv) (hshows.at hw)
    (hshows.at hu) ((confines_iff hnv hnw hself).mpr ⟨hne, h⟩)
  have hlt := Values.lt_of_at (hshows.at hv)
  have hall : replaceAll w u v = out := by
    rw [hreplaced.eq hnv hnw hne, replaceAll, if_neg hne, List.drop_zero]
  rw [hall]
  refine ⟨n, s', hrun n (Nat.le_refl n), h'.value x out ?_, fun k t hk hkt => h'.value k t ?_⟩
  · rw [Values.at_set _ hlt, if_pos rfl]
  · rw [Values.at_set _ hlt, if_neg hk, hshows.at hkt]

/-- **Only then**: if `replace` ends, the needle is not empty, and `replace` can search. -/
theorem searchable_of_replace {n : ℕ} (hs : s.Sound) (hv : s.Value x v) (hw : s.Value y w)
    (hu : s.Value z u) (hnv : 0 ∉ v) (hnw : 0 ∉ w)
    (h : s.replace memory behind x y z n = some s') : w ≠ [] ∧ s.Searchable behind x y v w := by
  obtain ⟨vs, hshows⟩ := hs.shows
  have hself : y = x → w = v := fun hyx => (hyx ▸ hw).unique hv
  exact (confines_iff hnv hnw hself).mp
    (confines_of_replace memory hshows (hshows.at hv) (hshows.at hw) (hshows.at hu) h)

/-- **Replacing.**  After any moves, whatever is behind attached strings: in strings without zeros,
    `replace` ends with the leftmost occurrences replaced exactly if the needle is not empty and
    `replace` can search. -/
theorem replace_iff (behind : ℕ → Behind) (n : ℕ) (ms : List Move)
    (hs : ms.foldlM (step memory) (State.initial n) = some s) (hv : s.Value x v) (hw : s.Value y w)
    (hu : s.Value z u) (hnv : 0 ∉ v) (hnw : 0 ∉ w) :
    s.Replaces memory behind x y z (replaceAll w u v)
      ↔ w ≠ [] ∧ s.Searchable behind x y v w := by
  obtain ⟨s₁, hrun, hsound⟩ := State.Sound.run memory (n := n) ms
  obtain rfl := Option.some.inj (hrun.symm.trans hs)
  refine ⟨?_, fun ⟨hne, h⟩ => h.replaces memory hsound hv hw hu hnv hnw hne⟩
  rintro ⟨n, s', h, -⟩
  exact searchable_of_replace memory hsound hv hw hu hnv hnw h

theorem replace_iff_overlap : ∃ s,
    [.construct 0 (.ofBytes [97, 98, 97, 98, 97]), .construct 1 (.ofBytes [97, 98, 97]),
      .construct 2 (.ofBytes [99])].foldlM (step fun _ _ => 0) (State.initial 3) = some s
    ∧ (s.Replaces (fun _ _ => 0) (fun _ => ⟨0, []⟩) 0 1 2
        (replaceAll [97, 98, 97] [99] [97, 98, 97, 98, 97])
      ↔ [97, 98, 97] ≠ ([] : List UInt8)
        ∧ s.Searchable (fun _ => ⟨0, []⟩) 0 1 [97, 98, 97, 98, 97] [97, 98, 97])
    ∧ replaceAll [97, 98, 97] [99] [97, 98, 97, 98, 97] = ([99, 98, 97] : List UInt8) := by
  obtain ⟨s, hs, -⟩ := State.Sound.run (fun _ _ => 0) (n := 3)
    [.construct 0 (.ofBytes [97, 98, 97, 98, 97]), .construct 1 (.ofBytes [97, 98, 97]),
      .construct 2 (.ofBytes [99])]
  have hvalues : s.Value 0 [97, 98, 97, 98, 97] ∧ s.Value 1 [97, 98, 97] ∧ s.Value 2 [99] := by
    obtain rfl := Option.some.inj hs
    exact ⟨⟨_, _, _, rfl, rfl, rfl, rfl⟩, ⟨_, _, _, rfl, rfl, rfl, rfl⟩, ⟨_, _, _, rfl, rfl, rfl, rfl⟩⟩
  exact ⟨s, hs, replace_iff _ _ 3 _ hs hvalues.1 hvalues.2.1 hvalues.2.2 (by decide) (by decide),
    by decide⟩

/-- `"a"` with `"b"` in place of the empty string: the loop does not end. -/
theorem replace_empty_needle : ∃ s,
    [.construct 0 (.ofBytes [97]), .construct 1 (.ofBytes []), .construct 2 (.ofBytes [98])].foldlM
      (step fun _ _ => 0) (State.initial 3) = some s
    ∧ s.Value 0 [97] ∧ s.Value 1 [] ∧ s.Value 2 [98]
    ∧ (∀ n, s.replace (fun _ _ => 0) (fun _ => ⟨0, []⟩) 0 1 2 n = none)
    ∧ ¬ s.Replaces (fun _ _ => 0) (fun _ => ⟨0, []⟩) 0 1 2 (replaceAll [] [98] [97]) := by
  obtain ⟨s, hs, hsound⟩ := State.Sound.run (fun _ _ => 0) (n := 3)
    [.construct 0 (.ofBytes [97]), .construct 1 (.ofBytes []), .construct 2 (.ofBytes [98])]
  have hvalues : s.Value 0 [97] ∧ s.Value 1 [] ∧ s.Value 2 [98] := by
    obtain rfl := Option.some.inj hs
    exact ⟨⟨_, _, _, rfl, rfl, rfl, rfl⟩, ⟨_, _, _, rfl, rfl, rfl, rfl⟩, ⟨_, _, _, rfl, rfl, rfl, rfl⟩⟩
  have hnone : ∀ n, s.replace (fun _ _ => 0) (fun _ => ⟨0, []⟩) 0 1 2 n = none := by
    intro n
    refine Option.eq_none_iff_forall_not_mem.mpr fun s' h => ?_
    exact (searchable_of_replace _ hsound hvalues.1 hvalues.2.1 hvalues.2.2 (by decide) (by decide)
      h).1 rfl
  refine ⟨s, hs, hvalues.1, hvalues.2.1, hvalues.2.2, hnone, ?_⟩
  rintro ⟨n, s', h, -⟩
  exact nomatch (hnone n).symm.trans h

end Nstd.Strings
