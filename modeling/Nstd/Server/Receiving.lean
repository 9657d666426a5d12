import Mathlib.Algebra.Order.Ring.Int
import Mathlib.Data.List.Basic

/-!
# `Socket::recv`

Bytes are received until there are enough of them, with as many calls as it takes.

* `recv`, `recvLoop` — the code, for any results of the calls.
* `Lossless` — what was taken from the stream is what the result says.
* `Interrupted` — an error or the end of the stream, behind some of the bytes.
* **`recv_iff`** — bytes are lost exactly if the loop is interrupted; `closed_early`.

An error or the end of the stream is returned even if some bytes came before, and then nothing tells the
caller of these.
-/

namespace Nstd.Socket

/-! ## Functions -/

/-- What `recv` returns: -1 with an error, 0, or the number of the bytes that it stores -/
inductive Received
  | failed (errno : ℕ)
  | ended
  | bytes (chunk : List UInt8) (hne : chunk ≠ [])

def EAGAIN : ℕ := 11

def EWOULDBLOCK : ℕ := 11

/-- What a call leaves: its value, the bytes that were stored in `data`, `errno`, and for each call of
    the kernel where it is to store bytes, and how many -/
structure Outcome where
  value : ℤ
  data : List UInt8
  errno : ℕ
  calls : List (ℕ × ℤ)

/-- `(int)size` -/
def toInt (size : ℤ) : ℤ := size.bmod (2 ^ 32)

/-- The loop of `recv`, whose first call of the kernel is the one with number `i` -/
def recvLoop (results : ℕ → Received) (maxSize minSize i : ℕ) (data : List UInt8) (errno : ℕ)
    (calls : List (ℕ × ℤ)) : Outcome :=
  let received := data.length
  let calls := calls ++ [(received, toInt ((maxSize : ℤ) - received))]
  match results i with
  | .failed e =>
    if e = EWOULDBLOCK ∨ e = EAGAIN then ⟨received, data, 0, calls⟩ else ⟨-1, data, e, calls⟩
  | .ended => ⟨0, data, errno, calls⟩
  | .bytes chunk _hne =>
    if _h : (data ++ chunk).length ≥ minSize then
      ⟨(data ++ chunk).length, data ++ chunk, errno, calls⟩
    else recvLoop results maxSize minSize (i + 1) (data ++ chunk) errno calls
  termination_by minSize - data.length
  decreasing_by
    have hpos := List.length_pos_iff.mpr _hne
    rw [List.length_append] at _h ⊢
    omega

/-- `recv` -/
def recv (results : ℕ → Received) (maxSize minSize errno : ℕ) : Outcome :=
  let calls := [(0, toInt maxSize)]
  match results 0 with
  | .failed e =>
    if e = EWOULDBLOCK ∨ e = EAGAIN then ⟨-1, [], 0, calls⟩ else ⟨-1, [], e, calls⟩
  | .ended => ⟨0, [], errno, calls⟩
  | .bytes chunk _ =>
    if chunk.length ≥ minSize then ⟨chunk.length, chunk, errno, calls⟩
    else recvLoop results maxSize minSize 1 chunk errno calls

/-! ## Losses -/

/-- As many bytes were taken from the stream as the result says. -/
def Outcome.Lossless (o : Outcome) : Prop := (o.data.length : ℤ) = max o.value 0

/-- How many bytes come with a result -/
def Received.size : Received → ℕ
  | .bytes chunk _ => chunk.length
  | _ => 0

/-- An error, other than that nothing is there now, or the end of the stream -/
def Received.Stops : Received → Prop
  | .failed e => e ≠ EWOULDBLOCK ∧ e ≠ EAGAIN
  | .ended => True
  | .bytes _ _ => False

/-- How many bytes come with some results, from the one with number `i` on -/
def total (results : ℕ → Received) (i : ℕ) : ℕ → ℕ
  | 0 => 0
  | n + 1 => (results i).size + total results (i + 1) n

/-- From call `i` on, calls give bytes, but not enough of them, and then one stops the loop. -/
def Interrupted (results : ℕ → Received) (minSize i received : ℕ) : Prop :=
  ∃ n, (∀ j < n, 0 < (results (i + j)).size) ∧ received + total results i n < minSize ∧
    (results (i + n)).Stops

variable {results : ℕ → Received} {minSize i : ℕ}

/-- The first of the calls -/
lemma interrupted_iff {received : ℕ} (h : received < minSize) :
    Interrupted results minSize i received ↔ (results i).Stops ∨
      (0 < (results i).size ∧ received + (results i).size < minSize ∧
        Interrupted results minSize (i + 1) (received + (results i).size)) := by
  constructor
  · rintro ⟨n, hpos, hlt, hstops⟩
    cases n with
    | zero => exact Or.inl hstops
    | succ n =>
      have hsum : received + ((results i).size + total results (i + 1) n) < minSize := hlt
      refine Or.inr ⟨hpos 0 (Nat.succ_pos n), by omega, n, ?_, by omega, ?_⟩
      · intro j hj
        have hj' := hpos (j + 1) (Nat.succ_lt_succ hj)
        rwa [show i + 1 + j = i + (j + 1) by omega]
      · rwa [show i + 1 + n = i + (n + 1) by omega]
  · rintro (hstops | ⟨hpos, _, n, hrest, hlt, hstops⟩)
    · exact ⟨0, by simp, h, hstops⟩
    · refine ⟨n + 1, ?_, ?_, ?_⟩
      · intro j hj
        cases j with
        | zero => exact hpos
        | succ j =>
          have hj' := hrest j (Nat.lt_of_succ_lt_succ hj)
          rwa [show i + 1 + j = i + (j + 1) by omega] at hj'
      · rw [total]
        omega
      · rwa [show i + (n + 1) = i + 1 + n by omega]

/-- Nothing is lost where the value is the number of the bytes. -/
lemma lossless_length (data : List UInt8) (errno : ℕ) (calls : List (ℕ × ℤ)) :
    Outcome.Lossless ⟨data.length, data, errno, calls⟩ := by
  simp [Outcome.Lossless]

/-- Without a positive value, all of the bytes are lost. -/
lemma lossless_iff_nil {value : ℤ} (hv : value ≤ 0) (data : List UInt8) (errno : ℕ)
    (calls : List (ℕ × ℤ)) : Outcome.Lossless ⟨value, data, errno, calls⟩ ↔ data = [] := by
  simp [Outcome.Lossless, max_eq_right hv]

/-- **The loop** -/
lemma recvLoop_lossless_iff (maxSize : ℕ) {data : List UInt8} (hne : data ≠ [])
    (hlt : data.length < minSize) (errno : ℕ) (calls : List (ℕ × ℤ)) :
    (recvLoop results maxSize minSize i data errno calls).Lossless ↔
      ¬ Interrupted results minSize i data.length := by
  induction hm : minSize - data.length using Nat.strong_induction_on generalizing data i calls with
  | _ m ih =>
    rw [recvLoop, interrupted_iff hlt]
    cases hr : results i with
    | failed e =>
      by_cases he : e = EWOULDBLOCK ∨ e = EAGAIN
      · simp only [if_pos he, lossless_length, true_iff]
        simp [Received.Stops, Received.size, not_or.symm, he]
      · simp only [if_neg he, lossless_iff_nil (by decide : (-1 : ℤ) ≤ 0), hne, false_iff, not_not]
        exact Or.inl (not_or.mp he)
    | ended =>
      simp only [lossless_iff_nil le_rfl, hne, false_iff, not_not]
      exact Or.inl trivial
    | bytes chunk hchunk =>
      have hpos : 0 < chunk.length := List.length_pos_iff.mpr hchunk
      have hlen : (data ++ chunk).length = data.length + chunk.length := List.length_append
      by_cases hmin : (data ++ chunk).length ≥ minSize
      · simp only [hmin, dite_true, lossless_length, true_iff]
        rintro (hstops | ⟨_, hless, _⟩)
        · exact hstops
        · have hless' : data.length + chunk.length < minSize := hless
          omega
      · simp only [hmin, dite_false]
        rw [ih (minSize - (data ++ chunk).length) (by omega) (by simp [hne]) (by omega) _ rfl, hlen]
        simp only [Received.Stops, Received.size, hpos, false_or, true_and]
        exact not_congr (and_iff_right (by omega)).symm

/-- **`recv`** loses bytes exactly if some come, fewer than there are to be, and then a call stops the
    loop. -/
theorem recv_iff (results : ℕ → Received) (maxSize minSize errno : ℕ) :
    (recv results maxSize minSize errno).Lossless ↔
      ¬ (0 < (results 0).size ∧ (results 0).size < minSize ∧
        Interrupted results minSize 1 (results 0).size) := by
  unfold recv
  cases hr : results 0 with
  | failed e =>
    by_cases he : e = EWOULDBLOCK ∨ e = EAGAIN <;>
      simp [he, Outcome.Lossless, Received.size]
  | ended => simp [Outcome.Lossless, Received.size]
  | bytes chunk hchunk =>
    have hpos : 0 < chunk.length := List.length_pos_iff.mpr hchunk
    by_cases hmin : chunk.length ≥ minSize
    · simp only [if_pos hmin, lossless_length, Received.size, true_iff]
      rintro ⟨_, hless, _⟩
      omega
    · simp only [if_neg hmin, Received.size]
      rw [recvLoop_lossless_iff maxSize hchunk (by omega)]
      exact not_congr ⟨fun h => ⟨hpos, by omega, h⟩, fun h => h.2.2⟩

/-- Two bytes are asked for, one comes, and then the stream ends: the result is 0. -/
theorem closed_early : ¬ (recv (fun | 0 => .bytes [7] (by simp) | _ => .ended) 2 2 0).Lossless := by
  simp [recv, recvLoop, Outcome.Lossless]

end Nstd.Socket
