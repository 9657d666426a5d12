import Nstd.Core.FixedArrays

/-!
# `Sha256`

One object computes one digest after the other.

* `Sha256`, `update`, `finalize`, `hash`, `hmac` — the code; what a new object's buffer holds is an
  argument.
* `Agree` — the bytes of the buffer that do not belong to the message make no difference.
* `update_append` — cuts of the message make none either.
* `hmacOf` — a keyed hash, over any hash.
* **`digests`** — `hmac`, `update` in pieces, and `finalize`, by `hash`.

A buffer is compressed as soon as it is full, so what it holds and the state depend on the bytes of the
message, and not on how they were cut.
-/

namespace Nstd

open FixedArray

/-- `Sha256` -/
structure Sha256 where
  state : Vector UInt32 8
  count : UInt64
  buffer : Vector UInt8 64

namespace Sha256

/-! ## The compression function -/

def rotrFixed (x n : UInt32) : UInt32 := (x >>> n) ||| (x <<< (32 - n))

def S0 (x : UInt32) : UInt32 := rotrFixed x 2 ^^^ rotrFixed x 13 ^^^ rotrFixed x 22

def S1 (x : UInt32) : UInt32 := rotrFixed x 6 ^^^ rotrFixed x 11 ^^^ rotrFixed x 25

def s0 (x : UInt32) : UInt32 := rotrFixed x 7 ^^^ rotrFixed x 18 ^^^ (x >>> 3)

def s1 (x : UInt32) : UInt32 := rotrFixed x 17 ^^^ rotrFixed x 19 ^^^ (x >>> 10)

def Ch (x y z : UInt32) : UInt32 := z ^^^ (x &&& (y ^^^ z))

def Maj (x y z : UInt32) : UInt32 := (x &&& y) ||| (z &&& (x ||| y))

def K : Vector UInt32 64 := #v[
  0x428a2f98, 0x71374491, 0xb5c0fbcf, 0xe9b5dba5,
  0x3956c25b, 0x59f111f1, 0x923f82a4, 0xab1c5ed5,
  0xd807aa98, 0x12835b01, 0x243185be, 0x550c7dc3,
  0x72be5d74, 0x80deb1fe, 0x9bdc06a7, 0xc19bf174,
  0xe49b69c1, 0xefbe4786, 0x0fc19dc6, 0x240ca1cc,
  0x2de92c6f, 0x4a7484aa, 0x5cb0a9dc, 0x76f988da,
  0x983e5152, 0xa831c66d, 0xb00327c8, 0xbf597fc7,
  0xc6e00bf3, 0xd5a79147, 0x06ca6351, 0x14292967,
  0x27b70a85, 0x2e1b2138, 0x4d2c6dfc, 0x53380d13,
  0x650a7354, 0x766a0abb, 0x81c2c92e, 0x92722c85,
  0xa2bfe8a1, 0xa81a664b, 0xc24b8b70, 0xc76c51a3,
  0xd192e819, 0xd6990624, 0xf40e3585, 0x106aa070,
  0x19a4c116, 0x1e376c08, 0x2748774c, 0x34b0bcb5,
  0x391c0cb3, 0x4ed8aa4a, 0x5b9cca4f, 0x682e6ff3,
  0x748f82ee, 0x78a5636f, 0x84c87814, 0x8cc70208,
  0x90befffa, 0xa4506ceb, 0xbef9a3f7, 0xc67178f2]

/-- The arrays `T` and `W` of `Transform` -/
abbrev Work := Vector UInt32 8 × Vector UInt32 16

/-- `T[(k-(i))&7]`: the variables `a` to `h` of a round -/
def var (i k : ℕ) : Fin 8 := Fin.ofNat 8 k - Fin.ofNat 8 i

/-- `W[(i-k)&15]` -/
def word (i k : ℕ) : Fin 16 := Fin.ofNat 16 i - Fin.ofNat 16 k

/-- `blk0` -/
def blk0 (data : Vector UInt32 16) (i : Fin 16) (W : Vector UInt32 16) : Vector UInt32 16 :=
  W.setIfInBounds i.val (data.get i)

/-- `blk2` -/
def blk2 (i : Fin 16) (W : Vector UInt32 16) : Vector UInt32 16 :=
  W.setIfInBounds i.val
    (W.get i + (s1 (W.get (word i.val 2)) + W.get (word i.val 7) + s0 (W.get (word i.val 15))))

/-- What a round does with `T`, when the word of the message is `w` -/
def mix (j : Fin 4) (i : Fin 16) (w : UInt32) (T : Vector UInt32 8) : Vector UInt32 8 :=
  let v := var i.val
  let h := T.get (v 7) + (S1 (T.get (v 4)) + Ch (T.get (v 4)) (T.get (v 5)) (T.get (v 6))
    + K.get ⟨i.val + 16 * j.val, by omega⟩ + w)
  let T := T.setIfInBounds (v 7).val h
  let T := T.setIfInBounds (v 3).val (T.get (v 3) + h)
  T.setIfInBounds (v 7).val (h + (S0 (T.get (v 0)) + Maj (T.get (v 0)) (T.get (v 1)) (T.get (v 2))))

/-- `R` -/
def R (data : Vector UInt32 16) (j : Fin 4) (t : Work) (i : Fin 16) : Work :=
  let W := if j ≠ 0 then blk2 i t.2 else blk0 data i t.2
  (mix j i (W.get i) t.1, W)

/-- The first `n` rounds of the inner loop -/
def rounds (data : Vector UInt32 16) (j : Fin 4) (t : Work) : (n : ℕ) → n ≤ 16 → Work
  | 0, _ => t
  | n + 1, h => R data j (rounds data j t n (by omega)) ⟨n, h⟩

/-- `Transform`, where the array `W` holds anything at first -/
def Transform (state : Vector UInt32 8) (W data : Vector UInt32 16) : Vector UInt32 8 :=
  let t := (List.finRange 4).foldl (fun t j => rounds data j t 16 (Nat.le_refl 16)) (state, W)
  Vector.ofFn fun j => state.get j + t.1.get j

/-- `WriteByteBlock`; what `W` holds at first makes no difference, see `transform_eq`. -/
def WriteByteBlock (p : Sha256) : Sha256 :=
  let byte (i : Fin 16) (k : Fin 4) := (p.buffer.get ⟨i.val * 4 + k.val, by omega⟩).toUInt32
  let data32 := Vector.ofFn fun i =>
    (byte i 0 <<< 24) + (byte i 1 <<< 16) + (byte i 2 <<< 8) + byte i 3
  { p with state := Transform p.state (Vector.replicate 16 0) data32 }

/-! ## Members -/

/-- `reset` -/
def reset (p : Sha256) : Sha256 where
  state := #v[0x6a09e667, 0xbb67ae85, 0x3c6ef372, 0xa54ff53a,
    0x510e527f, 0x9b05688c, 0x1f83d9ab, 0x5be0cd19]
  count := 0
  buffer := p.buffer

/-- An object that was just constructed, whose members hold anything before `reset` -/
def new (memory : Sha256) : Sha256 := memory.reset

def curBufferPos (p : Sha256) : ℕ := (p.count.toUInt32 &&& 0x3F).toNat

/-- `buffer[curBufferPos] = b` -/
def put (p : Sha256) (curBufferPos : ℕ) (b : UInt8) : Sha256 :=
  { p with buffer := p.buffer.setIfInBounds curBufferPos b }

/-- The loop of `update` -/
def updateLoop (p : Sha256) (curBufferPos : ℕ) : List UInt8 → Sha256
  | [] => p
  | b :: data =>
    let p := p.put curBufferPos b
    let p := { p with count := p.count + 1 }
    if curBufferPos + 1 = 64 then updateLoop (WriteByteBlock p) 0 data
    else updateLoop p (curBufferPos + 1) data

/-- `update` -/
def update (p : Sha256) (data : List UInt8) : Sha256 := updateLoop p p.curBufferPos data

/-- The loop of `finalize` that writes zeros up to index 56 -/
def zeroLoop (p : Sha256) (curBufferPos : Fin 65) : Sha256 :=
  if h : curBufferPos.val = 64 - 8 then p
  else
    let i := curBufferPos.val % 64
    let p := if i = 0 then WriteByteBlock p else p
    zeroLoop (p.put i 0) ⟨i + 1, by omega⟩
  termination_by (120 - curBufferPos.val) % 64
  decreasing_by
    have hlt := curBufferPos.isLt
    omega

/-- The bytes that the second loop of `finalize` writes -/
def lengthBytes (lenInBits : UInt64) : ℕ → List UInt8
  | 0 => []
  | n + 1 => (lenInBits >>> 56).toUInt8 :: lengthBytes (lenInBits <<< 8) n

/-- The bytes that the third loop of `finalize` writes -/
def digestBytes (state : Vector UInt32 8) : List UInt8 :=
  state.toList.flatMap fun (s : UInt32) =>
    [(s >>> 24).toUInt8, (s >>> 16).toUInt8, (s >>> 8).toUInt8, s.toUInt8]

/-- `finalize`: the digest, and the object behind it -/
def finalize (p : Sha256) : List UInt8 × Sha256 :=
  let lenInBits := p.count <<< 3
  let pos := p.curBufferPos
  let p := zeroLoop (p.put pos 0x80) (Fin.ofNat 65 (pos + 1))
  let p := { p with buffer := copy p.buffer (64 - 8) (lengthBytes lenInBits 8) }
  let p := WriteByteBlock p
  (digestBytes p.state, p.reset)

/-- `hash` -/
def hash (memory : Sha256) (data : List UInt8) : List UInt8 :=
  let sha256 := new memory
  let sha256 := sha256.update data
  sha256.finalize.1

def blockSize : ℕ := 64

/-- `hmac`, where the object and the array `hashKey` hold anything at first -/
def hmac (memory : Sha256) (hashKey : Vector UInt8 64) (key message : List UInt8) : List UInt8 :=
  let sha256 := new memory
  let (hashKey, sha256) :=
    if key.length > blockSize then
      let sha256 := sha256.update key
      let (digest, sha256) := sha256.finalize
      (zero (copy hashKey 0 digest) 32 32, sha256)
    else
      let hashKey := copy hashKey 0 key
      (if key.length < blockSize then zero hashKey key.length (blockSize - key.length) else hashKey,
        sha256)
  let oKeyPad := hashKey.map (· ^^^ 0x5c)
  let iKeyPad := hashKey.map (· ^^^ 0x36)
  let sha256 := sha256.update iKeyPad.toList
  let sha256 := sha256.update message
  let (hash, sha256) := sha256.finalize
  let sha256 := sha256.update oKeyPad.toList
  let sha256 := sha256.update hash
  sha256.finalize.1

/-! ## What is not read -/

/-- Two objects that agree in front of an index of the buffer -/
structure Agree (i : ℕ) (p q : Sha256) : Prop where
  state : p.state = q.state
  count : p.count = q.count
  buffer : Same i p.buffer q.buffer

variable {i : ℕ} {p q : Sha256}

lemma Agree.put (h : Agree i p q) (b : UInt8) : Agree (i + 1) (p.put i b) (q.put i b) :=
  ⟨h.state, h.count, h.buffer.set b⟩

/-- With the buffer full, there is no difference. -/
lemma Agree.eq (h : Agree i p q) (hi : 64 ≤ i) : p = q := by
  cases p
  cases q
  simpa using ⟨h.state, h.count, h.buffer.eq hi⟩

lemma Agree.refl (i : ℕ) (p : Sha256) : Agree i p p := ⟨rfl, rfl, fun _ _ _ => rfl⟩

/-! ## `update` -/

lemma curBufferPos_eq (p : Sha256) : p.curBufferPos = p.count.toNat % 64 := by
  have hand : p.count.toNat % 2 ^ 32 &&& (2 ^ 6 - 1) = p.count.toNat % 2 ^ 32 % 2 ^ 6 :=
    Nat.and_two_pow_sub_one_eq_mod _ 6
  rw [curBufferPos, UInt32.toNat_and]
  have hmod : p.count.toNat % 2 ^ 32 % 64 = p.count.toNat % 64 := by omega
  simpa [hmod] using hand

lemma curBufferPos_lt (p : Sha256) : p.curBufferPos < 64 := by
  rw [curBufferPos_eq]
  exact Nat.mod_lt _ (Nat.succ_pos 63)

lemma curBufferPos_succ {p q : Sha256} (h : q.count = p.count + 1) :
    q.curBufferPos = (p.curBufferPos + 1) % 64 := by
  rw [curBufferPos_eq, curBufferPos_eq, h, UInt64.toNat_add]
  simp

/-- One byte -/
def absorb (p : Sha256) (b : UInt8) : Sha256 :=
  let p' := { p.put p.curBufferPos b with count := p.count + 1 }
  if p.curBufferPos + 1 = 64 then WriteByteBlock p' else p'

/-- **Byte by byte**: the index is the count, up to a multiple of the block. -/
lemma update_eq (p : Sha256) (data : List UInt8) : p.update data = data.foldl absorb p := by
  induction data generalizing p with
  | nil => rfl
  | cons b data ih =>
    have hlt := p.curBufferPos_lt
    rw [List.foldl_cons, ← ih, update, updateLoop, update, absorb]
    by_cases hfull : p.curBufferPos + 1 = 64
    · have hpos := curBufferPos_succ (p := p)
        (q := WriteByteBlock { p.put p.curBufferPos b with count := p.count + 1 }) rfl
      simp only [hfull, if_true] at hpos ⊢
      rw [hpos]
      rfl
    · have hpos := curBufferPos_succ (p := p)
        (q := { p.put p.curBufferPos b with count := p.count + 1 }) rfl
      simp only [hfull, if_false]
      rw [hpos, Nat.mod_eq_of_lt (by omega)]
      rfl

/-- Cuts make no difference. -/
lemma update_append (p : Sha256) (data data' : List UInt8) :
    p.update (data ++ data') = (p.update data).update data' := by
  simp only [update_eq, List.foldl_append]

lemma update_flatten (p : Sha256) (chunks : List (List UInt8)) :
    chunks.foldl update p = p.update chunks.flatten := by
  induction chunks generalizing p with
  | nil => rfl
  | cons chunk chunks ih => rw [List.foldl_cons, ih, List.flatten_cons, update_append]

lemma Agree.absorb (h : Agree p.curBufferPos p q) (b : UInt8) :
    Agree (p.absorb b).curBufferPos (p.absorb b) (q.absorb b) := by
  have hpos : q.curBufferPos = p.curBufferPos := by rw [curBufferPos, curBufferPos, h.count]
  have hput := h.put b
  unfold Sha256.absorb
  rw [hpos, ← h.count]
  by_cases hfull : p.curBufferPos + 1 = 64
  · have heq : p.put p.curBufferPos b = q.put p.curBufferPos b := hput.eq (by omega)
    simp only [hfull, if_true, heq]
    exact Agree.refl _ _
  · simp only [hfull, if_false]
    have hlt := p.curBufferPos_lt
    rw [curBufferPos_succ (p := p) (q := { p.put p.curBufferPos b with count := p.count + 1 }) rfl,
      Nat.mod_eq_of_lt (by omega)]
    exact ⟨hput.state, rfl, hput.buffer⟩

lemma Agree.update (h : Agree p.curBufferPos p q) (data : List UInt8) :
    Agree (p.update data).curBufferPos (p.update data) (q.update data) := by
  rw [update_eq, update_eq]
  induction data generalizing p q with
  | nil => exact h
  | cons b data ih => exact ih (h.absorb b)

/-! ## `finalize` -/

lemma zeroLoop_done (p : Sha256) {i : Fin 65} (hi : i.val = 64 - 8) : p.zeroLoop i = p := by
  rw [zeroLoop, dif_pos hi]

lemma zeroLoop_zero (p : Sha256) {i : Fin 65} (hi : i.val ≠ 64 - 8) (hlt : i.val < 64) (hpos : i.val ≠ 0) :
    p.zeroLoop i = (p.put i.val 0).zeroLoop ⟨i.val + 1, by omega⟩ := by
  rw [zeroLoop, dif_neg hi]
  simp [Nat.mod_eq_of_lt hlt, hpos]

lemma Agree.zeroLoop {i : Fin 65} (h : Agree i.val p q) (hpos : i.val ≠ 0) :
    Agree (64 - 8) (zeroLoop p i) (zeroLoop q i) := by
  induction hm : (120 - i.val) % 64 using Nat.strongRecOn generalizing p q i with
  | _ m ih =>
    by_cases hi : i.val = 64 - 8
    · rw [zeroLoop_done p hi, zeroLoop_done q hi]
      rwa [hi] at h
    by_cases hfull : i.val = 64
    · rw [h.eq (by omega)]
      exact Agree.refl _ _
    · rw [zeroLoop_zero p hi (by omega) hpos, zeroLoop_zero q hi (by omega) hpos]
      exact ih _ (by simp only; omega) (h.put 0) (Nat.succ_ne_zero _) rfl

lemma length_lengthBytes (lenInBits : UInt64) (n : ℕ) : (lengthBytes lenInBits n).length = n := by
  induction n generalizing lenInBits with
  | zero => rfl
  | succ n ih => simp [lengthBytes, ih]

/-- **The digest**, and the object behind it, are given by the message. -/
lemma Agree.finalize (h : Agree p.curBufferPos p q) : p.finalize = q.finalize := by
  have hpos : q.curBufferPos = p.curBufferPos := by rw [curBufferPos, curBufferPos, h.count]
  have hlt := p.curBufferPos_lt
  have hval : (Fin.ofNat 65 (p.curBufferPos + 1)).val = p.curBufferPos + 1 :=
    Nat.mod_eq_of_lt (by omega)
  have hzero := Agree.zeroLoop (i := Fin.ofNat 65 (p.curBufferPos + 1)) (hval ▸ h.put 0x80) (by omega)
  have hcopy := hzero.buffer.copy (lengthBytes (p.count <<< 3) 8)
  rw [length_lengthBytes] at hcopy
  unfold Sha256.finalize
  rw [hpos, ← h.count]
  simp only [hzero.state, hzero.count, hcopy.eq (Nat.le_refl 64)]

/-! ## Digests -/

/-- Objects that were just constructed agree, as far as there is anything of a message. -/
lemma new_agree (memory memory' : Sha256) :
    Agree (new memory).curBufferPos (new memory) (new memory') := by
  have hpos : (new memory).curBufferPos = 0 := by simp [curBufferPos_eq, new, reset]
  rw [hpos]
  exact ⟨rfl, rfl, fun j _ hj => absurd hj (Nat.not_lt_zero j)⟩

/-- Behind `finalize`, an object is a new one. -/
lemma finalize_new (p : Sha256) : ∃ memory, p.finalize.2 = new memory := ⟨_, rfl⟩

lemma hash_any (memory memory' : Sha256) (data : List UInt8) : hash memory data = hash memory' data :=
  congrArg Prod.fst ((new_agree memory memory').update data).finalize

lemma length_digestBytes (state : Vector UInt32 8) : (digestBytes state).length = 32 := by
  simp [digestBytes, List.length_flatMap]

/-- HMAC, over the hash `H` with blocks of 64 bytes -/
def hmacOf (H : List UInt8 → List UInt8) (key message : List UInt8) : List UInt8 :=
  let key := if key.length > blockSize then H key else key
  let K0 := key ++ List.replicate (blockSize - key.length) 0
  H (K0.map (· ^^^ 0x5c) ++ H (K0.map (· ^^^ 0x36) ++ message))

/-- The key is written over the whole array. -/
lemma hashKey_toList (hashKey : Vector UInt8 64) {key : List UInt8} (h : key.length ≤ blockSize) :
    (zero (copy hashKey 0 key) key.length (blockSize - key.length)).toList
      = key ++ List.replicate (blockSize - key.length) 0 := by
  have h64 : key.length ≤ 64 := h
  rw [zero, copy_toList _ _ (by rw [List.length_replicate, blockSize]; omega),
    copy_toList _ _ (by omega)]
  simp [blockSize, Nat.add_sub_cancel' h64]

/-- The second half of `hmac`, where the object may have been used -/
lemma hmac_blocks {H : List UInt8 → List UInt8} (hH : ∀ memory data, hash memory data = H data)
    (memory : Sha256) (iKeyPad oKeyPad message : List UInt8) :
    (((((new memory).update iKeyPad).update message).finalize.2.update oKeyPad).update
      (((new memory).update iKeyPad).update message).finalize.1).finalize.1
        = H (oKeyPad ++ H (iKeyPad ++ message)) := by
  have hinner := hH memory (iKeyPad ++ message)
  rw [hash, update_append] at hinner
  rcases finalize_new (((new memory).update iKeyPad).update message) with ⟨memory', hnew⟩
  have houter := hH memory' (oKeyPad ++ H (iKeyPad ++ message))
  rw [hash, update_append] at houter
  rw [hinner, hnew, houter]

lemma hmac_eq {H : List UInt8 → List UInt8} (hH : ∀ memory data, hash memory data = H data)
    (memory : Sha256) (hashKey : Vector UInt8 64) (key message : List UInt8) :
    hmac memory hashKey key message = hmacOf H key message := by
  unfold hmac hmacOf
  by_cases hlong : key.length > blockSize
  · have hkey := hH memory key
    rw [hash] at hkey
    have hlen : (H key).length = 32 := by
      rw [← hkey]
      exact length_digestBytes _
    have hfits : (H key).length ≤ blockSize := by
      rw [hlen, blockSize]
      omega
    have hK0 := hashKey_toList hashKey hfits
    rw [hlen] at hK0
    rcases finalize_new ((new memory).update key) with ⟨memory', hnew⟩
    simp only [hlong, if_true, hkey, hnew, hmac_blocks hH, Vector.toList_map, hlen, ← hK0]
    rfl
  · have hle : key.length ≤ blockSize := Nat.not_lt.mp hlong
    have hK0 := hashKey_toList hashKey hle
    simp only [hlong, if_false, hmac_blocks hH, Vector.toList_map, ← hK0]
    by_cases hshort : key.length < blockSize
    · simp only [hshort, if_true]
    · simp only [hshort, if_false, Nat.sub_eq_zero_of_le (Nat.not_lt.mp hshort), zero, copy,
        List.replicate_zero]

/-- **Digests**: `hash` is a function of the message alone, `hmac` is HMAC over it, a message may come in
    pieces, and an object can be used again. -/
theorem digests : ∃ H : List UInt8 → List UInt8, (∀ memory data, hash memory data = H data) ∧
    (∀ memory hashKey key message, hmac memory hashKey key message = hmacOf H key message) ∧
    (∀ memory (chunks : List (List UInt8)),
      (chunks.foldl update (new memory)).finalize.1 = H chunks.flatten) ∧
    ∀ p : Sha256, ∃ memory, p.finalize.2 = new memory := by
  have zeros : Sha256 := ⟨Vector.replicate 8 0, 0, Vector.replicate 64 0⟩
  have hH : ∀ memory data, hash memory data = hash zeros data := fun memory => hash_any memory zeros
  refine ⟨hash zeros, hH, hmac_eq hH, ?_, finalize_new⟩
  intro memory chunks
  rw [update_flatten]
  exact hH memory chunks.flatten

end Sha256

end Nstd
