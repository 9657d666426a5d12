import Nstd.Crypto.Sha256Rounds

/-!
# The digests of `Sha256`

The buffer of an object holds what is behind the last whole block of a message.

* `Filled` — the blocks that were compressed, and the bytes in the buffer; `Filled.put`,
  `Filled.writeByteBlock`.
* `Absorbed` — a message was given to an object; `Absorbed.update`.
* `Filled.zeroLoop`, `lengthBytes_eq`, `digestBytes_eq` — the loops of `finalize`.
* **`standard_digests`** — digests are those of SHA-256, and keyed ones those of HMAC with it.

The buffer and the length are all that is left of a message besides its whole blocks; `finalize` writes
the padding behind them, so the last blocks it compresses are those of the padded message.
-/

namespace Nstd.Sha256

open Rings Sha256Standard FixedArray

/-! ## The buffer -/

/-- The blocks `bs` were compressed, and the buffer begins with `rest`. -/
structure Filled (bs : List (List UInt8)) (rest : List UInt8) (p : Sha256) : Prop where
  state : p.state.get = bs.foldl compress initial
  blocks : ∀ b ∈ bs, b.length = 64
  fits : rest.length ≤ 64
  buffer : p.buffer.toList.take rest.length = rest

variable {bs : List (List UInt8)} {rest : List UInt8} {p : Sha256}

lemma filled_new (memory : Sha256) : Filled [] [] (new memory) :=
  ⟨funext fun k => reset_eq memory k, fun _ hb => absurd hb List.not_mem_nil, Nat.zero_le 64, rfl⟩

/-- Bytes are written behind those that are there. -/
lemma Filled.copy (h : Filled bs rest p) (bytes : List UInt8) (hfits : rest.length + bytes.length ≤ 64) :
    Filled bs (rest ++ bytes) { p with buffer := copy p.buffer rest.length bytes } := by
  refine ⟨h.state, h.blocks, by rwa [List.length_append], ?_⟩
  rw [copy_toList _ _ hfits, h.buffer, ← List.length_append, List.take_left']
  rfl

lemma Filled.put (h : Filled bs rest p) (hlt : rest.length < 64) (b : UInt8) :
    Filled bs (rest ++ [b]) (p.put rest.length b) :=
  h.copy [b] hlt

lemma Filled.count (h : Filled bs rest p) (count : UInt64) : Filled bs rest { p with count } :=
  ⟨h.state, h.blocks, h.fits, h.buffer⟩

/-- **A full buffer** is compressed. -/
lemma Filled.writeByteBlock (h : Filled bs rest p) (hfull : rest.length = 64) :
    Filled (bs ++ [rest]) [] (WriteByteBlock p) := by
  have hbuffer : p.buffer.toList = rest := by
    have htake := h.buffer
    rwa [hfull, List.take_of_length_le (by simp)] at htake
  refine ⟨?_, fun b hb => ?_, Nat.zero_le 64, rfl⟩
  · rw [writeByteBlock_eq, hbuffer, h.state, List.foldl_append]
    rfl
  · rcases List.mem_append.mp hb with hb | hb
    · exact h.blocks b hb
    · rw [List.mem_singleton.mp hb, hfull]

/-! ## `update` -/

/-- A message was given to an object. -/
structure Absorbed (message : List UInt8) (bs : List (List UInt8)) (rest : List UInt8) (p : Sha256) :
    Prop where
  filled : Filled bs rest p
  lt : rest.length < 64
  count : p.count = UInt64.ofNat message.length
  message : message = bs.flatten ++ rest

variable {message : List UInt8}

/-- The index is where the message ends. -/
lemma Absorbed.length (h : Absorbed message bs rest p) : message.length % 64 = rest.length := by
  have hlt := h.lt
  rw [h.message, List.length_append, length_flatten_of h.filled.blocks]
  omega

lemma Absorbed.curBufferPos (h : Absorbed message bs rest p) : p.curBufferPos = rest.length := by
  have hlength := h.length
  rw [curBufferPos_eq, h.count, UInt64.toNat_ofNat']
  omega

/-- **One byte** -/
lemma Absorbed.absorb (h : Absorbed message bs rest p) (b : UInt8) :
    ∃ bs' rest', Absorbed (message ++ [b]) bs' rest' (p.absorb b) := by
  have hput := (h.filled.put h.lt b).count (p.count + 1)
  have hcount : p.count + 1 = UInt64.ofNat (message ++ [b]).length := by
    rw [h.count, List.length_append, UInt64.ofNat_add]
    rfl
  rw [Sha256.absorb, h.curBufferPos]
  by_cases hfull : rest.length + 1 = 64
  · refine ⟨bs ++ [rest ++ [b]], [], ?_⟩
    rw [if_pos hfull]
    refine ⟨hput.writeByteBlock (by rwa [List.length_append]), by decide, hcount, ?_⟩
    rw [h.message]
    simp
  · refine ⟨bs, rest ++ [b], ?_⟩
    rw [if_neg hfull]
    have hlt := h.lt
    refine ⟨hput, by rw [List.length_append, List.length_singleton]; omega, hcount, ?_⟩
    rw [h.message, List.append_assoc]

/-- **All bytes** -/
lemma Absorbed.update (h : Absorbed message bs rest p) (data : List UInt8) :
    ∃ bs' rest', Absorbed (message ++ data) bs' rest' (p.update data) := by
  rw [update_eq]
  induction data generalizing message bs rest p with
  | nil => exact ⟨bs, rest, by rwa [List.append_nil]⟩
  | cons b data ih =>
    obtain ⟨bs', rest', habsorb⟩ := h.absorb b
    obtain ⟨bs'', rest'', hall⟩ := ih habsorb
    rw [List.append_assoc, List.singleton_append] at hall
    exact ⟨bs'', rest'', hall⟩

/-! ## `finalize` -/

lemma zeroLoop_full (p : Sha256) {i : Fin 65} (hi : i.val = 64) :
    p.zeroLoop i = ((WriteByteBlock p).put 0 0).zeroLoop 1 := by
  rw [zeroLoop, dif_neg (by omega)]
  simp [hi]

/-- **The zeros** fill the buffer up to the index 56. -/
lemma Filled.zeroLoop (h : Filled bs rest p) {i : Fin 65} (hi : i.val = rest.length) (hpos : 0 < i.val) :
    ∃ bs' rest', Filled bs' rest' (zeroLoop p i) ∧ rest'.length = 56
      ∧ bs'.flatten ++ rest' = bs.flatten ++ rest ++ List.replicate ((120 - i.val) % 64) 0 := by
  induction hm : (120 - i.val) % 64 using Nat.strongRecOn generalizing p bs rest i with
  | _ m ih =>
    have hlt := i.isLt
    by_cases hdone : i.val = 64 - 8
    · refine ⟨bs, rest, ?_, by omega, ?_⟩
      · rwa [zeroLoop_done p hdone]
      · obtain rfl : m = 0 := by omega
        simp
    by_cases hfull : i.val = 64
    · -- the buffer is compressed before the next zero
      have hwrite := (h.writeByteBlock (by omega)).put (by decide) 0
      obtain ⟨bs', rest', hfilled, hlength, hall⟩ :=
        ih 55 (by omega) (i := 1) hwrite rfl Nat.one_pos rfl
      refine ⟨bs', rest', ?_, hlength, ?_⟩
      · rwa [zeroLoop_full p hfull]
      · obtain rfl : m = 56 := by omega
        rw [hall]
        simp [List.replicate_succ]
    · have hput := h.put (by omega) 0
      rw [← hi] at hput
      obtain ⟨bs', rest', hfilled, hlength, hall⟩ :=
        ih ((120 - (i.val + 1)) % 64) (by omega) (i := ⟨i.val + 1, by omega⟩) hput
          (by simp [hi]) (Nat.succ_pos _) rfl
      refine ⟨bs', rest', ?_, hlength, ?_⟩
      · rwa [zeroLoop_zero p hdone (by omega) (by omega)]
      · obtain ⟨n, rfl⟩ := Nat.exists_eq_succ_of_ne_zero (show m ≠ 0 by omega)
        rw [hall, show (120 - (i.val + 1)) % 64 = n by omega]
        simp [List.replicate_succ]

/-- **The length** is written from its first byte on. -/
lemma lengthBytes_eq {n : ℕ} (hn : n ≤ 8) (x : ℕ) :
    lengthBytes (UInt64.ofNat (x * 256 ^ (8 - n))) n = bytesOf n x := by
  induction n with
  | zero => rfl
  | succ n ih =>
    have hpow : 256 ^ (8 - n) = 256 ^ (8 - (n + 1)) * 256 := by
      rw [← Nat.pow_succ]
      congr 1
      omega
    have hdiv : x * 256 ^ (8 - (n + 1)) / 2 ^ 56 = x / 256 ^ n := by
      have h7 : 2 ^ 56 = 256 ^ n * 256 ^ (8 - (n + 1)) := by
        rw [← Nat.pow_add, show n + (8 - (n + 1)) = 7 by omega]
        rfl
      rw [h7, Nat.mul_div_mul_right _ _ (Nat.pow_pos (by decide))]
    have hshift : UInt64.ofNat (x * 256 ^ (8 - (n + 1))) <<< 8 = UInt64.ofNat (x * 256 ^ (8 - n)) := by
      rw [hpow, ← UInt64.toNat_inj]
      simp [UInt64.toNat_shiftLeft, Nat.shiftLeft_eq, ← Nat.mul_assoc]
    have hfirst : (UInt64.ofNat (x * 256 ^ (8 - (n + 1))) >>> 56).toUInt8
        = UInt8.ofNat (x / 256 ^ n) := by
      rw [← hdiv, ← UInt8.toNat_inj]
      simp [UInt64.toNat_shiftRight, Nat.shiftRight_eq_div_pow]
      omega
    rw [lengthBytes, hshift, ih (by omega), hfirst, bytesOf, bytesOf, List.range_succ_eq_map,
      List.map_cons, List.map_map]
    refine congrArg₂ List.cons rfl (List.map_congr_left fun i _ => ?_)
    rw [Function.comp_apply, show n + 1 - 1 - i.succ = n - 1 - i by omega]

lemma digestBytes_eq (state : Vector UInt32 8) :
    digestBytes state = (List.finRange 8).flatMap fun k => bytesOf 4 (state.get k).toNat := by
  have hbytes : ∀ s : UInt32, [(s >>> 24).toUInt8, (s >>> 16).toUInt8, (s >>> 8).toUInt8, s.toUInt8]
      = bytesOf 4 s.toNat := by
    intro s
    simp [bytesOf, List.range_succ, ← UInt8.toNat_inj, Nat.shiftRight_eq_div_pow]
  have hlist : state.toList = (List.finRange 8).map state.get := by
    refine List.ext_getElem (by simp) fun i hi hi' => ?_
    simp [get_eq]
  rw [digestBytes, hlist, List.flatMap_map]
  exact List.flatMap_congr fun k _ => hbytes _

/-- **The digest** is that of the message. -/
lemma Absorbed.finalize (h : Absorbed message bs rest p) : p.finalize.1 = digest message := by
  have hlt := h.lt
  have hlength := h.length
  have hput := h.filled.put hlt 0x80
  have hpos : (Fin.ofNat 65 (rest.length + 1)).val = rest.length + 1 := Nat.mod_eq_of_lt (by omega)
  obtain ⟨bs', rest', hfilled, h56, hall⟩ :=
    hput.zeroLoop (i := Fin.ofNat 65 (rest.length + 1)) (by simp; omega) (by omega)
  have hbits : p.count <<< 3 = UInt64.ofNat (8 * message.length * 256 ^ (8 - 8)) := by
    rw [h.count, ← UInt64.toNat_inj]
    simp [UInt64.toNat_shiftLeft, Nat.shiftLeft_eq, Nat.mul_comm]
  have hbytes : lengthBytes (p.count <<< 3) 8 = bytesOf 8 (8 * message.length) := by
    rw [hbits]
    exact lengthBytes_eq le_rfl _
  have h8 : (bytesOf 8 (8 * message.length)).length = 8 := by simp [bytesOf]
  have hcopy := hfilled.copy (bytesOf 8 (8 * message.length)) (by omega)
  have hlast : (rest' ++ bytesOf 8 (8 * message.length)).length = 64 := by
    rw [List.length_append, h56, h8]
  have hwrite := hcopy.writeByteBlock hlast
  have hzeros : (120 - (rest.length + 1)) % 64 = (119 - message.length % 64) % 64 := by omega
  have hchunks : chunks 64 (message ++ padding message.length)
      = bs' ++ [rest' ++ bytesOf 8 (8 * message.length)] := by
    have hflatten : (bs' ++ [rest' ++ bytesOf 8 (8 * message.length)]).flatten
        = message ++ padding message.length := by
      rw [List.flatten_append, List.flatten_singleton, ← List.append_assoc, hall, hpos, hzeros,
        ← List.append_assoc, ← h.message, padding]
      simp
    rw [← hflatten]
    exact chunks_flatten (by decide) hwrite.blocks
  have hstate : p.finalize.1 = digestBytes (WriteByteBlock { Sha256.zeroLoop (p.put rest.length 0x80)
      (Fin.ofNat 65 (rest.length + 1)) with
        buffer := FixedArray.copy (Sha256.zeroLoop (p.put rest.length 0x80)
          (Fin.ofNat 65 (rest.length + 1))).buffer rest'.length
          (bytesOf 8 (8 * message.length)) }).state := by
    rw [Sha256.finalize, h.curBufferPos, hbytes, h56]
  rw [hstate, digestBytes_eq, hwrite.state, digest, hchunks]

/-- **Digests** are those of SHA-256, of a message as a whole or in pieces, and keyed digests are those of
    HMAC with it, for keys of any length. -/
theorem standard_digests (memory : Sha256) :
    (∀ data, hash memory data = digest data) ∧
    (∀ chunks : List (List UInt8), (chunks.foldl update (new memory)).finalize.1 = digest chunks.flatten) ∧
    ∀ hashKey key message, hmac memory hashKey key message = hmacOf digest key message := by
  have hmessage : ∀ (memory : Sha256) (data : List UInt8),
      ((new memory).update data).finalize.1 = digest data := by
    intro memory data
    have hnew : Absorbed [] [] [] (new memory) :=
      ⟨filled_new memory, by decide, rfl, rfl⟩
    obtain ⟨bs, rest, habsorbed⟩ := hnew.update data
    exact habsorbed.finalize
  refine ⟨hmessage memory, fun chunks => ?_, hmac_eq hmessage memory⟩
  rw [update_flatten]
  exact hmessage memory chunks.flatten

end Nstd.Sha256
