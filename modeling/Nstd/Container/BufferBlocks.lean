import Nstd.Container.Buffer

/-!
# What a `Buffer` allocates

* `Op.request` — how many bytes an operation allocates.
* `blockPlace` — where the block of a `Buffer` is.
* `Moves` — the object stays, and its block also or it is one that was requested.
* **`run_moves`**, **`run_made`** — what an operation, and a constructor, do to them.
-/

namespace Nstd.Buffer

/-- The bytes of the block that is allocated for more bytes than there is room for -/
def request (b : Buffer) (size : ℕ) : Option ℕ :=
  if size > b.capacity then some (wrapAdd size 1) else none

/-- What `prepend` allocates for `n` more bytes -/
def prependRequest (b : Buffer) (n : ℕ) : Option ℕ :=
  match b.buffer with
  | some k =>
    if wrapSub b.bufferStart k.address ≥ n ∨ b.capacity ≥ wrapAdd n b.size then none
    else some (wrapAdd (wrapAdd n b.size) 1)
  | none => some (wrapAdd (wrapAdd n b.size) 1)

/-- **What an operation allocates**: the number of bytes -/
def Op.request : Option Buffer → Op → Option ℕ
  | none, .ofCapacity _ capacity => some (wrapAdd capacity 1)
  | none, .ofBytes _ data => some (wrapAdd data.bytes.length 1)
  | some b, .assign data => b.request data.bytes.length
  | some b, .prepend data => b.prependRequest data.bytes.length
  | some b, .append data => b.request (wrapAdd b.size data.bytes.length)
  | some b, .resize size => b.request size
  | some b, .reserve capacity => b.request capacity
  | _, _ => none

/-- Where the block of a `Buffer` is, and how many bytes it has -/
def blockPlace (b : Buffer) : Option (ℕ × ℕ) := b.buffer.map fun k => (k.address, k.bytes.length)

/-- The object stays where it is, and its block also or it is one that was requested. -/
def Moves (A : Allocator) (r : Option ℕ) (b b' : Buffer) : Prop :=
  b'.capacityField = b.capacityField
    ∧ ∀ p ∈ b'.blockPlace, p ∈ b.blockPlace ∨ ∃ n ∈ r, p = (A.address n, n)

section Moves

variable {A : Allocator} {r : Option ℕ} {b b' b'' : Buffer}

/-- Other pointers and sizes do not matter. -/
lemma Moves.of_same (hfield : b'.capacityField = b.capacityField) (hbuffer : b'.buffer = b.buffer) :
    Moves A r b b' :=
  ⟨hfield, fun p hp => Or.inl (by rw [blockPlace, ← hbuffer]; exact hp)⟩

lemma Moves.refl (b : Buffer) : Moves A r b b := .of_same rfl rfl

/-- After the block was chosen it stays. -/
lemma Moves.trans (h : Moves A r b b') (h' : Moves A none b' b'') : Moves A r b b'' := by
  refine ⟨h'.1.trans h.1, fun p hp => ?_⟩
  rcases h'.2 p hp with hp | ⟨n, hn, -⟩
  · exact h.2 p hp
  · exact absurd hn.symm (Option.some_ne_none n)

/-- A block in place of another, which was written to after it was there or was allocated -/
lemma Moves.of_write {k k' : MemoryBlock} {addr : ℕ} {bytes : List UInt8}
    (hwrite : k.write addr bytes = some k') (hfield : b'.capacityField = b.capacityField)
    (hb' : b'.buffer = some k')
    (hk : b.buffer = some k ∨ ∃ n ∈ r, (k.address, k.bytes.length) = (A.address n, n)) :
    Moves A r b b' := by
  obtain ⟨haddr, hlength⟩ := MemoryBlock.write_place hwrite
  refine ⟨hfield, fun p hp => ?_⟩
  rw [blockPlace, hb', Option.map_some, haddr, hlength] at hp
  obtain rfl := Option.some_inj.mp hp
  refine hk.imp (fun hk => ?_) id
  rw [blockPlace, hk]
  rfl

lemma moves_write {addr : ℕ} {bytes : List UInt8} (h : b.write addr bytes = some b') :
    Moves A none b b' := by
  rw [write] at h
  split at h
  · rename_i k _ hk
    obtain ⟨k', hwrite, hb⟩ := Option.bind_eq_some_iff.mp h
    obtain rfl := Option.some_inj.mp hb
    exact .of_write hwrite rfl rfl (Or.inl hk)
  · obtain ⟨k', -, hb⟩ := Option.bind_eq_some_iff.mp h
    obtain rfl := Option.some_inj.mp hb
    exact .of_same rfl rfl
  · split_ifs at h
    obtain rfl := Option.some_inj.mp h
    exact .refl b

lemma moves_terminate (h : b.terminate = some b') : Moves A none b b' := by
  rw [terminate] at h
  split_ifs at h
  · obtain rfl := Option.some_inj.mp h
    exact .refl b
  · exact moves_write h

lemma new_place (A : Allocator) (n : ℕ) :
    ((A.new n).address, (A.new n).bytes.length) = (A.address n, n) := by
  rw [show (A.new n).bytes.length = n from A.bytes_length n]
  rfl

lemma moves_fill {c : Buffer} {k : MemoryBlock} {data : List UInt8} (h : c.fill k data = some b')
    (hfield : c.capacityField = b.capacityField)
    (hk : b.buffer = some k ∨ ∃ n ∈ r, (k.address, k.bytes.length) = (A.address n, n)) :
    Moves A r b b' := by
  obtain ⟨k', hwrite, hterminate⟩ := Option.bind_eq_some_iff.mp h
  exact (Moves.of_write hwrite (by exact hfield) rfl hk).trans (moves_terminate hterminate)

lemma moves_grow {capacity size : ℕ} (h : b.grow A capacity size = some b') :
    Moves A (some (wrapAdd capacity 1)) b b' := by
  obtain ⟨old, -, h⟩ := Option.bind_eq_some_iff.mp h
  obtain ⟨k, hwrite, hterminate⟩ := Option.bind_eq_some_iff.mp h
  exact (Moves.of_write hwrite (by rfl) rfl (Or.inr ⟨_, rfl, new_place A _⟩)).trans
    (moves_terminate hterminate)

lemma moves_assign {data : List UInt8} (h : b.assign A data = some b') :
    Moves A (b.request data.length) b b' := by
  rw [assign] at h
  rw [request]
  split_ifs at h ⊢
  · exact moves_fill h rfl (Or.inr ⟨_, rfl, new_place A _⟩)
  · split at h
    · obtain rfl := Option.some_inj.mp h
      exact .refl b
    · exact moves_fill h rfl (Or.inl ‹_›)

lemma moves_resize {size : ℕ} (h : b.resize A size = some b') : Moves A (b.request size) b b' := by
  rw [resize] at h
  rw [request]
  split_ifs at h ⊢
  · exact moves_grow h
  · split at h
    · obtain rfl := Option.some_inj.mp h
      exact .refl b
    · rename_i k hk
      split_ifs at h
      · have hsame : Moves A none b { b with bufferEnd := wrapAdd b.bufferStart size } :=
          .of_same rfl rfl
        exact hsame.trans (moves_terminate h)
      · obtain ⟨old, -, h⟩ := Option.bind_eq_some_iff.mp h
        obtain ⟨k', hwrite, hterminate⟩ := Option.bind_eq_some_iff.mp h
        exact (Moves.of_write hwrite (by rfl) rfl (Or.inl hk)).trans (moves_terminate hterminate)

lemma moves_append {data : List UInt8} (h : b.append A data = some b') :
    Moves A (b.request (wrapAdd b.size data.length)) b b' := by
  obtain ⟨b₁, hresize, h⟩ := Option.bind_eq_some_iff.mp h
  obtain ⟨b₂, hwrite, hterminate⟩ := Option.bind_eq_some_iff.mp h
  exact ((moves_resize hresize).trans (moves_write hwrite)).trans (moves_terminate hterminate)

lemma moves_reserve {capacity : ℕ} (h : b.reserve A capacity = some b') :
    Moves A (b.request capacity) b b' := by
  rw [reserve] at h
  split_ifs at h with hle
  · obtain rfl := Option.some_inj.mp h
    exact .refl b
  · rw [request, if_pos (Nat.not_le.mp hle)]
    exact moves_grow h

/-- Two writes to a block -/
lemma Moves.of_writes {k k₁ k₂ : MemoryBlock} {addr₁ addr₂ : ℕ} {bytes₁ bytes₂ : List UInt8}
    (hwrite₁ : k.write addr₁ bytes₁ = some k₁) (hwrite₂ : k₁.write addr₂ bytes₂ = some k₂)
    (hfield : b'.capacityField = b.capacityField) (hb' : b'.buffer = some k₂)
    (hk : b.buffer = some k ∨ ∃ n ∈ r, (k.address, k.bytes.length) = (A.address n, n)) :
    Moves A r b b' := by
  have hfirst : Moves A r b { b' with buffer := some k₁ } := .of_write hwrite₁ hfield rfl hk
  exact hfirst.trans (.of_write hwrite₂ rfl hb' (Or.inl rfl))

lemma moves_prependNew {data : List UInt8} (h : b.prependNew A data = some b') :
    Moves A (some (wrapAdd (wrapAdd data.length b.size) 1)) b b' := by
  obtain ⟨k₁, hwrite₁, h⟩ := Option.bind_eq_some_iff.mp h
  obtain ⟨old, -, h⟩ := Option.bind_eq_some_iff.mp h
  obtain ⟨k₂, hwrite₂, hb⟩ := Option.bind_eq_some_iff.mp h
  obtain rfl := Option.some_inj.mp hb
  exact .of_writes hwrite₁ hwrite₂ rfl rfl (Or.inr ⟨_, rfl, new_place A _⟩)

lemma moves_prepend {data : List UInt8} (h : b.prepend A data = some b') :
    Moves A (b.prependRequest data.length) b b' := by
  rw [prepend] at h
  rw [prependRequest]
  cases hk : b.buffer with
  | none =>
    rw [hk] at h
    exact moves_prependNew h
  | some k =>
    rw [hk] at h
    dsimp only at h ⊢
    split_ifs at h with hgap hhere
    · rw [if_pos (Or.inl hgap)]
      have hsame : Moves A none b
          { b with buffer := some k, bufferStart := wrapSub b.bufferStart data.length } :=
        .of_same rfl hk.symm
      exact hsame.trans (moves_write h)
    · rw [if_pos (Or.inr hhere)]
      obtain ⟨old, -, h⟩ := Option.bind_eq_some_iff.mp h
      obtain ⟨k₁, hwrite₁, h⟩ := Option.bind_eq_some_iff.mp h
      obtain ⟨k₂, hwrite₂, hb⟩ := Option.bind_eq_some_iff.mp h
      obtain rfl := Option.some_inj.mp hb
      exact .of_writes hwrite₁ hwrite₂ rfl rfl (Or.inl hk)
    · rw [if_neg (not_or.mpr ⟨hgap, hhere⟩)]
      exact moves_prependNew h

end Moves

/-- **Where an object and its block are** after an operation -/
lemma run_moves {A : Allocator} {op : Op} {b b' : Buffer} (h : op.run A (some b) = some b') :
    Moves A (op.request (some b)) b b' := by
  cases op with
  | null _ => exact absurd h.symm (Option.some_ne_none b')
  | ofCapacity _ _ => exact absurd h.symm (Option.some_ne_none b')
  | ofBytes _ _ => exact absurd h.symm (Option.some_ne_none b')
  | assign data => exact moves_assign h
  | prepend data => exact moves_prepend h
  | append data => exact moves_append h
  | resize size => exact moves_resize h
  | reserve capacity => exact moves_reserve h
  | removeFront size =>
    obtain rfl := Option.some_inj.mp h
    rw [removeFront]
    dsimp only
    split_ifs
    · exact .of_same rfl rfl
    · exact .of_same rfl rfl
  | removeBack size =>
    have hremove : b.removeBack size = some b' := h
    rw [removeBack] at hremove
    split_ifs at hremove
    · have hsame : Moves A none b { b with bufferStart := b.home, bufferEnd := b.home } :=
        .of_same rfl rfl
      exact hsame.trans (moves_terminate hremove)
    · have hsame : Moves A none b { b with bufferEnd := wrapSub b.bufferEnd size } :=
        .of_same rfl rfl
      exact hsame.trans (moves_terminate hremove)
  | clear =>
    have hclear : b.clear = some b' := h
    rw [clear] at hclear
    split at hclear
    · rename_i k hk
      have hsame : Moves A none b { b with bufferStart := k.address, bufferEnd := k.address } :=
        .of_same rfl rfl
      exact hsame.trans (moves_terminate hclear)
    · obtain rfl := Option.some_inj.mp hclear
      exact .of_same rfl rfl
  | free =>
    obtain rfl := Option.some_inj.mp h
    exact ⟨rfl, fun p hp => absurd hp.symm (Option.some_ne_none p)⟩

/-- A constructor makes an object where it is told to. -/
lemma run_made {A : Allocator} {op : Op} {b' : Buffer} (h : op.run A none = some b') :
    ∃ f ∈ op.place, Moves A (op.request none) (null f) b' := by
  cases op with
  | null f =>
    obtain rfl := Option.some_inj.mp h
    exact ⟨f, rfl, .refl _⟩
  | ofCapacity f capacity =>
    have hmade : ofCapacity A f capacity = some b' := h
    rw [ofCapacity] at hmade
    refine ⟨f, rfl, ?_⟩
    have hfirst : Moves A (some (wrapAdd capacity 1)) (null f) { null f with
        buffer := some (A.new (wrapAdd capacity 1)), capacity,
        bufferStart := (A.new (wrapAdd capacity 1)).address,
        bufferEnd := (A.new (wrapAdd capacity 1)).address } :=
      ⟨rfl, fun p hp => Or.inr ⟨_, rfl, (Option.some_inj.mp hp).symm.trans (new_place A _)⟩⟩
    exact hfirst.trans (moves_terminate hmade)
  | ofBytes f data => exact ⟨f, rfl, moves_fill h rfl (Or.inr ⟨_, rfl, new_place A _⟩)⟩
  | _ => exact absurd h.symm (Option.some_ne_none b')

end Nstd.Buffer
