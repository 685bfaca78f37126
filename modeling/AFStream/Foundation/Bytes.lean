/-
# Blocks of bytes and their codecs

A block has a fixed length. Copying a shorter piece into it leaves the bytes behind the
piece as they were, so a reader must know how much was written. A codec is the memory
image of a type: every value takes the same number of bytes and can be read back.
-/

import Mathlib.Tactic

namespace AFStream.Foundation

universe u v

/-- A block of `n` bytes. -/
structure Block (n : ℕ) where
  bytes : List UInt8
  length_eq : bytes.length = n
  deriving DecidableEq

namespace Block

variable {n : ℕ}

/-- All bytes are zero. -/
def zero : Block n := ⟨List.replicate n 0, List.length_replicate⟩

/-- Copy the first `len` bytes of a block to the start of another. -/
def copy (dst src : Block n) (len : ℕ) : Block n where
  bytes := src.bytes.take len ++ dst.bytes.drop len
  length_eq := by
    rw [List.length_append, List.length_take, List.length_drop, src.length_eq, dst.length_eq]
    omega

/-- Write some bytes to the start of a block; what does not fit is not written. -/
def write (dst : Block n) (bytes : List UInt8) : Block n where
  bytes := (bytes ++ dst.bytes.drop bytes.length).take n
  length_eq := by
    rw [List.length_take, List.length_append, List.length_drop, dst.length_eq]
    omega

/-- What fits is written in front of what the block held. -/
theorem bytes_write (dst : Block n) {bytes : List UInt8} (hlength : bytes.length ≤ n) :
    (dst.write bytes).bytes = bytes ++ dst.bytes.drop bytes.length := by
  apply List.take_of_length_le
  rw [List.length_append, List.length_drop, dst.length_eq]
  omega

theorem take_copy (dst src : Block n) {len : ℕ} (hlen : len ≤ n) :
    (dst.copy src len).bytes.take len = src.bytes.take len := by
  have hlength : (src.bytes.take len).length = len := by
    rw [List.length_take, src.length_eq]
    omega
  rw [copy, List.take_left' hlength]

/-- The first of two pieces that were written together. -/
theorem take_write (dst : Block n) (first second : List UInt8)
    (hlength : (first ++ second).length ≤ n) :
    (dst.write (first ++ second)).bytes.take first.length = first := by
  have hfirst : first.length ≤ n := by
    rw [List.length_append] at hlength
    omega
  rw [write, List.take_take, Nat.min_eq_left hfirst, List.append_assoc, List.take_left]

end Block

/-- The memory image of a type. -/
structure Codec (T : Type u) where
  size : ℕ
  encode : T → List UInt8
  decode : List UInt8 → T
  length_encode : ∀ value, (encode value).length = size
  decode_encode : ∀ value, decode (encode value) = value

namespace Codec

variable {T : Type u} {U : Type v}

/-- Two values, one behind the other. -/
def pair (first : Codec T) (second : Codec U) : Codec (T × U) where
  size := first.size + second.size
  encode value := first.encode value.1 ++ second.encode value.2
  decode bytes := (first.decode (bytes.take first.size), second.decode (bytes.drop first.size))
  length_encode value := by
    rw [List.length_append, first.length_encode, second.length_encode]
  decode_encode value := by
    have hlength := first.length_encode value.1
    rw [List.take_left' hlength, List.drop_left' hlength, first.decode_encode,
      second.decode_encode]

/-- A value with nothing behind it. -/
def unit : Codec PUnit.{u + 1} where
  size := 0
  encode _ := []
  decode _ := ⟨⟩
  length_encode _ := rfl
  decode_encode _ := rfl

/-- A type of one byte. -/
def byte : Codec UInt8 where
  size := 1
  encode value := [value]
  decode bytes := bytes.headD 0
  length_encode _ := rfl
  decode_encode _ := rfl

/-- One byte of a value. -/
theorem toNat_shiftRight_toUInt8 (value : UInt32) {shift : ℕ} (hshift : shift < 32) :
    (value >>> UInt32.ofNat shift).toUInt8.toNat = value.toNat / 2 ^ shift % 256 := by
  rw [UInt32.toNat_toUInt8, UInt32.toNat_shiftRight, Nat.shiftRight_eq_div_pow,
    UInt32.toNat_ofNat', Nat.mod_eq_of_lt (hshift.trans (by decide)), Nat.mod_eq_of_lt hshift]

/-- Four bytes, the lowest one first. -/
def uint32 : Codec UInt32 where
  size := 4
  encode value :=
    [value.toUInt8, (value >>> 8).toUInt8, (value >>> 16).toUInt8, (value >>> 24).toUInt8]
  decode bytes := UInt32.ofNat (Nat.ofDigits 256 ((bytes.take 4).map UInt8.toNat))
  length_encode _ := rfl
  decode_encode value := by
    have hlt := value.toNat_lt
    have h₀ : value.toUInt8.toNat = value.toNat % 256 := UInt32.toNat_toUInt8 value
    have h₁ := toNat_shiftRight_toUInt8 value (show 8 < 32 by decide)
    have h₂ := toNat_shiftRight_toUInt8 value (show 16 < 32 by decide)
    have h₃ := toNat_shiftRight_toUInt8 value (show 24 < 32 by decide)
    apply UInt32.toNat_inj.mp
    simp only [List.take_succ_cons, List.take_zero, List.map_cons, List.map_nil, Nat.ofDigits_cons,
      Nat.ofDigits_nil, UInt32.toNat_ofNat']
    simp only [UInt32.reduceOfNat] at h₁ h₂ h₃
    rw [h₀, h₁, h₂, h₃]
    omega

/-- Four bytes are the image of the value that is read from them. -/
theorem uint32_encode_decode {bytes : List UInt8} (hlength : 4 ≤ bytes.length) :
    uint32.encode (uint32.decode bytes) = bytes.take 4 := by
  obtain ⟨a, b, c, d, rest, rfl⟩ : ∃ a b c d rest, bytes = a :: b :: c :: d :: rest := by
    match bytes, hlength with
    | a :: b :: c :: d :: rest, _ => exact ⟨a, b, c, d, rest, rfl⟩
  have ha := a.toNat_lt
  have hb := b.toNat_lt
  have hc := c.toNat_lt
  have hd := d.toNat_lt
  have hvalue : (uint32.decode (a :: b :: c :: d :: rest)).toNat =
      a.toNat + 256 * (b.toNat + 256 * (c.toNat + 256 * d.toNat)) := by
    simp only [uint32, List.take_succ_cons, List.take_zero, List.map_cons, List.map_nil,
      Nat.ofDigits_cons, Nat.ofDigits_nil, UInt32.toNat_ofNat']
    omega
  revert hvalue
  generalize uint32.decode (a :: b :: c :: d :: rest) = value
  intro hvalue
  have h₀ : value.toUInt8.toNat = value.toNat % 256 := UInt32.toNat_toUInt8 value
  have h₁ := toNat_shiftRight_toUInt8 value (show 8 < 32 by decide)
  have h₂ := toNat_shiftRight_toUInt8 value (show 16 < 32 by decide)
  have h₃ := toNat_shiftRight_toUInt8 value (show 24 < 32 by decide)
  simp only [UInt32.reduceOfNat] at h₁ h₂ h₃
  simp only [uint32, List.take_succ_cons, List.take_zero, List.cons.injEq, and_true,
    ← UInt8.toNat_inj, h₀, h₁, h₂, h₃, hvalue]
  omega

/-- A number of bytes, the lowest one first. -/
def lowBytes : ℕ → ℕ → List UInt8
  | 0, _ => []
  | count + 1, value => UInt8.ofNat value :: lowBytes count (value / 256)

theorem length_lowBytes (count value : ℕ) : (lowBytes count value).length = count := by
  induction count generalizing value with
  | zero => rfl
  | succ count ih => rw [lowBytes, List.length_cons, ih]

theorem ofDigits_lowBytes (count value : ℕ) :
    Nat.ofDigits 256 ((lowBytes count value).map UInt8.toNat) = value % 256 ^ count := by
  induction count generalizing value with
  | zero => rw [pow_zero, Nat.mod_one]; rfl
  | succ count ih =>
      rw [lowBytes, List.map_cons, Nat.ofDigits_cons, ih, pow_succ', Nat.mod_mul]
      rfl

/-- Eight bytes, the lowest one first. -/
def uint64 : Codec UInt64 where
  size := 8
  encode value := lowBytes 8 value.toNat
  decode bytes := UInt64.ofNat (Nat.ofDigits 256 ((bytes.take 8).map UInt8.toNat))
  length_encode value := length_lowBytes 8 value.toNat
  decode_encode value := by
    rw [List.take_of_length_le (length_lowBytes 8 value.toNat).le, ofDigits_lowBytes]
    apply UInt64.toNat_inj.mp
    rw [Nat.mod_eq_of_lt (by exact value.toNat_lt), UInt64.ofNat_toNat]

/-- A signed number of eight bytes, in two's complement. -/
def int64 : Codec Int64 where
  size := 8
  encode value := uint64.encode value.toUInt64
  decode bytes := (uint64.decode bytes).toInt64
  length_encode value := uint64.length_encode value.toUInt64
  decode_encode value := by
    rw [uint64.decode_encode, Int64.toInt64_toUInt64]

/-- Values of the same size, one behind the other. -/
theorem length_flatMap_encode (codec : Codec T) (values : List T) :
    (values.flatMap codec.encode).length = codec.size * values.length := by
  induction values with
  | nil => rfl
  | cons value rest ih =>
      rw [List.flatMap_cons, List.length_append, codec.length_encode, ih, List.length_cons,
        Nat.mul_succ, Nat.add_comm]

/-- The value at a computed offset. -/
theorem decode_drop_flatMap (codec : Codec T) {values : List T} {i : ℕ} {value : T}
    (hvalue : values[i]? = some value) (before after : List UInt8) :
    codec.decode (((before ++ (values.flatMap codec.encode ++ after)).drop
      (before.length + codec.size * i)).take codec.size) = value := by
  rw [List.drop_length_add_append]
  induction values generalizing i with
  | nil => cases hvalue
  | cons first rest ih =>
      rw [List.flatMap_cons, List.append_assoc]
      cases i with
      | zero =>
          obtain rfl := Option.some.inj hvalue
          rw [Nat.mul_zero, List.drop_zero, List.take_left' (codec.length_encode first),
            codec.decode_encode]
      | succ i =>
          rw [Nat.mul_succ, Nat.add_comm, ← codec.length_encode first,
            List.drop_length_add_append, codec.length_encode]
          exact ih hvalue

/-- What follows a value is not read. -/
theorem uint32_decode_append (value : UInt32) (rest : List UInt8) :
    uint32.decode (uint32.encode value ++ rest) = value :=
  uint32.decode_encode value

theorem uint64_decode_append (value : UInt64) (rest : List UInt8) :
    uint64.decode (uint64.encode value ++ rest) = value :=
  uint64.decode_encode value

end Codec

/-! ## Memory of any size -/

/-- Bytes are written at an offset. -/
def overwrite (memory : List UInt8) (offset : ℕ) (bytes : List UInt8) : List UInt8 :=
  memory.take offset ++ bytes ++ memory.drop (offset + bytes.length)

/-- Bytes are written behind what has been written before. -/
theorem overwrite_append (written bytes rest : List UInt8) :
    overwrite (written ++ rest) written.length bytes =
      written ++ bytes ++ rest.drop bytes.length := by
  rw [overwrite, List.take_left, List.drop_append]
  simp

/-! ## Writing at a moving position -/

/-- A block that is written from its start on. -/
structure Cursor (n : ℕ) where
  memory : Block n
  start : ℕ
  deriving DecidableEq

namespace Cursor

variable {n : ℕ}

/-- The next bytes are written; undefined where they do not fit into the block. -/
def append (cursor : Cursor n) (bytes : List UInt8) : Option (Cursor n) :=
  if h : cursor.start + bytes.length ≤ n then
    some
      { memory :=
          { bytes := overwrite cursor.memory.bytes cursor.start bytes
            length_eq := by
              rw [overwrite, List.length_append, List.length_append, List.length_take,
                List.length_drop, cursor.memory.length_eq]
              omega }
        start := cursor.start + bytes.length }
  else none

/-- The bytes that have been written so far. -/
structure Wrote (written : List UInt8) (cursor : Cursor n) : Prop where
  start_eq : cursor.start = written.length
  bytes_eq : ∃ rest, cursor.memory.bytes = written ++ rest

variable {written bytes : List UInt8} {cursor : Cursor n}

theorem Wrote.length_le (h : Wrote written cursor) : written.length ≤ n := by
  obtain ⟨rest, hbytes⟩ := h.bytes_eq
  have hlength := cursor.memory.length_eq
  rw [hbytes, List.length_append] at hlength
  exact hlength ▸ Nat.le_add_right _ _

/-- Bytes that fit are written behind the others. -/
theorem Wrote.append (h : Wrote written cursor) (hfits : written.length + bytes.length ≤ n) :
    ∃ cursor', cursor.append bytes = some cursor' ∧ Wrote (written ++ bytes) cursor' := by
  obtain ⟨rest, hbytes⟩ := h.bytes_eq
  have hfits' : cursor.start + bytes.length ≤ n := by
    rw [h.start_eq]
    exact hfits
  refine ⟨_, dif_pos hfits', ?_, rest.drop bytes.length, ?_⟩
  · dsimp only
    rw [List.length_append, h.start_eq]
  · dsimp only
    rw [hbytes, h.start_eq, overwrite_append]

theorem Wrote.append_eq_none (h : Wrote written cursor)
    (hlarge : ¬ written.length + bytes.length ≤ n) : cursor.append bytes = none := by
  apply dif_neg
  rw [h.start_eq]
  exact hlarge

end Cursor

/-- **Rule for loops that fill a buffer.** If every iteration appends a piece of the same size
while there is room, then the loop ends exactly when there is room for all pieces. -/
theorem foldlM_fill {State : Type u} {Input : Type v} {step : State → Input → Option State}
    {Filled : List Input → State → Prop} {base size room : ℕ}
    (hroom : ∀ {done state}, Filled done state → base + size * done.length ≤ room)
    (hstep : ∀ {done state input}, Filled done state → base + size * (done.length + 1) ≤ room →
      ∃ next, step state input = some next ∧ Filled (done ++ [input]) next)
    (hstop : ∀ {done state input}, Filled done state → ¬ base + size * (done.length + 1) ≤ room →
      step state input = none)
    {inputs done : List Input} {state : State} (hstart : Filled done state) :
    (base + size * (done.length + inputs.length) ≤ room →
      ∃ last, inputs.foldlM step state = some last ∧ Filled (done ++ inputs) last) ∧
    (¬ base + size * (done.length + inputs.length) ≤ room → inputs.foldlM step state = none) := by
  induction inputs generalizing done state with
  | nil =>
      constructor
      · intro _
        exact ⟨state, rfl, by rwa [List.append_nil]⟩
      · intro hlarge
        exact absurd (hroom hstart) hlarge
  | cons input rest ih =>
      have hlength : done.length + (input :: rest).length =
          (done ++ [input]).length + rest.length := by
        rw [List.length_cons, List.length_append, List.length_singleton]
        omega
      rw [List.foldlM_cons, hlength]
      by_cases hnext : base + size * (done.length + 1) ≤ room
      · obtain ⟨next, hsome, hfilled⟩ := @hstep _ _ input hstart hnext
        rw [hsome]
        have hrest := ih hfilled
        rwa [List.append_assoc, List.singleton_append] at hrest
      · rw [hstop hstart hnext]
        constructor
        · intro hall
          apply absurd _ hnext
          refine le_trans (Nat.add_le_add_left (Nat.mul_le_mul_left size ?_) base) hall
          rw [List.length_append, List.length_singleton]
          exact Nat.le_add_right _ _
        · intro _
          rfl

end AFStream.Foundation
