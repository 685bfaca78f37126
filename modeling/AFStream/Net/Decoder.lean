/-
# The v2 decoder

The decoder is a state machine that knows at any time how many bytes it needs before its
next step: one for the flags, one or eight for the size, and as many as the size says for
the content. It takes its input in pieces of any length, from a buffer of its own or, when
it needs at least as much as that buffer holds, directly into the place where the bytes
belong. The module shows what one piece does to a decoder that is somewhere in a stream of
frames, and what any bytes do to a decoder: which message it reports, which sizes it refuses
and which ones make it write behind the memory it has got.
-/

import AFStream.Net.Encoder

namespace AFStream.Net

/-- The steps of `v2_decoder_t`. -/
inductive DecoderStep
  | flagsReady
  | oneByteSizeReady
  | eightByteSizeReady
  | messageReady
  deriving DecidableEq, Repr

/-- The results -1, 0 and 1 of a step and of `decode`. -/
inductive DecodeResult
  | error
  | more
  | message
  | /-- A chunk that is smaller than a `content_t` has been used as one. -/
    fault
  deriving DecidableEq, Repr

/-- `msg_t::max_vsm_size`: a message up to this size needs no chunk. -/
def maxVsmSize : ℕ := 29

/-- `sizeof (content_t)`: four words and a 32-bit counter, with padding. -/
def sizeofContent : ℕ := 40

/-- `decoder_base_t` and `v2_decoder_t`. -/
structure Decoder where
  next : DecoderStep
  /-- What has been stored since the last step, in `tmpbuf` or in the message. -/
  stored : List UInt8
  toRead : ℕ
  /-- The bits of `msg_flags`. -/
  more : Bool
  command : Bool
  inProgress : Msg
  bufsize : ℕ
  maxmsgsize : ℤ
  /-- What the coming calls of `malloc` answer; those behind them succeed. -/
  mallocs : List Bool

/-- `get_uint64` -/
def getUInt64 (bytes : List UInt8) : ℕ :=
  (bytes.zipWith (fun b shift => b.toNat <<< shift) [56, 48, 40, 32, 24, 16, 8, 0]).foldr
    (· ||| ·) 0

namespace Decoder

/-- The constructor. -/
def create (bufsize : ℕ) (maxmsgsize : ℤ) : Decoder where
  next := .flagsReady
  stored := []
  toRead := 1
  more := false
  command := false
  inProgress := .initSize 0
  bufsize := bufsize
  maxmsgsize := maxmsgsize
  mallocs := []

variable (d : Decoder)

/-- `next_step` -/
def nextStep (toRead : ℕ) (next : DecoderStep) : Decoder :=
  { d with stored := [], toRead := toRead, next := next }

/-- `flags_ready` -/
def flagsReady : DecodeResult × Decoder :=
  let byte := d.stored.headD 0
  let d := { d with more := byte &&& 1 ≠ 0, command := byte &&& 4 ≠ 0 }
  if byte &&& 2 ≠ 0 then (.more, d.nextStep 8 .eightByteSizeReady)
  else (.more, d.nextStep 1 .oneByteSizeReady)

/-- The message in progress gets its flags, and its content is read next. -/
def startMessage (size : ℕ) : Decoder :=
  let msg := { Msg.initSize size with more := d.more, command := d.command }
  ({ d with inProgress := msg }).nextStep size .messageReady

/-- What `one_byte_size_ready` and `eight_byte_size_ready` do with the size. In `init_size`
the sum of the sizes is a `size_t`; where it wraps, the chunk has no room for the `content_t`
that is written to it. -/
def sizeReady (size : ℕ) : DecodeResult × Decoder :=
  if 0 ≤ d.maxmsgsize ∧ d.maxmsgsize < size then (.error, d)
  else if size ≤ maxVsmSize then (.more, d.startMessage size)
  else
    let granted := d.mallocs.headD true
    let d := { d with mallocs := d.mallocs.tail }
    if granted = false then (.error, { d with inProgress := .initSize 0 })
    else if 2 ^ 64 ≤ sizeofContent + size then (.fault, d)
    else (.more, d.startMessage size)

/-- `message_ready`: the stored bytes are the content of the message. -/
def messageReady : DecodeResult × Decoder :=
  let msg := { d.inProgress with content := d.stored }
  (.message, ({ d with inProgress := msg }).nextStep 1 .flagsReady)

/-- Run the step of the state machine. -/
def runNext : DecodeResult × Decoder :=
  match d.next with
  | .flagsReady => d.flagsReady
  | .oneByteSizeReady => d.sizeReady (d.stored.headD 0).toNat
  | .eightByteSizeReady => d.sizeReady (getUInt64 d.stored)
  | .messageReady => d.messageReady

/-- The loop that runs steps while nothing is to be read: two at most, the second for a
message without content. -/
def runSteps : ℕ → Decoder → DecodeResult × Decoder
  | 0, d => (.more, d)
  | fuel + 1, d =>
    if d.toRead = 0 then
      match d.runNext with
      | (.more, d) => runSteps fuel d
      | result => result
    else (.more, d)

/-- Store bytes at `read_pos` and run what can be run. -/
def take (bytes : List UInt8) : DecodeResult × Decoder :=
  runSteps 2 { d with stored := d.stored ++ bytes, toRead := d.toRead - bytes.length }

/-- `get_buffer`: whether it is the place where the bytes belong, and its size. -/
def getBuffer : Bool × ℕ :=
  if d.bufsize ≤ d.toRead then (true, d.toRead) else (false, d.bufsize)

/-- The copying loop of `decode`, which counts the bytes used. -/
def decodeLoop : ℕ → List UInt8 → ℕ → Decoder → DecodeResult × ℕ × Decoder
  | 0, _, used, d => (.more, used, d)
  | fuel + 1, data, used, d =>
    if data = [] then (.more, used, d)
    else
      let toCopy := min d.toRead data.length
      match d.take (data.take toCopy) with
      | (.more, d) => decodeLoop fuel (data.drop toCopy) (used + toCopy) d
      | (result, d) => (result, used + toCopy, d)

/-- `decode`, with the number of bytes used. In the case of zero-copy it asserts that the
data are not more than what is to be read. -/
def decode (zeroCopy : Bool) (data : List UInt8) : Option (DecodeResult × ℕ × Decoder) :=
  if zeroCopy then
    if data.length ≤ d.toRead then
      let (result, d) := d.take data
      some (result, data.length, d)
    else none
  else some (decodeLoop data.length data 0 d)

end Decoder

/-! ## Headers -/

/-- Every combination of flags can be read off the byte. -/
theorem flags_byte_bits : ∀ more large command : Bool,
    let byte : UInt8 := (if more then 1 else 0) ||| (if large then 2 else 0) |||
      if command then 4 else 0
    decide (byte &&& 1 ≠ 0) = more ∧ decide (byte &&& 2 ≠ 0) = large ∧
      decide (byte &&& 4 ≠ 0) = command := by
  decide

theorem flags_bits (msg : Msg) :
    decide (flags msg &&& 1 ≠ 0) = msg.more ∧
      decide (flags msg &&& 2 ≠ 0) = decide (msg.size > 255) ∧
      decide (flags msg &&& 4 ≠ 0) = msg.command := by
  have hbits := flags_byte_bits msg.more (decide (msg.size > 255)) msg.command
  simp only [decide_eq_true_eq] at hbits
  exact hbits

theorem toNat_byte (value : ℕ) : (value % 256).toUInt8.toNat = value % 256 := by
  rw [UInt8.toNat_ofNat', Nat.mod_mod]

/-- One more byte of a number. -/
theorem byte_or_mod (value : ℕ) {shift shift' : ℕ} (hshift : shift + 8 = shift') :
    (value / 2 ^ shift % 256) <<< shift ||| value % 2 ^ shift = value % 2 ^ shift' := by
  rw [← Nat.shiftLeft_add_eq_or_of_lt (Nat.mod_lt _ (Nat.two_pow_pos shift)), Nat.shiftLeft_eq,
    ← hshift, pow_add, Nat.mod_mul, Nat.mul_comm, Nat.add_comm]
  rfl

/-- **Round trip** of a size in eight bytes. -/
theorem getUInt64_putUInt64 {size : ℕ} (hsize : size < 2 ^ 64) :
    getUInt64 (putUInt64 size) = size := by
  have hlast : (size / 2 ^ 0 % 256) <<< 0 ||| 0 = size % 2 ^ 8 := by
    rw [Nat.or_zero, Nat.shiftLeft_zero, pow_zero, Nat.div_one]
    rfl
  simp only [getUInt64, putUInt64, List.map_cons, List.map_nil, List.zipWith_cons_cons,
    List.zipWith_nil_left, List.foldr_cons, List.foldr_nil, toNat_byte]
  rw [hlast, byte_or_mod size (show 8 + 8 = 16 from rfl),
    byte_or_mod size (show 16 + 8 = 24 from rfl), byte_or_mod size (show 24 + 8 = 32 from rfl),
    byte_or_mod size (show 32 + 8 = 40 from rfl), byte_or_mod size (show 40 + 8 = 48 from rfl),
    byte_or_mod size (show 48 + 8 = 56 from rfl), byte_or_mod size (show 56 + 8 = 64 from rfl),
    Nat.mod_eq_of_lt hsize]

namespace Decoder

/-- The frames of messages with their own content. -/
def stream (msgs : List Msg) : List UInt8 := msgs.flatMap fun msg => Encoder.frame msg none

/-- The decoder is at some place in the frames of the messages, and the given bytes are
what is left of them. -/
inductive Expects (d : Decoder) : List Msg → List UInt8 → Prop
  | flags (msgs : List Msg) (hnext : d.next = .flagsReady) (hstored : d.stored = [])
      (hread : d.toRead = 1) : Expects d msgs (stream msgs)
  | oneByteSize (msg : Msg) (msgs : List Msg) (hnext : d.next = .oneByteSizeReady)
      (hstored : d.stored = []) (hread : d.toRead = 1) (hmore : d.more = msg.more)
      (hcommand : d.command = msg.command) (hsize : msg.size ≤ 255) :
      Expects d (msg :: msgs) ([msg.size.toUInt8] ++ (msg.content ++ stream msgs))
  | eightByteSize (msg : Msg) (msgs : List Msg) (left : List UInt8)
      (hnext : d.next = .eightByteSizeReady) (hstored : d.stored ++ left = putUInt64 msg.size)
      (hleft : left ≠ []) (hread : d.toRead = left.length) (hmore : d.more = msg.more)
      (hcommand : d.command = msg.command) :
      Expects d (msg :: msgs) (left ++ (msg.content ++ stream msgs))
  | content (msg : Msg) (msgs : List Msg) (left : List UInt8) (hnext : d.next = .messageReady)
      (hstored : d.stored ++ left = msg.content) (hleft : left ≠ [])
      (hread : d.toRead = left.length) (hmore : d.inProgress.more = msg.more)
      (hcommand : d.inProgress.command = msg.command) :
      Expects d (msg :: msgs) (left ++ stream msgs)

/-- No size is refused. -/
structure Unlimited (d : Decoder) : Prop where
  maxmsgsize_eq : d.maxmsgsize = -1
  mallocs_eq : d.mallocs = []

/-- What a piece of the stream leads to: the decoder goes on in the same message, or it
has the message. -/
inductive Taken (msgs : List Msg) (rest : List UInt8) : DecodeResult × Decoder → Prop
  | more (d : Decoder) (hd : d.Expects msgs rest) : Taken msgs rest (.more, d)
  | message (msg : Msg) (msgs' : List Msg) (d : Decoder) (hmsgs : msgs = msg :: msgs')
      (hmsg : d.inProgress = msg) (hd : d.Expects msgs' rest) : Taken msgs rest (.message, d)

variable {d : Decoder} {msgs : List Msg} {msg : Msg} {rest : List UInt8} {fuel : ℕ}

theorem toRead_pos (h : d.Expects msgs rest) : 0 < d.toRead := by
  cases h with
  | flags _ _ _ hread => omega
  | oneByteSize _ _ _ _ hread => omega
  | eightByteSize _ _ left _ _ hleft hread =>
      rw [hread]
      exact List.length_pos_iff.mpr hleft
  | content _ _ left _ _ hleft hread =>
      rw [hread]
      exact List.length_pos_iff.mpr hleft

/-- Nothing to do while there are bytes to read. -/
theorem runSteps_of_pos (hread : 0 < d.toRead) : runSteps fuel d = (.more, d) := by
  cases fuel with
  | zero => rfl
  | succ fuel => rw [runSteps, if_neg (by omega)]

theorem stream_cons (msg : Msg) (msgs : List Msg) :
    stream (msg :: msgs) = header msg ++ (msg.content ++ stream msgs) := by
  rw [stream, List.flatMap_cons, Encoder.frame, List.append_assoc]
  rfl

/-- A size that the memory has room for. -/
theorem Unlimited.sizeReady (hd : d.Unlimited) {size : ℕ} (hsize : sizeofContent + size < 2 ^ 64) :
    d.sizeReady size = (.more, d.startMessage size) := by
  have hsame : { d with mallocs := d.mallocs.tail } = d := by
    rw [hd.mallocs_eq, List.tail_nil, ← hd.mallocs_eq]
  have hmax : ¬(0 ≤ d.maxmsgsize ∧ d.maxmsgsize < size) := by
    rw [hd.maxmsgsize_eq]
    omega
  rw [Decoder.sizeReady, if_neg hmax, hsame, hd.mallocs_eq]
  dsimp only
  rw [if_neg (show ¬[].headD true = false by decide), if_neg (Nat.not_le.mpr hsize), ite_self]

/-- The end of a message. -/
theorem taken_messageReady (hnext : d.next = .messageReady) (hread : d.toRead = 0)
    (hstored : d.stored = msg.content) (hmore : d.inProgress.more = msg.more)
    (hcommand : d.inProgress.command = msg.command) :
    Taken (msg :: msgs) (stream msgs) (runSteps (fuel + 1) d) := by
  rw [runSteps, if_pos hread, runNext, hnext]
  refine .message msg msgs _ rfl ?_ (.flags msgs rfl rfl rfl)
  change Msg.mk d.inProgress.more d.inProgress.command d.stored = msg
  rw [hstored, hmore, hcommand]

/-- The end of a size. -/
theorem taken_sizeReady (hrun : d.runNext = d.sizeReady msg.size) (hread : d.toRead = 0)
    (hd : d.Unlimited) (hsize : sizeofContent + msg.size < 2 ^ 64) (hmore : d.more = msg.more)
    (hcommand : d.command = msg.command) :
    Taken (msg :: msgs) (msg.content ++ stream msgs) (runSteps (fuel + 2) d) := by
  rw [runSteps, if_pos hread, hrun, hd.sizeReady hsize]
  dsimp only
  by_cases hempty : msg.content = []
  · rw [hempty, List.nil_append]
    apply taken_messageReady rfl
    · change msg.content.length = 0
      rw [hempty, List.length_nil]
    · exact hempty.symm
    · exact hmore
    · exact hcommand
  · rw [runSteps_of_pos]
    · exact .more _ (.content msg msgs msg.content rfl rfl hempty rfl hmore hcommand)
    · exact List.length_pos_iff.mpr hempty

/-- A piece of the bytes that a step waits for, or all of them. -/
theorem split_left {left x rest after : List UInt8} (hsplit : x ++ rest = left ++ after)
    (hle : x.length ≤ left.length) :
    ∃ left', left = x ++ left' ∧ rest = left' ++ after := by
  obtain ⟨left', rfl⟩ : x <+: left :=
    List.prefix_of_prefix_length_le ⟨rest, hsplit⟩ ⟨after, rfl⟩ hle
  refine ⟨left', rfl, ?_⟩
  rw [List.append_assoc, List.append_cancel_left_eq] at hsplit
  exact hsplit

/-- A piece of the content. -/
theorem taken_content {x left : List UInt8} (hnext : d.next = .messageReady)
    (hstored : d.stored ++ (x ++ left) = msg.content) (hread : d.toRead = (x ++ left).length)
    (hmore : d.inProgress.more = msg.more) (hcommand : d.inProgress.command = msg.command) :
    Taken (msg :: msgs) (left ++ stream msgs) (d.take x) := by
  rw [List.length_append] at hread
  rw [← List.append_assoc] at hstored
  by_cases hdone : left = []
  · subst hdone
    apply taken_messageReady
    · exact hnext
    · change d.toRead - x.length = 0
      rw [hread, List.length_nil]
      omega
    · simpa using hstored
    · exact hmore
    · exact hcommand
  · have hpos := List.length_pos_iff.mpr hdone
    rw [take, runSteps_of_pos (by dsimp only; omega)]
    refine .more _ (.content msg msgs left hnext hstored hdone ?_ hmore hcommand)
    change d.toRead - x.length = left.length
    omega

/-- A piece of a size in eight bytes. -/
theorem taken_eightByteSize {x left : List UInt8} (hd : d.Unlimited)
    (hsize : sizeofContent + msg.size < 2 ^ 64) (hnext : d.next = .eightByteSizeReady)
    (hstored : d.stored ++ (x ++ left) = putUInt64 msg.size)
    (hread : d.toRead = (x ++ left).length) (hmore : d.more = msg.more)
    (hcommand : d.command = msg.command) :
    Taken (msg :: msgs) (left ++ (msg.content ++ stream msgs)) (d.take x) := by
  rw [List.length_append] at hread
  rw [← List.append_assoc] at hstored
  by_cases hdone : left = []
  · subst hdone
    rw [List.append_nil] at hstored
    rw [List.length_nil] at hread
    apply taken_sizeReady
    · simp only [runNext, hnext, hstored,
        getUInt64_putUInt64 (hsize.trans_le' (Nat.le_add_left _ _))]
    · change d.toRead - x.length = 0
      omega
    · exact ⟨hd.maxmsgsize_eq, hd.mallocs_eq⟩
    · exact hsize
    · exact hmore
    · exact hcommand
  · have hpos := List.length_pos_iff.mpr hdone
    rw [take, runSteps_of_pos (by dsimp only; omega)]
    refine .more _ (.eightByteSize msg msgs left hnext hstored hdone ?_ hmore hcommand)
    change d.toRead - x.length = left.length
    omega

/-- A size in one byte. -/
theorem taken_oneByteSize (hd : d.Unlimited) (hnext : d.next = .oneByteSizeReady)
    (hstored : d.stored = []) (hread : d.toRead = 1) (hmore : d.more = msg.more)
    (hcommand : d.command = msg.command) (hsize : msg.size ≤ 255) :
    Taken (msg :: msgs) (msg.content ++ stream msgs) (d.take [msg.size.toUInt8]) := by
  have hbyte : msg.size.toUInt8.toNat = msg.size := by
    rw [UInt8.toNat_ofNat']
    omega
  apply taken_sizeReady
  · simp only [runNext, hnext, hstored, List.nil_append, List.headD_cons, hbyte]
  · change d.toRead - 1 = 0
    rw [hread]
  · exact ⟨hd.maxmsgsize_eq, hd.mallocs_eq⟩
  · exact (Nat.add_le_add_left hsize _).trans_lt (by decide)
  · exact hmore
  · exact hcommand

/-- The flags of a message. -/
theorem taken_flags (msg : Msg) (msgs : List Msg) (hnext : d.next = .flagsReady)
    (hstored : d.stored = []) (hread : d.toRead = 1) :
    ∃ after, header msg = [flags msg] ++ after ∧
      Taken (msg :: msgs) (after ++ (msg.content ++ stream msgs)) (d.take [flags msg]) := by
  obtain ⟨hmore, hlarge, hcommand⟩ := flags_bits msg
  rw [take, runSteps, if_pos (by simp [hread]), runNext]
  simp only [hnext, hstored, List.nil_append, flagsReady, List.headD_cons]
  by_cases hsize : msg.size > 255
  · rw [decide_eq_true hsize, decide_eq_true_eq] at hlarge
    refine ⟨putUInt64 msg.size, by rw [header, if_pos hsize]; rfl, ?_⟩
    rw [if_pos hlarge]
    dsimp only
    rw [runSteps_of_pos (show 0 < 8 by decide)]
    exact .more _ (.eightByteSize msg msgs _ rfl rfl (by simp [putUInt64]) rfl hmore hcommand)
  · rw [decide_eq_false hsize, decide_eq_false_iff_not] at hlarge
    refine ⟨[msg.size.toUInt8], by rw [header, if_neg hsize]; rfl, ?_⟩
    rw [if_neg hlarge]
    dsimp only
    rw [runSteps_of_pos (show 0 < 1 by decide)]
    exact .more _ (.oneByteSize msg msgs rfl rfl rfl hmore hcommand (Nat.le_of_not_lt hsize))

theorem eq_singleton_of_length_le {x left : List UInt8} {b : UInt8} (hsplit : [b] = x ++ left)
    (hne : x ≠ []) : x = [b] ∧ left = [] := by
  cases x with
  | nil => exact absurd rfl hne
  | cons c rest =>
      obtain ⟨rfl, hrest⟩ := List.cons.inj hsplit
      obtain ⟨rfl, rfl⟩ := List.append_eq_nil_iff.mp hrest.symm
      exact ⟨rfl, rfl⟩

/-- **Step.** A piece of the stream that is not longer than what is to be read. -/
theorem Expects.take (h : d.Expects msgs rest) (hd : d.Unlimited)
    (hsizes : ∀ msg ∈ msgs, sizeofContent + msg.size < 2 ^ 64) {x after : List UInt8}
    (hrest : x ++ after = rest) (hne : x ≠ []) (hle : x.length ≤ d.toRead) :
    Taken msgs after (d.take x) := by
  cases h with
  | flags _ hnext hstored hread =>
      cases msgs with
      | nil =>
          rw [stream, List.flatMap_nil] at hrest
          exact absurd (List.append_eq_nil_iff.mp hrest).1 hne
      | cons msg msgs =>
          obtain ⟨left, hheader, htaken⟩ := taken_flags msg msgs hnext hstored hread
          rw [stream_cons, hheader, List.append_assoc] at hrest
          obtain ⟨left', hleft, rfl⟩ := split_left hrest (by rw [hread] at hle; exact hle)
          obtain ⟨rfl, rfl⟩ := eq_singleton_of_length_le hleft hne
          exact htaken
  | oneByteSize msg msgs hnext hstored hread hmore hcommand hsize =>
      obtain ⟨left', hleft, rfl⟩ := split_left hrest (by rw [hread] at hle; exact hle)
      obtain ⟨rfl, rfl⟩ := eq_singleton_of_length_le hleft hne
      exact taken_oneByteSize hd hnext hstored hread hmore hcommand hsize
  | eightByteSize msg msgs left hnext hstored hleft hread hmore hcommand =>
      obtain ⟨left', rfl, rfl⟩ := split_left hrest (hread ▸ hle)
      exact taken_eightByteSize hd (hsizes msg List.mem_cons_self) hnext hstored hread hmore
        hcommand
  | content msg msgs left hnext hstored hleft hread hmore hcommand =>
      obtain ⟨left', rfl, rfl⟩ := split_left hrest (hread ▸ hle)
      exact taken_content hnext hstored hread hmore hcommand

/-! ## One call of `decode` -/

/-- What a step leaves alone: the parameters stay, and the calls of `malloc` are answered in
order. -/
structure Keeps (d d' : Decoder) : Prop where
  bufsize_eq : d'.bufsize = d.bufsize
  maxmsgsize_eq : d'.maxmsgsize = d.maxmsgsize
  mallocs_suffix : d'.mallocs <:+ d.mallocs

theorem Keeps.refl (d : Decoder) : d.Keeps d := ⟨Eq.refl _, Eq.refl _, List.suffix_rfl⟩

theorem Keeps.trans {d d' d'' : Decoder} (h : d.Keeps d') (h' : d'.Keeps d'') : d.Keeps d'' :=
  ⟨h'.bufsize_eq.trans h.bufsize_eq, h'.maxmsgsize_eq.trans h.maxmsgsize_eq,
    h'.mallocs_suffix.trans h.mallocs_suffix⟩

theorem Unlimited.of_keeps {d d' : Decoder} (h : d.Unlimited) (hkeeps : d.Keeps d') :
    d'.Unlimited where
  maxmsgsize_eq := hkeeps.maxmsgsize_eq.trans h.maxmsgsize_eq
  mallocs_eq := List.suffix_nil.mp (h.mallocs_eq ▸ hkeeps.mallocs_suffix)

theorem keeps_sizeReady (d : Decoder) (size : ℕ) : d.Keeps (d.sizeReady size).2 := by
  simp only [sizeReady]
  split_ifs
  · exact .refl d
  · exact ⟨rfl, rfl, List.suffix_rfl⟩
  · exact ⟨rfl, rfl, List.tail_suffix _⟩
  · exact ⟨rfl, rfl, List.tail_suffix _⟩
  · exact ⟨rfl, rfl, List.tail_suffix _⟩

theorem keeps_runNext (d : Decoder) : d.Keeps d.runNext.2 := by
  unfold runNext
  cases d.next with
  | flagsReady =>
      simp only [flagsReady]
      split_ifs <;> exact ⟨rfl, rfl, List.suffix_rfl⟩
  | oneByteSizeReady => exact keeps_sizeReady d _
  | eightByteSizeReady => exact keeps_sizeReady d _
  | messageReady => exact ⟨rfl, rfl, List.suffix_rfl⟩

theorem keeps_runSteps (fuel : ℕ) (d : Decoder) : d.Keeps (runSteps fuel d).2 := by
  induction fuel generalizing d with
  | zero => exact .refl d
  | succ fuel ih =>
      rw [runSteps]
      split_ifs
      · have hnext := keeps_runNext d
        revert hnext
        rcases d.runNext with ⟨result, d'⟩
        intro hnext
        cases result with
        | error => exact hnext
        | message => exact hnext
        | fault => exact hnext
        | more => exact hnext.trans (ih d')
      · exact .refl d

/-- What `take` stores. -/
theorem keeps_store (d : Decoder) (x : List UInt8) :
    d.Keeps { d with stored := d.stored ++ x, toRead := d.toRead - x.length } :=
  ⟨rfl, rfl, List.suffix_rfl⟩

theorem keeps_take (d : Decoder) (x : List UInt8) : d.Keeps (d.take x).2 :=
  (keeps_store d x).trans (keeps_runSteps 2 _)

/-- What a call of `decode` does: it uses all data and waits for more, or it uses some
and has a message. -/
inductive Decoded (msgs : List Msg) (data after : List UInt8) :
    DecodeResult × ℕ × Decoder → Prop
  | more (d : Decoder) (hd : d.Expects msgs after) :
      Decoded msgs data after (.more, data.length, d)
  | message (msg : Msg) (msgs' : List Msg) (used : ℕ) (d : Decoder) (hmsgs : msgs = msg :: msgs')
      (hmsg : d.inProgress = msg) (hused : used ≤ data.length) (hpos : 0 < used)
      (hd : d.Expects msgs' (data.drop used ++ after)) :
      Decoded msgs data after (.message, used, d)

/-- The copying loop, with some bytes used before. -/
theorem decodeLoop_decoded {data after : List UInt8} (h : d.Expects msgs (data ++ after))
    (hunlimited : d.Unlimited) (hsizes : ∀ msg ∈ msgs, sizeofContent + msg.size < 2 ^ 64)
    (used : List UInt8) (hfuel : data.length ≤ fuel) :
    Decoded msgs (used ++ data) after (decodeLoop fuel data used.length d) ∧
      d.Keeps (decodeLoop fuel data used.length d).2.2 := by
  induction fuel generalizing d used data with
  | zero =>
      obtain rfl : data = [] := List.length_eq_zero_iff.mp (Nat.le_zero.mp hfuel)
      rw [List.append_nil]
      exact ⟨.more d h, .refl d⟩
  | succ fuel ih =>
      rw [decodeLoop]
      by_cases hempty : data = []
      · subst hempty
        rw [if_pos rfl, List.append_nil]
        exact ⟨.more d h, .refl d⟩
      rw [if_neg hempty]
      dsimp only
      obtain ⟨toCopy, hcopy⟩ : ∃ toCopy, toCopy = min d.toRead data.length := ⟨_, rfl⟩
      rw [← hcopy]
      have hpos : 0 < toCopy := by
        have hread := toRead_pos h
        have hlength := List.length_pos_iff.mpr hempty
        omega
      have hlength : (data.take toCopy).length = toCopy := by
        rw [List.length_take]
        omega
      have htaken : Taken msgs (data.drop toCopy ++ after) (d.take (data.take toCopy)) := by
        apply h.take hunlimited hsizes
        · rw [← List.append_assoc, List.take_append_drop]
        · intro hnil
          rw [hnil, List.length_nil] at hlength
          omega
        · omega
      have hkeeps := keeps_take d (data.take toCopy)
      -- the bytes used so far, and those that this iteration uses
      have hused : used.length + toCopy = (used ++ data.take toCopy).length := by
        rw [List.length_append, hlength]
      have hall : used ++ data = (used ++ data.take toCopy) ++ data.drop toCopy := by
        rw [List.append_assoc, List.take_append_drop]
      generalize d.take (data.take toCopy) = result at htaken hkeeps
      cases htaken with
      | more d' hd =>
          have hdrop : (data.drop toCopy).length ≤ fuel := by
            rw [List.length_drop]
            omega
          dsimp only
          rw [hused, hall]
          obtain ⟨hdecoded, hkeeps'⟩ :=
            ih hd (hunlimited.of_keeps hkeeps) (used ++ data.take toCopy) hdrop
          exact ⟨hdecoded, hkeeps.trans hkeeps'⟩
      | message msg msgs' d' hmsgs hmsg hd =>
          refine ⟨.message msg msgs' _ d' hmsgs hmsg ?_ (by omega) ?_, hkeeps⟩
          · rw [List.length_append]
            omega
          · rw [hall, hused, List.drop_left]
            exact hd

/-- **`decode`.** For data that the decoder expects, and in the case of zero-copy not more
than what is to be read. -/
theorem Expects.decode {data after : List UInt8} (h : d.Expects msgs (data ++ after))
    (hunlimited : d.Unlimited) (hsizes : ∀ msg ∈ msgs, sizeofContent + msg.size < 2 ^ 64)
    (hne : data ≠ []) {zeroCopy : Bool} (hzero : zeroCopy = true → data.length ≤ d.toRead) :
    ∃ result, d.decode zeroCopy data = some result ∧ Decoded msgs data after result ∧
      d.Keeps result.2.2 := by
  cases zeroCopy with
  | false => exact ⟨_, rfl, decodeLoop_decoded h hunlimited hsizes [] le_rfl⟩
  | true =>
      have htaken := h.take hunlimited hsizes rfl hne (hzero rfl)
      have hkeeps := keeps_take d data
      have hdecode : d.decode true data =
          some ((d.take data).1, data.length, (d.take data).2) := by
        rw [Decoder.decode, if_pos rfl, if_pos (hzero rfl)]
      refine ⟨_, hdecode, ?_⟩
      revert htaken hkeeps
      generalize d.take data = result
      intro htaken hkeeps
      cases htaken with
      | more d' hd => exact ⟨.more d' hd, hkeeps⟩
      | message msg msgs' d' hmsgs hmsg hd =>
          refine ⟨.message msg msgs' _ d' hmsgs hmsg le_rfl (List.length_pos_iff.mpr hne) ?_,
            hkeeps⟩
          rw [List.drop_length]
          exact hd

/-! ## Any data -/

/-- The size in a header at the beginning of the bytes, and what is behind the header. -/
def readHeader : List UInt8 → Option (ℕ × List UInt8)
  | [] => none
  | flags :: rest =>
    if flags &&& 2 ≠ 0 then
      if 8 ≤ rest.length then some (getUInt64 (rest.take 8), rest.drop 8) else none
    else rest.head?.map fun size => (size.toNat, rest.tail)

/-- The message in a frame at the beginning of the bytes, and what is behind the frame. -/
def readFrame (bytes : List UInt8) : Option (Msg × List UInt8) :=
  (readHeader bytes).bind fun header =>
    if header.1 ≤ header.2.length then
      some (⟨bytes.headD 0 &&& 1 ≠ 0, bytes.headD 0 &&& 4 ≠ 0, header.2.take header.1⟩,
        header.2.drop header.1)
    else none

/-- A size within the limit for messages, if there is one. -/
def Allowed (maxmsgsize : ℤ) (size : ℕ) : Prop := maxmsgsize < 0 ∨ size ≤ maxmsgsize

/-- The decoder has got the given bytes of the current frame. -/
inductive Reads (d : Decoder) : List UInt8 → Prop
  | flags (hnext : d.next = .flagsReady) (hstored : d.stored = []) (hread : d.toRead = 1) :
      Reads d []
  | oneByteSize (flags : UInt8) (hnext : d.next = .oneByteSizeReady) (hstored : d.stored = [])
      (hread : d.toRead = 1) (hmore : d.more = decide (flags &&& 1 ≠ 0))
      (hcommand : d.command = decide (flags &&& 4 ≠ 0)) (hlarge : ¬flags &&& 2 ≠ 0) :
      Reads d [flags]
  | eightByteSize (flags : UInt8) (hnext : d.next = .eightByteSizeReady)
      (hread : d.toRead + d.stored.length = 8) (hpos : 0 < d.toRead)
      (hmore : d.more = decide (flags &&& 1 ≠ 0))
      (hcommand : d.command = decide (flags &&& 4 ≠ 0)) (hlarge : flags &&& 2 ≠ 0) :
      Reads d (flags :: d.stored)
  | content (bytes : List UInt8) (size : ℕ) (hnext : d.next = .messageReady)
      (hheader : readHeader bytes = some (size, d.stored))
      (hread : d.toRead + d.stored.length = size) (hpos : 0 < d.toRead)
      (hmore : d.inProgress.more = decide (bytes.headD 0 &&& 1 ≠ 0))
      (hcommand : d.inProgress.command = decide (bytes.headD 0 &&& 4 ≠ 0))
      (hallowed : Allowed d.maxmsgsize size) (hfits : sizeofContent + size < 2 ^ 64) : Reads d bytes

/-- What becomes of a decoder that has got the given bytes of the current frame: it waits for
more, it has the message, it refuses the size, or it has written behind a chunk. -/
inductive Became (d : Decoder) (bytes : List UInt8) : DecodeResult × Decoder → Prop
  | more (d' : Decoder) (hd : d'.Reads bytes) : Became d bytes (.more, d')
  | message (d' : Decoder) (hframe : readFrame bytes = some (d'.inProgress, []))
      (hallowed : Allowed d.maxmsgsize d'.inProgress.size)
      (hfits : sizeofContent + d'.inProgress.size < 2 ^ 64) (hd : d'.Reads []) :
      Became d bytes (.message, d')
  | error (d' : Decoder) (size : ℕ) (hheader : readHeader bytes = some (size, []))
      (hrefused : ¬Allowed d.maxmsgsize size ∨ d.mallocs ≠ []) : Became d bytes (.error, d')
  | fault (d' : Decoder) (size : ℕ) (hheader : readHeader bytes = some (size, []))
      (hallowed : Allowed d.maxmsgsize size) (hwraps : 2 ^ 64 ≤ sizeofContent + size) :
      Became d bytes (.fault, d')

theorem readHeader_append {bytes rest : List UInt8} {size : ℕ}
    (h : readHeader bytes = some (size, rest)) (more : List UInt8) :
    readHeader (bytes ++ more) = some (size, rest ++ more) := by
  cases bytes with
  | nil => cases h
  | cons flags left =>
      rw [List.cons_append]
      simp only [readHeader] at h ⊢
      split_ifs at h ⊢ with hlarge hlong hshort
      · obtain ⟨rfl, rfl⟩ := Prod.mk.inj (Option.some.inj h)
        rw [List.take_append_of_le_length hshort, List.drop_append_of_le_length hshort]
      · rw [List.length_append] at hlong
        omega
      · cases left with
        | nil => cases h
        | cons b left =>
            obtain ⟨rfl, rfl⟩ := Prod.mk.inj (Option.some.inj h)
            rfl

theorem readFrame_append {bytes rest : List UInt8} {msg : Msg}
    (h : readFrame bytes = some (msg, rest)) (more : List UInt8) :
    readFrame (bytes ++ more) = some (msg, rest ++ more) := by
  obtain ⟨⟨size, left⟩, hheader, h⟩ := Option.bind_eq_some_iff.mp h
  dsimp only at h
  split_ifs at h with hlength
  obtain ⟨rfl, rfl⟩ := Prod.mk.inj (Option.some.inj h)
  have hhead : (bytes ++ more).headD 0 = bytes.headD 0 := by
    cases bytes with
    | nil => cases hheader
    | cons flags bytes => rfl
  rw [readFrame, readHeader_append hheader more, Option.bind_some, hhead]
  dsimp only
  rw [if_pos (by rw [List.length_append]; omega), List.take_append_of_le_length hlength,
    List.drop_append_of_le_length hlength]

/-- A frame has a header with the size of its message. -/
theorem readHeader_of_readFrame {bytes rest : List UInt8} {msg : Msg}
    (h : readFrame bytes = some (msg, rest)) :
    readHeader bytes = some (msg.size, msg.content ++ rest) := by
  obtain ⟨⟨size, left⟩, hheader, h⟩ := Option.bind_eq_some_iff.mp h
  dsimp only at h
  split_ifs at h with hlength
  obtain ⟨rfl, rfl⟩ := Prod.mk.inj (Option.some.inj h)
  rw [hheader, List.take_append_drop]
  exact congrArg (fun n => some (n, left)) (List.length_take_of_le hlength).symm

/-- No header is shorter than the one that the encoder writes for the size. -/
theorem length_of_readHeader {bytes rest : List UInt8} {size : ℕ}
    (h : readHeader bytes = some (size, rest)) :
    (if size > 255 then 9 else 2) + rest.length ≤ bytes.length := by
  cases bytes with
  | nil => cases h
  | cons flags left =>
      simp only [readHeader] at h
      split_ifs at h with hlarge hshort
      · obtain ⟨-, rfl⟩ := Prod.mk.inj (Option.some.inj h)
        rw [List.length_cons, List.length_drop]
        split_ifs <;> omega
      · cases left with
        | nil => cases h
        | cons b left =>
            obtain ⟨rfl, rfl⟩ := Prod.mk.inj (Option.some.inj h)
            have hbyte := UInt8.toNat_lt b
            simp only [List.length_cons, List.tail_cons]
            rw [if_neg (by omega)]
            omega

section

variable {bytes x : List UInt8} {size : ℕ}

theorem Reads.toRead_pos (h : d.Reads bytes) : 0 < d.toRead := by
  cases h with
  | flags _ _ hread => omega
  | oneByteSize _ _ _ hread => omega
  | eightByteSize _ _ _ hpos => exact hpos
  | content _ _ _ _ _ hpos => exact hpos

/-- Behind a header that has been read the content is incomplete, and the size is neither refused
nor too large for the memory. -/
theorem Reads.of_readHeader (h : d.Reads bytes) {rest : List UInt8}
    (hheader : readHeader bytes = some (size, rest)) :
    rest.length < size ∧ Allowed d.maxmsgsize size ∧ sizeofContent + size < 2 ^ 64 := by
  cases h with
  | flags => cases hheader
  | oneByteSize flags _ _ _ _ _ hlarge =>
      rw [readHeader, if_neg hlarge] at hheader
      cases hheader
  | eightByteSize flags _ hread hpos _ _ hlarge =>
      rw [readHeader, if_pos hlarge, if_neg (by omega)] at hheader
      cases hheader
  | content _ _ _ hheader' hread hpos _ _ hallowed hfits =>
      obtain ⟨rfl, rfl⟩ := Prod.mk.inj (Option.some.inj (hheader'.symm.trans hheader))
      exact ⟨by omega, hallowed, hfits⟩

/-- The answers of `malloc` do not change what has been read. -/
theorem Reads.withMallocs (h : d.Reads bytes) (mallocs : List Bool) :
    { d with mallocs := mallocs }.Reads bytes := by
  cases h with
  | flags hnext hstored hread => exact .flags hnext hstored hread
  | oneByteSize flags hnext hstored hread hmore hcommand hlarge =>
      exact .oneByteSize flags hnext hstored hread hmore hcommand hlarge
  | eightByteSize flags hnext hread hpos hmore hcommand hlarge =>
      exact .eightByteSize (d := { d with mallocs := mallocs }) flags hnext hread hpos hmore
        hcommand hlarge
  | content _ size hnext hheader hread hpos hmore hcommand hallowed hfits =>
      exact .content bytes size hnext hheader hread hpos hmore hcommand hallowed hfits

/-- The current frame is not complete. -/
theorem Reads.readFrame_eq_none (h : d.Reads bytes) : readFrame bytes = none := by
  rw [Option.eq_none_iff_forall_ne_some]
  rintro ⟨msg, rest⟩ hframe
  obtain ⟨hshort, -⟩ := h.of_readHeader (readHeader_of_readFrame hframe)
  rw [List.length_append, Msg.size] at hshort
  omega

/-- The content is complete. -/
theorem became_messageReady {d₀ : Decoder} {fuel : ℕ} (hnext : d.next = .messageReady)
    (hread : d.toRead = 0) (hheader : readHeader bytes = some (size, d.stored))
    (hlength : d.stored.length = size)
    (hmore : d.inProgress.more = decide (bytes.headD 0 &&& 1 ≠ 0))
    (hcommand : d.inProgress.command = decide (bytes.headD 0 &&& 4 ≠ 0))
    (hallowed : Allowed d₀.maxmsgsize size) (hfits : sizeofContent + size < 2 ^ 64) :
    Became d₀ bytes (runSteps (fuel + 1) d) := by
  rw [runSteps, if_pos hread, runNext, hnext]
  subst hlength
  refine .message _ ?_ hallowed hfits (.flags rfl rfl rfl)
  rw [readFrame, hheader, Option.bind_some]
  dsimp only
  rw [if_pos le_rfl, List.take_length, List.drop_length, ← hmore, ← hcommand]
  rfl

/-- The content is read next, unless there is none. -/
theorem became_startMessage {d₀ : Decoder} {fuel : ℕ}
    (hheader : readHeader bytes = some (size, []))
    (hmore : d.more = decide (bytes.headD 0 &&& 1 ≠ 0))
    (hcommand : d.command = decide (bytes.headD 0 &&& 4 ≠ 0))
    (hmax : d₀.maxmsgsize = d.maxmsgsize)
    (hallowed : Allowed d.maxmsgsize size) (hfits : sizeofContent + size < 2 ^ 64) :
    Became d₀ bytes (runSteps (fuel + 1) (d.startMessage size)) := by
  rcases Nat.eq_zero_or_pos size with rfl | hpos
  · exact became_messageReady rfl rfl hheader rfl hmore hcommand (hmax.symm ▸ hallowed) hfits
  · rw [runSteps_of_pos (by exact hpos)]
    exact .more _ (.content bytes size rfl hheader rfl hpos hmore hcommand hallowed hfits)

/-- The size is complete. -/
theorem became_sizeReady {fuel : ℕ} (hrun : d.runNext = d.sizeReady size) (hread : d.toRead = 0)
    (hheader : readHeader bytes = some (size, []))
    (hmore : d.more = decide (bytes.headD 0 &&& 1 ≠ 0))
    (hcommand : d.command = decide (bytes.headD 0 &&& 4 ≠ 0)) :
    Became d bytes (runSteps (fuel + 2) d) := by
  rw [runSteps, if_pos hread, hrun, sizeReady]
  dsimp only
  split_ifs with hmax hsmall hdenied hwraps
  · refine .error _ size hheader (.inl ?_)
    rw [Allowed]
    omega
  · have hallowed : Allowed d.maxmsgsize size := by
      rw [Allowed]
      omega
    exact became_startMessage hheader hmore hcommand rfl hallowed
      ((Nat.add_le_add_left hsmall _).trans_lt (by decide))
  · refine .error _ size hheader (.inr fun hnil => ?_)
    rw [hnil] at hdenied
    cases hdenied
  · refine .fault _ size hheader ?_ hwraps
    rw [Allowed]
    omega
  · have hallowed : Allowed d.maxmsgsize size := by
      rw [Allowed]
      omega
    exact became_startMessage (d := { d with mallocs := d.mallocs.tail }) hheader hmore hcommand
      rfl hallowed (Nat.lt_of_not_le hwraps)

/-- A decoder with the same limit, and with calls of `malloc` that have not been answered yet. -/
theorem Became.of_keeps {d₀ : Decoder} {result : DecodeResult × Decoder}
    (h : Became d bytes result) (hkeeps : d₀.Keeps d) : Became d₀ bytes result := by
  cases h with
  | more d' hd => exact .more d' hd
  | message d' hframe hallowed hfits hd =>
      exact .message d' hframe (hkeeps.maxmsgsize_eq ▸ hallowed) hfits hd
  | error d' size hheader hrefused =>
      refine .error d' size hheader (hrefused.imp (hkeeps.maxmsgsize_eq ▸ ·) fun hne hnil => ?_)
      exact hne (List.suffix_nil.mp (hnil ▸ hkeeps.mallocs_suffix))
  | fault d' size hheader hallowed hwraps =>
      exact .fault d' size hheader (hkeeps.maxmsgsize_eq ▸ hallowed) hwraps

/-- **Step.** A piece of any bytes that is not longer than what is to be read. -/
theorem Reads.take (h : d.Reads bytes) (hne : x ≠ []) (hle : x.length ≤ d.toRead) :
    Became d (bytes ++ x) (d.take x) := by
  have hpos := List.length_pos_iff.mpr hne
  cases h with
  | flags hnext hstored hread =>
      obtain ⟨flags, rfl⟩ := List.length_eq_one_iff.mp (show x.length = 1 by omega)
      rw [Decoder.take, runSteps, if_pos (by simp [hread]), runNext]
      simp only [hnext, hstored, List.nil_append, flagsReady, List.headD_cons]
      split_ifs with hlarge
      · dsimp only
        rw [runSteps_of_pos (show 0 < 8 by decide)]
        exact .more _ (.eightByteSize flags rfl rfl (Nat.succ_pos 7) rfl rfl hlarge)
      · dsimp only
        rw [runSteps_of_pos (show 0 < 1 by decide)]
        exact .more _ (.oneByteSize flags rfl rfl rfl rfl rfl hlarge)
  | oneByteSize flags hnext hstored hread hmore hcommand hlarge =>
      obtain ⟨b, rfl⟩ := List.length_eq_one_iff.mp (show x.length = 1 by omega)
      have hheader : readHeader ([flags] ++ [b]) = some (b.toNat, []) := by
        rw [List.singleton_append, readHeader, if_neg hlarge]
        rfl
      refine Became.of_keeps ?_ (keeps_store d [b])
      refine became_sizeReady ?_ ?_ hheader (by exact hmore) (by exact hcommand)
      · simp only [runNext, hnext, hstored, List.nil_append, List.headD_cons]
      · change d.toRead - 1 = 0
        omega
  | eightByteSize flags hnext hread hopen hmore hcommand hlarge =>
      rcases Nat.eq_or_lt_of_le hle with hall | hpart
      · have hlength : (d.stored ++ x).length = 8 := by
          rw [List.length_append]
          omega
        have hheader : readHeader (flags :: d.stored ++ x) =
            some (getUInt64 (d.stored ++ x), []) := by
          rw [List.cons_append, readHeader, if_pos hlarge, if_pos hlength.ge,
            List.take_of_length_le hlength.le, List.drop_of_length_le hlength.le]
        refine Became.of_keeps ?_ (keeps_store d x)
        refine became_sizeReady ?_ ?_ hheader (by exact hmore) (by exact hcommand)
        · simp only [runNext, hnext]
        · change d.toRead - x.length = 0
          omega
      · rw [Decoder.take, runSteps_of_pos (by dsimp only; omega)]
        refine .more _ (.eightByteSize flags hnext ?_ ?_ hmore hcommand hlarge)
        · simp only [List.length_append]
          omega
        · dsimp only
          omega
  | content _ size hnext hheader hread hopen hmore hcommand hallowed hfits =>
      have hhead : (bytes ++ x).headD 0 = bytes.headD 0 := by
        cases bytes with
        | nil => cases hheader
        | cons flags bytes => rfl
      rw [← hhead] at hmore hcommand
      rcases Nat.eq_or_lt_of_le hle with hall | hpart
      · refine became_messageReady hnext ?_ (readHeader_append hheader x) ?_ hmore
          hcommand hallowed hfits
        · change d.toRead - x.length = 0
          omega
        · change (d.stored ++ x).length = size
          rw [List.length_append]
          omega
      · rw [Decoder.take, runSteps_of_pos (by dsimp only; omega)]
        refine .more _ (.content _ size hnext (readHeader_append hheader x) ?_ ?_ hmore hcommand
          hallowed hfits)
        · simp only [List.length_append]
          omega
        · dsimp only
          omega

end

/-- What a call of `decode` does with any data: it uses some of them, all if it wants more. -/
structure Used (d : Decoder) (bytes data : List UInt8) (result : DecodeResult × ℕ × Decoder) :
    Prop where
  pos : 0 < result.2.1
  le : result.2.1 ≤ data.length
  all_of_more : result.1 = .more → result.2.1 = data.length
  became : Became d (bytes ++ data.take result.2.1) (result.1, result.2.2)
  keeps : d.Keeps result.2.2

/-- The copying loop, with some bytes used before. -/
theorem Reads.decodeLoop {fuel : ℕ} {bytes data : List UInt8} (h : d.Reads bytes) (used : ℕ)
    (hfuel : data.length ≤ fuel) :
    ∃ n, n ≤ data.length ∧ min 1 data.length ≤ n ∧
      (decodeLoop fuel data used d).2.1 = used + n ∧
      ((decodeLoop fuel data used d).1 = .more → n = data.length) ∧
      Became d (bytes ++ data.take n)
        ((decodeLoop fuel data used d).1, (decodeLoop fuel data used d).2.2) ∧
      d.Keeps (decodeLoop fuel data used d).2.2 := by
  induction fuel generalizing used bytes data d with
  | zero =>
      obtain rfl : data = [] := List.eq_nil_of_length_eq_zero (Nat.le_zero.mp hfuel)
      refine ⟨0, le_rfl, le_rfl, rfl, fun _ => rfl, ?_, .refl d⟩
      rw [List.take_nil, List.append_nil]
      exact .more d h
  | succ fuel ih =>
      rw [Decoder.decodeLoop]
      split_ifs with hdata
      · subst hdata
        refine ⟨0, le_rfl, le_rfl, rfl, fun _ => rfl, ?_, .refl d⟩
        rw [List.take_nil, List.append_nil]
        exact .more d h
      · obtain ⟨n, hn⟩ : ∃ n, n = min d.toRead data.length := ⟨_, rfl⟩
        have hread := h.toRead_pos
        have hpos := List.length_pos_iff.mpr hdata
        have hlength : (data.take n).length = n := by
          rw [List.length_take]
          omega
        have hpiece : data.take n ≠ [] := by
          intro hnil
          rw [hnil, List.length_nil] at hlength
          omega
        have hbecame := h.take hpiece (by omega)
        have hkeeps := keeps_take d (data.take n)
        dsimp only
        rw [← hn]
        revert hbecame hkeeps
        rcases d.take (data.take n) with ⟨result, d'⟩
        intro hbecame hkeeps
        cases result with
        | error =>
            exact ⟨n, by omega, by omega, rfl, (fun hmore => by cases hmore), hbecame, hkeeps⟩
        | message =>
            exact ⟨n, by omega, by omega, rfl, (fun hmore => by cases hmore), hbecame, hkeeps⟩
        | fault =>
            exact ⟨n, by omega, by omega, rfl, (fun hmore => by cases hmore), hbecame, hkeeps⟩
        | more =>
            have hd' : d'.Reads (bytes ++ data.take n) := by
              cases hbecame with
              | more _ hd => exact hd
            have hrest : (data.drop n).length = data.length - n := List.length_drop
            obtain ⟨k, hk, -, hused, hall, hlast, hkeeps'⟩ :=
              ih hd' (used + n) (show (data.drop n).length ≤ fuel by omega)
            refine ⟨n + k, by omega, by omega, ?_, fun hmore => ?_, ?_, hkeeps.trans hkeeps'⟩
            · rw [hused, Nat.add_assoc]
            · rw [hall hmore, hrest]
              omega
            · rw [List.take_add, ← List.append_assoc]
              exact hlast.of_keeps hkeeps

/-- **Any data.** In the case of zero-copy not more than what is to be read. -/
theorem Reads.decode {bytes data : List UInt8} (h : d.Reads bytes) (hdata : data ≠ [])
    {zeroCopy : Bool} (hlength : zeroCopy = true → data.length ≤ d.toRead) :
    ∃ result, d.decode zeroCopy data = some result ∧ Used d bytes data result := by
  have hpos : 0 < data.length := List.length_pos_iff.mpr hdata
  cases zeroCopy with
  | true =>
      refine ⟨_, (if_pos rfl).trans (if_pos (hlength rfl)), hpos, le_rfl, fun _ => rfl, ?_,
        keeps_take d data⟩
      rw [List.take_length]
      exact h.take hdata (hlength rfl)
  | false =>
      obtain ⟨n, hhigh, hlow, hused, hall, hbecame, hkeeps⟩ := h.decodeLoop 0 le_rfl
      rw [Nat.zero_add] at hused
      refine ⟨_, if_neg Bool.false_ne_true, ?_, ?_, ?_, ?_, hkeeps⟩
      · omega
      · omega
      · intro hmore
        rw [hused, hall hmore]
      · rw [hused]
        exact hbecame

end Decoder

end AFStream.Net
