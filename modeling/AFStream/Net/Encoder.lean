/-
# The v2 encoder

The encoder turns one message at a time into a frame: a flags byte, the size in one
or eight bytes, and the body. It is a state machine with two steps that hands out
its bytes in chunks: into a buffer of the caller, into a buffer of its own, or, when
a step alone would fill its own buffer, as a pointer to the bytes themselves.
-/

import Mathlib.Tactic

namespace AFStream.Net

/-- A record of the out callback: the address of its slot and its bytes. -/
structure Record where
  addr : ℕ
  bytes : List UInt8
  deriving DecidableEq, Repr

/-- `msg_t` -/
structure Msg where
  more : Bool
  command : Bool
  content : List UInt8
  deriving DecidableEq, Repr

namespace Msg

/-- `init_size`: no flags, and content that nobody has written yet. -/
def initSize (size : ℕ) : Msg where
  more := false
  command := false
  content := List.replicate size 0

def size (msg : Msg) : ℕ := msg.content.length

end Msg

/-- `put_uint64` -/
def putUInt64 (value : ℕ) : List UInt8 :=
  [56, 48, 40, 32, 24, 16, 8, 0].map fun shift => (value / 2 ^ shift % 256).toUInt8

/-- The flags byte of `message_ready`. -/
def flags (msg : Msg) : UInt8 :=
  (if msg.more then 1 else 0) ||| (if msg.size > 255 then 2 else 0) |||
    if msg.command then 4 else 0

/-- What `message_ready` puts into `tmpbuf`. -/
def header (msg : Msg) : List UInt8 :=
  if msg.size > 255 then flags msg :: putUInt64 msg.size else [flags msg, msg.size.toUInt8]

/-- The two steps of `v2_encoder_t`. -/
inductive EncoderStep
  | messageReady
  | sizeReady
  deriving DecidableEq, Repr

/-- `encoder_base_t`, with the slots it has acknowledged so far. -/
structure Encoder where
  inProgress : Option Msg
  /-- `data` and `size`: the external record of the message, if any. -/
  data : Option Record
  /-- The `to_write` bytes at `write_pos`. -/
  writePos : List UInt8
  /-- The slot that `write_pos` points into, if any. -/
  origin : Option ℕ
  next : EncoderStep
  newMsg : Bool
  acked : List ℕ

/-- What `encode` hands out, and the slot its bytes still lie in, if any. -/
structure Chunk where
  bytes : List UInt8
  origin : Option ℕ

namespace Encoder

/-- The constructor. -/
def create : Encoder where
  inProgress := none
  data := none
  writePos := []
  origin := none
  next := .messageReady
  newMsg := true
  acked := []

variable (enc : Encoder)

/-- The body of a message: the external record or the content of the message. -/
def body (msg : Msg) (data : Option Record) : List UInt8 :=
  match data with
  | some record => record.bytes
  | none => msg.content

/-- Run the step of the state machine. -/
def runNext : Encoder :=
  match enc.next, enc.inProgress with
  | .messageReady, some msg =>
      { enc with writePos := header msg, origin := none, next := .sizeReady, newMsg := false }
  | .sizeReady, some msg =>
      { enc with
        writePos := body msg enc.data
        origin := enc.data.map Record.addr
        next := .messageReady
        newMsg := true }
  | _, none => enc

/-- `load_msg`; it asserts that no message is in progress. -/
def loadMsg (msg : Msg) (data : Option Record) : Option Encoder :=
  if enc.inProgress = none then
    some ({ enc with inProgress := some msg, data := data }).runNext
  else none

/-- The end of a message: close it and acknowledge its slot. -/
def close : Encoder :=
  { enc with
    inProgress := none
    data := none
    acked := enc.acked ++ (enc.data.map Record.addr).toList }

/-- Move past `n` bytes that have been copied. -/
def advance (n : ℕ) : Encoder := { enc with writePos := enc.writePos.drop n }

/-- The loop of `encode` with `acc` already in the buffer of `size` bytes. `fresh` says
that the caller supplied no buffer. A message takes three iterations at most: its
header, its body and its end. -/
def encodeLoop : ℕ → Bool → ℕ → List UInt8 → Encoder → Chunk × Encoder
  | 0, _, _, acc, enc => (⟨acc, none⟩, enc)
  | fuel + 1, fresh, size, acc, enc =>
    if acc.length < size then
      if enc.writePos = [] ∧ enc.newMsg then (⟨acc, none⟩, enc.close)
      else
        let enc := if enc.writePos = [] then enc.runNext else enc
        if acc = [] ∧ fresh ∧ size ≤ enc.writePos.length then
          (⟨enc.writePos, enc.origin⟩, { enc with writePos := [] })
        else
          let toCopy := min enc.writePos.length (size - acc.length)
          encodeLoop fuel fresh size (acc ++ enc.writePos.take toCopy) (enc.advance toCopy)
    else (⟨acc, none⟩, enc)

/-- `encode` -/
def encode (fresh : Bool) (size : ℕ) : Chunk × Encoder :=
  if enc.inProgress = none then (⟨[], none⟩, enc) else encodeLoop 3 fresh size [] enc

/-! ## The bytes of a frame -/

/-- The frame of a message. -/
def frame (msg : Msg) (data : Option Record) : List UInt8 := header msg ++ body msg data

/-- The encoder between two calls: idle, in the header or in the body of a message. -/
inductive Phase (enc : Encoder) : Prop
  | idle (hmsg : enc.inProgress = none) (hwrite : enc.writePos = []) (hnew : enc.newMsg = true)
      (hnext : enc.next = .messageReady)
  | header (msg : Msg) (hmsg : enc.inProgress = some msg) (hnew : enc.newMsg = false)
      (hnext : enc.next = .sizeReady) (hlength : enc.writePos.length ≤ 9)
  | body (msg : Msg) (hmsg : enc.inProgress = some msg) (hnew : enc.newMsg = true)
      (hnext : enc.next = .messageReady)
      (hlength : enc.writePos.length ≤ (Encoder.body msg enc.data).length)

/-- The bytes of the message in progress that have not been handed out. -/
def pending : List UInt8 :=
  enc.writePos ++
    match enc.inProgress, enc.newMsg with
    | some msg, false => body msg enc.data
    | _, _ => []

variable {enc} {fresh : Bool} {size fuel : ℕ} {acc : List UInt8}

theorem length_header_le (msg : Msg) : (Net.header msg).length ≤ 9 := by
  unfold Net.header
  split_ifs <;> simp [putUInt64]

theorem length_header_pos (msg : Msg) : 0 < (Net.header msg).length := by
  unfold Net.header
  split_ifs <;> simp

theorem pending_of_idle (hmsg : enc.inProgress = none) (hwrite : enc.writePos = []) :
    enc.pending = [] := by
  simp [pending, hmsg, hwrite]

theorem pending_of_header {msg : Msg} (hmsg : enc.inProgress = some msg)
    (hnew : enc.newMsg = false) : enc.pending = enc.writePos ++ body msg enc.data := by
  simp [pending, hmsg, hnew]

theorem pending_of_body (hnew : enc.newMsg = true) : enc.pending = enc.writePos := by
  unfold pending
  cases enc.inProgress <;> simp [hnew]

/-- An encoder without a message has handed out all bytes. -/
theorem pending_of_inProgress_none (hphase : enc.Phase)
    (hmsg : enc.inProgress = none) : enc.pending = [] := by
  cases hphase with
  | idle hmsg hwrite _ _ => exact pending_of_idle hmsg hwrite
  | header msg hmsg' _ _ _ => simp [hmsg] at hmsg'
  | body msg hmsg' _ _ _ => simp [hmsg] at hmsg'

/-- What copying does: the next bytes go to the buffer until it is full or the message
ends, and a message that ends before the buffer is full is closed. -/
structure Copied (size : ℕ) (acc : List UInt8) (enc : Encoder) (result : Chunk × Encoder) :
    Prop where
  bytes_eq : result.1.bytes = (acc ++ enc.pending).take size
  pending_eq : result.2.pending = (acc ++ enc.pending).drop size
  origin_eq : result.1.origin = none
  phase : result.2.Phase
  idle_iff : result.2.inProgress = none ↔ (acc ++ enc.pending).length < size
  same : ∀ msg, result.2.inProgress = some msg →
    enc.inProgress = some msg ∧ result.2.data = enc.data

/-- A full buffer ends the loop. -/
theorem copied_full (hphase : enc.Phase) (hmsg : enc.inProgress ≠ none) (hfull : acc.length = size) :
    Copied size acc enc (encodeLoop fuel fresh size acc enc) := by
  have hstop : encodeLoop fuel fresh size acc enc = (⟨acc, none⟩, enc) := by
    cases fuel with
    | zero => rfl
    | succ fuel => rw [encodeLoop, if_neg (by omega)]
  rw [hstop]
  refine ⟨?_, ?_, rfl, hphase, ?_, fun msg h => ⟨h, rfl⟩⟩
  · simp [← hfull]
  · simp [← hfull]
  · simp [hmsg, ← hfull]

/-- The last iteration closes the message. -/
theorem copied_close (hnew : enc.newMsg = true)
    (hnext : enc.next = .messageReady) (hwrite : enc.writePos = []) (hroom : acc.length < size) :
    Copied size acc enc (encodeLoop (fuel + 1) fresh size acc enc) := by
  have hstop : encodeLoop (fuel + 1) fresh size acc enc = (⟨acc, none⟩, enc.close) := by
    rw [encodeLoop, if_pos hroom, if_pos ⟨hwrite, hnew⟩]
  have hpending : enc.pending = [] := by rw [pending_of_body hnew, hwrite]
  rw [hstop]
  refine ⟨?_, ?_, rfl, .idle rfl hwrite hnew hnext, ?_, nofun⟩
  · rw [hpending, List.append_nil, List.take_of_length_le hroom.le]
  · rw [hpending, List.append_nil, List.drop_of_length_le hroom.le]
    exact pending_of_idle rfl hwrite
  · simp [close, hpending, hroom]

/-- The iteration that copies from `write_pos`. -/
theorem encodeLoop_copy (hroom : acc.length < size) (hwrite : enc.writePos ≠ [])
    (hzero : ¬(acc = [] ∧ fresh = true ∧ size ≤ enc.writePos.length)) :
    encodeLoop (fuel + 1) fresh size acc enc =
      encodeLoop fuel fresh size (acc ++ enc.writePos.take (size - acc.length))
        (enc.advance (size - acc.length)) := by
  have htake : enc.writePos.take (min enc.writePos.length (size - acc.length)) =
      enc.writePos.take (size - acc.length) := by
    rw [List.take_eq_take_iff]
    omega
  have hdrop : enc.writePos.drop (min enc.writePos.length (size - acc.length)) =
      enc.writePos.drop (size - acc.length) := by
    rcases Nat.le_total enc.writePos.length (size - acc.length) with h | h
    · rw [Nat.min_eq_left h, List.drop_length, List.drop_of_length_le h]
    · rw [Nat.min_eq_right h]
  rw [encodeLoop, if_pos hroom, if_neg fun h => hwrite h.1]
  simp only [if_neg hwrite, if_neg hzero, htake, advance, hdrop]

/-- Bytes may be in the buffer already. -/
theorem Copied.of_append {acc' : List UInt8} {enc' : Encoder} {result : Chunk × Encoder}
    (h : Copied size acc' enc' result) (hbytes : acc' ++ enc'.pending = acc ++ enc.pending)
    (hmsg : enc'.inProgress = enc.inProgress) (hdata : enc'.data = enc.data) :
    Copied size acc enc result where
  bytes_eq := by rw [h.bytes_eq, hbytes]
  pending_eq := by rw [h.pending_eq, hbytes]
  origin_eq := h.origin_eq
  phase := h.phase
  idle_iff := by rw [h.idle_iff, hbytes]
  same := by
    rw [← hmsg, ← hdata]
    exact h.same

/-- Copying within the body. -/
theorem copied_body {msg : Msg} (hmsg : enc.inProgress = some msg) (hnew : enc.newMsg = true)
    (hnext : enc.next = .messageReady)
    (hlength : enc.writePos.length ≤ (body msg enc.data).length) (hacc : acc.length ≤ size)
    (hzero : ¬(acc = [] ∧ fresh = true ∧ size ≤ enc.writePos.length)) :
    Copied size acc enc (encodeLoop (fuel + 2) fresh size acc enc) := by
  rcases Nat.eq_or_lt_of_le hacc with hfull | hroom
  · exact copied_full (.body msg hmsg hnew hnext hlength) (by simp [hmsg]) hfull
  by_cases hwrite : enc.writePos = []
  · exact copied_close hnew hnext hwrite hroom
  rw [encodeLoop_copy hroom hwrite hzero]
  have hnew' : (enc.advance (size - acc.length)).newMsg = true := hnew
  have hmsg' : (enc.advance (size - acc.length)).inProgress = some msg := hmsg
  have hbytes : (acc ++ enc.writePos.take (size - acc.length)) ++
      (enc.advance (size - acc.length)).pending = acc ++ enc.pending := by
    rw [pending_of_body hnew, pending_of_body hnew', List.append_assoc]
    simp [advance]
  rcases Nat.lt_or_ge enc.writePos.length (size - acc.length) with hshort | hlong
  · refine (copied_close hnew' hnext (List.drop_of_length_le hshort.le) ?_).of_append hbytes rfl rfl
    rw [List.length_append, List.length_take]
    omega
  · refine (copied_full (.body msg hmsg' hnew' hnext ?_) (by simp [hmsg']) ?_).of_append
      hbytes rfl rfl
    · change (enc.writePos.drop _).length ≤ _
      rw [List.length_drop]
      exact (Nat.sub_le _ _).trans hlength
    · rw [List.length_append, List.length_take]
      omega

/-- The step from the header to the body. -/
theorem copied_header_done {msg : Msg} (hmsg : enc.inProgress = some msg)
    (hnew : enc.newMsg = false) (hnext : enc.next = .sizeReady) (hwrite : enc.writePos = [])
    (hroom : acc.length < size)
    (hzero : ¬(acc = [] ∧ fresh = true ∧ size ≤ (body msg enc.data).length)) :
    Copied size acc enc (encodeLoop (fuel + 2) fresh size acc enc) := by
  have hrun : enc.runNext = { enc with
      writePos := body msg enc.data
      origin := enc.data.map Record.addr
      next := .messageReady
      newMsg := true } := by
    simp [runNext, hnext, hmsg]
  have hbytes : acc ++ enc.runNext.pending = acc ++ enc.pending := by
    rw [hrun, pending_of_body rfl, pending_of_header hmsg hnew, hwrite, List.nil_append]
  have hstart : encodeLoop (fuel + 2) fresh size acc enc =
      encodeLoop (fuel + 1) fresh size
        (acc ++ enc.runNext.writePos.take
          (min enc.runNext.writePos.length (size - acc.length)))
        (enc.runNext.advance (min enc.runNext.writePos.length (size - acc.length))) := by
    rw [encodeLoop, if_pos hroom, if_neg (by simp [hnew])]
    simp only [if_pos hwrite]
    rw [if_neg (by rwa [hrun])]
  by_cases hempty : body msg enc.data = []
  · have hzeroBody : enc.runNext.writePos = [] := by rw [hrun, hempty]
    have hstay : enc.runNext.advance (min enc.runNext.writePos.length (size - acc.length)) =
        enc.runNext := by
      rw [hrun]
      simp [advance, hempty]
    rw [hstart, hstay, hzeroBody, List.take_nil, List.append_nil]
    refine (copied_close (by rw [hrun]) (by rw [hrun]) hzeroBody hroom).of_append hbytes ?_ ?_
    · rw [hrun]
    · rw [hrun]
  · have hsame : encodeLoop (fuel + 2) fresh size acc enc =
        encodeLoop (fuel + 2) fresh size acc enc.runNext := by
      rw [hstart]
      conv_rhs => rw [encodeLoop]
      have hwrite' : enc.runNext.writePos ≠ [] := by rwa [hrun]
      rw [if_pos hroom, if_neg fun h => hwrite' h.1]
      simp only [if_neg hwrite']
      rw [if_neg (by rwa [hrun])]
    rw [hsame]
    have hmsg' : enc.runNext.inProgress = some msg := by
      rw [hrun]
      exact hmsg
    refine (copied_body hmsg' ?_ ?_ ?_ hroom.le ?_).of_append hbytes ?_ ?_
    · rw [hrun]
    · rw [hrun]
    · rw [hrun]
    · rwa [hrun]
    · rw [hrun]
    · rw [hrun]

/-- Copying from the header on. -/
theorem copied_header {msg : Msg} (hmsg : enc.inProgress = some msg) (hnew : enc.newMsg = false)
    (hnext : enc.next = .sizeReady) (hlength : enc.writePos.length ≤ 9)
    (hwrite : enc.writePos ≠ []) (hroom : acc.length < size)
    (hzero : ¬(acc = [] ∧ fresh = true ∧ size ≤ enc.writePos.length)) :
    Copied size acc enc (encodeLoop (fuel + 3) fresh size acc enc) := by
  rw [encodeLoop_copy hroom hwrite hzero]
  have hnew' : (enc.advance (size - acc.length)).newMsg = false := hnew
  have hmsg' : (enc.advance (size - acc.length)).inProgress = some msg := hmsg
  have hbytes : (acc ++ enc.writePos.take (size - acc.length)) ++
      (enc.advance (size - acc.length)).pending = acc ++ enc.pending := by
    rw [pending_of_header hmsg hnew, pending_of_header hmsg' hnew', List.append_assoc,
      ← List.append_assoc (enc.writePos.take _)]
    simp [advance]
  rcases Nat.lt_or_ge enc.writePos.length (size - acc.length) with hshort | hlong
  · refine (copied_header_done hmsg' hnew' hnext
      (List.drop_of_length_le hshort.le) ?_ ?_).of_append hbytes rfl rfl
    · rw [List.length_append, List.length_take]
      omega
    · rintro ⟨hempty, -⟩
      rw [List.take_of_length_le hshort.le] at hempty
      exact hwrite (List.append_eq_nil_iff.mp hempty).2
  · refine (copied_full (.header msg hmsg' hnew' hnext ?_) (by simp [hmsg']) ?_).of_append
      hbytes rfl rfl
    · change (enc.writePos.drop _).length ≤ _
      rw [List.length_drop]
      exact (Nat.sub_le _ _).trans hlength
    · rw [List.length_append, List.length_take]
      omega

/-- The bytes that the next step of the state machine offers. -/
def firstStep (enc : Encoder) : List UInt8 :=
  match enc.inProgress, enc.newMsg, enc.writePos with
  | some msg, false, [] => body msg enc.data
  | _, _, bytes => bytes

/-- `encode` copies unless the first step alone fills the encoder's own buffer. -/
theorem encode_copied (hphase : enc.Phase) (hsize : 0 < size)
    (hzero : fresh = true → enc.firstStep.length < size) :
    Copied size [] enc (enc.encode fresh size) := by
  cases hphase with
  | idle hmsg hwrite hnew hnext =>
      have hpending := pending_of_idle hmsg hwrite
      rw [encode, if_pos hmsg]
      refine ⟨by simp [hpending], by simp [hpending], rfl, .idle hmsg hwrite hnew hnext, ?_,
        fun msg h => ⟨h, rfl⟩⟩
      simp [hmsg, hpending, hsize]
  | header msg hmsg hnew hnext hlength =>
      rw [encode, if_neg (by simp [hmsg])]
      by_cases hwrite : enc.writePos = []
      · have hfirst : enc.firstStep = body msg enc.data := by simp [firstStep, hmsg, hnew, hwrite]
        rw [hfirst] at hzero
        exact copied_header_done hmsg hnew hnext hwrite hsize
          fun h => absurd (hzero h.2.1) (by omega)
      · have hfirst : enc.firstStep = enc.writePos := by
          unfold firstStep
          split
          next _ _ hwrite' => exact absurd hwrite' hwrite
          next => rfl
        rw [hfirst] at hzero
        exact copied_header hmsg hnew hnext hlength hwrite hsize
          fun h => absurd (hzero h.2.1) (by omega)
  | body msg hmsg hnew hnext hlength =>
      have hfirst : enc.firstStep = enc.writePos := by simp [firstStep, hmsg, hnew]
      rw [hfirst] at hzero
      rw [encode, if_neg (by simp [hmsg])]
      exact copied_body hmsg hnew hnext hlength (Nat.zero_le _)
        fun h => absurd (hzero h.2.1) (by omega)

/-- What the zero-copy path does: it hands out all that is left of the body, and the
message stays in progress until the next call. -/
structure ZeroCopied (size : ℕ) (enc : Encoder) (result : Chunk × Encoder) : Prop where
  bytes_eq : result.1.bytes = enc.pending
  length_ge : size ≤ result.1.bytes.length
  pending_eq : result.2.pending = []
  phase : result.2.Phase
  same : result.2.inProgress = enc.inProgress ∧ result.2.data = enc.data
  length_le : ∀ msg, enc.inProgress = some msg →
    enc.pending.length ≤ (body msg enc.data).length

/-- `encode` without a buffer of the caller, when the first step fills its own. -/
theorem encode_zeroCopied (hphase : enc.Phase) (hsize : 0 < size)
    (hbody : enc.newMsg = false → enc.writePos = []) (hzero : size ≤ enc.firstStep.length) :
    ZeroCopied size enc (enc.encode true size) := by
  cases hphase with
  | idle hmsg hwrite hnew hnext =>
      simp only [firstStep, hmsg, hwrite, List.length_nil] at hzero
      omega
  | header msg hmsg hnew hnext hlength =>
      cases hwrite : enc.writePos with
      | cons b rest =>
          rw [hbody hnew] at hwrite
          cases hwrite
      | nil =>
          simp only [firstStep, hmsg, hnew, hwrite] at hzero
          have hresult : enc.encode true size =
              (⟨body msg enc.data, enc.data.map Record.addr⟩, { enc with
                writePos := []
                origin := enc.data.map Record.addr
                next := .messageReady
                newMsg := true }) := by
            rw [encode, if_neg (by simp [hmsg]), encodeLoop, if_pos (by simp; omega),
              if_neg (by simp [hnew])]
            simp [runNext, hnext, hmsg, hwrite, hzero]
          have hpending : enc.pending = body msg enc.data := by
            rw [pending_of_header hmsg hnew, hwrite, List.nil_append]
          rw [hresult]
          refine ⟨hpending.symm, hzero, pending_of_body rfl,
            .body msg hmsg rfl rfl (Nat.zero_le _), ⟨rfl, rfl⟩, fun msg' hmsg' => ?_⟩
          obtain rfl : msg = msg' := Option.some.inj (hmsg.symm.trans hmsg')
          rw [hpending]
  | body msg hmsg hnew hnext hlength =>
      simp only [firstStep, hmsg, hnew] at hzero
      have hwrite : enc.writePos ≠ [] := by
        intro hwrite
        rw [hwrite, List.length_nil] at hzero
        omega
      have hresult : enc.encode true size =
          (⟨enc.writePos, enc.origin⟩, { enc with writePos := [] }) := by
        rw [encode, if_neg (by simp [hmsg]), encodeLoop, if_pos (by simp; omega),
          if_neg fun h => hwrite h.1]
        simp [hwrite, hzero]
      have hpending : enc.pending = enc.writePos := pending_of_body hnew
      rw [hresult]
      refine ⟨hpending.symm, hzero, pending_of_body hnew,
        .body msg hmsg hnew hnext (Nat.zero_le _), ⟨rfl, rfl⟩, fun msg' hmsg' => ?_⟩
      obtain rfl : msg = msg' := Option.some.inj (hmsg.symm.trans hmsg')
      rw [hpending]
      exact hlength

/-- A large first step is the body. -/
theorem writePos_eq_nil_of_large (hphase : enc.Phase) (hsize : 9 < size)
    (hzero : size ≤ enc.firstStep.length) : enc.newMsg = false → enc.writePos = [] := by
  intro hopen
  cases hphase with
  | idle _ hwrite _ _ => exact hwrite
  | header msg hmsg hnew hnext hlength =>
      cases hwrite : enc.writePos with
      | nil => rfl
      | cons b rest =>
          simp only [firstStep, hmsg, hnew, hwrite] at hzero
          rw [hwrite] at hlength
          omega
  | body msg hmsg hnew _ _ =>
      rw [hnew] at hopen
      cases hopen

/-- What a call without a buffer of the caller can do. -/
theorem encode_fresh_cases (hphase : enc.Phase) (hsize : 9 < size) :
    Copied size [] enc (enc.encode true size) ∨ ZeroCopied size enc (enc.encode true size) := by
  rcases Nat.lt_or_ge enc.firstStep.length size with hcopy | hzero
  · exact .inl (encode_copied hphase (by omega) fun _ => hcopy)
  · exact .inr (encode_zeroCopied hphase (by omega)
      (writePos_eq_nil_of_large hphase hsize hzero) hzero)

/-- One call without a buffer of the caller hands out all that is left exactly when it
fits the encoder's own buffer or lies within the body. -/
theorem encode_fresh_eq_pending_iff (hphase : enc.Phase) (hsize : 9 < size) {msg : Msg}
    (hmsg : enc.inProgress = some msg) :
    (enc.encode true size).1.bytes = enc.pending ↔
      enc.pending.length ≤ max (body msg enc.data).length size := by
  rcases Nat.lt_or_ge enc.firstStep.length size with hcopy | hzero
  · rw [(encode_copied hphase (by omega) fun _ => hcopy).bytes_eq, List.nil_append,
      List.take_eq_self_iff]
    refine ⟨fun h => h.trans (le_max_right _ _), fun h => ?_⟩
    rcases le_max_iff.mp h with hbody | hroom
    · cases hphase with
      | idle hnone _ _ _ =>
          rw [hnone] at hmsg
          cases hmsg
      | header msg' hmsg' hnew hnext hlength =>
          obtain rfl : msg = msg' := Option.some.inj (hmsg.symm.trans hmsg')
          rw [pending_of_header hmsg hnew] at hbody ⊢
          -- the header is out, so the first step is the whole body
          have hwrite : enc.writePos = [] := by
            rw [List.length_append] at hbody
            exact List.length_eq_zero_iff.mp (by omega)
          simp only [firstStep, hmsg, hnew, hwrite] at hcopy
          rw [hwrite, List.nil_append]
          exact hcopy.le
      | body msg' hmsg' hnew hnext hlength =>
          simp only [firstStep, hmsg', hnew] at hcopy
          rw [pending_of_body hnew]
          exact hcopy.le
    · exact hroom
  · have hresult := encode_zeroCopied hphase (by omega)
      (writePos_eq_nil_of_large hphase hsize hzero) hzero
    exact ⟨fun _ => (hresult.length_le msg hmsg).trans (le_max_left _ _),
      fun _ => hresult.bytes_eq⟩

/-- A header that alone fills the encoder's own buffer. -/
theorem encode_header_eq {msg : Msg} (hmsg : enc.inProgress = some msg)
    (hwrite : enc.writePos ≠ []) (hsize : 0 < size) (hzero : size ≤ enc.writePos.length) :
    enc.encode true size = (⟨enc.writePos, enc.origin⟩, { enc with writePos := [] }) := by
  rw [encode, if_neg (by simp [hmsg]), encodeLoop, if_pos (by simpa using hsize),
    if_neg fun h => hwrite h.1]
  simp [hwrite, hzero]

/-- What any call does: it hands out the next bytes, and it makes progress. -/
structure HandsOut (enc : Encoder) (result : Chunk × Encoder) : Prop where
  bytes_eq : result.1.bytes ++ result.2.pending = enc.pending
  phase : result.2.Phase
  progress : enc.inProgress ≠ none → result.1.bytes ≠ [] ∨ result.2.inProgress = none

theorem Copied.handsOut {result : Chunk × Encoder} (h : Copied size [] enc result)
    (hsize : 0 < size) : HandsOut enc result where
  bytes_eq := by
    rw [h.bytes_eq, h.pending_eq, List.nil_append, List.take_append_drop]
  phase := h.phase
  progress := by
    intro _
    by_cases hempty : enc.pending = []
    · right
      rw [h.idle_iff, hempty]
      exact hsize
    · left
      rw [h.bytes_eq, List.nil_append]
      intro htake
      rcases List.take_eq_nil_iff.mp htake with hzero | hnil
      · omega
      · exact hempty hnil

/-- `encode` with any buffer. -/
theorem encode_handsOut (hphase : enc.Phase) (hsize : 0 < size) (fresh : Bool) :
    HandsOut enc (enc.encode fresh size) := by
  by_cases hcopy : fresh = true → enc.firstStep.length < size
  · exact (encode_copied hphase hsize hcopy).handsOut hsize
  obtain ⟨rfl, hzero⟩ := Classical.not_imp.mp hcopy
  rw [Nat.not_lt] at hzero
  by_cases hbody : enc.newMsg = false → enc.writePos = []
  · have hresult := encode_zeroCopied hphase hsize hbody hzero
    refine ⟨?_, hresult.phase, fun _ => .inl ?_⟩
    · rw [hresult.pending_eq, hresult.bytes_eq, List.append_nil]
    · intro hempty
      have hlength := hresult.length_ge
      rw [hempty, List.length_nil] at hlength
      omega
  · obtain ⟨hopen, hwrite⟩ := Classical.not_imp.mp hbody
    cases hphase with
    | idle _ hnil _ _ => exact absurd hnil hwrite
    | body msg _ hnew _ _ =>
        rw [hnew] at hopen
        cases hopen
    | header msg hmsg hnew hnext hlength =>
        have hfirst : enc.firstStep = enc.writePos := by
          unfold firstStep
          split
          next _ _ hnil => exact absurd hnil hwrite
          next => rfl
        rw [hfirst] at hzero
        rw [encode_header_eq hmsg hwrite hsize hzero]
        refine ⟨?_, .header msg hmsg hnew hnext (Nat.zero_le _), fun _ => .inl hwrite⟩
        rw [pending_of_header hmsg hnew]
        exact congrArg (enc.writePos ++ ·) (pending_of_header hmsg hnew)

/-- Loading a message into an idle encoder. -/
theorem loadMsg_eq_some (hphase : enc.Phase) (hidle : enc.inProgress = none) (msg : Msg)
    (data : Option Record) :
    ∃ enc', enc.loadMsg msg data = some enc' ∧ enc'.Phase ∧
      enc'.inProgress = some msg ∧ enc'.data = data ∧ enc'.pending = frame msg data ∧
      enc'.firstStep.length ≤ 9 := by
  cases hphase with
  | header msg' hmsg _ _ _ =>
      rw [hidle] at hmsg
      cases hmsg
  | body msg' hmsg _ _ _ =>
      rw [hidle] at hmsg
      cases hmsg
  | idle hmsg hwrite hnew hnext =>
      refine ⟨_, if_pos hidle, ?_, ?_, ?_, ?_, ?_⟩
      · simp only [runNext, hnext]
        exact .header msg rfl rfl rfl (length_header_le msg)
      · simp [runNext, hnext]
      · simp [runNext, hnext]
      · simp only [runNext, hnext]
        rw [pending_of_header rfl rfl]
        rfl
      · simp only [runNext, hnext, firstStep]
        split
        next _ _ hempty =>
            have hpos := length_header_pos msg
            simp_all
        next => exact length_header_le msg

end Encoder

end AFStream.Net
