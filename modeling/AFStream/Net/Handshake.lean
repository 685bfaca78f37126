/-
# The handshake of a connection

A `stream_engine_t` starts with the exchange of greetings. Ours is written in pieces, as far
as the greeting of the peer tells which version it speaks; that of the peer arrives in
fragments of any length. When it is complete, `handshake` creates the encoder, the decoder
and the mechanism, and `in_event` goes on with the commands of the mechanism. The handshake
is over when both `READY` commands have been exchanged.

The module runs the engine on all bytes that a peer may send, in every fragmentation and
with any interleaving of writes, and determines for which of them its assertions hold and the
decoder stays within its memory. A call of `malloc` may fail at any time.
-/

import AFStream.Foundation.Machine
import AFStream.Net.Decoder
import AFStream.Net.Mechanism
import AFStream.Net.StreamEngine
import Mathlib.Data.List.GetD

namespace AFStream.Net

open AFStream.Foundation

/-- `in_batch_size` -/
def inBatchSize : ℕ := 1024 * 128

/-- `signature_size` -/
def signatureSize : ℕ := 10

/-- `v2_greeting_size` -/
def v2GreetingSize : ℕ := 12

/-- `v3_greeting_size` -/
def v3GreetingSize : ℕ := 64

/-- The name of a mechanism in a greeting, with its padding. -/
def mechanismName (name : String) : List UInt8 :=
  textBytes name ++ List.replicate (20 - name.length) 0

/-- What `read_msg` and `write_msg` may point to. -/
inductive MsgHandler
  | /-- `next_handshake_command` and `process_handshake_command` -/
    handshakeCommand
  | /-- `pull_and_encode` and `decode_and_push` -/
    record
  deriving DecidableEq, Repr

/-- The state of a connection. -/
inductive EngineStatus
  | handshake
  | /-- `mechanism_ready` has been called. -/
    ready
  | /-- `error` has deleted the engine. -/
    closed
  | /-- An assertion has failed, a null pointer has been called, or a chunk has been used that is
    too small. -/
    aborted
  deriving DecidableEq, Repr

/-- The members of `stream_engine_t` that the handshake uses, and what the peer has sent. -/
structure HandshakeEngine where
  status : EngineStatus
  /-- What the peer sends and has not been read. -/
  peer : List UInt8
  handshaking : Bool
  greetingSize : ℕ
  /-- The `greeting_bytes_read` bytes of `greeting_recv`. -/
  greetingRecv : List UInt8
  /-- Where the data to write end, in `greeting_send`. -/
  greetingEnd : ℕ
  /-- The `outsize` bytes at `outpos`. -/
  out : List UInt8
  /-- The `insize` bytes at `inpos`, and whether they lie where the decoder wants them. -/
  input : List UInt8
  zeroCopy : Bool
  encoder : Option Encoder
  decoder : Option Decoder
  mechanism : Option NullMechanism
  readMsg : Option MsgHandler
  writeMsg : Option MsgHandler

/-- What a call of `recv` does: it returns up to the given number of bytes, or it fails. -/
inductive Recv
  | data (limit : ℕ)
  | again
  | /-- The peer has closed the connection, or there is an error. -/
    failed
  deriving DecidableEq, Repr

/-- An event of the poller: the results of the calls of `recv` and of `malloc` in an `in_event`,
or the number of bytes that `send` accepts in an `out_event`. -/
inductive EngineEvent
  | inEvent (reads : List Recv) (mallocs : List Bool)
  | outEvent (accepted : ℕ)
  deriving DecidableEq, Repr

namespace HandshakeEngine

variable (options : Options)

/-- The end of an engine, by `error` or by an assertion. -/
def stop (status : EngineStatus) (e : HandshakeEngine) : HandshakeEngine :=
  { e with status := status }

/-- `outpos [outsize++] = …` -/
def append (e : HandshakeEngine) (bytes : List UInt8) : HandshakeEngine :=
  { e with out := e.out ++ bytes, greetingEnd := e.greetingEnd + bytes.length }

/-- A byte of `greeting_recv`. -/
def greetingByte (e : HandshakeEngine) (i : ℕ) : UInt8 := e.greetingRecv.getD i 0

/-- Send the major version number. -/
def sendMajor (e : HandshakeEngine) : HandshakeEngine :=
  if e.greetingEnd = signatureSize then e.append [3] else e

/-- What `handshake` adds to our greeting when the signature of the peer is complete. -/
def sendVersion (e : HandshakeEngine) : HandshakeEngine :=
  let e := e.sendMajor
  if signatureSize < e.greetingRecv.length ∧ e.greetingEnd = signatureSize + 1 then
    if e.greetingByte 10 = 0 ∨ e.greetingByte 10 = 1 then
      e.append [options.type.ctorIdx.toUInt8]
    else
      { e.append (0 :: mechanismName (match options.mechanism with
          | .null => "NULL"
          | .plain => "PLAIN"
          | .curve => "CURVE") ++ List.replicate 32 0) with
        greetingSize := v3GreetingSize }
  else e

/-- A call of `recv` for up to `size` bytes. Without any data it fails with `EAGAIN`. -/
def recvBytes (e : HandshakeEngine) (size limit : ℕ) : List UInt8 := e.peer.take (min limit size)

/-- Bytes of the peer are stored in `greeting_recv`. -/
def store (e : HandshakeEngine) (bytes : List UInt8) : HandshakeEngine :=
  { e with peer := e.peer.drop bytes.length, greetingRecv := e.greetingRecv ++ bytes }

/-- The loop of `handshake`. With the greeting it returns the reads that are left, and without
one nothing. -/
def receiveGreeting : List Recv → HandshakeEngine → Option (List Recv) × HandshakeEngine
  | reads, e =>
    if e.greetingRecv.length < e.greetingSize then
      match reads with
      | [] => (none, e)
      | .again :: _ => (none, e)
      | .failed :: _ => (none, e.stop .closed)
      | .data limit :: reads =>
        let bytes := e.recvBytes (e.greetingSize - e.greetingRecv.length) limit
        if bytes = [] then (none, e)
        else
          let e := e.store bytes
          if e.greetingByte 0 ≠ 0xff then (some reads, e)
          else if e.greetingRecv.length < signatureSize then receiveGreeting reads e
          else if e.greetingByte 9 &&& 1 = 0 then (some reads, e)
          else receiveGreeting reads (e.sendVersion options)
    else (some reads, e)

/-- The last branch of `handshake`. The code that creates a `PLAIN` mechanism is commented
out. -/
def selectMechanism (e : HandshakeEngine) : HandshakeEngine :=
  let e :=
    { e with
      encoder := some .create
      decoder := some (.create inBatchSize options.maxmsgsize) }
  let name := (e.greetingRecv.drop 12).take 20
  if options.mechanism = .null ∧ name = mechanismName "NULL" then
    { e with
      mechanism := some .create
      readMsg := some .handshakeCommand
      writeMsg := some .handshakeCommand }
  else if options.mechanism = .plain ∧ name = mechanismName "PLAIN" then
    { e with readMsg := some .handshakeCommand, writeMsg := some .handshakeCommand }
  else e.stop .closed

/-- The end of `handshake`. For the older versions of the protocol the code that creates an
encoder and a decoder is commented out. -/
def selectProtocol (e : HandshakeEngine) : HandshakeEngine :=
  if e.greetingByte 0 ≠ 0xff ∨ e.greetingByte 9 &&& 1 = 0 then e
  else if e.greetingByte 10 = 0 then e
  else if e.greetingByte 10 = 1 then e
  else e.selectMechanism options

/-- `handshake`. It returns the reads that are left if it returns `true`. -/
def handshake (e : HandshakeEngine) (reads : List Recv) :
    Option (List Recv) × HandshakeEngine :=
  if e.handshaking ∧ e.greetingRecv.length < e.greetingSize then
    match receiveGreeting options reads e with
    | (none, e) => (none, e)
    | (some reads, e) =>
      let e := e.selectProtocol options
      if e.status = .closed then (none, e) else (some reads, { e with handshaking := false })
  else (none, e.stop .aborted)

/-- `mechanism_ready`, up to the flags of the callbacks. -/
def mechanismReady (e : HandshakeEngine) : HandshakeEngine :=
  { e with status := .ready, readMsg := some .record, writeMsg := some .record }

/-- `process_handshake_command`, and what `in_event` does if it fails. -/
def processHandshakeCommand (e : HandshakeEngine) (msg : Msg) : HandshakeEngine :=
  match e.mechanism with
  | none => e.stop .aborted
  | some mechanism =>
    match mechanism.processHandshakeCommand options msg with
    | .error _ => e.stop .closed
    | .ok mechanism =>
      let e := { e with mechanism := some mechanism }
      if mechanism.isHandshakeComplete then e.mechanismReady else e

/-- The loop of `in_event`. When the handshake is over the rest of the input belongs to the
records. -/
def processInput : ℕ → HandshakeEngine → HandshakeEngine
  | 0, e => e
  | fuel + 1, e =>
    if e.input = [] then e
    else
      match e.decoder with
      | none => e.stop .aborted
      | some decoder =>
        match decoder.decode e.zeroCopy e.input with
        | none => e.stop .aborted
        | some (result, processed, decoder) =>
          if e.input.length < processed then e.stop .aborted
          else
            -- Behind the data that were used `inpos` is no place the decoder writes to.
            let e :=
              { e with
                decoder := some decoder
                input := e.input.drop processed
                zeroCopy := false }
            match result with
            | .more => e
            | .error => e.stop .closed
            | .fault => e.stop .aborted
            | .message =>
              match e.writeMsg with
              | none => e.stop .aborted
              | some .record => e
              | some .handshakeCommand =>
                let e := e.processHandshakeCommand options decoder.inProgress
                if e.status = .handshake then processInput fuel e else e

/-- The part of `in_event` behind `handshake`. -/
def receive (e : HandshakeEngine) (reads : List Recv) : HandshakeEngine :=
  match e.decoder with
  | none => e.stop .aborted
  | some decoder =>
    if e.input = [] then
      match reads with
      | [] => e
      | .again :: _ => e
      | .failed :: _ => e.stop .closed
      | .data limit :: _ =>
        let (zeroCopy, bufsize) := decoder.getBuffer
        let bytes := e.recvBytes bufsize limit
        processInput options bytes.length
          { e with peer := e.peer.drop bytes.length, input := bytes, zeroCopy := zeroCopy }
    else processInput options e.input.length e

/-- What the calls of `malloc` for the coming messages answer. -/
def withMemory (e : HandshakeEngine) (mallocs : List Bool) : HandshakeEngine :=
  { e with decoder := e.decoder.map fun decoder => { decoder with mallocs := mallocs } }

/-- `in_event` -/
def inEvent (e : HandshakeEngine) (reads : List Recv) (mallocs : List Bool) : HandshakeEngine :=
  if e.handshaking then
    match e.handshake options reads with
    | (none, e) => e
    | (some reads, e) => (e.withMemory mallocs).receive options reads
  else (e.withMemory mallocs).receive options reads

/-- The part of `out_event` that fills the write buffer. Once the `READY` command has been
loaded `read_msg` has nothing more until the handshake is over. -/
def refill (e : HandshakeEngine) (encoder : Encoder) : HandshakeEngine :=
  let (chunk, encoder) := encoder.encode true outBatchSize
  let e := { e with out := chunk.bytes, encoder := some encoder }
  if e.out.length < outBatchSize then
    match e.readMsg, e.mechanism with
    | some .handshakeCommand, some mechanism =>
      match mechanism.nextHandshakeCommand options with
      | none => e
      | some (msg, mechanism) =>
        let e := { e with mechanism := some mechanism }
        let e := if mechanism.isHandshakeComplete then e.mechanismReady else e
        match encoder.loadMsg msg none with
        | none => e.stop .aborted
        | some encoder =>
          let (chunk, encoder) := encoder.encode (e.out = []) (outBatchSize - e.out.length)
          if chunk.bytes = [] then e.stop .aborted
          else { e with out := e.out ++ chunk.bytes, encoder := some encoder }
    | some .record, _ => e
    | _, _ => e.stop .aborted
  else e

/-- `out_event` -/
def outEvent (e : HandshakeEngine) (accepted : ℕ) : HandshakeEngine :=
  if e.out = [] then
    match e.encoder with
    | none => if e.handshaking then e else e.stop .aborted
    | some encoder =>
      let e := e.refill options encoder
      { e with out := e.out.drop accepted }
  else { e with out := e.out.drop accepted }

/-- The events of the poller, until the handshake is over. -/
def step (e : HandshakeEngine) : EngineEvent → Option HandshakeEngine
  | .inEvent reads mallocs =>
    if e.status = .handshake then some (e.inEvent options reads mallocs) else none
  | .outEvent accepted =>
    if e.status = .handshake then some (e.outEvent options accepted) else none

/-- A new engine, behind the greeting that `plug` writes, and the bytes of the peer. -/
def machine (peer : List UInt8) : Machine HandshakeEngine EngineEvent where
  init :=
    { status := .handshake
      peer := peer
      handshaking := true
      greetingSize := v2GreetingSize
      greetingRecv := []
      greetingEnd := signatureSize
      out := 0xff :: putUInt64 (options.identity.length + 1) ++ [0x7f]
      input := []
      zeroCopy := false
      encoder := none
      decoder := none
      mechanism := none
      readMsg := none
      writeMsg := none }
  step := step options

/-- What the peer may rely on: no assertion fails, and behind the greeting all that the
handshake needs is there. -/
structure Sound (e : HandshakeEngine) : Prop where
  not_aborted : e.status ≠ .aborted
  established : e.status ≠ .closed → e.handshaking = false →
    e.encoder.isSome ∧ e.decoder.isSome ∧ e.mechanism.isSome ∧ e.readMsg.isSome ∧
      e.writeMsg.isSome

/-- The bytes of a peer are, as far as they go, a greeting of version 3. -/
structure Versioned (peer : List UInt8) : Prop where
  signature : ∀ b, peer[0]? = some b → b = 0xff
  flags : ∀ b, peer[9]? = some b → b &&& 1 ≠ 0
  revision : ∀ b, peer[10]? = some b → v2GreetingSize ≤ peer.length → ¬ (b = 0 ∨ b = 1)

/-- No header at the beginning of the bytes gives a size within the limit for messages for which
the sum in `init_size` wraps. -/
def HeaderFits (bytes : List UInt8) : Prop :=
  ∀ size rest, Decoder.readHeader bytes = some (size, rest) →
    Decoder.Allowed options.maxmsgsize size → sizeofContent + size < 2 ^ 64

/-- A new mechanism takes the message for a `READY` command. -/
def AcceptsCommand (msg : Msg) : Prop :=
  ∃ mechanism, NullMechanism.create.processHandshakeCommand options msg = .ok mechanism

/-- The frames that an engine may look at before it is ready: the first one, and behind a `READY`
command the next one, as our own command may not have been sent yet. -/
structure Harmless (bytes : List UInt8) : Prop where
  first : HeaderFits options bytes
  second : ∀ msg rest, Decoder.readFrame bytes = some (msg, rest) →
    Decoder.Allowed options.maxmsgsize msg.size → AcceptsCommand options msg →
      HeaderFits options rest

/-- In addition they do not ask for the `PLAIN` mechanism from a side that has it, and the bytes
behind a greeting with the `NULL` mechanism are harmless. -/
structure Acceptable (peer : List UInt8) : Prop extends Versioned peer where
  mechanism : options.mechanism = .plain → v3GreetingSize ≤ peer.length →
    (peer.drop 12).take 20 ≠ mechanismName "PLAIN"
  sizes : options.mechanism = .null → v3GreetingSize ≤ peer.length →
    (peer.drop 12).take 20 = mechanismName "NULL" →
      Harmless options (peer.drop v3GreetingSize)

/-! ## The greeting -/

/-- What has been received, where our greeting ends and how long that of the peer will be. -/
inductive Progress (greeting : List UInt8) : ℕ → ℕ → Prop
  | signature (hlength : greeting.length < signatureSize) :
      Progress greeting signatureSize v2GreetingSize
  | revision (hlength : greeting.length = signatureSize) :
      Progress greeting (signatureSize + 1) v2GreetingSize
  | older (hlength : greeting.length = signatureSize + 1)
      (hrevision : greeting.getD 10 0 = 0 ∨ greeting.getD 10 0 = 1) :
      Progress greeting v2GreetingSize v2GreetingSize
  | current (hlength : signatureSize < greeting.length)
      (hle : greeting.length ≤ v3GreetingSize)
      (hrevision : ¬ (greeting.getD 10 0 = 0 ∨ greeting.getD 10 0 = 1)) :
      Progress greeting v3GreetingSize v3GreetingSize

/-- The engine in the loop of `handshake`. -/
structure Greeting (peer : List UInt8) (e : HandshakeEngine) : Prop where
  status_eq : e.status = .handshake
  handshaking_eq : e.handshaking = true
  received : e.greetingRecv ++ e.peer = peer
  encoder_eq : e.encoder = none
  input_eq : e.input = []
  progress : Progress e.greetingRecv e.greetingEnd e.greetingSize

variable {options} {peer : List UInt8} {e e' : HandshakeEngine}

/-- A received byte is a byte of the peer. -/
theorem getElem?_peer (hreceived : e.greetingRecv ++ e.peer = peer) {i : ℕ}
    (hi : i < e.greetingRecv.length) : peer[i]? = some (e.greetingByte i) := by
  rw [← hreceived, List.getElem?_append_left hi, greetingByte, List.getD_eq_getElem?_getD,
    List.getElem?_eq_getElem hi]
  rfl

variable (options) in
/-- `sendVersion` only writes. -/
theorem sendVersion_same (e : HandshakeEngine) :
    (e.sendVersion options).status = e.status ∧
      (e.sendVersion options).handshaking = e.handshaking ∧
      (e.sendVersion options).greetingRecv = e.greetingRecv ∧
      (e.sendVersion options).peer = e.peer ∧ (e.sendVersion options).encoder = e.encoder ∧
      (e.sendVersion options).input = e.input ∧ (e.sendVersion options).decoder = e.decoder ∧
      (e.sendVersion options).mechanism = e.mechanism := by
  simp only [sendVersion, sendMajor]
  split_ifs <;> exact ⟨rfl, rfl, rfl, rfl, rfl, rfl, rfl, rfl⟩

/-- The answer to a signature, and to the revision if it has arrived with it. -/
theorem progress_sendVersion (hend : e.greetingEnd = signatureSize ∨
      e.greetingEnd = signatureSize + 1)
    (hsize : e.greetingSize = v2GreetingSize) (hlow : signatureSize ≤ e.greetingRecv.length)
    (hhigh : e.greetingRecv.length ≤ v2GreetingSize)
    (hrevision : e.greetingRecv.length = v2GreetingSize →
      ¬ (e.greetingByte 10 = 0 ∨ e.greetingByte 10 = 1)) :
    Progress (e.sendVersion options).greetingRecv (e.sendVersion options).greetingEnd
      (e.sendVersion options).greetingSize := by
  obtain ⟨e₁, hmajor, hrecv₁, hend₁, hsize₁⟩ : ∃ e₁, e.sendMajor = e₁ ∧
      e₁.greetingRecv = e.greetingRecv ∧ e₁.greetingEnd = signatureSize + 1 ∧
      e₁.greetingSize = v2GreetingSize := by
    rcases hend with hend | hend
    · refine ⟨_, if_pos hend, rfl, ?_, hsize⟩
      rw [HandshakeEngine.append, hend, List.length_singleton]
    · refine ⟨_, if_neg ?_, rfl, hend, hsize⟩
      rw [hend]
      exact Nat.succ_ne_self signatureSize
  have hbyte : e₁.greetingByte 10 = e.greetingByte 10 := by
    rw [greetingByte, hrecv₁, greetingByte]
  simp only [sendVersion, hmajor]
  rw [hrecv₁, hbyte, hend₁]
  rcases Nat.eq_or_lt_of_le hlow with hten | hmore
  · rw [if_neg fun h => (hten ▸ h.1).ne rfl, hrecv₁, hend₁, hsize₁]
    exact .revision hten.symm
  · rw [if_pos ⟨hmore, rfl⟩]
    split_ifs with hold
    · have hlength : e.greetingRecv.length = signatureSize + 1 := by
        apply Nat.le_antisymm _ hmore
        apply Nat.le_of_lt_succ
        exact lt_of_le_of_ne hhigh fun hfull => hrevision hfull hold
      simp only [HandshakeEngine.append, hrecv₁, hend₁, hsize₁]
      exact .older hlength hold
    · have hend : signatureSize + 1 + (0 :: mechanismName (match options.mechanism with
            | .null => "NULL"
            | .plain => "PLAIN"
            | .curve => "CURVE") ++ List.replicate 32 0).length = v3GreetingSize := by
        cases options.mechanism <;> rfl
      simp only [HandshakeEngine.append, hrecv₁, hend₁]
      rw [hend]
      exact .current hmore (hhigh.trans (by decide)) hold

/-- A fragment that ends behind the signature. -/
theorem Progress.sendVersion {greeting bytes : List UInt8} {greetingEnd greetingSize : ℕ}
    (h : Progress greeting greetingEnd greetingSize) (e : HandshakeEngine) (hbytes : bytes ≠ [])
    (hrecv : e.greetingRecv = greeting ++ bytes) (hend : e.greetingEnd = greetingEnd)
    (hsize : e.greetingSize = greetingSize)
    (hle : e.greetingRecv.length ≤ greetingSize)
    (hlow : signatureSize ≤ e.greetingRecv.length)
    (hrevision : v2GreetingSize ≤ e.greetingRecv.length →
      ¬ (e.greetingByte 10 = 0 ∨ e.greetingByte 10 = 1)) :
    Progress (e.sendVersion options).greetingRecv (e.sendVersion options).greetingEnd
      (e.sendVersion options).greetingSize := by
  have hlength : e.greetingRecv.length = greeting.length + bytes.length := by
    rw [hrecv, List.length_append]
  have hpos : 0 < bytes.length := List.length_pos_iff.mpr hbytes
  cases h with
  | signature _ =>
      exact progress_sendVersion (Or.inl hend) hsize hlow hle fun hfull => hrevision hfull.ge
  | revision _ =>
      exact progress_sendVersion (Or.inr hend) hsize hlow hle fun hfull => hrevision hfull.ge
  | older hshort hold =>
      apply absurd _ (hrevision _)
      · rw [greetingByte, hrecv, List.getD_append _ _ _ _ (by rw [hshort]; decide)]
        exact hold
      · rw [hlength, hshort]
        exact Nat.add_le_add_left hpos _
  | current hlong _ hcurrent =>
      have hsame : e.sendVersion options = e := by
        have hmajor : e.sendMajor = e := if_neg (by rw [hend]; decide)
        simp only [HandshakeEngine.sendVersion, hmajor]
        exact if_neg fun h => absurd (hend.symm.trans h.2) (by decide)
      rw [hsame, hend, hsize]
      refine .current (by omega) hle ?_
      rw [hrecv, List.getD_append _ _ _ 10 hlong]
      exact hcurrent

/-- A fragment that ends within the signature. -/
theorem Progress.of_short {greeting greeting' : List UInt8} {greetingEnd greetingSize : ℕ}
    (h : Progress greeting greetingEnd greetingSize) (hshort : greeting'.length < signatureSize)
    (hle : greeting.length ≤ greeting'.length) : Progress greeting' greetingEnd greetingSize := by
  cases h with
  | signature _ => exact .signature hshort
  | revision hlength => omega
  | older hlength _ => omega
  | current hlength _ _ => omega

/-- Nothing is lost when bytes are stored. -/
theorem Greeting.received_store (h : e.Greeting peer) {bytes : List UInt8}
    (hbytes : bytes <+: e.peer) :
    (e.store bytes).greetingRecv ++ (e.store bytes).peer = peer := by
  change e.greetingRecv ++ bytes ++ e.peer.drop bytes.length = peer
  rw [List.append_assoc, List.prefix_iff_eq_append.mp hbytes, h.received]

variable (options) in
/-- A fragment in the loop, up to a byte behind the signature. -/
theorem Greeting.sendVersion (hpeer : Versioned peer) (h : e.Greeting peer) {bytes : List UInt8}
    (hne : bytes ≠ []) (hbytes : bytes <+: e.peer)
    (hle : (e.store bytes).greetingRecv.length ≤ e.greetingSize)
    (hlow : signatureSize ≤ (e.store bytes).greetingRecv.length) :
    ((e.store bytes).sendVersion options).Greeting peer := by
  have hreceived := h.received_store hbytes
  obtain ⟨hstatus, hhandshaking, hrecv, hrest, hencoder, hinput, -⟩ :=
    sendVersion_same options (e.store bytes)
  refine ⟨hstatus.trans h.status_eq, hhandshaking.trans h.handshaking_eq, ?_,
    hencoder.trans h.encoder_eq, hinput.trans h.input_eq, ?_⟩
  · rw [hrecv, hrest, hreceived]
  · apply h.progress.sendVersion (e.store bytes) hne rfl rfl rfl hle hlow
    intro hfull
    apply hpeer.revision _ (getElem?_peer hreceived (hfull.trans_lt' (by decide)))
    rw [← hreceived, List.length_append]
    exact hfull.trans (Nat.le_add_right _ _)

/-- What the loop of `handshake` leads to. -/
def Outcome (peer : List UInt8) : Option (List Recv) × HandshakeEngine → Prop
  | (none, e) => e.status = .closed ∨
      e.Greeting peer ∧ e.greetingRecv.length < e.greetingSize
  | (some _, e) => e.Greeting peer ∧ e.greetingSize ≤ e.greetingRecv.length

variable (options) in
/-- **The greeting.** The loop waits or ends with all bytes of a greeting, however they are
fragmented. -/
theorem Greeting.receiveGreeting (hpeer : Versioned peer) (reads : List Recv)
    (h : e.Greeting peer) : Outcome peer (receiveGreeting options reads e) := by
  induction reads generalizing e with
  | nil =>
      unfold HandshakeEngine.receiveGreeting
      split_ifs with hroom
      · exact Or.inr ⟨h, hroom⟩
      · exact ⟨h, Nat.not_lt.mp hroom⟩
  | cons read reads ih =>
      unfold HandshakeEngine.receiveGreeting
      split_ifs with hroom
      · cases read with
        | again => exact Or.inr ⟨h, hroom⟩
        | failed => exact Or.inl rfl
        | data limit =>
            dsimp only
            obtain ⟨bytes, hbytes⟩ : ∃ bytes,
                e.recvBytes (e.greetingSize - e.greetingRecv.length) limit = bytes := ⟨_, rfl⟩
            have hprefix : bytes <+: e.peer := hbytes ▸ List.take_prefix _ _
            have hcount : bytes.length ≤ e.greetingSize - e.greetingRecv.length := by
              rw [← hbytes, recvBytes, List.length_take]
              omega
            have hlength : (e.store bytes).greetingRecv.length =
                e.greetingRecv.length + bytes.length := List.length_append
            have hreceived := h.received_store hprefix
            rw [hbytes]
            by_cases hempty : bytes = []
            · rw [if_pos hempty]
              exact Or.inr ⟨h, hroom⟩
            have hpos : 0 < bytes.length := List.length_pos_iff.mpr hempty
            rw [if_neg hempty]
            split_ifs with hfirst hshort hflags
            · apply absurd _ hfirst
              exact hpeer.signature _ (getElem?_peer hreceived (by omega))
            · apply ih
              exact ⟨h.status_eq, h.handshaking_eq, hreceived, h.encoder_eq, h.input_eq,
                h.progress.of_short hshort (by omega)⟩
            · apply absurd hflags
              exact hpeer.flags _ (getElem?_peer hreceived (Nat.not_lt.mp hshort))
            · apply ih
              exact h.sendVersion options hpeer hempty hprefix (by omega) (Nat.not_lt.mp hshort)
      · exact ⟨h, Nat.not_lt.mp hroom⟩

/-- A complete greeting is one of version 3. -/
theorem Progress.complete {greeting : List UInt8} {greetingEnd greetingSize : ℕ}
    (h : Progress greeting greetingEnd greetingSize) (hfull : greetingSize ≤ greeting.length) :
    greeting.length = v3GreetingSize ∧
      ¬ (greeting.getD 10 0 = 0 ∨ greeting.getD 10 0 = 1) := by
  cases h with
  | signature hlength => exact absurd (hfull.trans_lt hlength) (by decide)
  | revision hlength => exact absurd (hfull.trans hlength.le) (by decide)
  | older hlength _ => exact absurd (hfull.trans hlength.le) (by decide)
  | current _ hle hrevision => exact ⟨Nat.le_antisymm hle hfull, hrevision⟩

/-! ## The commands -/

/-- What a mechanism has accepted of the peer: nothing, or the frame of a `READY` command. -/
inductive Accepted (options : Options) (mechanism : NullMechanism) : List UInt8 → Prop
  | nothing (hreceived : mechanism.readyCommandReceived = false)
      (hidentity : mechanism.identity = []) : Accepted options mechanism []
  | ready (frame : List UInt8) (msg : Msg) (hreceived : mechanism.readyCommandReceived = true)
      (hframe : Decoder.readFrame frame = some (msg, []))
      (hallowed : Decoder.Allowed options.maxmsgsize msg.size)
      (hfits : sizeofContent + msg.size < 2 ^ 64) (haccepts : AcceptsCommand options msg) :
      Accepted options mechanism frame

/-- The members of an engine behind the greeting. -/
structure Working (options : Options) (e : HandshakeEngine) (encoder : Encoder) (decoder : Decoder)
    (mechanism : NullMechanism) : Prop where
  handshaking_eq : e.handshaking = false
  alive : e.status = .handshake ∨ e.status = .ready
  encoder_eq : e.encoder = some encoder
  decoder_eq : e.decoder = some decoder
  mechanism_eq : e.mechanism = some mechanism
  phase : encoder.Phase
  /-- The encoder is free for the `READY` command. -/
  idle : mechanism.readyCommandSent = false → e.status = .handshake ∧ encoder.inProgress = none
  limit : decoder.maxmsgsize = options.maxmsgsize
  handlers : e.readMsg.isSome ∧ e.writeMsg.isSome
  commands : e.status = .handshake →
    e.readMsg = some .handshakeCommand ∧ e.writeMsg = some .handshakeCommand

/-- Of what the peer sends behind its greeting, `rest`, the engine has got an accepted frame or
none, and some bytes of the current one. -/
structure Received (options : Options) (rest : List UInt8) (e : HandshakeEngine) (decoder : Decoder)
    (mechanism : NullMechanism) : Prop where
  exists_bytes : ∃ before current, Accepted options mechanism before ∧ decoder.Reads current ∧
    before ++ (current ++ (e.input ++ e.peer)) = rest

/-- The engine behind the greeting. -/
structure Established (options : Options) (rest : List UInt8) (e : HandshakeEngine) : Prop where
  parts : ∃ encoder decoder mechanism, e.Working options encoder decoder mechanism ∧
    (e.status = .handshake → e.Received options rest decoder mechanism)

/-- The engine between two events. -/
inductive Between (options : Options) (peer : List UInt8) (e : HandshakeEngine) : Prop
  | closed (hstatus : e.status = .closed)
  | greeting (h : e.Greeting peer) (hroom : e.greetingRecv.length < e.greetingSize)
  | established (h : e.Established options (peer.drop v3GreetingSize))
      (hinput : e.status = .handshake → e.input = [])
      (hharmless : Harmless options (peer.drop v3GreetingSize))

/-- A whole frame, and what may stand behind it. -/
theorem Accepted.harmless {mechanism : NullMechanism} {before current : List UInt8}
    (h : Accepted options mechanism before) (hfirst : HeaderFits options current)
    (hsecond : mechanism.readyCommandReceived = false →
      ∀ msg rest, Decoder.readFrame current = some (msg, rest) →
        Decoder.Allowed options.maxmsgsize msg.size → ¬AcceptsCommand options msg) :
    Harmless options (before ++ current) := by
  cases h with
  | nothing hreceived _ =>
      refine ⟨hfirst, fun msg rest hframe hallowed haccepts => ?_⟩
      exact absurd haccepts (hsecond hreceived msg rest hframe hallowed)
  | ready _ msg _ hframe hallowed hfits haccepts =>
      have hframe' := Decoder.readFrame_append hframe current
      rw [List.nil_append] at hframe'
      constructor
      · intro size rest hheader _
        obtain ⟨rfl, -⟩ := Prod.mk.inj (Option.some.inj
          (hheader.symm.trans (Decoder.readHeader_of_readFrame hframe')))
        exact hfits
      · intro msg' rest hframe'' _ _
        obtain ⟨-, rfl⟩ := Prod.mk.inj (Option.some.inj (hframe''.symm.trans hframe'))
        exact hfirst

/-- A size that wraps, in the first frame or in the one behind the `READY` command. -/
theorem Accepted.not_harmless {mechanism : NullMechanism} {before current rest : List UInt8}
    {size : ℕ} (h : Accepted options mechanism before)
    (hheader : Decoder.readHeader current = some (size, rest))
    (hallowed : Decoder.Allowed options.maxmsgsize size) (hwraps : 2 ^ 64 ≤ sizeofContent + size) :
    ¬Harmless options (before ++ current) := by
  intro hharmless
  cases h with
  | nothing _ _ => exact absurd (hharmless.first size rest hheader hallowed) (Nat.not_lt.mpr hwraps)
  | ready _ msg _ hframe hallowed' _ haccepts =>
      have hframe' := Decoder.readFrame_append hframe current
      rw [List.nil_append] at hframe'
      exact absurd (hharmless.second msg current hframe' hallowed' haccepts size rest hheader
        hallowed) (Nat.not_lt.mpr hwraps)

/-- A size that is refused. -/
theorem Accepted.harmless_of_refused {mechanism : NullMechanism} {before current rest : List UInt8}
    {size : ℕ} (h : Accepted options mechanism before)
    (hheader : Decoder.readHeader current = some (size, rest))
    (hrefused : ¬Decoder.Allowed options.maxmsgsize size) :
    Harmless options (before ++ current) := by
  refine h.harmless ?_ ?_
  · intro size' rest' hheader' hallowed
    obtain ⟨rfl, -⟩ := Prod.mk.inj (Option.some.inj (hheader.symm.trans hheader'))
    exact absurd hallowed hrefused
  · intro _ msg rest' hframe hallowed
    obtain ⟨rfl, -⟩ := Prod.mk.inj (Option.some.inj
      (hheader.symm.trans (Decoder.readHeader_of_readFrame hframe)))
    exact absurd hallowed hrefused

/-- A frame whose message is not accepted. -/
theorem Accepted.harmless_of_readFrame {mechanism : NullMechanism}
    {before current rest : List UInt8} {msg : Msg} (h : Accepted options mechanism before)
    (hframe : Decoder.readFrame current = some (msg, rest))
    (hfits : sizeofContent + msg.size < 2 ^ 64)
    (hrejected : mechanism.readyCommandReceived = false → ¬AcceptsCommand options msg) :
    Harmless options (before ++ current) := by
  refine h.harmless ?_ ?_
  · intro size rest' hheader _
    obtain ⟨rfl, -⟩ := Prod.mk.inj (Option.some.inj
      (hheader.symm.trans (Decoder.readHeader_of_readFrame hframe)))
    exact hfits
  · intro hreceived msg' rest' hframe' _
    obtain ⟨rfl, -⟩ := Prod.mk.inj (Option.some.inj (hframe.symm.trans hframe'))
    exact hrejected hreceived

/-- The current frame is not complete. -/
theorem Accepted.harmless_of_reads {mechanism : NullMechanism} {before current : List UInt8}
    {decoder : Decoder} (h : Accepted options mechanism before) (hreads : decoder.Reads current) :
    Harmless options (before ++ current) := by
  refine h.harmless ?_ ?_
  · intro size rest hheader _
    exact (hreads.of_readHeader hheader).2.2
  · intro _ msg rest hframe
    rw [hreads.readFrame_eq_none] at hframe
    cases hframe

variable (options) in
/-- The choice of the protocol behind a complete greeting, and where its mechanism stands. -/
theorem Greeting.selectProtocol_eq (hpeer : Versioned peer) (h : e.Greeting peer)
    (hfull : e.greetingSize ≤ e.greetingRecv.length) :
    e.selectProtocol options = e.selectMechanism options ∧
      (peer.drop 12).take 20 = (e.greetingRecv.drop 12).take 20 ∧
      v3GreetingSize ≤ peer.length := by
  obtain ⟨hlength, hcurrent⟩ := h.progress.complete hfull
  change ¬ (e.greetingByte 10 = 0 ∨ e.greetingByte 10 = 1) at hcurrent
  have hbyte : ∀ {i}, i < v3GreetingSize → peer[i]? = some (e.greetingByte i) := fun hi =>
    getElem?_peer h.received (hlength ▸ hi)
  have hsignature : ¬ (e.greetingByte 0 ≠ 0xff ∨ e.greetingByte 9 &&& 1 = 0) := by
    rintro (hfirst | hflags)
    · exact hfirst (hpeer.signature _ (hbyte (by decide)))
    · exact hpeer.flags _ (hbyte (by decide)) hflags
  refine ⟨?_, ?_, ?_⟩
  · rw [selectProtocol, if_neg hsignature, if_neg fun hold => hcurrent (.inl hold),
      if_neg fun hold => hcurrent (.inr hold)]
  · rw [← h.received, List.drop_append_of_le_length (by rw [hlength]; decide),
      List.take_append_of_le_length (by rw [List.length_drop, hlength]; decide)]
  · rw [← h.received, List.length_append, hlength]
    exact Nat.le_add_right _ _

/-- What is behind a complete greeting has not been read. -/
theorem Greeting.drop_peer (h : e.Greeting peer) (hfull : e.greetingSize ≤ e.greetingRecv.length) :
    peer.drop v3GreetingSize = e.peer := by
  obtain ⟨hlength, -⟩ := h.progress.complete hfull
  rw [← h.received, ← hlength, List.drop_left]

/-- The `NULL` mechanism on both sides. -/
theorem Greeting.established_of_null (hpeer : Versioned peer) (h : e.Greeting peer)
    (hfull : e.greetingSize ≤ e.greetingRecv.length) (hnull : options.mechanism = .null)
    (hname : (peer.drop 12).take 20 = mechanismName "NULL") :
    { e.selectProtocol options with handshaking := false }.Established options
        (peer.drop v3GreetingSize) ∧
      (e.selectProtocol options).input = [] ∧ (e.selectProtocol options).status = .handshake ∧
      (e.selectProtocol options).mechanism = some .create := by
  obtain ⟨hselect, hname', -⟩ := h.selectProtocol_eq options hpeer hfull
  rw [hselect, selectMechanism]
  dsimp only
  rw [if_pos ⟨hnull, hname'.symm.trans hname⟩]
  refine ⟨⟨_, _, .create, ⟨rfl, .inl h.status_eq, rfl, rfl, rfl, .idle rfl rfl rfl rfl,
    fun _ => ⟨h.status_eq, rfl⟩, rfl, ⟨rfl, rfl⟩, fun _ => ⟨rfl, rfl⟩⟩,
    fun _ => ⟨[], [], .nothing rfl rfl, .flags rfl rfl rfl, ?_⟩⟩, h.input_eq, h.status_eq, rfl⟩
  dsimp only
  rw [h.input_eq, h.drop_peer hfull]
  rfl

/-- The choice of the protocol. -/
theorem Greeting.selectProtocol (hpeer : Acceptable options peer) (h : e.Greeting peer)
    (hfull : e.greetingSize ≤ e.greetingRecv.length) :
    (e.selectProtocol options).status = .closed ∨
      { e.selectProtocol options with handshaking := false }.Established options
          (peer.drop v3GreetingSize) ∧
        (e.selectProtocol options).input = [] ∧ (e.selectProtocol options).status = .handshake ∧
        Harmless options (peer.drop v3GreetingSize) := by
  obtain ⟨hselect, hname, hlength⟩ := h.selectProtocol_eq options hpeer.toVersioned hfull
  by_cases hnull : options.mechanism = .null ∧ (peer.drop 12).take 20 = mechanismName "NULL"
  · obtain ⟨hestablished, hinput, hstatus, -⟩ :=
      h.established_of_null hpeer.toVersioned hfull hnull.1 hnull.2
    exact .inr ⟨hestablished, hinput, hstatus, hpeer.sizes hnull.1 hlength hnull.2⟩
  · left
    rw [hname] at hnull
    rw [hselect, selectMechanism]
    dsimp only
    rw [if_neg hnull]
    split_ifs with hplain
    · exact absurd (hname.trans hplain.2) (hpeer.mechanism hplain.1 hlength)
    · rfl

/-- What an `in_event` makes of an engine behind the greeting. If neither `malloc` nor `recv` fails
(`regular`), it closes the connection only if the bytes are harmless. -/
inductive Took (options : Options) (rest : List UInt8) (regular : Prop) (e e' : HandshakeEngine) :
    Prop
  | closed (hstatus : e'.status = .closed) (hrest : regular → Harmless options rest)
  | aborted (hstatus : e'.status = .aborted) (hrest : ¬Harmless options rest)
  | established (h : e'.Established options rest) (hinput : e'.status = .handshake → e'.input = [])
      (hsent : e'.mechanism.map NullMechanism.readyCommandSent =
        e.mechanism.map NullMechanism.readyCommandSent)
      (hpeer : e'.peer = e.peer)

/-- Only the harmless bytes do not abort the worker. -/
theorem Took.between {regular : Prop} (h : Took options (peer.drop v3GreetingSize) regular e e')
    (hharmless : Harmless options (peer.drop v3GreetingSize)) : e'.Between options peer := by
  cases h with
  | closed hstatus _ => exact .closed hstatus
  | aborted _ hrest => exact absurd hharmless hrest
  | established h hinput _ _ => exact .established h hinput hharmless

variable {encoder : Encoder} {decoder : Decoder} {mechanism : NullMechanism} {rest : List UInt8}

/-- A command of the peer, behind its frame. -/
theorem Working.processHandshakeCommand (h : e.Working options encoder decoder mechanism)
    {before frame : List UInt8} {msg : Msg}
    (hbefore : Accepted options mechanism before)
    (hframe : Decoder.readFrame frame = some (msg, []))
    (hallowed : Decoder.Allowed options.maxmsgsize msg.size)
    (hfits : sizeofContent + msg.size < 2 ^ 64) (hreads : decoder.Reads [])
    (hrest : before ++ (frame ++ (e.input ++ e.peer)) = rest) :
    (e.processHandshakeCommand options msg).status = .closed ∧ Harmless options rest ∨
      (e.processHandshakeCommand options msg).Established options rest ∧
        (e.processHandshakeCommand options msg).input = e.input ∧
        (e.processHandshakeCommand options msg).peer = e.peer ∧
        (e.processHandshakeCommand options msg).decoder = e.decoder ∧
        (e.processHandshakeCommand options msg).zeroCopy = e.zeroCopy ∧
        (e.processHandshakeCommand options msg).mechanism.map NullMechanism.readyCommandSent =
          e.mechanism.map NullMechanism.readyCommandSent := by
  have hframe' := Decoder.readFrame_append hframe (e.input ++ e.peer)
  unfold HandshakeEngine.processHandshakeCommand
  rw [h.mechanism_eq]
  dsimp only
  cases hprocess : mechanism.processHandshakeCommand options msg with
  | error _ =>
      refine .inl ⟨rfl, hrest ▸ hbefore.harmless_of_readFrame hframe' hfits ?_⟩
      rintro hreceived ⟨created, hcreated⟩
      cases hbefore with
      | nothing _ hidentity =>
          rw [NullMechanism.processHandshakeCommand_eq_map hreceived hidentity, hcreated]
            at hprocess
          cases hprocess
      | ready _ _ hreceived' => exact absurd (hreceived'.symm.trans hreceived) (by decide)
  | ok mechanism' =>
      obtain ⟨hreceived, identity, rfl⟩ := NullMechanism.processHandshakeCommand_eq_ok hprocess
      obtain ⟨hidentity, rfl⟩ : mechanism.identity = [] ∧ before = [] := by
        cases hbefore with
        | nothing _ hidentity => exact ⟨hidentity, rfl⟩
        | ready _ _ hreceived' => exact absurd (hreceived'.symm.trans hreceived) (by decide)
      have haccepts : AcceptsCommand options msg := by
        rw [NullMechanism.processHandshakeCommand_eq_map hreceived hidentity] at hprocess
        cases hcreated : NullMechanism.create.processHandshakeCommand options msg with
        | error _ =>
            rw [hcreated] at hprocess
            cases hprocess
        | ok created => exact ⟨created, hcreated⟩
      right
      dsimp only
      split_ifs with hcomplete
      · refine ⟨⟨encoder, decoder, _, ⟨h.handshaking_eq, .inr rfl, h.encoder_eq, h.decoder_eq, rfl,
          h.phase, fun hunsent => ?_, h.limit, ⟨rfl, rfl⟩, fun hready => by cases hready⟩,
          fun hready => by cases hready⟩, rfl, rfl, rfl, rfl, rfl⟩
        rw [NullMechanism.isHandshakeComplete, Bool.and_eq_true] at hcomplete
        exact absurd (hunsent.symm.trans hcomplete.2) (by decide)
      · exact ⟨⟨encoder, decoder, _, ⟨h.handshaking_eq, h.alive, h.encoder_eq, h.decoder_eq, rfl,
          h.phase, h.idle, h.limit, h.handlers, h.commands⟩, fun _ => ⟨frame, [],
          .ready frame msg rfl hframe hallowed hfits haccepts, hreads, hrest⟩⟩,
          rfl, rfl, rfl, rfl, rfl⟩

/-- **Commands.** The loop of `in_event` on any data. -/
theorem Established.processInput {fuel : ℕ} (h : e.Established options rest)
    (hstatus : e.status = .handshake)
    (hzero : e.zeroCopy = true → ∀ decoder, e.decoder = some decoder →
      e.input.length ≤ decoder.toRead)
    (hfuel : e.input.length ≤ fuel) {regular : Prop}
    (hregular : regular → ∀ decoder, e.decoder = some decoder → decoder.mallocs = []) :
    Took options rest regular e (processInput options fuel e) := by
  induction fuel generalizing e with
  | zero =>
      have hempty : e.input = [] := List.eq_nil_of_length_eq_zero (Nat.le_zero.mp hfuel)
      exact .established h (fun _ => hempty) rfl rfl
  | succ fuel ih =>
      unfold HandshakeEngine.processInput
      by_cases hempty : e.input = []
      · rw [if_pos hempty]
        exact .established h (fun _ => hempty) rfl rfl
      rw [if_neg hempty]
      obtain ⟨encoder, decoder, mechanism, hworking, hreceived⟩ := h.parts
      obtain ⟨before, current, hbefore, hreads, hrest⟩ := (hreceived hstatus).exists_bytes
      obtain ⟨⟨result, processed, decoder'⟩, hdecode, hused⟩ :=
        hreads.decode hempty fun hcopy => hzero hcopy decoder hworking.decoder_eq
      rw [hworking.decoder_eq]
      dsimp only
      rw [hdecode]
      dsimp only
      rw [if_neg (Nat.not_lt.mpr hused.le)]
      obtain ⟨e₁, he₁⟩ : ∃ e₁, { e with
        decoder := some decoder'
        input := e.input.drop processed
        zeroCopy := false } = e₁ := ⟨_, rfl⟩
      have hzero₁ : e₁.zeroCopy = false := by rw [← he₁]
      have hinput₁ : e₁.input = e.input.drop processed := by rw [← he₁]
      have hpeer₁ : e₁.peer = e.peer := by rw [← he₁]
      have hdecoder₁ : e₁.decoder = some decoder' := by rw [← he₁]
      have hmechanism₁ : e₁.mechanism = e.mechanism := by rw [← he₁]
      have hstatus₁ : e₁.status = .handshake := by rw [← he₁]; exact hstatus
      have hlimit : decoder'.maxmsgsize = options.maxmsgsize :=
        hused.keeps.maxmsgsize_eq.trans hworking.limit
      have hworking₁ : e₁.Working options encoder decoder' mechanism := by
        subst he₁
        exact ⟨hworking.handshaking_eq, hworking.alive, hworking.encoder_eq, rfl,
          hworking.mechanism_eq, hworking.phase, hworking.idle, hlimit, hworking.handlers,
          hworking.commands⟩
      -- the bytes of the current frame, with those that `decode` has used
      have hrest₁ : before ++ (current ++ e.input.take processed ++ (e₁.input ++ e₁.peer)) =
          rest := by
        rw [← hrest, hinput₁, hpeer₁, List.append_assoc, ← List.append_assoc (e.input.take _),
          List.take_append_drop]
      rw [he₁]
      have hbecame := hused.became
      dsimp only at hbecame
      cases hbecame with
      | error _ size hheader hrefused =>
          refine .closed rfl fun hmallocs => hrest₁ ▸ hbefore.harmless_of_refused
            (Decoder.readHeader_append hheader _) ?_
          rw [← hworking.limit]
          exact hrefused.resolve_right
            (not_not_intro (hregular hmallocs decoder hworking.decoder_eq))
      | fault _ size hheader hallowed hwraps =>
          refine .aborted rfl (hrest₁ ▸ hbefore.not_harmless
            (Decoder.readHeader_append hheader _) ?_ hwraps)
          rw [← hworking.limit]
          exact hallowed
      | more _ hd =>
          refine .established ⟨encoder, decoder', mechanism, hworking₁, fun _ =>
            ⟨before, _, hbefore, hd, hrest₁⟩⟩ (fun _ => ?_) (by rw [hmechanism₁]) hpeer₁
          have hall : processed = e.input.length := hused.all_of_more rfl
          rw [hinput₁, hall, List.drop_length]
      | message _ hframe hallowed hfits hd =>
          dsimp only
          rw [(hworking.commands hstatus).2]
          dsimp only
          rcases hworking₁.processHandshakeCommand hbefore hframe
              (hworking.limit ▸ hallowed) hfits hd hrest₁ with
            ⟨hclosed, hharmless⟩ | ⟨h₂, hinput₂, hpeer₂, hdecoder₂, hzero₂, hsent₂⟩
          · rw [if_neg (by rw [hclosed]; decide)]
            exact .closed hclosed fun _ => hharmless
          · rw [hmechanism₁] at hsent₂
            split_ifs with hstatus₂
            · have htook := ih h₂ hstatus₂ (fun hcopy => by
                rw [hzero₂, hzero₁] at hcopy
                cases hcopy) (by
                have hpos : 0 < processed := hused.pos
                rw [hinput₂, hinput₁, List.length_drop]
                omega) (fun hmallocs decoder'' hdecoder'' => by
                obtain rfl := Option.some.inj
                  (hdecoder₁.symm.trans (hdecoder₂.symm.trans hdecoder''))
                exact List.suffix_nil.mp (hregular hmallocs decoder hworking.decoder_eq ▸
                  hused.keeps.mallocs_suffix))
              cases htook with
              | closed hclosed hrest' => exact .closed hclosed hrest'
              | aborted haborted hrest' => exact .aborted haborted hrest'
              | established h₃ hinput₃ hsent₃ hpeer₃ =>
                  exact .established h₃ hinput₃ (hsent₃.trans hsent₂)
                    (hpeer₃.trans (hpeer₂.trans hpeer₁))
            · exact .established h₂ (fun hstatus₂' => absurd hstatus₂' hstatus₂) hsent₂
                (hpeer₂.trans hpeer₁)

/-- What is received into the memory of a message is no more than the message lacks. -/
theorem length_recvBytes_le (e : HandshakeEngine) {decoder : Decoder} (limit : ℕ)
    (hcopy : decoder.getBuffer.1 = true) :
    (e.recvBytes decoder.getBuffer.2 limit).length ≤ decoder.toRead := by
  rw [recvBytes, List.length_take]
  unfold Decoder.getBuffer at hcopy ⊢
  split_ifs at hcopy ⊢
  omega

variable (options) in
/-- The part of `in_event` behind the greeting, when `recv` returns bytes. -/
theorem Established.receive_data (h : e.Established options rest) (hstatus : e.status = .handshake)
    (hinput : e.input = []) (hdecoder : e.decoder = some decoder) (limit : ℕ) (left : List Recv) :
    Took options rest (decoder.mallocs = [])
      { e with peer := e.peer.drop (e.recvBytes decoder.getBuffer.2 limit).length }
      (e.receive options (.data limit :: left)) := by
  obtain ⟨encoder, decoder', mechanism, hworking, hreceived⟩ := h.parts
  obtain rfl := Option.some.inj (hdecoder.symm.trans hworking.decoder_eq)
  obtain ⟨bytes, hbytes⟩ : ∃ bytes, e.recvBytes decoder.getBuffer.2 limit = bytes := ⟨_, rfl⟩
  have hall : bytes ++ e.peer.drop bytes.length = e.peer :=
    List.prefix_iff_eq_append.mp (hbytes ▸ List.take_prefix _ _)
  unfold HandshakeEngine.receive
  rw [hdecoder]
  dsimp only
  rw [if_pos hinput, hbytes]
  obtain ⟨e₁, he₁⟩ : ∃ e₁ : HandshakeEngine, { e with
    peer := e.peer.drop bytes.length
    input := bytes
    zeroCopy := decoder.getBuffer.1
    decoder := some decoder } = e₁ := ⟨_, rfl⟩
  have hdecoder₁ : e₁.decoder = some decoder := by rw [← he₁]
  have h₁ : e₁.Established options rest := by
    subst he₁
    refine ⟨encoder, decoder, mechanism, ⟨hworking.handshaking_eq, hworking.alive,
      hworking.encoder_eq, rfl, hworking.mechanism_eq, hworking.phase, hworking.idle,
      hworking.limit, hworking.handlers, hworking.commands⟩, fun _ => ?_⟩
    obtain ⟨before, current, hbefore, hreads, hrest⟩ := (hreceived hstatus).exists_bytes
    refine ⟨before, current, hbefore, hreads, ?_⟩
    dsimp only
    rw [hall, ← hrest, hinput, List.nil_append]
  have hcopy₁ : e₁.zeroCopy = true → ∀ decoder, e₁.decoder = some decoder →
      e₁.input.length ≤ decoder.toRead := by
    intro hcopy decoder' hdecoder'
    obtain rfl := Option.some.inj (hdecoder₁.symm.trans hdecoder')
    rw [← he₁] at hcopy ⊢
    exact hbytes ▸ length_recvBytes_le e limit hcopy
  have hstatus₁ : e₁.status = .handshake := by rw [← he₁]; exact hstatus
  have hfuel₁ : e₁.input.length ≤ bytes.length := by rw [← he₁]
  have hregular : decoder.mallocs = [] → ∀ decoder', e₁.decoder = some decoder' →
      decoder'.mallocs = [] := by
    intro hmallocs decoder' hdecoder'
    rwa [← Option.some.inj (hdecoder₁.symm.trans hdecoder')]
  rw [he₁]
  cases h₁.processInput hstatus₁ hcopy₁ hfuel₁ hregular with
  | closed hclosed hrest => exact .closed hclosed hrest
  | aborted haborted hrest => exact .aborted haborted hrest
  | established h' hinput' hsent hpeer =>
      exact .established h' hinput' (hsent.trans (by rw [← he₁])) (hpeer.trans (by rw [← he₁]))

/-- The answers of `malloc` do not change what has been received. -/
theorem Established.withMemory (h : e.Established options rest) (mallocs : List Bool) :
    (e.withMemory mallocs).Established options rest := by
  obtain ⟨encoder, decoder, mechanism, hworking, hreceived⟩ := h.parts
  refine ⟨encoder, { decoder with mallocs := mallocs }, mechanism, ⟨hworking.handshaking_eq,
    hworking.alive, hworking.encoder_eq, ?_, hworking.mechanism_eq, hworking.phase, hworking.idle,
    hworking.limit, hworking.handlers, hworking.commands⟩, fun hstatus => ?_⟩
  · rw [HandshakeEngine.withMemory, hworking.decoder_eq, Option.map_some]
  · obtain ⟨before, current, hbefore, hreads, hrest⟩ := (hreceived hstatus).exists_bytes
    exact ⟨before, current, hbefore, hreads.withMallocs mallocs, hrest⟩

/-- The part of `in_event` behind the greeting. -/
theorem Established.receive (h : e.Established options (peer.drop v3GreetingSize))
    (hstatus : e.status = .handshake) (hinput : e.input = [])
    (hharmless : Harmless options (peer.drop v3GreetingSize)) (reads : List Recv) :
    (e.receive options reads).Between options peer := by
  obtain ⟨_, decoder, _, hworking, -⟩ := h.parts
  have hsame : e.Between options peer := .established h (fun _ => hinput) hharmless
  cases reads with
  | nil =>
      rw [HandshakeEngine.receive, hworking.decoder_eq]
      dsimp only
      rw [if_pos hinput]
      exact hsame
  | cons read reads =>
      cases read with
      | again =>
          rw [HandshakeEngine.receive, hworking.decoder_eq]
          dsimp only
          rw [if_pos hinput]
          exact hsame
      | failed =>
          rw [HandshakeEngine.receive, hworking.decoder_eq]
          dsimp only
          rw [if_pos hinput]
          exact .closed rfl
      | data limit =>
          exact (h.receive_data options hstatus hinput hworking.decoder_eq limit reads).between
            hharmless

/-- **Input.** A call of `in_event`. -/
theorem Between.inEvent (hpeer : Acceptable options peer) (h : e.Between options peer)
    (hstatus : e.status = .handshake) (reads : List Recv) (mallocs : List Bool) :
    (e.inEvent options reads mallocs).Between options peer := by
  unfold HandshakeEngine.inEvent
  cases h with
  | closed hclosed =>
      rw [hstatus] at hclosed
      cases hclosed
  | established h hinput hharmless =>
      obtain ⟨_, _, _, hworking, -⟩ := h.parts
      rw [if_neg (by rw [hworking.handshaking_eq]; decide)]
      exact (h.withMemory mallocs).receive hstatus (hinput hstatus) hharmless reads
  | greeting h hroom =>
      rw [if_pos h.handshaking_eq, handshake, if_pos ⟨h.handshaking_eq, hroom⟩]
      have houtcome := h.receiveGreeting options hpeer.toVersioned reads
      revert houtcome
      rcases HandshakeEngine.receiveGreeting options reads e with ⟨left | left, e₁⟩
      all_goals intro houtcome
      · rcases houtcome with hclosed | ⟨h₁, hroom₁⟩
        · exact .closed hclosed
        · exact .greeting h₁ hroom₁
      · obtain ⟨h₁, hfull₁⟩ := houtcome
        dsimp only
        rcases h₁.selectProtocol hpeer hfull₁ with
          hclosed | ⟨h₂, hinput₂, hstatus₂, hharmless⟩
        · rw [if_pos hclosed]
          exact .closed hclosed
        · rw [if_neg (by rw [hstatus₂]; decide)]
          exact (h₂.withMemory mallocs).receive hstatus₂ hinput₂ hharmless left

/-- The `READY` command in a free encoder. -/
theorem exists_encode_command {encoder : Encoder} (hphase : encoder.Phase)
    (hidle : encoder.inProgress = none) (msg : Msg) :
    ∃ encoder', encoder.loadMsg msg none = some encoder' ∧
      (encoder'.encode true outBatchSize).1.bytes ≠ [] ∧
      (encoder'.encode true outBatchSize).2.Phase := by
  obtain ⟨encoder', hload, hphase', hmsg, -, hpending, -⟩ :=
    Encoder.loadMsg_eq_some hphase hidle msg none
  have hencode := Encoder.encode_handsOut hphase' (show 0 < outBatchSize by decide) true
  have hbusy : encoder'.inProgress ≠ none := by
    rw [hmsg]
    exact Option.some_ne_none msg
  refine ⟨encoder', hload, ?_, hencode.phase⟩
  rcases hencode.progress hbusy with hbytes | hdone
  · exact hbytes
  · have hall := hencode.bytes_eq
    rw [Encoder.pending_of_inProgress_none hencode.phase hdone, List.append_nil, hpending,
      Encoder.frame] at hall
    rw [hall]
    exact List.append_ne_nil_of_left_ne_nil
      (List.length_pos_iff.mp (Encoder.length_header_pos msg)) _

/-- A mechanism that differs in what has been sent only. -/
theorem Accepted.of_eq {mechanism' : NullMechanism} {before : List UInt8}
    (h : Accepted options mechanism before)
    (hreceived : mechanism'.readyCommandReceived = mechanism.readyCommandReceived)
    (hidentity : mechanism'.identity = mechanism.identity) :
    Accepted options mechanism' before := by
  cases h with
  | nothing hnone hempty => exact .nothing (hreceived.trans hnone) (hidentity.trans hempty)
  | ready _ msg hsome hframe hallowed hfits haccepts =>
      exact .ready before msg (hreceived.trans hsome) hframe hallowed hfits haccepts

variable (options) in
/-- The write buffer is filled with the `READY` command. -/
theorem Established.refill (h : e.Established options rest) (hstatus : e.status = .handshake)
    (hencoder : e.encoder = some encoder) :
    (e.refill options encoder).Established options rest ∧
      (e.refill options encoder).input = e.input := by
  obtain ⟨encoder', decoder, mechanism, hworking, hreceived⟩ := h.parts
  obtain rfl := Option.some.inj (hworking.encoder_eq.symm.trans hencoder)
  cases hsent : mechanism.readyCommandSent with
  | true =>
      have hfirst := Encoder.encode_handsOut hworking.phase (show 0 < outBatchSize by decide) true
      have hnext : mechanism.nextHandshakeCommand options = none := if_pos hsent
      have hsame : e.refill options encoder' =
          { e with
            out := (encoder'.encode true outBatchSize).1.bytes
            encoder := some (encoder'.encode true outBatchSize).2 } := by
        simp only [HandshakeEngine.refill, (hworking.commands hstatus).1, hworking.mechanism_eq,
          hnext]
        exact ite_self _
      rw [hsame]
      refine ⟨⟨_, decoder, mechanism, ⟨hworking.handshaking_eq, hworking.alive, rfl,
        hworking.decoder_eq, hworking.mechanism_eq, hfirst.phase, ?_, hworking.limit,
        hworking.handlers, hworking.commands⟩, fun _ => (hreceived hstatus).exists_bytes.elim
          fun before h => ⟨before, h⟩⟩, rfl⟩
      rw [hsent]
      exact fun hfalse => by cases hfalse
  | false =>
      have hnone := (hworking.idle hsent).2
      obtain ⟨loaded, hload, hbytes, hphase'⟩ := exists_encode_command hworking.phase hnone
        ⟨false, true, NullMechanism.readyCommand options⟩
      have hencode : encoder'.encode true outBatchSize = (⟨[], none⟩, encoder') := if_pos hnone
      have hnext : mechanism.nextHandshakeCommand options =
          some (⟨false, true, NullMechanism.readyCommand options⟩,
            { mechanism with readyCommandSent := true }) := if_neg (by rw [hsent]; decide)
      obtain ⟨before, current, hbefore, hreads, hrest⟩ := (hreceived hstatus).exists_bytes
      have hbefore' : Accepted options { mechanism with readyCommandSent := true } before :=
        hbefore.of_eq rfl rfl
      unfold HandshakeEngine.refill
      rw [hencode, (hworking.commands hstatus).1, hworking.mechanism_eq]
      dsimp only
      rw [if_pos (show [].length < outBatchSize by decide), hnext]
      dsimp only
      rw [hload]
      dsimp only
      split_ifs with hcomplete hempty hempty
      · exact absurd hempty hbytes
      · exact ⟨⟨_, decoder, _, ⟨hworking.handshaking_eq, .inr rfl, rfl, hworking.decoder_eq, rfl,
          hphase', (fun hready => by cases hready), hworking.limit, ⟨rfl, rfl⟩,
          fun hready => by cases hready⟩, fun hready => by cases hready⟩, rfl⟩
      · exact absurd hempty hbytes
      · exact ⟨⟨_, decoder, _, ⟨hworking.handshaking_eq, hworking.alive, rfl, hworking.decoder_eq,
          rfl, hphase', (fun hready => by cases hready), hworking.limit,
          ⟨rfl, hworking.handlers.2⟩, fun _ => ⟨rfl, (hworking.commands hstatus).2⟩⟩,
          fun _ => ⟨before, current, hbefore', hreads, hrest⟩⟩, rfl⟩

/-- Bytes are written. -/
theorem Between.write (h : e.Between options peer) (accepted : ℕ) :
    { e with out := e.out.drop accepted }.Between options peer := by
  cases h with
  | closed hstatus => exact .closed hstatus
  | greeting h hroom =>
      exact .greeting ⟨h.status_eq, h.handshaking_eq, h.received, h.encoder_eq, h.input_eq,
        h.progress⟩ hroom
  | established h hinput hharmless =>
      obtain ⟨encoder, decoder, mechanism, hworking, hreceived⟩ := h.parts
      exact .established ⟨encoder, decoder, mechanism, ⟨hworking.handshaking_eq, hworking.alive,
        hworking.encoder_eq, hworking.decoder_eq, hworking.mechanism_eq, hworking.phase,
        hworking.idle, hworking.limit, hworking.handlers, hworking.commands⟩,
        fun hstatus => ⟨(hreceived hstatus).exists_bytes⟩⟩ hinput hharmless

/-- **Output.** A call of `out_event`. -/
theorem Between.outEvent (h : e.Between options peer) (hstatus : e.status = .handshake)
    (accepted : ℕ) : (e.outEvent options accepted).Between options peer := by
  unfold HandshakeEngine.outEvent
  by_cases hempty : e.out = []
  · rw [if_pos hempty]
    cases h with
    | closed hclosed =>
        rw [hstatus] at hclosed
        cases hclosed
    | greeting h hroom =>
        rw [h.encoder_eq]
        dsimp only
        rw [if_pos h.handshaking_eq]
        exact .greeting h hroom
    | established h hinput hharmless =>
        obtain ⟨encoder, _, _, hworking, -⟩ := h.parts
        rw [hworking.encoder_eq]
        dsimp only
        obtain ⟨h', hinput'⟩ := h.refill options hstatus hworking.encoder_eq
        exact Between.write (.established h' (fun _ => hinput'.trans (hinput hstatus)) hharmless)
          accepted
  · rw [if_neg hempty]
    exact h.write accepted

/-- Every event. -/
theorem Between.step (hpeer : Acceptable options peer) (h : e.Between options peer)
    {event : EngineEvent} (hstep : e.step options event = some e') : e'.Between options peer := by
  cases event with
  | inEvent reads mallocs =>
      simp only [HandshakeEngine.step] at hstep
      split_ifs at hstep with hstatus
      obtain rfl := Option.some.inj hstep
      exact h.inEvent hpeer hstatus reads mallocs
  | outEvent accepted =>
      simp only [HandshakeEngine.step] at hstep
      split_ifs at hstep with hstatus
      obtain rfl := Option.some.inj hstep
      exact h.outEvent hstatus accepted

theorem Between.init (options : Options) (peer : List UInt8) :
    (machine options peer).init.Between options peer :=
  .greeting ⟨rfl, rfl, rfl, rfl, rfl, .signature (Nat.succ_pos 9)⟩ (Nat.succ_pos 11)

/-- An engine behind the greeting is sound. -/
theorem Established.sound (h : e.Established options rest) : e.Sound := by
  obtain ⟨encoder, decoder, mechanism, hworking, -⟩ := h.parts
  refine ⟨fun haborted => ?_, fun _ _ => ⟨?_, ?_, ?_, hworking.handlers⟩⟩
  · rcases hworking.alive with hstatus | hstatus
    · cases hstatus.symm.trans haborted
    · cases hstatus.symm.trans haborted
  · rw [hworking.encoder_eq]
    rfl
  · rw [hworking.decoder_eq]
    rfl
  · rw [hworking.mechanism_eq]
    rfl

/-- An engine between two events is sound. -/
theorem Between.sound (h : e.Between options peer) : e.Sound := by
  cases h with
  | closed hstatus =>
      refine ⟨?_, fun hopen => absurd hstatus hopen⟩
      rw [hstatus]
      decide
  | greeting h hroom =>
      refine ⟨?_, fun _ hhandshaking => ?_⟩
      · rw [h.status_eq]
        decide
      · rw [h.handshaking_eq] at hhandshaking
        cases hhandshaking
  | established h _ _ => exact h.sound

/-! ## What a peer may send -/

/-- The first `in_event`, with a greeting. -/
theorem inEvent_of_receiveGreeting {reads left : List Recv}
    (hreceive : receiveGreeting options reads (machine options peer).init = (some left, e))
    (hopen : (e.selectProtocol options).status ≠ .closed) :
    (machine options peer).init.inEvent options reads [] =
      ({ e.selectProtocol options with handshaking := false }.withMemory []).receive options
        left := by
  have hstart : (machine options peer).init.handshaking = true ∧
      (machine options peer).init.greetingRecv.length <
        (machine options peer).init.greetingSize := ⟨rfl, Nat.succ_pos 11⟩
  rw [inEvent, if_pos hstart.1, handshake, if_pos hstart, hreceive]
  dsimp only
  rw [if_neg hopen]

/-- If the protocol of the peer is an older one there is no decoder, and the assertion
behind `handshake` fails. -/
theorem inEvent_aborted {reads left : List Recv}
    (hreceive : receiveGreeting options reads (machine options peer).init = (some left, e))
    (hstatus : e.status = .handshake) (hdecoder : e.decoder = none)
    (hselect : e.selectProtocol options = e) :
    ((machine options peer).init.inEvent options reads []).status = .aborted := by
  have hopen : (e.selectProtocol options).status ≠ .closed := by
    rw [hselect, hstatus]
    decide
  rw [inEvent_of_receiveGreeting hreceive hopen, hselect, receive, withMemory]
  dsimp only
  rw [hdecoder]
  rfl

/-- The state after the first `in_event`. -/
theorem sound_inEvent
    (hsound : ∀ events, (machine options peer).Always Sound (machine options peer).init events)
    (reads : List Recv) : ((machine options peer).init.inEvent options reads []).Sound :=
  (hsound [.inEvent reads []]).2 _ rfl

variable (options) in
/-- An iteration that reads bytes up to one behind the signature. -/
theorem receiveGreeting_cons {limit : ℕ} (reads : List Recv) {bytes : List UInt8}
    (hroom : e.greetingRecv.length < e.greetingSize)
    (hbytes : e.recvBytes (e.greetingSize - e.greetingRecv.length) limit = bytes)
    (hne : bytes ≠ []) (hfirst : (e.store bytes).greetingByte 0 = 0xff)
    (hlow : signatureSize ≤ (e.store bytes).greetingRecv.length)
    (hflags : (e.store bytes).greetingByte 9 &&& 1 ≠ 0) :
    receiveGreeting options (.data limit :: reads) e =
      receiveGreeting options reads ((e.store bytes).sendVersion options) := by
  rw [receiveGreeting.eq_def]
  dsimp only
  rw [if_pos hroom, hbytes, if_neg hne, if_neg (not_not_intro hfirst), if_neg (Nat.not_lt.mpr hlow),
    if_neg hflags]

variable (options) in
/-- An iteration that finds an unversioned protocol. -/
theorem receiveGreeting_unversioned {limit : ℕ} (reads : List Recv) {bytes : List UInt8}
    (hroom : e.greetingRecv.length < e.greetingSize)
    (hbytes : e.recvBytes (e.greetingSize - e.greetingRecv.length) limit = bytes)
    (hne : bytes ≠ [])
    (hold : (e.store bytes).greetingByte 0 ≠ 0xff ∨
      signatureSize ≤ (e.store bytes).greetingRecv.length ∧
        (e.store bytes).greetingByte 9 &&& 1 = 0) :
    receiveGreeting options (.data limit :: reads) e = (some reads, e.store bytes) := by
  rw [receiveGreeting.eq_def]
  dsimp only
  rw [if_pos hroom, hbytes, if_neg hne]
  split_ifs with hfirst hshort hflags
  · rfl
  · exact absurd hshort (Nat.not_lt.mpr (hold.resolve_left hfirst).1)
  · rfl
  · exact absurd (hold.resolve_left hfirst).2 hflags

/-- A peer with an unversioned protocol aborts the worker. -/
theorem aborted_of_unversioned {limit : ℕ} {bytes : List UInt8}
    (hbytes : peer.take (min limit v2GreetingSize) = bytes) (hne : bytes ≠ [])
    (hold : bytes.getD 0 0 ≠ 0xff ∨ signatureSize ≤ bytes.length ∧ bytes.getD 9 0 &&& 1 = 0) :
    ((machine options peer).init.inEvent options [.data limit] []).status = .aborted := by
  have hreceive := receiveGreeting_unversioned options [] (e := (machine options peer).init)
    (Nat.succ_pos 11) hbytes hne hold
  exact inEvent_aborted hreceive rfl rfl (if_pos (hold.imp_right And.right))

/-- An answer to an older version does not make the greeting longer. -/
theorem greetingSize_sendVersion (hold : e.greetingByte 10 = 0 ∨ e.greetingByte 10 = 1) :
    (e.sendVersion options).greetingSize = e.greetingSize := by
  have hmajor : e.sendMajor.greetingByte 10 = e.greetingByte 10 ∧
      e.sendMajor.greetingSize = e.greetingSize := by
    rw [sendMajor]
    split_ifs <;> exact ⟨rfl, rfl⟩
  rw [sendVersion]
  dsimp only
  rw [hmajor.1, if_pos hold]
  split_ifs
  · exact hmajor.2
  · exact hmajor.2

theorem getD_take {i n : ℕ} {b : UInt8} (hi : i < n) (hb : peer[i]? = some b) :
    (peer.take n).getD i 0 = b := by
  rw [List.getD_eq_getElem?_getD, List.getElem?_take_of_lt hi, hb]
  rfl

theorem length_take_of_getElem? {i n : ℕ} {b : UInt8} (hn : n = i + 1)
    (hb : peer[i]? = some b) : (peer.take n).length = n := by
  obtain ⟨hlength, -⟩ := List.getElem?_eq_some_iff.mp hb
  rw [List.length_take]
  omega

variable (options) in
/-- The first iteration, if it reads as much as it asks for. -/
theorem receiveGreeting_first (hsignature : ∀ b, peer[0]? = some b → b = 0xff)
    (hflags : ∀ b, peer[9]? = some b → b &&& 1 ≠ 0) (hlength : v2GreetingSize ≤ peer.length)
    (reads : List Recv) :
    receiveGreeting options (.data v2GreetingSize :: reads) (machine options peer).init =
      receiveGreeting options reads
        (((machine options peer).init.store (peer.take v2GreetingSize)).sendVersion options) := by
  have htake : (peer.take v2GreetingSize).length = v2GreetingSize :=
    List.length_take_of_le hlength
  have hbyte : ∀ {i}, i < v2GreetingSize →
      peer[i]? = some ((peer.take v2GreetingSize).getD i 0) := by
    intro i hi
    have hb := List.getElem?_eq_getElem (hi.trans_le hlength)
    rw [getD_take hi hb, hb]
  refine receiveGreeting_cons options reads (e := (machine options peer).init)
    (Nat.succ_pos 11) (show _ = peer.take v2GreetingSize from rfl) ?_ ?_ ?_ ?_
  · exact List.length_pos_iff.mp (by rw [htake]; exact Nat.succ_pos 11)
  · exact hsignature _ (hbyte (by decide))
  · change signatureSize ≤ (peer.take v2GreetingSize).length
    rw [htake]
    decide
  · exact hflags _ (hbyte (by decide))

/-- The loop ends when the greeting is complete. -/
theorem receiveGreeting_complete {reads : List Recv}
    (hfull : e.greetingSize ≤ e.greetingRecv.length) :
    receiveGreeting options reads e = (some reads, e) := by
  rw [receiveGreeting.eq_def]
  exact if_neg (Nat.not_lt.mpr hfull)

/-- A peer that cannot abort the worker speaks version 3. -/
theorem versioned_of_sound
    (hsound : ∀ reads, ((machine options peer).init.inEvent options reads []).Sound) :
    Versioned peer := by
  have hsignature : ∀ b, peer[0]? = some b → b = 0xff := by
    intro b hb
    by_contra hfirst
    have hlength := length_take_of_getElem? rfl hb
    apply (hsound [.data 1]).not_aborted
    apply aborted_of_unversioned (show peer.take (min 1 v2GreetingSize) = peer.take 1 from rfl)
    · exact List.length_pos_iff.mp (by rw [hlength]; exact Nat.one_pos)
    · left
      rw [getD_take Nat.one_pos hb]
      exact hfirst
  have hflags : ∀ b, peer[9]? = some b → b &&& 1 ≠ 0 := by
    intro b hb heven
    have hlength := length_take_of_getElem? rfl hb
    apply (hsound [.data 10]).not_aborted
    apply aborted_of_unversioned (show peer.take (min 10 v2GreetingSize) = peer.take 10 from rfl)
    · exact List.length_pos_iff.mp (by rw [hlength]; exact Nat.succ_pos 9)
    · right
      rw [getD_take (by decide) hb]
      exact ⟨hlength.ge, heven⟩
  refine ⟨hsignature, hflags, ?_⟩
  intro b hb hlength hold
  obtain ⟨e, he⟩ : ∃ e, (machine options peer).init.store (peer.take v2GreetingSize) = e :=
    ⟨_, rfl⟩
  have hrecv : e.greetingRecv = peer.take v2GreetingSize := by rw [← he]; rfl
  have hbyte : e.greetingByte 10 = b := by
    rw [greetingByte, hrecv, getD_take (by decide) hb]
  have hfirst := receiveGreeting_first options hsignature hflags hlength []
  obtain ⟨hstatus, -, hsame, -, -, -, hdecoder, -⟩ := sendVersion_same options e
  have hfull : (e.sendVersion options).greetingSize ≤
      (e.sendVersion options).greetingRecv.length := by
    rw [greetingSize_sendVersion (hbyte.symm ▸ hold), hsame, hrecv,
      List.length_take_of_le hlength, ← he]
    exact le_rfl
  rw [he, receiveGreeting_complete hfull] at hfirst
  apply (hsound [.data v2GreetingSize]).not_aborted
  apply inEvent_aborted hfirst
  · rw [hstatus, ← he]
    rfl
  · rw [hdecoder, ← he]
    rfl
  · have hbyte' : (e.sendVersion options).greetingByte 10 = b := by
      rw [greetingByte, hsame]
      exact hbyte
    rw [selectProtocol, hbyte']
    split_ifs with _ hzero hone
    · rfl
    · rfl
    · rfl
    · exact absurd hold (not_or.mpr ⟨hzero, hone⟩)

/-- More than the first part of a greeting belongs to version 3. -/
theorem Progress.greetingSize_eq {greeting : List UInt8} {greetingEnd greetingSize : ℕ}
    (h : Progress greeting greetingEnd greetingSize)
    (hlength : v2GreetingSize ≤ greeting.length) : greetingSize = v3GreetingSize := by
  cases h with
  | signature hshort => exact absurd (hlength.trans_lt hshort) (by decide)
  | revision hshort => exact absurd (hlength.trans hshort.le) (by decide)
  | older hshort _ => exact absurd (hlength.trans hshort.le) (by decide)
  | current _ _ _ => rfl

variable (options) in
/-- A greeting of version 3 in two fragments. -/
theorem exists_receiveGreeting (hpeer : Versioned peer) (hlength : v3GreetingSize ≤ peer.length) :
    ∃ e, receiveGreeting options [.data v2GreetingSize, .data v3GreetingSize]
        (machine options peer).init = (some [], e) ∧
      e.Greeting peer ∧ e.greetingSize ≤ e.greetingRecv.length ∧ e.mechanism = none := by
  have hshort : v2GreetingSize ≤ peer.length := hlength.trans' (by decide)
  have htake : (peer.take v2GreetingSize).length = v2GreetingSize :=
    List.length_take_of_le hshort
  have hstart : (machine options peer).init.Greeting peer :=
    ⟨rfl, rfl, rfl, rfl, rfl, .signature (Nat.succ_pos 9)⟩
  have hfirst : (((machine options peer).init.store (peer.take v2GreetingSize)).sendVersion
      options).Greeting peer := by
    apply hstart.sendVersion options hpeer
    · exact List.length_pos_iff.mp (by rw [htake]; exact Nat.succ_pos 11)
    · exact List.take_prefix _ _
    · exact htake.le
    · change signatureSize ≤ (peer.take v2GreetingSize).length
      rw [htake]
      decide
  obtain ⟨-, -, hrecv, hrest, -, -, -, hmechanism⟩ :=
    sendVersion_same options ((machine options peer).init.store (peer.take v2GreetingSize))
  have hreceive := receiveGreeting_first options hpeer.signature hpeer.flags hshort
    [.data v3GreetingSize]
  obtain ⟨e, he⟩ : ∃ e, ((machine options peer).init.store
    (peer.take v2GreetingSize)).sendVersion options = e := ⟨_, rfl⟩
  rw [he] at hfirst hrecv hrest hmechanism hreceive
  have hlength₁ : e.greetingRecv.length = v2GreetingSize := by
    rw [hrecv]
    exact htake
  have hsize₁ : e.greetingSize = v3GreetingSize := hfirst.progress.greetingSize_eq hlength₁.ge
  obtain ⟨bytes, hbytes⟩ : ∃ bytes,
      e.recvBytes (e.greetingSize - e.greetingRecv.length) v3GreetingSize = bytes := ⟨_, rfl⟩
  have hprefix : bytes <+: e.peer := hbytes ▸ List.take_prefix _ _
  have hreceived := hfirst.received_store hprefix
  have hlength₂ : (e.store bytes).greetingRecv.length = v3GreetingSize := by
    have htotal := congrArg List.length hfirst.received
    change (e.greetingRecv ++ bytes).length = v3GreetingSize
    rw [List.length_append] at htotal ⊢
    rw [← hbytes, recvBytes, List.length_take, hsize₁, hlength₁]
    rw [hlength₁] at htotal
    simp only [v2GreetingSize, v3GreetingSize] at *
    omega
  have hne : bytes ≠ [] := by
    rintro rfl
    change (e.greetingRecv ++ []).length = v3GreetingSize at hlength₂
    rw [List.append_nil, hlength₁] at hlength₂
    cases hlength₂
  have hbyte : ∀ {i}, i < v3GreetingSize → peer[i]? = some ((e.store bytes).greetingByte i) :=
    fun hi => getElem?_peer hreceived (hlength₂ ▸ hi)
  have hlow : signatureSize ≤ (e.store bytes).greetingRecv.length := by
    rw [hlength₂]
    decide
  have hroom : e.greetingRecv.length < e.greetingSize := by
    rw [hlength₁, hsize₁]
    decide
  have hsecond := hfirst.sendVersion options hpeer hne hprefix (by rw [hlength₂, hsize₁]) hlow
  obtain ⟨-, -, hrecv₂, -, -, -, -, hmechanism₂⟩ := sendVersion_same options (e.store bytes)
  have hlength₃ : ((e.store bytes).sendVersion options).greetingRecv.length = v3GreetingSize := by
    rw [hrecv₂, hlength₂]
  have hfull : ((e.store bytes).sendVersion options).greetingSize ≤
      ((e.store bytes).sendVersion options).greetingRecv.length := by
    rw [hlength₃, hsecond.progress.greetingSize_eq (hlength₃.ge.trans' (by decide))]
  refine ⟨_, hreceive.trans ?_, hsecond, hfull, hmechanism₂.trans hmechanism⟩
  rw [receiveGreeting_cons options [] hroom hbytes hne (hpeer.signature _ (hbyte (by decide)))
    hlow (hpeer.flags _ (hbyte (by decide))), receiveGreeting_complete hfull]

/-- A mechanism that is not there is not asked for. -/
theorem ne_plain_of_sound
    (hsound : ∀ reads, ((machine options peer).init.inEvent options reads []).Sound)
    (hplain : options.mechanism = .plain) (hlength : v3GreetingSize ≤ peer.length) :
    (peer.drop 12).take 20 ≠ mechanismName "PLAIN" := by
  intro hname
  have hpeer := versioned_of_sound hsound
  obtain ⟨e, hreceive, h, hfull, hmechanism⟩ := exists_receiveGreeting options hpeer hlength
  obtain ⟨hselect, hname', -⟩ := h.selectProtocol_eq options hpeer hfull
  have hplain' : e.selectProtocol options =
      { e with
        encoder := some .create
        decoder := some (.create inBatchSize options.maxmsgsize)
        readMsg := some .handshakeCommand
        writeMsg := some .handshakeCommand } := by
    rw [hselect, selectMechanism]
    dsimp only
    rw [if_neg fun hnull => absurd (hplain.symm.trans hnull.1) (by decide),
      if_pos ⟨hplain, hname'.symm.trans hname⟩]
  have halive : e.status ≠ .closed := by
    rw [h.status_eq]
    decide
  have hopen : (e.selectProtocol options).status ≠ .closed := by
    rw [hplain']
    exact halive
  have hafter := hsound [.data v2GreetingSize, .data v3GreetingSize]
  rw [inEvent_of_receiveGreeting hreceive hopen, hplain', receive, withMemory] at hafter
  dsimp only [Option.map_some] at hafter
  rw [if_pos h.input_eq] at hafter
  have hmissing := (hafter.established halive rfl).2.2.1
  rw [hmechanism] at hmissing
  cases hmissing

/-- A call of `recv` for a single byte. -/
theorem length_recvBytes (hread : 0 < decoder.toRead) (e : HandshakeEngine) :
    (e.recvBytes decoder.getBuffer.2 1).length = min 1 e.peer.length := by
  rw [recvBytes, List.length_take, Decoder.getBuffer]
  split_ifs <;> dsimp only <;> omega

/-- An engine that has not sent its command reads on, byte by byte, until it has read everything
or has closed the connection. -/
theorem Established.harmless_of_sound {n : ℕ} (h : e.Established options rest)
    (hstatus : e.status = .handshake) (hinput : e.input = [])
    (hunsent : e.mechanism.map NullMechanism.readyCommandSent = some false)
    (hlength : e.peer.length = n)
    (hsound : ∀ events, (machine options peer).Always Sound e events) : Harmless options rest := by
  induction n generalizing e with
  | zero =>
      obtain ⟨_, _, _, _, hreceived⟩ := h.parts
      obtain ⟨before, current, hbefore, hreads, hrest⟩ := (hreceived hstatus).exists_bytes
      rw [hinput, List.length_eq_zero_iff.mp hlength, List.append_nil, List.append_nil] at hrest
      exact hrest ▸ hbefore.harmless_of_reads hreads
  | succ n ih =>
      have hmemory := h.withMemory []
      obtain ⟨_, decoder, _, hworking, hreceived⟩ := hmemory.parts
      obtain ⟨e₁, he₁⟩ : ∃ e₁, e.withMemory [] = e₁ := ⟨_, rfl⟩
      have hstatus₁ : e₁.status = .handshake := by rw [← he₁]; exact hstatus
      have hinput₁ : e₁.input = [] := by rw [← he₁]; exact hinput
      have hpeer₁ : e₁.peer = e.peer := by rw [← he₁]; rfl
      have hmechanism₁ : e₁.mechanism = e.mechanism := by rw [← he₁]; rfl
      have hmallocs : decoder.mallocs = [] := by
        obtain ⟨decoder', -, rfl⟩ := Option.map_eq_some_iff.mp hworking.decoder_eq
        rfl
      have hphase : e.handshaking = false := hworking.handshaking_eq
      have hstep : e.step options (.inEvent [.data 1] []) =
          some (e₁.receive options [.data 1]) := by
        rw [HandshakeEngine.step, if_pos hstatus, inEvent, hphase, ← he₁]
        rfl
      have hsound₁ : ∀ events,
          (machine options peer).Always Sound (e₁.receive options [.data 1]) events :=
        fun events => (hsound (.inEvent [.data 1] [] :: events)).2 _ hstep
      rw [he₁] at hmemory hworking hreceived
      cases hmemory.receive_data options hstatus₁ hinput₁ hworking.decoder_eq 1 [] with
      | closed _ hrest => exact hrest hmallocs
      | aborted haborted _ => exact absurd haborted (hsound₁ []).not_aborted
      | established h' hinput' hsent hpeer =>
          dsimp only at hsent
          rw [hmechanism₁, hunsent] at hsent
          have hstatus' : (e₁.receive options [.data 1]).status = .handshake := by
            obtain ⟨_, _, mechanism, hworking', -⟩ := h'.parts
            rw [hworking'.mechanism_eq] at hsent
            exact (hworking'.idle (Option.some.inj hsent)).1
          refine ih h' hstatus' (hinput' hstatus') hsent ?_ hsound₁
          obtain ⟨_, _, _, hreads, _⟩ := (hreceived hstatus₁).exists_bytes
          have hone := length_recvBytes hreads.toRead_pos e₁
          rw [hpeer]
          dsimp only
          rw [List.length_drop, hone, hpeer₁]
          omega

/-- The sizes behind a greeting with the `NULL` mechanism. -/
theorem harmless_of_sound
    (hsound : ∀ events, (machine options peer).Always Sound (machine options peer).init events)
    (hnull : options.mechanism = .null) (hlength : v3GreetingSize ≤ peer.length)
    (hname : (peer.drop 12).take 20 = mechanismName "NULL") :
    Harmless options (peer.drop v3GreetingSize) := by
  have hpeer := versioned_of_sound (sound_inEvent hsound)
  obtain ⟨e, hreceive, h, hfull, -⟩ := exists_receiveGreeting options hpeer hlength
  obtain ⟨hestablished, hinput, hstatus, hmechanism⟩ :=
    h.established_of_null hpeer hfull hnull hname
  have hopen : (e.selectProtocol options).status ≠ .closed := by
    rw [hstatus]
    decide
  have hafter := inEvent_of_receiveGreeting hreceive hopen
  obtain ⟨e₁, he₁⟩ : ∃ e₁, { e.selectProtocol options with handshaking := false } = e₁ := ⟨_, rfl⟩
  have hstatus₁ : e₁.status = .handshake := by rw [← he₁]; exact hstatus
  have hinput₁ : e₁.input = [] := by rw [← he₁]; exact hinput
  have hunsent₁ : e₁.mechanism.map NullMechanism.readyCommandSent = some false := by
    rw [← he₁, hmechanism]
    rfl
  rw [he₁] at hestablished hafter
  -- nothing is left of the reads for the decoder
  have hnothing : (e₁.withMemory []).receive options [] = e₁.withMemory [] := by
    obtain ⟨_, _, _, hworking, -⟩ := (hestablished.withMemory []).parts
    rw [receive, hworking.decoder_eq]
    exact if_pos hinput₁
  rw [hnothing] at hafter
  have hrest : ∀ events, (machine options peer).Always Sound (e₁.withMemory []) events :=
    fun events => (hsound (.inEvent [.data v2GreetingSize, .data v3GreetingSize] [] :: events)).2 _
      (congrArg some hafter)
  exact (hestablished.withMemory []).harmless_of_sound hstatus₁ hinput₁ hunsent₁ rfl hrest

/-- A peer that cannot abort the worker sends acceptable bytes. -/
theorem acceptable_of_sound
    (hsound : ∀ events, (machine options peer).Always Sound (machine options peer).init events) :
    Acceptable options peer where
  toVersioned := versioned_of_sound (sound_inEvent hsound)
  mechanism := ne_plain_of_sound (sound_inEvent hsound)
  sizes := harmless_of_sound hsound

/-- **Handshake.** No fragmentation of what a peer sends, no interleaving with our writes and no
failure of `malloc` makes an assertion fail or the decoder leave its memory, and behind the
greeting all that the commands need is there, exactly if the peer sends a greeting of version 3,
does not ask for `PLAIN` from a side that has it, and gives no size that wraps in the frames
before the engine is ready. -/
theorem handshake_sound_iff (options : Options) (peer : List UInt8) :
    (∀ events, (machine options peer).Always Sound (machine options peer).init events) ↔
      Acceptable options peer := by
  constructor
  · exact acceptable_of_sound
  · intro hpeer events
    exact Machine.Always.of_invariant (Between options peer) Between.sound
      (fun h hstep => h.step hpeer hstep) (Between.init options peer) events

-- behind a whole greeting, a header of nine bytes for a message of `2 ^ 64 - 1` bytes
example :
    let peer : List UInt8 := 0xff :: List.replicate 8 0 ++ [0x7f, 3, 0] ++ mechanismName "NULL" ++
      List.replicate 32 0 ++ 6 :: List.replicate 8 0xff
    let e := (machine (.default .pull) peer).init.inEvent (.default .pull)
      [.data 12, .data 52, .data 9] []
    e.status = .aborted := by
  decide +kernel

/-- A worker is aborted by one byte. -/
theorem aborted_by_one_byte :
    ¬ ∀ events, (machine (.default .pull) [0]).Always Sound
      (machine (.default .pull) [0]).init events := by
  intro hsound
  have haborted : ((machine (.default .pull) [0]).init.inEvent (.default .pull)
      [.data 1] []).status = .aborted := by
    decide
  exact (sound_inEvent hsound [.data 1]).not_aborted haborted

end HandshakeEngine

end AFStream.Net
