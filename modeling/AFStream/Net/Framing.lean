/-
# From messages to bytes and back

A sender loads one message after the other into an encoder and collects what it hands out
into buffers of any sizes; a receiver reads the bytes in pieces of any sizes and feeds them
to a decoder. The module shows that the decoder reports the messages that were loaded.
-/

import AFStream.Foundation.Machine
import AFStream.Net.Decoder

namespace AFStream.Net

open AFStream.Foundation

/-! ## The sender -/

/-- One call of `encode`: without or with a buffer of the caller, and its size. -/
structure EncodeCall where
  fresh : Bool
  size : ℕ

/-- An encoder, the messages to come, each with its external record if it has one, and the
bytes handed out so far. -/
structure Sender where
  encoder : Encoder
  queue : List (Msg × Option Record)
  output : List UInt8

namespace Sender

def create (queue : List (Msg × Option Record)) : Sender where
  encoder := .create
  queue := queue
  output := []

/-- `encode` -/
def encode (s : Sender) (call : EncodeCall) : Sender :=
  let (chunk, encoder) := s.encoder.encode call.fresh call.size
  { s with encoder := encoder, output := s.output ++ chunk.bytes }

/-- `load_msg` if the encoder has no message, and `encode`. -/
def send (s : Sender) (call : EncodeCall) : Option Sender :=
  match s.encoder.inProgress, s.queue with
  | none, (msg, data) :: rest =>
    (s.encoder.loadMsg msg data).map fun encoder =>
      encode { s with encoder := encoder, queue := rest } call
  | _, _ => some (s.encode call)

def machine (queue : List (Msg × Option Record)) : Machine Sender EncodeCall where
  init := create queue
  step := send

/-- All messages have been handed out. -/
def Finished (s : Sender) : Prop := s.encoder.inProgress = none ∧ s.queue = []

/-- The frames of messages with their records. -/
def frames (queue : List (Msg × Option Record)) : List UInt8 :=
  queue.flatMap fun entry => Encoder.frame entry.1 entry.2

/-- How many calls the messages need at most: one for each byte and one for each end. -/
def work (queue : List (Msg × Option Record)) : ℕ := (frames queue).length + queue.length

/-- Nothing is lost, and each call gets closer to the end. -/
structure Inv (queue : List (Msg × Option Record)) (done : ℕ) (s : Sender) : Prop where
  phase : s.encoder.Phase
  output_eq : s.output ++ s.encoder.pending ++ frames s.queue = frames queue
  work_le : s.encoder.pending.length + (if s.encoder.inProgress = none then 0 else 1) +
    work s.queue ≤ work queue - done

variable {queue : List (Msg × Option Record)} {s : Sender} {done : ℕ} {call : EncodeCall}

theorem frames_cons (entry : Msg × Option Record) (rest : List (Msg × Option Record)) :
    frames (entry :: rest) = Encoder.frame entry.1 entry.2 ++ frames rest :=
  List.flatMap_cons

theorem work_cons (entry : Msg × Option Record) (rest : List (Msg × Option Record)) :
    work (entry :: rest) = (Encoder.frame entry.1 entry.2).length + 1 + work rest := by
  rw [work, frames_cons, List.length_append, List.length_cons, work]
  omega

/-- A call of `encode` on a message in progress. -/
theorem encode_inv (hphase : s.encoder.Phase) (hsize : 0 < call.size)
    (hmsg : s.encoder.inProgress ≠ none) :
    (s.encode call).encoder.Phase ∧ (s.encode call).queue = s.queue ∧
      (s.encode call).output ++ (s.encode call).encoder.pending =
        s.output ++ s.encoder.pending ∧
      (s.encode call).encoder.pending.length +
        (if (s.encode call).encoder.inProgress = none then 0 else 1) ≤
          s.encoder.pending.length := by
  have hresult := Encoder.encode_handsOut hphase hsize call.fresh
  have hlength := congrArg List.length hresult.bytes_eq
  rw [List.length_append] at hlength
  refine ⟨hresult.phase, rfl, ?_, ?_⟩
  · change s.output ++ _ ++ _ = _
    rw [List.append_assoc]
    exact congrArg (s.output ++ ·) hresult.bytes_eq
  · change (s.encoder.encode call.fresh call.size).2.pending.length + (if (s.encoder.encode
      call.fresh call.size).2.inProgress = none then 0 else 1) ≤ _
    rcases hresult.progress hmsg with hbytes | hidle
    · have hpos := List.length_pos_iff.mpr hbytes
      split_ifs <;> omega
    · rw [if_pos hidle]
      omega

/-- **Step.** -/
theorem Inv.send (h : s.Inv queue done) (hsize : 0 < call.size) :
    ∃ s', s.send call = some s' ∧ s'.Inv queue (done + 1) := by
  have hwork := h.work_le
  cases hmsg : s.encoder.inProgress with
  | some msg =>
      have hbusy : s.encoder.inProgress ≠ none := by
        rw [hmsg]
        exact Option.some_ne_none msg
      obtain ⟨hphase, hqueue, houtput, hle⟩ := encode_inv h.phase hsize hbusy
      rw [if_neg hbusy] at hwork
      refine ⟨s.encode call, by simp only [Sender.send, hmsg], hphase, ?_, ?_⟩
      · rw [houtput, hqueue, h.output_eq]
      · rw [hqueue]
        omega
  | none =>
      have hpending := Encoder.pending_of_inProgress_none h.phase hmsg
      rw [if_pos hmsg, hpending, List.length_nil] at hwork
      cases hqueue : s.queue with
      | nil =>
          have hsame : s.encode call = s := by
            simp [Sender.encode, Encoder.encode, hmsg]
          refine ⟨s, by simp only [Sender.send, hmsg, hqueue, hsame], h.phase, h.output_eq, ?_⟩
          rw [if_pos hmsg, hpending, hqueue]
          exact Nat.zero_le _
      | cons entry rest =>
          obtain ⟨encoder, hload, hphase₁, hmsg₁, -, hpending₁, -⟩ :=
            Encoder.loadMsg_eq_some h.phase hmsg entry.1 entry.2
          obtain ⟨s₁, hs₁⟩ : ∃ s₁ : Sender, s₁ = { s with encoder := encoder, queue := rest } :=
            ⟨_, rfl⟩
          have hencoder : s₁.encoder = encoder := by rw [hs₁]
          have houtput₁ : s₁.output = s.output := by rw [hs₁]
          have hqueue₁ : s₁.queue = rest := by rw [hs₁]
          have hbusy : s₁.encoder.inProgress ≠ none := by
            rw [hencoder, hmsg₁]
            exact Option.some_ne_none entry.1
          obtain ⟨hphase, hqueue', houtput, hle⟩ :=
            encode_inv (hencoder ▸ hphase₁) hsize hbusy
          refine ⟨s₁.encode call, ?_, hphase, ?_, ?_⟩
          · simp only [Sender.send, hmsg, hqueue, hload, Option.map_some, hs₁]
          · rw [houtput, hqueue', hqueue₁, hencoder, houtput₁, hpending₁, ← h.output_eq, hpending,
              hqueue, frames_cons, List.append_nil, List.append_assoc]
          · rw [hqueue, work_cons] at hwork
            rw [hencoder, hpending₁] at hle
            rw [hqueue', hqueue₁]
            omega

theorem Inv.init : (machine queue).init.Inv queue 0 where
  phase := .idle rfl rfl rfl rfl
  output_eq := rfl
  work_le := by
    change 0 + 0 + work queue ≤ work queue - 0
    omega

/-- **Run.** Calls with any buffers. -/
theorem Inv.run {calls : List EncodeCall} (hcalls : ∀ call ∈ calls, 0 < call.size)
    (h : s.Inv queue done) :
    ∃ s', (machine queue).runFrom s calls = some s' ∧ s'.Inv queue (done + calls.length) := by
  induction calls generalizing s done with
  | nil => exact ⟨s, rfl, h⟩
  | cons call rest ih =>
      rw [List.forall_mem_cons] at hcalls
      obtain ⟨s₁, hstep, h₁⟩ := h.send hcalls.1
      obtain ⟨s', hrest, h'⟩ := ih hcalls.2 h₁
      refine ⟨s', ?_, ?_⟩
      · rw [Machine.runFrom_cons]
        change (s.send call).bind _ = _
        rw [hstep]
        exact hrest
      · rw [List.length_cons, Nat.add_comm rest.length, ← Nat.add_assoc]
        exact h'

/-- Enough calls hand out everything. -/
theorem Inv.finished (h : s.Inv queue done) (hdone : work queue ≤ done) : s.Finished := by
  have hwork := h.work_le
  constructor
  · by_contra hbusy
    rw [if_neg hbusy] at hwork
    omega
  · rw [← List.length_eq_zero_iff]
    rw [work] at hwork
    omega

theorem Inv.output_of_finished (h : s.Inv queue done) (hfinished : s.Finished) :
    s.output = frames queue := by
  have houtput := h.output_eq
  rw [Encoder.pending_of_inProgress_none h.phase hfinished.1, hfinished.2, List.append_nil]
    at houtput
  simpa [frames] using houtput

end Sender

/-! ## The receiver -/

/-- A decoder, the bytes on the way to it, the messages it has reported, and for each call
of `decode` how many bytes it was offered and how many it used. -/
structure Receiver where
  decoder : Decoder
  wire : List UInt8
  messages : List Msg
  calls : List (ℕ × ℕ)

namespace Receiver

def create (bufsize : ℕ) (wire : List UInt8) : Receiver where
  decoder := .create bufsize (-1)
  wire := wire
  messages := []
  calls := []

/-- The loop of `in_event` over the bytes that have been read. Only the first call of
`decode` can get the bytes where they belong. An error tears the connection down, and nothing
is said about what follows a write behind a chunk. -/
def decodeAll : ℕ → Bool → List UInt8 → Receiver → Option Receiver
  | 0, _, _, r => some r
  | fuel + 1, zeroCopy, data, r =>
    if data = [] then some r
    else
      (r.decoder.decode zeroCopy data).bind fun (result, used, decoder) =>
        let r := { r with decoder := decoder, calls := r.calls ++ [(data.length, used)] }
        match result with
        | .error => none
        | .fault => none
        | .more => some r
        | .message =>
          decodeAll fuel false (data.drop used)
            { r with messages := r.messages ++ [decoder.inProgress] }

/-- `in_event`, when the socket has `available` bytes. -/
def receive (r : Receiver) (available : ℕ) : Option Receiver :=
  let (zeroCopy, size) := r.decoder.getBuffer
  let data := r.wire.take (min available size)
  decodeAll data.length zeroCopy data { r with wire := r.wire.drop (min available size) }

def machine (bufsize : ℕ) (wire : List UInt8) : Machine Receiver ℕ where
  init := create bufsize wire
  step := receive

/-- The receiver in a stream of messages. -/
structure Inv (bufsize : ℕ) (msgs : List Msg) (r : Receiver) (data : List UInt8) : Prop where
  reported : ∃ rest, msgs = r.messages ++ rest ∧ r.decoder.Expects rest (data ++ r.wire)
  unlimited : r.decoder.Unlimited
  bufsize_eq : r.decoder.bufsize = bufsize
  calls_le : ∀ call ∈ r.calls, call.2 ≤ call.1

variable {bufsize : ℕ} {msgs : List Msg} {r : Receiver} {data : List UInt8} {fuel : ℕ}

/-- The loop uses all bytes. -/
theorem Inv.decodeAll (h : r.Inv bufsize msgs data)
    (hsizes : ∀ msg ∈ msgs, sizeofContent + msg.size < 2 ^ 64)
    {zeroCopy : Bool} (hzero : zeroCopy = true → data.length ≤ r.decoder.toRead)
    (hfuel : data.length ≤ fuel) :
    ∃ r', Receiver.decodeAll fuel zeroCopy data r = some r' ∧ r'.Inv bufsize msgs [] ∧
      r'.wire = r.wire := by
  induction fuel generalizing r data zeroCopy with
  | zero =>
      obtain rfl : data = [] := List.length_eq_zero_iff.mp (Nat.le_zero.mp hfuel)
      exact ⟨r, rfl, h, rfl⟩
  | succ fuel ih =>
      rw [Receiver.decodeAll]
      by_cases hempty : data = []
      · subst hempty
        exact ⟨r, if_pos rfl, h, rfl⟩
      rw [if_neg hempty]
      obtain ⟨rest, hmsgs, hexpects⟩ := h.reported
      have hsizes' : ∀ msg ∈ rest, sizeofContent + msg.size < 2 ^ 64 :=
        fun msg hmsg => hsizes msg (hmsgs ▸ List.mem_append_right _ hmsg)
      obtain ⟨result, hdecode, hdecoded, hkeeps⟩ :=
        hexpects.decode h.unlimited hsizes' hempty hzero
      have hunlimited := h.unlimited.of_keeps hkeeps
      have hbuf := hkeeps.bufsize_eq.trans h.bufsize_eq
      rw [hdecode, Option.bind_some]
      cases hdecoded with
      | more d hd =>
          refine ⟨_, rfl, ⟨⟨rest, hmsgs, hd⟩, hunlimited, hbuf, ?_⟩, rfl⟩
          intro call hcall
          rcases List.mem_append.mp hcall with hold | hnew
          · exact h.calls_le call hold
          · rw [List.mem_singleton.mp hnew]
      | message msg rest' used d hrest hmsg hused hpos hd =>
          subst hrest
          have hlength : (data.drop used).length ≤ fuel := by
            rw [List.length_drop]
            omega
          refine ih ⟨⟨rest', ?_, hd⟩, hunlimited, hbuf, ?_⟩ (by simp) hlength
          · dsimp only
            rw [hmsg, hmsgs, List.append_assoc]
            rfl
          · intro call hcall
            rcases List.mem_append.mp hcall with hold | hnew
            · exact h.calls_le call hold
            · rw [List.mem_singleton.mp hnew]
              exact hused

/-- **Step.** Any number of bytes that the socket has. -/
theorem Inv.receive (h : r.Inv bufsize msgs [])
    (hsizes : ∀ msg ∈ msgs, sizeofContent + msg.size < 2 ^ 64) (hbufsize : 0 < bufsize)
    {available : ℕ} (havailable : 0 < available) :
    ∃ r', r.receive available = some r' ∧ r'.Inv bufsize msgs [] ∧
      r'.wire.length ≤ r.wire.length - 1 := by
  obtain ⟨zeroCopy, size, hbuffer, hzero, hsize⟩ : ∃ zeroCopy size,
      r.decoder.getBuffer = (zeroCopy, size) ∧
        (zeroCopy = true → size = r.decoder.toRead) ∧ 0 < size := by
    rw [Decoder.getBuffer, h.bufsize_eq]
    by_cases hlarge : bufsize ≤ r.decoder.toRead
    · exact ⟨true, r.decoder.toRead, if_pos hlarge, fun _ => rfl, hbufsize.trans_le hlarge⟩
    · exact ⟨false, bufsize, if_neg hlarge, by simp, hbufsize⟩
  obtain ⟨r₁, hr₁⟩ : ∃ r₁ : Receiver, r₁ = { r with
    wire := r.wire.drop (min available size) } := ⟨_, rfl⟩
  have h₁ : r₁.Inv bufsize msgs (r.wire.take (min available size)) := by
    obtain ⟨rest, hmsgs, hexpects⟩ := h.reported
    rw [hr₁]
    refine ⟨⟨rest, hmsgs, ?_⟩, h.unlimited, h.bufsize_eq, h.calls_le⟩
    rw [List.take_append_drop]
    exact hexpects
  have htoRead : zeroCopy = true →
      (r.wire.take (min available size)).length ≤ r₁.decoder.toRead := by
    intro htrue
    have hdecoder : r₁.decoder = r.decoder := by rw [hr₁]
    rw [hdecoder, ← hzero htrue, List.length_take]
    omega
  obtain ⟨r', hloop, h', hwire⟩ := h₁.decodeAll hsizes htoRead le_rfl
  refine ⟨r', ?_, h', ?_⟩
  · simp only [Receiver.receive, hbuffer]
    rw [hr₁] at hloop
    exact hloop
  · rw [hwire, hr₁]
    dsimp only
    rw [List.length_drop]
    omega

theorem Inv.init (bufsize : ℕ) (msgs : List Msg) :
    (machine bufsize (Decoder.stream msgs)).init.Inv bufsize msgs [] where
  reported := ⟨msgs, rfl, .flags msgs rfl rfl rfl⟩
  unlimited := ⟨rfl, rfl⟩
  bufsize_eq := rfl
  calls_le := by
    intro call hcall
    cases hcall

/-- **Run.** Any pieces of the stream. -/
theorem Inv.run {wire : List UInt8}
    (hsizes : ∀ msg ∈ msgs, sizeofContent + msg.size < 2 ^ 64) (hbufsize : 0 < bufsize)
    {reads : List ℕ} (hreads : ∀ available ∈ reads, 0 < available)
    (h : r.Inv bufsize msgs []) :
    ∃ r', (machine bufsize wire).runFrom r reads = some r' ∧ r'.Inv bufsize msgs [] ∧
      r'.wire.length ≤ r.wire.length - reads.length := by
  induction reads generalizing r with
  | nil => exact ⟨r, rfl, h, le_rfl⟩
  | cons available rest ih =>
      rw [List.forall_mem_cons] at hreads
      obtain ⟨r₁, hstep, h₁, hwire₁⟩ := h.receive hsizes hbufsize hreads.1
      obtain ⟨r', hrest, h', hwire⟩ := ih hreads.2 h₁
      refine ⟨r', ?_, h', ?_⟩
      · rw [Machine.runFrom_cons]
        change (r.receive available).bind _ = _
        rw [hstep]
        exact hrest
      · rw [List.length_cons]
        omega

/-- At the end of the stream no message is left. -/
theorem eq_nil_of_expects {d : Decoder} {rest : List Msg} {bytes : List UInt8}
    (h : d.Expects rest bytes) (hbytes : bytes = []) : rest = [] := by
  cases h with
  | flags _ _ _ _ =>
      cases rest with
      | nil => rfl
      | cons msg rest =>
          have hpos := Encoder.length_header_pos msg
          rw [Decoder.stream_cons, List.append_eq_nil_iff] at hbytes
          rw [hbytes.1] at hpos
          cases hpos
  | oneByteSize msg msgs _ _ _ _ _ _ => cases hbytes
  | eightByteSize msg msgs left _ _ hleft _ _ _ =>
      exact absurd (List.append_eq_nil_iff.mp hbytes).1 hleft
  | content msg msgs left _ _ hleft _ _ _ =>
      exact absurd (List.append_eq_nil_iff.mp hbytes).1 hleft

theorem Inv.messages_eq (h : r.Inv bufsize msgs []) (hwire : r.wire = []) : r.messages = msgs := by
  obtain ⟨rest, hmsgs, hexpects⟩ := h.reported
  rw [hmsgs, eq_nil_of_expects hexpects hwire, List.append_nil]

end Receiver

/-! ## The round trip -/

/-- A message with the bytes that are sent for it. -/
def payload (entry : Msg × Option Record) : Msg :=
  { entry.1 with content := Encoder.body entry.1 entry.2 }

/-- The memory of a message, with its `content_t`, has a size that is a `size_t`; a record has
the size of its message and gives it to `load_msg` as a `uint32_t`. -/
structure Sendable (entry : Msg × Option Record) : Prop where
  length_eq : (Encoder.body entry.1 entry.2).length = entry.1.size
  size_lt : sizeofContent + entry.1.size < 2 ^ 64
  record_lt : ∀ record, entry.2 = some record → record.bytes.length < 2 ^ 32

theorem Sendable.frame_eq {entry : Msg × Option Record} (h : Sendable entry) :
    Encoder.frame entry.1 entry.2 = Encoder.frame (payload entry) none := by
  have hsize : (payload entry).size = entry.1.size := h.length_eq
  have hheader : header (payload entry) = header entry.1 := by
    simp only [header, flags, hsize]
    rfl
  rw [Encoder.frame, Encoder.frame, hheader]
  rfl

theorem frames_eq_stream {queue : List (Msg × Option Record)}
    (hqueue : ∀ entry ∈ queue, Sendable entry) :
    Sender.frames queue = Decoder.stream (queue.map payload) := by
  rw [Sender.frames, Decoder.stream, List.flatMap_map]
  exact List.flatMap_congr fun entry hentry => (hqueue entry hentry).frame_eq

/-- **Round trip.** For every sequence of messages, with the content from the message or
from an external record of the same size, every sequence of output buffers and every way
of cutting the bytes into pieces: the sender hands everything out in enough calls; when it
has, the receiver accepts every piece, no call of `decode` uses more than it was offered,
and at the end of the bytes the reported messages are those that were sent. -/
theorem decode_encode (queue : List (Msg × Option Record))
    (hqueue : ∀ entry ∈ queue, Sendable entry) (calls : List EncodeCall)
    (hcalls : ∀ call ∈ calls, 0 < call.size) (bufsize : ℕ) (hbufsize : 0 < bufsize)
    (reads : List ℕ) (hreads : ∀ available ∈ reads, 0 < available) :
    ∃ s, (Sender.machine queue).runFrom (Sender.machine queue).init calls = some s ∧
      (Sender.work queue ≤ calls.length → s.Finished) ∧
      (s.Finished → ∃ r,
        (Receiver.machine bufsize s.output).runFrom
          (Receiver.machine bufsize s.output).init reads = some r ∧
        (∀ call ∈ r.calls, call.2 ≤ call.1) ∧
        (s.output.length ≤ reads.length → r.wire = []) ∧
        (r.wire = [] → r.messages = queue.map payload)) := by
  obtain ⟨s, hrun, hs⟩ := Sender.Inv.init.run hcalls
  rw [Nat.zero_add] at hs
  refine ⟨s, hrun, hs.finished, fun hfinished => ?_⟩
  have houtput : s.output = Decoder.stream (queue.map payload) := by
    rw [hs.output_of_finished hfinished, frames_eq_stream hqueue]
  have hsizes : ∀ msg ∈ queue.map payload, sizeofContent + msg.size < 2 ^ 64 := by
    intro msg hmsg
    obtain ⟨entry, hentry, rfl⟩ := List.mem_map.mp hmsg
    have hsize : (payload entry).size = entry.1.size := (hqueue entry hentry).length_eq
    rw [hsize]
    exact (hqueue entry hentry).size_lt
  rw [houtput]
  obtain ⟨r, hr, hinv, hwire⟩ :=
    (Receiver.Inv.init bufsize (queue.map payload)).run hsizes hbufsize hreads
  refine ⟨r, hr, hinv.calls_le, fun hlength => ?_, hinv.messages_eq⟩
  rw [← List.length_eq_zero_iff]
  change r.wire.length ≤ (Decoder.stream (queue.map payload)).length - reads.length at hwire
  omega

/-- An empty message, and a command with its bytes in a record. -/
def twoMessages : List (Msg × Option Record) :=
  [(⟨true, false, []⟩, none), (⟨false, true, [0, 0]⟩, some ⟨0, [8, 9]⟩)]

/-- They pass through buffers of one byte. -/
theorem decode_encode_twoMessages :
    ∃ s r, (Sender.machine twoMessages).runFrom (Sender.machine twoMessages).init
        (List.replicate 8 ⟨false, 1⟩) = some s ∧
      (Receiver.machine 1 s.output).runFrom (Receiver.machine 1 s.output).init
        (List.replicate 6 2) = some r ∧
      r.messages = [⟨true, false, []⟩, ⟨false, true, [8, 9]⟩] := by
  have hsendable : ∀ entry ∈ twoMessages, Sendable entry := by
    intro entry hentry
    rcases List.mem_cons.mp hentry with rfl | hentry
    · refine ⟨rfl, by decide, fun record hrecord => ?_⟩
      cases hrecord
    · rw [List.mem_singleton.mp hentry]
      refine ⟨rfl, by decide, fun record hrecord => ?_⟩
      cases hrecord
      decide
  obtain ⟨s, hrun, hfinished, hreceive⟩ := decode_encode twoMessages hsendable
    (List.replicate 8 ⟨false, 1⟩) (by simp) 1 Nat.one_pos (List.replicate 6 2) (by simp)
  have hlength : ((Sender.machine twoMessages).runFrom (Sender.machine twoMessages).init
      (List.replicate 8 ⟨false, 1⟩)).map (fun s => s.output.length) = some 6 := by
    decide +kernel
  rw [hrun, Option.map_some, Option.some.injEq] at hlength
  obtain ⟨r, hr, -, hwire, hmessages⟩ := hreceive (hfinished (by decide))
  exact ⟨s, r, hrun, hr, hmessages (hwire (by rw [hlength]; decide))⟩

end AFStream.Net
