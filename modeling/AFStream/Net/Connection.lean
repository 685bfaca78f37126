/-
# One direction of a connection

A record travels from the callback of one engine to the callback of its peer: `out_event` puts it
into frames and hands these to the socket, which takes and delivers any number of bytes at a time,
and `in_event` of the peer takes them apart again. Both engines run whenever their poller wants. The
module shows that the peer has at all times got the first records in order, and that after
`FINISH` it gets all of them exactly under the condition for the output side alone: bytes that the
shortcut of `out_event` loses are not made good by anything behind it.
-/

import AFStream.Net.Framing
import AFStream.Net.Handshake

namespace AFStream.Net

open AFStream.Foundation

/-- The output side of an engine, and the input side of its peer with the bytes on the way. -/
structure Connection where
  sender : StreamEngine
  receiver : Receiver

/-- A call of one of the pollers. -/
inductive ConnectionEvent
  | outEvent (call : OutCall)
  | /-- `in_event` when the socket has got `available` bytes. -/
    inEvent (available : ℕ)

namespace Connection

/-- The engines after the handshake. -/
def create (records : List Record) (finish : Record) : Connection where
  sender := .create (records ++ [finish])
  receiver := .create inBatchSize []

/-- What the socket accepts is put on the way. -/
def step (c : Connection) : ConnectionEvent → Option Connection
  | .outEvent call =>
    (c.sender.outEvent call).map fun sender =>
      { sender := sender
        receiver :=
          { c.receiver with
            wire := c.receiver.wire ++ sender.sent.drop c.sender.sent.length } }
  | .inEvent available => (c.receiver.receive available).map fun receiver => { c with receiver }

/-- Every interleaving. -/
def machine (records : List Record) (finish : Record) : Machine Connection ConnectionEvent where
  init := create records finish
  step := step

/-- The message that arrives for a record. -/
def delivery (record : Record) : Msg := ⟨false, false, record.bytes⟩

end Connection

/-! ## Bytes that are no frames

The peer of an engine that has lost bytes reads on in the middle of frames. Whatever it makes of
them, every message it reports has used at least as many bytes as its frame has. A size that it
takes for one may end the connection, or worse. -/

namespace Decoder

theorem length_header (msg : Msg) : (header msg).length = if msg.size > 255 then 9 else 2 := by
  rw [header]
  split_ifs
  · simp [putUInt64]
  · rfl

/-- No frame is shorter than the one that the encoder writes for the message. -/
theorem length_frame_le {bytes : List UInt8} {msg : Msg} (h : readFrame bytes = some (msg, [])) :
    (Encoder.frame msg none).length ≤ bytes.length := by
  have hlength := length_of_readHeader (readHeader_of_readFrame h)
  rw [List.append_nil] at hlength
  rw [Encoder.frame, List.length_append, length_header]
  exact hlength

end Decoder

namespace Receiver

/-- Of `total` bytes some are on the way and `data` have been read; the messages and the current
frame account for no more than the others. -/
structure Counting (total : ℕ) (r : Receiver) (data : List UInt8) : Prop where
  current : ∃ bytes, r.decoder.Reads bytes ∧
    (Decoder.stream r.messages).length + bytes.length + data.length + r.wire.length ≤ total

variable {r r' : Receiver} {data : List UInt8} {total fuel : ℕ}

/-- The loop on any data. -/
theorem Counting.decodeAll (h : r.Counting total data) {zeroCopy : Bool}
    (hzero : zeroCopy = true → data.length ≤ r.decoder.toRead) (hfuel : data.length ≤ fuel)
    (hloop : Receiver.decodeAll fuel zeroCopy data r = some r') : r'.Counting total [] := by
  induction fuel generalizing r data zeroCopy with
  | zero =>
      obtain rfl : data = [] := List.length_eq_zero_iff.mp (Nat.le_zero.mp hfuel)
      obtain rfl := Option.some.inj hloop
      exact h
  | succ fuel ih =>
      rw [Receiver.decodeAll] at hloop
      by_cases hempty : data = []
      · subst hempty
        rw [if_pos rfl] at hloop
        obtain rfl := Option.some.inj hloop
        exact h
      rw [if_neg hempty] at hloop
      obtain ⟨bytes, hreads, hle⟩ := h.current
      obtain ⟨⟨result, used, d⟩, hdecode, hused⟩ := hreads.decode hempty hzero
      rw [hdecode, Option.bind_some] at hloop
      have hpos : 0 < used := hused.pos
      have hhigh : used ≤ data.length := hused.le
      have hbecame : r.decoder.Became (bytes ++ data.take used) (result, d) := hused.became
      have hlength : (bytes ++ data.take used).length = bytes.length + used := by
        rw [List.length_append, List.length_take_of_le hhigh]
      have hall : result = .more → used = data.length := hused.all_of_more
      cases hbecame with
      | error => cases hloop
      | fault => cases hloop
      | more _ hd =>
          obtain rfl := Option.some.inj hloop
          refine ⟨_, hd, ?_⟩
          rw [hlength, hall rfl]
          dsimp only
          rw [List.length_nil]
          omega
      | message _ hframe _ _ hd =>
          have hdrop : (data.drop used).length = data.length - used := List.length_drop
          have hstream : (Decoder.stream (r.messages ++ [d.inProgress])).length =
              (Decoder.stream r.messages).length + (Encoder.frame d.inProgress none).length := by
            simp [Decoder.stream]
          have hleast := Decoder.length_frame_le hframe
          refine ih ⟨_, hd, ?_⟩ (by simp) (by omega) hloop
          dsimp only
          rw [List.length_nil]
          omega

theorem getBuffer_pos {d : Decoder} (hread : 0 < d.toRead) : 0 < d.getBuffer.2 := by
  rw [Decoder.getBuffer]
  split_ifs with hlarge
  · exact hread
  · exact hread.trans (Nat.lt_of_not_le hlarge)

/-- **Any bytes.** A call of `in_event` that does not end the connection. -/
theorem Counting.receive (h : r.Counting total []) {available : ℕ}
    (hreceive : r.receive available = some r') : r'.Counting total [] := by
  have hcounting : Counting total
      { r with wire := r.wire.drop (min available r.decoder.getBuffer.2) }
      (r.wire.take (min available r.decoder.getBuffer.2)) := by
    obtain ⟨bytes, hreads, hle⟩ := h.current
    refine ⟨bytes, hreads, ?_⟩
    simp only [List.length_nil, List.length_take, List.length_drop] at hle ⊢
    omega
  have hzero : r.decoder.getBuffer.1 = true →
      (r.wire.take (min available r.decoder.getBuffer.2)).length ≤ r.decoder.toRead := by
    rw [Decoder.getBuffer, List.length_take]
    split_ifs with hlarge
    · exact fun _ => (Nat.min_le_left _ _).trans (Nat.min_le_right _ _)
    · exact fun hfalse => hfalse.elim
  exact hcounting.decodeAll hzero le_rfl hreceive

/-- The loop leaves the bytes on the way alone. -/
theorem decodeAll_wire (fuel : ℕ) (zeroCopy : Bool) (data : List UInt8) (r : Receiver)
    (wire : List UInt8) :
    Receiver.decodeAll fuel zeroCopy data { r with wire := wire } =
      (Receiver.decodeAll fuel zeroCopy data r).map fun r => { r with wire := wire } := by
  induction fuel generalizing zeroCopy data r with
  | zero => rfl
  | succ fuel ih =>
      rw [Receiver.decodeAll, Receiver.decodeAll]
      split_ifs
      · rfl
      · dsimp only
        cases r.decoder.decode zeroCopy data with
        | none => rfl
        | some result =>
            obtain ⟨result, used, d⟩ := result
            cases result with
            | error => rfl
            | fault => rfl
            | more => rfl
            | message =>
                simp only [Option.bind_some]
                exact ih false (data.drop used) { r with
                  decoder := d
                  messages := r.messages ++ [d.inProgress]
                  calls := r.calls ++ [(data.length, used)] }

/-- A call takes some of the bytes on the way. -/
theorem wire_receive {available : ℕ} (hreceive : r.receive available = some r') :
    r'.wire = r.wire.drop (min available r.decoder.getBuffer.2) := by
  have hloop := Receiver.decodeAll_wire (r.wire.take (min available r.decoder.getBuffer.2)).length
    r.decoder.getBuffer.1 (r.wire.take (min available r.decoder.getBuffer.2)) r
    (r.wire.drop (min available r.decoder.getBuffer.2))
  obtain ⟨_, -, rfl⟩ := Option.map_eq_some_iff.mp (hloop.symm.trans hreceive)
  rfl

/-- What is still to come does not change what a call does. -/
theorem receive_append (r : Receiver) (future : List UInt8) (available : ℕ) :
    ({ r with wire := r.wire ++ future } : Receiver).receive (min available r.wire.length) =
      (r.receive available).map fun r' =>
        { r' with wire := r.wire.drop (min available r.decoder.getBuffer.2) ++ future } := by
  obtain ⟨n, hn⟩ : ∃ n, n = min available r.decoder.getBuffer.2 := ⟨_, rfl⟩
  have hmin : min (min available r.wire.length) r.decoder.getBuffer.2 = min n r.wire.length := by
    rw [hn]
    omega
  have htake : (r.wire ++ future).take (min n r.wire.length) = r.wire.take n := by
    rw [List.take_append_of_le_length (Nat.min_le_right _ _), ← List.take_eq_take_min]
  have hdrop : (r.wire ++ future).drop (min n r.wire.length) = r.wire.drop n ++ future := by
    rw [List.drop_append_of_le_length (Nat.min_le_right _ _), ← List.drop_eq_drop_min]
  simp only [Receiver.receive]
  rw [hmin, htake, hdrop, ← hn, decodeAll_wire _ _ _ r (r.wire.drop n ++ future),
    decodeAll_wire _ _ _ r (r.wire.drop n), Option.map_map]
  rfl

end Receiver

/-! ## The way of the records -/

namespace Connection

variable {records : List Record} {finish : Record} {c c' : Connection}

/-- The frames of the records are those of the messages that arrive. -/
theorem frames_eq_stream_deliveries (records : List Record) :
    StreamEngine.frames records = Decoder.stream (records.map delivery) := by
  rw [StreamEngine.frames, Decoder.stream, List.flatMap_map]
  refine List.flatMap_congr fun record _ => ?_
  have hsize : (Msg.initSize record.bytes.length).size = (delivery record).size :=
    List.length_replicate
  have hheader : header (.initSize record.bytes.length) = header (delivery record) := by
    simp only [header, flags, hsize]
    rfl
  rw [StreamEngine.recordFrame, Encoder.frame, hheader]
  rfl

/-- The receiver with all the bytes that are still to come on their way. -/
def withFuture (c : Connection) (future : List UInt8) : Receiver :=
  { c.receiver with wire := c.receiver.wire ++ future }

/-- What has been sent is the beginning of the frames, and the receiver is somewhere in them. -/
structure InStream (records : List Record) (finish : Record) (c : Connection) : Prop where
  expects : ∃ future, c.sender.sent ++ future = StreamEngine.frames (records ++ [finish]) ∧
    (c.withFuture future).Inv inBatchSize ((records ++ [finish]).map delivery) []

/-- What holds in every state, also when bytes have been lost. -/
def Counted (c : Connection) : Prop := c.receiver.Counting c.sender.sent.length []

theorem counted_init : (machine records finish).init.Counted :=
  ⟨⟨[], .flags rfl rfl rfl, Nat.zero_le _⟩⟩

theorem inStream_init : (machine records finish).init.InStream records finish := by
  refine ⟨_, List.nil_append _, ?_⟩
  rw [frames_eq_stream_deliveries]
  exact Receiver.Inv.init inBatchSize _

/-- What the socket has accepted stays accepted. -/
theorem sent_isPrefix {e e' : StreamEngine} {call : OutCall} (hstep : e.outEvent call = some e')
    (he : e.Inv records finish) : e.sent <+: e'.sent := by
  rw [StreamEngine.outEvent, if_neg (by rw [StreamEngine.handled_of_outEvent hstep]; decide)]
    at hstep
  obtain ⟨e₁, hrefill, -, -, hsent, -⟩ := he.refill call.available
  rw [hrefill, Option.bind_some] at hstep
  rw [← hsent]
  split_ifs at hstep
  · obtain rfl := Option.some.inj hstep
    exact List.prefix_rfl
  · dsimp only at hstep
    split_ifs at hstep
    · obtain ⟨accepted, -, rfl⟩ := Option.map_eq_some_iff.mp hstep
      exact ⟨_, (List.append_assoc _ _ _).symm⟩
    · obtain rfl := Option.some.inj hstep
      exact ⟨_, rfl⟩

/-- If the call that handles the end of the stream loses bytes, then some are missing. -/
theorem length_sent_lt {e e' : StreamEngine} {call : OutCall} (he : e.Inv records finish)
    (hstep : e.outEvent call = some e') (hhandled : e'.handled = true)
    (hlost : e'.sent ≠ StreamEngine.frames (records ++ [finish])) :
    e'.sent.length < (StreamEngine.frames (records ++ [finish])).length := by
  rcases he.outEvent_cases hstep with ⟨hrunning, -⟩ |
    ⟨-, -, -, -, e₁, hpulled, hphase, hstream, hsent, -, hresult⟩
  · rw [hrunning] at hhandled
    cases hhandled
  obtain ⟨rest, hrest⟩ := StreamEngine.encode_isPrefix_pending hphase
  have hall : StreamEngine.frames (records ++ [finish]) =
      e₁.sent ++ (e₁.out ++ e₁.encoder.pending) := by
    rw [← he.stream_eq, ← hstream, StreamEngine.stream, hpulled.queue_eq]
    simp [StreamEngine.frames]
  have hle : (e₁.out.take call.accept).length ≤ e₁.out.length :=
    (List.take_sublist _ _).length_le
  have hpending := congrArg List.length hrest
  have hlengths := congrArg List.length hall
  have hsents := congrArg List.length hresult
  simp only [List.length_append] at hpending hlengths hsents
  refine lt_of_le_of_ne (by omega) fun heq => hlost ?_
  -- with the same length nothing was cut off
  have htake : e₁.out.take call.accept = e₁.out :=
    (List.take_sublist _ _).eq_of_length (by omega)
  have hempty : rest = [] := List.length_eq_zero_iff.mp (by omega)
  rw [hempty, List.append_nil] at hrest
  rw [hresult, hall, htake, hrest, List.append_assoc]

/-- What a call of `out_event` does to the connection. -/
theorem step_outEvent {call : OutCall} (hstep : c.step (.outEvent call) = some c') :
    c.sender.outEvent call = some c'.sender ∧ c'.receiver = { c.receiver with
      wire := c.receiver.wire ++ c'.sender.sent.drop c.sender.sent.length } := by
  obtain ⟨sender, hsender, rfl⟩ := Option.map_eq_some_iff.mp hstep
  exact ⟨hsender, rfl⟩

/-- What a call of `in_event` does to the connection. -/
theorem step_inEvent {available : ℕ} (hstep : c.step (.inEvent available) = some c') :
    c'.sender = c.sender ∧ c.receiver.receive available = some c'.receiver := by
  obtain ⟨receiver, hreceiver, rfl⟩ := Option.map_eq_some_iff.mp hstep
  exact ⟨rfl, hreceiver⟩

/-- Bytes are read, whatever they are. -/
theorem Counted.inEvent (h : c.Counted) {available : ℕ}
    (hstep : c.step (.inEvent available) = some c') : c'.Counted := by
  obtain ⟨hsender, hreceive⟩ := step_inEvent hstep
  rw [Counted, hsender]
  exact Receiver.Counting.receive h hreceive

/-- More bytes are on the way, and they have been accepted. -/
theorem Counted.outEvent (h : c.Counted) (hsent : c.sender.sent <+: c'.sender.sent)
    (hreceiver : c'.receiver = { c.receiver with
      wire := c.receiver.wire ++ c'.sender.sent.drop c.sender.sent.length }) : c'.Counted := by
  obtain ⟨bytes, hreads, hle⟩ := h.current
  have hlength := hsent.length_le
  rw [Counted, hreceiver]
  refine ⟨bytes, hreads, ?_⟩
  dsimp only
  rw [List.length_append, List.length_drop]
  omega

/-- More bytes are on the way, and they are the next ones of the frames. -/
theorem InStream.outEvent (h : c.InStream records finish)
    (hsent : c.sender.sent <+: c'.sender.sent)
    (hframes : c'.sender.sent <+: StreamEngine.frames (records ++ [finish]))
    (hreceiver : c'.receiver = { c.receiver with
      wire := c.receiver.wire ++ c'.sender.sent.drop c.sender.sent.length }) :
    c'.InStream records finish := by
  obtain ⟨future, hfuture, hinv⟩ := h.expects
  obtain ⟨piece, hpiece⟩ := hsent
  obtain ⟨future', hfuture'⟩ := hframes
  have hsplit : future = piece ++ future' := by
    rw [← hpiece, List.append_assoc] at hfuture'
    exact List.append_cancel_left (hfuture.trans hfuture'.symm)
  refine ⟨future', hfuture', ?_⟩
  have hsame : c'.withFuture future' = c.withFuture future := by
    rw [withFuture, withFuture, hreceiver, ← hpiece, List.drop_left, hsplit, ← List.append_assoc]
  rw [hsame]
  exact hinv

variable (hsizes : ∀ record ∈ records ++ [finish], record.bytes.length < 2 ^ 32)

include hsizes

/-- Bytes are read, and the receiver is behind them in the frames. -/
theorem InStream.exists_inEvent (h : c.InStream records finish) (available : ℕ) :
    ∃ c', c.step (.inEvent available) = some c' ∧ c'.InStream records finish := by
  obtain ⟨future, hfuture, hinv⟩ := h.expects
  have happend := Receiver.receive_append c.receiver future available
  have hmsgs : ∀ msg ∈ (records ++ [finish]).map delivery, sizeofContent + msg.size < 2 ^ 64 := by
    intro msg hmsg
    obtain ⟨record, hrecord, rfl⟩ := List.mem_map.mp hmsg
    have hsize : (delivery record).size < 2 ^ 32 := hsizes record hrecord
    rw [sizeofContent]
    omega
  obtain ⟨r', hr', hinv'⟩ : ∃ r',
      (c.withFuture future).receive (min available c.receiver.wire.length) = some r' ∧
        r'.Inv inBatchSize ((records ++ [finish]).map delivery) [] := by
    rcases Nat.eq_zero_or_pos (min available c.receiver.wire.length) with hzero | hpos
    · -- nothing is read
      refine ⟨c.withFuture future, ?_, hinv⟩
      rw [hzero]
      simp [Receiver.receive, Receiver.decodeAll, withFuture]
    · obtain ⟨r', hr', hinv', -⟩ := hinv.receive hmsgs (by decide) hpos
      exact ⟨r', hr', hinv'⟩
  rw [withFuture, happend] at hr'
  obtain ⟨receiver, hreceiver, rfl⟩ := Option.map_eq_some_iff.mp hr'
  refine ⟨{ c with receiver }, Option.map_eq_some_iff.mpr ⟨receiver, hreceiver, rfl⟩, future,
    hfuture, ?_⟩
  rw [withFuture, Receiver.wire_receive hreceiver]
  exact hinv'

/-- Every call that reads. -/
theorem InStream.inEvent (h : c.InStream records finish) {available : ℕ}
    (hstep : c.step (.inEvent available) = some c') : c'.InStream records finish := by
  obtain ⟨c₁, hstep₁, h₁⟩ := h.exists_inEvent hsizes available
  obtain rfl := Option.some.inj (hstep.symm.trans hstep₁)
  exact h₁

omit hsizes in
/-- A receiver in the frames has reported the first messages. -/
theorem InStream.messages_isPrefix (h : c.InStream records finish) :
    c.receiver.messages <+: (records ++ [finish]).map delivery := by
  obtain ⟨future, -, hinv⟩ := h.expects
  obtain ⟨rest, hrest, -⟩ := hinv.reported
  exact ⟨rest, hrest.symm⟩

/-- Nothing has been lost as long as the end of the stream has not been handled. -/
structure Inv (records : List Record) (finish : Record) (c : Connection) : Prop where
  counted : c.Counted
  running : c.sender.handled = false →
    c.sender.Inv records finish ∧ c.InStream records finish

theorem Inv.step (h : c.Inv records finish) {event : ConnectionEvent}
    (hstep : c.step event = some c') : c'.Inv records finish := by
  cases event with
  | outEvent call =>
      obtain ⟨hsender, hreceiver⟩ := step_outEvent hstep
      obtain ⟨hengine, hstream⟩ := h.running (StreamEngine.handled_of_outEvent hsender)
      have hsent := sent_isPrefix hsender hengine
      refine ⟨h.counted.outEvent hsent hreceiver, fun hopen => ?_⟩
      rcases hengine.outEvent_cases hsender with ⟨-, hengine'⟩ | ⟨hhandled, -⟩
      · have hframes : c'.sender.sent <+: StreamEngine.frames (records ++ [finish]) := by
          rw [← hengine'.stream_eq, StreamEngine.stream, List.append_assoc, List.append_assoc]
          exact List.prefix_append _ _
        exact ⟨hengine', hstream.outEvent hsent hframes hreceiver⟩
      · rw [hopen] at hhandled
        cases hhandled
  | inEvent available =>
      refine ⟨h.counted.inEvent hstep, fun hopen => ?_⟩
      rw [(step_inEvent hstep).1] at hopen ⊢
      obtain ⟨hengine, hstream⟩ := h.running hopen
      exact ⟨hengine, hstream.inEvent hsizes hstep⟩

theorem Inv.reachable (hreach : (machine records finish).Reachable c) : c.Inv records finish := by
  refine Machine.Reachable.invariant (Inv records finish) ?_ (fun h => h.step hsizes) hreach
  exact ⟨counted_init, fun _ => ⟨StreamEngine.Inv.init, inStream_init⟩⟩

/-- **First records first.** For all records and every interleaving of the two engines, with any
number of bytes taken and delivered by every call: until the sender has handled the end of its
stream the messages at the peer are the first records in order. -/
theorem delivered_isPrefix (hreach : (machine records finish).Reachable c)
    (hopen : c.sender.handled = false) :
    c.receiver.messages <+: (records ++ [finish]).map delivery :=
  ((Inv.reachable hsizes hreach).running hopen).2.messages_isPrefix

omit hsizes in
/-- The first of two records arrives in two pieces. -/
theorem delivered_isPrefix_first_of_two :
    ∃ c, (machine [⟨0, [5]⟩] ⟨1, [7]⟩).Reachable c ∧ c.receiver.messages = [⟨false, false, [5]⟩] ∧
      c.receiver.messages <+: [⟨false, false, [5]⟩, ⟨false, false, [7]⟩] := by
  have hrun : ((machine [⟨0, [5]⟩] ⟨1, [7]⟩).runFrom (machine [⟨0, [5]⟩] ⟨1, [7]⟩).init
      [.outEvent ⟨1, 2, []⟩, .inEvent 1, .outEvent ⟨0, 1, []⟩, .inEvent 5]).map
        (fun c => (c.sender.handled, c.receiver.messages)) =
      some (false, [⟨false, false, [5]⟩]) := by
    decide +kernel
  obtain ⟨c, hc, hstate⟩ := Option.map_eq_some_iff.mp hrun
  rw [Prod.mk.injEq] at hstate
  exact ⟨c, ⟨_, hc⟩, hstate.2, delivered_isPrefix (by decide) ⟨_, hc⟩ hstate.1⟩

/-- Reading goes on as long as the bytes are those of the frames. -/
theorem InStream.exists_run (h : c.InStream records finish) (reads : List ℕ) :
    ∃ last, (machine records finish).runFrom c (reads.map .inEvent) = some last := by
  induction reads generalizing c with
  | nil => exact ⟨c, rfl⟩
  | cons available rest ih =>
      obtain ⟨c₁, hstep, h₁⟩ := h.exists_inEvent hsizes available
      obtain ⟨last, hrun⟩ := ih h₁
      refine ⟨last, ?_⟩
      rw [List.map_cons, Machine.runFrom_cons]
      change (c.step (.inEvent available)).bind _ = _
      rw [hstep]
      exact hrun

/-- What is left when reading has gone on until nothing is on the way. -/
theorem Counted.drain (h : c.Counted) {reads : List ℕ} (hreads : ∀ available ∈ reads, 0 < available)
    (hlength : c.receiver.wire.length ≤ reads.length)
    (hrun : (machine records finish).runFrom c (reads.map .inEvent) = some c') :
    c'.Counted ∧ c'.sender = c.sender ∧ c'.receiver.wire = [] ∧
      (c.InStream records finish → c'.InStream records finish) := by
  induction reads generalizing c with
  | nil =>
      obtain rfl := Option.some.inj hrun
      exact ⟨h, rfl, List.length_eq_zero_iff.mp (Nat.le_zero.mp hlength), id⟩
  | cons available rest ih =>
      rw [List.forall_mem_cons] at hreads
      rw [List.map_cons, Machine.runFrom_cons] at hrun
      obtain ⟨c₁, hstep, hrest⟩ := Option.bind_eq_some_iff.mp hrun
      obtain ⟨hsender, hreceive⟩ := step_inEvent hstep
      have hshorter : c₁.receiver.wire.length ≤ rest.length := by
        obtain ⟨_, hcurrent, -⟩ := h.current
        have hsize := Receiver.getBuffer_pos hcurrent.toRead_pos
        rw [List.length_cons] at hlength
        rw [Receiver.wire_receive hreceive, List.length_drop]
        omega
      obtain ⟨hcounted, hlast, hwire, hstream⟩ :=
        ih (h.inEvent hstep) hreads.2 hshorter hrest
      exact ⟨hcounted, hlast.trans hsender, hwire, fun hc => hstream (hc.inEvent hsizes hstep)⟩

omit hsizes in
/-- With nothing on the way, the messages are complete exactly if all bytes have been sent. -/
theorem Counted.messages_eq_iff (h : c.Counted) (hwire : c.receiver.wire = [])
    (hstream : c.sender.sent = StreamEngine.frames (records ++ [finish]) →
      c.InStream records finish)
    (hlost : c.sender.sent ≠ StreamEngine.frames (records ++ [finish]) →
      c.sender.sent.length < (StreamEngine.frames (records ++ [finish])).length) :
    c.receiver.messages = (records ++ [finish]).map delivery ↔
      c.sender.sent = StreamEngine.frames (records ++ [finish]) := by
  constructor
  · intro hmessages
    by_contra hsent
    obtain ⟨_, -, haccounted⟩ := h.current
    rw [hmessages, ← frames_eq_stream_deliveries] at haccounted
    have hlength := hlost hsent
    omega
  · intro hsent
    obtain ⟨future, hfuture, hinv⟩ := (hstream hsent).expects
    have hempty : future = [] := by
      rw [hsent] at hfuture
      exact List.append_right_eq_self.mp hfuture
    refine hinv.messages_eq ?_
    rw [withFuture, hwire, hempty]
    rfl

/-- **All records in the end.** When a call of `out_event` has handled the end of the stream, the
peer can read on until nothing is on the way, which takes at most one call for each byte, and the
messages at the peer are then all records and `FINISH` exactly when that call offered its batch to
a socket that took all of it, and the bytes behind that batch did not exceed both the body of
`FINISH` and the encoder's buffer. -/
theorem delivered_complete_iff (hreach : (machine records finish).Reachable c) {call : OutCall}
    (hstep : c.step (.outEvent call) = some c') (hhandled : c'.sender.handled = true)
    {reads : List ℕ} (hreads : ∀ available ∈ reads, 0 < available)
    (hlength : c'.receiver.wire.length ≤ reads.length) :
    (∃ last, (machine records finish).runFrom c' (reads.map .inEvent) = some last ∧
      last.receiver.messages = (records ++ [finish]).map delivery) ↔
        call.accept = min outBatchSize (StreamEngine.unsent records finish c.sender) ∧
          StreamEngine.unsent records finish c.sender ≤
            outBatchSize + max finish.bytes.length outBatchSize := by
  have hinv := Inv.reachable hsizes hreach
  obtain ⟨hsender, hreceiver⟩ := step_outEvent hstep
  obtain ⟨hengine, hstream⟩ := hinv.running (StreamEngine.handled_of_outEvent hsender)
  have hsent := sent_isPrefix hsender hengine
  have hcounted := (hinv.step hsizes hstep).counted
  have hcomplete : c'.sender.sent = StreamEngine.frames (records ++ [finish]) →
      c'.InStream records finish :=
    fun hall => hstream.outEvent hsent (by rw [hall]) hreceiver
  rw [← hengine.sent_eq_frames_iff hsender hhandled]
  -- what the peer has got behind a run that reads everything
  have hlast : ∀ {last}, (machine records finish).runFrom c' (reads.map .inEvent) = some last →
      (last.receiver.messages = (records ++ [finish]).map delivery ↔
        c'.sender.sent = StreamEngine.frames (records ++ [finish])) := by
    intro last hrun
    obtain ⟨hcounted', hsame, hwire, hkeep⟩ := hcounted.drain hsizes hreads hlength hrun
    rw [← hsame]
    refine hcounted'.messages_eq_iff hwire (fun hall => ?_) (fun hlost => ?_)
    · rw [hsame] at hall
      exact hkeep (hcomplete hall)
    · rw [hsame] at hlost ⊢
      exact length_sent_lt hengine hsender hhandled hlost
  constructor
  · rintro ⟨last, hrun, hmessages⟩
    exact (hlast hrun).mp hmessages
  · intro hall
    obtain ⟨last, hrun⟩ := (hcomplete hall).exists_run hsizes reads
    exact ⟨last, hrun, (hlast hrun).mpr hall⟩

omit hsizes in
/-- Two records and a `FINISH` of one byte that the socket takes at once arrive. -/
theorem delivered_complete_iff_all_accepted :
    ∃ c last, (machine [⟨0, [5]⟩, ⟨1, [6]⟩] ⟨2, [7]⟩).init.step (.outEvent ⟨3, 9, []⟩) = some c ∧
      (machine [⟨0, [5]⟩, ⟨1, [6]⟩] ⟨2, [7]⟩).runFrom c ((List.replicate 9 1).map .inEvent) =
        some last ∧
      last.receiver.messages =
        [⟨false, false, [5]⟩, ⟨false, false, [6]⟩, ⟨false, false, [7]⟩] := by
  have hrun : ((machine [⟨0, [5]⟩, ⟨1, [6]⟩] ⟨2, [7]⟩).init.step (.outEvent ⟨3, 9, []⟩)).map
      (fun c => (c.sender.handled, c.receiver.wire.length)) = some (true, 9) := by
    decide +kernel
  obtain ⟨c, hstep, hstate⟩ := Option.map_eq_some_iff.mp hrun
  rw [Prod.mk.injEq] at hstate
  obtain ⟨last, hlast, hmessages⟩ := (delivered_complete_iff (by decide) Machine.reachable_init
    hstep hstate.1 (show ∀ available ∈ List.replicate 9 1, 0 < available by decide)
    hstate.2.le).mpr (by decide)
  exact ⟨c, last, hstep, hlast, hmessages⟩

end Connection

end AFStream.Net
