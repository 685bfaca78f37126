/-
# The worker id in front of a connection

A worker that connects to another one sends its id as four bytes, and the listening side
reads them before it creates an engine for the connection. Both do so in a loop that repeats
the whole transfer until all four bytes went through at once: bytes of a shorter transfer are
sent again, or overwritten by the next ones.

The module follows both loops through any segmentation of the stream and determines which
segmentations they survive.
-/

import AFStream.Foundation.Bytes
import AFStream.Foundation.Machine

namespace AFStream.Net

open AFStream.Foundation

/-- `sizeof(int)` -/
def sizeofWorkerId : ℕ := 4

/-- The loops of `tcp_connecter_t::out_event` and `tcp_listener_t::in_event` and the stream
between them. -/
structure WorkerPreamble where
  /-- All bytes that have been sent. -/
  stream : List UInt8
  /-- Where the greeting begins, when the loop of the connecter has ended. -/
  greetingStart : Option ℕ
  /-- What the engine of the connecter has not written of its greeting. -/
  greeting : List UInt8
  /-- How many bytes have been read. -/
  read : ℕ
  peerWorker : Block sizeofWorkerId
  /-- The loop of the listener has ended. -/
  accepted : Bool

/-- A call of `send` by the connecter or by its engine, with the number of bytes that are
accepted, or a call of `recv` by the listener, with the number of bytes that it returns. -/
inductive PreambleCall
  | send (count : ℕ)
  | greet (count : ℕ)
  | recv (count : ℕ)
  deriving DecidableEq, Repr

namespace WorkerPreamble

variable (workerId : UInt32)

/-- One call. A `send` that fails with `EAGAIN` accepts nothing. -/
def step (s : WorkerPreamble) : PreambleCall → Option WorkerPreamble
  | .send count =>
    if s.greetingStart = none ∧ count ≤ sizeofWorkerId then
      let stream := s.stream ++ (Codec.uint32.encode workerId).take count
      some { s with
        stream := stream
        greetingStart := if count = sizeofWorkerId then some stream.length else none }
    else none
  | .greet count =>
    if s.greetingStart = none then none
    else some { s with
      stream := s.stream ++ s.greeting.take count
      greeting := s.greeting.drop count }
  | .recv count =>
    if s.accepted = false ∧ 0 < count ∧ count ≤ sizeofWorkerId ∧
        s.read + count ≤ s.stream.length then
      some { s with
        read := s.read + count
        peerWorker := s.peerWorker.write ((s.stream.drop s.read).take count)
        accepted := count = sizeofWorkerId }
    else none

/-- A new connection. `peer_worker` is -1. -/
def machine (greeting : List UInt8) : Machine WorkerPreamble PreambleCall where
  init :=
    { stream := []
      greetingStart := none
      greeting := greeting
      read := 0
      peerWorker := ⟨List.replicate 4 0xff, rfl⟩
      accepted := false }
  step := step workerId

/-- Both loops have ended. -/
def Ended (s : WorkerPreamble) : Prop := s.greetingStart ≠ none ∧ s.accepted = true

/-- The listener has the id, and the next byte that is read is the first one of the
greeting. -/
def Exact (s : WorkerPreamble) : Prop :=
  Codec.uint32.decode s.peerWorker.bytes = workerId ∧ s.greetingStart = some s.read

/-- The bytes of a transfer that the connecter repeats. -/
def shortSend : PreambleCall → ℕ
  | .send count => if count = sizeofWorkerId then 0 else count
  | _ => 0

/-- The bytes of a transfer that the listener repeats. -/
def shortRecv : PreambleCall → ℕ
  | .recv count => if count = sizeofWorkerId then 0 else count
  | _ => 0

/-- What every call preserves, with the bytes of the repeated transfers so far. -/
structure Inv (sent received : ℕ) (s : WorkerPreamble) : Prop where
  sending : s.greetingStart = none → s.stream.length = sent
  sent : ∀ start, s.greetingStart = some start → start = sent + sizeofWorkerId ∧
    Codec.uint32.encode workerId <+: s.stream.drop sent
  receiving : s.accepted = false → s.read = received
  received : s.accepted = true → s.read = received + sizeofWorkerId ∧
    s.peerWorker.bytes <+: s.stream.drop received

variable {workerId} {s s' : WorkerPreamble} {sent received : ℕ} {greeting : List UInt8}

/-- The stream only grows at its end. -/
theorem prefix_drop_append {bytes stream : List UInt8} {n : ℕ} (h : bytes <+: stream.drop n)
    (more : List UInt8) : bytes <+: (stream ++ more).drop n := by
  rw [List.drop_append]
  exact h.trans (List.prefix_append _ _)

/-- A call of `send` by the connecter. -/
theorem Inv.send (h : s.Inv workerId sent received) {count : ℕ}
    (hstep : s.step workerId (.send count) = some s') :
    s'.Inv workerId (sent + shortSend (.send count)) received := by
  simp only [step] at hstep
  split_ifs at hstep with hsend hwhole
  · subst hwhole
    obtain rfl := Option.some.inj hstep
    have hlength := h.sending hsend.1
    refine ⟨fun hnone => (by cases hnone), fun start hsome => ⟨?_, ?_⟩, h.receiving,
      fun haccepted => ?_⟩
    · rw [← Option.some.inj hsome, List.length_append, hlength]
      rfl
    · change Codec.uint32.encode workerId <+: (s.stream ++ Codec.uint32.encode workerId).drop sent
      rw [← hlength, List.drop_left]
    · exact ⟨(h.received haccepted).1, prefix_drop_append (h.received haccepted).2 _⟩
  · obtain rfl := Option.some.inj hstep
    have hshort : shortSend (.send count) = count := if_neg hwhole
    rw [hshort]
    refine ⟨fun _ => ?_, fun start hsome => (by cases hsome), h.receiving, fun haccepted => ?_⟩
    · rw [List.length_append, h.sending hsend.1, List.length_take_of_le]
      exact hsend.2
    · exact ⟨(h.received haccepted).1, prefix_drop_append (h.received haccepted).2 _⟩

/-- A call of `recv` by the listener. -/
theorem Inv.recv (h : s.Inv workerId sent received) {count : ℕ}
    (hstep : s.step workerId (.recv count) = some s') :
    s'.Inv workerId sent (received + shortRecv (.recv count)) := by
  simp only [step] at hstep
  split_ifs at hstep with hrecv
  obtain rfl := Option.some.inj hstep
  obtain ⟨hopen, -, -, havailable⟩ := hrecv
  have hread := h.receiving hopen
  by_cases hwhole : count = sizeofWorkerId
  · subst hwhole
    have hbytes : ((s.stream.drop s.read).take sizeofWorkerId).length = sizeofWorkerId := by
      rw [List.length_take, List.length_drop]
      omega
    refine ⟨h.sending, h.sent, fun hfalse => (by cases hfalse), fun _ => ⟨?_, ?_⟩⟩
    · change s.read + sizeofWorkerId = _
      rw [hread]
      rfl
    · change (s.peerWorker.write ((s.stream.drop s.read).take sizeofWorkerId)).bytes <+:
        s.stream.drop received
      rw [Block.bytes_write _ hbytes.le, hbytes, List.drop_eq_nil_of_le s.peerWorker.length_eq.le,
        List.append_nil, hread]
      exact List.take_prefix _ _
  · have hshort : shortRecv (.recv count) = count := if_neg hwhole
    rw [hshort]
    refine ⟨h.sending, h.sent, fun _ => ?_, fun htrue => absurd (of_decide_eq_true htrue) hwhole⟩
    change s.read + count = received + count
    rw [hread]

/-- **Step.** -/
theorem Inv.step (h : s.Inv workerId sent received) {call : PreambleCall}
    (hstep : s.step workerId call = some s') :
    s'.Inv workerId (sent + shortSend call) (received + shortRecv call) := by
  cases call with
  | send count => exact h.send hstep
  | recv count => exact h.recv hstep
  | greet count =>
      simp only [WorkerPreamble.step] at hstep
      split_ifs at hstep with hstart
      obtain rfl := Option.some.inj hstep
      refine ⟨fun hnone => absurd hnone hstart, fun start hsome => ?_, h.receiving,
        fun haccepted => ?_⟩
      · exact ⟨(h.sent start hsome).1, prefix_drop_append (h.sent start hsome).2 _⟩
      · exact ⟨(h.received haccepted).1, prefix_drop_append (h.received haccepted).2 _⟩

/-- **Run.** -/
theorem Inv.run {calls : List PreambleCall} (h : s.Inv workerId sent received)
    (hrun : (machine workerId greeting).runFrom s calls = some s') :
    s'.Inv workerId (sent + (calls.map shortSend).sum) (received + (calls.map shortRecv).sum) := by
  induction calls generalizing s sent received with
  | nil =>
      obtain rfl := Option.some.inj hrun
      exact h
  | cons call rest ih =>
      rw [Machine.runFrom_cons, Option.bind_eq_some_iff] at hrun
      obtain ⟨s₁, hstep, hrest⟩ := hrun
      have hlast := ih (h.step hstep) hrest
      rw [List.map_cons, List.map_cons, List.sum_cons, List.sum_cons, ← Nat.add_assoc,
        ← Nat.add_assoc]
      exact hlast

theorem Inv.init (workerId : UInt32) (greeting : List UInt8) :
    (machine workerId greeting).init.Inv workerId 0 0 where
  sending _ := rfl
  sent start hsome := by cases hsome
  receiving _ := rfl
  received htrue := by cases htrue

/-- At the end the transfer is exact if both sides have repeated as many bytes. -/
theorem Inv.exact_iff (h : s.Inv workerId sent received) (hended : s.Ended) :
    s.Exact workerId ↔ sent = received := by
  obtain ⟨start, hstart⟩ := Option.ne_none_iff_exists'.mp hended.1
  obtain ⟨hposition, hid⟩ := h.sent start hstart
  obtain ⟨hread, hbytes⟩ := h.received hended.2
  constructor
  · rintro ⟨-, hgreeting⟩
    have hsame := Option.some.inj (hstart.symm.trans hgreeting)
    omega
  · intro hsame
    subst hsame
    refine ⟨?_, ?_⟩
    · have hlength : s.peerWorker.bytes.length = (Codec.uint32.encode workerId).length :=
        s.peerWorker.length_eq
      rw [(List.prefix_of_prefix_length_le hbytes hid hlength.le).eq_of_length hlength,
        Codec.uint32.decode_encode]
    · rw [hstart, hposition, hread]

/-- **The preamble.** For every worker id and every segmentation, when both loops have ended the
listener has the id and goes on with the first byte of the greeting exactly if the calls of
`send` that were repeated have transferred as many bytes as the calls of `recv` that were
repeated. -/
theorem preamble_exact_iff (workerId : UInt32) (greeting : List UInt8)
    (calls : List PreambleCall) {s : WorkerPreamble}
    (hrun : (machine workerId greeting).runFrom (machine workerId greeting).init calls = some s)
    (hended : s.Ended) :
    s.Exact workerId ↔ (calls.map shortSend).sum = (calls.map shortRecv).sum := by
  have h := (Inv.init workerId greeting).run hrun
  rw [Nat.zero_add, Nat.zero_add] at h
  exact h.exact_iff hended

/-- The socket takes one byte and then two, and the listener gets two and then one. -/
theorem preamble_exact_iff_short_transfers :
    ∃ s, (machine 7 [0xff]).runFrom (machine 7 [0xff]).init
        [.send 1, .send 2, .recv 2, .send 4, .recv 1, .greet 1, .recv 4] = some s ∧
      s.Ended ∧ s.Exact 7 := by
  have hended : ∃ s, (machine 7 [0xff]).runFrom (machine 7 [0xff]).init
      [.send 1, .send 2, .recv 2, .send 4, .recv 1, .greet 1, .recv 4] = some s ∧ s.Ended :=
    ⟨_, rfl, by decide, rfl⟩
  obtain ⟨s, hs, hended⟩ := hended
  exact ⟨s, hs, hended, (preamble_exact_iff 7 [0xff] _ hs hended).mpr (by decide)⟩

/-- The socket takes two bytes of the id 1 first: the listener gets 65537, and reads on in the
middle of the id. -/
theorem preamble_inexact_short_send :
    ¬ ∀ (workerId : UInt32) (greeting : List UInt8) (calls : List PreambleCall)
      (s : WorkerPreamble),
      (machine workerId greeting).runFrom (machine workerId greeting).init calls = some s →
        s.Ended → s.Exact workerId := by
  intro hexact
  have hbytes := (hexact 1 [0xff] [.send 2, .send 4, .recv 4] _ rfl ⟨by decide, rfl⟩).1
  exact absurd hbytes (by decide)

end WorkerPreamble

end AFStream.Net
