/-
# The output side of the stream engine

`out_event` collects frames from the encoder until a batch is full or the callback
has nothing more, offers the batch to the socket and keeps what was not accepted for
the next call. When `FINISH` has been pulled it takes a shortcut: after one write it
replaces the batch by what the encoder still has and writes that to the end. The
module models both paths with an arbitrary socket and determines exactly when the
shortcut loses bytes.
-/

import AFStream.Foundation.Machine
import AFStream.Net.Encoder

namespace AFStream.Net

open AFStream.Foundation

/-- `out_batch_size`, also the size of the encoder's own buffer. -/
def outBatchSize : ℕ := 1024 * 128

/-- The members of `stream_engine_t` that `out_event` uses, the records that the
callback will return (the last one is `FINISH`) and the bytes accepted by the socket
so far. -/
structure StreamEngine where
  encoder : Encoder
  /-- The `outsize` bytes at `outpos`. -/
  out : List UInt8
  /-- `outpos` is `NULL`. -/
  outNull : Bool
  /-- The slot that `outpos` points into, if any. -/
  outOrigin : Option ℕ
  outputStopped : Bool
  queue : List Record
  sent : List UInt8
  /-- `output_stopped` has been handled and polling for output has ended. -/
  handled : Bool

/-- One call of `out_event`: how many records the callback has for it, how many bytes
the first write accepts, and how many the writes of the shortcut accept. -/
structure OutCall where
  available : ℕ
  accept : ℕ
  accepts : List ℕ

namespace StreamEngine

/-- The engine after the handshake. -/
def create (queue : List Record) : StreamEngine where
  encoder := .create
  out := []
  outNull := true
  outOrigin := none
  outputStopped := false
  queue := queue
  sent := []
  handled := false

/-- The loop that fills the batch. `pull_and_encode` wraps a record into a message of
its size; `PullRecord` answers `1` for the last record and `NULL` when `available`
records have been returned. -/
def fillLoop : ℕ → StreamEngine → Option StreamEngine
  | 0, e => some e
  | available + 1, e =>
    if e.out.length < outBatchSize then
      match e.queue with
      | [] => some e
      | record :: rest =>
        (e.encoder.loadMsg (.initSize record.bytes.length) (some record)).bind fun encoder =>
          let (chunk, encoder) := encoder.encode e.outNull (outBatchSize - e.out.length)
          let e := { e with
            encoder := encoder
            out := e.out ++ chunk.bytes
            outNull := false
            queue := rest }
          if rest = [] then some { e with outputStopped := true } else fillLoop available e
    else some e

/-- The first part of `out_event`: if the write buffer is empty, try to read new data
from the encoder. -/
def refill (e : StreamEngine) (available : ℕ) : Option StreamEngine :=
  if e.out = [] then
    let (chunk, encoder) := e.encoder.encode true outBatchSize
    fillLoop available { e with
      encoder := encoder
      out := chunk.bytes
      outNull := e.encoder.inProgress = none
      outOrigin := chunk.origin }
  else some e

/-- Writes until nothing is left, each accepting the given number of bytes; undefined
if the list does not describe such writes. -/
def writeAll : List ℕ → List UInt8 → Option (List UInt8)
  | [], [] => some []
  | n :: rest, b :: bytes =>
    if n ≤ (b :: bytes).length then
      (writeAll rest ((b :: bytes).drop n)).map ((b :: bytes).take n ++ ·)
    else none
  | _, _ => none

/-- `out_event` -/
def outEvent (e : StreamEngine) (call : OutCall) : Option StreamEngine :=
  if e.handled then none
  else
    (e.refill call.available).bind fun e =>
      if e.out = [] then some e
      else if call.accept ≤ e.out.length then
        let e := { e with
          sent := e.sent ++ e.out.take call.accept
          out := e.out.drop call.accept }
        if e.outputStopped then
          let (chunk, encoder) := e.encoder.encode true outBatchSize
          (writeAll call.accepts chunk.bytes).map fun accepted =>
            { e with
              encoder := encoder
              out := []
              outOrigin := none
              sent := e.sent ++ accepted
              handled := true }
        else some e
      else none

/-- Every schedule of calls, for a sequence of records that ends with `FINISH`. -/
def machine (records : List Record) (finish : Record) : Machine StreamEngine OutCall where
  init := create (records ++ [finish])
  step := outEvent

/-- The v2 frame of a record. -/
def recordFrame (record : Record) : List UInt8 :=
  Encoder.frame (.initSize record.bytes.length) (some record)

/-- The stream that the peer should get. -/
def frames (records : List Record) : List UInt8 := records.flatMap recordFrame

/-! ## Nothing is lost before `FINISH` -/

/-- All bytes of the stream: accepted, in the write buffer, in the encoder or still in
the callback. -/
def stream (e : StreamEngine) : List UInt8 :=
  e.sent ++ e.out ++ e.encoder.pending ++ frames e.queue

/-- What every call preserves until `FINISH` is pulled. -/
structure Inv (records : List Record) (finish : Record) (e : StreamEngine) : Prop where
  phase : e.encoder.Phase
  stream_eq : e.stream = frames (records ++ [finish])
  running : e.outputStopped = false
  suffix : ∃ taken, records ++ [finish] = taken ++ e.queue

theorem writeAll_eq {accepts : List ℕ} {bytes accepted : List UInt8}
    (hwrite : writeAll accepts bytes = some accepted) : accepted = bytes := by
  induction accepts generalizing bytes accepted with
  | nil =>
      cases bytes with
      | nil => exact (Option.some.inj hwrite).symm
      | cons b bytes => cases hwrite
  | cons n rest ih =>
      cases bytes with
      | nil => cases hwrite
      | cons b bytes =>
          simp only [writeAll] at hwrite
          split_ifs at hwrite
          obtain ⟨tail, htail, rfl⟩ := Option.map_eq_some_iff.mp hwrite
          rw [ih htail, List.take_append_drop]

/-- The engine between two iterations of the filling loop. -/
structure Filling (e : StreamEngine) : Prop where
  phase : e.encoder.Phase
  idle : e.out.length < outBatchSize → e.encoder.inProgress = none
  null : e.outNull = true → e.out = []

/-- The engine when `FINISH` has just been pulled: the batch is full or the encoder has
nothing left. -/
structure Pulled (finish : Record) (e : StreamEngine) : Prop where
  stopped : e.outputStopped = true
  queue_eq : e.queue = []
  out_ne : e.out ≠ []
  length_le : e.out.length ≤ outBatchSize
  idle : e.out.length < outBatchSize → e.encoder.inProgress = none
  body_eq : ∀ msg, e.encoder.inProgress = some msg →
    Encoder.body msg e.encoder.data = finish.bytes

/-- `FINISH` is among the records that the callback has, and all that is before it leaves
room in the batch. -/
structure WithinReach (e : StreamEngine) (available : ℕ) : Prop where
  length_le : e.queue.length ≤ available
  room : (e.out ++ e.encoder.pending ++ frames e.queue.dropLast).length < outBatchSize

instance (e : StreamEngine) (available : ℕ) : Decidable (e.WithinReach available) :=
  decidable_of_iff (_ ∧ _) ⟨fun h => ⟨h.1, h.2⟩, fun h => ⟨h.length_le, h.room⟩⟩

variable {e e' : StreamEngine} {records : List Record} {finish : Record} {available : ℕ}

/-- One iteration of the filling loop, up to the result of `PullRecord`. -/
theorem Filling.iterate (he : e.Filling) (hroom : e.out.length < outBatchSize)
    (record : Record) :
    ∃ encoder chunk encoder',
      e.encoder.loadMsg (.initSize record.bytes.length) (some record) = some encoder ∧
      encoder.encode e.outNull (outBatchSize - e.out.length) = (chunk, encoder') ∧
      encoder'.Phase ∧ chunk.bytes ≠ [] ∧ e.out.length + chunk.bytes.length ≤ outBatchSize ∧
      (e.out.length + chunk.bytes.length < outBatchSize → encoder'.inProgress = none) ∧
      chunk.bytes ++ encoder'.pending = recordFrame record ∧
      (∀ msg, encoder'.inProgress = some msg →
        Encoder.body msg encoder'.data = record.bytes) ∧
      chunk.origin = none := by
  obtain ⟨encoder, hload, hphase, hmsg, hdata, hpending, hfirst⟩ :=
    Encoder.loadMsg_eq_some he.phase (he.idle hroom) (.initSize record.bytes.length) (some record)
  have hsize : 0 < outBatchSize - e.out.length := by omega
  have hbatch : 9 < outBatchSize := by decide
  have hcopied : Encoder.Copied (outBatchSize - e.out.length) [] encoder
      (encoder.encode e.outNull (outBatchSize - e.out.length)) := by
    apply Encoder.encode_copied hphase hsize
    intro hnull
    rw [he.null hnull, List.length_nil]
    omega
  obtain ⟨⟨chunk, encoder'⟩, hresult⟩ :
      ∃ result, encoder.encode e.outNull (outBatchSize - e.out.length) = result := ⟨_, rfl⟩
  rw [hresult] at hcopied
  have hbytes : chunk.bytes = encoder.pending.take (outBatchSize - e.out.length) :=
    hcopied.bytes_eq
  have hlength : chunk.bytes.length =
      min (outBatchSize - e.out.length) encoder.pending.length := by
    rw [hbytes, List.length_take]
  have hpos : 0 < encoder.pending.length := by
    rw [hpending, Encoder.frame, List.length_append]
    have := Encoder.length_header_pos (.initSize record.bytes.length)
    omega
  refine ⟨encoder, chunk, encoder', hload, hresult, hcopied.phase, ?_, ?_, ?_, ?_, ?_,
    hcopied.origin_eq⟩
  · intro hempty
    rw [hempty, List.length_nil] at hlength
    omega
  · omega
  · intro hless
    refine hcopied.idle_iff.mpr ?_
    rw [List.nil_append]
    omega
  · rw [hbytes, hcopied.pending_eq, List.nil_append, List.take_append_drop, hpending]
    rfl
  · intro msg hinProgress
    obtain ⟨hsame, hdata'⟩ := hcopied.same msg hinProgress
    rw [show encoder'.data = some record from hdata'.trans hdata]
    rfl

/-- The filling loop never fails and keeps the stream; if it pulls the last record the
engine is in the state described above. -/
theorem fillLoop_spec (he : e.Filling) (hrun : e.outputStopped = false) :
    ∃ e', fillLoop available e = some e' ∧ e'.encoder.Phase ∧ e'.stream = e.stream ∧
      e'.sent = e.sent ∧ e'.handled = e.handled ∧ (∃ taken, e.queue = taken ++ e'.queue) ∧
      (e'.outputStopped = false ∨
        e.WithinReach available ∧ ∃ record ∈ e.queue.getLast?, Pulled record e') := by
  induction available generalizing e with
  | zero => exact ⟨e, rfl, he.phase, rfl, rfl, rfl, ⟨[], rfl⟩, .inl hrun⟩
  | succ available ih =>
      by_cases hroom : e.out.length < outBatchSize
      · cases hqueue : e.queue with
        | nil =>
            refine ⟨e, ?_, he.phase, rfl, rfl, rfl, ⟨[], by simp [hqueue]⟩, .inl hrun⟩
            simp [fillLoop, hroom, hqueue]
        | cons record rest =>
            obtain ⟨encoder, chunk, encoder', hload, hencode, hphase, hne, hle, hidle, hframe,
              hbody, -⟩ := he.iterate hroom record
            have hpending : e.encoder.pending = [] :=
              Encoder.pending_of_inProgress_none he.phase (he.idle hroom)
            obtain ⟨e₁, he₁⟩ : ∃ e₁ : StreamEngine, e₁ = { e with
              encoder := encoder'
              out := e.out ++ chunk.bytes
              outNull := false
              queue := rest } := ⟨_, rfl⟩
            have hstream : e₁.stream = e.stream := by
              simp only [stream, he₁, hpending, hqueue, frames, List.flatMap_cons, ← hframe,
                List.append_assoc, List.nil_append]
            have hnext : fillLoop (available + 1) e =
                if rest = [] then some { e₁ with outputStopped := true }
                else fillLoop available e₁ := by
              rw [fillLoop, if_pos hroom, hqueue]
              simp only [hload, Option.bind_some, hencode, he₁]
            by_cases hrest : rest = []
            · refine ⟨{ e₁ with outputStopped := true }, by rw [hnext, if_pos hrest], ?_, hstream,
                ?_, ?_, ?_, ?_⟩
              · simpa [he₁] using hphase
              · simp [he₁]
              · simp [he₁]
              · exact ⟨[record], by simp [he₁, hrest]⟩
              · refine .inr ⟨⟨by simp [hqueue, hrest], ?_⟩, record, by simp [hrest], ?_⟩
                · simpa [hqueue, hrest, frames, hpending] using hroom
                refine ⟨rfl, by simp [he₁, hrest], by simp [he₁, hne], ?_, ?_, ?_⟩
                · simpa [he₁] using hle
                · simpa [he₁] using hidle
                · simpa [he₁] using hbody
            · have hfilling : e₁.Filling := by
                refine ⟨?_, ?_, ?_⟩
                · simpa [he₁] using hphase
                · simpa [he₁] using hidle
                · simp [he₁]
              obtain ⟨e', hloop, hphase', hstream', hsent, hhandled, ⟨taken, htaken⟩, hstop⟩ :=
                ih hfilling (by simpa [he₁] using hrun)
              have hqueue₁ : e₁.queue = rest := by rw [he₁]
              rw [hqueue₁] at htaken hstop
              refine ⟨e', by rw [hnext, if_neg hrest, hloop], hphase', hstream'.trans hstream,
                by rw [hsent, he₁], by rw [hhandled, he₁], ⟨record :: taken, by simp [htaken]⟩, ?_⟩
              rcases hstop with hrunning | ⟨hreach, last, hlast, hpulled⟩
              · exact .inl hrunning
              · refine .inr ⟨⟨?_, ?_⟩, last, ?_, hpulled⟩
                · have hlength := hreach.length_le
                  rw [hqueue₁] at hlength
                  simpa [hqueue] using hlength
                · have hlength := hreach.room
                  simp only [he₁, List.length_append, frames] at hlength
                  simp only [hqueue, List.dropLast_cons_of_ne_nil hrest, hpending, ← hframe, frames,
                    List.flatMap_cons, List.length_append, List.length_nil]
                  omega
                · rw [List.getLast?_cons, Option.mem_def.mp hlast]
                  rfl
      · refine ⟨e, ?_, he.phase, rfl, rfl, rfl, ⟨[], rfl⟩, .inl hrun⟩
        simp [fillLoop, hroom]

/-- The first `encode` of a call into an empty write buffer. -/
theorem filling_of_encode (hphase : e.encoder.Phase) {chunk : Chunk} {encoder : Encoder}
    (hencode : e.encoder.encode true outBatchSize = (chunk, encoder)) :
    Filling { e with
        encoder := encoder
        out := chunk.bytes
        outNull := e.encoder.inProgress = none
        outOrigin := chunk.origin } ∧
      chunk.bytes ++ encoder.pending = e.encoder.pending := by
  have hnull : e.encoder.inProgress = none → e.encoder.pending = [] :=
    Encoder.pending_of_inProgress_none hphase
  rcases Encoder.encode_fresh_cases hphase (show 9 < outBatchSize by decide) with hcopied | hzero
  · rw [hencode] at hcopied
    have hbytes : chunk.bytes ++ encoder.pending = e.encoder.pending := by
      rw [hcopied.bytes_eq, hcopied.pending_eq, List.nil_append, List.take_append_drop]
    refine ⟨⟨hcopied.phase, fun hroom => ?_, fun h => ?_⟩, hbytes⟩
    · have hlength : chunk.bytes.length = min outBatchSize e.encoder.pending.length := by
        rw [← List.length_take]
        exact congrArg List.length hcopied.bytes_eq
      refine hcopied.idle_iff.mpr ?_
      change chunk.bytes.length < outBatchSize at hroom
      rw [List.nil_append]
      omega
    · rw [hnull (of_decide_eq_true h)] at hbytes
      exact (List.append_eq_nil_iff.mp hbytes).1
  · rw [hencode] at hzero
    have hbytes : chunk.bytes ++ encoder.pending = e.encoder.pending := by
      rw [hzero.bytes_eq, hzero.pending_eq, List.append_nil]
    refine ⟨⟨hzero.phase, fun hroom => ?_, fun h => ?_⟩, hbytes⟩
    · exact absurd hzero.length_ge (Nat.not_le_of_lt hroom)
    · rw [hnull (of_decide_eq_true h)] at hbytes
      exact (List.append_eq_nil_iff.mp hbytes).1

/-- `refill` never fails and keeps the stream. -/
theorem Inv.refill (he : e.Inv records finish) (available : ℕ) :
    ∃ e', e.refill available = some e' ∧ e'.encoder.Phase ∧ e'.stream = e.stream ∧
      e'.sent = e.sent ∧ e'.handled = e.handled ∧
      (∃ taken, records ++ [finish] = taken ++ e'.queue) ∧
      (e'.outputStopped = false ∨ e.out = [] ∧ e.WithinReach available ∧ Pulled finish e') := by
  by_cases hout : e.out = []
  · obtain ⟨⟨chunk, encoder⟩, hencode⟩ :
        ∃ result, e.encoder.encode true outBatchSize = result := ⟨_, rfl⟩
    obtain ⟨hfilling, hbytes⟩ := filling_of_encode he.phase hencode
    obtain ⟨e', hloop, hphase, hstream, hsent, hhandled, ⟨taken, htaken⟩, hstop⟩ :=
      fillLoop_spec hfilling he.running
    obtain ⟨before, hbefore⟩ := he.suffix
    refine ⟨e', ?_, hphase, ?_, hsent, hhandled, ⟨before ++ taken, ?_⟩, ?_⟩
    · rw [StreamEngine.refill, if_pos hout, hencode]
      exact hloop
    · rw [hstream]
      simp only [stream, hout, ← hbytes, List.append_nil, List.append_assoc]
    · rw [hbefore, List.append_assoc]
      exact congrArg (before ++ ·) htaken
    · rcases hstop with hrunning | ⟨hreach, last, hlast, hpulled⟩
      · exact .inl hrunning
      · obtain rfl : last = finish := by
          have hall : (records ++ [finish]).getLast? = some last := by
            rw [hbefore, List.getLast?_append, Option.mem_def.mp hlast]
            rfl
          simpa using hall.symm
        refine .inr ⟨hout, ⟨hreach.length_le, ?_⟩, hpulled⟩
        rw [hout, List.nil_append, ← hbytes]
        exact hreach.room
  · refine ⟨e, ?_, he.phase, rfl, rfl, rfl, he.suffix, .inl he.running⟩
    rw [StreamEngine.refill, if_neg hout]

/-- What a call does: it keeps the invariant, or it handles the end of the stream. -/
theorem Inv.outEvent_cases (he : e.Inv records finish) {call : OutCall}
    (hstep : e.outEvent call = some e') :
    (e'.handled = false ∧ e'.Inv records finish) ∨
      (e'.handled = true ∧ e'.queue = [] ∧ e.out = [] ∧ e.WithinReach call.available ∧
        ∃ e₁, Pulled finish e₁ ∧ e₁.encoder.Phase ∧ e₁.stream = e.stream ∧
        e₁.sent = e.sent ∧ call.accept ≤ e₁.out.length ∧
        e'.sent = e₁.sent ++ e₁.out.take call.accept ++
          (e₁.encoder.encode true outBatchSize).1.bytes) := by
  unfold outEvent at hstep
  split_ifs at hstep with hhandled
  obtain ⟨e₁, hrefill, hphase, hstream, hsent, hsame, hqueue, hstop⟩ :=
    he.refill call.available
  rw [hrefill, Option.bind_some] at hstep
  have hopen : e₁.handled = false := by
    rw [hsame]
    exact Bool.eq_false_iff.mpr hhandled
  have hall : e₁.stream = frames (records ++ [finish]) := hstream.trans he.stream_eq
  by_cases hempty : e₁.out = []
  · rw [if_pos hempty] at hstep
    obtain rfl := Option.some.inj hstep
    have hrunning : e₁.outputStopped = false := by
      rcases hstop with hrunning | hpulled
      · exact hrunning
      · exact absurd hempty hpulled.2.2.out_ne
    exact .inl ⟨hopen, hphase, hall, hrunning, hqueue⟩
  rw [if_neg hempty] at hstep
  split_ifs at hstep with haccept
  dsimp only at hstep
  by_cases hstopped : e₁.outputStopped = true
  · rw [if_pos hstopped] at hstep
    obtain ⟨accepted, hwrite, rfl⟩ := Option.map_eq_some_iff.mp hstep
    rcases hstop with hrunning | ⟨hout, hreach, hpulled⟩
    · exact absurd hstopped (by simp [hrunning])
    · refine .inr ⟨rfl, hpulled.queue_eq, hout, hreach, e₁, hpulled, hphase, hstream, hsent,
        haccept, ?_⟩
      rw [writeAll_eq hwrite]
  · rw [if_neg hstopped] at hstep
    obtain rfl := Option.some.inj hstep
    refine .inl ⟨hopen, hphase, ?_, Bool.eq_false_iff.mpr hstopped, hqueue⟩
    rw [← hall]
    simp only [stream]
    rw [List.append_assoc e₁.sent, List.take_append_drop]

/-- A call after the end of the stream has been handled is not made. -/
theorem handled_of_outEvent {call : OutCall} (hstep : e.outEvent call = some e') :
    e.handled = false := by
  rw [Bool.eq_false_iff]
  intro hdone
  simp [outEvent, hdone] at hstep

theorem Inv.init : (machine records finish).init.Inv records finish where
  phase := .idle rfl rfl rfl rfl
  stream_eq := rfl
  running := rfl
  suffix := ⟨[], rfl⟩

/-- As long as the end of the stream has not been handled nothing is lost. -/
theorem Inv.reachable (hreach : (machine records finish).Reachable e) :
    e.handled = false → e.Inv records finish := by
  refine Machine.Reachable.invariant (fun e => e.handled = false → e.Inv records finish)
    (fun _ => Inv.init) ?_ hreach
  intro e call e' he hstep hopen'
  rcases (he (handled_of_outEvent hstep)).outEvent_cases hstep with ⟨-, he'⟩ | ⟨hhandled, -⟩
  · exact he'
  · rw [hopen'] at hhandled
    cases hhandled

/-! ## The end of the stream -/

/-- How many bytes of the stream the socket has not accepted yet. -/
def unsent (records : List Record) (finish : Record) (e : StreamEngine) : ℕ :=
  (frames (records ++ [finish])).length - e.sent.length

/-- When `FINISH` has been pulled, the write buffer holds a full batch or all that is
left. -/
theorem Pulled.length_out (hpulled : Pulled finish e) (hphase : e.encoder.Phase) :
    e.out.length = min outBatchSize (e.out.length + e.encoder.pending.length) := by
  rcases Nat.eq_or_lt_of_le hpulled.length_le with hfull | hroom
  · omega
  · have hpending : e.encoder.pending = [] :=
      Encoder.pending_of_inProgress_none hphase (hpulled.idle hroom)
    rw [hpending, List.length_nil]
    omega

/-- The shortcut gets all that the encoder has left exactly when it is not too much. -/
theorem Pulled.encode_eq_pending_iff (hpulled : Pulled finish e) (hphase : e.encoder.Phase) :
    (e.encoder.encode true outBatchSize).1.bytes = e.encoder.pending ↔
      e.encoder.pending.length ≤ max finish.bytes.length outBatchSize := by
  cases hmsg : e.encoder.inProgress with
  | none =>
      have hpending : e.encoder.pending = [] := Encoder.pending_of_inProgress_none hphase hmsg
      simp [Encoder.encode, hmsg, hpending]
  | some msg =>
      rw [← hpulled.body_eq msg hmsg]
      exact Encoder.encode_fresh_eq_pending_iff hphase (by decide) hmsg

/-- One `encode` hands out the next bytes of what is left. -/
theorem encode_isPrefix_pending {enc : Encoder} (hphase : enc.Phase) :
    (enc.encode true outBatchSize).1.bytes <+: enc.pending := by
  rcases Encoder.encode_fresh_cases hphase (show 9 < outBatchSize by decide) with hcopied | hzero
  · rw [hcopied.bytes_eq]
    exact List.take_prefix _ _
  · rw [hzero.bytes_eq]

/-- The call that handles the end of the stream. -/
theorem Inv.sent_eq_frames_iff (he : e.Inv records finish) {call : OutCall}
    (hstep : e.outEvent call = some e') (hhandled : e'.handled = true) :
    e'.sent = frames (records ++ [finish]) ↔
      call.accept = min outBatchSize (unsent records finish e) ∧
        unsent records finish e ≤ outBatchSize + max finish.bytes.length outBatchSize := by
  rcases he.outEvent_cases hstep with ⟨hrunning, -⟩ |
    ⟨-, -, -, -, e₁, hpulled, hphase, hstream, hsent, haccept, hresult⟩
  · rw [hrunning] at hhandled
    cases hhandled
  have hall : frames (records ++ [finish]) = e.sent ++ (e₁.out ++ e₁.encoder.pending) := by
    rw [← he.stream_eq, ← hstream, stream, hpulled.queue_eq, hsent]
    simp [frames]
  have hunsent : unsent records finish e = e₁.out.length + e₁.encoder.pending.length := by
    rw [unsent, hall, List.length_append, List.length_append]
    omega
  have hlength := hpulled.length_out hphase
  rw [← hunsent] at hlength
  rw [hresult, hall, hsent, List.append_assoc, List.append_cancel_left_eq]
  constructor
  · intro hsame
    obtain ⟨rest, hrest⟩ := encode_isPrefix_pending hphase
    have hlengths := congrArg List.length hsame
    have hpending := congrArg List.length hrest
    simp only [List.length_append, List.length_take] at hlengths hpending
    have hempty : rest = [] := List.length_eq_zero_iff.mp (by omega)
    have htail := (hpulled.encode_eq_pending_iff hphase).mp (by simpa [hempty] using hrest)
    constructor
    · omega
    · omega
  · rintro ⟨htaken, hfits⟩
    have hpending : e₁.encoder.pending.length ≤ max finish.bytes.length outBatchSize := by omega
    rw [(hpulled.encode_eq_pending_iff hphase).mpr hpending,
      List.take_of_length_le (by omega)]

/-- **When `out_event` loses nothing.** For every sequence of records that ends with
`FINISH` and every schedule of calls and writes: once the end of the stream has been
handled, the bytes accepted by the socket are the frames of all records exactly when
the call that pulled `FINISH` offered its batch to a socket that took all of it, and
the bytes behind that batch did not exceed both the body of `FINISH` and the encoder's
buffer. -/
theorem outEvent_complete_iff (records : List Record) (finish : Record) {e e' : StreamEngine}
    (hreach : (machine records finish).Reachable e) {call : OutCall}
    (hstep : e.outEvent call = some e') (hhandled : e'.handled = true) :
    e'.sent = frames (records ++ [finish]) ↔
      call.accept = min outBatchSize (unsent records finish e) ∧
        unsent records finish e ≤ outBatchSize + max finish.bytes.length outBatchSize :=
  (Inv.reachable hreach (handled_of_outEvent hstep)).sent_eq_frames_iff hstep hhandled

/-- A `FINISH` of one byte, in a frame of three bytes that the socket takes at once. -/
theorem outEvent_complete_iff_all_accepted :
    ∃ e', (machine [] ⟨0, [7]⟩).init.outEvent ⟨1, 3, []⟩ = some e' ∧ e'.handled = true ∧
      e'.sent = frames ([] ++ [⟨0, [7]⟩]) := by
  have hrun : ((machine [] ⟨0, [7]⟩).init.outEvent ⟨1, 3, []⟩).map handled = some true := by
    decide +kernel
  obtain ⟨e', hstep, hhandled⟩ := Option.map_eq_some_iff.mp hrun
  exact ⟨e', hstep, hhandled,
    (outEvent_complete_iff [] ⟨0, [7]⟩ Machine.reachable_init hstep hhandled).mpr (by decide)⟩

/-- A socket that accepts nothing of the batch with `FINISH` loses it: no byte is sent,
and nothing is left to send. -/
theorem outEvent_loses_finish :
    ∃ e', (machine [] ⟨0, [7]⟩).Reachable (machine [] ⟨0, [7]⟩).init ∧
      (machine [] ⟨0, [7]⟩).init.outEvent ⟨1, 0, []⟩ = some e' ∧ e'.handled = true ∧
      e'.sent ≠ frames ([] ++ [⟨0, [7]⟩]) := by
  have hrun : ((machine [] ⟨0, [7]⟩).init.outEvent ⟨1, 0, []⟩).map
      (fun e => (e.handled, e.sent)) = some (true, []) := by
    decide +kernel
  obtain ⟨e', hstep, hstate⟩ := Option.map_eq_some_iff.mp hrun
  rw [Prod.mk.injEq] at hstate
  exact ⟨e', Machine.reachable_init, hstep, hstate.1, by rw [hstate.2]; decide⟩

end StreamEngine

end AFStream.Net
