/-
# When the slots of the records are acknowledged

A record that the engine pulls stays in the slot of the callback's queue until the
encoder acknowledges it; from then on a writer may reuse the slot. The bytes of the
record leave the slot by two ways: they are copied into the batch, or the write
buffer points at them. The module follows every call of `encode` that `out_event`
makes, and shows that the one unacknowledged slot is the one that the encoder or the
write buffer still points into.
-/

import AFStream.Net.StreamEngine

namespace AFStream.Net

open AFStream.Foundation

namespace Encoder

/-- The slot of the record in progress. -/
def unacked (enc : Encoder) : List ℕ := (enc.data.map Record.addr).toList

/-- An encoder points into the slot of its record only. -/
structure Owned (enc : Encoder) : Prop where
  idle : enc.inProgress = none → enc.data = none
  points : ∀ slot, enc.writePos ≠ [] → enc.origin = some slot →
    enc.data.map Record.addr = some slot

/-- What a call does to the slot: it keeps it, or it closes the message and
acknowledges it, with nothing left to write. A pointer that it hands out is into the
slot that it keeps. -/
structure Custody (enc : Encoder) (result : Chunk × Encoder) : Prop where
  owned : result.2.Owned
  points : ∀ slot, result.1.origin = some slot → result.2.data.map Record.addr = some slot
  kept_or_closed :
    (result.2.acked = enc.acked ∧ result.2.data = enc.data ∧
      result.2.inProgress = enc.inProgress) ∨
    (result.2.acked = enc.acked ++ enc.unacked ∧ result.2.data = none ∧
      result.2.inProgress = none ∧ result.2.writePos = [])

variable {enc : Encoder} {result : Chunk × Encoder}

theorem Owned.points_unacked (h : enc.Owned) {slot : ℕ} (hwrite : enc.writePos ≠ [])
    (horigin : enc.origin = some slot) : enc.unacked = [slot] := by
  rw [unacked, h.points slot hwrite horigin]
  rfl

/-- A call that hands out no pointer and keeps the slot. -/
theorem Custody.copied (howned : result.2.Owned) (horigin : result.1.origin = none)
    (hkept : result.2.acked = enc.acked ∧ result.2.data = enc.data ∧
      result.2.inProgress = enc.inProgress) : Custody enc result where
  owned := howned
  points := by
    intro slot hslot
    rw [horigin] at hslot
    cases hslot
  kept_or_closed := .inl hkept

theorem Custody.acked_append_unacked (h : Custody enc result) :
    result.2.acked ++ result.2.unacked = enc.acked ++ enc.unacked := by
  rcases h.kept_or_closed with ⟨hacked, hdata, -⟩ | ⟨hacked, hdata, -⟩
  · rw [hacked, unacked, hdata]
    rfl
  · rw [hacked, show result.2.unacked = [] by rw [unacked, hdata]; rfl, List.append_nil]

/-- A step of the state machine points into `tmpbuf` or into the record. -/
theorem owned_runNext {msg : Msg} (hmsg : enc.inProgress = some msg) : enc.runNext.Owned := by
  cases hnext : enc.next with
  | messageReady =>
      simp only [runNext, hnext, hmsg]
      refine ⟨fun hnone => ?_, fun slot _ horigin => ?_⟩
      · cases hnone
      · cases horigin
  | sizeReady =>
      simp only [runNext, hnext, hmsg]
      refine ⟨fun hnone => ?_, fun slot _ horigin => horigin⟩
      cases hnone

theorem runNext_same (enc : Encoder) :
    enc.runNext.acked = enc.acked ∧ enc.runNext.data = enc.data ∧
      enc.runNext.inProgress = enc.inProgress := by
  unfold runNext
  split
  next hmsg => exact ⟨rfl, rfl, rfl⟩
  next hmsg => exact ⟨rfl, rfl, rfl⟩
  next => exact ⟨rfl, rfl, rfl⟩

theorem Owned.advance (h : enc.Owned) (n : ℕ) : (enc.advance n).Owned where
  idle := h.idle
  points := by
    intro slot hwrite horigin
    apply h.points slot _ horigin
    intro hempty
    exact hwrite (by simp [Encoder.advance, hempty])

/-- A call that starts after a step that keeps the slot. -/
theorem Custody.of_same {enc' : Encoder} (h : Custody enc' result)
    (hsame : enc'.acked = enc.acked ∧ enc'.data = enc.data ∧ enc'.inProgress = enc.inProgress) :
    Custody enc result where
  owned := h.owned
  points := h.points
  kept_or_closed := by
    obtain ⟨hacked, hdata, hmsg⟩ := hsame
    have hcases := h.kept_or_closed
    rw [unacked, hacked, hdata, hmsg] at hcases
    exact hcases

/-- Before it writes, an iteration runs the next step if the last one is finished. -/
theorem owned_ite_runNext (howned : enc.Owned) (hmsg : enc.inProgress ≠ none) :
    (if enc.writePos = [] then enc.runNext else enc).Owned := by
  split_ifs
  · obtain ⟨msg, hsome⟩ := Option.ne_none_iff_exists'.mp hmsg
    exact owned_runNext hsome
  · exact howned

theorem ite_runNext_same (enc : Encoder) :
    (if enc.writePos = [] then enc.runNext else enc).acked = enc.acked ∧
      (if enc.writePos = [] then enc.runNext else enc).data = enc.data ∧
      (if enc.writePos = [] then enc.runNext else enc).inProgress = enc.inProgress := by
  split_ifs
  · exact runNext_same enc
  · exact ⟨rfl, rfl, rfl⟩

/-- The loop of `encode`. -/
theorem custody_encodeLoop (fuel : ℕ) (fresh : Bool) (size : ℕ) (acc : List UInt8)
    (howned : enc.Owned) (hmsg : enc.inProgress ≠ none) :
    Custody enc (encodeLoop fuel fresh size acc enc) := by
  induction fuel generalizing enc acc with
  | zero => exact .copied howned rfl ⟨rfl, rfl, rfl⟩
  | succ fuel ih =>
      rw [encodeLoop]
      by_cases hroom : acc.length < size
      · rw [if_pos hroom]
        by_cases hclose : enc.writePos = [] ∧ enc.newMsg = true
        · rw [if_pos hclose]
          refine ⟨⟨fun _ => rfl, fun slot hwrite => absurd hclose.1 hwrite⟩, ?_, .inr ?_⟩
          · intro slot horigin
            cases horigin
          · exact ⟨rfl, rfl, rfl, hclose.1⟩
        · rw [if_neg hclose]
          have howned' := owned_ite_runNext howned hmsg
          have hsame := ite_runNext_same enc
          generalize (if enc.writePos = [] then enc.runNext else enc) = enc' at howned' hsame ⊢
          dsimp only
          by_cases hzero : acc = [] ∧ fresh = true ∧ size ≤ enc'.writePos.length
          · -- the write buffer takes over the pointer
            have hwrite : enc'.writePos ≠ [] := by
              intro hempty
              rw [hempty, List.length_nil] at hzero
              omega
            rw [if_pos hzero]
            refine Custody.of_same ⟨⟨howned'.idle, fun slot h => absurd rfl h⟩, ?_, ?_⟩ hsame
            · exact fun slot horigin => howned'.points slot hwrite horigin
            · exact .inl ⟨rfl, rfl, rfl⟩
          · rw [if_neg hzero]
            apply Custody.of_same (ih _ (howned'.advance _) _) hsame
            change enc'.inProgress ≠ none
            rwa [hsame.2.2]
      · rw [if_neg hroom]
        exact .copied howned rfl ⟨rfl, rfl, rfl⟩

/-- `encode` with any buffer. -/
theorem custody_encode (howned : enc.Owned) (fresh : Bool) (size : ℕ) :
    Custody enc (enc.encode fresh size) := by
  unfold encode
  split_ifs with hmsg
  · exact .copied howned rfl ⟨rfl, rfl, rfl⟩
  · exact custody_encodeLoop 3 fresh size [] howned hmsg

/-- Loading a record makes its slot the unacknowledged one. -/
theorem owned_loadMsg {enc' : Encoder} {msg : Msg} {record : Record}
    (hload : enc.loadMsg msg (some record) = some enc') :
    enc'.Owned ∧ enc'.acked = enc.acked ∧ enc'.unacked = [record.addr] := by
  unfold loadMsg at hload
  split_ifs at hload
  obtain rfl := Option.some.inj hload
  obtain ⟨hacked, hdata, -⟩ :=
    runNext_same { enc with inProgress := some msg, data := some record }
  refine ⟨owned_runNext rfl, hacked, ?_⟩
  rw [unacked, hdata]
  rfl

end Encoder

namespace StreamEngine

/-! ## The calls of `encode` -/

/-- A call of `encode` by `out_event`: the engine at that moment, the record that
`load_msg` has been given just before, if any, and the arguments. -/
structure EncodeSite where
  engine : StreamEngine
  record : Option Record
  fresh : Bool
  size : ℕ

/-- The encoder that the call is made on; undefined if the assertion of `load_msg` fails. -/
def EncodeSite.encoder (site : EncodeSite) : Option Encoder :=
  match site.record with
  | none => some site.engine.encoder
  | some record => site.engine.encoder.loadMsg (.initSize record.bytes.length) (some record)

/-- The slots that the call acknowledges. -/
def EncodeSite.acks (site : EncodeSite) : List ℕ :=
  match site.encoder with
  | none => []
  | some encoder =>
      (encoder.encode site.fresh site.size).2.acked.drop encoder.acked.length

/-- The calls of the filling loop. -/
def fillSites : ℕ → StreamEngine → List EncodeSite
  | 0, _ => []
  | available + 1, e =>
    if e.out.length < outBatchSize then
      match e.queue with
      | [] => []
      | record :: rest =>
        ⟨e, some record, e.outNull, outBatchSize - e.out.length⟩ ::
          match e.encoder.loadMsg (.initSize record.bytes.length) (some record) with
          | none => []
          | some encoder =>
              let (chunk, encoder) := encoder.encode e.outNull (outBatchSize - e.out.length)
              let e := { e with
                encoder := encoder
                out := e.out ++ chunk.bytes
                outNull := false
                queue := rest }
              if rest = [] then [] else fillSites available e
    else []

/-- The calls made while the write buffer is filled. -/
def refillSites (e : StreamEngine) (available : ℕ) : List EncodeSite :=
  if e.out = [] then
    let (chunk, encoder) := e.encoder.encode true outBatchSize
    ⟨e, none, true, outBatchSize⟩ :: fillSites available { e with
      encoder := encoder
      out := chunk.bytes
      outNull := e.encoder.inProgress = none
      outOrigin := chunk.origin }
  else []

/-- The call of the shortcut. The bytes that the first write has not accepted are still
in the write buffer. -/
def stopSites (e : StreamEngine) (accept : ℕ) : List EncodeSite :=
  if e.out ≠ [] ∧ accept ≤ e.out.length ∧ e.outputStopped then
    [⟨{ e with
        sent := e.sent ++ e.out.take accept
        out := e.out.drop accept }, none, true, outBatchSize⟩]
  else []

/-- All calls of `encode` in one `out_event`. -/
def encodeSites (e : StreamEngine) (call : OutCall) : List EncodeSite :=
  if e.handled then []
  else e.refillSites call.available ++
    match e.refill call.available with
    | none => []
    | some e => e.stopSites call.accept

/-- A call of `encode` that no assertion stops and that acknowledges no slot which the
write buffer or the encoder still points into. -/
structure EncodeSite.Safe (site : EncodeSite) : Prop where
  loads : site.record ≠ none → site.engine.encoder.inProgress = none
  progress : ∀ encoder, site.encoder = some encoder → site.record ≠ none →
    (encoder.encode site.fresh site.size).1.bytes ≠ []
  copies : ∀ encoder, site.encoder = some encoder → site.record ≠ none →
    (encoder.encode site.fresh site.size).1.origin = none
  releases : ∀ encoder, site.encoder = some encoder → ∀ slot ∈ site.acks,
    (site.engine.out = [] ∨ site.engine.outOrigin ≠ some slot) ∧
      (encoder.encode site.fresh site.size).2.writePos = []

/-- The write buffer or the encoder points at bytes in the slot that have not been sent. -/
def RefersTo (e : StreamEngine) (slot : ℕ) : Prop :=
  (e.out ≠ [] ∧ e.outOrigin = some slot) ∨
    (e.encoder.writePos ≠ [] ∧ e.encoder.origin = some slot)

/-- Every record that has been pulled is acknowledged once, in order, except for the one
in progress, and only its slot is still pointed into. -/
structure AckSafe (records : List Record) (finish : Record) (e : StreamEngine) : Prop where
  pulled : ∃ taken, records ++ [finish] = taken ++ e.queue ∧
    e.encoder.acked ++ e.encoder.unacked = taken.map Record.addr
  idle : e.encoder.inProgress = none → e.encoder.unacked = []
  refers : ∀ slot, e.RefersTo slot → e.encoder.unacked = [slot]

variable {e e' : StreamEngine} {records : List Record} {finish : Record} {available : ℕ}

/-- The slots that a call adds to the acknowledged ones. -/
theorem EncodeSite.acked_eq {site : EncodeSite} {encoder : Encoder}
    (hsite : site.encoder = some encoder) (howned : encoder.Owned) :
    (encoder.encode site.fresh site.size).2.acked = encoder.acked ++ site.acks := by
  simp only [acks, hsite]
  rcases (Encoder.custody_encode howned site.fresh site.size).kept_or_closed with
    ⟨hacked, -⟩ | ⟨hacked, -⟩
  · simp [hacked]
  · simp [hacked]

/-- A call that acknowledges a slot has nothing left to write. -/
theorem EncodeSite.writePos_eq_nil {site : EncodeSite} {encoder : Encoder}
    (hsite : site.encoder = some encoder) (howned : encoder.Owned) {slot : ℕ}
    (hslot : slot ∈ site.acks) : (encoder.encode site.fresh site.size).2.writePos = [] := by
  have hacks := acked_eq hsite howned
  rcases (Encoder.custody_encode howned site.fresh site.size).kept_or_closed with
    ⟨hacked, -⟩ | ⟨-, -, -, hwrite⟩
  · rw [hacked, List.self_eq_append_right] at hacks
    rw [hacks] at hslot
    cases hslot
  · exact hwrite

/-- A call is safe if the write buffer points into no slot; a call after `load_msg` hands
out copied bytes. -/
theorem EncodeSite.Safe.of_encode {site : EncodeSite} {encoder : Encoder}
    (hsite : site.encoder = some encoder) (howned : encoder.Owned)
    (hout : site.engine.out = [] ∨ site.engine.outOrigin = none)
    (hloaded : site.record ≠ none → site.engine.encoder.inProgress = none ∧
      (encoder.encode site.fresh site.size).1.bytes ≠ [] ∧
      (encoder.encode site.fresh site.size).1.origin = none) : site.Safe where
  loads := fun hrecord => (hloaded hrecord).1
  progress := by
    intro encoder' hsite' hrecord
    obtain rfl := Option.some.inj (hsite.symm.trans hsite')
    exact (hloaded hrecord).2.1
  copies := by
    intro encoder' hsite' hrecord
    obtain rfl := Option.some.inj (hsite.symm.trans hsite')
    exact (hloaded hrecord).2.2
  releases := by
    intro encoder' hsite' slot hslot
    obtain rfl := Option.some.inj (hsite.symm.trans hsite')
    refine ⟨hout.imp_right fun hnone => ?_, writePos_eq_nil hsite howned hslot⟩
    rw [hnone]
    nofun

/-- What the filling loop does to the slots. -/
structure Filled (e : StreamEngine) (sites : List EncodeSite) (e' : StreamEngine) : Prop where
  owned : e'.encoder.Owned
  pulled : ∃ taken, e.queue = taken ++ e'.queue ∧
    e'.encoder.acked ++ e'.encoder.unacked =
      e.encoder.acked ++ e.encoder.unacked ++ taken.map Record.addr
  acked_eq : e'.encoder.acked = e.encoder.acked ++ sites.flatMap EncodeSite.acks
  safe : ∀ site ∈ sites, site.Safe
  points : ∀ slot, e'.outOrigin = some slot →
    e'.encoder.unacked = [slot] ∧ e'.outputStopped = false

theorem Filled.refl (howned : e.encoder.Owned)
    (hpoints : ∀ slot, e.outOrigin = some slot →
      e.encoder.unacked = [slot] ∧ e.outputStopped = false) : Filled e [] e where
  owned := howned
  pulled := ⟨[], rfl, by simp⟩
  acked_eq := by simp
  safe := fun _ hsite => absurd hsite List.not_mem_nil
  points := hpoints

/-- One iteration before the others. -/
theorem Filled.cons {e₁ : StreamEngine} {record : Record} {site : EncodeSite}
    {sites : List EncodeSite} (h : Filled e₁ sites e') (hqueue : e.queue = record :: e₁.queue)
    (hall : e₁.encoder.acked ++ e₁.encoder.unacked =
      e.encoder.acked ++ e.encoder.unacked ++ [record.addr])
    (hacked : e₁.encoder.acked = e.encoder.acked ++ site.acks) (hsafe : site.Safe) :
    Filled e (site :: sites) e' where
  owned := h.owned
  pulled := by
    obtain ⟨taken, htaken, htotal⟩ := h.pulled
    refine ⟨record :: taken, by rw [hqueue, htaken]; rfl, ?_⟩
    rw [htotal, hall]
    simp
  acked_eq := by
    rw [h.acked_eq, hacked]
    simp
  safe := by
    intro site' hsite'
    rcases List.mem_cons.mp hsite' with rfl | hrest
    · exact hsafe
    · exact h.safe site' hrest
  points := h.points

/-- One iteration: the record is copied, as far as there is room, and it is acknowledged
if all of it has been copied. -/
theorem Filling.iterate_slots (he : e.Filling) (howned : e.encoder.Owned)
    (hroom : e.out.length < outBatchSize) (hcopying : e.outOrigin = none) (record : Record) :
    ∃ encoder chunk encoder',
      e.encoder.loadMsg (.initSize record.bytes.length) (some record) = some encoder ∧
      encoder.encode e.outNull (outBatchSize - e.out.length) = (chunk, encoder') ∧
      encoder'.Phase ∧ encoder'.Owned ∧
      (e.out.length + chunk.bytes.length < outBatchSize → encoder'.inProgress = none) ∧
      encoder'.acked ++ encoder'.unacked =
        e.encoder.acked ++ e.encoder.unacked ++ [record.addr] ∧
      encoder'.acked = e.encoder.acked ++
        EncodeSite.acks ⟨e, some record, e.outNull, outBatchSize - e.out.length⟩ ∧
      EncodeSite.Safe ⟨e, some record, e.outNull, outBatchSize - e.out.length⟩ := by
  obtain ⟨encoder, chunk, encoder', hload, hencode, hphase, hne, -, hidle, -, -, horigin⟩ :=
    he.iterate hroom record
  obtain ⟨howned₁, hacked₁, hunacked₁⟩ := Encoder.owned_loadMsg hload
  have hcustody := Encoder.custody_encode howned₁ e.outNull (outBatchSize - e.out.length)
  rw [hencode] at hcustody
  have hunacked : e.encoder.unacked = [] := by
    rw [Encoder.unacked, howned.idle (he.idle hroom)]
    rfl
  have hcall : EncodeSite.encoder ⟨e, some record, e.outNull, outBatchSize - e.out.length⟩ =
      some encoder := hload
  refine ⟨encoder, chunk, encoder', hload, hencode, hphase, hcustody.owned, hidle, ?_, ?_, ?_⟩
  · rw [hcustody.acked_append_unacked, hacked₁, hunacked₁, hunacked, List.append_nil]
  · have hacked := EncodeSite.acked_eq hcall howned₁
    rw [hacked₁] at hacked
    dsimp only at hacked
    rw [hencode] at hacked
    exact hacked
  · apply EncodeSite.Safe.of_encode hcall howned₁ (.inr hcopying)
    intro _
    dsimp only
    rw [hencode]
    exact ⟨he.idle hroom, hne, horigin⟩

/-- The filling loop keeps every slot until its bytes have been copied. -/
theorem filled_fillLoop (he : e.Filling) (howned : e.encoder.Owned)
    (hrun : e.outputStopped = false)
    (hpoints : ∀ slot, e.outOrigin = some slot →
      e.encoder.unacked = [slot] ∧ outBatchSize ≤ e.out.length)
    (hloop : fillLoop available e = some e') : Filled e (fillSites available e) e' := by
  induction available generalizing e with
  | zero =>
      obtain rfl := Option.some.inj hloop
      exact .refl howned fun slot horigin => ⟨(hpoints slot horigin).1, hrun⟩
  | succ available ih =>
      rw [fillLoop] at hloop
      rw [fillSites]
      by_cases hroom : e.out.length < outBatchSize
      · rw [if_pos hroom] at hloop ⊢
        have hcopying : e.outOrigin = none := by
          rw [Option.eq_none_iff_forall_ne_some]
          intro slot horigin
          exact absurd (hpoints slot horigin).2 (Nat.not_le_of_lt hroom)
        cases hqueue : e.queue with
        | nil =>
            rw [hqueue] at hloop
            obtain rfl := Option.some.inj hloop
            exact .refl howned fun slot horigin => ⟨(hpoints slot horigin).1, hrun⟩
        | cons record rest =>
            obtain ⟨encoder, chunk, encoder', hload, hencode, hphase, howned', hidle, hall, hacked,
              hsafe⟩ := he.iterate_slots howned hroom hcopying record
            rw [hqueue] at hloop
            simp only [hload, Option.bind_some, hencode] at hloop ⊢
            by_cases hrest : rest = []
            · rw [if_pos hrest] at hloop ⊢
              obtain rfl := Option.some.inj hloop
              apply Filled.cons (.refl howned' _) hqueue hall hacked hsafe
              intro slot horigin
              rw [hcopying] at horigin
              cases horigin
            · rw [if_neg hrest] at hloop ⊢
              refine Filled.cons (ih ⟨hphase, ?_, ?_⟩ howned' hrun ?_ hloop) hqueue hall hacked
                hsafe
              · simpa using hidle
              · intro hnull
                cases hnull
              · intro slot horigin
                rw [hcopying] at horigin
                cases horigin
      · rw [if_neg hroom] at hloop ⊢
        obtain rfl := Option.some.inj hloop
        exact .refl howned fun slot horigin => ⟨(hpoints slot horigin).1, hrun⟩

/-- What is known of the slots between two calls. -/
structure SlotInv (records : List Record) (finish : Record) (e : StreamEngine) : Prop where
  owned : e.encoder.Owned
  pulled : ∃ taken, records ++ [finish] = taken ++ e.queue ∧
    e.encoder.acked ++ e.encoder.unacked = taken.map Record.addr
  points : ∀ slot, e.out ≠ [] → e.outOrigin = some slot → e.encoder.unacked = [slot]

theorem SlotInv.ackSafe (he : e.SlotInv records finish) : e.AckSafe records finish where
  pulled := he.pulled
  idle := by
    intro hidle
    rw [Encoder.unacked, he.owned.idle hidle]
    rfl
  refers := by
    rintro slot (⟨hout, horigin⟩ | ⟨hwrite, horigin⟩)
    · exact he.points slot hout horigin
    · exact he.owned.points_unacked hwrite horigin

theorem SlotInv.init : (machine records finish).init.SlotInv records finish where
  owned := ⟨fun _ => rfl, nofun⟩
  pulled := ⟨[], rfl, rfl⟩
  points := nofun

/-- The pointer that the first call hands out fills the batch. -/
theorem points_encode (hphase : e.encoder.Phase) (howned : e.encoder.Owned) {chunk : Chunk}
    {encoder : Encoder} (hencode : e.encoder.encode true outBatchSize = (chunk, encoder))
    {slot : ℕ} (horigin : chunk.origin = some slot) :
    encoder.unacked = [slot] ∧ outBatchSize ≤ chunk.bytes.length := by
  have hcustody := Encoder.custody_encode howned true outBatchSize
  rw [hencode] at hcustody
  constructor
  · rw [Encoder.unacked, hcustody.points slot horigin]
    rfl
  · rcases Encoder.encode_fresh_cases hphase (show 9 < outBatchSize by decide) with
      hcopied | hzero
    · rw [hencode] at hcopied
      rw [hcopied.origin_eq] at horigin
      cases horigin
    · rw [hencode] at hzero
      exact hzero.length_ge

/-- `refill` keeps every slot until its bytes have been copied. -/
theorem SlotInv.filled_refill (hslots : e.SlotInv records finish)
    (he : e.Inv records finish) (hrefill : e.refill available = some e') :
    (∀ site ∈ e.refillSites available, site.Safe) ∧
      e'.encoder.acked =
        e.encoder.acked ++ (e.refillSites available).flatMap EncodeSite.acks ∧
      e'.SlotInv records finish ∧ (e'.outputStopped = true → e'.outOrigin = none) := by
  unfold refill at hrefill
  unfold refillSites
  by_cases hout : e.out = []
  · rw [if_pos hout] at hrefill ⊢
    obtain ⟨⟨chunk, encoder⟩, hencode⟩ :
        ∃ result, e.encoder.encode true outBatchSize = result := ⟨_, rfl⟩
    have hcustody := Encoder.custody_encode hslots.owned true outBatchSize
    have hcall : EncodeSite.encoder ⟨e, none, true, outBatchSize⟩ = some e.encoder := rfl
    have hacked := EncodeSite.acked_eq hcall hslots.owned
    dsimp only at hacked
    have hsafe : EncodeSite.Safe ⟨e, none, true, outBatchSize⟩ := by
      apply EncodeSite.Safe.of_encode hcall hslots.owned (.inl hout)
      intro hrecord
      exact absurd rfl hrecord
    rw [hencode] at hrefill hcustody hacked
    simp only [hencode]
    have hfilled := filled_fillLoop (filling_of_encode he.phase hencode).1 hcustody.owned
      he.running (fun slot horigin => points_encode he.phase hslots.owned hencode horigin) hrefill
    refine ⟨?_, ?_, ⟨hfilled.owned, ?_, ?_⟩, ?_⟩
    · intro site hsite
      rcases List.mem_cons.mp hsite with rfl | hrest
      · exact hsafe
      · exact hfilled.safe site hrest
    · rw [hfilled.acked_eq, List.flatMap_cons, ← List.append_assoc, ← hacked]
    · obtain ⟨before, hbefore, htotal⟩ := hslots.pulled
      obtain ⟨taken, htaken, hall⟩ := hfilled.pulled
      refine ⟨before ++ taken, ?_, ?_⟩
      · rw [hbefore, List.append_assoc]
        exact congrArg (before ++ ·) htaken
      · rw [hall, List.map_append, ← htotal, ← hcustody.acked_append_unacked]
    · exact fun slot _ horigin => (hfilled.points slot horigin).1
    · intro hstopped
      rw [Option.eq_none_iff_forall_ne_some]
      intro slot horigin
      rw [(hfilled.points slot horigin).2] at hstopped
      cases hstopped
  · rw [if_neg hout] at hrefill ⊢
    obtain rfl := Option.some.inj hrefill
    refine ⟨fun _ hsite => absurd hsite List.not_mem_nil, by simp, hslots, ?_⟩
    intro hstopped
    rw [he.running] at hstopped
    cases hstopped

/-- The call of the shortcut: nothing points into the slots of the records before it. -/
theorem SlotInv.safe_stopSites (hslots : e.SlotInv records finish)
    (horigin : e.outputStopped = true → e.outOrigin = none) (accept : ℕ) :
    ∀ site ∈ e.stopSites accept, site.Safe := by
  intro site hsite
  unfold stopSites at hsite
  split_ifs at hsite with hstop
  · obtain rfl := List.mem_singleton.mp hsite
    apply EncodeSite.Safe.of_encode rfl hslots.owned (.inr (horigin hstop.2.2))
    intro hrecord
    exact absurd rfl hrecord
  · cases hsite

/-- Every call of `encode` in an `out_event` is safe. -/
theorem SlotInv.safe_encodeSites (hslots : e.SlotInv records finish)
    (he : e.handled = false → e.Inv records finish) (call : OutCall) :
    ∀ site ∈ e.encodeSites call, site.Safe := by
  intro site hsite
  unfold encodeSites at hsite
  split_ifs at hsite with hhandled
  · cases hsite
  have hinv := he (Bool.eq_false_iff.mpr hhandled)
  obtain ⟨e₁, hrefill, -⟩ := hinv.refill call.available
  obtain ⟨hsafe, -, hslots₁, horigin⟩ := hslots.filled_refill hinv hrefill
  rw [hrefill] at hsite
  rcases List.mem_append.mp hsite with hfill | hstop
  · exact hsafe site hfill
  · exact hslots₁.safe_stopSites horigin call.accept site hstop

/-- An `out_event` keeps the invariant, and the slots that it acknowledges are those of its
calls of `encode`. -/
theorem SlotInv.outEvent (hslots : e.SlotInv records finish) (he : e.Inv records finish)
    {call : OutCall} (hstep : e.outEvent call = some e') :
    e'.SlotInv records finish ∧
      e'.encoder.acked = e.encoder.acked ++ (e.encodeSites call).flatMap EncodeSite.acks := by
  have hopen := handled_of_outEvent hstep
  obtain ⟨e₁, hrefill, -⟩ := he.refill call.available
  obtain ⟨-, hacked, hslots₁, horigin⟩ := hslots.filled_refill he hrefill
  simp only [StreamEngine.outEvent, hopen, hrefill, Option.bind_some] at hstep
  simp only [encodeSites, hopen, hrefill]
  rw [if_neg Bool.false_ne_true] at hstep ⊢
  rw [List.flatMap_append, ← List.append_assoc, ← hacked]
  by_cases hempty : e₁.out = []
  · rw [if_pos hempty] at hstep
    obtain rfl := Option.some.inj hstep
    exact ⟨hslots₁, by simp [stopSites, hempty]⟩
  rw [if_neg hempty] at hstep
  split_ifs at hstep with haccept hstopped
  · have hcustody := Encoder.custody_encode hslots₁.owned true outBatchSize
    have hcall : EncodeSite.encoder ⟨{ e₁ with
        sent := e₁.sent ++ e₁.out.take call.accept
        out := e₁.out.drop call.accept }, none, true, outBatchSize⟩ = some e₁.encoder := rfl
    have hsite := EncodeSite.acked_eq hcall hslots₁.owned
    obtain ⟨accepted, -, rfl⟩ := Option.map_eq_some_iff.mp hstep
    refine ⟨⟨hcustody.owned, ?_, fun slot hout => absurd rfl hout⟩, ?_⟩
    · obtain ⟨taken, htaken, hall⟩ := hslots₁.pulled
      refine ⟨taken, htaken, ?_⟩
      exact hcustody.acked_append_unacked.trans hall
    · simpa [stopSites, hempty, haccept, hstopped] using hsite
  · obtain rfl := Option.some.inj hstep
    refine ⟨⟨hslots₁.owned, hslots₁.pulled, fun slot _ => hslots₁.points slot hempty⟩, ?_⟩
    simp [stopSites, hstopped]

/-- The slots in every reachable state. -/
theorem SlotInv.reachable (hreach : (machine records finish).Reachable e) :
    e.SlotInv records finish := by
  have hboth : e.SlotInv records finish ∧ (e.handled = false → e.Inv records finish) := by
    refine Machine.Reachable.invariant
      (fun e => e.SlotInv records finish ∧ (e.handled = false → e.Inv records finish))
      ⟨SlotInv.init, fun _ => Inv.init⟩ ?_ hreach
    rintro e call e' ⟨hslots, he⟩ hstep
    have hinv := he (handled_of_outEvent hstep)
    refine ⟨(hslots.outEvent hinv hstep).1, fun hopen => ?_⟩
    rcases hinv.outEvent_cases hstep with ⟨-, he'⟩ | ⟨hhandled, -⟩
    · exact he'
    · rw [hopen] at hhandled
      cases hhandled
  exact hboth.1

/-- **Slots are acknowledged once, after their bytes have left them.** For all records
before `FINISH`, of any sizes, and every schedule of calls with partial writes: the slots
acknowledged so far are those of the records pulled so far, each once and in order, except
for the record in progress; an idle encoder has acknowledged all of them; only the slot of
the record in progress is pointed into by the write buffer or the encoder. In every further
call each `encode` finds the assertions of `load_msg` and of `out_event` true, and
acknowledges no slot that is still pointed into. -/
theorem ackSafe_reachable (records : List Record) (finish : Record) {e : StreamEngine}
    (hreach : (machine records finish).Reachable e) :
    e.AckSafe records finish ∧
      ∀ call : OutCall, (∀ site ∈ e.encodeSites call, site.Safe) ∧
        ∀ e', e.outEvent call = some e' →
          e'.encoder.acked =
            e.encoder.acked ++ (e.encodeSites call).flatMap EncodeSite.acks := by
  have hslots := SlotInv.reachable hreach
  have he := Inv.reachable hreach
  refine ⟨hslots.ackSafe, fun call => ⟨hslots.safe_encodeSites he call, ?_⟩⟩
  intro e' hstep
  exact (hslots.outEvent (he (handled_of_outEvent hstep)) hstep).2

/-- One record of two bytes, of whose frame the socket has taken one byte. -/
theorem ackSafe_reachable_partial_write :
    ∃ e, (machine [⟨5, [1, 2]⟩] ⟨6, [7]⟩).init.outEvent ⟨1, 1, []⟩ = some e ∧
      e.encoder.acked = [5] ∧ e.AckSafe [⟨5, [1, 2]⟩] ⟨6, [7]⟩ ∧
      ∀ site ∈ e.encodeSites ⟨1, 3, []⟩, site.Safe := by
  have hrun : ((machine [⟨5, [1, 2]⟩] ⟨6, [7]⟩).init.outEvent ⟨1, 1, []⟩).map
      (fun e => e.encoder.acked) = some [5] := by
    decide +kernel
  obtain ⟨e, hstep, hacked⟩ := Option.map_eq_some_iff.mp hrun
  have hreach : (machine [⟨5, [1, 2]⟩] ⟨6, [7]⟩).Reachable e :=
    ⟨[⟨1, 1, []⟩], by rw [Machine.runFrom_cons]; exact hstep⟩
  have hsafe := ackSafe_reachable [⟨5, [1, 2]⟩] ⟨6, [7]⟩ hreach
  exact ⟨e, hstep, hacked, hsafe.1, (hsafe.2 ⟨1, 3, []⟩).1⟩

end StreamEngine

end AFStream.Net
