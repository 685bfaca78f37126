/-
# The handshake between two engines

Both sides of a connection run the same `stream_engine_t`. The bytes that one of them writes are
those that the other one reads, in fragments of any length and with any delay, and as soon as a
side is ready it writes records behind its command. The module runs two engines against each
other: they agree on whether they may be connected, none of them takes the records of the other
one for commands or loses a byte of them, and from every state both can still become ready.
-/

import AFStream.Net.Handshake
import AFStream.Net.Metadata

namespace AFStream.Net

open AFStream.Foundation

/-- The options of the two sides. A worker leaves all but the type as the constructor of
`options_t` has set them, and the length of an identity is an `unsigned char`. -/
structure Endpoints where
  options : Bool → Options
  mechanism_eq : ∀ i, (options i).mechanism = .null
  maxmsgsize_eq : ∀ i, (options i).maxmsgsize = -1
  identity_lt : ∀ i, (options i).identity.length < 2 ^ 8

/-- The sockets of the two sides may be connected. -/
def Endpoints.Compatible (ends : Endpoints) : Prop :=
  (ends.options false).type ∈ peerTypes (ends.options true).type

instance (ends : Endpoints) : Decidable ends.Compatible := inferInstanceAs (Decidable (_ ∈ _))

/-- A side: its engine, and all that it has written behind its command. -/
structure Party where
  engine : HandshakeEngine
  later : List UInt8

/-- A call of the poller of a side, or the next buffer of a side that is ready. The memory for a
command is available. -/
inductive PartyEvent
  | inEvent (reads : List Recv)
  | outEvent (accepted : ℕ)
  | write (bytes : List UInt8)

/-- Both sides. -/
def HandshakePair : Type := Bool → Party

namespace HandshakePair

/-- A side and the other one. -/
def join (i : Bool) (p q : Party) : HandshakePair := fun j => if j = i then p else q

/-- `out_event`. An engine that is ready sends what is left in its buffer. -/
def outEvent (options : Options) (e : HandshakeEngine) (accepted : ℕ) : HandshakeEngine :=
  if e.status = .handshake then e.outEvent options accepted
  else { e with out := e.out.drop accepted }

/-- The bytes that an `out_event` gives to the socket: of the whole buffer, as it is if nothing is
accepted. -/
def accepted (options : Options) (e : HandshakeEngine) (count : ℕ) : List UInt8 :=
  (outEvent options e 0).out.take count

/-- Bytes arrive. -/
def deliver (bytes : List UInt8) (p : Party) : Party :=
  { p with engine := { p.engine with peer := p.engine.peer ++ bytes } }

variable (ends : Endpoints)

/-- One event. A call of `recv` fails only behind the end of the other side. -/
def step (s : HandshakePair) : Bool × PartyEvent → Option HandshakePair
  | (i, .inEvent reads) =>
    if (s i).engine.status = .handshake ∧
        (.failed ∈ reads → (s !i).engine.status = .closed) then
      some (join i { s i with engine := (s i).engine.inEvent (ends.options i) reads [] } (s !i))
    else none
  | (i, .outEvent count) =>
    if (s i).engine.status = .handshake ∨ (s i).engine.status = .ready then
      some (join i { s i with engine := outEvent (ends.options i) (s i).engine count }
        (deliver (accepted (ends.options i) (s i).engine count) (s !i)))
    else none
  | (i, .write bytes) =>
    if (s i).engine.status = .ready ∧ (s i).engine.out = [] then
      some (join i ⟨{ (s i).engine with out := bytes }, (s i).later ++ bytes⟩ (s !i))
    else none

/-- Two new engines, under every interleaving. -/
def machine : Machine HandshakePair (Bool × PartyEvent) where
  init := fun i => ⟨(HandshakeEngine.machine (ends.options i) []).init, []⟩
  step := step ends

end HandshakePair

/-! ## A command with anything behind it -/

namespace Decoder

variable {d d' : Decoder} {msg : Msg} {msgs : List Msg} {data after rest tail : List UInt8}

/-- Data behind a message are not looked at. -/
theorem decodeLoop_append {fuel fuel' used count : ℕ} (hfuel : fuel ≤ fuel')
    (hloop : decodeLoop fuel data used d = (.message, count, d')) (tail : List UInt8) :
    decodeLoop fuel' (data ++ tail) used d = (.message, count, d') := by
  induction fuel generalizing fuel' data used d with
  | zero => cases hloop
  | succ fuel ih =>
      obtain ⟨fuel', rfl⟩ : ∃ k, fuel' = k + 1 := ⟨fuel' - 1, by omega⟩
      rw [decodeLoop] at hloop ⊢
      by_cases hempty : data = []
      · rw [if_pos hempty] at hloop
        cases hloop
      rw [if_neg hempty] at hloop
      rw [if_neg (List.append_ne_nil_of_left_ne_nil hempty tail)]
      by_cases hread : d.toRead ≤ data.length
      · have hlong : d.toRead ≤ (data ++ tail).length := by
          rw [List.length_append]
          omega
        dsimp only at hloop ⊢
        rw [Nat.min_eq_left hread] at hloop
        rw [Nat.min_eq_left hlong, List.take_append_of_le_length hread,
          List.drop_append_of_le_length hread]
        rcases htake : d.take (data.take d.toRead) with ⟨result, d₁⟩
        rw [htake] at hloop
        cases result with
        | more => exact ih (Nat.le_of_succ_le_succ hfuel) hloop
        | error => exact hloop
        | fault => exact hloop
        | message => exact hloop
      · -- all data are stored, and the step waits for more
        dsimp only at hloop
        rw [Nat.min_eq_right (Nat.le_of_not_le hread), List.take_length, List.drop_length, take,
          runSteps_of_pos (by dsimp only; omega)] at hloop
        dsimp only at hloop
        exfalso
        cases fuel with
        | zero => cases hloop
        | succ fuel =>
            rw [decodeLoop, if_pos rfl] at hloop
            cases hloop

/-- A step waits for bytes of its message only. -/
theorem Expects.toRead_le (h : d.Expects [msg] rest) : d.toRead ≤ rest.length := by
  cases h with
  | flags _ _ _ hread =>
      have hpos := Encoder.length_header_pos msg
      rw [hread, stream_cons, List.length_append]
      omega
  | oneByteSize _ _ _ _ hread _ _ _ =>
      rw [hread, List.length_append]
      exact Nat.le_add_right _ _
  | eightByteSize _ _ left _ _ _ hread _ _ =>
      rw [hread, List.length_append]
      exact Nat.le_add_right _ _
  | content _ _ left _ _ _ hread _ _ =>
      rw [hread, List.length_append]
      exact Nat.le_add_right _ _

/-- What `decode` does with data of a message and of what comes behind it. -/
inductive Command (msg : Msg) (data rest : List UInt8) : DecodeResult × ℕ × Decoder → Prop
  | more (d : Decoder) (left : List UInt8) (hrest : rest = data ++ left)
      (hd : d.Expects [msg] left) : Command msg data rest (.more, data.length, d)
  | message (d : Decoder) (behind : List UInt8) (hdata : data = rest ++ behind)
      (hmsg : d.inProgress = msg) (hd : d.Expects [] []) :
      Command msg data rest (.message, rest.length, d)

theorem Expects.ne_nil (h : d.Expects [msg] rest) : rest ≠ [] := by
  have hpos := toRead_pos h
  have hle := h.toRead_le
  exact List.length_pos_iff.mp (hpos.trans_le hle)

theorem Expects.eq_nil (h : d.Expects [] rest) : rest = [] := by
  cases h with
  | flags _ _ _ _ => rfl

/-- **A command.** The bytes that are left of it are decoded, whatever stands behind them. -/
theorem Expects.decode_command (h : d.Expects [msg] rest) (hunlimited : d.Unlimited)
    (hsize : sizeofContent + msg.size < 2 ^ 64) (hne : data ≠ [])
    (hsplit : data ++ after = rest ++ tail)
    {zeroCopy : Bool} (hzero : zeroCopy = true → data.length ≤ d.toRead) :
    ∃ result, d.decode zeroCopy data = some result ∧ Command msg data rest result ∧
      result.2.2.Unlimited := by
  have hsizes : ∀ m ∈ [msg], sizeofContent + m.size < 2 ^ 64 := by
    intro m hm
    rwa [List.mem_singleton.mp hm]
  rcases Nat.lt_or_ge rest.length data.length with hlong | hshort
  · obtain ⟨behind, rfl⟩ : rest <+: data :=
      List.prefix_of_prefix_length_le ⟨tail, rfl⟩ ⟨after, hsplit⟩ hlong.le
    have hcopy : zeroCopy = false := by
      by_contra hcopy
      have hread := hzero (Bool.not_eq_false _ ▸ hcopy)
      have hle := h.toRead_le
      omega
    subst hcopy
    have hexpects : d.Expects [msg] (rest ++ []) := by rwa [List.append_nil]
    obtain ⟨result, hdecode, hdecoded, hkeeps⟩ :=
      hexpects.decode hunlimited hsizes h.ne_nil fun hfalse => Bool.false_ne_true hfalse |>.elim
    cases hdecoded with
    | more d' hd => exact absurd rfl hd.ne_nil
    | message msg' msgs' used d' hmsgs hmsg hused hpos hd =>
        obtain ⟨rfl, rfl⟩ := List.cons.inj hmsgs
        rw [List.append_nil] at hd
        obtain rfl : used = rest.length := Nat.le_antisymm hused (List.drop_eq_nil_iff.mp hd.eq_nil)
        refine ⟨_, ?_, .message d' behind rfl hmsg (hd.eq_nil ▸ hd),
          hunlimited.of_keeps hkeeps⟩
        have hloop := Option.some.inj hdecode
        exact congrArg some (decodeLoop_append (List.length_append ▸ Nat.le_add_right _ _) hloop
          behind)
  · obtain ⟨left, rfl⟩ : data <+: rest :=
      List.prefix_of_prefix_length_le ⟨after, hsplit⟩ ⟨tail, rfl⟩ hshort
    obtain ⟨result, hdecode, hdecoded, hkeeps⟩ := h.decode hunlimited hsizes hne hzero
    refine ⟨result, hdecode, ?_, hunlimited.of_keeps hkeeps⟩
    cases hdecoded with
    | more d' hd => exact .more d' left rfl hd
    | message msg' msgs' used d' hmsgs hmsg hused hpos hd =>
        obtain ⟨rfl, rfl⟩ := List.cons.inj hmsgs
        obtain ⟨hdrop, rfl⟩ := List.append_eq_nil_iff.mp hd.eq_nil
        obtain rfl : used = data.length := Nat.le_antisymm hused (List.drop_eq_nil_iff.mp hdrop)
        rw [hdrop] at hd
        have hmessage : Command msg data (data ++ []) (.message, (data ++ []).length, d') :=
          .message d' [] (by rw [List.append_nil, List.append_nil]) hmsg hd
        rwa [List.append_nil] at hmessage ⊢

end Decoder

namespace HandshakePair

/-! ## What the sides have said and heard -/

/-- The greeting of an engine with the `NULL` mechanism. -/
def greeting (options : Options) : List UInt8 :=
  0xff :: putUInt64 (options.identity.length + 1) ++ [0x7f] ++
    (3 :: (0 :: mechanismName "NULL" ++ List.replicate 32 0))

theorem length_greeting (options : Options) : (greeting options).length = v3GreetingSize := rfl

/-- The message of the `READY` command. -/
def readyMsg (options : Options) : Msg := ⟨false, true, NullMechanism.readyCommand options⟩

/-- The own command has been put into the buffer. -/
def commandSent (e : HandshakeEngine) : Bool :=
  (e.mechanism.map NullMechanism.readyCommandSent).getD false

/-- The command of the other side has been processed. -/
def commandReceived (e : HandshakeEngine) : Bool :=
  (e.mechanism.map NullMechanism.readyCommandReceived).getD false

/-- The commands that have been put into the buffer. -/
def commands (options : Options) (e : HandshakeEngine) : List Msg :=
  if commandSent e then [readyMsg options] else []

/-- All that a side has put into its buffer. -/
def said (options : Options) (p : Party) : List UInt8 :=
  (greeting options).take p.engine.greetingEnd ++
    (Decoder.stream (commands options p.engine) ++ p.later)

/-- What a side has said and the other engine has not looked at. -/
def unread (e : HandshakeEngine) (p : Party) : List UInt8 := e.input ++ (e.peer ++ p.engine.out)

/-- The identity that is kept of the other side. -/
def expectedIdentity (own other : Options) : List UInt8 :=
  if NullMechanism.TellsIdentity other.type ∧ own.recvIdentity = true then other.identity else []

/-- An engine behind the greeting, whose side has written `later` behind its command. -/
structure Settled (e : HandshakeEngine) (later : List UInt8) : Prop where
  handshaking_eq : e.handshaking = false
  greetingEnd_eq : e.greetingEnd = v3GreetingSize
  mechanism : ∃ m, e.mechanism = some m ∧ (m.readyCommandReceived = false → m.identity = [])
  encoder : ∃ encoder, e.encoder = some encoder ∧ encoder.Phase ∧ encoder.inProgress = none
  alive : e.status = .handshake ∨ e.status = .ready
  waiting : e.status = .handshake → later = [] ∧ e.readMsg = some .handshakeCommand ∧
    e.writeMsg = some .handshakeCommand ∧ ¬ (commandSent e = true ∧ commandReceived e = true)
  ready : e.status = .ready → commandSent e = true ∧ commandReceived e = true

/-- Only behind a whole greeting a command is sent. -/
def Formed (e : HandshakeEngine) : Prop :=
  e.greetingEnd ≤ v3GreetingSize ∧ (e.greetingEnd = v3GreetingSize ∨ commandSent e = false)

/-- A side between two events. -/
inductive Own (p : Party) : Prop
  | closed (hstatus : p.engine.status = .closed) (hformed : Formed p.engine) (hlater : p.later = [])
  | greeting (h : p.engine.Greeting (p.engine.greetingRecv ++ p.engine.peer))
      (hroom : p.engine.greetingRecv.length < p.engine.greetingSize)
      (hmechanism : p.engine.mechanism = none) (hlater : p.later = [])
  | settled (h : Settled p.engine p.later)
      (hinput : p.engine.status = .handshake → p.engine.input = [])

/-- What an engine has made of that which the other side, `p`, has said. -/
inductive Hears (own other : Options) (e : HandshakeEngine) (p : Party) : Prop
  | greeting (hphase : e.handshaking = true)
      (hsaid : e.greetingRecv ++ (e.peer ++ p.engine.out) = said other p)
  | command (decoder : Decoder) (rest : List UInt8) (hphase : e.handshaking = false)
      (hend : p.engine.greetingEnd = v3GreetingSize) (hdecoder : e.decoder = some decoder)
      (hunlimited : decoder.Unlimited) (hreceived : commandReceived e = false)
      (hexpects : decoder.Expects (commands other p.engine) rest)
      (hunread : unread e p = rest ++ p.later)
  | records (decoder : Decoder) (hphase : e.handshaking = false)
      (hend : p.engine.greetingEnd = v3GreetingSize) (hdecoder : e.decoder = some decoder)
      (hreceived : commandReceived e = true) (hsent : commandSent p.engine = true)
      (htype : other.type ∈ peerTypes own.type)
      (hidentity : e.mechanism.map NullMechanism.identity = some (expectedIdentity own other))
      (hunlimited : decoder.Unlimited) (hexpects : decoder.Expects [] [])
      (hunread : unread e p = p.later)

variable {own other : Options} {e e' : HandshakeEngine} {p p' : Party} {reads : List Recv}
  {later : List UInt8}

theorem commandSent_eq {m : NullMechanism} (h : e.mechanism = some m) :
    commandSent e = m.readyCommandSent := by
  rw [commandSent, h]
  rfl

theorem commandReceived_eq {m : NullMechanism} (h : e.mechanism = some m) :
    commandReceived e = m.readyCommandReceived := by
  rw [commandReceived, h]
  rfl

/-- What an engine does to its output without loading a command: it says more of its greeting. -/
structure Spoke (options : Options) (e e' : HandshakeEngine) : Prop where
  sent_eq : commandSent e' = commandSent e
  more : ∃ bytes, e'.out = e.out ++ bytes ∧
    (greeting options).take e'.greetingEnd = (greeting options).take e.greetingEnd ++ bytes
  mono : e.greetingEnd ≤ e'.greetingEnd
  le : e.greetingEnd ≤ v3GreetingSize → e'.greetingEnd ≤ v3GreetingSize

theorem Spoke.of_eq {options : Options} (hsent : commandSent e' = commandSent e)
    (hout : e'.out = e.out) (hend : e'.greetingEnd = e.greetingEnd) : Spoke options e e' :=
  ⟨hsent, ⟨[], by rw [hout, List.append_nil], by rw [hend, List.append_nil]⟩, hend.ge,
    fun hle => hend.trans_le hle⟩

theorem Spoke.trans {options : Options} {e'' : HandshakeEngine} (h : Spoke options e e')
    (h' : Spoke options e' e'') : Spoke options e e'' := by
  obtain ⟨bytes, hout, htake⟩ := h.more
  obtain ⟨bytes', hout', htake'⟩ := h'.more
  refine ⟨h'.sent_eq.trans h.sent_eq, ⟨bytes ++ bytes', ?_, ?_⟩, h.mono.trans h'.mono,
    fun hle => h'.le (h.le hle)⟩
  · rw [hout', hout, List.append_assoc]
  · rw [htake', htake, List.append_assoc]

/-! ## The greetings -/

/-- The bytes come from a side of this kind. -/
def Honest (peer : List UInt8) : Prop := ∃ options tail, peer <+: greeting options ++ tail

theorem Honest.getElem? {peer : List UInt8} (h : Honest peer) {i : ℕ} {b : UInt8}
    (hb : peer[i]? = some b) : ∃ options tail, (greeting options ++ tail)[i]? = some b := by
  obtain ⟨options, tail, rest, hrest⟩ := h
  obtain ⟨hi, -⟩ := List.getElem?_eq_some_iff.mp hb
  refine ⟨options, tail, ?_⟩
  rw [← hrest, List.getElem?_append_left hi, hb]

theorem Honest.versioned {peer : List UInt8} (h : Honest peer) :
    HandshakeEngine.Versioned peer := by
  refine ⟨fun b hb => ?_, fun b hb => ?_, fun b hb _ => ?_⟩
  · obtain ⟨options, tail, hb'⟩ := h.getElem? hb
    exact (Option.some.inj hb').symm
  · obtain ⟨options, tail, hb'⟩ := h.getElem? hb
    rw [← Option.some.inj hb']
    decide
  · obtain ⟨options, tail, hb'⟩ := h.getElem? hb
    rw [← Option.some.inj hb']
    decide

/-- The revision of an honest side. -/
theorem Honest.revision {peer : List UInt8} (h : Honest peer) (hreceived : e.Greeting peer)
    (hlength : signatureSize < e.greetingRecv.length) : e.greetingByte 10 = 3 := by
  obtain ⟨options, tail, hb⟩ :=
    h.getElem? (HandshakeEngine.getElem?_peer hreceived.received hlength)
  exact (Option.some.inj hb).symm

/-- Bytes of a side with this mechanism: more of its greeting is said. -/
theorem spoke_sendVersion (hnull : own.mechanism = .null)
    (hend : e.greetingEnd = signatureSize ∨ e.greetingEnd = signatureSize + 1 ∨
      e.greetingEnd = v3GreetingSize)
    (hbyte : signatureSize < e.greetingRecv.length → e.greetingByte 10 = 3) :
    Spoke own e (e.sendVersion own) := by
  obtain ⟨e₁, hmajor, hend₁, hrecv₁, hspoke₁⟩ : ∃ e₁, e.sendMajor = e₁ ∧
      (e₁.greetingEnd = signatureSize + 1 ∨ e₁.greetingEnd = v3GreetingSize) ∧
      e₁.greetingRecv = e.greetingRecv ∧ Spoke own e e₁ := by
    rcases hend with hend | hend
    · refine ⟨_, if_pos hend, .inl ?_, rfl, rfl, ⟨[3], rfl, ?_⟩, Nat.le_add_right _ _, fun _ => ?_⟩
      · exact congrArg (· + 1) hend
      · change (greeting own).take (e.greetingEnd + 1) = _
        rw [hend]
        rfl
      · change e.greetingEnd + 1 ≤ v3GreetingSize
        rw [hend]
        decide
    · refine ⟨e, if_neg ?_, hend, rfl, .of_eq rfl rfl rfl⟩
      rcases hend with hend | hend
      · rw [hend]
        decide
      · rw [hend]
        decide
  refine hspoke₁.trans ?_
  have hbyte₁ : e₁.greetingByte 10 = e.greetingByte 10 := by
    rw [HandshakeEngine.greetingByte, hrecv₁, HandshakeEngine.greetingByte]
  simp only [HandshakeEngine.sendVersion, hmajor, hnull]
  rw [hrecv₁, hbyte₁]
  by_cases hversion : signatureSize < e.greetingRecv.length ∧ e₁.greetingEnd = signatureSize + 1
  · rw [if_pos hversion, hbyte hversion.1, if_neg (by decide)]
    refine ⟨rfl, ⟨_, rfl, ?_⟩, Nat.le_add_right _ _, fun _ => ?_⟩
    · change (greeting own).take (e₁.greetingEnd + 53) = _
      rw [hversion.2]
      rfl
    · change e₁.greetingEnd + 53 ≤ v3GreetingSize
      rw [hversion.2]
      decide
  · rw [if_neg hversion]
    exact .of_eq rfl rfl rfl

/-- Where our greeting ends while that of an honest side arrives. -/
theorem greetingEnd_cases {peer : List UInt8} (hpeer : Honest peer) (h : e.Greeting peer) :
    e.greetingEnd = signatureSize ∨ e.greetingEnd = signatureSize + 1 ∨
      e.greetingEnd = v3GreetingSize := by
  have hprogress := h.progress
  have hrevision := hpeer.revision h
  generalize e.greetingEnd = greetingEnd at hprogress ⊢
  generalize e.greetingSize = greetingSize at hprogress
  cases hprogress with
  | signature _ => exact .inl rfl
  | revision _ => exact .inr (.inl rfl)
  | current _ _ _ => exact .inr (.inr rfl)
  | older hlength hold =>
      have hthree := hrevision (by rw [hlength]; decide)
      change e.greetingByte 10 = 0 ∨ e.greetingByte 10 = 1 at hold
      rw [hthree] at hold
      exact absurd hold (by decide)

/-- What the loop of `handshake` says and reads. It gives up only if a call of `recv` fails. -/
structure Greeted (options : Options) (e : HandshakeEngine) (reads : List Recv)
    (result : Option (List Recv) × HandshakeEngine) : Prop where
  spoke : Spoke options e result.2
  mechanism_eq : result.2.mechanism = e.mechanism
  closed : result.2.status = .closed → .failed ∈ reads
  left : ∀ left, result.1 = some left → left ⊆ reads
  taken : result.2.peer.length ≤ e.peer.length
  taken_one : e.greetingRecv.length < e.greetingSize → reads = [.data 1] →
    result.2.peer.length ≤ e.peer.length - 1

/-- The loop of `handshake`. -/
theorem greeted_receiveGreeting {peer : List UInt8} (hnull : own.mechanism = .null)
    (hpeer : Honest peer) (reads : List Recv) (h : e.Greeting peer) :
    Greeted own e reads (HandshakeEngine.receiveGreeting own reads e) := by
  have hopen : e.status = .closed → .failed ∈ reads := fun hclosed =>
    absurd (h.status_eq.symm.trans hclosed) (by decide)
  have hsame : Spoke own e e := .of_eq rfl rfl rfl
  induction reads generalizing e with
  | nil =>
      unfold HandshakeEngine.receiveGreeting
      split_ifs with hroom
      · exact ⟨hsame, rfl, hopen, fun _ hnone => (by cases hnone), le_rfl,
          fun _ hone => (by cases hone)⟩
      · refine ⟨hsame, rfl, hopen, fun _ hsome => ?_, le_rfl, fun _ hone => (by cases hone)⟩
        rw [← Option.some.inj hsome]
        exact List.Subset.refl _
  | cons read reads ih =>
      unfold HandshakeEngine.receiveGreeting
      split_ifs with hroom
      · cases read with
        | again =>
            exact ⟨hsame, rfl, hopen, fun _ hnone => (by cases hnone), le_rfl,
              fun _ hone => (by cases hone)⟩
        | failed =>
            exact ⟨.of_eq rfl rfl rfl, rfl, fun _ => List.mem_cons_self,
              fun _ hnone => (by cases hnone), le_rfl, fun _ hone => (by cases hone)⟩
        | data limit =>
            dsimp only
            obtain ⟨bytes, hbytes⟩ : ∃ bytes,
                e.recvBytes (e.greetingSize - e.greetingRecv.length) limit = bytes := ⟨_, rfl⟩
            have hpart : bytes <+: e.peer := hbytes ▸ List.take_prefix _ _
            have hreceived := h.received_store hpart
            have hlength : (e.store bytes).greetingRecv.length =
                e.greetingRecv.length + bytes.length := List.length_append
            have hpeer' : (e.store bytes).peer.length = e.peer.length - bytes.length :=
              List.length_drop
            have hcount : bytes.length = min (min limit (e.greetingSize - e.greetingRecv.length))
                e.peer.length := by
              rw [← hbytes, HandshakeEngine.recvBytes, List.length_take]
            have hone : Recv.data limit :: reads = [.data 1] → e.peer.length - bytes.length ≤
                e.peer.length - 1 := by
              intro hone
              obtain ⟨hread, -⟩ := List.cons.inj hone
              obtain rfl := Recv.data.inj hread
              omega
            rw [hbytes]
            by_cases hempty : bytes = []
            · rw [if_pos hempty]
              refine ⟨hsame, rfl, hopen, fun _ hnone => (by cases hnone), le_rfl,
                fun _ hreads => ?_⟩
              have hle := hone hreads
              rwa [hempty] at hle
            rw [if_neg hempty]
            have hpos : 0 < bytes.length := List.length_pos_iff.mpr hempty
            have hstore : Spoke own e (e.store bytes) := .of_eq rfl rfl rfl
            have hstop : Greeted own e (.data limit :: reads) (some reads, e.store bytes) := by
              refine ⟨hstore, rfl, hopen, fun _ hsome => ?_, hpeer'.trans_le (Nat.sub_le _ _),
                fun _ hreads => hpeer'.trans_le (hone hreads)⟩
              rw [← Option.some.inj hsome]
              exact List.subset_cons_self _ _
            have hnext : ∀ e₁ : HandshakeEngine, e₁.Greeting peer → Spoke own e e₁ →
                e₁.mechanism = e.mechanism → e₁.peer.length = e.peer.length - bytes.length →
                Greeted own e (.data limit :: reads)
                  (HandshakeEngine.receiveGreeting own reads e₁) := by
              intro e₁ h₁ hspoke hmechanism hrest
              have hgreeted := ih h₁ (fun hclosed =>
                absurd (h₁.status_eq.symm.trans hclosed) (by decide)) (.of_eq rfl rfl rfl)
              refine ⟨hspoke.trans hgreeted.spoke, hgreeted.mechanism_eq.trans hmechanism,
                fun hclosed => List.mem_cons_of_mem _ (hgreeted.closed hclosed),
                fun left hsome => List.subset_cons_of_subset _ (hgreeted.left left hsome), ?_, ?_⟩
              · exact hgreeted.taken.trans (hrest.trans_le (Nat.sub_le _ _))
              · exact fun _ hreads => hgreeted.taken.trans (hrest.trans_le (hone hreads))
            split_ifs with hfirst hshort hflags
            · exact hstop
            · refine hnext _ ?_ hstore rfl hpeer'
              exact ⟨h.status_eq, h.handshaking_eq, hreceived, h.encoder_eq, h.input_eq,
                h.progress.of_short hshort (by omega)⟩
            · exact hstop
            · obtain ⟨-, -, -, hrest, -, -, -, hmechanism⟩ :=
                HandshakeEngine.sendVersion_same own (e.store bytes)
              have hversion : Spoke own (e.store bytes) ((e.store bytes).sendVersion own) := by
                have hend := greetingEnd_cases hpeer h
                refine spoke_sendVersion hnull hend fun hlong => ?_
                obtain ⟨options, tail, hb⟩ :=
                  hpeer.getElem? (HandshakeEngine.getElem?_peer hreceived hlong)
                exact (Option.some.inj hb).symm
              exact hnext _ (h.sendVersion own hpeer.versioned hempty hpart (by omega)
                (Nat.not_lt.mp hshort)) (hstore.trans hversion) hmechanism
                (by rw [hrest, hpeer'])
      · refine ⟨hsame, rfl, hopen, fun _ hsome => ?_, le_rfl, fun hroom' => absurd hroom' hroom⟩
        rw [← Option.some.inj hsome]
        exact List.Subset.refl _

/-! ## The commands -/

/-- A command is short, because an identity is. -/
theorem size_readyMsg (hidentity : other.identity.length < 2 ^ 8) :
    (readyMsg other).size < 2 ^ 9 := by
  have htype : (textBytes (socketTypeString other.type)).length ≤ 6 := by
    cases other.type <;> decide
  have hproperty : ∀ name value, (addProperty name value).length =
      1 + name.length + 4 + value.length := by
    intro name value
    rw [addProperty, List.length_append, List.cons_append, List.length_cons, List.length_append,
      NullMechanism.length_textBytes, Property.length_putUInt32]
    omega
  have hfirst :
      (addProperty "Socket-Type" (textBytes (socketTypeString other.type))).length ≤ 22 := by
    rw [hproperty]
    change 1 + 11 + 4 + _ ≤ 22
    omega
  have hsecond : (addProperty "Identity" other.identity).length ≤ 13 + 255 := by
    rw [hproperty]
    change 1 + 8 + 4 + _ ≤ _
    omega
  change (NullMechanism.readyCommand other).length < 2 ^ 9
  rw [NullMechanism.readyCommand, List.length_append, List.length_append]
  change 6 + _ + _ < _
  split_ifs
  · omega
  · rw [List.length_nil]
    omega

theorem processInput_nil (hinput : e.input = []) (fuel : ℕ) :
    HandshakeEngine.processInput own fuel e = e := by
  cases fuel with
  | zero => rfl
  | succ fuel => exact if_pos hinput

/-- What an engine makes of input: it gives up, or it goes on hearing the other side. -/
def Heard (own other : Options) (p : Party) (later : List UInt8) (e : HandshakeEngine) : Prop :=
  e.status = .closed ∧ other.type ∉ peerTypes own.type ∨
    Settled e later ∧ (e.status = .handshake → e.input = []) ∧ Hears own other e p

/-- The output stays as it is. -/
structure Silent (e e' : HandshakeEngine) : Prop where
  out_eq : e'.out = e.out
  greetingEnd_eq : e'.greetingEnd = e.greetingEnd
  commandSent_eq : commandSent e' = commandSent e
  peer_eq : e'.peer = e.peer

theorem Silent.trans {e'' : HandshakeEngine} (h : Silent e e') (h' : Silent e' e'') :
    Silent e e'' :=
  ⟨h'.out_eq.trans h.out_eq, h'.greetingEnd_eq.trans h.greetingEnd_eq,
    h'.commandSent_eq.trans h.commandSent_eq, h'.peer_eq.trans h.peer_eq⟩

/-- The command of the other side is there. What is left behind it is input for the records. -/
theorem heard_processHandshakeCommand (h : Settled e later) (hstatus : e.status = .handshake)
    (hidentity : other.identity.length < 2 ^ 8) (hreceived : commandReceived e = false)
    {decoder : Decoder} (hdecoder : e.decoder = some decoder) (hunlimited : decoder.Unlimited)
    (hexpects : decoder.Expects [] [])
    (hend : p.engine.greetingEnd = v3GreetingSize) (hsent : commandSent p.engine = true)
    (hunread : unread e p = p.later) (hquiet : commandSent e = false → p.later = []) :
    Heard own other p later (e.processHandshakeCommand own (readyMsg other)) ∧
      Silent e (e.processHandshakeCommand own (readyMsg other)) := by
  obtain ⟨m, hm, hnone⟩ := h.mechanism
  have hnew : m.readyCommandReceived = false := (commandReceived_eq hm).symm.trans hreceived
  have hidentity' : (if NullMechanism.TellsIdentity other.type ∧ own.recvIdentity = true then
      other.identity else m.identity) = expectedIdentity own other := by
    rw [hnone hnew, expectedIdentity]
  have hprocess : m.processHandshakeCommand own
      ⟨false, true, NullMechanism.readyCommand other⟩ = _ :=
    NullMechanism.processHandshakeCommand_readyCommand hnew hidentity
  rw [hidentity'] at hprocess
  have hsent' := commandSent_eq hm
  rw [HandshakeEngine.processHandshakeCommand, hm]
  dsimp only
  rw [readyMsg, hprocess]
  by_cases htype : other.type ∈ peerTypes own.type
  · rw [if_pos htype]
    dsimp only
    obtain ⟨m', hm'⟩ : ∃ m' : NullMechanism, m' =
      { m with readyCommandReceived := true, identity := expectedIdentity own other } := ⟨_, rfl⟩
    have hsame : m'.readyCommandSent = m.readyCommandSent := by rw [hm']
    have hdone : m'.readyCommandReceived = true := by rw [hm']
    have hkept : m'.identity = expectedIdentity own other := by rw [hm']
    have hcomplete : m'.isHandshakeComplete = m.readyCommandSent := by
      rw [NullMechanism.isHandshakeComplete, hdone, hsame, Bool.true_and]
    rw [← hm', hcomplete]
    -- what holds of the engine with this mechanism, whether it goes on waiting or not
    obtain ⟨e₁, he₁⟩ : ∃ e₁ : HandshakeEngine, e₁ = { e with mechanism := some m' } := ⟨_, rfl⟩
    have hm₁ : e₁.mechanism = some m' := by rw [he₁]
    have hsent₁ : commandSent e₁ = commandSent e := by
      rw [commandSent_eq hm₁, hsame, commandSent_eq hm]
    have hreceived₁ : commandReceived e₁ = true := by rw [commandReceived_eq hm₁, hdone]
    have hidentity₁ : e₁.mechanism.map NullMechanism.identity =
        some (expectedIdentity own other) := by
      rw [hm₁, Option.map_some, hkept]
    have hmechanism₁ : ∃ m, e₁.mechanism = some m ∧
        (m.readyCommandReceived = false → m.identity = []) :=
      ⟨m', hm₁, fun hfalse => absurd (hdone.symm.trans hfalse) (by decide)⟩
    rw [← he₁]
    cases hsentm : m.readyCommandSent with
    | true =>
        have hready : commandSent e = true := (commandSent_eq hm).trans hsentm
        subst he₁
        rw [if_pos rfl]
        refine ⟨.inr ⟨⟨h.handshaking_eq, h.greetingEnd_eq, hmechanism₁, h.encoder, .inr rfl,
          fun hwaiting => (by cases hwaiting), fun _ => ⟨hsent₁.trans hready, hreceived₁⟩⟩,
          fun hwaiting => (by cases hwaiting),
          .records decoder h.handshaking_eq hend hdecoder hreceived₁ hsent htype hidentity₁
            hunlimited hexpects hunread⟩, ⟨rfl, rfl, hsent₁, rfl⟩⟩
    | false =>
        have hunsent : commandSent e = false := (commandSent_eq hm).trans hsentm
        have hempty : unread e p = [] := hunread.trans (hquiet hunsent)
        obtain ⟨hlater, hread, hwrite, -⟩ := h.waiting hstatus
        subst he₁
        rw [if_neg Bool.false_ne_true]
        refine ⟨.inr ⟨⟨h.handshaking_eq, h.greetingEnd_eq, hmechanism₁, h.encoder, .inl hstatus,
          fun _ => ⟨hlater, hread, hwrite, fun hboth => ?_⟩,
          fun hready => absurd (hstatus.symm.trans hready) (by decide)⟩,
          fun _ => (List.append_eq_nil_iff.mp hempty).1,
          .records decoder h.handshaking_eq hend hdecoder hreceived₁ hsent htype hidentity₁
            hunlimited hexpects hunread⟩, ⟨rfl, rfl, hsent₁, rfl⟩⟩
        exact Bool.false_ne_true ((hsent₁.trans hunsent).symm.trans hboth.1)
  · rw [if_neg htype]
    exact ⟨.inl ⟨rfl, htype⟩, ⟨rfl, rfl, rfl, rfl⟩⟩

/-- An engine in the same place, with other input. -/
theorem Settled.of_eq (h : Settled e later) (hhandshaking : e'.handshaking = e.handshaking)
    (hend : e'.greetingEnd = e.greetingEnd) (hmechanism : e'.mechanism = e.mechanism)
    (hencoder : e'.encoder = e.encoder) (hstatus : e'.status = e.status)
    (hread : e'.readMsg = e.readMsg) (hwrite : e'.writeMsg = e.writeMsg) : Settled e' later where
  handshaking_eq := hhandshaking.trans h.handshaking_eq
  greetingEnd_eq := hend.trans h.greetingEnd_eq
  mechanism := by rw [hmechanism]; exact h.mechanism
  encoder := by rw [hencoder]; exact h.encoder
  alive := by rw [hstatus]; exact h.alive
  waiting := by
    rw [hstatus, hread, hwrite, commandSent, commandReceived, hmechanism]
    exact h.waiting
  ready := by
    rw [hstatus, commandSent, commandReceived, hmechanism]
    exact h.ready

/-- The loop of `in_event`. -/
theorem heard_processInput (h : Settled e later) (hstatus : e.status = .handshake)
    (hidentity : other.identity.length < 2 ^ 8) (hears : Hears own other e p)
    (hquiet : commandSent e = false → p.later = [])
    (hsilent : commandSent p.engine = false → p.later = [])
    (hzero : e.zeroCopy = true → ∀ decoder, e.decoder = some decoder →
      e.input.length ≤ decoder.toRead)
    {fuel : ℕ} (hfuel : e.input.length ≤ fuel) :
    Heard own other p later (HandshakeEngine.processInput own fuel e) ∧
      Silent e (HandshakeEngine.processInput own fuel e) := by
  by_cases hinput : e.input = []
  · rw [processInput_nil hinput]
    exact ⟨.inr ⟨h, fun _ => hinput, hears⟩, rfl, rfl, rfl, rfl⟩
  have hunread : unread e p ≠ [] := List.append_ne_nil_of_left_ne_nil hinput _
  obtain ⟨hlater, hread, hwrite, hcomplete⟩ := h.waiting hstatus
  cases hears with
  | greeting hphase _ => exact absurd (h.handshaking_eq.symm.trans hphase) (by decide)
  | records decoder hphase hend hdecoder hreceived hsent htype hkept _ hexpects hall =>
      have hunsent : commandSent e = false := by
        by_contra hsent'
        exact hcomplete ⟨Bool.not_eq_false _ ▸ hsent', hreceived⟩
      exact absurd (hall.trans (hquiet hunsent)) hunread
  | command decoder rest hphase hend hdecoder hunlimited hreceived hexpects hall =>
      cases hsent : commandSent p.engine with
      | false =>
          rw [commands, if_neg (by rw [hsent]; decide)] at hexpects
          rw [hexpects.eq_nil, hsilent hsent] at hall
          exact absurd hall hunread
      | true =>
          rw [commands, if_pos hsent] at hexpects
          have hsize : sizeofContent + (readyMsg other).size < 2 ^ 64 :=
            (Nat.add_lt_add_left (size_readyMsg hidentity) _).trans (by decide)
          obtain ⟨⟨result, processed, decoder'⟩, hdecode, hcommand, hunlimited'⟩ :=
            hexpects.decode_command hunlimited hsize hinput hall fun hcopy =>
              hzero hcopy decoder hdecoder
          obtain ⟨fuel, rfl⟩ : ∃ k, fuel = k + 1 := by
            have hpos := List.length_pos_iff.mpr hinput
            exact ⟨fuel - 1, by omega⟩
          obtain ⟨e₁, he₁⟩ : ∃ e₁ : HandshakeEngine, { e with
            decoder := some decoder'
            input := e.input.drop processed
            zeroCopy := false } = e₁ := ⟨_, rfl⟩
          have h₁ : Settled e₁ later := by
            subst he₁
            exact h.of_eq rfl rfl rfl rfl rfl rfl rfl
          have hsilent₁ : Silent e e₁ := by
            subst he₁
            exact ⟨rfl, rfl, rfl, rfl⟩
          have hstatus₁ : e₁.status = .handshake := by rw [← he₁]; exact hstatus
          have hreceived₁ : commandReceived e₁ = false := by rw [← he₁]; exact hreceived
          have hdecoder₁ : e₁.decoder = some decoder' := by rw [← he₁]
          have hunread₁ : unread e₁ p = e.input.drop processed ++ (e.peer ++ p.engine.out) := by
            rw [← he₁]
            rfl
          rw [HandshakeEngine.processInput, if_neg hinput, hdecoder]
          dsimp only
          rw [hdecode]
          dsimp only
          rw [he₁]
          cases hcommand with
          | more _ left hrest hd =>
              rw [if_neg (lt_irrefl _)]
              refine ⟨.inr ⟨h₁, fun _ => ?_, .command decoder' left h₁.handshaking_eq hend hdecoder₁
                hunlimited' hreceived₁ ?_ ?_⟩, hsilent₁⟩
              · rw [← he₁]
                exact List.drop_length
              · rw [commands, if_pos hsent]
                exact hd
              · rw [hunread₁, List.drop_length, List.nil_append]
                rw [unread, hrest, List.append_assoc, List.append_cancel_left_eq] at hall
                exact hall
          | message _ behind hdata hmsg hd =>
              have hle : ¬ e.input.length < rest.length := by
                rw [hdata, List.length_append]
                omega
              dsimp only
              rw [if_neg hle, hwrite, hmsg]
              dsimp only
              have hall₁ : unread e₁ p = p.later := by
                rw [unread, hdata, List.append_assoc, List.append_cancel_left_eq] at hall
                rw [hunread₁, hdata, List.drop_left, hall]
              obtain ⟨hheard, hsilent₂⟩ := heard_processHandshakeCommand h₁ hstatus₁ hidentity
                hreceived₁ hdecoder₁ hunlimited' hd hend hsent hall₁ fun hunsent =>
                  hquiet (hsilent₁.commandSent_eq.symm.trans hunsent)
              have hsame : (if (e₁.processHandshakeCommand own (readyMsg other)).status = .handshake
                  then HandshakeEngine.processInput own fuel
                    (e₁.processHandshakeCommand own (readyMsg other))
                  else e₁.processHandshakeCommand own (readyMsg other)) =
                    e₁.processHandshakeCommand own (readyMsg other) := by
                split_ifs with hwaiting
                · rcases hheard with ⟨hclosed, -⟩ | ⟨-, hnothing, -⟩
                  · exact absurd (hwaiting.symm.trans hclosed) (by decide)
                  · exact processInput_nil (hnothing hwaiting) fuel
                · rfl
              rw [hsame]
              exact ⟨hheard, hsilent₁.trans hsilent₂⟩

/-- An engine behind the greeting of the other side, with the same bytes before it. -/
theorem Hears.of_unread (h : Hears own other e p) (hphase : e.handshaking = false)
    (hhandshaking : e'.handshaking = e.handshaking) (hdecoder' : e'.decoder = e.decoder)
    (hreceived' : commandReceived e' = commandReceived e)
    (hidentity' : e'.mechanism.map NullMechanism.identity = e.mechanism.map NullMechanism.identity)
    (hsent : commandSent p'.engine = commandSent p.engine)
    (hend' : p'.engine.greetingEnd = p.engine.greetingEnd) (hlater : p'.later = p.later)
    (hunread' : unread e' p' = unread e p) : Hears own other e' p' := by
  cases h with
  | greeting htrue _ => exact absurd (hphase.symm.trans htrue) (by decide)
  | command decoder rest _ hend hdecoder hunlimited hreceived hexpects hunread =>
      refine .command decoder rest (hhandshaking.trans hphase) (hend'.trans hend)
        (hdecoder'.trans hdecoder) hunlimited (hreceived'.trans hreceived) ?_ ?_
      · rw [commands, hsent]
        exact hexpects
      · rw [hunread', hunread, hlater]
  | records decoder _ hend hdecoder hreceived hsent' htype hidentity hunlimited hexpects hunread =>
      refine .records decoder (hhandshaking.trans hphase) (hend'.trans hend)
        (hdecoder'.trans hdecoder) (hreceived'.trans hreceived) (hsent.trans hsent') htype
        (hidentity'.trans hidentity) hunlimited hexpects ?_
      rw [hunread', hunread, hlater]

/-- Behind the greeting there is a decoder that waits for something and has the memory for it. -/
theorem Hears.exists_decoder (h : Hears own other e p) (hphase : e.handshaking = false) :
    ∃ decoder, e.decoder = some decoder ∧ decoder.Unlimited ∧ 0 < decoder.toRead := by
  cases h with
  | greeting htrue _ => exact absurd (hphase.symm.trans htrue) (by decide)
  | command decoder _ _ _ hdecoder hunlimited _ hexpects _ =>
      exact ⟨decoder, hdecoder, hunlimited, Decoder.toRead_pos hexpects⟩
  | records decoder _ _ hdecoder _ _ _ _ hunlimited hexpects _ =>
      exact ⟨decoder, hdecoder, hunlimited, Decoder.toRead_pos hexpects⟩

/-- A decoder whose memory is available. -/
theorem Hears.withMemory (h : Hears own other e p) (hphase : e.handshaking = false) :
    e.withMemory [] = e := by
  obtain ⟨decoder, hdecoder, hunlimited, -⟩ := h.exists_decoder hphase
  have hsame : { decoder with mallocs := [] } = decoder := by
    rw [← hunlimited.mallocs_eq]
  rw [HandshakeEngine.withMemory, hdecoder, Option.map_some, hsame, ← hdecoder]

/-- What a call of `in_event` leads to. -/
structure Listened (own other : Options) (p : Party) (later : List UInt8) (reads : List Recv)
    (e e' : HandshakeEngine) : Prop where
  outcome : e'.status = .closed ∧ .failed ∈ reads ∨ Heard own other p later e'
  silent : ∃ count, Silent { e with peer := e.peer.drop count } e' ∧
    (reads = [.data 1] → min 1 e.peer.length ≤ count)

/-- The part of `in_event` behind the greeting. -/
theorem listened_receive (h : Settled e later) (hstatus : e.status = .handshake)
    (hinput : e.input = []) (hidentity : other.identity.length < 2 ^ 8)
    (hears : Hears own other e p) (hquiet : commandSent e = false → p.later = [])
    (hsilent : commandSent p.engine = false → p.later = []) (reads : List Recv) :
    Listened own other p later reads e (e.receive own reads) := by
  obtain ⟨decoder, hdecoder, -, hpos⟩ := hears.exists_decoder h.handshaking_eq
  have hsame : Heard own other p later e := .inr ⟨h, fun _ => hinput, hears⟩
  unfold HandshakeEngine.receive
  rw [hdecoder]
  dsimp only
  rw [if_pos hinput]
  cases reads with
  | nil => exact ⟨.inr hsame, 0, ⟨rfl, rfl, rfl, rfl⟩, fun hone => by cases hone⟩
  | cons read reads =>
      cases read with
      | again => exact ⟨.inr hsame, 0, ⟨rfl, rfl, rfl, rfl⟩, fun hone => by cases hone⟩
      | failed =>
          exact ⟨.inl ⟨rfl, List.mem_cons_self⟩, 0, ⟨rfl, rfl, rfl, rfl⟩, fun hone => by cases hone⟩
      | data limit =>
          dsimp only
          obtain ⟨bytes, hbytes⟩ : ∃ bytes,
              e.recvBytes decoder.getBuffer.2 limit = bytes := ⟨_, rfl⟩
          rw [hbytes]
          have hpart : bytes <+: e.peer := hbytes ▸ List.take_prefix _ _
          have hall : bytes ++ e.peer.drop bytes.length = e.peer :=
            List.prefix_iff_eq_append.mp hpart
          obtain ⟨e₁, he₁⟩ : ∃ e₁ : HandshakeEngine, { e with
            peer := e.peer.drop bytes.length
            input := bytes
            zeroCopy := decoder.getBuffer.1
            decoder := some decoder } = e₁ := ⟨_, rfl⟩
          have hdecoder₁ : e₁.decoder = some decoder := by rw [← he₁]
          have hzero₁ : e₁.zeroCopy = decoder.getBuffer.1 := by rw [← he₁]
          have hinput₁ : e₁.input = bytes := by rw [← he₁]
          have h₁ : Settled e₁ later := by
            subst he₁
            exact h.of_eq rfl rfl rfl rfl rfl rfl rfl
          have hears₁ : Hears own other e₁ p := by
            subst he₁
            refine hears.of_unread h.handshaking_eq rfl hdecoder.symm rfl rfl rfl rfl rfl ?_
            rw [unread, unread, hinput, List.nil_append, ← List.append_assoc, hall]
          have hstatus₁ : e₁.status = .handshake := by rw [← he₁]; exact hstatus
          have hquiet₁ : commandSent e₁ = false → p.later = [] := by rw [← he₁]; exact hquiet
          have hsilent₁ : Silent { e with peer := e.peer.drop bytes.length } e₁ := by
            rw [← he₁]
            exact ⟨rfl, rfl, rfl, rfl⟩
          rw [he₁]
          have hcopy₁ : e₁.zeroCopy = true → ∀ decoder, e₁.decoder = some decoder →
              e₁.input.length ≤ decoder.toRead := by
            intro hcopy decoder' hdecoder'
            obtain rfl := Option.some.inj (hdecoder₁.symm.trans hdecoder')
            rw [hinput₁, ← hbytes]
            exact HandshakeEngine.length_recvBytes_le e limit (hzero₁ ▸ hcopy)
          have hfuel₁ : e₁.input.length ≤ bytes.length := by rw [hinput₁]
          obtain ⟨hheard, hsilent₂⟩ := heard_processInput h₁ hstatus₁ hidentity hears₁ hquiet₁
            hsilent hcopy₁ hfuel₁
          refine ⟨.inr hheard, bytes.length, hsilent₁.trans hsilent₂, fun hone => ?_⟩
          obtain ⟨hread, -⟩ := List.cons.inj hone
          obtain rfl := Recv.data.inj hread
          rw [← hbytes, HandshakeEngine.length_recvBytes hpos]

/-! ## Input -/

/-- With the greeting of the other side our own one is complete. -/
theorem greetingEnd_eq_of_complete {greeting : List UInt8} {greetingEnd greetingSize : ℕ}
    (h : HandshakeEngine.Progress greeting greetingEnd greetingSize)
    (hfull : greetingSize ≤ greeting.length) : greetingEnd = v3GreetingSize := by
  cases h with
  | signature hlength => exact absurd (hfull.trans_lt hlength) (by decide)
  | revision hlength => exact absurd (hfull.trans hlength.le) (by decide)
  | older hlength _ => exact absurd (hfull.trans hlength.le) (by decide)
  | current _ _ _ => rfl

theorem commandSent_of_none (h : e.mechanism = none) : commandSent e = false := by
  rw [commandSent, h]
  rfl

theorem Settled.open (h : Settled e later) : e.status ≠ .closed := by
  intro hclosed
  rcases h.alive with hstatus | hstatus
  · exact absurd (hstatus.symm.trans hclosed) (by decide)
  · exact absurd (hstatus.symm.trans hclosed) (by decide)

theorem Settled.formed (h : Settled e later) : Formed e :=
  ⟨h.greetingEnd_eq.le, .inl h.greetingEnd_eq⟩

theorem Spoke.formed (h : Spoke own e e') (hformed : Formed e) : Formed e' := by
  have hle := h.le hformed.1
  refine ⟨hle, ?_⟩
  rcases hformed.2 with hend | hsent
  · exact .inl (Nat.le_antisymm hle (hend.symm.trans_le h.mono))
  · exact .inr (h.sent_eq.trans hsent)

theorem Own.formed (h : Own p) : Formed p.engine := by
  cases h with
  | closed _ hformed _ => exact hformed
  | settled h _ => exact h.formed
  | greeting h hroom hmechanism hlater =>
      refine ⟨?_, .inr (commandSent_of_none hmechanism)⟩
      have hprogress := h.progress
      generalize p.engine.greetingEnd = greetingEnd at hprogress ⊢
      generalize p.engine.greetingSize = greetingSize at hprogress
      cases hprogress with
      | signature _ => decide
      | revision _ => decide
      | older _ _ => decide
      | current _ _ _ => exact le_rfl

theorem Own.later_eq (h : Own p) (hunsent : commandSent p.engine = false) : p.later = [] := by
  cases h with
  | closed _ _ hlater => exact hlater
  | greeting _ _ _ hlater => exact hlater
  | settled h _ =>
      rcases h.alive with hstatus | hstatus
      · exact (h.waiting hstatus).1
      · exact absurd (hunsent.symm.trans (h.ready hstatus).1) (by decide)

theorem stream_commands_of_unsent (hunsent : commandSent e = false) :
    Decoder.stream (commands own e) = [] := by
  rw [commands, if_neg (by rw [hunsent]; decide)]
  rfl

/-- What a side says is honest. -/
theorem honest_of_isPrefix {peer : List UInt8} (h : Own p) (hpart : peer <+: said other p) :
    Honest peer := by
  refine ⟨other, Decoder.stream (commands other p.engine) ++ p.later, hpart.trans ?_⟩
  rw [said]
  rcases h.formed.2 with hend | hunsent
  · rw [hend, ← length_greeting other, List.take_length]
  · rw [stream_commands_of_unsent hunsent, h.later_eq hunsent, List.append_nil, List.append_nil]
    exact List.take_prefix _ _

/-- What a call of `in_event` leads to, for the sides and for the bytes on their way. -/
structure Attended (own other : Options) (p : Party) (later : List UInt8) (reads : List Recv)
    (e e' : HandshakeEngine) : Prop where
  outcome : e'.status = .closed ∧ (.failed ∈ reads ∨ other.type ∉ peerTypes own.type) ∨
    e'.status ≠ .closed ∧ Own ⟨e', later⟩ ∧ Hears own other e' p
  spoke : Spoke own e e'
  taken : e'.peer.length ≤ e.peer.length
  taken_one : reads = [.data 1] → e'.peer.length ≤ e.peer.length - 1

/-- Behind the greeting. -/
theorem Listened.attended (h : Listened own other p later reads e e') :
    Attended own other p later reads e e' := by
  obtain ⟨count, hsilent, htaken⟩ := h.silent
  have hpeer : e'.peer.length = e.peer.length - count := by
    rw [hsilent.peer_eq]
    exact List.length_drop
  refine ⟨?_, .of_eq hsilent.commandSent_eq hsilent.out_eq hsilent.greetingEnd_eq,
    hpeer.trans_le (Nat.sub_le _ _), fun hone => ?_⟩
  · rcases h.outcome with ⟨hclosed, hfailed⟩ | ⟨hclosed, htype⟩ | ⟨hsettled, hinput, hears⟩
    · exact .inl ⟨hclosed, .inl hfailed⟩
    · exact .inl ⟨hclosed, .inr htype⟩
    · exact .inr ⟨hsettled.open, .settled hsettled hinput, hears⟩
  · have hle := htaken hone
    omega

/-- A whole greeting of the other side, and what is behind it. -/
theorem said_of_greeting (h : Own p) {recv rest : List UInt8} (hsaid : recv ++ rest = said other p)
    (hlength : recv.length = v3GreetingSize) :
    p.engine.greetingEnd = v3GreetingSize ∧ recv = greeting other ∧
      rest = Decoder.stream (commands other p.engine) ++ p.later := by
  have hend : p.engine.greetingEnd = v3GreetingSize := by
    rcases h.formed.2 with hend | hunsent
    · exact hend
    · rw [said, stream_commands_of_unsent hunsent, h.later_eq hunsent, List.append_nil,
        List.append_nil] at hsaid
      have htotal := congrArg List.length hsaid
      rw [List.length_append, List.length_take, length_greeting, hlength] at htotal
      have hle := h.formed.1
      omega
  rw [said, hend, ← length_greeting other, List.take_length] at hsaid
  obtain ⟨hrecv, hrest⟩ := List.append_inj hsaid (hlength.trans (length_greeting other).symm)
  exact ⟨hend, hrecv, hrest⟩

variable (own) in
/-- The engine that has the whole greeting of the other side, when the protocol has been selected. -/
theorem settled_behind_greeting {peer : List UInt8} (hp : Own p) (h : e.Greeting peer)
    (hfull : e.greetingSize ≤ e.greetingRecv.length) (hmechanism : e.mechanism = none)
    (hsaid : e.greetingRecv ++ (e.peer ++ p.engine.out) = said other p) (hlater : later = [])
    (hselected : { e with
      handshaking := false
      encoder := some .create
      decoder := some (.create inBatchSize (-1))
      mechanism := some .create
      readMsg := some .handshakeCommand
      writeMsg := some .handshakeCommand } = e') :
    Settled e' later ∧ Hears own other e' p ∧ Spoke own e e' ∧ e'.status = .handshake ∧
      e'.input = [] ∧ e'.peer = e.peer := by
  obtain ⟨hlength, -⟩ := h.progress.complete hfull
  obtain ⟨hend, -, hrest⟩ := said_of_greeting hp hsaid hlength
  have hunsent : commandSent e' = false := by rw [← hselected]; rfl
  subst hselected
  refine ⟨⟨rfl, greetingEnd_eq_of_complete h.progress hfull, ⟨_, rfl, fun _ => rfl⟩,
    ⟨_, rfl, .idle rfl rfl rfl rfl, rfl⟩, .inl h.status_eq,
    fun _ => ⟨hlater, rfl, rfl, fun hboth => ?_⟩, fun hready => ?_⟩, ?_,
    .of_eq (hunsent.trans (commandSent_of_none hmechanism).symm) rfl rfl, h.status_eq, h.input_eq,
    rfl⟩
  · exact absurd (hunsent.symm.trans hboth.1) (by decide)
  · exact absurd (h.status_eq.symm.trans hready) (by decide)
  · refine .command _ (Decoder.stream (commands other p.engine)) rfl hend rfl ⟨rfl, rfl⟩ rfl
      (.flags _ rfl rfl rfl) ?_
    rw [← hrest, unread]
    dsimp only
    rw [h.input_eq, List.nil_append]

/-- A call of `in_event` during the greeting. -/
theorem attended_greeting (hnull : own.mechanism = .null) (hmax : own.maxmsgsize = -1)
    (hidentity : other.identity.length < 2 ^ 8) (hp : Own p)
    (h : e.Greeting (e.greetingRecv ++ e.peer)) (hroom : e.greetingRecv.length < e.greetingSize)
    (hmechanism : e.mechanism = none)
    (hsaid : e.greetingRecv ++ (e.peer ++ p.engine.out) = said other p) (hlater : later = [])
    (hquiet : p.later = []) (reads : List Recv) :
    Attended own other p later reads e (e.inEvent own reads []) := by
  obtain ⟨peer, hpeer⟩ : ∃ peer, e.greetingRecv ++ e.peer = peer := ⟨_, rfl⟩
  rw [hpeer] at h
  rw [← List.append_assoc, hpeer] at hsaid
  have hhonest : Honest peer := honest_of_isPrefix hp ⟨p.engine.out, hsaid⟩
  have houtcome := h.receiveGreeting own hhonest.versioned reads
  have hgreeted := greeted_receiveGreeting hnull hhonest reads h
  rw [HandshakeEngine.inEvent, if_pos h.handshaking_eq, HandshakeEngine.handshake,
    if_pos ⟨h.handshaking_eq, hroom⟩]
  revert houtcome hgreeted
  rcases HandshakeEngine.receiveGreeting own reads e with ⟨left | left, e₁⟩
  all_goals intro houtcome hgreeted
  · refine ⟨?_, hgreeted.spoke, hgreeted.taken, hgreeted.taken_one hroom⟩
    rcases houtcome with hclosed | ⟨h₁, hroom₁⟩
    · exact .inl ⟨hclosed, .inl (hgreeted.closed hclosed)⟩
    · have hreceived : e₁.greetingRecv ++ e₁.peer = peer := h₁.received
      have hopen₁ : e₁.status ≠ .closed := by
        rw [h₁.status_eq]
        decide
      refine .inr ⟨hopen₁, .greeting (hreceived.symm ▸ h₁) hroom₁
        (hgreeted.mechanism_eq.trans hmechanism) hlater, .greeting h₁.handshaking_eq ?_⟩
      rw [← List.append_assoc, hreceived, hsaid]
  · obtain ⟨h₁, hfull₁⟩ := houtcome
    have hmechanism₁ : e₁.mechanism = none := hgreeted.mechanism_eq.trans hmechanism
    have hsaid₁ : e₁.greetingRecv ++ (e₁.peer ++ p.engine.out) = said other p := by
      rw [← List.append_assoc, h₁.received, hsaid]
    obtain ⟨hlength₁, -⟩ := h₁.progress.complete hfull₁
    obtain ⟨-, hrecv, -⟩ := said_of_greeting hp hsaid₁ hlength₁
    have hselect : e₁.selectProtocol own =
        { e₁ with
          encoder := some .create
          decoder := some (.create inBatchSize (-1))
          mechanism := some .create
          readMsg := some .handshakeCommand
          writeMsg := some .handshakeCommand } := by
      rw [(h₁.selectProtocol_eq own hhonest.versioned hfull₁).1, HandshakeEngine.selectMechanism,
        hmax]
      refine if_pos ⟨hnull, ?_⟩
      rw [hrecv]
      rfl
    dsimp only
    rw [hselect]
    dsimp only
    rw [if_neg (by rw [h₁.status_eq]; decide)]
    obtain ⟨e₂, he₂⟩ : ∃ e₂ : HandshakeEngine, { e₁ with
      handshaking := false
      encoder := some .create
      decoder := some (.create inBatchSize (-1))
      mechanism := some .create
      readMsg := some .handshakeCommand
      writeMsg := some .handshakeCommand } = e₂ := ⟨_, rfl⟩
    rw [he₂]
    obtain ⟨hsettled₂, hears₂, hspoke₂, hstatus₂, hinput₂, hpeer₂⟩ :=
      settled_behind_greeting own hp h₁ hfull₁ hmechanism₁ hsaid₁ hlater he₂
    have hattended := (listened_receive hsettled₂ hstatus₂ hinput₂ hidentity hears₂
      (fun _ => hquiet) (fun _ => hquiet) left).attended
    dsimp only
    rw [hears₂.withMemory hsettled₂.handshaking_eq]
    refine ⟨?_, (hgreeted.spoke.trans hspoke₂).trans hattended.spoke, ?_, fun hone => ?_⟩
    · rcases hattended.outcome with ⟨hclosed, hfailed | htype⟩ | hgoes
      · exact .inl ⟨hclosed, .inl (hgreeted.left left rfl hfailed)⟩
      · exact .inl ⟨hclosed, .inr htype⟩
      · exact .inr hgoes
    · exact hattended.taken.trans (hpeer₂ ▸ hgreeted.taken)
    · exact hattended.taken.trans (hpeer₂ ▸ hgreeted.taken_one hroom hone)

/-- **Input.** A call of `in_event`. -/
theorem attended_inEvent (hnull : own.mechanism = .null) (hmax : own.maxmsgsize = -1)
    (hidentity : other.identity.length < 2 ^ 8) {q : Party} (hq : Own q)
    (hstatus : q.engine.status = .handshake) (hp : Own p) (hears : Hears own other q.engine p)
    (hquiet : commandSent q.engine = false → p.later = []) (reads : List Recv) :
    Attended own other p q.later reads q.engine (q.engine.inEvent own reads []) := by
  cases hq with
  | closed hclosed _ _ => exact absurd (hstatus.symm.trans hclosed) (by decide)
  | greeting h hroom hmechanism hlater =>
      cases hears with
      | greeting _ hsaid =>
          exact attended_greeting hnull hmax hidentity hp h hroom hmechanism hsaid hlater
            (hquiet (commandSent_of_none hmechanism)) reads
      | command _ _ hphase _ _ _ _ _ _ =>
          exact absurd (hphase.symm.trans h.handshaking_eq) (by decide)
      | records _ hphase _ _ _ _ _ _ _ _ _ =>
          exact absurd (hphase.symm.trans h.handshaking_eq) (by decide)
  | settled h hinput =>
      rw [HandshakeEngine.inEvent, if_neg (by rw [h.handshaking_eq]; decide),
        hears.withMemory h.handshaking_eq]
      exact (listened_receive h hstatus (hinput hstatus) hidentity hears hquiet hp.later_eq
        reads).attended

/-! ## What the other side hears of it -/

/-- Bytes on their way arrive, or nothing changes between the sides. -/
theorem Hears.same (h : Hears own other e p) (hhandshaking : e'.handshaking = e.handshaking)
    (hdecoder : e'.decoder = e.decoder) (hreceived : commandReceived e' = commandReceived e)
    (hidentity : e'.mechanism.map NullMechanism.identity = e.mechanism.map NullMechanism.identity)
    (hrecv : e'.greetingRecv = e.greetingRecv) (hinput : e'.input = e.input)
    (hway : e'.peer ++ p'.engine.out = e.peer ++ p.engine.out)
    (hsent : commandSent p'.engine = commandSent p.engine)
    (hend : p'.engine.greetingEnd = p.engine.greetingEnd) (hlater : p'.later = p.later) :
    Hears own other e' p' := by
  cases hphase : e.handshaking with
  | false =>
      refine h.of_unread hphase hhandshaking hdecoder hreceived hidentity hsent hend hlater ?_
      rw [unread, unread, hinput, hway]
  | true =>
      cases h with
      | greeting _ hsaid =>
          refine .greeting (hhandshaking.trans hphase) ?_
          rw [hrecv, hway, hsaid, said, said, hend, commands, commands, hsent, hlater]
      | command _ _ hfalse _ _ _ _ _ _ => exact absurd (hfalse.symm.trans hphase) (by decide)
      | records _ hfalse _ _ _ _ _ _ _ _ _ => exact absurd (hfalse.symm.trans hphase) (by decide)

/-- The other side says more of its greeting. -/
theorem Hears.spoke (h : Hears own other e p) (hp : Own p)
    (hspoke : Spoke other p.engine e') : Hears own other e ⟨e', p.later⟩ := by
  obtain ⟨bytes, hout, htake⟩ := hspoke.more
  have hcommands : commands other e' = commands other p.engine := by
    rw [commands, commands, hspoke.sent_eq]
  have hwhole : p.engine.greetingEnd = v3GreetingSize → bytes = [] := by
    intro hend
    have hlength := congrArg List.length htake
    rw [List.length_append, List.length_take, List.length_take, hend, length_greeting] at hlength
    exact List.eq_nil_of_length_eq_zero (by omega)
  have hsame : p.engine.greetingEnd = v3GreetingSize → Hears own other e ⟨e', p.later⟩ := by
    intro hend
    have hnone := hwhole hend
    subst hnone
    rw [List.append_nil] at hout
    have hend' : e'.greetingEnd = p.engine.greetingEnd :=
      Nat.le_antisymm (hend ▸ hspoke.le hp.formed.1) hspoke.mono
    exact h.same rfl rfl rfl rfl rfl rfl (by rw [hout]) hspoke.sent_eq hend' rfl
  rcases hp.formed.2 with hend | hunsent
  · exact hsame hend
  · cases h with
    | command _ _ _ hend _ _ _ _ _ => exact hsame hend
    | records _ _ hend _ _ _ _ _ _ _ _ => exact hsame hend
    | greeting hphase hsaid =>
        refine .greeting hphase ?_
        rw [said, stream_commands_of_unsent hunsent, hp.later_eq hunsent, List.append_nil,
          List.append_nil] at hsaid
        rw [said, hcommands, stream_commands_of_unsent hunsent, hp.later_eq hunsent,
          List.append_nil, List.append_nil]
        dsimp only
        rw [htake, hout, ← hsaid]
        simp only [List.append_assoc]

/-! ## Output -/

/-- An `out_event` first fills its buffer and then sends. -/
theorem outEvent_eq (own : Options) (e : HandshakeEngine) (count : ℕ) :
    outEvent own e count =
      { outEvent own e 0 with out := (outEvent own e 0).out.drop count } := by
  have hsame : ∀ e₁ : HandshakeEngine, e₁.out = [] → e₁ = { e₁ with out := e₁.out.drop count } := by
    intro e₁ hempty
    rw [hempty, List.drop_nil]
    exact hempty ▸ rfl
  by_cases hstatus : e.status = .handshake
  · rw [outEvent, outEvent, if_pos hstatus, if_pos hstatus, HandshakeEngine.outEvent,
      HandshakeEngine.outEvent]
    by_cases hempty : e.out = []
    · rw [if_pos hempty, if_pos hempty]
      cases e.encoder with
      | some encoder => rfl
      | none =>
          dsimp only
          split_ifs
          · exact hsame e hempty
          · exact hsame (e.stop .aborted) hempty
    · rw [if_neg hempty, if_neg hempty]
      rfl
  · rw [outEvent, outEvent, if_neg hstatus, if_neg hstatus]
    rfl

/-- A buffer that is not empty is left as it is. -/
theorem outEvent_zero_of_ne_nil (hout : e.out ≠ []) : outEvent own e 0 = e := by
  unfold outEvent HandshakeEngine.outEvent
  rw [if_neg hout, List.drop_zero]
  exact ite_self _

/-- The command is loaded into an empty buffer. -/
structure Loaded (own : Options) (e e' : HandshakeEngine) : Prop where
  handshaking_eq : e.handshaking = false
  greetingEnd_eq : e.greetingEnd = v3GreetingSize
  empty : e.out = []
  unsent : commandSent e = false
  out_eq : e'.out = Encoder.frame (readyMsg own) none
  sent : commandSent e' = true
  same : e'.handshaking = e.handshaking ∧ e'.decoder = e.decoder ∧
    commandReceived e' = commandReceived e ∧
    e'.mechanism.map NullMechanism.identity = e.mechanism.map NullMechanism.identity ∧
    e'.greetingRecv = e.greetingRecv ∧ e'.input = e.input ∧ e'.peer = e.peer ∧
    e'.greetingEnd = e.greetingEnd

/-- The command fits into the buffer of the encoder. -/
theorem encode_readyMsg (hidentity : own.identity.length < 2 ^ 8) {encoder : Encoder}
    (hphase : encoder.Phase) (hidle : encoder.inProgress = none) :
    ∃ loaded, encoder.loadMsg (readyMsg own) none = some loaded ∧
      (loaded.encode true outBatchSize).1.bytes = Encoder.frame (readyMsg own) none ∧
      (loaded.encode true outBatchSize).2.Phase ∧
      (loaded.encode true outBatchSize).2.inProgress = none := by
  obtain ⟨loaded, hload, hphase', hmsg, hdata, hpending, hfirst⟩ :=
    Encoder.loadMsg_eq_some hphase hidle (readyMsg own) none
  have hframe : (Encoder.frame (readyMsg own) none).length < outBatchSize := by
    have hsize := size_readyMsg hidentity
    have hheader := Encoder.length_header_le (readyMsg own)
    have hbody : (Encoder.body (readyMsg own) none).length = (readyMsg own).size := rfl
    rw [Encoder.frame, List.length_append, hbody, outBatchSize]
    omega
  have hcopied := Encoder.encode_copied hphase' (show 0 < outBatchSize by decide)
    (show true = true → loaded.firstStep.length < outBatchSize from
      fun _ => hfirst.trans_lt (by decide))
  refine ⟨loaded, hload, ?_, hcopied.phase, hcopied.idle_iff.mpr ?_⟩
  · rw [hcopied.bytes_eq, List.nil_append, hpending, List.take_of_length_le hframe.le]
  · rwa [List.nil_append, hpending]

/-- The `READY` command is not loaded twice. -/
theorem Settled.refill_of_sent (h : Settled e later) (hstatus : e.status = .handshake)
    (hout : e.out = []) {encoder : Encoder} (hencoder : e.encoder = some encoder)
    (hsent : commandSent e = true) : e.refill own encoder = e := by
  obtain ⟨m, hm, -⟩ := h.mechanism
  obtain ⟨encoder', hencoder', -, hidle⟩ := h.encoder
  obtain rfl := Option.some.inj (hencoder'.symm.trans hencoder)
  obtain ⟨-, hread, -, -⟩ := h.waiting hstatus
  have hencode : encoder'.encode true outBatchSize = (⟨[], none⟩, encoder') := if_pos hidle
  have hnext : m.nextHandshakeCommand own = none := if_pos ((commandSent_eq hm).symm.trans hsent)
  rw [HandshakeEngine.refill, hencode, hread, hm]
  dsimp only
  rw [if_pos (show [].length < outBatchSize by decide), hnext]
  dsimp only
  rw [← hout, ← hencoder, ← hm, ← hread]

/-- The `READY` command is loaded. With the command of the other side the handshake is complete. -/
theorem Settled.refill_of_unsent (h : Settled e later) (hstatus : e.status = .handshake)
    (hidentity : own.identity.length < 2 ^ 8) {encoder : Encoder}
    (hencoder : e.encoder = some encoder) {m m' : NullMechanism} (hm : e.mechanism = some m)
    (hunsent : m.readyCommandSent = false) (hm' : m' = { m with readyCommandSent := true }) :
    ∃ last : Encoder, last.Phase ∧ last.inProgress = none ∧ e.refill own encoder =
      { (if m.readyCommandReceived then { e with mechanism := some m' }.mechanismReady
          else { e with mechanism := some m' }) with
        out := Encoder.frame (readyMsg own) none
        encoder := some last } := by
  obtain ⟨encoder', hencoder', hphase, hidle⟩ := h.encoder
  obtain rfl := Option.some.inj (hencoder'.symm.trans hencoder)
  obtain ⟨-, hread, -, -⟩ := h.waiting hstatus
  obtain ⟨loaded, hload, hbytes, hphase', hidle'⟩ := encode_readyMsg hidentity hphase hidle
  have hencode : encoder'.encode true outBatchSize = (⟨[], none⟩, encoder') := if_pos hidle
  have hnext : m.nextHandshakeCommand own =
      some (readyMsg own, { m with readyCommandSent := true }) :=
    if_neg (by rw [hunsent]; decide)
  have hcomplete : m'.isHandshakeComplete = m.readyCommandReceived := by
    rw [hm', NullMechanism.isHandshakeComplete, Bool.and_true]
  have hne : (loaded.encode true outBatchSize).1.bytes ≠ [] := by
    rw [hbytes, Encoder.frame]
    exact List.append_ne_nil_of_left_ne_nil
      (List.length_pos_iff.mp (Encoder.length_header_pos _)) _
  refine ⟨_, hphase', hidle', ?_⟩
  rw [HandshakeEngine.refill, hencode, hread, hm]
  dsimp only
  rw [if_pos (show [].length < outBatchSize by decide), hnext]
  dsimp only
  rw [← hm', hcomplete, hload]
  cases m.readyCommandReceived with
  | true =>
      rw [if_pos rfl, if_pos rfl]
      exact (if_neg hne).trans (by rw [← hbytes]; rfl)
  | false =>
      rw [if_neg Bool.false_ne_true, if_neg Bool.false_ne_true]
      exact (if_neg hne).trans (by rw [← hbytes]; rfl)

/-- The buffer of an engine behind the greeting is filled. -/
theorem Settled.refill (h : Settled e later) (hstatus : e.status = .handshake)
    (hidentity : own.identity.length < 2 ^ 8) (hout : e.out = []) {encoder : Encoder}
    (hencoder : e.encoder = some encoder) :
    Settled (e.refill own encoder) later ∧
      ((e.refill own encoder).status = .handshake → (e.refill own encoder).input = e.input) ∧
      (e.refill own encoder = e ∧ commandSent e = true ∨ Loaded own e (e.refill own encoder)) := by
  obtain ⟨m, hm, hnone⟩ := h.mechanism
  obtain ⟨hlater, hread, hwrite, -⟩ := h.waiting hstatus
  cases hsent : m.readyCommandSent with
  | true =>
      have hcommand : commandSent e = true := (commandSent_eq hm).trans hsent
      rw [h.refill_of_sent hstatus hout hencoder hcommand]
      exact ⟨h, fun _ => rfl, .inl ⟨rfl, hcommand⟩⟩
  | false =>
      obtain ⟨m', hm'⟩ : ∃ m' : NullMechanism, m' = { m with readyCommandSent := true } := ⟨_, rfl⟩
      obtain ⟨last, hphase', hidle', hrefill⟩ :=
        h.refill_of_unsent hstatus hidentity hencoder hm hsent hm'
      have hunsent : commandSent e = false := (commandSent_eq hm).trans hsent
      have hsent' : m'.readyCommandSent = true := by rw [hm']
      have hreceived' : m'.readyCommandReceived = m.readyCommandReceived := by rw [hm']
      have hidentity' : m'.identity = m.identity := by rw [hm']
      obtain ⟨e₁, he₁⟩ : ∃ e₁, e.refill own encoder = e₁ := ⟨_, rfl⟩
      have hm₁ : e₁.mechanism = some m' := by
        rw [← he₁, hrefill]
        split_ifs <;> rfl
      have hsame : e₁.handshaking = e.handshaking ∧ e₁.decoder = e.decoder ∧
          e₁.greetingRecv = e.greetingRecv ∧ e₁.input = e.input ∧ e₁.peer = e.peer ∧
          e₁.greetingEnd = e.greetingEnd ∧ e₁.out = Encoder.frame (readyMsg own) none ∧
          e₁.encoder = some last := by
        rw [← he₁, hrefill]
        split_ifs <;> exact ⟨rfl, rfl, rfl, rfl, rfl, rfl, rfl, rfl⟩
      obtain ⟨hhandshaking₁, hdecoder₁, hrecv₁, hinput₁, hpeer₁, hend₁, hout₁, hencoder₁⟩ := hsame
      have hsent₁ : commandSent e₁ = true := (commandSent_eq hm₁).trans hsent'
      have hreceived₁ : commandReceived e₁ = m.readyCommandReceived :=
        (commandReceived_eq hm₁).trans hreceived'
      have hstatus₁ : e₁.status = if m.readyCommandReceived then .ready else .handshake := by
        rw [← he₁, hrefill]
        split_ifs
        · rfl
        · exact hstatus
      have hhandlers₁ : e₁.status = .handshake →
          e₁.readMsg = e.readMsg ∧ e₁.writeMsg = e.writeMsg := by
        rw [← he₁, hrefill]
        split_ifs
        · exact fun hwaiting => by cases hwaiting
        · exact fun _ => ⟨rfl, rfl⟩
      rw [he₁]
      refine ⟨⟨hhandshaking₁.trans h.handshaking_eq, hend₁.trans h.greetingEnd_eq, ⟨m', hm₁, ?_⟩,
        ⟨_, hencoder₁, hphase', hidle'⟩, ?_, fun hwaiting => ?_, fun hready => ⟨hsent₁, ?_⟩⟩,
        fun _ => hinput₁, .inr ⟨h.handshaking_eq, h.greetingEnd_eq, hout, hunsent, hout₁, hsent₁,
          hhandshaking₁, hdecoder₁, ?_, ?_, hrecv₁, hinput₁, hpeer₁, hend₁⟩⟩
      · rw [hreceived', hidentity']
        exact hnone
      · rw [hstatus₁]
        split_ifs
        · exact .inr rfl
        · exact .inl rfl
      · obtain ⟨hread₁, hwrite₁⟩ := hhandlers₁ hwaiting
        refine ⟨hlater, hread₁.trans hread, hwrite₁.trans hwrite, fun hboth => ?_⟩
        rw [hstatus₁, ← hreceived₁, hboth.2] at hwaiting
        cases hwaiting
      · rw [hreceived₁]
        by_contra hreceived
        rw [hstatus₁, if_neg hreceived] at hready
        cases hready
      · rw [hreceived₁, commandReceived_eq hm]
      · rw [hm₁, hm, Option.map_some, Option.map_some, hidentity']

/-- Filling the buffer of a side. -/
theorem Own.load (h : Own p) (hidentity : own.identity.length < 2 ^ 8) :
    Own ⟨outEvent own p.engine 0, p.later⟩ ∧
      ((outEvent own p.engine 0).status = .closed → p.engine.status = .closed) ∧
      (outEvent own p.engine 0 = p.engine ∧
        (p.engine.status = .handshake → p.engine.handshaking = false → p.engine.out = [] →
          commandSent p.engine = true) ∨
        Loaded own p.engine (outEvent own p.engine 0)) := by
  by_cases hwaiting : p.engine.status = .handshake
  · by_cases hout : p.engine.out = []
    · have hfill : outEvent own p.engine 0 = p.engine.encoder.elim
          (if p.engine.handshaking then p.engine else p.engine.stop .aborted)
          fun encoder => p.engine.refill own encoder := by
        rw [outEvent, if_pos hwaiting, HandshakeEngine.outEvent, if_pos hout]
        cases p.engine.encoder <;> rfl
      cases h with
      | closed hclosed _ _ => exact absurd (hwaiting.symm.trans hclosed) (by decide)
      | greeting h hroom hmechanism hlater =>
          rw [h.encoder_eq, Option.elim_none, if_pos h.handshaking_eq] at hfill
          rw [hfill]
          refine ⟨.greeting h hroom hmechanism hlater, id, .inl ⟨rfl, fun _ hphase => ?_⟩⟩
          exact absurd (hphase.symm.trans h.handshaking_eq) (by decide)
      | settled h hinput =>
          obtain ⟨encoder, hencoder, -⟩ := h.encoder
          rw [hencoder, Option.elim_some] at hfill
          obtain ⟨hsettled, hsame, hload⟩ := h.refill hwaiting hidentity hout hencoder
          rw [hfill]
          refine ⟨.settled hsettled fun hstatus => (hsame hstatus).trans (hinput hwaiting),
            fun hclosed => absurd hclosed hsettled.open, ?_⟩
          rcases hload with ⟨hnothing, hsent⟩ | hload
          · exact .inl ⟨hnothing, fun _ _ _ => hsent⟩
          · exact .inr hload
    · rw [outEvent_zero_of_ne_nil hout]
      exact ⟨h, id, .inl ⟨rfl, fun _ _ hempty => absurd hempty hout⟩⟩
  · have hsame : outEvent own p.engine 0 = p.engine := if_neg hwaiting
    rw [hsame]
    exact ⟨h, id, .inl ⟨rfl, fun hstatus => absurd hstatus hwaiting⟩⟩

/-- A side that loads its command hears as before. -/
theorem Loaded.hears (hload : Loaded own e e') (h : Hears own other e p) :
    Hears own other e' p := by
  obtain ⟨hhandshaking, hdecoder, hreceived, hidentity, hrecv, hinput, hpeer, -⟩ := hload.same
  exact h.same hhandshaking hdecoder hreceived hidentity hrecv hinput (by rw [hpeer]) rfl rfl rfl

/-- The other side loads its command. -/
theorem Hears.loaded (h : Hears own other e p) (hp : Own p) (hload : Loaded other p.engine e') :
    Hears own other e ⟨e', p.later⟩ := by
  obtain ⟨-, -, -, -, -, -, -, hend'⟩ := hload.same
  have hlater := hp.later_eq hload.unsent
  have hcommands : commands other e' = [readyMsg other] := if_pos hload.sent
  have hframe : Decoder.stream [readyMsg other] = Encoder.frame (readyMsg other) none :=
    List.append_nil _
  cases h with
  | greeting hphase hsaid =>
      refine .greeting hphase ?_
      rw [said, stream_commands_of_unsent hload.unsent, hlater, hload.empty, List.append_nil,
        List.append_nil, List.append_nil] at hsaid
      rw [said, hcommands, hlater, hframe]
      dsimp only
      rw [hload.out_eq, hend', List.append_nil, ← List.append_assoc, hsaid]
  | command decoder rest hphase hend hdecoder hunlimited hreceived hexpects hunread =>
      rw [commands, if_neg (by rw [hload.unsent]; decide)] at hexpects
      rw [hexpects.eq_nil, hlater, unread, hload.empty, List.append_nil, List.append_nil] at hunread
      obtain ⟨hinput, hpeer⟩ := List.append_eq_nil_iff.mp hunread
      refine .command decoder (Encoder.frame (readyMsg other) none) hphase (hend'.trans hend)
        hdecoder hunlimited hreceived ?_ ?_
      · rw [hcommands, ← hframe]
        cases hexpects with
        | flags _ hnext hstored hread => exact .flags _ hnext hstored hread
      · rw [unread]
        dsimp only
        rw [hload.out_eq, hlater, hinput, hpeer, List.nil_append, List.nil_append, List.append_nil]
  | records _ _ _ _ _ hsent _ _ _ _ _ => exact absurd (hload.unsent.symm.trans hsent) (by decide)

/-- Bytes that are sent. -/
theorem Own.send (h : Own p) (bytes : List UInt8) :
    Own { p with engine := { p.engine with out := bytes } } := by
  cases h with
  | closed hclosed hformed hlater => exact .closed hclosed hformed hlater
  | greeting h hroom hmechanism hlater =>
      exact .greeting ⟨h.status_eq, h.handshaking_eq, h.received, h.encoder_eq, h.input_eq,
        h.progress⟩ hroom hmechanism hlater
  | settled h hinput => exact .settled (h.of_eq rfl rfl rfl rfl rfl rfl rfl) hinput

/-- Bytes that arrive. -/
theorem Own.deliver (h : Own p) (bytes : List UInt8) : Own (deliver bytes p) := by
  cases h with
  | closed hclosed hformed hlater => exact .closed hclosed hformed hlater
  | greeting h hroom hmechanism hlater =>
      exact .greeting ⟨h.status_eq, h.handshaking_eq, rfl, h.encoder_eq, h.input_eq, h.progress⟩
        hroom hmechanism hlater
  | settled h hinput => exact .settled (h.of_eq rfl rfl rfl rfl rfl rfl rfl) hinput

/-- A side that is ready writes more. -/
theorem Own.write (h : Own p) (hready : p.engine.status = .ready) (bytes : List UInt8) :
    Own ⟨{ p.engine with out := bytes }, p.later ++ bytes⟩ := by
  cases h with
  | closed hclosed _ _ => exact absurd (hready.symm.trans hclosed) (by decide)
  | greeting h _ _ _ => exact absurd (hready.symm.trans h.status_eq) (by decide)
  | settled h hinput =>
      refine .settled ⟨h.handshaking_eq, h.greetingEnd_eq, h.mechanism, h.encoder, h.alive,
        fun hwaiting => absurd (hready.symm.trans hwaiting) (by decide), h.ready⟩ hinput

/-- The other side writes more. -/
theorem Hears.write (h : Hears own other e p) (hout : p.engine.out = []) (bytes : List UInt8) :
    Hears own other e ⟨{ p.engine with out := bytes }, p.later ++ bytes⟩ := by
  cases h with
  | greeting hphase hsaid =>
      refine .greeting hphase ?_
      rw [hout, List.append_nil, said] at hsaid
      rw [said]
      dsimp only
      rw [← List.append_assoc, hsaid, List.append_assoc, List.append_assoc]
      rfl
  | command decoder rest hphase hend hdecoder hunlimited hreceived hexpects hunread =>
      refine .command decoder rest hphase hend hdecoder hunlimited hreceived hexpects ?_
      rw [unread, hout, List.append_nil] at hunread
      rw [unread]
      dsimp only
      rw [← List.append_assoc, hunread, List.append_assoc]
  | records decoder hphase hend hdecoder hreceived hsent htype hidentity hunlimited hexpects
      hunread =>
      refine .records decoder hphase hend hdecoder hreceived hsent htype hidentity hunlimited
        hexpects ?_
      rw [unread, hout, List.append_nil] at hunread
      rw [unread]
      dsimp only
      rw [← List.append_assoc, hunread]

/-! ## Both sides -/

/-- What every interleaving preserves. -/
structure Inv (ends : Endpoints) (s : HandshakePair) : Prop where
  own : ∀ i, Own (s i)
  hears : ∀ i, (s i).engine.status ≠ .closed →
    Hears (ends.options i) (ends.options !i) (s i).engine (s !i)
  closed : ∀ i, (s i).engine.status = .closed → ¬ ends.Compatible

variable {ends : Endpoints} {s s' : HandshakePair} {i : Bool} {q : Party}

theorem mem_peerTypes_iff (ends : Endpoints) (i : Bool) :
    (ends.options !i).type ∈ peerTypes (ends.options i).type ↔ ends.Compatible := by
  cases i with
  | true => exact Iff.rfl
  | false => exact NullMechanism.mem_peerTypes_comm _ _

/-- An invariant of both sides, one after the other. -/
theorem Inv.join (hp : Own p) (hq : Own q)
    (hpq : p.engine.status ≠ .closed → Hears (ends.options i) (ends.options !i) p.engine q)
    (hqp : q.engine.status ≠ .closed → Hears (ends.options !i) (ends.options i) q.engine p)
    (hpclosed : p.engine.status = .closed → ¬ ends.Compatible)
    (hqclosed : q.engine.status = .closed → ¬ ends.Compatible) : (join i p q).Inv ends := by
  constructor
  · intro j
    cases i <;> cases j
    · exact hp
    · exact hq
    · exact hq
    · exact hp
  · intro j
    cases i <;> cases j
    · exact hpq
    · exact hqp
    · exact hqp
    · exact hpq
  · intro j
    cases i <;> cases j
    · exact hpclosed
    · exact hqclosed
    · exact hqclosed
    · exact hpclosed

/-- The other direction. -/
theorem Inv.hears_other (h : s.Inv ends) (hopen : (s !i).engine.status ≠ .closed) :
    Hears (ends.options !i) (ends.options i) (s !i).engine (s i) := by
  have hears := h.hears (!i) hopen
  rwa [Bool.not_not] at hears

/-- Nobody writes records to a side that has not sent its command. -/
theorem Inv.quiet (h : s.Inv ends) (hunsent : commandSent (s i).engine = false) :
    (s !i).later = [] := by
  have hother := h.own !i
  have hears := h.hears_other (i := i)
  revert hother hears
  generalize (s !i) = p
  intro hother hears
  cases hother with
  | closed _ _ hlater => exact hlater
  | greeting _ _ _ hlater => exact hlater
  | settled hp _ =>
      rcases hp.alive with hstatus | hstatus
      · exact (hp.waiting hstatus).1
      · have hreceived := (hp.ready hstatus).2
        cases hears (by rw [hstatus]; decide) with
        | greeting hphase _ => exact absurd (hp.handshaking_eq.symm.trans hphase) (by decide)
        | command _ _ _ _ _ _ hnone _ _ => exact absurd (hnone.symm.trans hreceived) (by decide)
        | records _ _ _ _ _ hsent _ _ _ _ _ => exact absurd (hunsent.symm.trans hsent) (by decide)

theorem Own.later_of_handshake (h : Own p) (hstatus : p.engine.status = .handshake) :
    p.later = [] := by
  cases h with
  | closed _ _ hlater => exact hlater
  | greeting _ _ _ hlater => exact hlater
  | settled h _ => exact (h.waiting hstatus).1

/-- A call of `in_event` of one side. -/
theorem Inv.inEvent (h : s.Inv ends) (hstatus : (s i).engine.status = .handshake)
    {reads : List Recv} (hfailed : .failed ∈ reads → (s !i).engine.status = .closed) :
    (HandshakePair.join i { s i with engine := (s i).engine.inEvent (ends.options i) reads [] }
      (s !i)).Inv ends := by
  have hown := h.own i
  have hattended := attended_inEvent (ends.mechanism_eq i) (ends.maxmsgsize_eq i)
    (ends.identity_lt !i) hown hstatus (h.own !i) (h.hears i (by rw [hstatus]; decide)) h.quiet
    reads
  have hspoken : (s !i).engine.status ≠ .closed → Hears (ends.options !i) (ends.options i)
      (s !i).engine ⟨(s i).engine.inEvent (ends.options i) reads [], (s i).later⟩ :=
    fun hopen => (h.hears_other hopen).spoke hown hattended.spoke
  rcases hattended.outcome with ⟨hclosed, hreason⟩ | ⟨hopen, hgoes, hears⟩
  · refine .join (.closed hclosed (hattended.spoke.formed hown.formed)
      (hown.later_of_handshake hstatus)) (h.own _) (fun hopen => absurd hclosed hopen) hspoken
      (fun _ => ?_) (h.closed _)
    rcases hreason with hfail | htype
    · exact h.closed _ (hfailed hfail)
    · rwa [← mem_peerTypes_iff ends i]
  · exact .join hgoes (h.own _) (fun _ => hears) hspoken (fun hclosed => absurd hclosed hopen)
      (h.closed _)

/-- A call of `out_event` of one side. -/
theorem Inv.outEvent (h : s.Inv ends)
    (halive : (s i).engine.status = .handshake ∨ (s i).engine.status = .ready) (count : ℕ) :
    (HandshakePair.join i
      { s i with engine := HandshakePair.outEvent (ends.options i) (s i).engine count }
      (HandshakePair.deliver (accepted (ends.options i) (s i).engine count) (s !i))).Inv ends := by
  have hopen : (s i).engine.status ≠ .closed := by
    rcases halive with hstatus | hstatus <;> rw [hstatus] <;> decide
  obtain ⟨hfilled, hclosed, hload⟩ := (h.own i).load (ends.identity_lt i)
  rw [outEvent_eq, accepted]
  have hears : Hears (ends.options i) (ends.options !i)
      (HandshakePair.outEvent (ends.options i) (s i).engine 0) (s !i) := by
    rcases hload with ⟨hsame, -⟩ | hload
    · rw [hsame]
      exact h.hears i hopen
    · exact hload.hears (h.hears i hopen)
  have hheard : (s !i).engine.status ≠ .closed → Hears (ends.options !i) (ends.options i)
      (s !i).engine ⟨HandshakePair.outEvent (ends.options i) (s i).engine 0, (s i).later⟩ := by
    intro hopen'
    rcases hload with ⟨hsame, -⟩ | hload
    · rw [hsame]
      exact h.hears_other hopen'
    · exact (h.hears_other hopen').loaded (h.own i) hload
  have hopen₁ : (HandshakePair.outEvent (ends.options i) (s i).engine 0).status ≠ .closed :=
    fun hclosed' => hopen (hclosed hclosed')
  revert hfilled hears hheard hopen₁
  generalize HandshakePair.outEvent (ends.options i) (s i).engine 0 = e
  intro hfilled hears hheard hopen₁
  refine .join (hfilled.send _) ((h.own _).deliver _) (fun _ => ?_) (fun hopen' => ?_)
    (fun hclosed' => absurd hclosed' hopen₁) (h.closed _)
  · exact hears.same rfl rfl rfl rfl rfl rfl rfl rfl rfl rfl
  · refine (hheard hopen').same rfl rfl rfl rfl rfl rfl ?_ rfl rfl rfl
    change ((s !i).engine.peer ++ e.out.take count) ++ e.out.drop count = _
    rw [List.append_assoc, List.take_append_drop]

/-- More records of one side. -/
theorem Inv.write (h : s.Inv ends) (hready : (s i).engine.status = .ready)
    (hout : (s i).engine.out = []) (bytes : List UInt8) :
    (HandshakePair.join i ⟨{ (s i).engine with out := bytes }, (s i).later ++ bytes⟩ (s !i)).Inv
      ends := by
  have hopen : (s i).engine.status ≠ .closed := by
    rw [hready]
    decide
  refine .join ((h.own i).write hready bytes) (h.own _) (fun _ => ?_)
    (fun hopen' => (h.hears_other hopen').write hout bytes)
    (fun hclosed => absurd hclosed hopen) (h.closed _)
  exact (h.hears i hopen).same rfl rfl rfl rfl rfl rfl rfl rfl rfl rfl

/-- **Step.** -/
theorem Inv.step (h : s.Inv ends) {event : Bool × PartyEvent}
    (hstep : HandshakePair.step ends s event = some s') : s'.Inv ends := by
  obtain ⟨i, event⟩ := event
  cases event with
  | inEvent reads =>
      obtain ⟨⟨hstatus, hfailed⟩, hs'⟩ := Option.ite_none_right_eq_some.mp hstep
      rw [← Option.some.inj hs']
      exact h.inEvent hstatus hfailed
  | outEvent count =>
      obtain ⟨halive, hs'⟩ := Option.ite_none_right_eq_some.mp hstep
      rw [← Option.some.inj hs']
      exact h.outEvent halive count
  | write bytes =>
      obtain ⟨⟨hready, hout⟩, hs'⟩ := Option.ite_none_right_eq_some.mp hstep
      rw [← Option.some.inj hs']
      exact h.write hready hout bytes

theorem Inv.init (ends : Endpoints) : (machine ends).init.Inv ends := by
  refine ⟨fun i => ?_, fun i _ => ?_, fun i hclosed => (by cases hclosed)⟩
  · exact .greeting ⟨rfl, rfl, rfl, rfl, rfl, .signature (Nat.succ_pos 9)⟩ (Nat.succ_pos 11) rfl rfl
  · exact .greeting rfl rfl

/-- What holds of both sides in every state. No assertion fails, and a side gives up only if the
sockets may not be connected. A side that is ready knows that they may, it has the identity of the
other side, its decoder is at the beginning of a frame, and before it are exactly the bytes that the
other side has written behind its command. -/
structure Agreed (ends : Endpoints) (s : HandshakePair) : Prop where
  not_aborted : ∀ i, (s i).engine.status ≠ .aborted
  closed : ∀ i, (s i).engine.status = .closed → ¬ ends.Compatible
  compatible : ∀ i, (s i).engine.status = .ready → ends.Compatible
  identity : ∀ i, (s i).engine.status = .ready →
    (s i).engine.mechanism.map NullMechanism.identity =
      some (expectedIdentity (ends.options i) (ends.options !i))
  handed_over : ∀ i, (s i).engine.status = .ready →
    unread (s i).engine (s !i) = (s !i).later ∧ ∃ decoder, (s i).engine.decoder = some decoder ∧
      decoder.next = .flagsReady ∧ decoder.stored = [] ∧ decoder.toRead = 1

/-- A side that is ready has processed the command of the other one. -/
theorem Inv.settled_of_ready (h : s.Inv ends) (hready : (s i).engine.status = .ready) :
    Settled (s i).engine (s i).later := by
  cases h.own i with
  | closed hclosed _ _ => exact absurd (hready.symm.trans hclosed) (by decide)
  | greeting h _ _ _ => exact absurd (hready.symm.trans h.status_eq) (by decide)
  | settled h _ => exact h

theorem Inv.agreed (h : s.Inv ends) : s.Agreed ends := by
  have hrecords : ∀ i, (s i).engine.status = .ready → ends.Compatible ∧
      (s i).engine.mechanism.map NullMechanism.identity =
        some (expectedIdentity (ends.options i) (ends.options !i)) ∧
      unread (s i).engine (s !i) = (s !i).later ∧ ∃ decoder, (s i).engine.decoder = some decoder ∧
        decoder.Expects [] [] := by
    intro i hready
    have hsettled := h.settled_of_ready hready
    cases h.hears i (by rw [hready]; decide) with
    | greeting hphase _ => exact absurd (hsettled.handshaking_eq.symm.trans hphase) (by decide)
    | command _ _ _ _ _ _ hnone _ _ =>
        exact absurd (hnone.symm.trans (hsettled.ready hready).2) (by decide)
    | records decoder _ _ hdecoder _ _ htype hidentity _ hexpects hunread =>
        exact ⟨(mem_peerTypes_iff ends i).mp htype, hidentity, hunread, decoder, hdecoder, hexpects⟩
  refine ⟨fun i haborted => ?_, h.closed, fun i hready => (hrecords i hready).1,
    fun i hready => (hrecords i hready).2.1, fun i hready => ?_⟩
  · cases h.own i with
    | closed hclosed _ _ => exact absurd (haborted.symm.trans hclosed) (by decide)
    | greeting h _ _ _ => exact absurd (haborted.symm.trans h.status_eq) (by decide)
    | settled h _ =>
        rcases h.alive with hstatus | hstatus
        · exact absurd (haborted.symm.trans hstatus) (by decide)
        · exact absurd (haborted.symm.trans hstatus) (by decide)
  · obtain ⟨-, -, hunread, decoder, hdecoder, hexpects⟩ := hrecords i hready
    cases hexpects with
    | flags _ hnext hstored hread => exact ⟨hunread, decoder, hdecoder, hnext, hstored, hread⟩

/-- **Agreement.** In every state that two engines reach, in whatever order they are called and
however their bytes are fragmented and delayed. -/
theorem sides_agree (ends : Endpoints) (events : List (Bool × PartyEvent)) :
    (machine ends).Always (Agreed ends) (machine ends).init events :=
  Machine.Always.of_invariant (Inv ends) Inv.agreed (fun h hstep => h.step hstep) (Inv.init ends)
    events

/-! ## Progress -/

/-- Nothing is on its way, and the sides that are not ready have said what they can say. -/
structure Idle (s : HandshakePair) : Prop where
  out : ∀ i, (s i).engine.out = []
  peer : ∀ i, (s i).engine.status = .handshake → (s i).engine.peer = []
  sent : ∀ i, (s i).engine.status = .handshake → (s i).engine.handshaking = false →
    commandSent (s i).engine = true

/-- Where the greetings are while an engine waits for more of an honest one. -/
theorem greeting_room {peer : List UInt8} (hpeer : Honest peer) (h : e.Greeting peer)
    (hroom : e.greetingRecv.length < e.greetingSize) :
    e.greetingRecv.length < signatureSize ∧ e.greetingEnd = signatureSize ∨
      e.greetingRecv.length = signatureSize ∧ e.greetingEnd = signatureSize + 1 ∨
      e.greetingRecv.length < v3GreetingSize ∧ e.greetingEnd = v3GreetingSize := by
  have hprogress := h.progress
  have hrevision := hpeer.revision h
  generalize e.greetingEnd = greetingEnd at hprogress ⊢
  generalize e.greetingSize = greetingSize at hprogress hroom
  cases hprogress with
  | signature hlength => exact .inl ⟨hlength, rfl⟩
  | revision hlength => exact .inr (.inl ⟨hlength, rfl⟩)
  | current _ _ _ => exact .inr (.inr ⟨hroom, rfl⟩)
  | older hlength hold =>
      have hthree := hrevision (by rw [hlength]; decide)
      change e.greetingByte 10 = 0 ∨ e.greetingByte 10 = 1 at hold
      rw [hthree] at hold
      exact absurd hold (by decide)

/-- How much a side in the greeting has said. -/
theorem length_said_of_unsent (h : Own p) (hunsent : commandSent p.engine = false) :
    (said other p).length = p.engine.greetingEnd := by
  have hle := h.formed.1
  rw [said, stream_commands_of_unsent hunsent, h.later_eq hunsent, List.append_nil,
    List.append_nil, List.length_take, length_greeting, Nat.min_eq_left hle]

/-- A side behind the greeting has said all of its own. -/
theorem length_said_of_settled (h : Settled p.engine p.later) :
    v3GreetingSize ≤ (said other p).length := by
  rw [said, List.length_append, List.length_take, h.greetingEnd_eq, length_greeting, Nat.min_self]
  exact Nat.le_add_right _ _

/-- A side that waits for more of the greeting, though it has got all that the other side, `p`,
has said. -/
structure Starved (other : Options) (q p : Party) : Prop where
  greeting : q.engine.Greeting (q.engine.greetingRecv ++ q.engine.peer)
  room : q.engine.greetingRecv.length < q.engine.greetingSize
  mechanism_eq : q.engine.mechanism = none
  peer_eq : q.engine.peer = []
  said_eq : q.engine.greetingRecv = said other p

theorem Starved.cases {q : Party} (h : Starved other q p) (hp : Own p) :
    q.engine.greetingRecv.length < signatureSize ∧ q.engine.greetingEnd = signatureSize ∨
      q.engine.greetingRecv.length = signatureSize ∧ q.engine.greetingEnd = signatureSize + 1 ∨
      q.engine.greetingRecv.length < v3GreetingSize ∧ q.engine.greetingEnd = v3GreetingSize := by
  have hpart : q.engine.greetingRecv ++ q.engine.peer <+: said other p := by
    rw [h.peer_eq, List.append_nil, h.said_eq]
  exact greeting_room (honest_of_isPrefix hp hpart) h.greeting h.room

/-- A whole greeting is enough. -/
theorem Starved.not_settled {q : Party} (h : Starved other q p) (hp : Own p)
    (hsettled : Settled p.engine p.later) : False := by
  have hsaid : v3GreetingSize ≤ (said other p).length := length_said_of_settled hsettled
  rw [← h.said_eq] at hsaid
  have hcases := h.cases hp
  simp only [signatureSize, v3GreetingSize] at hsaid hcases
  omega

/-- The side that waits for more of the greeting is not the only one that says less than it could:
the revision is told before the signature of the other side is known to be complete. -/
theorem Starved.not_both {q : Party} (hq : Starved other q p) (hp : Starved own p q)
    (hownq : Own q) (hownp : Own p) : False := by
  have hplength : (said other p).length = _ :=
    length_said_of_unsent hownp (commandSent_of_none hp.mechanism_eq)
  have hqlength : (said own q).length = _ :=
    length_said_of_unsent hownq (commandSent_of_none hq.mechanism_eq)
  rw [← hq.said_eq] at hplength
  rw [← hp.said_eq] at hqlength
  have hpcases := hp.cases hownq
  have hqcases := hq.cases hownp
  simp only [signatureSize, v3GreetingSize] at hpcases hqcases
  omega

/-- A side behind the greeting that has read everything, and waits for the command. -/
theorem Hears.unsent_of_waiting {q : Party} (hears : Hears own other q.engine p)
    (hsettled : Settled q.engine q.later) (hstatus : q.engine.status = .handshake)
    (hinput : q.engine.input = []) (hpeer : q.engine.peer = []) (hout : p.engine.out = [])
    (hsent : commandSent q.engine = true) : commandSent p.engine = false := by
  have hunread : unread q.engine p = [] := by
    rw [unread, hinput, hpeer, hout]
    rfl
  cases hears with
  | greeting hphase _ => exact absurd (hsettled.handshaking_eq.symm.trans hphase) (by decide)
  | records _ _ _ _ hreceived _ _ _ _ _ _ =>
      exact absurd ⟨hsent, hreceived⟩ (hsettled.waiting hstatus).2.2.2
  | command decoder rest _ _ _ _ _ hexpects hall =>
      by_contra hother
      obtain ⟨rfl, -⟩ := List.append_eq_nil_iff.mp (hall.symm.trans hunread)
      rw [commands, if_pos (Bool.not_eq_false _ ▸ hother)] at hexpects
      exact hexpects.ne_nil rfl

/-- **No deadlock.** If nothing is on its way and nobody has more to say, then both are ready. -/
theorem Inv.ready_of_idle (h : s.Inv ends) (hcompatible : ends.Compatible) (hidle : s.Idle)
    (i : Bool) : (s i).engine.status = .ready := by
  have hopen : ∀ i, (s i).engine.status ≠ .closed := fun i hclosed =>
    h.closed i hclosed hcompatible
  have hstarved : ∀ i, (s i).engine.Greeting ((s i).engine.greetingRecv ++ (s i).engine.peer) →
      (s i).engine.greetingRecv.length < (s i).engine.greetingSize →
      (s i).engine.mechanism = none → Starved (ends.options !i) (s i) (s !i) := by
    intro i hi hroom hmechanism
    have hpeer := hidle.peer i hi.status_eq
    refine ⟨hi, hroom, hmechanism, hpeer, ?_⟩
    cases h.hears i (hopen i) with
    | greeting _ hsaid =>
        rwa [hpeer, hidle.out !i, List.append_nil, List.append_nil] at hsaid
    | command _ _ hphase _ _ _ _ _ _ =>
        exact absurd (hphase.symm.trans hi.handshaking_eq) (by decide)
    | records _ hphase _ _ _ _ _ _ _ _ _ =>
        exact absurd (hphase.symm.trans hi.handshaking_eq) (by decide)
  -- so both sides are behind the greeting
  have hsettled : ∀ i, Settled (s i).engine (s i).later ∧
      ((s i).engine.status = .handshake → (s i).engine.input = []) := by
    intro i
    cases h.own i with
    | closed hclosed _ _ => exact absurd hclosed (hopen i)
    | settled hi hinput => exact ⟨hi, hinput⟩
    | greeting hi hroom hmechanism _ =>
        have hq := hstarved i hi hroom hmechanism
        cases h.own !i with
        | closed hclosed _ _ => exact absurd hclosed (hopen _)
        | settled hother _ => exact (hq.not_settled (h.own _) hother).elim
        | greeting hother hroom' hmechanism' _ =>
            have hp := hstarved (!i) hother hroom' hmechanism'
            rw [Bool.not_not] at hp
            exact (hq.not_both hp (h.own _) (h.own _)).elim
  obtain ⟨hi, hinput⟩ := hsettled i
  rcases hi.alive with hstatus | hready
  · have hunsent := (h.hears i (hopen i)).unsent_of_waiting hi hstatus (hinput hstatus)
      (hidle.peer i hstatus) (hidle.out !i) (hidle.sent i hstatus hi.handshaking_eq)
    obtain ⟨hother, -⟩ := hsettled !i
    have hsent : commandSent (s !i).engine = true := by
      rcases hother.alive with hstatus' | hready'
      · exact hidle.sent _ hstatus' hother.handshaking_eq
      · exact (hother.ready hready').1
    exact absurd (hsent.symm.trans hunsent) (by decide)
  · exact hready

/-- The bytes of its greeting and of its command that a side has not put into its buffer. -/
def unsaid (own : Options) (e : HandshakeEngine) : ℕ :=
  v3GreetingSize - e.greetingEnd +
    if commandSent e then 0 else (Encoder.frame (readyMsg own) none).length

/-- What a side has to do: each byte is put into a buffer, sent and received. -/
def work (own : Options) (e : HandshakeEngine) : ℕ :=
  3 * unsaid own e + 2 * e.out.length + e.peer.length

theorem work_out (own : Options) (e : HandshakeEngine) (bytes : List UInt8) :
    work own { e with out := bytes } = 3 * unsaid own e + 2 * bytes.length + e.peer.length := rfl

theorem work_deliver (own : Options) (p : Party) (bytes : List UInt8) :
    work own (deliver bytes p).engine = work own p.engine + bytes.length := by
  change 3 * unsaid own p.engine + 2 * p.engine.out.length + (p.engine.peer ++ bytes).length = _
  rw [List.length_append, work]
  omega

/-- What is left to do on both sides. -/
def remaining (ends : Endpoints) (s : HandshakePair) : ℕ :=
  work (ends.options false) (s false).engine + work (ends.options true) (s true).engine

/-- The work of one side and of the other one. -/
theorem remaining_eq (ends : Endpoints) (s : HandshakePair) (i : Bool) :
    remaining ends s =
      work (ends.options i) (s i).engine + work (ends.options !i) (s !i).engine := by
  cases i with
  | false => rfl
  | true => exact Nat.add_comm _ _

theorem remaining_join (ends : Endpoints) (i : Bool) (p q : Party) :
    remaining ends (join i p q) =
      work (ends.options i) p.engine + work (ends.options !i) q.engine := by
  cases i with
  | false => rfl
  | true => exact Nat.add_comm _ _

/-- What is said of the greeting goes into the buffer. -/
theorem Spoke.work_le (h : Spoke own e e') (hformed : Formed e) :
    work own e' + e.peer.length ≤ work own e + e'.peer.length := by
  obtain ⟨bytes, hout, htake⟩ := h.more
  have hle := hformed.1
  have hle' := h.le hle
  have hlength := congrArg List.length htake
  rw [List.length_append, List.length_take, List.length_take, length_greeting,
    Nat.min_eq_left hle, Nat.min_eq_left hle'] at hlength
  rw [work, work, unsaid, unsaid, h.sent_eq, hout, List.length_append]
  omega

/-- The command goes into the buffer. -/
theorem Loaded.work_lt (h : Loaded own e e') : work own e' < work own e := by
  obtain ⟨-, -, -, -, -, -, hpeer, hend⟩ := h.same
  have hpos : 0 < (Encoder.frame (readyMsg own) none).length := by
    have hheader := Encoder.length_header_pos (readyMsg own)
    rw [Encoder.frame, List.length_append]
    omega
  rw [work, work, unsaid, unsaid, if_pos h.sent, if_neg (by rw [h.unsent]; decide), h.out_eq,
    h.empty, hpeer, hend, List.length_nil]
  omega

/-- Both sides are ready. -/
def Done (s : HandshakePair) : Prop := ∀ i, (s i).engine.status = .ready

/-- A side that is not ready can read, send or load its command. -/
theorem Inv.exists_step (h : s.Inv ends) (hcompatible : ends.Compatible) (hdone : ¬ s.Done) :
    ∃ event s', (machine ends).step s event = some s' ∧ s'.Inv ends ∧
      remaining ends s' < remaining ends s := by
  have halive : ∀ i, (s i).engine.status = .handshake ∨ (s i).engine.status = .ready := by
    intro i
    cases h.own i with
    | closed hclosed _ _ => exact absurd hcompatible (h.closed i hclosed)
    | greeting hi _ _ _ => exact .inl hi.status_eq
    | settled hi _ => exact hi.alive
  by_cases hout : ∀ i, (s i).engine.out = []
  · by_cases hpeer : ∀ i, (s i).engine.status = .handshake → (s i).engine.peer = []
    · by_cases hsent : ∀ i, (s i).engine.status = .handshake →
          (s i).engine.handshaking = false → commandSent (s i).engine = true
      · exact absurd (h.ready_of_idle hcompatible ⟨hout, hpeer, hsent⟩) hdone
      · -- a side loads its command
        push Not at hsent
        obtain ⟨i, hstatus, hphase, hunsent⟩ := hsent
        refine ⟨(i, .outEvent 0), _, if_pos (halive i), h.outEvent (halive i) 0, ?_⟩
        obtain ⟨-, -, ⟨-, hnothing⟩ | hload⟩ := (h.own i).load (ends.identity_lt i)
        · exact absurd (hnothing hstatus hphase (hout i)) hunsent
        · rw [remaining_join, remaining_eq ends s i]
          rw [work_deliver]
          exact Nat.add_lt_add_right hload.work_lt _
    · -- a side reads a byte
      push Not at hpeer
      obtain ⟨i, hstatus, hne⟩ := hpeer
      have hfailed : Recv.failed ∈ [Recv.data 1] → (s !i).engine.status = .closed :=
        fun hmem => absurd hmem (by decide)
      refine ⟨(i, .inEvent [.data 1]), _, if_pos ⟨hstatus, hfailed⟩,
        h.inEvent hstatus hfailed, ?_⟩
      have hattended := attended_inEvent (ends.mechanism_eq i) (ends.maxmsgsize_eq i)
        (ends.identity_lt !i) (h.own i) hstatus (h.own !i) (h.hears i (by rw [hstatus]; decide))
        h.quiet [.data 1]
      have hle := hattended.spoke.work_le (h.own i).formed
      have hone := hattended.taken_one rfl
      have hpos := List.length_pos_iff.mpr hne
      rw [remaining_join, remaining_eq ends s i]
      dsimp only
      omega
  · -- a side sends what is in its buffer
    push Not at hout
    obtain ⟨i, hne⟩ := hout
    have hpos := List.length_pos_iff.mpr hne
    refine ⟨(i, .outEvent (s i).engine.out.length), _, if_pos (halive i),
      h.outEvent (halive i) _, ?_⟩
    rw [remaining_join, remaining_eq ends s i, outEvent_eq, accepted, outEvent_zero_of_ne_nil hne,
      List.drop_length, List.take_length, work_deliver, work_out, List.length_nil,
      work.eq_def (ends.options i) (s i).engine]
    omega

/-- **Completion.** From every state that two engines of sockets that may be connected reach, a run
leads to a state in which both are ready. -/
theorem exists_ready_of_reachable (hcompatible : ends.Compatible)
    (hreach : (machine ends).Reachable s) :
    ∃ events s', (machine ends).runFrom s events = some s' ∧ s'.Done :=
  Machine.exists_runFrom_of_measure (Inv ends) Done (remaining ends)
    (fun hinv hdone => hinv.exists_step hcompatible hdone)
    (hreach.invariant (Inv ends) (Inv.init ends) fun h hstep => h.step hstep)

/-- The sockets of two workers. -/
def pullPush : Endpoints where
  options i := Options.default (if i then .push else .pull)
  mechanism_eq _ := rfl
  maxmsgsize_eq _ := rfl
  identity_lt _ := Nat.two_pow_pos 8

theorem exists_ready_pullPush :
    ∃ events s', (machine pullPush).runFrom (machine pullPush).init events = some s' ∧ s'.Done :=
  exists_ready_of_reachable (by decide) Machine.reachable_init

end HandshakePair

end AFStream.Net
