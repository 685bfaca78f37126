/-
# The handshake commands

After the greeting the two sides of a connection exchange one `READY` command each. It
lists properties, of which the type of the peer's socket is checked against the own one.
The module embeds `null_mechanism_t` and the parser of the properties. The parser is the
first code that interprets data of a peer byte by byte; it stops at the first property
that does not fit into the rest of the command.
-/

import AFStream.Net.Encoder

namespace AFStream.Net

/-- The values of `options.type`, in the order of their numbers. -/
inductive SocketType
  | pair
  | pub
  | sub
  | req
  | rep
  | dealer
  | router
  | pull
  | push
  | xpub
  | xsub
  deriving DecidableEq, Repr

/-- The values of `options.mechanism`. -/
inductive MechanismKind
  | null
  | plain
  | curve
  deriving DecidableEq, Repr

/-- The members of `options_t` that the handshake uses. A worker sets the type to `ZMQ_PULL`
or to `ZMQ_PUSH` and leaves the rest as the constructor has set it. -/
structure Options where
  type : SocketType
  mechanism : MechanismKind
  identity : List UInt8
  recvIdentity : Bool
  maxmsgsize : ℤ

/-- The constructor of `options_t`, with the given type. -/
def Options.default (type : SocketType) : Options where
  type := type
  mechanism := .null
  identity := []
  recvIdentity := false
  maxmsgsize := -1

/-- The bytes of a string. -/
def textBytes (text : String) : List UInt8 := text.toList.map fun c => c.toNat.toUInt8

/-- `socket_type_string` -/
def socketTypeString : SocketType → String
  | .pair => "PAIR"
  | .pub => "PUB"
  | .sub => "SUB"
  | .req => "REQ"
  | .rep => "REP"
  | .dealer => "DEALER"
  | .router => "ROUTER"
  | .pull => "PULL"
  | .push => "PUSH"
  | .xpub => "XPUB"
  | .xsub => "XSUB"

/-- The types of `check_socket_type` that a socket may be connected to. -/
def peerTypes : SocketType → List SocketType
  | .req => [.rep, .router]
  | .rep => [.req, .dealer]
  | .dealer => [.rep, .dealer, .router]
  | .router => [.req, .dealer, .router]
  | .push => [.pull]
  | .pull => [.push]
  | .pub => [.sub, .xsub]
  | .sub => [.pub, .xpub]
  | .xpub => [.sub, .xsub]
  | .xsub => [.pub, .xpub]
  | .pair => [.pair]

/-- `check_socket_type` -/
def checkSocketType (type : SocketType) (name : List UInt8) : Bool :=
  (peerTypes type).any fun peer => name = textBytes (socketTypeString peer)

/-- `put_uint32` -/
def putUInt32 (value : ℕ) : List UInt8 :=
  [24, 16, 8, 0].map fun shift => (value / 2 ^ shift % 256).toUInt8

/-- `get_uint32` -/
def getUInt32 (bytes : List UInt8) : ℕ :=
  (bytes.zipWith (fun b shift => b.toNat <<< shift) [24, 16, 8, 0]).foldr (· ||| ·) 0

/-- `add_property` -/
def addProperty (name : String) (value : List UInt8) : List UInt8 :=
  name.length.toUInt8 :: textBytes name ++ putUInt32 value.length ++ value

/-- The values of `errno` behind a failed command. -/
inductive CommandError
  | eproto
  | einval
  deriving DecidableEq, Repr

/-- The end of `parse_metadata`, with the bytes that are left and the identity so far. -/
def endMetadata (left identity : List UInt8) : Except CommandError (List UInt8) :=
  if left = [] then .ok identity else .error .eproto

/-- `parse_metadata`. Each iteration takes five bytes at least. -/
def parseMetadata (options : Options) :
    ℕ → List UInt8 → List UInt8 → Except CommandError (List UInt8)
  | 0, left, identity => endMetadata left identity
  | fuel + 1, left, identity =>
    if left.length ≤ 1 then endMetadata left identity
    else
      let nameLength := (left.headD 0).toNat
      let left := left.tail
      if left.length < nameLength then endMetadata left identity
      else
        let name := left.take nameLength
        let left := left.drop nameLength
        if left.length < 4 then endMetadata left identity
        else
          let valueLength := getUInt32 (left.take 4)
          let left := left.drop 4
          if left.length < valueLength then endMetadata left identity
          else
            let value := left.take valueLength
            let left := left.drop valueLength
            if name = textBytes "Identity" ∧ options.recvIdentity then
              parseMetadata options fuel left value
            else if name = textBytes "Socket-Type" ∧ ¬ checkSocketType options.type value then
              .error .einval
            else parseMetadata options fuel left identity

/-- `null_mechanism_t` -/
structure NullMechanism where
  readyCommandSent : Bool
  readyCommandReceived : Bool
  identity : List UInt8

namespace NullMechanism

/-- The constructor. -/
def create : NullMechanism where
  readyCommandSent := false
  readyCommandReceived := false
  identity := []

/-- The name of the command, behind its length. -/
def readyName : List UInt8 := 5 :: textBytes "READY"

/-- The command that `next_handshake_command` builds. -/
def readyCommand (options : Options) : List UInt8 :=
  readyName ++ addProperty "Socket-Type" (textBytes (socketTypeString options.type)) ++
    if options.type = .req ∨ options.type = .dealer ∨ options.type = .router then
      addProperty "Identity" options.identity
    else []

/-- `next_handshake_command`; the engine sets the flag of the message. -/
def nextHandshakeCommand (m : NullMechanism) (options : Options) :
    Option (Msg × NullMechanism) :=
  if m.readyCommandSent then none
  else
    some (⟨false, true, readyCommand options⟩, { m with readyCommandSent := true })

/-- `process_handshake_command` -/
def processHandshakeCommand (m : NullMechanism) (options : Options) (msg : Msg) :
    Except CommandError NullMechanism :=
  if m.readyCommandReceived then .error .eproto
  else if msg.content.take 6 ≠ readyName then .error .eproto
  else
    let left := msg.content.drop 6
    (parseMetadata options left.length left m.identity).map fun identity =>
      { m with readyCommandReceived := true, identity := identity }

/-- `is_handshake_complete` -/
def isHandshakeComplete (m : NullMechanism) : Bool :=
  m.readyCommandReceived && m.readyCommandSent

/-- A command that is accepted. -/
theorem processHandshakeCommand_eq_ok {m m' : NullMechanism} {options : Options} {msg : Msg}
    (h : m.processHandshakeCommand options msg = .ok m') :
    m.readyCommandReceived = false ∧
      ∃ identity, m' = { m with readyCommandReceived := true, identity := identity } := by
  unfold processHandshakeCommand at h
  split_ifs at h with hreceived
  dsimp only at h
  cases hparse : parseMetadata options (msg.content.drop 6).length (msg.content.drop 6)
      m.identity with
  | error _ =>
      rw [hparse] at h
      cases h
  | ok identity =>
      rw [hparse] at h
      cases h
      exact ⟨Bool.not_eq_true _ ▸ hreceived, identity, rfl⟩

/-- A mechanism that has received nothing takes what a new one takes. -/
theorem processHandshakeCommand_eq_map {m : NullMechanism}
    (hreceived : m.readyCommandReceived = false) (hidentity : m.identity = [])
    (options : Options) (msg : Msg) :
    m.processHandshakeCommand options msg = (create.processHandshakeCommand options msg).map
      fun created => { created with readyCommandSent := m.readyCommandSent } := by
  obtain ⟨sent, received, identity⟩ := m
  subst hreceived hidentity
  unfold processHandshakeCommand
  rw [if_neg Bool.false_ne_true, if_neg (show ¬create.readyCommandReceived = true by decide)]
  split_ifs with hname
  · rfl
  · dsimp only [create]
    cases parseMetadata options (msg.content.drop 6).length (msg.content.drop 6) [] with
    | error _ => rfl
    | ok _ => rfl

end NullMechanism

end AFStream.Net
