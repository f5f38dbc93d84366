import KeepTalkingSfu.Utf8Text

/-!
# Frames of the SFU protocol

Topics, lanes, client and server frames and their byte layout. Every frame is
a four-byte length, a tag and a body; the bodies are encoded and decoded here,
the length prefix is read by the frame reader. A decoder fails with the text
the server puts into its ERROR.

Endpoint ids come from outside: they are a type with a 32-byte encoding and a
checked way back, and nothing else about them is used.
-/
namespace KeepTalkingSfu.WireFormat
open ByteTransport Utf8Text

/-! ### Constants -/

def maxAnnounceLen : ℕ := 1024
def maxPublishLen : ℕ := 1048576
def maxFrameLen : ℕ := maxPublishLen+64*1024
def maxMembersPerTopic : ℕ := 1024
def maxTopicsPerConnection : ℕ := 512
def snapshotChunkEntries : ℕ := 256
def snapshotChunkBytes : ℕ := 256*1024

theorem maxFrameLen_eq : maxFrameLen = 1114112 := by decide

/-- Flag bit of a snapshot chunk that is not the last of its snapshot. -/
def snapshotMore : UInt8 := 0x01

namespace Tag

def subscribe : UInt8 := 0x21
def unsubscribe : UInt8 := 0x22
def announce : UInt8 := 0x23
def publish : UInt8 := 0x24
def publishTo : UInt8 := 0x25
def snapshot : UInt8 := 0x31
def joined : UInt8 := 0x32
def left : UInt8 := 0x33
def presence : UInt8 := 0x34
def deliver : UInt8 := 0x35
def error : UInt8 := 0x3F

end Tag

/-! ### Fixed reasons of refusals -/

namespace Reason

def roomFull : String := "room full"
def tooManyTopics : String := "too many topics"
def rateLimited : String := "rate limited"
def notSubscribed : String := "not subscribed"
def announceTooLarge : String := "announce too large"
def publishTooLarge : String := "publish too large"
def reservedTopic : String := "reserved topic"
def publishOnSession : String := "publish on a lane stream"
def noSuchRecipient : String := "no such recipient"

end Reason

/-! ### Lanes -/

inductive Lane where
  | control
  | interactive
  | bulk
  deriving DecidableEq, Repr

def Lane.fromByte (b : UInt8) : Option Lane :=
  if b = 0x01 then some .control
  else if b = 0x02 then some .interactive
  else if b = 0x03 then some .bulk
  else none

def Lane.byte : Lane → UInt8
  | .control => 0x01
  | .interactive => 0x02
  | .bulk => 0x03

/-- The first byte of a stream of this lane, ready to write. -/
def Lane.prefixBytes (l : Lane) : Bytes := [l.byte]

@[simp] theorem Lane.fromByte_byte (l : Lane) : Lane.fromByte l.byte = some l := by
  cases l <;> decide

/-! ### Topics and endpoint ids -/

/-- A room key: 32 opaque bytes. -/
structure Topic where
  bytes : Bytes
  length_eq : bytes.length = 32
  deriving DecidableEq

/-- The reserved topic, which marks an ERROR that is not about a topic. -/
def Topic.zero : Topic := ⟨List.replicate 32 0,by simp⟩

def Topic.isZero (t : Topic) : Bool := t = Topic.zero

/-- The public keys that name endpoints, as the transport library checks and
serialises them. -/
class EndpointKey (Id : Type) where
  asBytes : Id → Bytes
  fromBytes : Bytes → Except String Id
  asBytes_length : ∀ id, (asBytes id).length = 32
  fromBytes_asBytes : ∀ id, fromBytes (asBytes id) = .ok id
  asBytes_of_fromBytes : ∀ b id, fromBytes b = .ok id → asBytes id = b

attribute [simp] EndpointKey.asBytes_length EndpointKey.fromBytes_asBytes

/-- Ids as bare byte strings, every 32 bytes accepted: enough to run the model
on points that are on the curve. -/
structure RawId where
  bytes : Bytes
  length_eq : bytes.length = 32
  deriving DecidableEq

instance : EndpointKey RawId where
  asBytes id := id.bytes
  fromBytes b := if h : b.length = 32 then .ok ⟨b,h⟩ else .error "invalid length"
  asBytes_length id := id.length_eq
  fromBytes_asBytes id := dif_pos id.length_eq
  asBytes_of_fromBytes b id h := by
    split_ifs at h
    cases h
    rfl

/-- The encoded base point and the encoded identity. -/
def RawId.base : RawId := ⟨0x58::List.replicate 31 0x66,by simp⟩
def RawId.identity : RawId := ⟨1::List.replicate 31 0,by simp⟩

/-! ### Frames -/

inductive ClientFrame (Id : Type) where
  | subscribe (topic : Topic)
  | unsubscribe (topic : Topic)
  | announce (topic : Topic) (blob : Bytes)
  | publish (topic : Topic) (payload : Bytes)
  | publishTo (topic : Topic) (recipient : Id) (payload : Bytes)
  deriving DecidableEq

structure Member (Id : Type) where
  id : Id
  blob : Bytes
  deriving DecidableEq

inductive ServerFrame (Id : Type) where
  | snapshot (topic : Topic) (more : Bool) (members : List (Member Id))
  | joined (topic : Topic) (id : Id)
  | left (topic : Topic) (id : Id)
  | presence (topic : Topic) (id : Id) (blob : Bytes)
  | deliver (topic : Topic) (payload : Bytes)
  | error (topic : Option Topic) (reason : String)
  deriving DecidableEq

section
variable {Id : Type} [EndpointKey Id]
open EndpointKey

/-! ### Encoding -/

/-- The length prefix and tag for a body of `bodyLen` bytes. The length is
computed in 32 bits. -/
def frameHeader (tag : UInt8) (bodyLen : ℕ) : Bytes := putU32 (1+bodyLen%4294967296)++[tag]

def encode (tag : UInt8) (bodyLen : ℕ) (body : Bytes) : Bytes := frameHeader tag bodyLen++body

def ClientFrame.encode : ClientFrame Id → Bytes
  | .subscribe topic => WireFormat.encode Tag.subscribe 32 topic.bytes
  | .unsubscribe topic => WireFormat.encode Tag.unsubscribe 32 topic.bytes
  | .announce topic blob =>
      WireFormat.encode Tag.announce (32+blob.length) (topic.bytes++blob)
  | .publish topic payload =>
      WireFormat.encode Tag.publish (32+payload.length) (topic.bytes++payload)
  | .publishTo topic recipient payload =>
      WireFormat.encode Tag.publishTo (64+payload.length)
        (topic.bytes++asBytes recipient++payload)

def ClientFrame.topic : ClientFrame Id → Topic
  | .subscribe topic | .unsubscribe topic | .announce topic _ | .publish topic _
  | .publishTo topic _ _ => topic

def ClientFrame.isLaneFrame : ClientFrame Id → Bool
  | .publish _ _ | .publishTo _ _ _ => true
  | _ => false

/-- Body bytes one member takes in a SNAPSHOT. -/
def snapshotEntryLen (m : Member Id) : ℕ := 32+4+m.blob.length

/-- SNAPSHOT body bytes before the entries. -/
def snapshotHeadLen : ℕ := 32+1+2

def encodeEntry (m : Member Id) : Bytes := asBytes m.id++putU32 m.blob.length++m.blob

def encodeSnapshotChunk (topic : Topic) (more : Bool) (members : List (Member Id)) : Bytes :=
  encode Tag.snapshot (snapshotHeadLen+(members.map snapshotEntryLen).sum)
    (topic.bytes++[if more then snapshotMore else 0]++putU16 members.length++
      members.flatMap encodeEntry)

def ServerFrame.encode : ServerFrame Id → Bytes
  | .snapshot topic more members =>
      encodeSnapshotChunk topic more (members.take (min members.length 65535))
  | .joined topic id => WireFormat.encode Tag.joined 64 (topic.bytes++asBytes id)
  | .left topic id => WireFormat.encode Tag.left 64 (topic.bytes++asBytes id)
  | .presence topic id blob =>
      WireFormat.encode Tag.presence (64+blob.length) (topic.bytes++asBytes id++blob)
  | .deliver topic payload =>
      WireFormat.encode Tag.deliver (32+payload.length) (topic.bytes++payload)
  | .error topic reason =>
      WireFormat.encode Tag.error (32+(utf8 reason).length)
        ((topic.getD Topic.zero).bytes++utf8 reason)

/-! ### Decoding -/

def hexDigit (n : ℕ) : Char := if n < 10 then Char.ofNat (48+n) else Char.ofNat (87+n)

/-- Two lower-case hex digits. -/
def hexByte (b : UInt8) : String := String.ofList [hexDigit (b.toNat/16),hexDigit (b.toNat%16)]

def takeTopic (body : Bytes) : Except String (Topic × Bytes) :=
  if h : 32 ≤ body.length then
    .ok (⟨body.take 32,by simpa using h⟩,body.drop 32)
  else .error "truncated topic"

def takeId (body : Bytes) : Except String (Id × Bytes) :=
  if 32 ≤ body.length then
    match fromBytes (body.take 32) with
    | .ok id => .ok (id,body.drop 32)
    | .error e => .error ("invalid endpoint id: "++e)
  else .error "truncated endpoint id"

def ensureEmpty {A : Type} (what : String) (tag : UInt8) (frame : A) (body : Bytes) :
    Except String A :=
  if body = [] then .ok frame
  else .error ("trailing bytes in "++what++" frame 0x"++hexByte tag)

def ClientFrame.decode (tag : UInt8) (body : Bytes) : Except String (ClientFrame Id) :=
  if tag = Tag.subscribe then do
    let (topic,rest) ← takeTopic body
    ensureEmpty "client" tag (.subscribe topic) rest
  else if tag = Tag.unsubscribe then do
    let (topic,rest) ← takeTopic body
    ensureEmpty "client" tag (.unsubscribe topic) rest
  else if tag = Tag.announce then do
    let (topic,blob) ← takeTopic body
    pure (.announce topic blob)
  else if tag = Tag.publish then do
    let (topic,payload) ← takeTopic body
    pure (.publish topic payload)
  else if tag = Tag.publishTo then do
    let (topic,rest) ← takeTopic body
    let (recipient,payload) ← takeId rest
    pure (.publishTo topic recipient payload)
  else .error ("unknown client frame 0x"++hexByte tag)

/-- The `count` entries of a SNAPSHOT body and what follows them. -/
def takeEntries : ℕ → Bytes → Except String (List (Member Id) × Bytes)
  | 0,body => .ok ([],body)
  | count+1,body => do
      let (id,rest) ← takeId body
      if 4 ≤ rest.length then
        let len := beValue (rest.take 4)
        let rest := rest.drop 4
        if len ≤ rest.length then do
          let (members,tail) ← takeEntries count (rest.drop len)
          pure (⟨id,rest.take len⟩::members,tail)
        else .error "truncated snapshot blob"
      else .error "truncated snapshot blob length"

def ServerFrame.decode (tag : UInt8) (body : Bytes) : Except String (ServerFrame Id) :=
  if tag = Tag.snapshot then do
    let (topic,rest) ← takeTopic body
    match rest with
    | flags::c₁::c₀::rest => do
        let (members,tail) ← takeEntries (beValue [c₁,c₀]) rest
        ensureEmpty "server" tag (.snapshot topic (flags &&& snapshotMore != 0) members) tail
    | _ => .error "truncated snapshot header"
  else if tag = Tag.joined then do
    let (topic,rest) ← takeTopic body
    let (id,rest) ← takeId rest
    ensureEmpty "server" tag (.joined topic id) rest
  else if tag = Tag.left then do
    let (topic,rest) ← takeTopic body
    let (id,rest) ← takeId rest
    ensureEmpty "server" tag (.left topic id) rest
  else if tag = Tag.presence then do
    let (topic,rest) ← takeTopic body
    let (id,blob) ← takeId rest
    pure (.presence topic id blob)
  else if tag = Tag.deliver then do
    let (topic,payload) ← takeTopic body
    pure (.deliver topic payload)
  else if tag = Tag.error then do
    let (topic,reason) ← takeTopic body
    pure (.error (if topic.isZero then none else some topic) (fromUtf8Lossy reason))
  else .error ("unknown server frame 0x"++hexByte tag)

/-- Splits a datagram into its topic and payload. -/
def splitDatagram (datagram : Bytes) : Option (Topic × Bytes) := (takeTopic datagram).toOption

end

end KeepTalkingSfu.WireFormat
