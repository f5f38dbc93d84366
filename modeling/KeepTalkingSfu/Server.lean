import KeepTalkingSfu.LaneStream
import KeepTalkingSfu.RoomTable
import KeepTalkingSfu.TokenBucket
import Mathlib.Data.Finset.Card

/-!
# The server as interleaved tasks

Every connection has a session reader, any number of lane readers and a
datagram reader, all over the shared rooms and the queues of every client. A
step is what one task does between two points where another can come in: a
SUBSCRIBE or UNSUBSCRIBE is handled whole, an ANNOUNCE or a lane frame is
checked, charged to the connection's publish rate and carried out under the
shard lock in separate steps, and a connection that ends leaves its rooms one
at a time. The writers of every client run in between.

A lane reader is aborted when its session ends, but may still be in the middle
of a frame then, so its steps are not tied to the session's.
-/
namespace KeepTalkingSfu.Server
open ByteTransport WireFormat StreamWriters LaneStream MemberQueues RoomTable TokenBucket

/-- The limits these tasks read. -/
structure Limits (F : Type) where
  maxMembersPerTopic : ℕ
  maxTopicsPerConnection : ℕ
  snapshotChunkEntries : ℕ
  outboxBytes : ℕ
  bulkOutboxBytes : ℕ
  publishRate : Rate F
  joinRate : Rate F
  datagramRate : Rate F

/-- The production values, with rates read exactly. -/
def Limits.default : Limits Level where
  maxMembersPerTopic := WireFormat.maxMembersPerTopic
  maxTopicsPerConnection := WireFormat.maxTopicsPerConnection
  snapshotChunkEntries := WireFormat.snapshotChunkEntries
  outboxBytes := 8*1048576
  bulkOutboxBytes := 8*1048576
  publishRate := ⟨.finite 4194304,.finite 4194304,.finite 200,.finite 400⟩
  joinRate := .frames (.finite 50) (.finite 600)
  datagramRate := ⟨.finite 1048576,.finite 2097152,.finite 1000,.finite 2000⟩

inductive Phase where
  | live
  | leaving
  | ended
  deriving DecidableEq, Repr

/-- Where the session reader is: between frames, or with an ANNOUNCE that still
has to be charged or stored. -/
inductive SessionTask where
  | reading
  | announceChecked (topic : Topic) (blob : Bytes) (frameLen : ℕ)
  | announceGranted (topic : Topic) (blob : Bytes)
  deriving DecidableEq

/-- A PUBLISH (no recipient) or PUBLISH_TO on its way through a lane reader. -/
structure Publish (Id : Type) where
  topic : Topic
  recipient : Option Id
  deliver : Deliver
  frameLen : ℕ
  deriving DecidableEq

inductive LaneTask (Id : Type) where
  | reading
  | checked (p : Publish Id)
  | granted (p : Publish Id)
  | over
  deriving DecidableEq

structure LaneReader (Id : Type) where
  lane : Lane
  task : LaneTask Id
  deriving DecidableEq

structure Conn (Id F : Type) where
  peer : Id
  phase : Phase
  subscribed : Finset Topic
  joinRate : Bucket F
  publishRate : Bucket F
  datagramRate : Bucket F
  session : SessionTask
  lanes : ℕ → Option (LaneReader Id)
  datagram : Option Bytes

structure State (Id F : Type) where
  rooms : Rooms Id
  conns : ℕ → Option (Conn Id F)
  outs : ℕ → Outbound Id
  next : ℕ

/-- What one step of a connection's task does. -/
structure Effect (Id F : Type) where
  rooms : Rooms Id
  conn : Conn Id F
  sends : List (Send Id)

/-- The steps of one connection's tasks. -/
inductive Act (Id : Type) where
  | sessionFrame (tag : UInt8) (body : Bytes) (now : ℕ)
  | announceRate (now : ℕ)
  | announceRoom
  | endSession
  | leaveNext (topic : Topic)
  | finish
  | openLane (stream : ℕ) (lane : Lane)
  | laneFrame (stream : ℕ) (tag : UInt8) (body : Bytes)
  | laneRate (stream : ℕ) (now : ℕ)
  | laneRoom (stream : ℕ)
  | datagramIn (datagram : Bytes) (now : ℕ)
  | datagramRoom (failed : List ℕ)
  deriving DecidableEq

inductive Action (Id : Type) where
  | connect (peer : Id) (now : ℕ)
  | act (c : ℕ) (a : Act Id)
  | drain (c : ℕ) (d : Drain)
  | rehash (topic : Topic) (room : Room Id)

section
variable {Id F : Type}

def State.init (limits : Limits F) : State Id F where
  rooms := .new Id limits.maxMembersPerTopic limits.snapshotChunkEntries
  conns _ := none
  outs _ := .new Id limits.outboxBytes limits.bulkOutboxBytes
  next := 1

def Conn.new (limits : Limits F) (peer : Id) (now : ℕ) : Conn Id F where
  peer := peer
  phase := .live
  subscribed := ∅
  joinRate := .new limits.joinRate now
  publishRate := .new limits.publishRate now
  datagramRate := .new limits.datagramRate now
  session := .reading
  lanes _ := none
  datagram := none

def State.connect (limits : Limits F) (s : State Id F) (peer : Id) (now : ℕ) : State Id F where
  rooms := s.rooms
  conns := Function.update s.conns s.next (some (.new limits peer now))
  outs := Function.update s.outs s.next (.new Id limits.outboxBytes limits.bulkOutboxBytes)
  next := s.next+1

def State.apply (s : State Id F) (c : ℕ) (e : Effect Id F) : State Id F :=
  { s with
    rooms := e.rooms
    conns := Function.update s.conns c (some e.conn)
    outs := sendAll s.outs e.sends }

section
variable (limits : Limits F) (s : State Id F) (c : ℕ) (e : Effect Id F) (peer : Id) (now : ℕ)

@[simp] theorem State.connect_rooms : (s.connect limits peer now).rooms = s.rooms := rfl

@[simp] theorem State.connect_conns_self :
    (s.connect limits peer now).conns s.next = some (.new limits peer now) :=
  Function.update_self _ _ _

theorem State.connect_conns_of_ne {d : ℕ} (h : d ≠ s.next) :
    (s.connect limits peer now).conns d = s.conns d := Function.update_of_ne h _ _

theorem State.connect_outs_of_ne {d : ℕ} (h : d ≠ s.next) :
    (s.connect limits peer now).outs d = s.outs d := Function.update_of_ne h _ _

@[simp] theorem State.apply_rooms : (s.apply c e).rooms = e.rooms := rfl

@[simp] theorem State.apply_conns_self : (s.apply c e).conns c = some e.conn :=
  Function.update_self _ _ _

theorem State.apply_conns_of_ne {d : ℕ} (h : d ≠ c) : (s.apply c e).conns d = s.conns d :=
  Function.update_of_ne h _ _

theorem State.apply_outs (d : ℕ) :
    (s.apply c e).outs d = acceptAll (s.outs d) (sendsTo d e.sends) := sendAll_apply _ _ _

end

/-- What is left of a lane reader once a frame is handled. A bulk stream has one. -/
def LaneReader.next (l : LaneReader Id) : LaneReader Id :=
  { l with task := if l.lane = .bulk then .over else .reading }

def Conn.setLane (conn : Conn Id F) (stream : ℕ) (l : LaneReader Id) : Conn Id F :=
  { conn with lanes := Function.update conn.lanes stream (some l) }

variable [DecidableEq Id] [EndpointKey Id] [Scalar F]
variable (limits : Limits F) (r : Rooms Id) (c : ℕ) (conn : Conn Id F)

/-! ### The session reader -/

/-- Answers a frame that could not be decoded, or does not belong on its
stream, with a general ERROR. -/
def skipMalformed (tag : UInt8) (err : String) : Send Id :=
  error c none ("malformed frame 0x"++hexByte tag++": "++err)

def refuse (topic : Topic) (reason : String) : Effect Id F := ⟨r,conn,[error c (some topic) reason]⟩

def handleSubscribe (topic : Topic) (now : ℕ) : Effect Id F :=
  if topic ∈ conn.subscribed then ⟨r,conn,[]⟩
  else if topic.isZero then refuse r c conn topic Reason.reservedTopic
  else if limits.maxTopicsPerConnection ≤ conn.subscribed.card then
    refuse r c conn topic Reason.tooManyTopics
  else
    let (granted,joinRate) := conn.joinRate.tryTake 0 now
    let conn := { conn with joinRate := joinRate }
    if granted then
      match r.join topic ⟨conn.peer,c⟩ with
      | ⟨some _,rooms,sends⟩ =>
          ⟨rooms,{ conn with subscribed := insert topic conn.subscribed },sends⟩
      | ⟨none,rooms,sends⟩ =>
          ⟨rooms,conn,sends++[error c (some topic) Reason.roomFull]⟩
    else refuse r c conn topic Reason.rateLimited

/-- Gives a topic up and leaves its room if the slot is still held. -/
def leaveTopic (topic : Topic) : Effect Id F :=
  let left := r.leave topic ⟨conn.peer,c⟩
  ⟨left.rooms,{ conn with subscribed := conn.subscribed.erase topic },left.sends⟩

def handleFrame (frame : ClientFrame Id) (frameLen now : ℕ) : Effect Id F :=
  match frame with
  | .subscribe topic => handleSubscribe limits r c conn topic now
  | .unsubscribe topic =>
      if topic ∈ conn.subscribed then leaveTopic r c conn topic else ⟨r,conn,[]⟩
  | .announce topic blob =>
      if maxAnnounceLen < blob.length then refuse r c conn topic Reason.announceTooLarge
      else if topic ∉ conn.subscribed then refuse r c conn topic Reason.notSubscribed
      else ⟨r,{ conn with session := .announceChecked topic blob frameLen },[]⟩
  | .publish topic _ | .publishTo topic _ _ => refuse r c conn topic Reason.publishOnSession

def readSession (tag : UInt8) (body : Bytes) (now : ℕ) : Effect Id F :=
  match ClientFrame.decode tag body with
  | .ok frame => handleFrame limits r c conn frame (5+body.length) now
  | .error err => ⟨r,conn,[skipMalformed c tag err]⟩

def announceRate (topic : Topic) (blob : Bytes) (frameLen now : ℕ) : Effect Id F :=
  let (granted,publishRate) := conn.publishRate.tryTake frameLen now
  let conn := { conn with publishRate := publishRate }
  if granted then ⟨r,{ conn with session := .announceGranted topic blob },[]⟩
  else refuse r c { conn with session := .reading } topic Reason.rateLimited

/-- A slot that is no longer the connection's is passed over without a word. -/
def announceRoom (topic : Topic) (blob : Bytes) : Effect Id F :=
  let stored := r.announce topic ⟨conn.peer,c⟩ blob
  ⟨stored.rooms,{ conn with session := .reading },stored.sends⟩

/-! ### Lane readers

A PUBLISH or PUBLISH_TO is checked, charged and carried out. -/

def publishCheck (stream : ℕ) (l : LaneReader Id) (tag : UInt8) (body : Bytes) : Effect Id F :=
  match decodeLaneFrame tag body with
  | .error err =>
      ⟨r,conn.setLane stream l.next,if l.lane = .bulk then [] else [skipMalformed c tag err]⟩
  | .ok (frame,topicBytes) =>
      match publishParts frame with
      | none => ⟨r,conn.setLane stream { l with task := .over },[]⟩
      | some (topic,recipient,payload) =>
          if maxPublishLen < payload.length then
            refuse r c (conn.setLane stream l.next) topic Reason.publishTooLarge
          else if r.isMember topic ⟨conn.peer,c⟩ then
            let p : Publish Id := ⟨topic,recipient,Deliver.new topicBytes payload,5+body.length⟩
            ⟨r,conn.setLane stream { l with task := .checked p },[]⟩
          else refuse r c (conn.setLane stream l.next) topic Reason.notSubscribed

def publishRate (stream : ℕ) (l : LaneReader Id) (p : Publish Id) (now : ℕ) : Effect Id F :=
  let (granted,publishRate) := conn.publishRate.tryTake p.frameLen now
  let conn := { conn with publishRate := publishRate }
  if granted then ⟨r,conn.setLane stream { l with task := .granted p },[]⟩
  else refuse r c (conn.setLane stream l.next) p.topic Reason.rateLimited

def publishRoom (stream : ℕ) (l : LaneReader Id) (p : Publish Id) : Effect Id F :=
  let published := match p.recipient with
    | none => r.publish p.topic ⟨conn.peer,c⟩ l.lane p.deliver
    | some recipient => r.publishTo p.topic ⟨conn.peer,c⟩ recipient l.lane p.deliver
  ⟨published.rooms,conn.setLane stream l.next,
    published.sends++
      match published.result with
      | .ok _ => []
      | .error .notSubscribed => [error c (some p.topic) Reason.notSubscribed]
      | .error .noSuchRecipient => [error c (some p.topic) Reason.noSuchRecipient]⟩

/-! ### The datagram reader -/

/-- A datagram over the rate limit is dropped. -/
def datagramIn (datagram : Bytes) (now : ℕ) : Effect Id F :=
  let (granted,datagramRate) := conn.datagramRate.tryTake datagram.length now
  ⟨r,{ conn with
    datagramRate := datagramRate
    datagram := if granted then some datagram else none },[]⟩

/-- Forwards a datagram to the topic's other subscribers; `failed` are the
connections that do not take it. -/
def datagramRoom (datagram : Bytes) (failed : List ℕ) : Effect Id F :=
  let targets := (splitDatagram datagram).bind fun (topic,_) =>
    r.datagramTargets topic ⟨conn.peer,c⟩
  ⟨r,{ conn with datagram := none },
    ((targets.getD []).filter fun d => d ∉ failed).map fun d => ⟨d,.datagram datagram⟩⟩

/-! ### Steps -/

def perform : Act Id → Option (Effect Id F)
  | .sessionFrame tag body now =>
      if conn.phase = .live ∧ conn.session = .reading then
        some (readSession limits r c conn tag body now)
      else none
  | .announceRate now =>
      match conn.session with
      | .announceChecked topic blob frameLen => some (announceRate r c conn topic blob frameLen now)
      | _ => none
  | .announceRoom =>
      match conn.session with
      | .announceGranted topic blob => some (announceRoom r c conn topic blob)
      | _ => none
  | .endSession =>
      if conn.phase = .live ∧ conn.session = .reading then
        some ⟨r,{ conn with phase := .leaving },[]⟩
      else none
  | .leaveNext topic =>
      if conn.phase = .leaving ∧ topic ∈ conn.subscribed then some (leaveTopic r c conn topic)
      else none
  | .finish =>
      if conn.phase = .leaving ∧ conn.subscribed = ∅ then
        some ⟨r,{ conn with phase := .ended },[]⟩
      else none
  | .openLane stream lane =>
      match conn.lanes stream with
      | none => some ⟨r,conn.setLane stream ⟨lane,.reading⟩,[]⟩
      | some _ => none
  | .laneFrame stream tag body =>
      match conn.lanes stream with
      | some ⟨lane,.reading⟩ => some (publishCheck r c conn stream ⟨lane,.reading⟩ tag body)
      | _ => none
  | .laneRate stream now =>
      match conn.lanes stream with
      | some ⟨lane,.checked p⟩ => some (publishRate r c conn stream ⟨lane,.checked p⟩ p now)
      | _ => none
  | .laneRoom stream =>
      match conn.lanes stream with
      | some ⟨lane,.granted p⟩ => some (publishRoom r c conn stream ⟨lane,.granted p⟩ p)
      | _ => none
  | .datagramIn datagram now =>
      match conn.datagram with
      | none => some (datagramIn r conn datagram now)
      | some _ => none
  | .datagramRoom failed =>
      match conn.datagram with
      | some datagram => some (datagramRoom r c conn datagram failed)
      | none => none

def step (s : State Id F) : Action Id → Option (State Id F)
  | .connect peer now => some (s.connect limits peer now)
  | .act c a =>
      (s.conns c).bind fun conn => (perform limits s.rooms c conn a).map (s.apply c)
  | .drain c d =>
      if (s.conns c).isSome then
        ((s.outs c).drain d).map fun out => { s with outs := Function.update s.outs c out }
      else none
  | .rehash topic room =>
      (s.rooms.room topic).bind fun old =>
        if room.entries.Perm old.entries then
          some { s with rooms := s.rooms.insertRoom topic room }
        else none

/-- A frame as its client sends it on the session stream. -/
def sends (c : ℕ) (f : ClientFrame Id) (now : ℕ) : Action Id :=
  .act c (.sessionFrame (FrameCodec.clientTag f) (FrameCodec.clientBody f) now)

/-- A frame as its client sends it on a lane stream. -/
def publishes (stream : ℕ) (f : ClientFrame Id) : Act Id :=
  .laneFrame stream (FrameCodec.clientTag f) (FrameCodec.clientBody f)

end

/-- A topic of 32 equal bytes. -/
def topicOf (b : UInt8) : Topic := ⟨List.replicate 32 b,by simp⟩

end KeepTalkingSfu.Server
