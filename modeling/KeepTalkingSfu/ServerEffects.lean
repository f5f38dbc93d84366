import KeepTalkingSfu.InterleavedRuns
import KeepTalkingSfu.MembershipView
import KeepTalkingSfu.StepCases

/-!
# What a step of the server can do

A step of a connection's task either leaves the rooms alone and sends nothing
that is a room event, or it is one of four things: a join, a leave, giving up
a topic whose slot is no longer held, or an announcement. That is said once
here, together with what the messages read as, and everything about the rooms
is derived from it.
-/
namespace KeepTalkingSfu.ServerEffects
open ByteTransport WireFormat FrameCodec StreamWriters LaneStream MemberQueues RoomTable
  TokenBucket Server StepCases MembershipView

/-! ### Reading a session item back -/

section
variable {Id : Type} [EndpointKey Id]

/-- The frame a client reads for an item: the length prefix only delimits it. -/
def readBack : SessionItem Id → Option (ServerFrame Id)
  | .frame bytes => (ServerFrame.decode (bytes.getD 4 0) (bytes.drop 5)).toOption
  | .snapshot topic members => some (.snapshot topic false members)

inductive Event (Id : Type) where
  | snapshot (members : List (Member Id))
  | change (ch : Change Id Bytes)
  deriving DecidableEq

/-- The room event of a topic that a frame carries. -/
def roomEvent (t : Topic) : ServerFrame Id → Option (Event Id)
  | .snapshot topic _ members => if topic = t then some (.snapshot members) else none
  | .joined topic id => if topic = t then some (.change (.joined id)) else none
  | .left topic id => if topic = t then some (.change (.left id)) else none
  | .presence topic id blob => if topic = t then some (.change (.presence id blob)) else none
  | .deliver _ _ | .error _ _ => none

def itemEvent (t : Topic) (q : Queued (SessionItem Id)) : Option (Event Id) :=
  (readBack q.item).bind (roomEvent t)

/-- The room events of a topic among queued session items, in order. -/
def events (t : Topic) (sent : List (Queued (SessionItem Id))) : List (Event Id) :=
  sent.filterMap (itemEvent t)

@[simp] theorem events_append (t : Topic) (xs ys : List (Queued (SessionItem Id))) :
    events t (xs++ys) = events t xs++events t ys := List.filterMap_append

/-- The room events of a topic among messages to one connection. -/
def msgEvents (t : Topic) (msgs : List (Msg Id)) : List (Event Id) :=
  events t (msgs.flatMap Msg.sessionItem)

@[simp] theorem msgEvents_append (t : Topic) (ms ns : List (Msg Id)) :
    msgEvents t (ms++ns) = msgEvents t ms++msgEvents t ns := by
  simp [msgEvents]

/-- An encoded frame reads back as what the wire shows of it. -/
theorem readBack_encode (f : ServerFrame Id)
    (hf : ∀ topic more members, f ≠ .snapshot topic more members) :
    readBack (.frame f.encode) = some (onWire f) := by
  have hraw : readBack (.frame f.encode : SessionItem Id) =
      (ServerFrame.decode (serverTag f) (serverBody f)).toOption := by
    cases f with
    | snapshot topic more members => exact absurd rfl (hf topic more members)
    | _ => rfl
  rw [hraw,serverFrame_decode_fixed f hf]
  rfl

theorem msgEvents_pushFrame (t : Topic) (f : ServerFrame Id)
    (hf : ∀ topic more members, f ≠ .snapshot topic more members) :
    msgEvents t [pushFrame f.encode] = (roomEvent t f).toList := by
  have hwire : roomEvent t (onWire f) = roomEvent t f := by cases f <;> rfl
  simp only [msgEvents,pushFrame,List.flatMap_cons,List.flatMap_nil,Msg.sessionItem,
    List.append_nil,events,List.filterMap_cons,List.filterMap_nil,itemEvent,readBack_encode f hf,
    Option.bind_some,hwire]
  cases roomEvent t f <;> rfl

/-- A message that is no room event of any topic. -/
def Quiet (msg : Msg Id) : Prop := ∀ t, msgEvents t [msg] = []

theorem quiet_error (c : ℕ) (topic : Option Topic) (reason : String) :
    Quiet (error c topic reason : Send Id).msg :=
  fun t => msgEvents_pushFrame t (.error topic reason) nofun

theorem quiet_deliver (lane : Lane) (frame : Deliver) : Quiet (.deliver lane frame : Msg Id) :=
  fun _ => rfl

theorem quiet_datagram (datagram : Bytes) : Quiet (.datagram datagram : Msg Id) := fun _ => rfl

end

/-! ### The outcome of one step of a connection -/

section
variable {Id F : Type} [DecidableEq Id] [EndpointKey Id]

inductive Performed (limits : Limits F) (r : Rooms Id) (h : Handle Id) (subs : Finset Topic) :
    Rooms Id → Finset Topic → List (Send Id) → Prop
  | quiet (sends : List (Send Id)) : (∀ m ∈ sends, Quiet m.msg) →
      Performed limits r h subs r subs sends
  | join (t : Topic) : t ∉ subs → t.isZero = false →
      subs.card < limits.maxTopicsPerConnection → r.isFull t h.peer = false →
      Performed limits r h subs (r.insertRoom t (r.joined t h)) (insert t subs) (r.joinSends t h)
  | leave (t : Topic) (room : Room Id) : t ∈ subs → r.room t = some room →
      r.isMember t h = true →
      Performed limits r h subs (r.setRoom t (room.erase h.peer)) (subs.erase t)
        (broadcast (room.erase h.peer) h.peer (ServerFrame.left t h.peer).encode)
  | drop (t : Topic) : t ∈ subs → r.isMember t h = false →
      Performed limits r h subs r (subs.erase t) []
  | announce (t : Topic) (room : Room Id) (slot : Slot Id) (blob : Bytes) :
      r.room t = some room → room.lookup h.peer = some slot → slot.handle.connId = h.connId →
      blob.length ≤ maxAnnounceLen →
      Performed limits r h subs (r.insertRoom t (room.insert h.peer { slot with blob := blob }))
        subs (broadcast (room.insert h.peer { slot with blob := blob }) h.peer
          (ServerFrame.presence t h.peer blob).encode)

/-- The blob of an ANNOUNCE under way has passed its check. -/
def BlobFits : SessionTask → Prop
  | .reading => True
  | .announceChecked _ blob _ | .announceGranted _ blob => blob.length ≤ maxAnnounceLen

variable {limits : Limits F} {r : Rooms Id} {c : ℕ} {conn : Conn Id F}

theorem Performed.nothing {h : Handle Id} {subs : Finset Topic} :
    Performed limits r h subs r subs [] := .quiet [] nofun

theorem Performed.error {h : Handle Id} {subs : Finset Topic} (c : ℕ) (topic : Option Topic)
    (reason : String) : Performed limits r h subs r subs [error c topic reason] := by
  apply Performed.quiet
  intro m hm
  rw [List.mem_singleton.mp hm]
  exact quiet_error c topic reason

theorem Performed.sends {h : Handle Id} {subs : Finset Topic} {lane : Lane} {p : Publish Id}
    {sends : List (Send Id)} (hcarried : Carried r c h lane p sends) :
    Performed limits r h subs r subs sends := by
  cases hcarried with
  | notSubscribed => exact .error c (some p.topic) _
  | noSuchRecipient => exact .error c (some p.topic) _
  | toAll room =>
      apply Performed.quiet
      intro m hm
      obtain ⟨e,-,rfl⟩ := List.mem_map.mp hm
      exact quiet_deliver _ _
  | toOne recipient slot =>
      apply Performed.quiet
      intro m hm
      rw [List.mem_singleton.mp hm]
      exact quiet_deliver _ _

theorem leaveTopic_spec {t : Topic} (ht : t ∈ conn.subscribed) :
    Performed limits r ⟨conn.peer,c⟩ conn.subscribed (leaveTopic r c conn t).rooms
      (leaveTopic r c conn t).conn.subscribed (leaveTopic r c conn t).sends := by
  rcases leaveTopic_cases r c conn t with ⟨hm,heq⟩ | ⟨hm,room,hroom,heq⟩
  · rw [heq]
    exact .drop t ht hm
  · rw [heq]
    exact .leave t room ht hroom hm

section
variable [Scalar F]

theorem joined_spec {t : Topic} {now : ℕ} (ht : t ∉ conn.subscribed)
    (hr : refusal limits r conn t now = none) :
    Performed limits r ⟨conn.peer,c⟩ conn.subscribed (r.insertRoom t (r.joined t ⟨conn.peer,c⟩))
      (insert t conn.subscribed) (r.joinSends t ⟨conn.peer,c⟩) := by
  unfold refusal at hr
  split_ifs at hr with hzero hmany hrate hfull
  exact .join t ht (by simpa using hzero) (Nat.not_le.mp hmany) (by simpa using hfull)

theorem perform_spec {a : Act Id} {e : Effect Id F} (hb : BlobFits conn.session)
    (h : perform limits r c conn a = some e) :
    Performed limits r ⟨conn.peer,c⟩ conn.subscribed e.rooms e.conn.subscribed e.sends := by
  cases perform_ran h with
  | malformed | subscribeRefused | frameRefused | announceDenied | laneMalformed | laneTooLarge
  | laneNotSubscribed | laneDenied => exact .error c _ _
  | joined t b hidle hd ht hr => exact joined_spec ht hr
  | unsubscribed t hidle hd ht => exact leaveTopic_spec ht
  | leaveNext t hphase ht => exact leaveTopic_spec ht
  | announceRoom t blob hs =>
      rw [hs] at hb
      rcases announceRoom_cases r c conn t blob with
        ⟨-,heq⟩ | ⟨-,room,slot,hroom,hslot,hid,heq⟩
      · rw [heq]
        exact .nothing
      · rw [heq]
        exact .announce t room slot blob hroom hslot hid hb
  | laneRoom lane p sends hl hcarried => exact .sends hcarried
  | datagramRoom datagram failed hd =>
      apply Performed.quiet
      intro m hm
      obtain ⟨d,-,rfl⟩ := List.mem_map.mp hm
      exact quiet_datagram datagram
  | _ => exact .nothing

/-! ### The connection's own part -/

structure ConnOk (limits : Limits F) (conn : Conn Id F) : Prop where
  topics : conn.subscribed.card ≤ limits.maxTopicsPerConnection
  ended : conn.phase = .ended → conn.subscribed = ∅
  blob : BlobFits conn.session

theorem perform_private {a : Act Id} {e : Effect Id F} (hok : ConnOk limits conn)
    (h : perform limits r c conn a = some e) :
    e.conn.peer = conn.peer ∧ BlobFits e.conn.session ∧
      (e.conn.phase = .ended → e.conn.subscribed = ∅) := by
  cases perform_ran h with
  | joined t b hidle =>
      refine ⟨rfl,hok.blob,?_⟩
      intro hended
      exact absurd (hidle.live.symm.trans hended) (by decide)
  | unsubscribed t | leaveNext t =>
      refine ⟨rfl,hok.blob,?_⟩
      intro hended
      change conn.subscribed.erase t = ∅
      rw [hok.ended hended,Finset.erase_empty]
  | announceChecked t blob hidle hd hlen => exact ⟨rfl,hlen,hok.ended⟩
  | announceGranted t blob frameLen hs =>
      have hblob := hok.blob
      rw [hs] at hblob
      exact ⟨rfl,hblob,hok.ended⟩
  | announceDenied | announceRoom => exact ⟨rfl,trivial,hok.ended⟩
  | endSession => exact ⟨rfl,hok.blob,nofun⟩
  | finish hphase hempty => exact ⟨rfl,hok.blob,fun _ => hempty⟩
  | _ => exact ⟨rfl,hok.blob,hok.ended⟩

theorem perform_connOk {a : Act Id} {e : Effect Id F} (hok : ConnOk limits conn)
    (h : perform limits r c conn a = some e) : ConnOk limits e.conn := by
  obtain ⟨-,hblob,hended⟩ := perform_private hok h
  refine ⟨?_,hended,hblob⟩
  have htopics := hok.topics
  have hspec := perform_spec hok.blob h
  generalize e.rooms = rooms,e.conn.subscribed = subs,e.sends = sends at hspec
  cases hspec with
  | quiet => exact htopics
  | join t ht hz hcard => exact (Finset.card_insert_le t _).trans hcard
  | leave t => exact (Finset.card_erase_le).trans htopics
  | drop t => exact (Finset.card_erase_le).trans htopics
  | announce => exact htopics

/-! ### Steps of the server, taken apart -/

variable {s s' : State Id F}

theorem step_act {c : ℕ} {a : Act Id} (h : step limits s (.act c a) = some s') :
    ∃ conn e, s.conns c = some conn ∧ perform limits s.rooms c conn a = some e ∧
      s' = s.apply c e := by
  obtain ⟨conn,hc,h⟩ := Option.bind_eq_some_iff.mp h
  obtain ⟨e,he,rfl⟩ := Option.map_eq_some_iff.mp h
  exact ⟨conn,e,hc,he,rfl⟩

theorem step_drain {c : ℕ} {d : Drain} (h : step limits s (.drain c d) = some s') :
    ∃ out, (s.outs c).drain d = some out ∧ s' = { s with outs := Function.update s.outs c out } := by
  simp only [step] at h
  split_ifs at h
  obtain ⟨out,hout,rfl⟩ := Option.map_eq_some_iff.mp h
  exact ⟨out,hout,rfl⟩

theorem step_rehash {t : Topic} {room : Room Id} (h : step limits s (.rehash t room) = some s') :
    ∃ old, s.rooms.room t = some old ∧ room.entries.Perm old.entries ∧
      s' = { s with rooms := s.rooms.insertRoom t room } := by
  obtain ⟨old,hold,h⟩ := Option.bind_eq_some_iff.mp h
  split_ifs at h with hperm
  cases h
  exact ⟨old,hold,hperm,rfl⟩

end

end

end KeepTalkingSfu.ServerEffects
