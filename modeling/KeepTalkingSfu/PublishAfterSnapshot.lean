import KeepTalkingSfu.RoomView
import KeepTalkingSfu.Announcements
import KeepTalkingSfu.Refusals
import KeepTalkingSfu.DeliveryOrder

/-!
# Publishing once the SNAPSHOT has arrived

Lane streams are not ordered against the session stream, so a PUBLISH sent right behind a
SUBSCRIBE may be handled before it and refused. A client is told to wait for the topic's
SNAPSHOT. That is enough: the SNAPSHOT is queued by the join, and from then on the
connection holds its slot until it gives the topic up itself or another connection of its
endpoint subscribes, whatever everybody else does. So it is never told that it is not
subscribed, and nothing it publishes or announces is passed over.
-/
namespace KeepTalkingSfu.PublishAfterSnapshot
open ByteTransport WireFormat FrameCodec StreamWriters LaneStream MemberQueues RoomTable TokenBucket
  Server StepCases ServerEffects RoomInvariant TaskSteps InterleavedRuns SlotOwnership RoomView
  Announcements Refusals DeliveryOrder

section
variable {Id F : Type}

/-! ### ERRORs about a topic -/

section
variable [EndpointKey Id]

end

variable [DecidableEq Id] [EndpointKey Id] [Scalar F]
variable {limits : Limits F} {s s' : State Id F} {c : ℕ} {conn : Conn Id F} {t : Topic} {a : Action Id}

section
variable {r : Rooms Id}

end

/-! ### Holding a slot -/

/-- The connection with its endpoint, and its slot in the topic's room. -/
structure Holds (limits : Limits F) (c : ℕ) (p : Id) (t : Topic) (s : State Id F) : Prop where
  invariant : Invariant limits s
  conn : ∃ conn, s.conns c = some conn ∧ conn.peer = p
  owner : s.rooms.owner t p = some c

omit [EndpointKey Id] [Scalar F] in
theorem Holds.subscribed {p : Id} (h : Holds limits c p t s) : t ∈ topics s c := by
  obtain ⟨slot,hslot,hid⟩ := Option.map_eq_some_iff.mp h.owner
  obtain ⟨conn,hc,-,ht⟩ := (h.invariant.slots t p slot hslot).conn
  rw [hid] at hc
  rwa [topics_of_conn hc]

omit [EndpointKey Id] [Scalar F] in
theorem Holds.isMember {p : Id} (h : Holds limits c p t s) : s.rooms.isMember t ⟨p,c⟩ = true := by
  rw [Rooms.isMember_iff]
  exact h.owner

end

end KeepTalkingSfu.PublishAfterSnapshot
