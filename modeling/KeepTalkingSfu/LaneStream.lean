import KeepTalkingSfu.FrameReader
import KeepTalkingSfu.StreamWriters

/-!
# A lane from the publisher to the receiver

The publisher writes the lane byte and its frames: one long-lived stream for
control and interactive, a stream per frame for bulk. The server's lane reader
turns each stream into publishes, the DELIVER of a publish reuses the received
bytes, the lane writer (or a bulk sender) puts them on a stream towards the
receiver, and the receiver's reader turns that into deliveries. Composed, the
receiver gets what was published, in order and on the same lane.
-/
namespace KeepTalkingSfu.LaneStream
open ByteTransport WireFormat FrameCodec StreamWriters FrameReader

variable {Id : Type} [EndpointKey Id]

/-! ### The publisher -/

/-- Sends frames on a control or interactive lane. `stream` is what has been
written to the open stream; a failed write gives it up. Returns the bytes of
every stream opened. -/
def sendLongLived (plan : ℕ → WriteOutcome) (lane : Lane) :
    ℕ → Option Bytes → List (ClientFrame Id) → List Bytes
  | _,stream,[] => stream.toList
  | k,some sent,f::fs =>
      match writeChunks plan k [f.encode] with
      | (written,k₁,.ok ()) => sendLongLived plan lane k₁ (some (sent++written)) fs
      | (written,k₁,.error _) => (sent++written)::sendLongLived plan lane k₁ none fs
  | k,none,f::fs =>
      match plan k with
      | .took _ =>
          match writeChunks plan (k+1) [lane.prefixBytes,f.encode] with
          | (written,k₁,.ok ()) => sendLongLived plan lane k₁ (some written) fs
          | (written,k₁,.error _) => written::sendLongLived plan lane k₁ none fs
      | _ => sendLongLived plan lane (k+1) none fs

/-- Sends each frame on a bulk stream of its own. -/
def sendEachBulk (plan : ℕ → WriteOutcome) : ℕ → List (ClientFrame Id) → List Bytes
  | _,[] => []
  | k,f::fs =>
      match plan k with
      | .took _ =>
          match writeChunks plan (k+1) [Lane.bulk.prefixBytes,f.encode] with
          | (written,k₁,_) => written::sendEachBulk plan k₁ fs
      | _ => sendEachBulk plan (k+1) fs

def sendLane (plan : ℕ → WriteOutcome) (lane : Lane) (k : ℕ) (fs : List (ClientFrame Id)) :
    List Bytes :=
  if lane = .bulk then sendEachBulk plan k fs else sendLongLived plan lane k none fs

/-! ### The server's lane reader -/

/-- What a lane stream makes its reader do. -/
inductive LaneEvent (Id : Type) where
  | publish (lane : Lane) (frame : ClientFrame Id) (topic : Bytes) (frameLen : ℕ)
  | malformed (tag : UInt8) (err : String)

/-- How the reader left the stream, when not by an error. -/
inductive LaneExit where
  | ended
  | unknownLane (byte : UInt8)
  | bulkMalformed (tag : UInt8) (err : String)
  | bulkTrailing
  deriving DecidableEq, Repr

/-- Decodes a lane frame and keeps the body's topic bytes for the DELIVER. -/
def decodeLaneFrame (tag : UInt8) (body : Bytes) : Except String (ClientFrame Id × Bytes) :=
  let topic := body.take (min body.length 32)
  match ClientFrame.decode tag body with
  | .error e => .error e
  | .ok frame => if frame.isLaneFrame then .ok (frame,topic) else .error "not a lane frame"

/-- The frames of a control or interactive stream. -/
def readLaneFrames (lane : Lane) (r : Reads) : List (LaneEvent Id) × Except FrameError LaneExit :=
  match _h : readFrame r with
  | .error e => ([],.error e)
  | .ok (none,_) => ([],.ok .ended)
  | .ok (some (tag,body),r') =>
      let event := match decodeLaneFrame tag body with
        | .ok (frame,topic) => .publish lane frame topic (5+body.length)
        | .error e => .malformed tag e
      let rest := readLaneFrames lane r'
      (event::rest.1,rest.2)
termination_by r.bytes.length
decreasing_by exact readFrame_shrinks _h

/-- The one frame of a bulk stream. A read that fails after it is not reported. -/
def readBulkFrame (r : Reads) : List (LaneEvent Id) × Except FrameError LaneExit :=
  match readFrame r with
  | .error e => ([],.error e)
  | .ok (none,_) => ([],.ok .ended)
  | .ok (some (tag,body),r') =>
      match decodeLaneFrame tag body with
      | .error e => ([],.ok (.bulkMalformed tag e))
      | .ok (frame,topic) =>
          let exit := match r'.read 1 with
            | .ok (_::_,_) => LaneExit.bulkTrailing
            | _ => .ended
          ([.publish .bulk frame topic (5+body.length)],.ok exit)

def readLane (r : Reads) : List (LaneEvent Id) × Except FrameError LaneExit :=
  match readLaneByte r with
  | .error e => ([],.error e)
  | .ok (none,_) => ([],.ok .ended)
  | .ok (some byte,r') =>
      match Lane.fromByte byte with
      | none => ([],.ok (.unknownLane byte))
      | some lane => if lane = .bulk then readBulkFrame r' else readLaneFrames lane r'

/-- Topic, recipient and payload of a lane frame. Any other frame is the branch
the publisher's handler declares unreachable. -/
def publishParts : ClientFrame Id → Option (Topic × Option Id × Bytes)
  | .publish topic payload => some (topic,none,payload)
  | .publishTo topic recipient payload => some (topic,some recipient,payload)
  | _ => none

/-- The DELIVER built for an event. -/
def LaneEvent.deliver : LaneEvent Id → Option Deliver
  | .publish _ frame topic _ => (publishParts frame).map fun p => Deliver.new topic p.2.2
  | .malformed _ _ => none

/-! ### The server's writers, by lane -/

/-- The streams the server opens for the deliveries of one lane. -/
def deliverLane (plan : ℕ → WriteOutcome) (lost : ℕ → Bool) (lane : Lane) (k : ℕ)
    (ds : List Deliver) : List Bytes :=
  if lane = .bulk then ds.filterMap fun d => (sendBulk plan k d).1
  else (laneWriter plan lost lane k none ds).1

/-! ### The receiver -/

structure Delivery where
  lane : Lane
  topic : Topic
  payload : Bytes
  deriving DecidableEq

/-- What one raw frame on a lane stream is to the receiver: a delivery, or a
frame that is skipped and counted. -/
def laneDelivery (Id : Type) [EndpointKey Id] (lane : Lane) (tag : UInt8) (body : Bytes) :
    Option Delivery :=
  match (ServerFrame.decode tag body : Except String (ServerFrame Id)) with
  | .ok (.deliver topic payload) => some ⟨lane,topic,payload⟩
  | _ => none

/-- The deliveries of a lane stream and how many frames were skipped. `alive`
says whether the receiver still takes the `n`-th delivery. -/
def pumpLaneFrames (Id : Type) [EndpointKey Id] (alive : ℕ → Bool) (lane : Lane) (r : Reads)
    (n : ℕ) : List Delivery × ℕ :=
  match _h : readFrame r with
  | .ok (some (tag,body),r') =>
      match laneDelivery Id lane tag body with
      | some d =>
          if alive n then
            let rest := if lane = .bulk then ([],0) else pumpLaneFrames Id alive lane r' (n+1)
            (d::rest.1,rest.2)
          else ([],0)
      | none =>
          let rest := if lane = .bulk then ([],0) else pumpLaneFrames Id alive lane r' n
          (rest.1,rest.2+1)
  | _ => ([],0)
termination_by r.bytes.length
decreasing_by all_goals exact readFrame_shrinks _h

def pumpLane (Id : Type) [EndpointKey Id] (alive : ℕ → Bool) (r : Reads) : List Delivery × ℕ :=
  match readLaneByte r with
  | .ok (some byte,r') =>
      match Lane.fromByte byte with
      | some lane => pumpLaneFrames Id alive lane r' 0
      | none => ([],1)
  | _ => ([],0)

/-! ### Publishing a frame -/

def lanePayload (f : ClientFrame Id) : Bytes := ((publishParts f).map fun p => p.2.2).getD []

/-- A lane frame within the publish limit. -/
def Publishable (f : ClientFrame Id) : Prop :=
  f.isLaneFrame = true ∧ (lanePayload f).length ≤ maxPublishLen

instance (f : ClientFrame Id) : Decidable (Publishable f) := inferInstanceAs (Decidable (_ ∧ _))

/-- What the server should make of a frame on a lane. -/
def laneEvent (lane : Lane) (f : ClientFrame Id) : LaneEvent Id :=
  .publish lane f f.topic.bytes f.encode.length

/-- The frames of each stream of a lane. -/
def streamGroups {A : Type} (lane : Lane) (xs : List A) : List (List A) :=
  if lane = .bulk then xs.map fun x => [x] else if xs.isEmpty then [] else [xs]

theorem Publishable.body_length {f : ClientFrame Id} (h : Publishable f) :
    1+(clientBody f).length ≤ maxFrameLen ∧ 32 ≤ (clientBody f).length := by
  have hmax := maxFrameLen_eq
  have hp : maxPublishLen = 1048576 := rfl
  obtain ⟨hl,hs⟩ := h
  cases f with
  | publish topic payload =>
      simp only [lanePayload,publishParts,Option.map_some,Option.getD_some] at hs
      simp only [clientBody,List.length_append,topic.length_eq]
      omega
  | publishTo topic recipient payload =>
      simp only [lanePayload,publishParts,Option.map_some,Option.getD_some] at hs
      simp only [clientBody,List.length_append,topic.length_eq,EndpointKey.asBytes_length]
      omega
  | subscribe _ | unsubscribe _ | announce _ _ => cases hl

theorem Publishable.encode {f : ClientFrame Id} (h : Publishable f) :
    f.encode = rawFrame (clientTag f) (clientBody f) := by
  have hmax := maxFrameLen_eq
  have hb := h.body_length
  exact clientFrame_encode f (by omega)

theorem Publishable.decode {f : ClientFrame Id} (h : Publishable f) :
    decodeLaneFrame (clientTag f) (clientBody f) = .ok (f,f.topic.bytes) := by
  have htake : (clientBody f).take 32 = f.topic.bytes := by
    cases f with
    | publish topic payload => exact List.take_left' topic.length_eq
    | publishTo topic recipient payload =>
        simp only [clientBody,List.append_assoc]
        exact List.take_left' topic.length_eq
    | subscribe _ | unsubscribe _ | announce _ _ => cases h.1
  simp only [decodeLaneFrame,clientFrame_decode,h.1,if_true,Nat.min_eq_right h.body_length.2,htake]

/-- Whatever arrives on a stream, a decoded lane frame has a whole topic. -/
theorem decodeLaneFrame_ok {tag : UInt8} {body topic : Bytes} {f : ClientFrame Id}
    (h : decodeLaneFrame tag body = .ok (f,topic)) :
    f.isLaneFrame = true ∧ topic = f.topic.bytes := by
  unfold decodeLaneFrame at h
  cases hd : (ClientFrame.decode tag body : Except String (ClientFrame Id)) with
  | error e => simp [hd] at h
  | ok g =>
      simp only [hd] at h
      split_ifs at h with hl
      cases h
      refine ⟨hl,?_⟩
      by_cases hb : 32 ≤ body.length
      · rw [Nat.min_eq_right hb]
        have ht : takeTopic body = .ok (⟨body.take 32,by simpa using hb⟩,body.drop 32) := by
          simp only [takeTopic,dif_pos hb]
        simp only [ClientFrame.decode,ht,Bind.bind,Except.bind,Pure.pure,Except.pure] at hd
        split_ifs at hd
        · unfold ensureEmpty at hd
          split_ifs at hd
          cases hd
          rfl
        · unfold ensureEmpty at hd
          split_ifs at hd
          cases hd
          rfl
        · cases hd
          rfl
        · cases hd
          rfl
        · cases hid : (takeId (body.drop 32) : Except String (Id × Bytes)) with
          | error e => simp [hid] at hd
          | ok p =>
              simp only [hid] at hd
              cases hd
              rfl
      · have ht : takeTopic body = .error "truncated topic" := by
          simp only [takeTopic,dif_neg hb]
        simp only [ClientFrame.decode,ht,Bind.bind,Except.bind] at hd
        split_ifs at hd

theorem readLaneFrames_sound {r : Reads} {l lane : Lane} {f : ClientFrame Id} {topic : Bytes} {n : ℕ}
    (h : LaneEvent.publish lane f topic n ∈ (readLaneFrames l r).1) :
    f.isLaneFrame = true ∧ topic = f.topic.bytes := by
  fun_induction @readLaneFrames Id _ l r with
  | case1 | case2 => cases h
  | case3 r tag body r' hread event rest ih =>
      rcases List.mem_cons.mp h with he | he
      · cases hd : (decodeLaneFrame tag body : Except String (ClientFrame Id × Bytes)) with
        | error e => simp [event,hd] at he
        | ok p =>
            simp only [event,hd] at he
            cases he
            exact decodeLaneFrame_ok hd
      · exact ih he

/-- The events of every lane stream, of any bytes, are sound: a published frame
is a lane frame and comes with its topic bytes. -/
theorem readLane_sound (r : Reads) (lane : Lane) (f : ClientFrame Id) (topic : Bytes) (n : ℕ)
    (h : LaneEvent.publish lane f topic n ∈ (readLane r).1) :
    f.isLaneFrame = true ∧ topic = f.topic.bytes := by
  unfold readLane at h
  split at h
  · cases h
  · cases h
  · split at h
    · cases h
    · split_ifs at h
      · unfold readBulkFrame at h
        split at h
        · cases h
        · cases h
        · split at h
          · cases h
          · rename_i hd
            cases List.mem_singleton.mp h
            exact decodeLaneFrame_ok hd
      · exact readLaneFrames_sound h

/-! ### Up to the server -/

theorem sendLongLived_open_flowing {plan : ℕ → WriteOutcome} (hp : Flowing plan) (lane : Lane)
    (k : ℕ) (sent : Bytes) (fs : List (ClientFrame Id)) :
    sendLongLived plan lane k (some sent) fs = [sent++fs.flatMap ClientFrame.encode] := by
  induction fs generalizing k sent with
  | nil => simp [sendLongLived]
  | cons f fs ih =>
      obtain ⟨k₁,h₁⟩ := writeChunks_flowing hp k [f.encode]
      simp only [sendLongLived,h₁,ih,List.flatten_singleton,List.flatMap_cons,List.append_assoc]

theorem sendLongLived_flowing {plan : ℕ → WriteOutcome} (hp : Flowing plan) (lane : Lane)
    (k : ℕ) (f : ClientFrame Id) (fs : List (ClientFrame Id)) :
    sendLongLived plan lane k none (f::fs) =
      [lane.byte::(f::fs).flatMap ClientFrame.encode] := by
  obtain ⟨extra,hk⟩ := hp k
  obtain ⟨k₁,h₁⟩ := writeChunks_flowing hp (k+1) [lane.prefixBytes,f.encode]
  simp only [sendLongLived,hk,h₁,sendLongLived_open_flowing hp]
  simp [Lane.prefixBytes]

theorem sendEachBulk_flowing {plan : ℕ → WriteOutcome} (hp : Flowing plan) (k : ℕ)
    (fs : List (ClientFrame Id)) :
    sendEachBulk plan k fs = fs.map fun f => Lane.bulk.byte::f.encode := by
  induction fs generalizing k with
  | nil => rfl
  | cons f fs ih =>
      obtain ⟨extra,hk⟩ := hp k
      obtain ⟨k₁,h₁⟩ := writeChunks_flowing hp (k+1) [Lane.bulk.prefixBytes,f.encode]
      simp only [sendEachBulk,hk,h₁,ih]
      simp [Lane.prefixBytes]

theorem readLaneFrames_encoded (lane : Lane) (fs : List (ClientFrame Id))
    (hfs : ∀ f ∈ fs, Publishable f) (r : Reads) (hf : r.failure = none)
    (hr : r.bytes = fs.flatMap ClientFrame.encode) :
    readLaneFrames lane r = (fs.map (laneEvent lane),.ok .ended) := by
  induction fs generalizing r with
  | nil =>
      obtain ⟨r',hread,-⟩ := readFrame_end r (by simpa using hr) hf
      rw [readLaneFrames]
      split <;> rename_i h <;> rw [hread] at h <;> cases h
      rfl
  | cons f fs ih =>
      have hpub := hfs f List.mem_cons_self
      rw [List.flatMap_cons,hpub.encode] at hr
      obtain ⟨r',hread,hr',hf'⟩ := readFrame_rawFrame r _ _ _ hpub.body_length.1 hr
      have hnext := ih (fun g hg => hfs g (List.mem_cons_of_mem _ hg)) r' (hf'.trans hf) hr'
      rw [readLaneFrames]
      split <;> rename_i h <;> rw [hread] at h <;> cases h
      simp only [hpub.decode,hnext,List.map_cons,laneEvent,hpub.encode,rawFrame_length]

theorem readBulkFrame_encoded (f : ClientFrame Id) (hpub : Publishable f) (r : Reads)
    (hf : r.failure = none) (hr : r.bytes = f.encode) :
    readBulkFrame r = ([laneEvent .bulk f],.ok .ended) := by
  rw [hpub.encode,← List.append_nil (rawFrame _ _)] at hr
  obtain ⟨r',hread,hr',hf'⟩ := readFrame_rawFrame r _ _ _ hpub.body_length.1 hr
  have hend := r'.read_none 1 hr'
  rw [hf'.trans hf] at hend
  simp only [readBulkFrame,hread,hpub.decode,hend,laneEvent,hpub.encode,rawFrame_length]

/-- Every stream of a lane is read as exactly its frames. -/
theorem lane_up {plan : ℕ → WriteOutcome} (hp : Flowing plan) (lane : Lane) (k : ℕ)
    (fs : List (ClientFrame Id)) (hfs : ∀ f ∈ fs, Publishable f) :
    List.Forall₂ (fun stream group => ∀ r : Reads, r.failure = none → r.bytes = stream →
        readLane r = (group.map (laneEvent lane),.ok .ended))
      (sendLane plan lane k fs) (streamGroups lane fs) := by
  by_cases hb : lane = .bulk
  · subst hb
    simp only [sendLane,streamGroups,if_true,sendEachBulk_flowing hp,List.forall₂_map_left_iff,
      List.forall₂_map_right_iff,List.forall₂_same]
    intro f hmem r hf hr
    obtain ⟨r',hbyte,hr',hf'⟩ := readLaneByte_cons r _ _ hr
    simp only [readLane,hbyte,Lane.fromByte_byte,if_true,
      readBulkFrame_encoded f (hfs f hmem) r' (hf'.trans hf) hr',List.map_cons,List.map_nil]
  · cases fs with
    | nil => simp [sendLane,streamGroups,hb,sendLongLived]
    | cons f fs =>
        simp only [sendLane,streamGroups,if_neg hb,sendLongLived_flowing hp,List.isEmpty_cons,
          Bool.false_eq_true,if_false,List.forall₂_cons,List.Forall₂.nil,and_true]
        intro r hf hr
        obtain ⟨r',hbyte,hr',hf'⟩ := readLaneByte_cons r _ _ hr
        simp only [readLane,hbyte,Lane.fromByte_byte,if_neg hb,
          readLaneFrames_encoded lane (f::fs) hfs r' (hf'.trans hf) hr']

/-! ### The DELIVER -/

/-- The DELIVER of a frame depends on its topic and payload only. -/
theorem laneEvent_deliver (lane : Lane) {f : ClientFrame Id} (h : Publishable f) :
    (laneEvent lane f).deliver = some (Deliver.new f.topic.bytes (lanePayload f)) := by
  cases f with
  | publish topic payload | publishTo topic recipient payload => rfl
  | subscribe _ | unsubscribe _ | announce _ _ => cases h.1

/-- The chunks sent without encoding are the encoded frame. -/
theorem deliver_chunks (topic : Topic) (payload : Bytes) :
    (Deliver.new topic.bytes payload).chunks.flatten =
        (ServerFrame.deliver topic payload : ServerFrame Id).encode ∧
      (Deliver.new topic.bytes payload).len =
        (ServerFrame.deliver topic payload : ServerFrame Id).encode.length := by
  constructor
  · simp [Deliver.new,Deliver.chunks,ServerFrame.encode,encode,topic.length_eq]
  · simp [Deliver.new,Deliver.len,ServerFrame.encode,frameHeader,topic.length_eq]
    omega

/-! ### Down to the receiver -/

def laneDeliveryOf (lane : Lane) (f : ClientFrame Id) : Delivery := ⟨lane,f.topic,lanePayload f⟩

theorem deliver_rawFrame {f : ClientFrame Id} (h : Publishable f) :
    (Deliver.new f.topic.bytes (lanePayload f)).chunks.flatten =
        rawFrame Tag.deliver (f.topic.bytes++lanePayload f) ∧
      1+(f.topic.bytes++lanePayload f).length ≤ maxFrameLen := by
  have hmax := maxFrameLen_eq
  have hp : maxPublishLen = 1048576 := rfl
  have hs := h.2
  have hlen : (f.topic.bytes++lanePayload f).length = 32+(lanePayload f).length := by
    simp [Topic.length_eq]
  refine ⟨?_,by omega⟩
  rw [(@deliver_chunks Id _ f.topic (lanePayload f)).1]
  exact encode_eq_rawFrame _ _ _ hlen (by omega)

theorem laneDelivery_deliver (lane : Lane) (topic : Topic) (payload : Bytes) :
    laneDelivery Id lane Tag.deliver (topic.bytes++payload) = some ⟨lane,topic,payload⟩ := by
  simp [laneDelivery,ServerFrame.decode,Tag.deliver,Tag.presence,Tag.left,Tag.joined,
    Tag.snapshot,Bind.bind,Except.bind,Pure.pure,Except.pure]

theorem pumpLaneFrames_deliver (lane : Lane) (f : ClientFrame Id) (hpub : Publishable f)
    (r : Reads) (rest : Bytes) (n : ℕ)
    (hr : r.bytes = (Deliver.new f.topic.bytes (lanePayload f)).chunks.flatten++rest) :
    ∃ r', r'.bytes = rest ∧ r'.failure = r.failure ∧
      pumpLaneFrames Id (fun _ => true) lane r n =
        if lane = .bulk then ([laneDeliveryOf lane f],0)
        else
          (laneDeliveryOf lane f::(pumpLaneFrames Id (fun _ => true) lane r' (n+1)).1,
            (pumpLaneFrames Id (fun _ => true) lane r' (n+1)).2) := by
  obtain ⟨hraw,hlen⟩ := deliver_rawFrame hpub
  rw [hraw] at hr
  obtain ⟨r',hread,hr',hf'⟩ := readFrame_rawFrame r _ _ _ hlen hr
  refine ⟨r',hr',hf',?_⟩
  rw [pumpLaneFrames]
  split
  · rename_i h
    rw [hread] at h
    cases h
    simp only [laneDelivery_deliver,if_true,laneDeliveryOf]
    split_ifs <;> rfl
  · rename_i h
    exact (h _ _ _ hread).elim

theorem pumpLaneFrames_encoded (lane : Lane) (hb : lane ≠ .bulk) (fs : List (ClientFrame Id))
    (hfs : ∀ f ∈ fs, Publishable f) (r : Reads) (hf : r.failure = none) (n : ℕ)
    (hr : r.bytes =
      (fs.flatMap fun f => (Deliver.new f.topic.bytes (lanePayload f)).chunks).flatten) :
    pumpLaneFrames Id (fun _ => true) lane r n = (fs.map (laneDeliveryOf lane),0) := by
  induction fs generalizing r n with
  | nil =>
      obtain ⟨r',hread,-⟩ := readFrame_end r (by simpa using hr) hf
      rw [pumpLaneFrames]
      split
      · rename_i h
        rw [hread] at h
        cases h
      · rfl
  | cons f fs ih =>
      rw [List.flatMap_cons,List.flatten_append] at hr
      obtain ⟨r',hr',hf',hgo⟩ := pumpLaneFrames_deliver lane f (hfs f List.mem_cons_self) r _ n hr
      rw [hgo,if_neg hb,
        ih (fun g hg => hfs g (List.mem_cons_of_mem _ hg)) r' (hf'.trans hf) (n+1) hr']
      rfl

theorem lane_down {plan : ℕ → WriteOutcome} (hp : Flowing plan) (lost : ℕ → Bool) (lane : Lane)
    (k : ℕ) (fs : List (ClientFrame Id)) (hfs : ∀ f ∈ fs, Publishable f) :
    List.Forall₂ (fun stream group => ∀ r : Reads, r.failure = none → r.bytes = stream →
        pumpLane Id (fun _ => true) r = (group.map (laneDeliveryOf lane),0))
      (deliverLane plan lost lane k (fs.map fun f => Deliver.new f.topic.bytes (lanePayload f)))
      (streamGroups lane fs) := by
  by_cases hb : lane = .bulk
  · subst hb
    simp only [deliverLane,streamGroups,if_true,sendBulk_flowing hp,List.filterMap_eq_map',
      List.map_map,List.forall₂_map_left_iff,List.forall₂_map_right_iff,List.forall₂_same]
    intro f hmem r hf hr
    obtain ⟨r',hbyte,hr',hf'⟩ := readLaneByte_cons r _ _ hr
    obtain ⟨r₂,-,-,hgo⟩ := pumpLaneFrames_deliver .bulk f (hfs f hmem) r' [] 0
      (by rw [List.append_nil]; exact hr')
    simp only [pumpLane,hbyte,Lane.fromByte_byte,hgo,if_true,List.map_cons,List.map_nil]
  · cases fs with
    | nil => simp [deliverLane,streamGroups,hb,laneWriter]
    | cons f fs =>
        simp only [deliverLane,streamGroups,if_neg hb,List.map_cons,laneWriter_flowing hp,
          List.isEmpty_cons,Bool.false_eq_true,if_false,List.forall₂_cons,List.Forall₂.nil,and_true]
        intro r hf hr
        obtain ⟨r',hbyte,hr',hf'⟩ := readLaneByte_cons r _ _ hr
        simp only [pumpLane,hbyte,Lane.fromByte_byte]
        refine pumpLaneFrames_encoded lane hb (f::fs) hfs r' (hf'.trans hf) 0 ?_
        simpa [List.flatMap_map] using hr'

/-! ### The whole pipeline -/

/-- Publisher to server: exactly the frames, in order, on their lane. No stream
of any bytes makes the handler see another kind of frame or a short topic. Each
frame becomes a DELIVER with a 32-byte topic whose chunks are the encoded frame, the
same for every publisher and for broadcast and directed frames. Server to
receiver: exactly the deliveries, in order, on that lane. -/
theorem lane_pipeline_end_to_end {up down : ℕ → WriteOutcome} (hup : Flowing up)
    (hdown : Flowing down) (lost : ℕ → Bool) (lane : Lane) (k k' : ℕ)
    (fs : List (ClientFrame Id)) (hfs : ∀ f ∈ fs, Publishable f) :
    List.Forall₂ (fun stream group => ∀ r : Reads, r.failure = none → r.bytes = stream →
        readLane r = (group.map (laneEvent lane),.ok .ended))
      (sendLane up lane k fs) (streamGroups lane fs) ∧
    (∀ (r : Reads) (l : Lane) (f : ClientFrame Id) (topic : Bytes) (n : ℕ),
      LaneEvent.publish l f topic n ∈ (readLane r).1 →
      (publishParts f).isSome = true ∧ topic = f.topic.bytes ∧ topic.length = 32) ∧
    (∀ f ∈ fs, ∃ d, (laneEvent lane f).deliver = some d ∧ d.topic.length = 32 ∧
      d.chunks.flatten = (ServerFrame.deliver f.topic (lanePayload f) : ServerFrame Id).encode ∧
      d.len = (ServerFrame.deliver f.topic (lanePayload f) : ServerFrame Id).encode.length) ∧
    (∀ f ∈ fs, ∀ g ∈ fs, f.topic = g.topic → lanePayload f = lanePayload g →
      (laneEvent lane f).deliver = (laneEvent lane g).deliver) ∧
    List.Forall₂ (fun stream group => ∀ r : Reads, r.failure = none → r.bytes = stream →
        pumpLane Id (fun _ => true) r = (group.map (laneDeliveryOf lane),0))
      (deliverLane down lost lane k' (fs.filterMap fun f => (laneEvent lane f).deliver))
      (streamGroups lane fs) := by
  refine ⟨lane_up hup lane k fs hfs,?_,?_,?_,?_⟩
  · intro r l f topic n he
    obtain ⟨hl,rfl⟩ := readLane_sound r l f topic n he
    refine ⟨?_,rfl,f.topic.length_eq⟩
    cases f with
    | publish topic payload | publishTo topic recipient payload => rfl
    | subscribe _ | unsubscribe _ | announce _ _ => cases hl
  · intro f hf
    obtain ⟨hc,hl⟩ := @deliver_chunks Id _ f.topic (lanePayload f)
    exact ⟨_,laneEvent_deliver lane (hfs f hf),f.topic.length_eq,hc,hl⟩
  · intro f hf g hg ht hp
    rw [laneEvent_deliver lane (hfs f hf),laneEvent_deliver lane (hfs g hg),ht,hp]
  · have hmap : (fs.filterMap fun f => (laneEvent lane f).deliver) =
        fs.map fun f => Deliver.new f.topic.bytes (lanePayload f) := by
      rw [← List.filterMap_eq_map]
      exact List.filterMap_congr fun f hf => laneEvent_deliver lane (hfs f hf)
    rw [hmap]
    exact lane_down hdown lost lane k' fs hfs

def samplePublishes : List (ClientFrame RawId) :=
  [.publish ⟨List.replicate 32 7,by simp⟩ [1,2],
    .publishTo ⟨List.replicate 32 7,by simp⟩ RawId.base []]

/-- A broadcast and an empty directed frame on the control lane. -/
theorem lane_pipeline_end_to_end_sample :
    pumpLane RawId (fun _ => true)
        (Reads.whole ((deliverLane (fun _ => .took 0) (fun _ => false) .control 0
          (samplePublishes.filterMap fun f => (laneEvent .control f).deliver)).headD [])) =
      (samplePublishes.map (laneDeliveryOf .control),0) := by
  have hflow : Flowing fun _ => .took 0 := fun _ => ⟨0,rfl⟩
  have h := (lane_pipeline_end_to_end hflow hflow (fun _ => false) .control 0 0 samplePublishes
    (by decide)).2.2.2.2
  obtain ⟨s,t,he,-,hh⟩ := List.forall₂_cons_right_iff.mp h
  rw [hh]
  exact he _ rfl (by simp)

end KeepTalkingSfu.LaneStream
