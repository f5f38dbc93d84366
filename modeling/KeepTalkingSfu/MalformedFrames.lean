import KeepTalkingSfu.FrameSequence
import KeepTalkingSfu.Server

/-!
# Malformed frames

A frame that cannot be decoded, or that does not belong on its stream, still has a
length, so the reader knows where the next one starts. The session reader and the
readers of long-lived lanes answer it and go on. A bulk stream has one frame: it is
stopped when that frame is malformed, and when anything comes behind it. A length
out of range ends all of them, for nothing behind it can be found.

So what a reader does is told frame by frame, and the frames that are handled are
the same with and without the malformed ones between them.
-/
namespace KeepTalkingSfu.MalformedFrames
open ByteTransport WireFormat FrameCodec FrameReader FrameSequence StreamWriters LaneStream RoomTable
  TokenBucket Server

section
variable {Id : Type} [EndpointKey Id]

/-- What a frame makes the session reader call. -/
inductive SessionCall (Id : Type) where
  | handleFrame (frame : ClientFrame Id) (frameLen : ℕ)
  | skipMalformed (tag : UInt8) (err : String)

def sessionCall (f : UInt8 × Bytes) : SessionCall Id :=
  match ClientFrame.decode f.1 f.2 with
  | .ok frame => .handleFrame frame (5+f.2.length)
  | .error err => .skipMalformed f.1 err

/-- The session reader. -/
def readLoop (r : Reads) : List (SessionCall Id) × Except FrameError Unit :=
  match _h : readFrame r with
  | .error e => ([],.error e)
  | .ok (none,_) => ([],.ok ())
  | .ok (some f,r') =>
      let rest := readLoop r'
      (sessionCall f::rest.1,rest.2)
termination_by r.bytes.length
decreasing_by exact readFrame_shrinks _h

/-- What a frame is on a lane. -/
def rawEvent (lane : Lane) (f : UInt8 × Bytes) : LaneEvent Id :=
  match decodeLaneFrame f.1 f.2 with
  | .ok (frame,topic) => .publish lane frame topic (5+f.2.length)
  | .error err => .malformed f.1 err

def SessionCall.handled : SessionCall Id → Option (ClientFrame Id × ℕ)
  | .handleFrame frame frameLen => some (frame,frameLen)
  | .skipMalformed _ _ => none

def published : LaneEvent Id → Option (ClientFrame Id × Bytes × ℕ)
  | .publish _ frame topic frameLen => some (frame,topic,frameLen)
  | .malformed _ _ => none

variable (Id) in
/-- A frame that is no frame of a client. -/
def Undecodable (f : UInt8 × Bytes) : Prop :=
  ∀ frame : ClientFrame Id, ClientFrame.decode f.1 f.2 ≠ .ok frame

variable (Id) in
/-- A frame that is no PUBLISH and no PUBLISH_TO. -/
def OffLane (f : UInt8 × Bytes) : Prop :=
  ∀ frame : ClientFrame Id, ClientFrame.decode f.1 f.2 = .ok frame → frame.isLaneFrame = false

/-! ### Frame by frame -/

/-- How the session reader ends. -/
def ended : Ending → Except FrameError Unit
  | .ended => .ok ()
  | .failed e => .error e

def laneEnded : Ending → Except FrameError LaneExit
  | .ended => .ok .ended
  | .failed e => .error e

/-- Whatever the stream has, the session reader makes one call for each frame. -/
theorem readLoop_eq (r : Reads) :
    (readLoop r : List (SessionCall Id) × Except FrameError Unit) =
      ((readFrames r).1.map sessionCall,ended (readFrames r).2) := by
  fun_induction @readLoop Id _ r with
  | case1 r e hread =>
      rw [readFrames_error hread]
      rfl
  | case2 r r' hread =>
      rw [readFrames_none hread]
      rfl
  | case3 r f r' hread rest ih =>
      rw [readFrames_some hread]
      simp only [rest,ih]
      rfl

theorem readLaneFrames_eq (lane : Lane) (r : Reads) :
    (readLaneFrames lane r : List (LaneEvent Id) × Except FrameError LaneExit) =
      ((readFrames r).1.map (rawEvent lane),laneEnded (readFrames r).2) := by
  fun_induction @readLaneFrames Id _ lane r with
  | case1 r e hread =>
      rw [readFrames_error hread]
      rfl
  | case2 r r' hread =>
      rw [readFrames_none hread]
      rfl
  | case3 r tag body r' hread event rest ih =>
      rw [readFrames_some hread]
      simp only [rest,ih]
      rfl

end

/-! ### Streams -/

/-- What comes behind the frames: the end of the stream, or a length out of range
and any bytes. -/
inductive Tail : Bytes → Option ℕ → Prop
  | clean : Tail [] none
  | bad (len : ℕ) (rest : Bytes) : len < 4294967296 → ¬(1 ≤ len ∧ len ≤ maxFrameLen) →
      Tail (putU32 len++rest) (some len)

/-- A stream of frames with lengths in range. -/
structure Stream (head : Bytes) (fs : List (UInt8 × Bytes)) (bad : Option ℕ) (r : Reads) : Prop where
  lengths : ∀ f ∈ fs, 1+f.2.length ≤ maxFrameLen
  bytes : ∃ tail, r.bytes = head++(rawFrames fs++tail) ∧ Tail tail bad
  failure : bad = none → r.failure = none

def ending : Option ℕ → Ending
  | none => .ended
  | some len => .failed (.length len)

theorem nextFrame_bad (failure : Option String) {len : ℕ} (hlt : len < 4294967296)
    (hlen : ¬(1 ≤ len ∧ len ≤ maxFrameLen)) (rest : Bytes) :
    nextFrame failure (putU32 len++rest) = .error (.length len) := by
  have hhead : (putU32 len++rest).take 4 = putU32 len := List.take_left' (putU32_length _)
  have hshort : ¬(putU32 len++rest).length < 4 := by
    rw [List.length_append,putU32_length]
    omega
  unfold nextFrame
  rw [if_neg hshort,hhead,beValue_putU32,Nat.mod_eq_of_lt hlt]
  exact if_neg hlen

theorem tail_readFrames {tail : Bytes} {bad : Option ℕ} (h : Tail tail bad) {r : Reads}
    (hr : r.bytes = tail) (hf : bad = none → r.failure = none) :
    readFrames r = ([],ending bad) := by
  cases h with
  | clean =>
      obtain ⟨r',hread,-⟩ := readFrame_end r hr (hf rfl)
      exact readFrames_none hread
  | bad len rest hlt hlen =>
      have hnext := readFrame_next r
      rw [hr,nextFrame_bad r.failure hlt hlen] at hnext
      exact readFrames_error hnext

theorem Stream.readFrames {fs : List (UInt8 × Bytes)} {bad : Option ℕ} {r : Reads}
    (h : Stream [] fs bad r) : readFrames r = (fs,ending bad) := by
  obtain ⟨tail,hr,htail⟩ := h.bytes
  obtain ⟨r',hmany,hr',hf'⟩ := readMany_rawFrames fs tail r h.lengths hr
  rw [readFrames_of_many hmany,tail_readFrames htail hr' fun hbad => hf'.trans (h.failure hbad)]
  rw [List.append_nil]

theorem Stream.laneByte {lane : Lane} {fs : List (UInt8 × Bytes)} {bad : Option ℕ} {r : Reads}
    (h : Stream lane.prefixBytes fs bad r) :
    ∃ r', readLaneByte r = .ok (some lane.byte,r') ∧ Stream [] fs bad r' := by
  obtain ⟨tail,hr,htail⟩ := h.bytes
  obtain ⟨r',hread,hr',hf'⟩ := readLaneByte_cons r lane.byte _ hr
  exact ⟨r',hread,h.lengths,⟨tail,hr',htail⟩,fun hbad => hf'.trans (h.failure hbad)⟩

/-- Two lists that are the same but for some elements, any number of them anywhere. -/
inductive SameBut {A : Type} (P : A → Prop) : List A → List A → Prop
  | nil : SameBut P [] []
  | keep (x : A) {xs ys : List A} : SameBut P xs ys → SameBut P (x::xs) (x::ys)
  | left (x : A) {xs ys : List A} : P x → SameBut P xs ys → SameBut P (x::xs) ys
  | right (y : A) {xs ys : List A} : P y → SameBut P xs ys → SameBut P xs (y::ys)

theorem SameBut.filterMap {A B : Type} {P : A → Prop} {g : A → Option B}
    (hP : ∀ x, P x → g x = none) {xs ys : List A} (h : SameBut P xs ys) :
    xs.filterMap g = ys.filterMap g := by
  induction h with
  | nil => rfl
  | keep x _ ih => rw [List.filterMap_cons,List.filterMap_cons,ih]
  | left x hx _ ih => rw [List.filterMap_cons_none (hP x hx),ih]
  | right y hy _ ih => rw [List.filterMap_cons_none (hP y hy),ih]

section
variable {Id : Type} [EndpointKey Id]

/-- A frame is handled when it can be decoded, and skipped otherwise. -/
theorem sessionCall_spec (f : UInt8 × Bytes) :
    (∃ frame : ClientFrame Id, ClientFrame.decode f.1 f.2 = .ok frame ∧
      sessionCall f = .handleFrame frame (5+f.2.length)) ∨
    (Undecodable Id f ∧ ∃ err, (sessionCall f : SessionCall Id) = .skipMalformed f.1 err) := by
  cases hd : (ClientFrame.decode f.1 f.2 : Except String (ClientFrame Id)) with
  | ok frame =>
      left
      refine ⟨frame,rfl,?_⟩
      simp only [sessionCall,hd]
  | error err =>
      right
      refine ⟨?_,err,by simp only [sessionCall,hd]⟩
      intro frame h
      rw [hd] at h
      cases h

theorem rawEvent_spec (lane : Lane) (f : UInt8 × Bytes) :
    (∃ frame : ClientFrame Id, ClientFrame.decode f.1 f.2 = .ok frame ∧ frame.isLaneFrame = true ∧
      rawEvent lane f = .publish lane frame frame.topic.bytes (5+f.2.length)) ∨
    (OffLane Id f ∧ ∃ err, (rawEvent lane f : LaneEvent Id) = .malformed f.1 err) := by
  cases hl : (decodeLaneFrame f.1 f.2 : Except String (ClientFrame Id × Bytes)) with
  | ok x =>
      obtain ⟨frame,topic⟩ := x
      left
      obtain ⟨hlane,htopic⟩ := decodeLaneFrame_ok hl
      refine ⟨frame,?_,hlane,by simp only [rawEvent,hl,htopic]⟩
      simp only [decodeLaneFrame] at hl
      split at hl
      · cases hl
      · next g hd =>
        split_ifs at hl
        cases hl
        exact hd
  | error err =>
      right
      refine ⟨?_,err,by simp only [rawEvent,hl]⟩
      intro frame hd
      simp only [decodeLaneFrame,hd] at hl
      split_ifs at hl with hlane
      exact Bool.eq_false_of_not_eq_true hlane

theorem readSession_call {F : Type} [DecidableEq Id] [Scalar F] (limits : Limits F) (rooms : Rooms Id)
    (c : ℕ) (conn : Conn Id F) (f : UInt8 × Bytes) (now : ℕ) :
    readSession limits rooms c conn f.1 f.2 now =
      match (sessionCall f : SessionCall Id) with
      | .handleFrame frame frameLen => handleFrame limits rooms c conn frame frameLen now
      | .skipMalformed tag err => ⟨rooms,conn,[skipMalformed c tag err]⟩ := by
  cases hd : (ClientFrame.decode f.1 f.2 : Except String (ClientFrame Id)) with
  | ok frame => simp only [readSession,sessionCall,hd]
  | error err => simp only [readSession,sessionCall,hd]

theorem handled_none {f : UInt8 × Bytes} (h : Undecodable Id f) :
    (sessionCall f : SessionCall Id).handled = none := by
  rcases @sessionCall_spec Id _ f with ⟨frame,hd,-⟩ | ⟨-,err,hcall⟩
  · exact absurd hd (h frame)
  · rw [hcall]
    rfl

theorem published_none {f : UInt8 × Bytes} (h : OffLane Id f) (lane : Lane) :
    published (rawEvent lane f : LaneEvent Id) = none := by
  rcases @rawEvent_spec Id _ lane f with ⟨frame,hd,hlane,-⟩ | ⟨-,err,hevent⟩
  · rw [h frame hd] at hlane
    cases hlane
  · rw [hevent]
    rfl

/-! ### The readers -/

variable {fs gs : List (UInt8 × Bytes)} {bad : Option ℕ} {r r' : Reads}

theorem session_stream (h : Stream [] fs bad r) :
    (readLoop r : List (SessionCall Id) × Except FrameError Unit) =
      (fs.map sessionCall,ended (ending bad)) := by
  rw [readLoop_eq,h.readFrames]

theorem lane_stream {lane : Lane} (hlane : lane ≠ .bulk) (h : Stream lane.prefixBytes fs bad r) :
    (readLane r : List (LaneEvent Id) × Except FrameError LaneExit) =
      (fs.map (rawEvent lane),laneEnded (ending bad)) := by
  obtain ⟨r',hbyte,hstream⟩ := h.laneByte
  simp only [readLane,hbyte,Lane.fromByte_byte,if_neg hlane]
  rw [readLaneFrames_eq,hstream.readFrames]

/-- A bulk stream is the first frame and how the stream is left behind it. -/
theorem bulk_frame {f : UInt8 × Bytes} (h : Stream Lane.bulk.prefixBytes (f::fs) bad r) :
    ∃ exit, (readLane r : List (LaneEvent Id) × Except FrameError LaneExit) =
        ([rawEvent .bulk f].filter fun e => (published e).isSome,.ok exit) ∧
      (¬OffLane Id f → rawFrames fs ≠ [] ∨ bad.isSome = true → exit = .bulkTrailing) := by
  obtain ⟨r',hbyte,hstream⟩ := h.laneByte
  obtain ⟨tail,hr,htail⟩ := hstream.bytes
  rw [rawFrames,List.flatMap_cons,List.append_assoc] at hr
  obtain ⟨r₂,hread,hr₂,-⟩ := readFrame_rawFrame r' f.1 f.2 _ (hstream.lengths f List.mem_cons_self) hr
  simp only [readLane,hbyte,Lane.fromByte_byte,if_true,readBulkFrame,hread]
  cases hl : (decodeLaneFrame f.1 f.2 : Except String (ClientFrame Id × Bytes)) with
  | error err =>
      have hevent : (rawEvent .bulk f : LaneEvent Id) = .malformed f.1 err := by simp only [rawEvent,hl]
      refine ⟨_,by rw [hevent]; rfl,?_⟩
      intro hon
      refine absurd ?_ hon
      rcases @rawEvent_spec Id _ .bulk f with ⟨_,_,_,hpublish⟩ | ⟨hoff,-⟩
      · rw [hevent] at hpublish
        cases hpublish
      · exact hoff
  | ok x =>
      obtain ⟨frame,topic⟩ := x
      have hevent : (rawEvent .bulk f : LaneEvent Id) = .publish .bulk frame topic (5+f.2.length) := by
        simp only [rawEvent,hl]
      refine ⟨_,by rw [hevent]; rfl,?_⟩
      intro _ hmore
      have hne : r₂.bytes ≠ [] := by
        rw [hr₂]
        intro hnil
        obtain ⟨hnone,htailnil⟩ := List.append_eq_nil_iff.mp hnil
        rcases hmore with hframes | hbad
        · exact hframes hnone
        · cases htail with
          | clean => cases hbad
          | bad len rest =>
              have hlen := congrArg List.length htailnil
              rw [List.length_append,putU32_length,List.length_nil] at hlen
              omega
      obtain ⟨bs,r₃,hread,hbs,-⟩ := Reads.read_some (r := r₂) (show 0 < 1 by decide) hne
      obtain ⟨b,bs,rfl⟩ := List.exists_cons_of_ne_nil hbs
      simp only [hread]

theorem bulk_empty (h : Stream Lane.bulk.prefixBytes [] bad r) :
    (readLane r : List (LaneEvent Id) × Except FrameError LaneExit) =
      ([],laneEnded (ending bad)) := by
  obtain ⟨r',hbyte,hstream⟩ := h.laneByte
  have hframes := hstream.readFrames
  simp only [readLane,hbyte,Lane.fromByte_byte,if_true,readBulkFrame]
  rw [FrameSequence.readFrames] at hframes
  split at hframes
  · cases hframes
  · next hread =>
    rw [hread]
    simp only [Prod.mk.injEq] at hframes
    rw [← hframes.2]
    rfl
  · next e hread =>
    rw [hread]
    simp only [Prod.mk.injEq] at hframes
    rw [← hframes.2]
    rfl

/-- **Malformed frames never desynchronise a stream**: the session reader handles the
frames that can be decoded and skips each of the others, the reader of a long-lived
lane publishes those that are a PUBLISH or a PUBLISH_TO and skips each of the others,
and a length out of range ends both with that error, everything before it done and
nothing behind it. A bulk stream is its first frame: that one is published or not,
nothing behind it is read as a frame, and a length out of range ends the stream with
that error when it is in place of the first frame. Streams of the session and of
long-lived lanes that are the same but for malformed frames are handled alike. -/
theorem malformed_frames_in_sync :
    (∀ (fs : List (UInt8 × Bytes)) (bad : Option ℕ) (r : Reads), Stream [] fs bad r →
      (readLoop r : List (SessionCall Id) × Except FrameError Unit) =
        (fs.map sessionCall,ended (ending bad))) ∧
    (∀ f : UInt8 × Bytes,
      (∃ frame : ClientFrame Id, ClientFrame.decode f.1 f.2 = .ok frame ∧
        sessionCall f = .handleFrame frame (5+f.2.length)) ∨
      (Undecodable Id f ∧ ∃ err, (sessionCall f : SessionCall Id) = .skipMalformed f.1 err)) ∧
    (∀ (lane : Lane) (fs : List (UInt8 × Bytes)) (bad : Option ℕ) (r : Reads), lane ≠ .bulk →
      Stream lane.prefixBytes fs bad r →
      (readLane r : List (LaneEvent Id) × Except FrameError LaneExit) =
        (fs.map (rawEvent lane),laneEnded (ending bad))) ∧
    (∀ (lane : Lane) (f : UInt8 × Bytes),
      (∃ frame : ClientFrame Id, ClientFrame.decode f.1 f.2 = .ok frame ∧
        frame.isLaneFrame = true ∧
        rawEvent lane f = .publish lane frame frame.topic.bytes (5+f.2.length)) ∨
      (OffLane Id f ∧ ∃ err, (rawEvent lane f : LaneEvent Id) = .malformed f.1 err)) ∧
    (∀ (fs : List (UInt8 × Bytes)) (bad : Option ℕ) (r : Reads), Stream Lane.bulk.prefixBytes fs bad r →
      (readLane r : List (LaneEvent Id) × Except FrameError LaneExit).1 =
        ((fs.take 1).map (rawEvent .bulk)).filter (fun e => (published e).isSome) ∧
      (fs = [] → (readLane r : List (LaneEvent Id) × _).2 = laneEnded (ending bad)) ∧
      (fs ≠ [] → ∃ exit, (readLane r : List (LaneEvent Id) × _).2 = .ok exit)) ∧
    (∀ (fs gs : List (UInt8 × Bytes)) (bad : Option ℕ) (r r' : Reads), Stream [] fs bad r →
      Stream [] gs bad r' → SameBut (Undecodable Id) fs gs →
      (readLoop r : List (SessionCall Id) × _).1.filterMap SessionCall.handled =
        (readLoop r' : List (SessionCall Id) × _).1.filterMap SessionCall.handled ∧
      (readLoop r : List (SessionCall Id) × _).2 = (readLoop r' : List (SessionCall Id) × _).2) ∧
    ∀ (lane : Lane) (fs gs : List (UInt8 × Bytes)) (bad : Option ℕ) (r r' : Reads), lane ≠ .bulk →
      Stream lane.prefixBytes fs bad r → Stream lane.prefixBytes gs bad r' →
      SameBut (OffLane Id) fs gs →
      (readLane r : List (LaneEvent Id) × _).1.filterMap published =
        (readLane r' : List (LaneEvent Id) × _).1.filterMap published ∧
      (readLane r : List (LaneEvent Id) × _).2 = (readLane r' : List (LaneEvent Id) × _).2 := by
  refine ⟨fun _ _ _ => session_stream,sessionCall_spec,fun _ _ _ _ => lane_stream,rawEvent_spec,?_,?_,?_⟩
  · intro fs bad r h
    cases fs with
    | nil =>
        rw [bulk_empty h]
        exact ⟨rfl,fun _ => rfl,fun hne => absurd rfl hne⟩
    | cons f fs =>
        obtain ⟨exit,hread,-⟩ := @bulk_frame Id _ fs bad r f h
        rw [hread]
        exact ⟨rfl,nofun,fun _ => ⟨exit,rfl⟩⟩
  · intro fs gs bad r r' h h' hsame
    rw [session_stream h,session_stream h']
    refine ⟨?_,rfl⟩
    rw [List.filterMap_map,List.filterMap_map]
    exact hsame.filterMap fun f => handled_none
  · intro lane fs gs bad r r' hlane h h' hsame
    rw [lane_stream hlane h,lane_stream hlane h']
    refine ⟨?_,rfl⟩
    rw [List.filterMap_map,List.filterMap_map]
    exact hsame.filterMap fun f hf => published_none hf lane

end

/-- A SUBSCRIBE and a PUBLISH, a frame that is none, and an ANNOUNCE with half a topic. -/
def subscribeFrame : UInt8 × Bytes := (Tag.subscribe,List.replicate 32 7)
def publishFrame : UInt8 × Bytes := (Tag.publish,List.replicate 32 7++[1,2])
def unknownFrame : UInt8 × Bytes := (0x7f,[1])
def shortFrame : UInt8 × Bytes := (Tag.announce,List.replicate 16 7)

theorem malformed_frames_in_sync_streams :
    (∃ r, Stream [] [unknownFrame,subscribeFrame,shortFrame] (some 0) r ∧
      (readLoop r : List (SessionCall RawId) × _).2 = .error (.length 0) ∧
      (readLoop r : List (SessionCall RawId) × _).1.filterMap SessionCall.handled =
        (readLoop (Reads.whole (rawFrames [subscribeFrame]++putU32 0)) :
          List (SessionCall RawId) × _).1.filterMap SessionCall.handled) ∧
    (∃ r, Stream Lane.control.prefixBytes [publishFrame,subscribeFrame] none r ∧
      (readLane r : List (LaneEvent RawId) × _).1 =
        [rawEvent .control publishFrame,rawEvent .control subscribeFrame]) ∧
    ∃ r, Stream Lane.bulk.prefixBytes [publishFrame,publishFrame] none r ∧
      (readLane r : List (LaneEvent RawId) × _).1 =
        [rawEvent .bulk publishFrame].filter fun e => (published e).isSome := by
  obtain ⟨hsession,-,hlane,-,hbulk,hsame,-⟩ := @malformed_frames_in_sync RawId _
  have hbad : Tail (putU32 0++[]) (some 0) := .bad 0 [] (by decide) (by decide)
  have h₁ : Stream [] [unknownFrame,subscribeFrame,shortFrame] (some 0)
      (Reads.whole (rawFrames [unknownFrame,subscribeFrame,shortFrame]++putU32 0)) :=
    ⟨by decide,⟨_,by decide,hbad⟩,nofun⟩
  have h₂ : Stream [] [subscribeFrame] (some 0) (Reads.whole (rawFrames [subscribeFrame]++putU32 0)) :=
    ⟨by decide,⟨_,by decide,hbad⟩,nofun⟩
  have h₃ : Stream Lane.control.prefixBytes [publishFrame,subscribeFrame] none
      (Reads.whole (Lane.control.byte::rawFrames [publishFrame,subscribeFrame])) :=
    ⟨by decide,⟨_,by decide,.clean⟩,fun _ => rfl⟩
  have h₄ : Stream Lane.bulk.prefixBytes [publishFrame,publishFrame] none
      (Reads.whole (Lane.bulk.byte::rawFrames [publishFrame,publishFrame])) :=
    ⟨by decide,⟨_,by decide,.clean⟩,fun _ => rfl⟩
  have hunknown : Undecodable RawId unknownFrame := by
    intro frame h
    cases h
  have hshort : Undecodable RawId shortFrame := by
    intro frame h
    cases h
  refine ⟨⟨_,h₁,?_,?_⟩,⟨_,h₃,?_⟩,⟨_,h₄,?_⟩⟩
  · rw [hsession _ _ _ h₁]
    rfl
  · exact (hsame _ _ _ _ _ h₁ h₂ (.left _ hunknown (.keep _ (.left _ hshort .nil)))).1
  · rw [hlane _ _ _ _ (by decide) h₃]
    rfl
  · exact (hbulk _ _ _ h₄).1

/-- A PUBLISH on a bulk stream, and a length of zero behind it. -/
def bulkThenBad : Reads := Reads.whole (Lane.bulk.byte::(rawFrame publishFrame.1 publishFrame.2++putU32 0))

/-- The length is not reported: the stream is stopped for what comes behind its frame. -/
theorem bulk_length_unreported :
    Stream Lane.bulk.prefixBytes [publishFrame] (some 0) bulkThenBad ∧
    (readLane bulkThenBad : List (LaneEvent RawId) × _).2 = .ok .bulkTrailing ∧
    (readLane bulkThenBad : List (LaneEvent RawId) × _).2 ≠ .error (.length 0) := by
  have hstream : Stream Lane.bulk.prefixBytes [publishFrame] (some 0) bulkThenBad :=
    ⟨by decide,⟨_,by decide,.bad 0 [] (by decide) (by decide)⟩,nofun⟩
  obtain ⟨exit,hread,htrailing⟩ := @bulk_frame RawId _ _ _ _ _ hstream
  have hon : ¬OffLane RawId publishFrame := by
    intro hoff
    have hlane := hoff (.publish ⟨List.replicate 32 7,by simp⟩ [1,2]) rfl
    cases hlane
  rw [hread,htrailing hon (.inr rfl)]
  exact ⟨hstream,rfl,nofun⟩

end KeepTalkingSfu.MalformedFrames
