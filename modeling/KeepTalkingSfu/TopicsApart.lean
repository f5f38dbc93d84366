import KeepTalkingSfu.SnapshotAssembly
import KeepTalkingSfu.LaneCuts

/-!
# What a client's readers leave apart

The session stream carries the frames of all topics, and may carry frames the client does
not know or that do not belong there. The reader keeps what is under way by topic, so what
it hands out of one topic is what a stream of that topic's frames alone would give, whatever
is in between, and what it skips changes nothing but the count. A lane's reader hands out
the DELIVERs and counts the rest; on a bulk stream it looks at one frame. What counts is the
frames that are read: a stream may end between two of them or inside one, with an error of
the transport or a length out of range, and everything before it is handed out.
-/
namespace KeepTalkingSfu.TopicsApart
open ByteTransport WireFormat FrameCodec FrameReader FrameSequence StreamWriters LaneStream
  SessionStream SnapshotAssembly StreamCuts MalformedFrames LaneCuts Server

section
variable {Id : Type} [EndpointKey Id]

/-- The topic a frame names; an ERROR may name none. -/
def frameTopic : ServerFrame Id → Option Topic
  | .joined t _ | .left t _ | .presence t _ _ | .snapshot t _ _ | .deliver t _ => some t
  | .error t _ => t

def about (t : Option Topic) (frame : ServerFrame Id) : Bool := decide (frameTopic frame = t)

variable (Id) in
/-- Whether a raw frame is one of the topic's. -/
def concerns (t : Option Topic) (f : UInt8 × Bytes) : Bool :=
  match (ServerFrame.decode f.1 f.2 : Except String (ServerFrame Id)) with
  | .ok frame => about t frame
  | .error _ => false

variable (Id) in
/-- A frame that the session reader skips: malformed, or a DELIVER. -/
def unshown (f : UInt8 × Bytes) : Bool :=
  match (ServerFrame.decode f.1 f.2 : Except String (ServerFrame Id)) with
  | .ok (.deliver _ _) => true
  | .ok _ => false
  | .error _ => true

/-! ### One topic -/

/-- One reader has of a topic what the other has. -/
structure Shadows (t : Option Topic) (p q : Pump Id) : Prop where
  handed : q.handed = p.handed.filter (about t)
  pending : ∀ u, t = some u → q.pending.lookup u = p.pending.lookup u

/-- A frame of another topic leaves what is under way for this one, and hands out none of
its frames. -/
theorem merge_other {t : Option Topic} {f : UInt8 × Bytes} (hf : concerns Id t f = false)
    (p : Pump Id) : (∀ u, t = some u → (p.merge f.1 f.2).1.pending.lookup u = p.pending.lookup u) ∧
      (p.merge f.1 f.2).2.toList.filter (about t) = [] := by
  unfold concerns at hf
  unfold Pump.merge
  cases hd : (ServerFrame.decode f.1 f.2 : Except String (ServerFrame Id)) with
  | error err => exact ⟨fun _ _ => rfl,rfl⟩
  | ok frame =>
      rw [hd] at hf
      cases frame with
      | snapshot topic more members =>
          have hne : ∀ u, t = some u → u ≠ topic := by
            rintro u rfl rfl
            simp [about,frameTopic] at hf
          have hother : about t (.snapshot topic false
              ((p.pending.lookup topic).getD []++members) : ServerFrame Id) = false := hf
          simp only
          split_ifs
          · exact ⟨fun u hu => AList.lookup_erase_ne (hne u hu),rfl⟩
          · exact ⟨fun u hu => AList.lookup_insert_ne (hne u hu),rfl⟩
          · refine ⟨fun u hu => AList.lookup_erase_ne (hne u hu),?_⟩
            simp only [Option.toList_some,List.filter_cons,hother,Bool.false_eq_true,if_false,
              List.filter_nil]
      | deliver topic payload => exact ⟨fun _ _ => rfl,rfl⟩
      | joined | left | presence | error =>
          refine ⟨fun _ _ => rfl,?_⟩
          simp only [Option.toList_some,List.filter_cons,hf,Bool.false_eq_true,if_false,
            List.filter_nil]

theorem merge_same {t : Option Topic} {f : UInt8 × Bytes} (hf : concerns Id t f = true)
    {p q : Pump Id} (h : Shadows t p q) : (q.merge f.1 f.2).2 = (p.merge f.1 f.2).2 ∧
      (∀ u, t = some u →
        (q.merge f.1 f.2).1.pending.lookup u = (p.merge f.1 f.2).1.pending.lookup u) ∧
      (p.merge f.1 f.2).2.toList.filter (about t) = (p.merge f.1 f.2).2.toList := by
  unfold concerns at hf
  unfold Pump.merge
  cases hd : (ServerFrame.decode f.1 f.2 : Except String (ServerFrame Id)) with
  | error err =>
      rw [hd] at hf
      cases hf
  | ok frame =>
      rw [hd] at hf
      cases frame with
      | snapshot topic more members =>
          have htopic : t = some topic := (of_decide_eq_true hf).symm
          subst htopic
          have hlookup := h.pending topic rfl
          have habout : about (some topic) (.snapshot topic false
              ((p.pending.lookup topic).getD []++members) : ServerFrame Id) = true := hf
          simp only [hlookup]
          split_ifs
          · refine ⟨rfl,?_,rfl⟩
            rintro u ⟨⟩
            simp only [Pump.skip,AList.lookup_erase]
          · refine ⟨rfl,?_,rfl⟩
            rintro u ⟨⟩
            simp only [AList.lookup_insert]
          · refine ⟨rfl,?_,?_⟩
            · rintro u ⟨⟩
              simp only [AList.lookup_erase]
            · simp only [Option.toList_some,List.filter_cons,habout,if_true,List.filter_nil]
      | deliver topic payload => exact ⟨rfl,h.pending,rfl⟩
      | joined | left | presence | error =>
          refine ⟨rfl,h.pending,?_⟩
          simp only [Option.toList_some,List.filter_cons,hf,if_true,List.filter_nil]

/-- The client after some frames that are all taken. -/
def taken (p : Pump Id) (fs : List (UInt8 × Bytes)) : Pump Id :=
  (fs.foldl (turn fun _ => true) (p,true)).1

theorem taken_cons (p : Pump Id) (f : UInt8 × Bytes) (fs : List (UInt8 × Bytes)) :
    taken p (f::fs) = taken { (p.merge f.1 f.2).1 with
      handed := (p.merge f.1 f.2).1.handed++(p.merge f.1 f.2).2.toList } fs := by
  rw [taken,List.foldl_cons,turn,if_pos rfl,handOut_alive]
  rfl

/-- What is handed out of a topic depends on its frames alone. -/
theorem taken_shadows {t : Option Topic} {p q : Pump Id} (h : Shadows t p q)
    (fs : List (UInt8 × Bytes)) : Shadows t (taken p fs) (taken q (fs.filter (concerns Id t))) := by
  induction fs generalizing p q with
  | nil => exact h
  | cons f fs ih =>
      rw [taken_cons]
      cases hf : concerns Id t f with
      | false =>
          rw [List.filter_cons_of_neg (by simp [hf])]
          obtain ⟨hpending,hnone⟩ := merge_other hf p
          refine ih ⟨?_,fun u hu => ?_⟩
          · rw [h.handed,List.filter_append,merge_handed,hnone,List.append_nil]
          · exact (h.pending u hu).trans (hpending u hu).symm
      | true =>
          rw [List.filter_cons_of_pos hf,taken_cons]
          obtain ⟨hsame,hpending,hall⟩ := merge_same hf h
          refine ih ⟨?_,hpending⟩
          simp only
          rw [merge_handed,merge_handed,h.handed,hsame,List.filter_append,hall]

/-! ### What is skipped -/

/-- The reader with so many frames more that it has skipped. -/
def counted (n : ℕ) (s : Pump Id × Bool) : Pump Id × Bool :=
  ({ s.1 with skipped := s.1.skipped+n },s.2)

omit [EndpointKey Id] in
theorem counted_counted (m n : ℕ) (s : Pump Id × Bool) :
    counted m (counted n s) = counted (n+m) s := by
  simp only [counted,Nat.add_assoc]

variable {alive : ℕ → Bool}

theorem turn_counted (n : ℕ) (s : Pump Id × Bool) (f : UInt8 × Bytes) :
    turn alive (counted n s) f = counted n (turn alive s f) := by
  obtain ⟨p,on⟩ := s
  cases on with
  | false => rfl
  | true =>
      simp only [turn,counted,if_true]
      unfold Pump.merge
      cases (ServerFrame.decode f.1 f.2 : Except String (ServerFrame Id)) with
      | error err => simp only [Pump.handOut,Pump.skip,Nat.add_right_comm]
      | ok frame =>
          cases frame with
          | snapshot topic more members =>
              simp only
              split_ifs
              · simp only [Pump.handOut,Pump.skip,Nat.add_right_comm]
              · rfl
              · simp only [Pump.handOut]
                split_ifs <;> rfl
          | deliver topic payload => simp only [Pump.handOut,Pump.skip,Nat.add_right_comm]
          | joined | left | presence | error =>
              simp only [Pump.handOut]
              split_ifs <;> rfl

theorem turns_counted (n : ℕ) (s : Pump Id × Bool) (fs : List (UInt8 × Bytes)) :
    fs.foldl (turn alive) (counted n s) = counted n (fs.foldl (turn alive) s) := by
  induction fs generalizing s with
  | nil => rfl
  | cons f fs ih => rw [List.foldl_cons,turn_counted,ih,List.foldl_cons]

theorem turn_unshown {f : UInt8 × Bytes} (hf : unshown Id f = true) (s : Pump Id × Bool) :
    turn alive s f = counted (if s.2 then 1 else 0) s := by
  obtain ⟨p,on⟩ := s
  cases on with
  | false => rfl
  | true =>
      unfold unshown at hf
      simp only [turn,if_true]
      unfold Pump.merge
      cases hd : (ServerFrame.decode f.1 f.2 : Except String (ServerFrame Id)) with
      | error err => rfl
      | ok frame =>
          rw [hd] at hf
          cases frame with
          | deliver topic payload => rfl
          | _ => cases hf

omit [EndpointKey Id] in
theorem handOut_on (halive : ∀ m, alive m = true) (x : Pump Id × Option (ServerFrame Id)) :
    (Pump.handOut alive x).2 = true := by
  obtain ⟨p,frame⟩ := x
  cases frame with
  | none => rfl
  | some frame => rw [Pump.handOut,if_pos (halive _)]

theorem turns_shown (s : Pump Id × Bool) (fs : List (UInt8 × Bytes)) :
    ∃ n, fs.foldl (turn alive) s =
        counted n ((fs.filter fun f => !unshown Id f).foldl (turn alive) s) ∧
      ((∀ m, alive m = true) → s.2 = true → n = fs.countP (unshown Id)) := by
  induction fs generalizing s with
  | nil => exact ⟨0,rfl,fun _ _ => rfl⟩
  | cons f fs ih =>
      rw [List.foldl_cons]
      cases hf : unshown Id f with
      | true =>
          obtain ⟨n,hn,hcount⟩ := ih s
          rw [List.filter_cons_of_neg (by simp [hf]),turn_unshown hf,turns_counted,hn,counted_counted]
          refine ⟨_,rfl,?_⟩
          intro halive hon
          rw [hcount halive hon,if_pos hon,List.countP_cons_of_pos hf]
      | false =>
          rw [List.filter_cons_of_pos (by simp [hf]),List.foldl_cons]
          obtain ⟨n,hn,hcount⟩ := ih (turn alive s f)
          refine ⟨n,hn,?_⟩
          intro halive hon
          rw [List.countP_cons_of_neg (by simp [hf])]
          apply hcount halive
          rw [turn,if_pos hon]
          exact handOut_on halive _

/-! ### Lanes -/

/-- What a lane's reader hands out is the frames' deliveries, and it counts the others. -/
theorem laneTurns_all (halive : ∀ m, alive m = true) {lane : Lane} (hlane : lane ≠ .bulk)
    (fs : List (UInt8 × Bytes)) (n : ℕ) : laneTurns Id alive lane fs n =
      (fs.filterMap (fun f => laneDelivery Id lane f.1 f.2),
        fs.countP fun f => (laneDelivery Id lane f.1 f.2).isNone) := by
  induction fs generalizing n with
  | nil => rfl
  | cons f fs ih =>
      rw [laneTurns]
      cases hd : laneDelivery Id lane f.1 f.2 with
      | none =>
          simp only [if_neg hlane,ih n]
          simp [hd]
      | some d =>
          simp only [if_pos (halive n),if_neg hlane,ih (n+1)]
          simp [hd]

theorem laneTurns_none {lane : Lane} (hlane : lane ≠ .bulk) {f : UInt8 × Bytes}
    (hf : laneDelivery Id lane f.1 f.2 = none) (fs : List (UInt8 × Bytes)) (n : ℕ) :
    (laneTurns Id alive lane (f::fs) n).1 = (laneTurns Id alive lane fs n).1 := by
  simp only [laneTurns,hf,if_neg hlane]

/-- Frames that are no DELIVERs are not missed, whenever the receiver goes away. -/
theorem laneTurns_same {lane : Lane} (hlane : lane ≠ .bulk) {fs gs : List (UInt8 × Bytes)}
    (h : SameBut (fun f => laneDelivery Id lane f.1 f.2 = none) fs gs) (n : ℕ) :
    (laneTurns Id alive lane fs n).1 = (laneTurns Id alive lane gs n).1 := by
  induction h generalizing n with
  | nil => rfl
  | keep f _ ih =>
      simp only [laneTurns,if_neg hlane]
      cases laneDelivery Id lane f.1 f.2 with
      | none => exact ih n
      | some d =>
          simp only
          split_ifs
          · rw [ih (n+1)]
          · rfl
  | left f hf _ ih => rw [laneTurns_none hlane hf,ih n]
  | right g hg _ ih => rw [laneTurns_none hlane hg,ih n]

theorem pumpLane_eq {lane : Lane} {r r' : Reads} (h : readLaneByte r = .ok (some lane.byte,r')) :
    pumpLane Id alive r = laneTurns Id alive lane (readFrames r').1 0 := by
  simp only [pumpLane,h,Lane.fromByte_byte,pumpLaneFrames_eq]

theorem laneTurns_bulk (halive : ∀ m, alive m = true) (f : UInt8 × Bytes)
    (fs : List (UInt8 × Bytes)) : laneTurns Id alive .bulk (f::fs) 0 =
      ((laneDelivery Id .bulk f.1 f.2).toList,if (laneDelivery Id .bulk f.1 f.2).isNone then 1 else 0) := by
  rw [laneTurns]
  cases laneDelivery Id .bulk f.1 f.2 with
  | none => rfl
  | some d => simp [halive]

theorem unshown_same {fs gs : List (UInt8 × Bytes)}
    (h : SameBut (fun f => unshown Id f = true) fs gs) :
    fs.filter (fun f => !unshown Id f) = gs.filter fun f => !unshown Id f := by
  rw [← List.filterMap_eq_filter]
  exact h.filterMap fun f hf => by simp [Option.guard,hf]

variable (Id) in
/-- **The client's readers keep topics apart and skip what they do not know**, on every stream,
however it is split and whatever ends it: what the session reader hands out of a topic is
what it hands out when that topic's frames alone are read, whatever chunks of other topics
and malformed frames are in between. Two streams that are the same but for malformed frames
and DELIVERs give the same frames, and the counts differ by just these. The reader of a
long-lived lane hands out the DELIVERs and counts each of the others, which make no
difference; that of a bulk stream looks at the first frame only. -/
theorem client_readers_in_sync :
    (∀ (t : Option Topic) (r r' : Reads),
      (readFrames r').1 = (readFrames r).1.filter (concerns Id t) →
      (pumpFrames (fun _ => true) r (.start : Pump Id)).handed.filter (about t) =
        (pumpFrames (fun _ => true) r' (.start : Pump Id)).handed) ∧
    (∀ (r r' : Reads) (alive : ℕ → Bool),
      SameBut (fun f => unshown Id f = true) (readFrames r).1 (readFrames r').1 →
      (pumpFrames alive r (.start : Pump Id)).handed =
        (pumpFrames alive r' (.start : Pump Id)).handed ∧
      ((∀ m, alive m = true) →
        (pumpFrames alive r (.start : Pump Id)).skipped+(readFrames r').1.countP (unshown Id) =
          (pumpFrames alive r' (.start : Pump Id)).skipped+(readFrames r).1.countP (unshown Id))) ∧
    (∀ (lane : Lane) (r r' : Reads), lane ≠ .bulk → readLaneByte r = .ok (some lane.byte,r') →
      pumpLane Id (fun _ => true) r =
        ((readFrames r').1.filterMap (fun f => laneDelivery Id lane f.1 f.2),
          (readFrames r').1.countP fun f => (laneDelivery Id lane f.1 f.2).isNone)) ∧
    (∀ (lane : Lane) (r₁ r₁' r₂ r₂' : Reads) (alive : ℕ → Bool), lane ≠ .bulk →
      readLaneByte r₁ = .ok (some lane.byte,r₁') → readLaneByte r₂ = .ok (some lane.byte,r₂') →
      SameBut (fun f => laneDelivery Id lane f.1 f.2 = none) (readFrames r₁').1 (readFrames r₂').1 →
      (pumpLane Id alive r₁).1 = (pumpLane Id alive r₂).1) ∧
    ∀ (r r' : Reads) (f : UInt8 × Bytes) (fs : List (UInt8 × Bytes)),
      readLaneByte r = .ok (some Lane.bulk.byte,r') → (readFrames r').1 = f::fs →
      pumpLane Id (fun _ => true) r =
        ((laneDelivery Id .bulk f.1 f.2).toList,
          if (laneDelivery Id .bulk f.1 f.2).isNone then 1 else 0) := by
  refine ⟨?_,?_,?_,?_,?_⟩
  · intro t r r' hfs
    rw [pumpFrames_eq,pumpFrames_eq,hfs]
    exact (taken_shadows ⟨rfl,fun _ _ => rfl⟩ (readFrames r).1).handed.symm
  · intro r r' alive hsame
    rw [pumpFrames_eq,pumpFrames_eq]
    obtain ⟨n,hn,hcount⟩ := @turns_shown Id _ alive (.start,true) (readFrames r).1
    obtain ⟨m,hm,hcount'⟩ := @turns_shown Id _ alive (.start,true) (readFrames r').1
    rw [hn,hm,unshown_same hsame]
    refine ⟨rfl,?_⟩
    intro halive
    rw [← hcount halive rfl,← hcount' halive rfl]
    exact Nat.add_right_comm _ n m
  · intro lane r r' hlane hr
    rw [pumpLane_eq hr]
    exact laneTurns_all (fun _ => rfl) hlane _ 0
  · intro lane r₁ r₁' r₂ r₂' alive hlane h₁ h₂ hsame
    rw [pumpLane_eq h₁,pumpLane_eq h₂]
    exact laneTurns_same hlane hsame 0
  · intro r r' f fs hr hfs
    rw [pumpLane_eq hr,hfs]
    exact laneTurns_bulk (fun _ => rfl) f fs

end

def rawServer (f : ServerFrame RawId) : UInt8 × Bytes := (serverTag f,serverBody f)

/-- Two chunks of a snapshot, and in between a JOINED of another topic and a frame that is
none. -/
def mixed : List (UInt8 × Bytes) :=
  [rawServer (.snapshot (topicOf 7) true [⟨.base,[1]⟩]),rawServer (.joined (topicOf 9) .identity),
    (0x7f,[1]),rawServer (.snapshot (topicOf 7) false [⟨.identity,[]⟩])]

def plain : List (UInt8 × Bytes) :=
  [rawServer (.snapshot (topicOf 7) true [⟨.base,[1]⟩]),
    rawServer (.snapshot (topicOf 7) false [⟨.identity,[]⟩])]

/-- The frames arrive in two pieces, and the connection is lost inside the next one. -/
def interrupted : Reads where
  chunks := [(rawFrames mixed).take 40,(rawFrames mixed).drop 40++[0,0,0]]
  nonempty := by decide
  failure := some "connection lost"

theorem interrupted_read : (readFrames interrupted).1 = mixed := by
  have hbytes : interrupted.bytes = rawFrames mixed++[0,0,0] := by
    simp only [interrupted,Reads.bytes,List.flatten_cons,List.flatten_nil,List.append_nil,
      ← List.append_assoc,List.take_append_drop]
  exact (readFrames_cut (f := (0,[])) (by decide) (by decide) (by decide) (by decide) hbytes).1

/-- The snapshot comes out whole, as if nothing had been in between; and on a lane the two
are frames to be skipped. -/
theorem client_readers_in_sync_mixed :
    (pumpFrames (fun _ => true) interrupted (.start : Pump RawId)).handed.filter
        (about (some (topicOf 7))) =
      (pumpFrames (fun _ => true) (Reads.whole (rawFrames plain)) (.start : Pump RawId)).handed ∧
    pumpLane RawId (fun _ => true) (Reads.whole (Lane.control.byte::rawFrames plain)) = ([],2) := by
  obtain ⟨hsession,-,hlane,-⟩ := client_readers_in_sync RawId
  have hplain : mixed.filter (concerns RawId (some (topicOf 7))) = plain := by decide
  have hread : (readFrames (Reads.whole (rawFrames plain))).1 = plain := by
    rw [SnapshotAssembly.readFrames_whole (by decide)]
  obtain ⟨r',hbyte,hr',hf'⟩ := readLaneByte_cons (Reads.whole (Lane.control.byte::rawFrames plain))
    Lane.control.byte (rawFrames plain) (Reads.whole_bytes _)
  have hbehind : (readFrames r').1 = plain := by
    rw [readFrames_congr (hr'.trans (Reads.whole_bytes _).symm) hf',hread]
  refine ⟨hsession _ _ _ ?_,?_⟩
  · rw [hread,interrupted_read,hplain]
  · rw [hlane .control _ r' (by decide) hbyte,hbehind]
    decide

end KeepTalkingSfu.TopicsApart
