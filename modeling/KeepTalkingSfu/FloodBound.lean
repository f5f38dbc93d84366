import KeepTalkingSfu.CodecExact
import KeepTalkingSfu.TaskSteps
import KeepTalkingSfu.TokenWindow
import Mathlib.Data.NNRat.Defs

/-!
# One publisher cannot flood one reader

What a connection publishes and announces is charged to one bucket, and what
comes of it is counted against the outbox of every connection it goes to. A frame
reaches a given connection at most once, and is there at most 32 bytes longer
than it was charged: a PRESENCE names the endpoint, and a DELIVER is no longer
than the PUBLISH or PUBLISH_TO it is built from. So the bucket of the one bounds
what it can put into the outbox of the other, whatever rooms they share.

A frame is charged and carried out in two steps, and counts at the time it is
charged.
-/
namespace KeepTalkingSfu.FloodBound
open ByteTransport WireFormat FrameCodec StreamWriters LaneStream MemberQueues RoomTable TokenBucket
  Server StepCases ServerEffects RoomInvariant TaskSteps InterleavedRuns TokenWindow

section
variable {Id F : Type}

/-- What a message counts against the budget of the session queue and the two
long-lived lanes, also when it is taken back at once. -/
def reservation : Msg Id → ℕ
  | .session _ size => size
  | .deliver .control frame | .deliver .interactive frame => frame.len
  | .deliver .bulk _ | .datagram _ => 0

/-- What the sends of a step count against one connection's budget. -/
def reserved (r : ℕ) (sends : List (Send Id)) : ℕ := ((sendsTo r sends).map reservation).sum

/-- The step that charges a frame of the connection: its reader and the time. -/
def charge (a : ℕ) : Action Id → Option (Task × ℕ)
  | .act c (.announceRate now) => if c = a then some (.session,now) else none
  | .act c (.laneRate stream now) => if c = a then some (.lane stream,now) else none
  | _ => none

/-- What a step reads of the clock for the publish bucket of `a`: the bucket is made with the
connection, and refilled at each charge. -/
def reading (a : ℕ) (s : State Id F) : Action Id → List ℕ
  | .connect _ now => if s.next = a then [now] else []
  | b => ((charge a b).map Prod.snd).toList

variable [DecidableEq Id] [EndpointKey Id] [Scalar F] (limits : Limits F)

/-- The clock readings of a run for the publish bucket of `a`. -/
def readings (a : ℕ) : State Id F → List (Action Id) → List ℕ := observed (step limits) (reading a)

/-- What carrying a frame out counts against a connection's budget. -/
def carriedOut (r : ℕ) (s : State Id F) : Action Id → ℕ
  | .act c a =>
      match a with
      | .announceRoom | .laneRoom _ =>
          (((s.conns c).bind fun conn => perform limits s.rooms c conn a).map fun e =>
            reserved r e.sends).getD 0
      | _ => 0
  | _ => 0

/-- What the frame a reader has just been charged for counts against `r`'s budget
when the reader carries it out. -/
def onAccount (a r : ℕ) (τ : Task) : State Id F → List (Action Id) → ℕ :=
  atNext (step limits) (ofTask a τ) (carriedOut limits r)

/-- What a step that charges a frame of `a` between `start` and `stop` leads to. -/
def chargedIn (a r start stop : ℕ) (b : Action Id) (s' : State Id F) (bs : List (Action Id)) : ℕ :=
  match charge a b with
  | some (τ,now) => if start ≤ now ∧ now ≤ stop then onAccount limits a r τ s' bs else 0
  | none => 0

end

/-! ### Sizes -/

/-- The largest frame that is not refused for its size: a PUBLISH_TO. -/
def largestFrame : ℕ := 69+maxPublishLen

section
variable {Id F : Type} [EndpointKey Id]

theorem announce_length {tag : UInt8} {body blob : Bytes} {t : Topic}
    (h : ClientFrame.decode tag body = .ok (ClientFrame.announce t blob : ClientFrame Id)) :
    5+body.length = 37+blob.length := by
  rw [← (CodecExact.clientFrame_of_decode h).2]
  simp [clientBody,Topic.length_eq]
  omega

theorem laneFrame_length {tag : UInt8} {body topicBytes : Bytes} {f : ClientFrame Id}
    (h : decodeLaneFrame tag body = .ok (f,topicBytes)) :
    topicBytes.length = 32 ∧ (clientBody f).length = body.length := by
  constructor
  · rw [(decodeLaneFrame_ok h).2,Topic.length_eq]
  · unfold decodeLaneFrame at h
    cases hd : (ClientFrame.decode tag body : Except String (ClientFrame Id)) with
    | error err => simp [hd] at h
    | ok g =>
        simp only [hd] at h
        split_ifs at h
        cases h
        rw [(CodecExact.clientFrame_of_decode hd).2]

/-- A publication is charged for at least the DELIVER that comes of it. -/
theorem publication_length {tag : UInt8} {body : Bytes} {p : Publish Id}
    (h : publication tag body = some p) :
    p.deliver.len ≤ p.frameLen ∧ p.frameLen ≤ largestFrame := by
  unfold publication at h
  cases hd : (decodeLaneFrame tag body : Except String (ClientFrame Id × Bytes)) with
  | error err => simp [hd] at h
  | ok x =>
      obtain ⟨f,topicBytes⟩ := x
      obtain ⟨htopic,hbody⟩ := laneFrame_length hd
      simp only [hd] at h
      obtain ⟨⟨topic,recipient,payload⟩,hparts,h⟩ := Option.bind_eq_some_iff.mp h
      simp only at h
      split_ifs at h with hlen
      cases h
      have hdeliver : (Deliver.new topicBytes payload).len = 37+payload.length := by
        simp [Deliver.len,Deliver.new,frameHeader,htopic]
      have hframe : body.length = 32+payload.length ∨ body.length = 64+payload.length := by
        rw [← hbody]
        cases f with
        | publish =>
            cases hparts
            left
            simp [clientBody,Topic.length_eq]
        | publishTo =>
            cases hparts
            right
            simp [clientBody,Topic.length_eq]
            omega
        | subscribe | unsubscribe | announce => cases hparts
      simp only [hdeliver,largestFrame]
      omega

end

/-! ### What a reader has in hand -/

section
variable {Id F : Type}

/-- Every frame that has been checked will be charged at its own length. -/
structure Sized (conn : Conn Id F) : Prop where
  session : ∀ t blob n, conn.session = .announceChecked t blob n →
    n = 37+blob.length ∧ n ≤ largestFrame
  lanes : ∀ i lane p, conn.lanes i = some ⟨lane,.checked p⟩ →
    p.deliver.len ≤ p.frameLen ∧ p.frameLen ≤ largestFrame

/-- What the reader has been granted counts no more than `n` against any budget. -/
def Carries (conn : Conn Id F) (n : ℕ) : Task → Prop
  | .session => ∀ t blob, conn.session = .announceGranted t blob → 69+blob.length ≤ n
  | .lane i => ∀ lane p, conn.lanes i = some ⟨lane,.granted p⟩ → p.deliver.len ≤ n
  | .datagram => True

theorem Carries.kept {conn conn' : Conn Id F} {n : ℕ} {τ : Task} {τ' : Option Task}
    (h : Carries conn n τ) (hne : τ' ≠ some τ) (hkept : Kept τ' conn conn') : Carries conn' n τ := by
  cases τ with
  | session =>
      intro t blob hs
      rw [hkept.session hne] at hs
      exact h t blob hs
  | lane i =>
      intro lane p hl
      rcases hkept.lanes i hne with heq | ⟨-,lane',hnew⟩
      · rw [heq] at hl
        exact h lane p hl
      · rw [hnew] at hl
        cases hl
  | datagram => trivial

theorem Sized.kept {conn conn' : Conn Id F} {τ : Option Task} (h : Sized conn)
    (hkept : Kept τ conn conn')
    (hsession : τ = some .session → ∀ t blob n, conn'.session = .announceChecked t blob n →
      n = 37+blob.length ∧ n ≤ largestFrame)
    (hlane : ∀ i, τ = some (.lane i) → ∀ lane p, conn'.lanes i = some ⟨lane,.checked p⟩ →
      p.deliver.len ≤ p.frameLen ∧ p.frameLen ≤ largestFrame) : Sized conn' where
  session t blob n hs := by
    by_cases hτ : τ = some .session
    · exact hsession hτ t blob n hs
    · rw [hkept.session hτ] at hs
      exact h.session t blob n hs
  lanes i lane p hl := by
    by_cases hτ : τ = some (.lane i)
    · exact hlane i hτ lane p hl
    · rcases hkept.lanes i hτ with heq | ⟨-,lane',hnew⟩
      · rw [heq] at hl
        exact h.lanes i lane p hl
      · rw [hnew] at hl
        cases hl

variable [DecidableEq Id] [EndpointKey Id] [Scalar F] {limits : Limits F} {r : Rooms Id} {c : ℕ}
  {conn : Conn Id F}

theorem perform_sized {a : Act Id} {e : Effect Id F} (h : perform limits r c conn a = some e)
    (hs : Sized conn) : Sized e.conn := by
  have hnext : ∀ (lane lane' : Lane) (task : LaneTask Id) (p : Publish Id),
      (LaneReader.next ⟨lane,task⟩ : LaneReader Id) ≠ ⟨lane',.checked p⟩ := by
    intro lane lane' task p heq
    unfold LaneReader.next at heq
    split_ifs at heq <;> cases heq
  refine hs.kept (perform_kept h) ?_ ?_
  · intro _ t blob n hsession
    cases perform_ran h with
    | announceChecked t' blob' hidle hdecode hlen ht =>
        cases hsession
        have hbody := announce_length hdecode
        unfold maxAnnounceLen at hlen
        simp only [largestFrame,maxPublishLen]
        omega
    | announceGranted | announceDenied | announceRoom => cases hsession
    | _ => exact hs.session t blob n hsession
  · intro i hτ lane p hl
    cases perform_ran h with
    | laneChecked lane' p' hlane hpub hm =>
        cases hτ
        rw [setLane_self] at hl
        cases hl
        exact publication_length hpub
    | laneMalformed | laneTooLarge | laneNotSubscribed | laneDenied | laneRoom =>
        cases hτ
        rw [setLane_self] at hl
        exact absurd (Option.some.inj hl) (hnext _ _ _ _)
    | laneStopped | laneGranted =>
        cases hτ
        rw [setLane_self] at hl
        cases hl
    | _ => cases hτ

/-! ### What carrying a frame out sends to one connection -/

variable {s s' : State Id F} {d : ℕ}

end

/-! ### The bucket -/

/-- Nanoseconds in a second. -/
def ticks : ℚ := 1000000000

/-- A rate with exact numbers. -/
def exact (q : Rate ℚ≥0) : Rate Level :=
  ⟨.finite q.bytesPerSecond,.finite q.burstBytes,.finite q.framesPerSecond,.finite q.burstFrames⟩

section
variable {q : Rate ℚ≥0} {len now start stop : ℕ}

theorem refill_exact (level : ℚ) (perSecond burst : ℚ≥0) (n : ℕ) :
    refill (.finite level) (.finite perSecond) (.finite burst) (Scalar.seconds n) =
      Level.finite (refilled (perSecond/ticks) burst level n) := by
  have hmul : (n : ℚ)/1000000000*perSecond = n*(perSecond/ticks) := by
    unfold ticks
    ring
  change Level.finite (min (level+(n : ℚ)/1000000000*perSecond) burst) = _
  rw [hmul]
  rfl

/-- A frame that is taken comes out of both levels. -/
theorem tryTake_exact (x y : ℚ) (last : ℕ) :
    let bytes := refilled (q.bytesPerSecond/ticks) q.burstBytes x (now-last)
    let frames := refilled (q.framesPerSecond/ticks) q.burstFrames y (now-last)
    (⟨exact q,.finite x,.finite y,last⟩ : Bucket Level).tryTake len now =
      if frames < 1 ∨ bytes < min (len : ℚ) q.burstBytes then
        (false,⟨exact q,.finite bytes,.finite frames,now⟩)
      else (true,⟨exact q,.finite (bytes-len),.finite (frames-1),now⟩) := by
  intro bytes frames
  have hbytes : refill (.finite x) (exact q).bytesPerSecond (exact q).burstBytes
      (Scalar.seconds (now-last)) = Level.finite bytes :=
    refill_exact x q.bytesPerSecond q.burstBytes (now-last)
  have hframes : refill (.finite y) (exact q).framesPerSecond (exact q).burstFrames
      (Scalar.seconds (now-last)) = Level.finite frames :=
    refill_exact y q.framesPerSecond q.burstFrames (now-last)
  have htest : (Scalar.lt (Level.finite frames) (Scalar.ofNat 1) ||
      Scalar.lt (Level.finite bytes) (Scalar.min (Scalar.ofNat len) (exact q).burstBytes)) =
        decide (frames < 1 ∨ bytes < min (len : ℚ) q.burstBytes) := by
    rw [Bool.decide_or]
    simp [Scalar.lt,Scalar.ofNat,Scalar.min,Level.less,Level.least,exact]
  simp only [Bucket.tryTake,hbytes,hframes,htest,decide_eq_true_eq]
  split_ifs
  · rfl
  · simp [Scalar.sub,Scalar.ofNat,Level.lift]

def value : Level → ℚ
  | .finite x => x
  | .infinite => 0

/-- The bucket has exact numbers and is not in debt. -/
def Solvent (q : Rate ℚ≥0) (b : Bucket Level) : Prop :=
  ∃ x y, b = ⟨exact q,.finite x,.finite y,b.last⟩ ∧ 0 ≤ x ∧ 0 ≤ y

theorem perTick_nonneg (x : ℚ≥0) : 0 ≤ (x : ℚ)/ticks :=
  div_nonneg x.coe_nonneg (by norm_num [ticks])

end

/-! ### Steps -/

section
variable {Id F : Type} [DecidableEq Id] [EndpointKey Id] [Scalar F] {limits : Limits F}
  {r : Rooms Id} {c : ℕ} {conn : Conn Id F} {act : Act Id} {e : Effect Id F}

theorem perform_uncharged (h : perform limits r c conn act = some e)
    (hcharge : charge c (.act c act) = none) : e.conn.publishRate = conn.publishRate := by
  cases perform_ran h with
  | announceGranted | announceDenied | laneGranted | laneDenied => simp [charge] at hcharge
  | _ => rfl

/-- A charge takes the frame's length from the bucket, and grants its reader a frame
of that length or nothing. -/
theorem perform_charged {τ : Task} {now : ℕ} (h : perform limits r c conn act = some e)
    (hcharge : charge c (.act c act) = some (τ,now)) (hs : Sized conn) :
    ∃ len, len ≤ largestFrame ∧ e.conn.publishRate = (conn.publishRate.tryTake len now).2 ∧
      Carries e.conn (if (conn.publishRate.tryTake len now).1 then len+32 else 0) τ := by
  cases perform_ran h with
  | announceGranted t blob n hsession htaken =>
      simp only [charge,if_true,Option.some.injEq,Prod.mk.injEq] at hcharge
      obtain ⟨rfl,rfl⟩ := hcharge
      obtain ⟨hn,hlarge⟩ := hs.session t blob n hsession
      refine ⟨n,hlarge,rfl,?_⟩
      intro t' blob' hgranted
      cases hgranted
      rw [if_pos htaken]
      omega
  | announceDenied t blob n hsession hdenied =>
      simp only [charge,if_true,Option.some.injEq,Prod.mk.injEq] at hcharge
      obtain ⟨rfl,rfl⟩ := hcharge
      refine ⟨n,(hs.session t blob n hsession).2,rfl,?_⟩
      intro t' blob' hgranted
      cases hgranted
  | laneGranted lane p hlane htaken =>
      simp only [charge,if_true,Option.some.injEq,Prod.mk.injEq] at hcharge
      obtain ⟨rfl,rfl⟩ := hcharge
      obtain ⟨hdeliver,hlarge⟩ := hs.lanes _ lane p hlane
      refine ⟨p.frameLen,hlarge,rfl,?_⟩
      intro lane' p' hgranted
      rw [setLane_self] at hgranted
      cases hgranted
      rw [if_pos htaken]
      omega
  | laneDenied lane p hlane hdenied =>
      simp only [charge,if_true,Option.some.injEq,Prod.mk.injEq] at hcharge
      obtain ⟨rfl,rfl⟩ := hcharge
      refine ⟨p.frameLen,(hs.lanes _ lane p hlane).2,rfl,?_⟩
      intro lane' p' hgranted
      rw [setLane_self] at hgranted
      unfold LaneReader.next at hgranted
      split_ifs at hgranted <;> cases hgranted
  | _ => cases hcharge

omit [DecidableEq Id] [EndpointKey Id] in
theorem charge_other {a c : ℕ} (h : c ≠ a) (act : Act Id) : charge a (.act c act) = none := by
  cases act <;> simp [charge,h]

variable {s s' : State Id F} {a : ℕ} {b : Action Id}

/-- What a step does to the bucket of `a`. -/
inductive Touched (limits : Limits F) (a : ℕ) (s s' : State Id F) (b : Action Id) : Prop
  | absent : s.conns a = none → s'.conns a = none → charge a b = none → Touched limits a s s' b
  | fresh (peer : Id) (now : ℕ) : s.next = a → s.conns a = none → s'.conns a = some (.new limits peer now) →
      b = .connect peer now → Touched limits a s s' b
  | kept (conn conn' : Conn Id F) : s.conns a = some conn → s'.conns a = some conn' →
      charge a b = none → conn'.publishRate = conn.publishRate → (Sized conn → Sized conn') →
      Touched limits a s s' b
  | charged (conn conn' : Conn Id F) (τ : Task) (now : ℕ) : s.conns a = some conn →
      s'.conns a = some conn' → charge a b = some (τ,now) → (Sized conn → Sized conn') →
      (Sized conn → ∃ len, len ≤ largestFrame ∧
        conn'.publishRate = (conn.publishRate.tryTake len now).2 ∧
        Carries conn' (if (conn.publishRate.tryTake len now).1 then len+32 else 0) τ) →
      Touched limits a s s' b

theorem step_touched (hi : Invariant limits s) (hs : step limits s b = some s') (a : ℕ) :
    Touched limits a s s' b := by
  cases hc : s.conns a with
  | none =>
      cases b with
      | connect peer now =>
          cases hs
          by_cases ha : a = s.next
          · subst ha
            exact .fresh peer now rfl hc (State.connect_conns_self limits s peer now) rfl
          · exact .absent hc ((State.connect_conns_of_ne _ _ _ _ ha).trans hc) rfl
      | act c act =>
          obtain ⟨conn,e,hconn,-,rfl⟩ := step_act hs
          have hne : a ≠ c := by
            rintro rfl
            rw [hc] at hconn
            cases hconn
          exact .absent hc ((State.apply_conns_of_ne _ _ _ hne).trans hc)
            (charge_other (Ne.symm hne) act)
      | drain c d =>
          obtain ⟨out,-,rfl⟩ := step_drain hs
          exact .absent hc hc rfl
      | rehash topic room =>
          obtain ⟨old,-,-,rfl⟩ := step_rehash hs
          exact .absent hc hc rfl
  | some conn =>
      cases b with
      | act c act =>
          obtain ⟨cconn,e,hcc,he,rfl⟩ := step_act hs
          by_cases hca : c = a
          · subst hca
            rw [hc] at hcc
            cases hcc
            have hself := State.apply_conns_self s c e
            cases hcharge : charge c (.act c act) with
            | none =>
                exact .kept conn e.conn hc hself hcharge (perform_uncharged he hcharge)
                  (perform_sized he)
            | some x =>
                obtain ⟨τ,now⟩ := x
                exact .charged conn e.conn τ now hc hself hcharge (perform_sized he)
                  (perform_charged he hcharge)
          · exact .kept conn conn hc ((State.apply_conns_of_ne _ _ _ (Ne.symm hca)).trans hc)
              (charge_other hca act) rfl id
      | _ =>
          rcases step_cases hi hs with hpassive | ⟨_,_,_,_,hb,-⟩
          · exact .kept conn conn hc (hpassive.conns a conn hc) rfl rfl id
          · cases hb

variable {bs : List (Action Id)}

theorem readings_cons (hs : step limits s b = some s') :
    readings limits a s (b::bs) = reading a s b++readings limits a s' bs :=
  observed_cons _ _ hs bs

theorem clock_tail (hclock : (readings limits a s (b::bs)).Pairwise (· ≤ ·))
    (hs : step limits s b = some s') : (readings limits a s' bs).Pairwise (· ≤ ·) := by
  rw [readings_cons hs,List.pairwise_append] at hclock
  exact hclock.2.1

end

/-! ### Runs -/

section
variable {Id : Type} {limits : Limits Level} {q : Rate ℚ≥0} {start stop a r : ℕ}
  {s s' : State Id Level} {b : Action Id} {bs : List (Action Id)}

variable [DecidableEq Id] [EndpointKey Id]

/-- What is left of the run finds the bucket of `a` not in debt and not ahead of
the clock. -/
structure Ready (limits : Limits Level) (q : Rate ℚ≥0) (a : ℕ) (s : State Id Level)
    (bs : List (Action Id)) : Prop where
  invariant : Invariant limits s
  clock : (readings limits a s bs).Pairwise (· ≤ ·)
  conn : ∀ conn, s.conns a = some conn → Sized conn ∧ Solvent q conn.publishRate ∧
    ∀ n ∈ readings limits a s bs, conn.publishRate.last ≤ n

end

/-- A PUBLISH and an ANNOUNCE of one connection, charged at the same time. -/
def instant : List (Action RawId) :=
  [.connect .base 0,.connect .identity 0,sends 1 (.subscribe (topicOf 7)) 0,
    sends 2 (.subscribe (topicOf 7)) 0,.act 1 (.openLane 5 .control),
    .act 1 (publishes 5 (.publish (topicOf 7) [1])),sends 1 (.announce (topicOf 7) [9]) 3,
    .act 1 (.laneRate 5 3),.act 1 (.announceRate 3),.act 1 .announceRoom,.act 1 (.laneRoom 5)]

end KeepTalkingSfu.FloodBound
