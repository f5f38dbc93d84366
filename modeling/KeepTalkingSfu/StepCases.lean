import KeepTalkingSfu.Server

/-!
# The cases of a step

Everything a task of a connection can do in one step, with the conditions under
which it does it. Each case has the effect written out, so that what holds of
every step is shown once for each case and no later proof takes a handler apart.
-/
namespace KeepTalkingSfu.StepCases
open ByteTransport WireFormat StreamWriters LaneStream MemberQueues RoomTable TokenBucket Server

section
variable {Id F : Type} [DecidableEq Id] [EndpointKey Id] [Scalar F]
variable {limits : Limits F} {r : Rooms Id} {c : ℕ} {conn : Conn Id F} {t : Topic}

/-! ### SUBSCRIBE -/

/-- Why a SUBSCRIBE for a topic that is not in the set is refused. -/
def refusal (limits : Limits F) (r : Rooms Id) (conn : Conn Id F) (t : Topic) (now : ℕ) :
    Option String :=
  if t.isZero then some Reason.reservedTopic
  else if limits.maxTopicsPerConnection ≤ conn.subscribed.card then some Reason.tooManyTopics
  else if (conn.joinRate.tryTake 0 now).1 = false then some Reason.rateLimited
  else if r.isFull t conn.peer then some Reason.roomFull
  else none

theorem handleSubscribe_known (ht : t ∈ conn.subscribed) (now : ℕ) :
    handleSubscribe limits r c conn t now = ⟨r,conn,[]⟩ := if_pos ht

theorem handleSubscribe_refused (ht : t ∉ conn.subscribed) {now : ℕ} {reason : String}
    (hr : refusal limits r conn t now = some reason) :
    ∃ b, handleSubscribe limits r c conn t now =
      ⟨r,{ conn with joinRate := b },[error c (some t) reason]⟩ := by
  unfold refusal at hr
  unfold handleSubscribe
  rw [if_neg ht]
  split_ifs at hr with hzero hmany hrate hfull
  · cases hr
    exact ⟨_,if_pos hzero⟩
  · cases hr
    exact ⟨_,by rw [if_neg hzero,if_pos hmany]; rfl⟩
  · cases hr
    exact ⟨_,by simp only [if_neg hzero,if_neg hmany,hrate,Bool.false_eq_true,if_false]; rfl⟩
  · cases hr
    rw [Bool.not_eq_false] at hrate
    refine ⟨(conn.joinRate.tryTake 0 now).2,?_⟩
    simp only [if_neg hzero,if_neg hmany,hrate,if_true,r.join_full t ⟨conn.peer,c⟩ hfull]
    rfl

theorem handleSubscribe_joined (ht : t ∉ conn.subscribed) {now : ℕ}
    (hr : refusal limits r conn t now = none) :
    ∃ b, handleSubscribe limits r c conn t now =
      ⟨r.insertRoom t (r.joined t ⟨conn.peer,c⟩),
        { conn with joinRate := b, subscribed := insert t conn.subscribed },
        r.joinSends t ⟨conn.peer,c⟩⟩ := by
  unfold refusal at hr
  unfold handleSubscribe
  rw [if_neg ht]
  split_ifs at hr with hzero hmany hrate hfull
  rw [Bool.not_eq_false] at hrate
  rw [Bool.not_eq_true] at hfull
  refine ⟨(conn.joinRate.tryTake 0 now).2,?_⟩
  simp only [if_neg hzero,if_neg hmany,hrate,if_true,r.join_ok t ⟨conn.peer,c⟩ hfull]

/-! ### The other session frames -/

/-- Why a frame other than SUBSCRIBE and UNSUBSCRIBE is refused before anything
else is looked at. -/
def frameRefusal (conn : Conn Id F) : ClientFrame Id → Option String
  | .announce topic blob =>
      if maxAnnounceLen < blob.length then some Reason.announceTooLarge
      else if topic ∉ conn.subscribed then some Reason.notSubscribed
      else none
  | .publish _ _ | .publishTo _ _ _ => some Reason.publishOnSession
  | .subscribe _ | .unsubscribe _ => none

/-! ### PUBLISH and PUBLISH_TO -/

/-- The publication in a lane frame, unless it is malformed or too large. -/
def publication (tag : UInt8) (body : Bytes) : Option (Publish Id) :=
  match decodeLaneFrame tag body with
  | .error _ => none
  | .ok (frame,topicBytes) =>
      (publishParts frame).bind fun (topic,recipient,payload) =>
        if payload.length ≤ maxPublishLen then
          some ⟨topic,recipient,Deliver.new topicBytes payload,5+body.length⟩
        else none

/-- What a publication that got through its checks sends. -/
inductive Carried (r : Rooms Id) (c : ℕ) (h : Handle Id) (lane : Lane) (p : Publish Id) :
    List (Send Id) → Prop
  | notSubscribed : r.isMember p.topic h = false →
      Carried r c h lane p [error c (some p.topic) Reason.notSubscribed]
  | noSuchRecipient (recipient : Id) : r.isMember p.topic h = true →
      p.recipient = some recipient → recipient = h.peer ∨ r.slot p.topic recipient = none →
      Carried r c h lane p [error c (some p.topic) Reason.noSuchRecipient]
  | toAll (room : Room Id) : r.isMember p.topic h = true → p.recipient = none →
      r.room p.topic = some room →
      Carried r c h lane p (toOthers room h.peer (.deliver lane p.deliver))
  | toOne (recipient : Id) (slot : Slot Id) : r.isMember p.topic h = true →
      p.recipient = some recipient → recipient ≠ h.peer → r.slot p.topic recipient = some slot →
      Carried r c h lane p [⟨slot.handle.connId,.deliver lane p.deliver⟩]

omit [Scalar F] in
variable (r c conn) in
theorem publishRoom_carried (stream : ℕ) (l : LaneReader Id) (p : Publish Id) :
    ∃ sends, publishRoom r c conn stream l p = ⟨r,conn.setLane stream l.next,sends⟩ ∧
      Carried r c ⟨conn.peer,c⟩ l.lane p sends := by
  unfold publishRoom
  cases hrec : p.recipient with
  | none =>
      cases hm : r.isMember p.topic ⟨conn.peer,c⟩ with
      | false =>
          rw [r.publish_other _ _ _ _ hm]
          exact ⟨_,rfl,.notSubscribed hm⟩
      | true =>
          obtain ⟨room,hroom,heq⟩ := r.publish_member p.topic _ l.lane p.deliver hm
          rw [heq]
          exact ⟨_,rfl,by rw [List.append_nil]; exact .toAll room hm hrec hroom⟩
  | some recipient =>
      cases hm : r.isMember p.topic ⟨conn.peer,c⟩ with
      | false =>
          simp only [r.publishTo_other _ _ _ _ _ hm]
          exact ⟨_,rfl,.notSubscribed hm⟩
      | true =>
          by_cases habsent : recipient = conn.peer ∨ r.slot p.topic recipient = none
          · simp only [r.publishTo_absent _ _ _ _ hm habsent]
            exact ⟨_,rfl,.noSuchRecipient recipient hm hrec habsent⟩
          · push Not at habsent
            obtain ⟨slot,hslot⟩ := Option.ne_none_iff_exists'.mp habsent.2
            simp only [r.publishTo_present _ _ _ _ hm habsent.1 hslot]
            exact ⟨_,rfl,.toOne recipient slot hm hrec habsent.1 hslot⟩

/-! ### Giving a topic up and announcing -/

omit [Scalar F] in
variable (r c conn t) in
theorem leaveTopic_cases :
    (r.isMember t ⟨conn.peer,c⟩ = false ∧ leaveTopic r c conn t =
      ⟨r,{ conn with subscribed := conn.subscribed.erase t },[]⟩) ∨
    (r.isMember t ⟨conn.peer,c⟩ = true ∧ ∃ room, r.room t = some room ∧ leaveTopic r c conn t =
      ⟨r.setRoom t (room.erase conn.peer),{ conn with subscribed := conn.subscribed.erase t },
        broadcast (room.erase conn.peer) conn.peer (ServerFrame.left t conn.peer).encode⟩) := by
  unfold leaveTopic
  cases hm : r.isMember t ⟨conn.peer,c⟩ with
  | false =>
      rw [r.leave_other t _ hm]
      exact .inl ⟨rfl,rfl⟩
  | true =>
      obtain ⟨room,hroom,hleave⟩ := r.leave_member t _ hm
      rw [hleave]
      exact .inr ⟨rfl,room,hroom,rfl⟩

omit [Scalar F] in
variable (r c conn t) in
theorem announceRoom_cases (blob : Bytes) :
    (r.isMember t ⟨conn.peer,c⟩ = false ∧ announceRoom r c conn t blob =
      ⟨r,{ conn with session := .reading },[]⟩) ∨
    (r.isMember t ⟨conn.peer,c⟩ = true ∧ ∃ room slot, r.room t = some room ∧
      room.lookup conn.peer = some slot ∧ slot.handle.connId = c ∧
      announceRoom r c conn t blob =
        ⟨r.insertRoom t (room.insert conn.peer { slot with blob := blob }),
          { conn with session := .reading },
          broadcast (room.insert conn.peer { slot with blob := blob }) conn.peer
            (ServerFrame.presence t conn.peer blob).encode⟩) := by
  unfold announceRoom
  cases hm : r.isMember t ⟨conn.peer,c⟩ with
  | false =>
      rw [r.announce_other t _ blob hm]
      exact .inl ⟨rfl,rfl⟩
  | true =>
      obtain ⟨room,slot,hroom,hslot,hid,hann⟩ := r.announce_member t _ blob hm
      rw [hann]
      exact .inr ⟨rfl,room,slot,hroom,hslot,hid,rfl⟩

/-! ### Every step -/

/-- A session reader between two frames. -/
structure Idle (conn : Conn Id F) : Prop where
  live : conn.phase = .live
  reading : conn.session = .reading

inductive Ran (limits : Limits F) (r : Rooms Id) (c : ℕ) (conn : Conn Id F) :
    Act Id → Effect Id F → Prop
  | malformed {tag : UInt8} {body : Bytes} {now : ℕ} (err : String) : Idle conn →
      (ClientFrame.decode tag body : Except String (ClientFrame Id)) = .error err →
      Ran limits r c conn (.sessionFrame tag body now) ⟨r,conn,[skipMalformed c tag err]⟩
  | alreadySubscribed {tag : UInt8} {body : Bytes} {now : ℕ} (t : Topic) : Idle conn →
      ClientFrame.decode tag body = .ok (ClientFrame.subscribe t : ClientFrame Id) →
      t ∈ conn.subscribed → Ran limits r c conn (.sessionFrame tag body now) ⟨r,conn,[]⟩
  | subscribeRefused {tag : UInt8} {body : Bytes} {now : ℕ} (t : Topic) (reason : String)
      (b : Bucket F) : Idle conn →
      ClientFrame.decode tag body = .ok (ClientFrame.subscribe t : ClientFrame Id) →
      t ∉ conn.subscribed → refusal limits r conn t now = some reason →
      Ran limits r c conn (.sessionFrame tag body now)
        ⟨r,{ conn with joinRate := b },[error c (some t) reason]⟩
  | joined {tag : UInt8} {body : Bytes} {now : ℕ} (t : Topic) (b : Bucket F) : Idle conn →
      ClientFrame.decode tag body = .ok (ClientFrame.subscribe t : ClientFrame Id) →
      t ∉ conn.subscribed → refusal limits r conn t now = none →
      Ran limits r c conn (.sessionFrame tag body now)
        ⟨r.insertRoom t (r.joined t ⟨conn.peer,c⟩),
          { conn with joinRate := b, subscribed := insert t conn.subscribed },
          r.joinSends t ⟨conn.peer,c⟩⟩
  | notSubscribed {tag : UInt8} {body : Bytes} {now : ℕ} (t : Topic) : Idle conn →
      ClientFrame.decode tag body = .ok (ClientFrame.unsubscribe t : ClientFrame Id) →
      t ∉ conn.subscribed → Ran limits r c conn (.sessionFrame tag body now) ⟨r,conn,[]⟩
  | unsubscribed {tag : UInt8} {body : Bytes} {now : ℕ} (t : Topic) : Idle conn →
      ClientFrame.decode tag body = .ok (ClientFrame.unsubscribe t : ClientFrame Id) →
      t ∈ conn.subscribed →
      Ran limits r c conn (.sessionFrame tag body now) (leaveTopic r c conn t)
  | frameRefused {tag : UInt8} {body : Bytes} {now : ℕ} (f : ClientFrame Id) (reason : String) :
      Idle conn → ClientFrame.decode tag body = .ok f → frameRefusal conn f = some reason →
      Ran limits r c conn (.sessionFrame tag body now) ⟨r,conn,[error c (some f.topic) reason]⟩
  | announceChecked {tag : UInt8} {body : Bytes} {now : ℕ} (t : Topic) (blob : Bytes) :
      Idle conn → ClientFrame.decode tag body = .ok (ClientFrame.announce t blob : ClientFrame Id) →
      blob.length ≤ maxAnnounceLen → t ∈ conn.subscribed →
      Ran limits r c conn (.sessionFrame tag body now)
        ⟨r,{ conn with session := .announceChecked t blob (5+body.length) },[]⟩
  | announceGranted {now : ℕ} (t : Topic) (blob : Bytes) (frameLen : ℕ) :
      conn.session = .announceChecked t blob frameLen →
      (conn.publishRate.tryTake frameLen now).1 = true →
      Ran limits r c conn (.announceRate now)
        ⟨r,{ conn with
          publishRate := (conn.publishRate.tryTake frameLen now).2
          session := .announceGranted t blob },[]⟩
  | announceDenied {now : ℕ} (t : Topic) (blob : Bytes) (frameLen : ℕ) :
      conn.session = .announceChecked t blob frameLen →
      (conn.publishRate.tryTake frameLen now).1 = false →
      Ran limits r c conn (.announceRate now)
        ⟨r,{ conn with
          publishRate := (conn.publishRate.tryTake frameLen now).2
          session := .reading },[error c (some t) Reason.rateLimited]⟩
  | announceRoom (t : Topic) (blob : Bytes) : conn.session = .announceGranted t blob →
      Ran limits r c conn .announceRoom (announceRoom r c conn t blob)
  | endSession : Idle conn →
      Ran limits r c conn .endSession ⟨r,{ conn with phase := .leaving },[]⟩
  | leaveNext (t : Topic) : conn.phase = .leaving → t ∈ conn.subscribed →
      Ran limits r c conn (.leaveNext t) (leaveTopic r c conn t)
  | finish : conn.phase = .leaving → conn.subscribed = ∅ →
      Ran limits r c conn .finish ⟨r,{ conn with phase := .ended },[]⟩
  | openLane (stream : ℕ) (lane : Lane) : conn.lanes stream = none →
      Ran limits r c conn (.openLane stream lane) ⟨r,conn.setLane stream ⟨lane,.reading⟩,[]⟩
  | laneMalformed {stream : ℕ} {tag : UInt8} {body : Bytes} (lane : Lane) (err : String) :
      conn.lanes stream = some ⟨lane,.reading⟩ → lane ≠ .bulk →
      (decodeLaneFrame tag body : Except String (ClientFrame Id × Bytes)) = .error err →
      Ran limits r c conn (.laneFrame stream tag body)
        ⟨r,conn.setLane stream (LaneReader.next ⟨lane,.reading⟩),[skipMalformed c tag err]⟩
  | laneStopped {stream : ℕ} {tag : UInt8} {body : Bytes} (lane : Lane) :
      conn.lanes stream = some ⟨lane,.reading⟩ → (publication tag body : Option (Publish Id)) = none →
      Ran limits r c conn (.laneFrame stream tag body) ⟨r,conn.setLane stream ⟨lane,.over⟩,[]⟩
  | laneTooLarge {stream : ℕ} {tag : UInt8} {body : Bytes} (lane : Lane) (f : ClientFrame Id)
      (topicBytes : Bytes) : conn.lanes stream = some ⟨lane,.reading⟩ →
      decodeLaneFrame tag body = .ok (f,topicBytes) →
      (publication tag body : Option (Publish Id)) = none →
      Ran limits r c conn (.laneFrame stream tag body)
        ⟨r,conn.setLane stream (LaneReader.next ⟨lane,.reading⟩),
          [error c (some f.topic) Reason.publishTooLarge]⟩
  | laneNotSubscribed {stream : ℕ} {tag : UInt8} {body : Bytes} (lane : Lane) (p : Publish Id) :
      conn.lanes stream = some ⟨lane,.reading⟩ → publication tag body = some p →
      r.isMember p.topic ⟨conn.peer,c⟩ = false →
      Ran limits r c conn (.laneFrame stream tag body)
        ⟨r,conn.setLane stream (LaneReader.next ⟨lane,.reading⟩),
          [error c (some p.topic) Reason.notSubscribed]⟩
  | laneChecked {stream : ℕ} {tag : UInt8} {body : Bytes} (lane : Lane) (p : Publish Id) :
      conn.lanes stream = some ⟨lane,.reading⟩ → publication tag body = some p →
      r.isMember p.topic ⟨conn.peer,c⟩ = true →
      Ran limits r c conn (.laneFrame stream tag body)
        ⟨r,conn.setLane stream ⟨lane,.checked p⟩,[]⟩
  | laneGranted {stream now : ℕ} (lane : Lane) (p : Publish Id) :
      conn.lanes stream = some ⟨lane,.checked p⟩ →
      (conn.publishRate.tryTake p.frameLen now).1 = true →
      Ran limits r c conn (.laneRate stream now)
        ⟨r,{ conn with
          publishRate := (conn.publishRate.tryTake p.frameLen now).2 }.setLane stream
            ⟨lane,.granted p⟩,[]⟩
  | laneDenied {stream now : ℕ} (lane : Lane) (p : Publish Id) :
      conn.lanes stream = some ⟨lane,.checked p⟩ →
      (conn.publishRate.tryTake p.frameLen now).1 = false →
      Ran limits r c conn (.laneRate stream now)
        ⟨r,{ conn with
          publishRate := (conn.publishRate.tryTake p.frameLen now).2 }.setLane stream
            (LaneReader.next ⟨lane,.checked p⟩),[error c (some p.topic) Reason.rateLimited]⟩
  | laneRoom {stream : ℕ} (lane : Lane) (p : Publish Id) (sends : List (Send Id)) :
      conn.lanes stream = some ⟨lane,.granted p⟩ → Carried r c ⟨conn.peer,c⟩ lane p sends →
      Ran limits r c conn (.laneRoom stream)
        ⟨r,conn.setLane stream (LaneReader.next ⟨lane,.granted p⟩),sends⟩
  | datagramIn (datagram : Bytes) (now : ℕ) : conn.datagram = none →
      Ran limits r c conn (.datagramIn datagram now) (datagramIn r conn datagram now)
  | datagramRoom (datagram : Bytes) (failed : List ℕ) : conn.datagram = some datagram →
      Ran limits r c conn (.datagramRoom failed) (datagramRoom r c conn datagram failed)

theorem readSession_ran {tag : UInt8} {body : Bytes} {now : ℕ} (hidle : Idle conn) :
    Ran limits r c conn (.sessionFrame tag body now) (readSession limits r c conn tag body now) := by
  unfold readSession
  split
  · next f hd =>
    cases f with
    | subscribe t =>
        simp only [handleFrame]
        by_cases ht : t ∈ conn.subscribed
        · rw [handleSubscribe_known ht]
          exact .alreadySubscribed t hidle hd ht
        · cases hr : refusal limits r conn t now with
          | some reason =>
              obtain ⟨b,hb⟩ := handleSubscribe_refused (c := c) ht hr
              rw [hb]
              exact .subscribeRefused t reason b hidle hd ht hr
          | none =>
              obtain ⟨b,hb⟩ := handleSubscribe_joined (c := c) ht hr
              rw [hb]
              exact .joined t b hidle hd ht hr
    | unsubscribe t =>
        simp only [handleFrame]
        split_ifs with ht
        · exact .unsubscribed t hidle hd ht
        · exact .notSubscribed t hidle hd ht
    | announce t blob =>
        simp only [handleFrame]
        split_ifs with hlen ht
        · exact .frameRefused _ _ hidle hd (if_pos hlen)
        · exact .announceChecked t blob hidle hd (Nat.not_lt.mp hlen) ht
        · exact .frameRefused _ _ hidle hd (by simp only [frameRefusal,if_neg hlen,if_pos ht])
    | publish t payload => exact .frameRefused _ _ hidle hd rfl
    | publishTo t recipient payload => exact .frameRefused _ _ hidle hd rfl
  · next err hd => exact .malformed err hidle hd

theorem publishCheck_ran {stream : ℕ} {tag : UInt8} {body : Bytes} {lane : Lane}
    (hl : conn.lanes stream = some ⟨lane,.reading⟩) :
    Ran limits r c conn (.laneFrame stream tag body)
      (publishCheck r c conn stream ⟨lane,.reading⟩ tag body) := by
  cases hd : (decodeLaneFrame tag body : Except String (ClientFrame Id × Bytes)) with
  | error err =>
      simp only [publishCheck,hd]
      by_cases hb : lane = .bulk
      · rw [if_pos hb]
        subst hb
        exact .laneStopped .bulk hl (by simp only [publication,hd])
      · rw [if_neg hb]
        exact .laneMalformed lane err hl hb hd
  | ok x =>
      obtain ⟨f,topicBytes⟩ := x
      cases hparts : publishParts f with
      | none =>
          simp only [publishCheck,hd,hparts]
          exact .laneStopped lane hl (by simp only [publication,hd,hparts,Option.bind_none])
      | some x =>
          obtain ⟨topic,recipient,payload⟩ := x
          have htopic : topic = f.topic := by
            cases f <;> cases hparts <;> rfl
          simp only [publishCheck,hd,hparts]
          by_cases hlen : maxPublishLen < payload.length
          · rw [if_pos hlen,htopic]
            refine .laneTooLarge lane f topicBytes hl hd ?_
            simp only [publication,hd,hparts,Option.bind_some,if_neg (Nat.not_le.mpr hlen)]
          · have hpub : publication tag body =
                some ⟨topic,recipient,Deliver.new topicBytes payload,5+body.length⟩ := by
              simp only [publication,hd,hparts,Option.bind_some,if_pos (Nat.not_lt.mp hlen)]
            rw [if_neg hlen]
            split_ifs with hm
            · exact .laneChecked lane _ hl hpub hm
            · exact .laneNotSubscribed lane _ hl hpub (by simpa using hm)

theorem perform_ran {a : Act Id} {e : Effect Id F} (h : perform limits r c conn a = some e) :
    Ran limits r c conn a e := by
  cases a with
  | sessionFrame tag body now =>
      simp only [perform] at h
      split_ifs at h with hidle
      cases h
      exact readSession_ran ⟨hidle.1,hidle.2⟩
  | announceRate now =>
      simp only [perform] at h
      split at h
      · next t blob frameLen hs =>
        cases h
        simp only [announceRate]
        split
        · next hg => exact .announceGranted t blob frameLen hs hg
        · next hg => exact .announceDenied t blob frameLen hs (by simpa using hg)
      · cases h
  | announceRoom =>
      simp only [perform] at h
      split at h
      · next t blob hs =>
        cases h
        exact .announceRoom t blob hs
      · cases h
  | endSession =>
      simp only [perform] at h
      split_ifs at h with hidle
      cases h
      exact .endSession ⟨hidle.1,hidle.2⟩
  | leaveNext t =>
      simp only [perform] at h
      split_ifs at h with ht
      cases h
      exact .leaveNext t ht.1 ht.2
  | finish =>
      simp only [perform] at h
      split_ifs at h with hempty
      cases h
      exact .finish hempty.1 hempty.2
  | openLane stream lane =>
      simp only [perform] at h
      split at h
      · next hl =>
        cases h
        exact .openLane stream lane hl
      · cases h
  | laneFrame stream tag body =>
      simp only [perform] at h
      split at h
      · next lane hl =>
        cases h
        exact publishCheck_ran hl
      · cases h
  | laneRate stream now =>
      simp only [perform] at h
      split at h
      · next lane p hl =>
        cases h
        simp only [publishRate]
        split
        · next hg => exact .laneGranted lane p hl hg
        · next hg => exact .laneDenied lane p hl (by simpa using hg)
      · cases h
  | laneRoom stream =>
      simp only [perform] at h
      split at h
      · next lane p hl =>
        cases h
        obtain ⟨sends,hsends,hcarried⟩ := publishRoom_carried r c conn stream ⟨lane,.granted p⟩ p
        rw [hsends]
        exact .laneRoom lane p sends hl hcarried
      · cases h
  | datagramIn datagram now =>
      simp only [perform] at h
      split at h
      · next hd =>
        cases h
        exact .datagramIn datagram now hd
      · cases h
  | datagramRoom failed =>
      simp only [perform] at h
      split at h
      · next datagram hd =>
        cases h
        exact .datagramRoom datagram failed hd
      · cases h

/-! ### What is sent -/

/-- Session items are sent by any step, DELIVERs by the room operation of a lane frame and
datagrams by that of a datagram. -/
inductive Sends (conn : Conn Id F) (a : Act Id) : Msg Id → Prop
  | session (item : SessionItem Id) (size : ℕ) : Sends conn a (.session item size)
  | deliver (stream : ℕ) (l : LaneReader Id) (frame : Deliver) : a = .laneRoom stream →
      conn.lanes stream = some l → Sends conn a (.deliver l.lane frame)
  | datagram (failed : List ℕ) (datagram : Bytes) : a = .datagramRoom failed →
      Sends conn a (.datagram datagram)

theorem perform_sends {a : Act Id} {e : Effect Id F} (h : perform limits r c conn a = some e) :
    ∀ m ∈ e.sends, Sends conn a m.msg := by
  have herror : ∀ (topic : Option Topic) (reason : String),
      ∀ m ∈ [(error c topic reason : Send Id)], Sends conn a m.msg :=
    fun _ _ => List.forall_mem_singleton.mpr (.session _ _)
  have hothers : ∀ (room : Room Id) (frame : Bytes),
      ∀ m ∈ broadcast room conn.peer frame, Sends conn a m.msg :=
    fun room _ => forall_toOthers (.session _ _) room conn.peer
  cases perform_ran h with
  | malformed | subscribeRefused | frameRefused | announceDenied | laneMalformed | laneTooLarge
  | laneNotSubscribed | laneDenied => exact herror _ _
  | joined t => exact List.forall_mem_cons.mpr ⟨.session _ _,hothers _ _⟩
  | unsubscribed t | leaveNext t =>
      rcases leaveTopic_cases r c conn t with ⟨-,heq⟩ | ⟨-,room,-,heq⟩
      · rw [heq]
        exact List.forall_mem_nil _
      · rw [heq]
        exact hothers _ _
  | announceRoom t blob =>
      rcases announceRoom_cases r c conn t blob with ⟨-,heq⟩ | ⟨-,room,slot,-,-,-,heq⟩
      · rw [heq]
        exact List.forall_mem_nil _
      · rw [heq]
        exact hothers _ _
  | laneRoom lane p sends hl hcarried =>
      have hdeliver : Sends conn _ (.deliver lane p.deliver) := .deliver _ _ _ rfl hl
      cases hcarried with
      | notSubscribed | noSuchRecipient => exact herror _ _
      | toAll room => exact forall_toOthers hdeliver room conn.peer
      | toOne recipient slot => exact List.forall_mem_singleton.mpr hdeliver
  | datagramRoom datagram failed =>
      intro m hm
      obtain ⟨d,-,rfl⟩ := List.mem_map.mp hm
      exact .datagram failed datagram rfl
  | _ => exact List.forall_mem_nil _

end

end KeepTalkingSfu.StepCases
