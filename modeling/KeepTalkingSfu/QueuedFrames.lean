import KeepTalkingSfu.RoomInvariant
import KeepTalkingSfu.SessionStream

/-!
# What a session queue holds

Whatever the server queues on a session stream is a frame the client can read: a
JOINED, LEFT or PRESENCE with a blob that was checked, an ERROR with a short text, or
the members of a room that is within its limit. So no run makes the server write a
frame that its own client refuses.
-/
namespace KeepTalkingSfu.QueuedFrames
open ByteTransport WireFormat StreamWriters LaneStream MemberQueues RoomTable TokenBucket Server
  StepCases ServerEffects RoomInvariant InterleavedRuns SessionStream Utf8Text

theorem utf8_append (s t : String) : utf8 (s++t) = utf8 s++utf8 t := by
  simp [utf8]

/-- The texts with which the transport library refuses an endpoint id are short. -/
def ShortErrors (Id : Type) [EndpointKey Id] : Prop :=
  ∀ bs e, (EndpointKey.fromBytes bs : Except String Id) = .error e → (utf8 e).length ≤ maxPublishLen

section
variable {Id : Type} [EndpointKey Id]

/-! ### Texts of errors -/

/-- A text that leaves room for the rest of its message. -/
def Short (text : String) : Prop := (utf8 text).length ≤ maxPublishLen+64

instance (text : String) : Decidable (Short text) := inferInstanceAs (Decidable (_ ≤ _))

theorem utf8_length_le (s : String) : (utf8 s).length ≤ 4*s.toList.length := by
  unfold utf8
  induction s.toList with
  | nil => exact le_rfl
  | cons c cs ih =>
      have hc : (String.utf8EncodeChar c).length ≤ 4 := by
        rw [String.length_utf8EncodeChar]
        exact c.utf8Size_le_four
      rw [List.flatMap_cons,List.length_append,List.length_cons]
      omega

theorem utf8_hexByte (b : UInt8) : (utf8 (hexByte b)).length ≤ 8 :=
  (utf8_length_le _).trans (by simp [hexByte])

theorem takeId_short (hid : ShortErrors Id) {body : Bytes} {e : String}
    (h : (takeId body : Except String (Id × Bytes)) = .error e) : Short e := by
  unfold takeId at h
  split_ifs at h
  · split at h
    · cases h
    · next err herr =>
      cases h
      have hlen := hid _ err herr
      have htext : (utf8 "invalid endpoint id: ").length = 21 := by decide
      rw [Short,utf8_append,List.length_append,htext]
      omega
  · cases h
    decide

theorem ensureEmpty_short {A : Type} {tag : UInt8} {frame : A} {body : Bytes} {e : String}
    (h : ensureEmpty "client" tag frame body = .error e) : Short e := by
  unfold ensureEmpty at h
  split_ifs at h
  cases h
  have hhex := utf8_hexByte tag
  have htext : (utf8 ("trailing bytes in "++"client"++" frame 0x")).length = 33 := by decide
  rw [Short,utf8_append,List.length_append,htext]
  omega

theorem takeTopic_short {body : Bytes} {e : String} (h : takeTopic body = .error e) : Short e := by
  unfold takeTopic at h
  split_ifs at h
  cases h
  decide

/-- An error out of a sequence comes from one of its parts. -/
theorem bind_short {A B : Type} {x : Except String A} {f : A → Except String B} {e : String}
    (h : x >>= f = .error e) (hx : ∀ e', x = .error e' → Short e')
    (hf : ∀ a e', f a = .error e' → Short e') : Short e := by
  cases x with
  | error e' =>
      cases h
      exact hx e rfl
  | ok a => exact hf a e h

theorem decode_short (hid : ShortErrors Id) {tag : UInt8} {body : Bytes} {e : String}
    (h : (ClientFrame.decode tag body : Except String (ClientFrame Id)) = .error e) : Short e := by
  unfold ClientFrame.decode at h
  split_ifs at h
  · exact bind_short h (fun _ => takeTopic_short) fun _ _ => ensureEmpty_short
  · exact bind_short h (fun _ => takeTopic_short) fun _ _ => ensureEmpty_short
  · exact bind_short h (fun _ => takeTopic_short) fun _ _ => nofun
  · exact bind_short h (fun _ => takeTopic_short) fun _ _ => nofun
  · refine bind_short h (fun _ => takeTopic_short) fun _ _ h => ?_
    exact bind_short h (fun _ => takeId_short hid) fun _ _ => nofun
  · cases h
    have hhex := utf8_hexByte tag
    have htext : (utf8 "unknown client frame 0x").length = 23 := by decide
    rw [Short,utf8_append,List.length_append,htext]
    omega

theorem decodeLaneFrame_short (hid : ShortErrors Id) {tag : UInt8} {body : Bytes} {e : String}
    (h : (decodeLaneFrame tag body : Except String (ClientFrame Id × Bytes)) = .error e) :
    Short e := by
  unfold decodeLaneFrame at h
  simp only at h
  split at h
  · next err hd =>
    cases h
    exact decode_short hid hd
  · split_ifs at h
    cases h
    decide

/-! ### Messages -/

/-- A message whose session item, if it has one, is a frame or a room within the
limits. -/
def Readable (msg : Msg Id) : Prop :=
  ∀ item size, msg = .session item size → ∃ x : Sent Id, x.Fits ∧ x.item = item

theorem readable_pushFrame {f : ServerFrame Id} (h : (Sent.event f).Fits) :
    Readable (pushFrame f.encode : Msg Id) := by
  intro item size heq
  cases heq
  exact ⟨.event f,h,rfl⟩

theorem readable_error (c : ℕ) (topic : Option Topic) {reason : String}
    (h : (utf8 reason).length ≤ maxPublishLen+1024) :
    Readable (error c topic reason : Send Id).msg := by
  apply readable_pushFrame
  have hmax : maxFrameLen = maxPublishLen+65536 := rfl
  simp only [Sent.Fits,ServerFrame.encode,FrameCodec.encode_length,List.length_append,
    (topic.getD Topic.zero).length_eq]
  omega

theorem readable_skipMalformed (c : ℕ) (tag : UInt8) {err : String} (h : Short err) :
    Readable (skipMalformed c tag err : Send Id).msg := by
  apply readable_error
  have hhex := utf8_hexByte tag
  have hhead : (utf8 "malformed frame 0x").length = 18 := by decide
  have hcolon : (utf8 ": ").length = 2 := by decide
  unfold Short at h
  simp only [utf8_append,List.length_append,hhead,hcolon]
  omega

theorem readable_deliver (lane : Lane) (frame : Deliver) : Readable (.deliver lane frame : Msg Id) := by
  intro item size heq
  cases heq

theorem readable_datagram (datagram : Bytes) : Readable (.datagram datagram : Msg Id) := by
  intro item size heq
  cases heq

/-! ### Steps -/

variable {F : Type} [DecidableEq Id] {limits : Limits F} {r : Rooms Id} {c : ℕ} {conn : Conn Id F}

theorem readable_join {t : Topic} {h : Handle Id} {conns : ℕ → Option (Conn Id F)}
    (hf : r.isFull t h.peer = false) (hok : RoomsOk r) (hslots : SlotsOk r conns)
    (hmax : r.maxMembers ≤ maxMembersPerTopic) : ∀ m ∈ r.joinSends t h, Readable m.msg := by
  intro m hm
  rcases List.mem_cons.mp hm with rfl | hm
  · intro item size heq
    cases heq
    refine ⟨.room t _,⟨?_,?_⟩,rfl⟩
    · rw [List.length_map]
      exact (List.length_filter_le _ _).trans ((joined_length t hf hok).2.trans hmax)
    · intro m hm
      obtain ⟨x,hx,rfl⟩ := List.mem_map.mp hm
      obtain ⟨hmem,hne⟩ := List.mem_filter.mp hx
      have hlookup : (r.joined t h).lookup x.1 = some x.2 := AList.mem_lookup_iff.mpr hmem
      rw [Rooms.lookup_joined_ne _ _ _ (by simpa using hne)] at hlookup
      exact (hslots t x.1 x.2 hlookup).blob
  · refine forall_toOthers (readable_pushFrame (f := .joined t h.peer) ?_) _ _ m hm
    simp only [Sent.Fits,ServerFrame.encode,FrameCodec.encode_length,List.length_append,t.length_eq,
      EndpointKey.asBytes_length]
    decide

theorem readable_leave (t : Topic) : ∀ m ∈ (leaveTopic r c conn t).sends, Readable m.msg := by
  rcases leaveTopic_cases r c conn t with ⟨-,heq⟩ | ⟨-,room,-,heq⟩
  · rw [heq]
    nofun
  · rw [heq]
    refine forall_toOthers (readable_pushFrame (f := .left t conn.peer) ?_) _ _
    simp only [Sent.Fits,ServerFrame.encode,FrameCodec.encode_length,List.length_append,t.length_eq,
      EndpointKey.asBytes_length]
    decide

theorem readable_announce {t : Topic} {blob : Bytes} (hb : blob.length ≤ maxAnnounceLen) :
    ∀ m ∈ (announceRoom r c conn t blob).sends, Readable m.msg := by
  rcases announceRoom_cases r c conn t blob with ⟨-,heq⟩ | ⟨-,room,slot,-,-,-,heq⟩
  · rw [heq]
    nofun
  · rw [heq]
    refine forall_toOthers (readable_pushFrame (f := .presence t conn.peer blob) ?_) _ _
    have hmax := maxFrameLen_eq
    simp only [Sent.Fits,ServerFrame.encode,FrameCodec.encode_length,List.length_append,t.length_eq,
      EndpointKey.asBytes_length]
    unfold maxAnnounceLen at hb
    omega

theorem readable_carried {h : Handle Id} {lane : Lane} {p : Publish Id} {sends : List (Send Id)}
    (hcarried : Carried r c h lane p sends) : ∀ m ∈ sends, Readable m.msg := by
  cases hcarried with
  | notSubscribed | noSuchRecipient =>
      intro m hm
      rw [List.mem_singleton.mp hm]
      exact readable_error _ _ (by decide)
  | toAll room => exact forall_toOthers (readable_deliver _ _) _ _
  | toOne recipient slot =>
      intro m hm
      rw [List.mem_singleton.mp hm]
      exact readable_deliver _ _

variable [Scalar F]

omit [EndpointKey Id] in
theorem refusal_short {t : Topic} {now : ℕ} {reason : String}
    (h : refusal limits r conn t now = some reason) : (utf8 reason).length ≤ 64 := by
  unfold refusal at h
  split_ifs at h <;> cases h <;> decide

omit [EndpointKey Id] [DecidableEq Id] [Scalar F] in
theorem frameRefusal_short {f : ClientFrame Id} {reason : String}
    (h : frameRefusal conn f = some reason) : (utf8 reason).length ≤ 64 := by
  cases f with
  | announce topic blob =>
      simp only [frameRefusal] at h
      split_ifs at h <;> cases h <;> decide
  | publish | publishTo =>
      cases h
      decide
  | subscribe | unsubscribe => cases h

/-- Whatever a connection's task sends is readable. -/
theorem perform_readable {conns : ℕ → Option (Conn Id F)} {a : Act Id} {e : Effect Id F}
    (hid : ShortErrors Id) (hmax : r.maxMembers ≤ maxMembersPerTopic) (hok : RoomsOk r)
    (hslots : SlotsOk r conns) (hb : BlobFits conn.session)
    (h : perform limits r c conn a = some e) : ∀ m ∈ e.sends, Readable m.msg := by
  have hone : ∀ {x : Send Id}, Readable x.msg → ∀ m ∈ [x], Readable m.msg := by
    intro x hx m hm
    rwa [List.mem_singleton.mp hm]
  cases perform_ran h with
  | malformed err hidle hd => exact hone (readable_skipMalformed c _ (decode_short hid hd))
  | laneMalformed lane err hl hlane hd =>
      exact hone (readable_skipMalformed c _ (decodeLaneFrame_short hid hd))
  | subscribeRefused t reason b hidle hd ht hr =>
      exact hone (readable_error c _ ((refusal_short hr).trans (by decide)))
  | frameRefused f reason hidle hd hr =>
      exact hone (readable_error c _ ((frameRefusal_short hr).trans (by decide)))
  | announceDenied | laneTooLarge | laneNotSubscribed | laneDenied =>
      exact hone (readable_error c _ (by decide))
  | joined t b hidle hd ht hr =>
      refine readable_join (h := ⟨conn.peer,c⟩) ?_ hok hslots hmax
      unfold refusal at hr
      split_ifs at hr with hzero hmany hrate hfull
      simpa using hfull
  | unsubscribed t | leaveNext t => exact readable_leave t
  | announceRoom t blob hs =>
      rw [hs] at hb
      exact readable_announce hb
  | laneRoom lane p sends hl hcarried => exact readable_carried hcarried
  | datagramRoom datagram failed hd =>
      intro m hm
      obtain ⟨d,-,rfl⟩ := List.mem_map.mp hm
      exact readable_datagram datagram
  | _ => exact List.forall_mem_nil _

/-! ### Every run -/

variable {s s' : State Id F}

/-- Everything on the session queues can be read. -/
structure AllReadable (limits : Limits F) (s : State Id F) : Prop where
  ok : Invariant limits s
  queued : ∀ c, ∀ q ∈ (s.outs c).session.sent, ∃ x : Sent Id, x.Fits ∧ x.item = q.item

theorem step_readable {a : Action Id} (hid : ShortErrors Id)
    (hmax : limits.maxMembersPerTopic ≤ maxMembersPerTopic) (hr : AllReadable limits s)
    (hs : step limits s a = some s') : AllReadable limits s' := by
  refine ⟨step_invariant hr.ok hs,?_⟩
  intro d q hq
  cases a with
  | connect peer now =>
      cases hs
      by_cases hd : d = s.next
      · subst hd
        simp [State.connect,Outbound.new,Log.empty] at hq
      · rw [State.connect_outs_of_ne _ _ _ _ hd] at hq
        exact hr.queued d q hq
  | drain c w =>
      obtain ⟨out,hout,rfl⟩ := step_drain hs
      by_cases hd : d = c
      · subst hd
        simp only [Function.update_self,(drain_spec hout).2.1] at hq
        exact hr.queued d q hq
      · simp only [Function.update_of_ne hd] at hq
        exact hr.queued d q hq
  | rehash topic room =>
      obtain ⟨old,-,-,rfl⟩ := step_rehash hs
      exact hr.queued d q hq
  | act c act =>
      obtain ⟨conn,e,hc,he,rfl⟩ := step_act hs
      rw [State.apply_outs] at hq
      obtain ⟨l,hl,hsub⟩ := acceptAll_sublist (s.outs d) (sendsTo d e.sends)
      rw [hl] at hq
      rcases List.mem_append.mp hq with hq | hq
      · exact hr.queued d q hq
      · have hlimit : s.rooms.maxMembers ≤ maxMembersPerTopic := by
          rw [hr.ok.maxMembers]
          exact Nat.max_le.mpr ⟨hmax,by decide⟩
        have hsends := perform_readable hid hlimit hr.ok.rooms hr.ok.slots
          (hr.ok.conns c conn hc).blob he
        obtain ⟨msg,hmsg,hitem⟩ := List.mem_flatMap.mp (hsub.subset hq)
        obtain ⟨m,hm,rfl⟩ := List.mem_map.mp hmsg
        have hread := hsends m (List.mem_filter.mp hm).1
        cases hbody : m.msg with
        | session item size =>
            rw [hbody,Msg.sessionItem,List.mem_singleton] at hitem
            rw [hitem]
            exact hread item size hbody
        | deliver lane frame =>
            rw [hbody] at hitem
            cases hitem
        | datagram bytes =>
            rw [hbody] at hitem
            cases hitem

/-- In every run the items of a session queue are frames and rooms a client can read. -/
theorem run_readable {as : List (Action Id)} (hid : ShortErrors Id)
    (hmax : limits.maxMembersPerTopic ≤ maxMembersPerTopic)
    (h : exec (step limits) (State.init limits) as = some s) : AllReadable limits s :=
  exec_invariant (step limits) (fun _ _ _ hr hs => step_readable hid hmax hr hs)
    ⟨init_invariant limits,fun _ _ hq => by cases hq⟩ h

end

end KeepTalkingSfu.QueuedFrames
