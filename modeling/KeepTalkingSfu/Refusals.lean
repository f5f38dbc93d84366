import KeepTalkingSfu.SlotOwnership

/-!
# Refused input has no other effect

A frame or datagram takes up to three steps of its reader, with steps of any
other task in between. Every one of them but the last is silent, and the last
one either sends a single ERROR and changes nothing, or is the operation under
the shard lock, which sends no ERROR and does nothing in a room the connection
has no slot in.
-/
namespace KeepTalkingSfu.Refusals
open ByteTransport WireFormat FrameCodec StreamWriters LaneStream MemberQueues RoomTable
  TokenBucket Server StepCases ServerEffects RoomInvariant TaskSteps SlotOwnership InterleavedRuns

/-! ### Frames under way -/

section
variable {Id F : Type}

/-- The frame or datagram a reader has in hand between two steps, by the topic
it is about. -/
def underWay (conn : Conn Id F) : Task → Option (Option Topic)
  | .session =>
      match conn.session with
      | .reading => none
      | .announceChecked topic _ _ | .announceGranted topic _ => some (some topic)
  | .lane stream =>
      match conn.lanes stream with
      | some ⟨_,.checked p⟩ | some ⟨_,.granted p⟩ => some (some p.topic)
      | _ => none
  | .datagram => conn.datagram.map fun datagram => (splitDatagram datagram).map Prod.fst

theorem underWay_kept {τ : Task} {τ' : Option Task} {conn conn' : Conn Id F} (hne : τ' ≠ some τ)
    (h : Kept τ' conn conn') : underWay conn' τ = underWay conn τ := by
  cases τ with
  | session => simp only [underWay,h.session hne]
  | datagram => simp only [underWay,h.datagram hne]
  | lane stream =>
      rcases h.lanes stream hne with heq | ⟨hnone,lane,hnew⟩
      · simp only [underWay,heq]
      · simp only [underWay,hnone,hnew]

theorem underWay_next (conn : Conn Id F) (stream : ℕ) (l : LaneReader Id) :
    underWay (conn.setLane stream l.next) (.lane stream) = none := by
  simp only [underWay,setLane_self,LaneReader.next]
  split_ifs <;> rfl

variable [EndpointKey Id]

/-- The topic of a frame or datagram, if it has one. -/
def about : Act Id → Option Topic
  | .sessionFrame tag body _ | .laneFrame _ tag body =>
      (ClientFrame.decode tag body : Except String (ClientFrame Id)).toOption.map ClientFrame.topic
  | .datagramIn datagram _ => (splitDatagram datagram).map Prod.fst
  | _ => none

/-- The step is the handling of a SUBSCRIBE. -/
def isSubscribe : Act Id → Bool
  | .sessionFrame tag body _ =>
      match (ClientFrame.decode tag body : Except String (ClientFrame Id)) with
      | .ok (.subscribe _) => true
      | _ => false
  | _ => false

theorem isSubscribe_begins {a : Act Id} (h : begins a = false) : isSubscribe a = false := by
  cases a with
  | sessionFrame tag body now => cases h
  | _ => rfl

/-- The step takes the shard lock to carry its frame or datagram out. -/
def carriesOut : Act Id → Bool
  | .sessionFrame tag body _ =>
      match (ClientFrame.decode tag body : Except String (ClientFrame Id)) with
      | .ok (.subscribe _) | .ok (.unsubscribe _) => true
      | _ => false
  | .announceRoom | .laneRoom _ | .datagramRoom _ => true
  | _ => false

def isError (q : Queued (SessionItem Id)) : Bool :=
  match readBack q.item with
  | some (.error _ _) => true
  | _ => false

/-- A message that no client reads as an ERROR. -/
def NoError (msg : Msg Id) : Prop := ∀ q ∈ msg.sessionItem, isError q = false

theorem noError_pushFrame {f : ServerFrame Id}
    (hf : ∀ topic more members, f ≠ .snapshot topic more members)
    (hn : ∀ topic reason, f ≠ .error topic reason) : NoError (pushFrame f.encode : Msg Id) := by
  intro q hq
  rw [List.mem_singleton.mp hq,isError,readBack_encode f hf]
  cases f with
  | error topic reason => exact absurd rfl (hn topic reason)
  | _ => rfl

theorem noError_left (t : Topic) (p : Id) :
    NoError (pushFrame (ServerFrame.left t p : ServerFrame Id).encode : Msg Id) :=
  noError_pushFrame nofun nofun

theorem noError_presence (t : Topic) (p : Id) (blob : Bytes) :
    NoError (pushFrame (ServerFrame.presence t p blob : ServerFrame Id).encode : Msg Id) :=
  noError_pushFrame nofun nofun

theorem noError_deliver (lane : Lane) (frame : Deliver) : NoError (.deliver lane frame : Msg Id) :=
  nofun

end

/-! ### One step -/

section
variable {Id F : Type} [DecidableEq Id] [EndpointKey Id]

/-- What a step of a reader does with a frame about `topic`; `under` is what the
reader has in hand afterwards. -/
inductive Outcome (r : Rooms Id) (c : ℕ) (conn : Conn Id F) (a : Act Id) (topic : Option Topic)
    (e : Effect Id F) (under : Option (Option Topic)) : Prop
  | silent : e.rooms = r → e.conn.subscribed = conn.subscribed → e.sends = [] →
      (under = none ∨ under = some topic) → Outcome r c conn a topic e under
  | refused (about : Option Topic) (reason : String) : e.rooms = r →
      e.conn.subscribed = conn.subscribed → e.sends = [error c about reason] → under = none →
      Outcome r c conn a topic e under
  | carriedOut : carriesOut a = true → (∀ m ∈ e.sends, NoError m.msg) →
      (∀ t, topic = some t → isSubscribe a = false → r.isMember t ⟨conn.peer,c⟩ = false →
        e.rooms = r ∧ e.sends = []) → under = none → Outcome r c conn a topic e under

variable {limits : Limits F} {r : Rooms Id} {c : ℕ} {conn : Conn Id F}

/-- In a room the connection has its slot in, only the absence of ERRORs is left
to show. -/
theorem Outcome.member {a : Act Id} {t : Topic} {e : Effect Id F} {under : Option (Option Topic)}
    (hm : r.isMember t ⟨conn.peer,c⟩ = true) (ha : carriesOut a = true)
    (hsends : ∀ m ∈ e.sends, NoError m.msg) (hunder : under = none) :
    Outcome r c conn a (some t) e under := by
  refine .carriedOut ha hsends ?_ hunder
  intro t' ht _ hn
  cases ht
  rw [hm] at hn
  cases hn

theorem Outcome.nothing {a : Act Id} {topic : Option Topic} {e : Effect Id F}
    {under : Option (Option Topic)} (ha : carriesOut a = true) (hrooms : e.rooms = r)
    (hsends : e.sends = []) (hunder : under = none) : Outcome r c conn a topic e under := by
  refine .carriedOut ha ?_ (fun _ _ _ _ => ⟨hrooms,hsends⟩) hunder
  rw [hsends]
  nofun

theorem leaveTopic_outcome {a : Act Id} {t : Topic} (ha : carriesOut a = true)
    (hs : conn.session = .reading) :
    Outcome r c conn a (some t) (leaveTopic r c conn t)
      (underWay (leaveTopic r c conn t).conn .session) := by
  have hunder : underWay (leaveTopic r c conn t).conn .session = none := by
    simp only [leaveTopic,underWay,hs]
  rcases leaveTopic_cases r c conn t with ⟨-,heq⟩ | ⟨hm,room,-,heq⟩
  · rw [heq] at hunder ⊢
    exact .nothing ha rfl rfl hunder
  · rw [heq] at hunder ⊢
    exact .member hm ha (forall_toOthers (noError_left t conn.peer) _ _) hunder

theorem announceRoom_outcome (t : Topic) (blob : Bytes) :
    Outcome r c conn .announceRoom (some t) (announceRoom r c conn t blob)
      (underWay (announceRoom r c conn t blob).conn .session) := by
  rcases announceRoom_cases r c conn t blob with ⟨-,heq⟩ | ⟨hm,room,slot,-,-,-,heq⟩
  · rw [heq]
    exact .nothing rfl rfl rfl rfl
  · rw [heq]
    exact .member hm rfl (forall_toOthers (noError_presence t conn.peer blob) _ _) rfl

theorem carried_outcome {stream : ℕ} {conn' : Conn Id F} {lane : Lane} {p : Publish Id}
    {sends : List (Send Id)} {under : Option (Option Topic)}
    (h : Carried r c ⟨conn.peer,c⟩ lane p sends) (hsubs : conn'.subscribed = conn.subscribed)
    (hunder : under = none) :
    Outcome r c conn (.laneRoom stream) (some p.topic) ⟨r,conn',sends⟩ under := by
  cases h with
  | notSubscribed => exact .refused (some p.topic) _ rfl hsubs rfl hunder
  | noSuchRecipient => exact .refused (some p.topic) _ rfl hsubs rfl hunder
  | toAll room hm =>
      exact .member hm rfl (forall_toOthers (noError_deliver lane p.deliver) room conn.peer) hunder
  | toOne recipient slot hm =>
      exact .member hm rfl (List.forall_mem_singleton.mpr (noError_deliver lane p.deliver)) hunder

theorem noError_joinSends (t : Topic) (h : Handle Id) :
    ∀ m ∈ r.joinSends t h, NoError m.msg := by
  intro m hm
  rcases List.mem_cons.mp hm with rfl | hm
  · intro q hq
    rw [List.mem_singleton.mp hq]
    rfl
  · exact forall_toOthers (noError_pushFrame (f := .joined t h.peer) nofun nofun) _ _ m hm

omit [DecidableEq Id] in
theorem about_publication {stream : ℕ} {tag : UInt8} {body : Bytes} {p : Publish Id}
    (h : publication tag body = some p) :
    about (.laneFrame stream tag body : Act Id) = some p.topic := by
  unfold publication at h
  split at h
  · cases h
  · next f topicBytes hd =>
    obtain ⟨⟨topic,recipient,payload⟩,hparts,h⟩ := Option.bind_eq_some_iff.mp h
    simp only at h
    split_ifs at h
    cases h
    unfold decodeLaneFrame at hd
    split at hd
    · cases hd
    · next g hg =>
      split_ifs at hd
      cases hd
      simp only [about,hg]
      cases f <;> cases hparts <;> rfl

section
variable [Scalar F]

/-- What the reader has in hand when the step is taken. -/
def inHand (conn : Conn Id F) (τ : Task) (a : Act Id) : Option (Option Topic) :=
  if begins a then some (about a) else underWay conn τ

/-- A reader only goes on with a frame that is under way, and every step of it
has one of the three outcomes. -/
theorem perform_outcome {a : Act Id} {e : Effect Id F} {τ : Task} (hτ : task a = some τ)
    (h : perform limits r c conn a = some e) :
    ∃ topic, inHand conn τ a = some topic ∧
      Outcome r c conn a topic e (underWay e.conn τ) := by
  cases perform_ran h with
  | endSession | leaveNext | finish | openLane => cases hτ
  | malformed err hidle | frameRefused f reason hidle | subscribeRefused t reason b hidle =>
      cases hτ
      exact ⟨_,rfl,.refused _ _ rfl rfl rfl (by simp only [underWay,hidle.reading])⟩
  | alreadySubscribed t hidle | notSubscribed t hidle =>
      cases hτ
      exact ⟨_,rfl,.silent rfl rfl rfl (.inl (by simp only [underWay,hidle.reading]))⟩
  | joined t b hidle hd ht hr =>
      cases hτ
      refine ⟨_,rfl,.carriedOut (by simp only [carriesOut,hd]) (noError_joinSends t _) ?_
        (by simp only [underWay,hidle.reading])⟩
      intro _ _ hsub
      simp only [isSubscribe,hd] at hsub
      cases hsub
  | unsubscribed t hidle hd ht =>
      cases hτ
      refine ⟨some t,by simp only [inHand,begins,about,hd]; rfl,?_⟩
      exact leaveTopic_outcome (by simp only [carriesOut,hd]) hidle.reading
  | announceChecked t blob hidle hd =>
      cases hτ
      exact ⟨some t,by simp only [inHand,begins,about,hd]; rfl,.silent rfl rfl rfl (.inr rfl)⟩
  | announceGranted t blob frameLen hs =>
      cases hτ
      exact ⟨some t,by simp [inHand,begins,underWay,hs],.silent rfl rfl rfl (.inr rfl)⟩
  | announceDenied t blob frameLen hs =>
      cases hτ
      exact ⟨some t,by simp [inHand,begins,underWay,hs],.refused _ _ rfl rfl rfl rfl⟩
  | announceRoom t blob hs =>
      cases hτ
      exact ⟨some t,by simp [inHand,begins,underWay,hs],announceRoom_outcome t blob⟩
  | laneMalformed | laneTooLarge | laneNotSubscribed =>
      cases hτ
      exact ⟨_,rfl,.refused _ _ rfl rfl rfl (underWay_next conn _ _)⟩
  | laneStopped =>
      cases hτ
      exact ⟨_,rfl,.silent rfl rfl rfl (.inl (by simp only [underWay,setLane_self]))⟩
  | laneChecked lane p hl hpub =>
      cases hτ
      refine ⟨_,rfl,.silent rfl rfl rfl (.inr ?_)⟩
      simp only [underWay,setLane_self,about_publication hpub]
  | laneGranted lane p hl =>
      cases hτ
      refine ⟨some p.topic,by simp [inHand,begins,underWay,hl],.silent rfl rfl rfl (.inr ?_)⟩
      simp only [underWay,setLane_self]
  | laneDenied lane p hl =>
      cases hτ
      exact ⟨some p.topic,by simp [inHand,begins,underWay,hl],
        .refused _ _ rfl rfl rfl (underWay_next _ _ _)⟩
  | laneRoom lane p sends hl hcarried =>
      cases hτ
      exact ⟨some p.topic,by simp [inHand,begins,underWay,hl],
        carried_outcome hcarried rfl (underWay_next _ _ _)⟩
  | datagramIn datagram now hd =>
      cases hτ
      refine ⟨_,rfl,.silent rfl rfl rfl ?_⟩
      simp only [datagramIn,underWay,about]
      cases (conn.datagramRate.tryTake datagram.length now).1 <;> simp
  | datagramRoom datagram failed hd =>
      cases hτ
      refine ⟨_,by simp only [inHand,begins,underWay,hd]; rfl,.carriedOut rfl ?_ ?_ rfl⟩
      · intro m hm
        obtain ⟨d,-,rfl⟩ := List.mem_map.mp hm
        intro t hnone
        cases hnone
      · intro t ht _ hn
        obtain ⟨x,hx,rfl⟩ := Option.map_eq_some_iff.mp ht
        refine ⟨rfl,?_⟩
        simp [datagramRoom,hx,r.datagramTargets_other x.1 _ hn]

end

/-! ### What a step adds to the queues -/

/-- What a step queued on a connection's session stream. -/
def queuedBy (c : ℕ) (x : Taken (State Id F) (Action Id)) : List (Queued (SessionItem Id)) :=
  (x.after.outs c).session.sent.drop (x.before.outs c).session.sent.length

/-- How many ERRORs a step queued to a connection. -/
def errors (c : ℕ) (x : Taken (State Id F) (Action Id)) : ℕ := (queuedBy c x).countP isError

/-- The step changed no room, and nothing on its way to another connection. -/
structure Untouched (c : ℕ) (x : Taken (State Id F) (Action Id)) : Prop where
  rooms : x.after.rooms = x.before.rooms
  others : ∀ d, d ≠ c → x.after.outs d = x.before.outs d

variable {s : State Id F} {a : Act Id} {e : Effect Id F}

omit [DecidableEq Id] [EndpointKey Id] in
theorem queuedBy_sublist (s : State Id F) (c : ℕ) (a : Act Id) (e : Effect Id F) :
    (queuedBy c ⟨.act c a,s,s.apply c e⟩).Sublist
      ((sendsTo c e.sends).flatMap Msg.sessionItem) := by
  obtain ⟨l,hl,hsub⟩ := acceptAll_sublist (s.outs c) (sendsTo c e.sends)
  simp only [queuedBy,State.apply_outs,hl,List.drop_left]
  exact hsub

omit [DecidableEq Id] in
theorem errors_eq_zero (h : ∀ m ∈ e.sends, NoError m.msg) :
    errors c ⟨.act c a,s,s.apply c e⟩ = 0 := by
  rw [errors,List.countP_eq_zero]
  intro q hq
  obtain ⟨msg,hmsg,hitem⟩ := List.mem_flatMap.mp ((queuedBy_sublist s c a e).subset hq)
  obtain ⟨m,hm,rfl⟩ := List.mem_map.mp hmsg
  rw [h m (List.mem_of_mem_filter hm) q hitem]
  exact Bool.false_ne_true

omit [DecidableEq Id] in
theorem errors_le_one {about : Option Topic} {reason : String}
    (h : e.sends = [error c about reason]) : errors c ⟨.act c a,s,s.apply c e⟩ ≤ 1 := by
  apply List.countP_le_length.trans
  apply (queuedBy_sublist s c a e).length_le.trans
  rw [h]
  simp [sendsTo,error,pushFrame,Msg.sessionItem]

omit [DecidableEq Id] [EndpointKey Id] in
theorem untouched_apply (hrooms : e.rooms = s.rooms) (hsends : ∀ m ∈ e.sends, m.target = c) :
    Untouched c ⟨.act c a,s,s.apply c e⟩ := by
  refine ⟨hrooms,?_⟩
  intro d hd
  have hnone : sendsTo d e.sends = [] := by
    rw [sendsTo,List.filter_eq_nil_iff.mpr,List.map_nil]
    intro m hm
    rw [hsends m hm]
    simpa using Ne.symm hd
  simp only [State.apply_outs,hnone,acceptAll_nil]

/-! ### A frame from its first step on -/

/-- The steps a reader takes for one frame: silent ones, and at most one that is
not, at the end. -/
inductive Handled (c : ℕ) (topic : Option Topic) (sub : Bool) :
    List (Taken (State Id F) (Action Id)) → Prop
  | nil : Handled c topic sub []
  | silent {x : Taken (State Id F) (Action Id)} {xs : List (Taken (State Id F) (Action Id))} :
      Untouched c x → topics x.after c = topics x.before c → errors c x = 0 →
      Handled c topic sub xs → Handled c topic sub (x::xs)
  | refused {x : Taken (State Id F) (Action Id)} :
      Untouched c x → topics x.after c = topics x.before c → errors c x ≤ 1 →
      Handled c topic sub [x]
  | carriedOut {x : Taken (State Id F) (Action Id)} (a : Act Id) : x.label = .act c a →
      carriesOut a = true → errors c x = 0 →
      (∀ t, topic = some t → sub = false → holdsSlot x.before c t = false → Untouched c x) →
      Handled c topic sub [x]

theorem Outcome.under {topic : Option Topic} {under : Option (Option Topic)}
    (h : Outcome r c conn a topic e under) : under = none ∨ under = some topic := by
  cases h with
  | silent _ _ _ hunder => exact hunder
  | refused _ _ _ _ _ hunder => exact .inl hunder
  | carriedOut _ _ _ hunder => exact .inl hunder

theorem Outcome.handled {topic : Option Topic} {under : Option (Option Topic)} {sub : Bool}
    {rest : List (Taken (State Id F) (Action Id))} (h : Outcome s.rooms c conn a topic e under)
    (hc : s.conns c = some conn) (hsub : sub = false → isSubscribe a = false)
    (hrest : Handled c topic sub rest) (hend : under = none → rest = []) :
    Handled c topic sub (⟨.act c a,s,s.apply c e⟩::rest) := by
  have htopics : e.conn.subscribed = conn.subscribed → topics (s.apply c e) c = topics s c := by
    intro heq
    rw [topics_of_conn hc,topics_of_conn (State.apply_conns_self s c e),heq]
  cases h with
  | silent hrooms hsubs hsends hunder =>
      have hnone : ∀ m ∈ e.sends, m.target = c ∧ NoError m.msg := by
        rw [hsends]
        nofun
      exact .silent (untouched_apply hrooms fun m hm => (hnone m hm).1) (htopics hsubs)
        (errors_eq_zero fun m hm => (hnone m hm).2) hrest
  | refused about reason hrooms hsubs hsends hunder =>
      rw [hend hunder]
      refine .refused (untouched_apply hrooms ?_) (htopics hsubs) (errors_le_one hsends)
      intro m hm
      rw [hsends] at hm
      rw [List.mem_singleton.mp hm]
      rfl
  | carriedOut ha hsends hother hunder =>
      rw [hend hunder]
      refine .carriedOut a rfl ha (errors_eq_zero hsends) ?_
      intro t ht hn hslot
      rw [holdsSlot_of_conn hc] at hslot
      obtain ⟨hrooms,hnone⟩ := hother t ht (hsub hn) hslot
      apply untouched_apply hrooms
      rw [hnone]
      nofun

theorem Handled.errors {topic : Option Topic} {sub : Bool}
    {xs : List (Taken (State Id F) (Action Id))} (h : Handled c topic sub xs)
    (hpos : 0 < (xs.map (errors c)).sum) : (xs.map (errors c)).sum = 1 ∧
      ∀ x ∈ xs, Untouched c x ∧ topics x.after c = topics x.before c := by
  induction h with
  | nil => cases hpos
  | silent hx hsubs hzero hxs ih =>
      rw [List.map_cons,List.sum_cons,hzero,Nat.zero_add] at hpos ⊢
      obtain ⟨hsum,hrest⟩ := ih hpos
      exact ⟨hsum,List.forall_mem_cons.mpr ⟨⟨hx,hsubs⟩,hrest⟩⟩
  | refused hx hsubs hone =>
      rw [List.map_singleton,List.sum_singleton] at hpos ⊢
      exact ⟨Nat.le_antisymm hone hpos,List.forall_mem_singleton.mpr ⟨hx,hsubs⟩⟩
  | carriedOut b hlabel hb hzero =>
      rw [List.map_singleton,List.sum_singleton,hzero] at hpos
      cases hpos

theorem Handled.withoutSlot {t : Topic} {xs : List (Taken (State Id F) (Action Id))}
    (h : Handled c (some t) false xs)
    (hslot : ∀ x ∈ xs, ∀ b, x.label = .act c b → carriesOut b = true →
      holdsSlot x.before c t = false) : ∀ x ∈ xs, Untouched c x := by
  induction h with
  | nil => nofun
  | silent hx hsubs hzero hxs ih =>
      exact List.forall_mem_cons.mpr ⟨hx,ih fun y hy => hslot y (List.mem_cons_of_mem _ hy)⟩
  | refused hx hsubs hone => exact List.forall_mem_singleton.mpr hx
  | carriedOut b hlabel hb hzero hother =>
      have hout := hslot _ List.mem_cons_self b hlabel hb
      exact List.forall_mem_singleton.mpr (hother t rfl rfl hout)

variable [Scalar F]

theorem taken_handled {t : State Id F} {post : List (Action Id)} {τ : Task} {topic : Option Topic}
    (sub : Bool) (hi : Invariant limits s) (hc : s.conns c = some conn)
    (hrun : exec (step limits) s post = some t)
    (hpost : ∀ a, .act c a ∈ post → task a = some τ → begins a = false)
    (hunder : underWay conn τ = none ∨ underWay conn τ = some topic) :
    Handled c topic sub (taken (step limits) (ofTask c τ) s post) ∧
      (underWay conn τ = none → taken (step limits) (ofTask c τ) s post = []) := by
  induction post generalizing s conn with
  | nil => exact ⟨.nil,fun _ => rfl⟩
  | cons b post ih =>
      obtain ⟨s',hb,hrun⟩ := (exec_cons_eq_some _).mp hrun
      have hpost' : ∀ a, .act c a ∈ post → task a = some τ → begins a = false :=
        fun a ha => hpost a (List.mem_cons_of_mem _ ha)
      rw [taken_cons _ _ hb]
      cases hown : ofTask c τ b with
      | false =>
          obtain ⟨conn',hc',-,hkept⟩ := step_kept hi hb hc
          obtain ⟨τ',hne,hkept⟩ := hkept τ hown
          rw [← underWay_kept hne hkept] at hunder ⊢
          exact ih (step_invariant hi hb) hc' hrun hpost' hunder
      | true =>
          obtain ⟨a,e,rfl,hτ,he,rfl⟩ := own_step hown hb hc
          have hbegin := hpost a List.mem_cons_self hτ
          obtain ⟨topic',hhand,hout⟩ := perform_outcome hτ he
          simp only [inHand,hbegin,Bool.false_eq_true,if_false] at hhand
          rw [hhand] at hunder
          obtain rfl : topic' = topic := by simpa using hunder
          refine ⟨?_,fun hnone => by rw [hhand] at hnone; cases hnone⟩
          obtain ⟨hrest,hend⟩ := ih (step_invariant hi hb) (State.apply_conns_self s c e) hrun
            hpost' hout.under
          exact hout.handled hc (fun _ => isSubscribe_begins hbegin) hrest hend

/-- The steps taken for the frame or datagram that `a` begins. -/
def frameSteps (limits : Limits F) (c : ℕ) (τ : Task) (s : State Id F) (a : Act Id)
    (post : List (Action Id)) : List (Taken (State Id F) (Action Id)) :=
  taken (step limits) (ofTask c τ) s (.act c a::post)

theorem frameSteps_handled {pre post : List (Action Id)} {s₀ : State Id F} {τ : Task}
    (hpre : exec (step limits) (State.init limits) pre = some s₀)
    (hrun : exec (step limits) s₀ (.act c a::post) = some s)
    (hτ : task a = some τ) (hbegin : begins a = true)
    (hpost : ∀ b, .act c b ∈ post → task b = some τ → begins b = false) :
    Handled c (about a) (isSubscribe a) (frameSteps limits c τ s₀ a post) := by
  have hi := run_invariant hpre
  obtain ⟨s₁,hb,hrun⟩ := (exec_cons_eq_some _).mp hrun
  have hown : ofTask c τ (.act c a) = true := by simp [ofTask,hτ]
  rw [frameSteps,taken_cons _ _ hb,hown,if_pos rfl,List.singleton_append]
  obtain ⟨conn,e,hc,he,rfl⟩ := step_act hb
  obtain ⟨topic,hhand,hout⟩ := perform_outcome hτ he
  simp only [inHand,hbegin,if_true,Option.some.injEq] at hhand
  subst hhand
  obtain ⟨hrest,hend⟩ := taken_handled (isSubscribe a) (step_invariant hi hb)
    (State.apply_conns_self s₀ c e) hrun hpost hout.under
  exact hout.handled hc id hrest hend

/-- From any reachable state and whatever comes in between: a frame that has an
ERROR queued has exactly one, and changes no room, not the connection's set and
nothing on its way to anyone else; and a frame or datagram that is no SUBSCRIBE
does nothing if the connection has no slot in the topic's room when it is to be
carried out. -/
theorem refused_input_has_no_effect {pre post : List (Action Id)} {s₀ : State Id F} {τ : Task}
    (hpre : exec (step limits) (State.init limits) pre = some s₀)
    (hrun : exec (step limits) s₀ (.act c a::post) = some s)
    (hτ : task a = some τ) (hbegin : begins a = true)
    (hpost : ∀ b, .act c b ∈ post → task b = some τ → begins b = false) :
    (0 < ((frameSteps limits c τ s₀ a post).map (errors c)).sum →
      ((frameSteps limits c τ s₀ a post).map (errors c)).sum = 1 ∧
      ∀ x ∈ frameSteps limits c τ s₀ a post,
        Untouched c x ∧ topics x.after c = topics x.before c) ∧
    (∀ t, about a = some t → isSubscribe a = false →
      (∀ x ∈ frameSteps limits c τ s₀ a post, ∀ b, x.label = .act c b → carriesOut b = true →
        holdsSlot x.before c t = false) →
      ∀ x ∈ frameSteps limits c τ s₀ a post, Untouched c x) := by
  have hhandled := frameSteps_handled hpre hrun hτ hbegin hpost
  constructor
  · exact hhandled.errors
  · intro t ht hsub hslot
    rw [ht,hsub] at hhandled
    exact hhandled.withoutSlot hslot

end

/-- The publisher's endpoint connects twice; its first connection subscribes
and opens a stream. -/
def publisher : List (Action RawId) :=
  [.connect .base 0,.connect .base 0,.connect .identity 0,sends 1 (.subscribe (topicOf 7)) 0,
    sends 3 (.subscribe (topicOf 7)) 0,.act 1 (.openLane 0 .control)]

/-- The second connection takes the slot over after the check. -/
def takenOver : List (Action RawId) :=
  [sends 2 (.subscribe (topicOf 7)) 1,.act 1 (.laneRate 0 2),.act 1 (.laneRoom 0)]

theorem refused_input_has_no_effect_taken_over : ∃ s₀ s,
    exec (step .default) (State.init .default) publisher = some s₀ ∧
    exec (step .default) s₀ (.act 1 (publishes 0 (.publish (topicOf 7) [1]))::takenOver) = some s ∧
    ((frameSteps .default 1 (.lane 0) s₀ (publishes 0 (.publish (topicOf 7) [1]))
      takenOver).map (errors 1)).sum = 1 ∧
    ∀ x ∈ frameSteps .default 1 (.lane 0) s₀ (publishes 0 (.publish (topicOf 7) [1])) takenOver,
      Untouched 1 x ∧ topics x.after 1 = topics x.before 1 := by
  have hrun : (exec (step .default) (State.init .default) publisher).any (fun s₀ =>
      (exec (step .default) s₀
        (.act 1 (publishes 0 (.publish (topicOf 7) [1]))::takenOver)).any fun _ =>
          decide (0 < ((frameSteps .default 1 (.lane 0) s₀
            (publishes 0 (.publish (topicOf 7) [1])) takenOver).map (errors 1)).sum)) = true := by
    decide +kernel
  obtain ⟨s₀,hpre,hrun⟩ := (Option.any_eq_true _ _).mp hrun
  obtain ⟨s,hpost,herrors⟩ := (Option.any_eq_true _ _).mp hrun
  have heffect := refused_input_has_no_effect hpre hpost rfl rfl (by
    intro b hb hτ
    simp only [takenOver,sends,List.mem_cons,List.not_mem_nil,or_false] at hb
    rcases hb with hb | hb | hb <;> cases hb <;> rfl)
  exact ⟨s₀,s,hpre,hpost,heffect.1 (of_decide_eq_true herrors)⟩

end KeepTalkingSfu.Refusals
