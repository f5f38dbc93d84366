import KeepTalkingSfu.TaskSteps

/-!
# Every ANNOUNCE is settled

An ANNOUNCE goes through a check against the connection's own topics, the publish
rate and the room, in steps between which anything can happen. It is settled when
the blob is stored and told to the others, or when its sender is sent an ERROR.
The check and the room can disagree: another connection of the endpoint may have
taken the slot over, and then nothing is stored and nothing is said.
-/
namespace KeepTalkingSfu.Announcements
open ByteTransport WireFormat FrameCodec StreamWriters MemberQueues RoomTable TokenBucket Server StepCases
  ServerEffects RoomInvariant TaskSteps InterleavedRuns

section
variable {Id F : Type}

/-- What the connection's session reader has in hand. -/
def inHand (s : State Id F) (c : ℕ) : SessionTask := ((s.conns c).map Conn.session).getD .reading

theorem inHand_of_conn {s : State Id F} {c : ℕ} {conn : Conn Id F} (hc : s.conns c = some conn) :
    inHand s c = conn.session := by
  rw [inHand,hc]
  rfl

theorem inHand_apply (s : State Id F) (c : ℕ) (e : Effect Id F) :
    inHand (s.apply c e) c = e.conn.session := inHand_of_conn (State.apply_conns_self s c e)

/-- The step queued the frame to the connection's session stream. -/
def FrameQueued (s s' : State Id F) (d : ℕ) (frame : Bytes) : Prop :=
  (s'.outs d).session.sent = (s.outs d).session.sent++[⟨.frame frame,frame.length⟩]

theorem not_frameQueued_of_not_fits {s s' : State Id F} {d : ℕ} {frame : Bytes}
    (hout : s'.outs d = (s.outs d).accept (pushFrame frame))
    (hnot : ¬Fits (s.outs d) frame.length) (frame' : Bytes) : ¬FrameQueued s s' d frame' := by
  intro hsent
  rw [FrameQueued,hout] at hsent
  change ((s.outs d).pushSession _ _).session.sent = _ at hsent
  rw [pushSession_not_fits hnot] at hsent
  simp at hsent

theorem frameQueued_iff {s s' : State Id F} {d : ℕ} {frame : Bytes}
    (hout : s'.outs d = (s.outs d).accept (pushFrame frame)) :
    FrameQueued s s' d frame ↔ Fits (s.outs d) frame.length := by
  constructor
  · intro hqueued
    by_contra hnot
    exact not_frameQueued_of_not_fits hout hnot _ hqueued
  · intro hfits
    rw [FrameQueued,hout]
    exact pushSession_fits hfits _

theorem not_frameQueued {s s' : State Id F} {d : ℕ} (hout : s'.outs d = s.outs d) (frame : Bytes) :
    ¬FrameQueued s s' d frame := by
  rw [FrameQueued,hout]
  simp

variable [DecidableEq Id] [EndpointKey Id]

/-- The connection owns the endpoint's slot and the blob is stored in it. -/
def Stored (s : State Id F) (c : ℕ) (p : Id) (t : Topic) (blob : Bytes) : Prop :=
  ∃ slot, s.rooms.slot t p = some slot ∧ slot.handle.connId = c ∧ slot.blob = blob

/-- The step that ends the handling of an ANNOUNCE queues an ERROR naming its topic
to the sender, or leaves the blob stored and queues its PRESENCE to every other
member. -/
def Settled (s s' : State Id F) (c : ℕ) (p : Id) (t : Topic) (blob : Bytes) : Prop :=
  (∃ reason, FrameQueued s s' c (errorFrame Id (some t) reason)) ∨
  (Stored s' c p t blob ∧ ∀ q d, q ≠ p → s'.rooms.owner t q = some d →
    FrameQueued s s' d (ServerFrame.presence t p blob).encode)

/-- Nothing has to be said: the blob is stored already and nobody else is there. -/
def NothingToSay (s : State Id F) (c : ℕ) (p : Id) (t : Topic) (blob : Bytes) : Prop :=
  Stored s c p t blob ∧ ∀ q, q ≠ p → s.rooms.owner t q = none

/-- Before the step that ends the handling: a refusal fits the sender's session
queue, and an ANNOUNCE that was let through still finds the slot its connection's,
with room in the session queue of every other member. -/
def CanSettle (s : State Id F) (c : ℕ) (p : Id) (t : Topic) (blob : Bytes) : Prop :=
  match inHand s c with
  | .reading =>
      Fits (s.outs c) (errorFrame Id (some t)
        (if maxAnnounceLen < blob.length then Reason.announceTooLarge else Reason.notSubscribed)).length ∨
      NothingToSay s c p t blob
  | .announceChecked _ _ _ =>
      Fits (s.outs c) (errorFrame Id (some t) Reason.rateLimited).length ∨ NothingToSay s c p t blob
  | .announceGranted _ _ =>
      s.rooms.isMember t ⟨p,c⟩ = true ∧ ∀ q d, q ≠ p → s.rooms.owner t q = some d →
        Fits (s.outs d) (ServerFrame.presence t p blob).encode.length

variable [Scalar F]

/-- The session reader of `c` starts on a frame with step `b` in `s` and is done
with it after a step from `u` to `v`. -/
inductive Handles (limits : Limits F) (c : ℕ) (b : Action Id) (s : State Id F) :
    State Id F → State Id F → Prop
  | atOnce (v : State Id F) : step limits s b = some v → inHand v c = .reading →
      Handles limits c b s s v
  | later (s₁ u v : State Id F) (bs : List (Action Id)) (last : Action Id) :
      step limits s b = some s₁ → exec (step limits) s₁ bs = some u →
      Along (step limits) (fun w _ => inHand w c ≠ .reading) s₁ bs → inHand u c ≠ .reading →
      step limits u last = some v → inHand v c = .reading → Handles limits c b s u v

variable {limits : Limits F} {s s' : State Id F} {c : ℕ} {conn : Conn Id F} {t : Topic} {blob : Bytes}

/-! ### The last step -/

omit [Scalar F] in
/-- A refusal settles the ANNOUNCE if it is queued. -/
theorem refused_settled_iff (p : Id) (conn' : Conn Id F) (reason : String) :
    Settled s (s.apply c ⟨s.rooms,conn',[error c (some t) reason]⟩) c p t blob ↔
      Fits (s.outs c) (errorFrame Id (some t) reason).length ∨ NothingToSay s c p t blob := by
  set e : Effect Id F := ⟨s.rooms,conn',[error c (some t) reason]⟩ with he
  have hself : (s.apply c e).outs c = (s.outs c).accept (pushFrame (errorFrame Id (some t) reason)) := by
    rw [State.apply_outs]
    simp [he,sendsTo,error]
  have hother : ∀ d, d ≠ c → (s.apply c e).outs d = s.outs d := by
    intro d hd
    rw [State.apply_outs]
    simp [he,sendsTo,error,Ne.symm hd]
  have herror := frameQueued_iff hself
  constructor
  · rintro (⟨reason',hqueued⟩ | ⟨hstored,hothers⟩)
    · left
      by_contra hnot
      exact not_frameQueued_of_not_fits hself hnot _ hqueued
    · by_cases hfits : Fits (s.outs c) (errorFrame Id (some t) reason).length
      · exact .inl hfits
      · right
        refine ⟨hstored,?_⟩
        intro q hq
        by_contra howner
        obtain ⟨d,hd⟩ := Option.ne_none_iff_exists'.mp howner
        have hqueued := hothers q d hq hd
        by_cases hdc : d = c
        · subst hdc
          exact not_frameQueued_of_not_fits hself hfits _ hqueued
        · exact not_frameQueued (hother d hdc) _ hqueued
  · rintro (hfits | ⟨hstored,halone⟩)
    · exact .inl ⟨reason,herror.mpr hfits⟩
    · refine .inr ⟨hstored,?_⟩
      intro q d hq hd
      have hnone := halone q hq
      rw [show s.rooms.owner t q = some d from hd] at hnone
      cases hnone

omit [Scalar F] in
/-- An ANNOUNCE that reaches the room is settled if its connection still owns the
slot and every other member takes the PRESENCE. -/
theorem announced_settled_iff (hi : Invariant limits s) (hc : s.conns c = some conn) :
    Settled s (s.apply c (announceRoom s.rooms c conn t blob)) c conn.peer t blob ↔
      s.rooms.isMember t ⟨conn.peer,c⟩ = true ∧ ∀ q d, q ≠ conn.peer → s.rooms.owner t q = some d →
        Fits (s.outs d) (ServerFrame.presence t conn.peer blob).encode.length := by
  rcases announceRoom_cases s.rooms c conn t blob with ⟨hm,heff⟩ | ⟨hm,room,slot,hroom,hslot,hid,heff⟩
  · -- the slot is another connection's: nothing happens
    rw [heff]
    apply iff_of_false
    · rintro (⟨reason,hqueued⟩ | ⟨⟨slot,hslot,hid,-⟩,-⟩)
      · exact not_frameQueued (State.apply_outs s c _ c) _ hqueued
      · have howner : s.rooms.isMember t ⟨conn.peer,c⟩ = true := by
          rw [Rooms.isMember_iff,Rooms.owner,show s.rooms.slot t conn.peer = some slot from hslot]
          exact congrArg some hid
        rw [hm] at howner
        cases howner
    · rintro ⟨hmember,-⟩
      rw [hm] at hmember
      cases hmember
  · rw [heff]
    set room' := room.insert conn.peer { slot with blob := blob } with hroom'
    set frame := (ServerFrame.presence t conn.peer blob).encode with hframe
    set e : Effect Id F := ⟨s.rooms.insertRoom t room',{ conn with session := .reading },
      broadcast room' conn.peer frame⟩ with he
    have hothers : ∀ q, q ≠ conn.peer → room'.lookup q = s.rooms.slot t q := by
      intro q hq
      rw [hroom',AList.lookup_insert_ne hq,Rooms.slot_of_room _ _ hroom]
    have hslots := Rooms.slot_stored s.rooms t (Rooms.slot_of_room _ _ hroom) conn.peer
      { slot with blob := blob }
    have hto : ∀ d dconn, s.conns d = some dconn → sendsTo d e.sends =
        if dconn.peer ≠ conn.peer ∧ s.rooms.owner t dconn.peer = some d then [pushFrame frame]
        else [] := fun d dconn hd => sendsTo_others hi.slots hd hothers _
    have hself : (s.apply c e).outs c = s.outs c := by
      rw [State.apply_outs,hto c conn hc,if_neg fun h => h.1 rfl]
      rfl
    have howner : ∀ q, q ≠ conn.peer → (s.apply c e).rooms.owner t q = s.rooms.owner t q := by
      intro q hq
      rw [State.apply_rooms,Rooms.owner,hslots,if_neg fun h => hq h.2]
      rfl
    have hqueued : ∀ q d, q ≠ conn.peer → s.rooms.owner t q = some d →
        (FrameQueued s (s.apply c e) d frame ↔ Fits (s.outs d) frame.length) := by
      intro q d hq hd
      obtain ⟨qslot,hqslot,hqid⟩ := Option.map_eq_some_iff.mp hd
      obtain ⟨dconn,hdconn,hdpeer,-⟩ := (hi.slots t q qslot hqslot).conn
      rw [hqid] at hdconn
      apply frameQueued_iff
      rw [State.apply_outs,hto d dconn hdconn,if_pos ⟨by rwa [hdpeer],by rwa [hdpeer]⟩]
      rfl
    constructor
    · rintro (⟨reason,herror⟩ | ⟨-,hall⟩)
      · exact absurd herror (not_frameQueued hself _)
      · refine ⟨hm,?_⟩
        intro q d hq hd
        exact (hqueued q d hq hd).mp (hall q d hq ((howner q hq).trans hd))
    · rintro ⟨-,hfits⟩
      right
      refine ⟨⟨{ slot with blob := blob },?_,hid,rfl⟩,?_⟩
      · rw [State.apply_rooms,hslots,if_pos ⟨rfl,rfl⟩]
      · intro q d hq hd
        rw [howner q hq] at hd
        exact (hqueued q d hq hd).mpr (hfits q d hq hd)

/-! ### The steps of one ANNOUNCE -/

/-- The session reader has got this ANNOUNCE past its checks. -/
def UnderWay (t : Topic) (blob : Bytes) (task : SessionTask) : Prop :=
  (∃ frameLen, task = .announceChecked t blob frameLen) ∨ task = .announceGranted t blob

theorem UnderWay.ne_reading {task : SessionTask} (h : UnderWay t blob task) : task ≠ .reading := by
  rcases h with ⟨frameLen,rfl⟩ | rfl
  · nofun
  · nofun

/-- A step of any task with an ANNOUNCE under way: it stays under way, or it is
refused by the rate, or it reaches the room. -/
inductive Advances (s s' : State Id F) (c : ℕ) (conn : Conn Id F) (t : Topic) (blob : Bytes) : Prop
  | underWay : UnderWay t blob (inHand s' c) → Advances s s' c conn t blob
  | denied (frameLen : ℕ) (conn' : Conn Id F) : conn.session = .announceChecked t blob frameLen →
      conn'.session = .reading →
      s' = s.apply c ⟨s.rooms,conn',[error c (some t) Reason.rateLimited]⟩ →
      Advances s s' c conn t blob
  | room : conn.session = .announceGranted t blob →
      s' = s.apply c (announceRoom s.rooms c conn t blob) → Advances s s' c conn t blob

theorem step_advances {a : Action Id} (hi : Invariant limits s) (hs : step limits s a = some s')
    (hc : s.conns c = some conn) (hunder : UnderWay t blob conn.session) :
    Advances s s' c conn t blob := by
  cases hown : ofTask c .session a with
  | false =>
      -- another task's step
      obtain ⟨conn',hc',-,hkept⟩ := step_kept hi hs hc
      obtain ⟨τ',hne,hkept⟩ := hkept .session hown
      apply Advances.underWay
      rw [inHand_of_conn hc',hkept.session hne]
      exact hunder
  | true =>
      obtain ⟨act,e,rfl,htask,he,rfl⟩ := own_step hown hs hc
      cases perform_ran he with
      | announceGranted t' blob' frameLen hsession hgranted =>
          rcases hunder with ⟨n,hchecked⟩ | hgranted'
          · rw [hsession] at hchecked
            cases hchecked
            exact .underWay (.inr (inHand_apply s c _))
          · rw [hsession] at hgranted'
            cases hgranted'
      | announceDenied t' blob' frameLen hsession hdenied =>
          rcases hunder with ⟨n,hchecked⟩ | hgranted'
          · rw [hsession] at hchecked
            cases hchecked
            exact .denied frameLen _ hsession rfl rfl
          · rw [hsession] at hgranted'
            cases hgranted'
      | announceRoom t' blob' hsession =>
          rcases hunder with ⟨n,hchecked⟩ | hgranted'
          · rw [hsession] at hchecked
            cases hchecked
          · rw [hsession] at hgranted'
            cases hgranted'
            exact .room hsession rfl
      | malformed _ hidle | alreadySubscribed _ hidle | subscribeRefused _ _ _ hidle
      | joined _ _ hidle | notSubscribed _ hidle | unsubscribed _ hidle | frameRefused _ _ hidle
      | announceChecked _ _ hidle => exact absurd hidle.reading hunder.ne_reading
      | _ => cases htask

theorem exec_underWay {bs : List (Action Id)} {u : State Id F} (hi : Invariant limits s)
    (hunder : UnderWay t blob (inHand s c)) (hrun : exec (step limits) s bs = some u)
    (hbusy : Along (step limits) (fun w _ => inHand w c ≠ .reading) s bs)
    (hend : inHand u c ≠ .reading) : UnderWay t blob (inHand u c) := by
  induction bs generalizing s with
  | nil =>
      cases hrun
      exact hunder
  | cons b bs ih =>
      obtain ⟨w,hw,hrest⟩ := (exec_cons_eq_some _).mp hrun
      have hwbusy : inHand w c ≠ .reading := along_start _ (Q := fun w => inHand w c ≠ .reading) (hbusy.2 w hw) hrest hend
      refine ih (step_invariant hi hw) ?_ hrest (hbusy.2 w hw)
      cases hc : s.conns c with
      | none =>
          rw [inHand,hc] at hunder
          exact absurd rfl hunder.ne_reading
      | some conn =>
          rw [inHand_of_conn hc] at hunder
          cases step_advances hi hw hc hunder with
          | underWay h => exact h
          | denied frameLen conn' hsession hreading hw' =>
              subst hw'
              rw [inHand_apply] at hwbusy
              exact absurd hreading hwbusy
          | room hsession hw' =>
              subst hw'
              rw [inHand_apply] at hwbusy
              exact absurd rfl hwbusy

/-- The reader can always go on with an ANNOUNCE that is under way. -/
theorem announceRate_step (limits : Limits F) (hc : s.conns c = some conn) {frameLen : ℕ}
    (hsession : conn.session = .announceChecked t blob frameLen) (now : ℕ) :
    step limits s (.act c (.announceRate now)) =
      some (s.apply c (announceRate s.rooms c conn t blob frameLen now)) := by
  simp only [step,hc,Option.bind_some,perform,hsession,Option.map_some]

theorem announceRoom_step (hc : s.conns c = some conn)
    (hsession : conn.session = .announceGranted t blob) :
    step limits s (.act c .announceRoom) =
      some (s.apply c (announceRoom s.rooms c conn t blob)) := by
  simp only [step,hc,Option.bind_some,perform,hsession,Option.map_some]

theorem handles_checked {b : Action Id} {s₁ : State Id F} {conn₁ : Conn Id F} {frameLen : ℕ}
    (hb : step limits s b = some s₁) (hc : s₁.conns c = some conn₁)
    (hsession : conn₁.session = .announceChecked t blob frameLen) :
    ∃ u v, Handles limits c b s u v := by
  have hrate := announceRate_step limits hc hsession 0
  have hbusy : inHand s₁ c ≠ .reading := by
    rw [inHand_of_conn hc,hsession]
    rintro ⟨⟩
  cases hg : (conn₁.publishRate.tryTake frameLen 0).1 with
  | false =>
      refine ⟨s₁,_,.later s₁ s₁ _ [] _ hb rfl trivial hbusy hrate ?_⟩
      rw [inHand_apply]
      simp only [announceRate,hg,Bool.false_eq_true,if_false]
      rfl
  | true =>
      have hconn := State.apply_conns_self s₁ c (announceRate s₁.rooms c conn₁ t blob frameLen 0)
      have hgranted : (announceRate s₁.rooms c conn₁ t blob frameLen 0).conn.session =
          .announceGranted t blob := by
        simp only [announceRate,hg,if_true]
      refine ⟨_,_,.later s₁ _ _ [.act c (.announceRate 0)] _ hb ?_ ⟨hbusy,fun _ _ => trivial⟩ ?_
        (announceRoom_step hconn hgranted) (inHand_apply _ _ _)⟩
      · exact (exec_cons_eq_some _).mpr ⟨_,hrate,rfl⟩
      · rw [inHand_apply,hgranted]
        rintro ⟨⟩

/-- An ANNOUNCE past its checks is settled, or not, by the step that brings the
reader back. -/
theorem checked_settled_iff {u v : State Id F} {bs : List (Action Id)} {last : Action Id} {frameLen : ℕ}
    (hi : Invariant limits s) (hc : s.conns c = some conn)
    (hsession : conn.session = .announceChecked t blob frameLen)
    (hbs : exec (step limits) s bs = some u)
    (hbusy : Along (step limits) (fun w _ => inHand w c ≠ .reading) s bs)
    (hu : inHand u c ≠ .reading) (hlast : step limits u last = some v)
    (hreading : inHand v c = .reading) :
    Settled u v c conn.peer t blob ↔ CanSettle u c conn.peer t blob := by
  have hiu := exec_invariant _ (fun _ _ _ hi hs => step_invariant hi hs) hi hbs
  obtain ⟨conn',hcu,hpeer⟩ := exec_conn hi hbs hc
  have hunder : UnderWay t blob (inHand u c) := by
    refine exec_underWay hi ?_ hbs hbusy hu
    rw [inHand_of_conn hc]
    exact .inl ⟨frameLen,hsession⟩
  have hhandu := inHand_of_conn hcu
  rw [hhandu] at hunder
  rw [← hpeer]
  cases step_advances hiu hlast hcu hunder with
  | underWay h => exact absurd hreading h.ne_reading
  | denied frameLen' conn'' hsession' hdone hv =>
      subst hv
      simp only [CanSettle,hhandu,hsession']
      exact refused_settled_iff conn'.peer conn'' _
  | room hsession' hv =>
      subst hv
      simp only [CanSettle,hhandu,hsession']
      exact announced_settled_iff hiu hcu

/-- The handling of an ANNOUNCE comes to an end, and settles it exactly if a
refusal is queued or the slot is still the connection's and every other member
takes the PRESENCE. -/
theorem announce_settled_iff {as : List (Action Id)} {tag : UInt8} {body : Bytes} {now : ℕ}
    (hrun : exec (step limits) (State.init limits) as = some s) (hc : s.conns c = some conn)
    (hlive : conn.phase = .live) (hidle : conn.session = .reading)
    (hdecode : ClientFrame.decode tag body = .ok (ClientFrame.announce t blob : ClientFrame Id)) :
    (∃ u v, Handles limits c (.act c (.sessionFrame tag body now)) s u v) ∧
    ∀ u v, Handles limits c (.act c (.sessionFrame tag body now)) s u v →
      (Settled u v c conn.peer t blob ↔ CanSettle u c conn.peer t blob) := by
  have hi := run_invariant hrun
  have hstep : step limits s (.act c (.sessionFrame tag body now)) =
      some (s.apply c (handleFrame limits s.rooms c conn (.announce t blob) (5+body.length) now)) := by
    simp only [step,hc,Option.bind_some,perform,hlive,hidle,and_self,if_true,readSession,hdecode,
      Option.map_some]
  have hhand : inHand s c = .reading := by rw [inHand_of_conn hc,hidle]
  by_cases hrefused : maxAnnounceLen < blob.length ∨ t ∉ conn.subscribed
  · -- refused by the first step
    have heff : handleFrame limits s.rooms c conn (.announce t blob) (5+body.length) now =
        ⟨s.rooms,conn,[error c (some t) (if maxAnnounceLen < blob.length then
          Reason.announceTooLarge else Reason.notSubscribed)]⟩ := by
      simp only [handleFrame]
      split_ifs with hlen ht
      · rfl
      · exact absurd hrefused (by simp [hlen,ht])
      · rfl
    rw [heff] at hstep
    constructor
    · exact ⟨_,_,.atOnce _ hstep ((inHand_apply _ _ _).trans hidle)⟩
    · intro u v hhandles
      cases hhandles with
      | atOnce _ hv hreading =>
          cases hstep.symm.trans hv
          simp only [CanSettle,hhand]
          exact refused_settled_iff conn.peer conn _
      | later s₁ _ _ bs last hs₁ hbs hbusy hu hlast hreading =>
          cases hstep.symm.trans hs₁
          have hbusy₁ := along_start _ (Q := fun w => inHand w c ≠ .reading) hbusy hbs hu
          rw [inHand_apply] at hbusy₁
          exact absurd hidle hbusy₁
  · push Not at hrefused
    have heff : handleFrame limits s.rooms c conn (.announce t blob) (5+body.length) now =
        ⟨s.rooms,{ conn with session := .announceChecked t blob (5+body.length) },[]⟩ := by
      simp only [handleFrame,if_neg (Nat.not_lt.mpr hrefused.1),not_true,if_false,hrefused.2]
    rw [heff] at hstep
    refine ⟨handles_checked hstep (State.apply_conns_self _ _ _) rfl,?_⟩
    intro u v hhandles
    cases hhandles with
    | atOnce _ hv hreading =>
        cases hstep.symm.trans hv
        rw [inHand_apply] at hreading
        cases hreading
    | later s₁ _ _ bs last hs₁ hbs hbusy hu hlast hreading =>
        have hi₁ := step_invariant hi hs₁
        cases hstep.symm.trans hs₁
        have hsettled := checked_settled_iff hi₁ (State.apply_conns_self _ _ _) rfl hbs hbusy hu hlast
          hreading
        exact hsettled

end

/-- Two endpoints in a room, and a second connection of the first. -/
def together : List (Action RawId) :=
  [.connect .base 0,.connect .identity 0,.connect .base 0,sends 1 (.subscribe (topicOf 7)) 0,
    sends 2 (.subscribe (topicOf 7)) 0]

/-- The ANNOUNCE is charged while its sender still owns its slot. -/
def charged : List (Action RawId) := [.act 1 (.announceRate 1)]

theorem announce_settled_iff_owner : ∃ s u v,
    exec (step .default) (State.init .default) together = some s ∧
    Handles .default 1 (sends 1 (.announce (topicOf 7) [9]) 0) s u v ∧
    Settled u v 1 .base (topicOf 7) [9] := by
  have hrun : (exec (step .default) (State.init .default) together).any (fun s =>
      (s.conns 1).any fun conn => (step .default s (sends 1 (.announce (topicOf 7) [9]) 0)).any fun s₁ =>
        (exec (step .default) s₁ charged).any fun u => (step .default u (.act 1 .announceRoom)).any fun v =>
          (u.rooms.room (topicOf 7)).any fun room =>
            decide (conn.peer = .base ∧ conn.phase = .live ∧ conn.session = .reading ∧
              inHand s₁ 1 ≠ .reading ∧ inHand u 1 = .announceGranted (topicOf 7) [9] ∧
              inHand v 1 = .reading ∧ u.rooms.isMember (topicOf 7) ⟨.base,1⟩ = true ∧
              ∀ e ∈ room.entries, Fits (u.outs e.2.handle.connId)
                (ServerFrame.presence (topicOf 7) RawId.base [9]).encode.length)) = true := by
    decide +kernel
  obtain ⟨s,hs,hrun⟩ := (Option.any_eq_true _ _).mp hrun
  obtain ⟨conn,hc,hrun⟩ := (Option.any_eq_true _ _).mp hrun
  obtain ⟨s₁,hs₁,hrun⟩ := (Option.any_eq_true _ _).mp hrun
  obtain ⟨u,hu,hrun⟩ := (Option.any_eq_true _ _).mp hrun
  obtain ⟨v,hv,hrun⟩ := (Option.any_eq_true _ _).mp hrun
  obtain ⟨room,hroom,hrun⟩ := (Option.any_eq_true _ _).mp hrun
  obtain ⟨hpeer,hlive,hidle,hbusy₁,hbusy,hdone,hmember,hfits⟩ := of_decide_eq_true hrun
  have hhandles : Handles .default 1 (sends 1 (.announce (topicOf 7) [9]) 0) s u v :=
    .later s₁ u v charged _ hs₁ hu ⟨hbusy₁,fun _ _ => trivial⟩ (by simp [hbusy]) hv hdone
  refine ⟨s,u,v,hs,hhandles,?_⟩
  rw [← hpeer]
  refine ((announce_settled_iff hs hc hlive hidle (clientFrame_decode (.announce (topicOf 7) [9]))).2
    u v hhandles).mpr ?_
  rw [hpeer]
  simp only [CanSettle,hbusy]
  refine ⟨hmember,?_⟩
  intro q d _ howner
  obtain ⟨slot,hslot,rfl⟩ := Option.map_eq_some_iff.mp howner
  rw [Rooms.slot_of_room _ _ hroom] at hslot
  exact hfits _ (AList.mem_lookup_iff.mp hslot)

/-- The second connection takes the slot over, and then the first announces: the
blob is not stored and no ERROR is queued. -/
theorem announce_lost : ∃ s u v conn,
    exec (step .default) (State.init .default) (together++[sends 3 (.subscribe (topicOf 7)) 0]) = some s ∧
    s.conns 1 = some conn ∧ conn.peer = .base ∧ conn.phase = .live ∧
    (s.outs 1).budget.overflowed = false ∧
    Handles .default 1 (sends 1 (.announce (topicOf 7) [9]) 0) s u v ∧
    ¬Settled u v 1 .base (topicOf 7) [9] := by
  have hrun : (exec (step .default) (State.init .default)
      (together++[sends 3 (.subscribe (topicOf 7)) 0])).any (fun s =>
        (s.conns 1).any fun conn => (step .default s (sends 1 (.announce (topicOf 7) [9]) 0)).any fun s₁ =>
          (exec (step .default) s₁ charged).any fun u =>
            (step .default u (.act 1 .announceRoom)).any fun v =>
              decide (conn.peer = .base ∧ conn.phase = .live ∧ (s.outs 1).budget.overflowed = false ∧
                inHand s₁ 1 ≠ .reading ∧ inHand u 1 ≠ .reading ∧ inHand v 1 = .reading ∧
                (v.outs 1).session.sent.length = (u.outs 1).session.sent.length ∧
                v.rooms.owner (topicOf 7) .base = some 3)) = true := by
    decide +kernel
  obtain ⟨s,hs,hrun⟩ := (Option.any_eq_true _ _).mp hrun
  obtain ⟨conn,hc,hrun⟩ := (Option.any_eq_true _ _).mp hrun
  obtain ⟨s₁,hs₁,hrun⟩ := (Option.any_eq_true _ _).mp hrun
  obtain ⟨u,hu,hrun⟩ := (Option.any_eq_true _ _).mp hrun
  obtain ⟨v,hv,hrun⟩ := (Option.any_eq_true _ _).mp hrun
  obtain ⟨hpeer,hlive,hroomy,hbusy₁,hbusy,hdone,hsent,howner⟩ := of_decide_eq_true hrun
  refine ⟨s,u,v,conn,hs,hc,hpeer,hlive,hroomy,
    .later s₁ u v charged _ hs₁ hu ⟨hbusy₁,fun _ _ => trivial⟩ hbusy hv hdone,?_⟩
  rintro (⟨reason,hqueued⟩ | ⟨⟨slot,hslot,hid,-⟩,-⟩)
  · rw [hqueued] at hsent
    simp at hsent
  · rw [Rooms.owner,hslot] at howner
    cases hid.symm.trans (Option.some.inj howner)

end KeepTalkingSfu.Announcements
