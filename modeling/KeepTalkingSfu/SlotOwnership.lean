import KeepTalkingSfu.TaskSteps

/-!
# Who owns an endpoint's slot

An endpoint may have several connections; its slot in a room is held by the one
that joined last, whichever connection is newer. A connection keeps its slot
until it gives the topic up or another connection of its endpoint joins. So a
newer connection stays the owner exactly as long as no older one subscribes
late, and a SUBSCRIBE for a topic that is already in the connection's set does
nothing even if the slot is gone.
-/
namespace KeepTalkingSfu.SlotOwnership
open WireFormat FrameCodec StreamWriters MemberQueues RoomTable TokenBucket Server StepCases
  ServerEffects RoomInvariant TaskSteps InterleavedRuns

section
variable {Id F : Type}

/-- The topics a connection has in its set. -/
def topics (s : State Id F) (c : ℕ) : Finset Topic :=
  ((s.conns c).map Conn.subscribed).getD ∅

theorem topics_of_conn {s : State Id F} {c : ℕ} {conn : Conn Id F} (hc : s.conns c = some conn) :
    topics s c = conn.subscribed := by
  rw [topics,hc]
  rfl

variable [DecidableEq Id] [EndpointKey Id] [Scalar F]
variable {limits : Limits F} {s s' : State Id F} {c : ℕ} {t : Topic} {a : Action Id}

/-- The step is the handling of a SUBSCRIBE of the connection. -/
def Subscribes (c : ℕ) (t : Topic) (a : Action Id) : Prop :=
  ∃ tag body now, a = .act c (.sessionFrame tag body now) ∧
    ClientFrame.decode tag body = .ok (ClientFrame.subscribe t : ClientFrame Id)

/-- The step is a SUBSCRIBE that is accepted: the connection's set gains the topic. -/
def Joins (limits : Limits F) (c : ℕ) (t : Topic) (s : State Id F) (a : Action Id) : Prop :=
  t ∉ topics s c ∧ ∃ s', step limits s a = some s' ∧ t ∈ topics s' c

/-! ### SUBSCRIBE -/

section
variable {r : Rooms Id} {conn : Conn Id F}

theorem perform_gains {act : Act Id} {e : Effect Id F}
    (h : perform limits r c conn act = some e) (hold : t ∉ conn.subscribed)
    (hnew : t ∈ e.conn.subscribed) :
    ∃ tag body now, act = .sessionFrame tag body now ∧
      ClientFrame.decode tag body = .ok (ClientFrame.subscribe t : ClientFrame Id) ∧
      refusal limits r conn t now = none := by
  cases perform_ran h with
  | joined t₀ b hidle hd ht hr =>
      rcases Finset.mem_insert.mp hnew with rfl | hmem
      · exact ⟨_,_,_,rfl,hd,hr⟩
      · exact absurd hmem hold
  | unsubscribed t₀ | leaveNext t₀ => exact absurd (Finset.mem_of_mem_erase hnew) hold
  | _ => exact absurd hnew hold

end

theorem joins_subscribes (h : Joins limits c t s a) : Subscribes c t a := by
  obtain ⟨hold,s',hs,hnew⟩ := h
  cases a with
  | connect peer now =>
      cases hs
      by_cases hc : c = s.next
      · rw [topics_of_conn (hc ▸ State.connect_conns_self limits s peer now)] at hnew
        cases hnew
      · rw [topics,State.connect_conns_of_ne _ _ _ _ hc] at hnew
        exact absurd hnew hold
  | act d act =>
      obtain ⟨conn,e,hd,he,rfl⟩ := step_act hs
      by_cases hc : c = d
      · subst hc
        rw [topics_of_conn (State.apply_conns_self s c e)] at hnew
        rw [topics_of_conn hd] at hold
        obtain ⟨tag,body,now,rfl,hdecode,-⟩ := perform_gains he hold hnew
        exact ⟨tag,body,now,rfl,hdecode⟩
      · rw [topics,State.apply_conns_of_ne _ _ _ hc] at hnew
        exact absurd hnew hold
  | drain d w =>
      obtain ⟨out,-,rfl⟩ := step_drain hs
      exact absurd hnew hold
  | rehash topic room =>
      obtain ⟨old,-,-,rfl⟩ := step_rehash hs
      exact absurd hnew hold

/-! ### Keeping a slot -/

/-- A connection keeps its slot over a step that neither takes the topic out of
its set nor is a join of another connection of its endpoint. -/
theorem owner_kept {conn : Conn Id F} (hi : Invariant limits s)
    (hs : step limits s a = some s') (hc : s.conns c = some conn)
    (howner : s.rooms.owner t conn.peer = some c) (hkeep : t ∈ topics s' c)
    (hno : ∀ d dconn, d ≠ c → s.conns d = some dconn → dconn.peer = conn.peer →
      ¬Joins limits d t s a) : s'.rooms.owner t conn.peer = some c := by
  rcases step_cases hi hs with hpassive | ⟨d,act,dconn,e,rfl,hd,he,rfl⟩
  · rw [Rooms.owner,hpassive.slots]
    exact howner
  · have hspec := perform_spec (hi.conns d dconn hd).blob he
    have htopics : topics (s.apply d e) d = e.conn.subscribed :=
      topics_of_conn (State.apply_conns_self s d e)
    simp only [State.apply_rooms]
    generalize hrooms : e.rooms = rooms,hsubs : e.conn.subscribed = subs,
      hsends : e.sends = sends at hspec
    cases hspec with
    | quiet => exact howner
    | drop => exact howner
    | join t₀ ht₀ =>
        rw [Rooms.owner,Rooms.slot_joined]
        split_ifs with hsame
        · obtain ⟨rfl,hpeer⟩ := hsame
          by_cases hdc : d = c
          · rw [hdc]
            rfl
          · refine absurd ⟨?_,s.apply d e,hs,?_⟩ (hno d dconn hdc hd hpeer.symm)
            · rwa [topics_of_conn hd]
            · rw [htopics,hsubs]
              exact Finset.mem_insert_self _ _
        · exact howner
    | leave t₀ room ht₀ hroom hm =>
        rw [Rooms.owner,Rooms.slot_left _ _ hroom]
        split_ifs with hsame
        · obtain ⟨rfl,hpeer⟩ := hsame
          rw [Rooms.isMember_iff] at hm
          rw [hpeer,hm] at howner
          cases howner
          rw [htopics,hsubs] at hkeep
          exact absurd hkeep (Finset.notMem_erase _ _)
        · exact howner
    | announce t₀ room slot blob hroom hslot hid hblob =>
        rw [Rooms.owner,Rooms.slot_stored _ _ (Rooms.slot_of_room _ _ hroom)]
        split_ifs with hsame
        · obtain ⟨rfl,hpeer⟩ := hsame
          rw [hpeer,Rooms.owner,Rooms.slot_of_room _ _ hroom,hslot] at howner
          exact howner
        · exact howner

theorem owner_before {conn : Conn Id F} (hi : Invariant limits s)
    (hs : step limits s a = some s') (hc : s.conns c = some conn)
    (howner : s'.rooms.owner t conn.peer = some c) :
    s.rooms.owner t conn.peer = some c ∨ (t ∉ topics s c ∧ t ∈ topics s' c) := by
  rcases step_cases hi hs with hpassive | ⟨d,act,dconn,e,rfl,hd,he,rfl⟩
  · rw [Rooms.owner,hpassive.slots] at howner
    exact .inl howner
  · have hspec := perform_spec (hi.conns d dconn hd).blob he
    have htopics : topics (s.apply d e) d = e.conn.subscribed :=
      topics_of_conn (State.apply_conns_self s d e)
    rw [State.apply_rooms] at howner
    generalize e.rooms = rooms,hsubs : e.conn.subscribed = subs,e.sends = sends at hspec howner
    cases hspec with
    | quiet => exact .inl howner
    | drop => exact .inl howner
    | join t₀ ht₀ =>
        rw [Rooms.owner,Rooms.slot_joined] at howner
        split_ifs at howner with hsame
        · obtain ⟨rfl,-⟩ := hsame
          cases howner
          right
          rw [htopics,hsubs,topics_of_conn hd]
          exact ⟨ht₀,Finset.mem_insert_self _ _⟩
        · exact .inl howner
    | leave t₀ room ht₀ hroom hm =>
        rw [Rooms.owner,Rooms.slot_left _ _ hroom] at howner
        split_ifs at howner
        · cases howner
        · exact .inl howner
    | announce t₀ room slot blob hroom hslot hid hblob =>
        rw [Rooms.owner,Rooms.slot_stored _ _ (Rooms.slot_of_room _ _ hroom)] at howner
        left
        split_ifs at howner with hsame
        · obtain ⟨rfl,hpeer⟩ := hsame
          rw [hpeer,Rooms.owner,Rooms.slot_of_room _ _ hroom,hslot]
          exact howner
        · exact howner

theorem joins_owner (hi : Invariant limits s) (hs : step limits s a = some s')
    (hold : t ∉ topics s c) (hnew : t ∈ topics s' c) :
    ∃ conn, s.conns c = some conn ∧ s'.rooms.owner t conn.peer = some c := by
  obtain ⟨tag,body,now,rfl,-⟩ := joins_subscribes ⟨hold,s',hs,hnew⟩
  obtain ⟨conn,e,hc,he,rfl⟩ := step_act hs
  refine ⟨conn,hc,?_⟩
  have hspec := perform_spec (hi.conns c conn hc).blob he
  rw [topics_of_conn (State.apply_conns_self s c e)] at hnew
  rw [topics_of_conn hc] at hold
  simp only [State.apply_rooms]
  generalize e.rooms = rooms,hsubs : e.conn.subscribed = subs,e.sends = sends at hspec
  rw [hsubs] at hnew
  cases hspec with
  | quiet => exact absurd hnew hold
  | drop => exact absurd (Finset.mem_of_mem_erase hnew) hold
  | leave => exact absurd (Finset.mem_of_mem_erase hnew) hold
  | announce => exact absurd hnew hold
  | join t₀ =>
      rcases Finset.mem_insert.mp hnew with rfl | hmem
      · rw [Rooms.owner,Rooms.slot_joined,if_pos ⟨rfl,rfl⟩]
        rfl
      · exact absurd hmem hold

/-! ### The newer connection -/

/-- The step is a SUBSCRIBE that is going to be accepted, of a connection whose
endpoint's slot in that room a newer connection holds. -/
def lateSubscribe (limits : Limits F) (s : State Id F) : Action Id → Bool
  | .act c (.sessionFrame tag body now) =>
      match (ClientFrame.decode tag body : Except String (ClientFrame Id)) with
      | .ok (.subscribe t) =>
          (s.conns c).any fun conn =>
            decide (t ∉ conn.subscribed ∧ refusal limits s.rooms conn t now = none) &&
              (s.rooms.owner t conn.peer).any fun d => c < d
      | _ => false
  | _ => false

theorem not_late {conn : Conn Id F} {d : ℕ} (h : lateSubscribe limits s a = false)
    (hj : Joins limits c t s a) (hc : s.conns c = some conn)
    (howner : s.rooms.owner t conn.peer = some d) : d ≤ c := by
  obtain ⟨tag,body,now,rfl,hdecode⟩ := joins_subscribes hj
  obtain ⟨hold,s',hs,hnew⟩ := hj
  obtain ⟨conn',e,hc',he,rfl⟩ := step_act hs
  rw [hc] at hc'
  cases hc'
  rw [topics_of_conn hc] at hold
  rw [topics_of_conn (State.apply_conns_self s c e)] at hnew
  obtain ⟨tag',body',now',hact,-,haccepted⟩ := perform_gains he hold hnew
  cases hact
  simpa [lateSubscribe,hdecode,hc,howner,hold,haccepted] using h

/-- In a run without late SUBSCRIBEs, a connection whose SUBSCRIBE was accepted
owns its endpoint's slot from then on, while the topic stays in its set and no
newer connection of the endpoint joins. -/
theorem newer_connection_owns {pre post : List (Action Id)} {s₀ s₁ : State Id F}
    {conn : Conn Id F} (hpre : exec (step limits) (State.init limits) pre = some s₀)
    (hstep : step limits s₀ a = some s₁) (hpost : exec (step limits) s₁ post = some s)
    (hlate : Along (step limits) (fun u b => lateSubscribe limits u b = false) (State.init limits)
      (pre++a::post))
    (hconn : s₁.conns c = some conn) (hjoin : Joins limits c t s₀ a)
    (hnewer : Along (step limits) (fun u b => ∀ d dconn, c < d → u.conns d = some dconn →
      dconn.peer = conn.peer → ¬Joins limits d t u b) s₁ post)
    (hkeep : Along (step limits) (fun u _ => t ∈ topics u c) s₁ post) (hend : t ∈ topics s c) :
    s.rooms.owner t conn.peer = some c := by
  have hi₀ := run_invariant hpre
  have hi₁ := step_invariant hi₀ hstep
  have howner₁ : s₁.rooms.owner t conn.peer = some c := by
    obtain ⟨conn₀,hc₀,howner⟩ := joins_owner hi₀ hstep hjoin.1
      (along_start _ (Q := fun u => t ∈ topics u c) hkeep hpost hend)
    obtain ⟨conn₁,hc₁,hpeer,-⟩ := step_kept hi₀ hstep hc₀
    rw [hconn] at hc₁
    cases hc₁
    rwa [hpeer]
  have hlate₁ : Along (step limits) (fun u b => lateSubscribe limits u b = false) s₁ post :=
    (along_of_append _ hlate hpre).2 s₁ hstep
  clear hlate hjoin hstep hpre hi₀
  generalize hp : conn.peer = p at howner₁ hnewer ⊢
  induction post generalizing s₁ conn with
  | nil =>
      cases hpost
      exact howner₁
  | cons b post ih =>
      obtain ⟨s₂,hb,hpost⟩ := (exec_cons_eq_some _).mp hpost
      have hkeep₂ := hkeep.2 s₂ hb
      have hmem₂ := along_start _ (Q := fun u => t ∈ topics u c) hkeep₂ hpost hend
      obtain ⟨conn₂,hc₂,hpeer₂,-⟩ := step_kept hi₁ hb hconn
      have howner₂ : s₂.rooms.owner t conn.peer = some c := by
        apply owner_kept hi₁ hb hconn (hp ▸ howner₁) hmem₂
        intro d dconn hne hd hdp hj
        rcases Nat.lt_or_gt_of_ne hne with hlt | hgt
        · -- an older connection: its SUBSCRIBE would be late
          have hle := not_late hlate₁.1 hj hd
            (hdp.trans hp ▸ howner₁ : s₁.rooms.owner t dconn.peer = some c)
          omega
        · exact hnewer.1 d dconn hgt hd (hdp.trans hp) hj
      exact ih hpost hc₂ hkeep₂ (step_invariant hi₁ hb) (hlate₁.2 s₂ hb) (hpeer₂.trans hp)
        (hp ▸ howner₂) (hnewer.2 s₂ hb)

/-! ### What a SUBSCRIBE achieves -/

/-- The step queued an ERROR about the topic to the connection. -/
def ErrorQueued (s s' : State Id F) (c : ℕ) (t : Topic) : Prop :=
  ∃ reason q, (s'.outs c).session.sent = (s.outs c).session.sent++[q] ∧
    readBack q.item = some (.error (some t) reason)

/-- The SUBSCRIBE was refused with an ERROR, or a connection of the endpoint
that has not ended owns the slot, the subscriber itself if no other one has the
topic. -/
structure Answered (s s' : State Id F) (c : ℕ) (p : Id) (t : Topic) : Prop where
  owned : ErrorQueued s s' c t ∨ ∃ d conn, s'.conns d = some conn ∧ conn.peer = p ∧
    conn.phase ≠ .ended ∧ s'.rooms.owner t p = some d
  alone : (∀ d conn, d ≠ c → s'.conns d = some conn → conn.peer = p → conn.phase ≠ .ended →
      t ∉ conn.subscribed) → ErrorQueued s s' c t ∨ s'.rooms.owner t p = some c

/-- The slot is held already, or the topic is not in the connection's set and a
refusal, if there is one, fits its session queue. -/
def CanAnswer (limits : Limits F) (s : State Id F) (c : ℕ) (conn : Conn Id F) (t : Topic)
    (now : ℕ) : Prop :=
  s.rooms.slot t conn.peer ≠ none ∨
    (t ∉ conn.subscribed ∧ ∀ reason, refusal limits s.rooms conn t now = some reason →
      Fits (s.outs c) (errorFrame Id (some t) reason).length)

omit [DecidableEq Id] [Scalar F] in
theorem errorQueued_iff (hz : t ≠ Topic.zero) {reason : String}
    (hout : s'.outs c = (s.outs c).accept (error c (some t) reason : Send Id).msg) :
    ErrorQueued s s' c t ↔
      Fits (s.outs c) (errorFrame Id (some t) reason).length := by
  have hback : readBack (.frame (errorFrame Id (some t) reason)) =
      some (.error (some t) reason : ServerFrame Id) := by
    rw [errorFrame,readBack_encode (.error (some t) reason : ServerFrame Id) nofun]
    simp [onWire,hz]
  constructor
  · rintro ⟨reason',q,hsent,-⟩
    by_contra hnot
    rw [hout] at hsent
    change ((s.outs c).pushSession _ _).session.sent = _ at hsent
    rw [pushSession_not_fits hnot] at hsent
    simp at hsent
  · intro hfits
    have hsent := pushSession_fits hfits (.frame (errorFrame Id (some t) reason))
    exact ⟨reason,_,(congrArg (fun out => out.session.sent) hout).trans hsent,hback⟩

omit [DecidableEq Id] [Scalar F] in
theorem not_errorQueued (hout : s'.outs c = s.outs c) : ¬ErrorQueued s s' c t := by
  rintro ⟨reason,q,hsent,-⟩
  rw [hout] at hsent
  simp at hsent

omit [Scalar F] in
theorem answered_iff_of_unchanged (hi : Invariant limits s') (hrooms : s'.rooms = s.rooms) (p : Id) :
    Answered s s' c p t ↔ s.rooms.slot t p ≠ none ∨ ErrorQueued s s' c t := by
  constructor
  · intro h
    rcases h.owned with herr | ⟨d,dconn,-,-,-,howner⟩
    · exact .inr herr
    · left
      intro hnone
      rw [hrooms,Rooms.owner,hnone] at howner
      cases howner
  · rintro (hslot | herr)
    · obtain ⟨slot,hslot⟩ := Option.ne_none_iff_exists'.mp hslot
      rw [← hrooms] at hslot
      obtain ⟨d,hd,hdp,hdt⟩ := (hi.slots t p slot hslot).conn
      have howner : s'.rooms.owner t p = some slot.handle.connId := by
        rw [Rooms.owner,hslot]
        rfl
      have hlive : d.phase ≠ .ended := by
        intro hended
        rw [(hi.conns _ d hd).ended hended] at hdt
        cases hdt
      constructor
      · exact .inr ⟨_,d,hd,hdp,hlive,howner⟩
      · intro halone
        right
        by_cases heq : slot.handle.connId = c
        · rw [howner,heq]
        · exact absurd hdt (halone _ d heq hd hdp hlive)
    · exact ⟨.inl herr,fun _ => .inl herr⟩

/-- Handling a SUBSCRIBE for an ordinary topic answers it exactly if the slot is
held already, or the topic is not in the connection's set and a refusal fits. -/
theorem subscribe_answered_iff {as : List (Action Id)} {conn : Conn Id F} {tag : UInt8}
    {body : ByteTransport.Bytes} {now : ℕ}
    (hrun : exec (step limits) (State.init limits) as = some s) (hc : s.conns c = some conn)
    (hlive : conn.phase = .live) (hidle : conn.session = .reading)
    (hdecode : ClientFrame.decode tag body = .ok (ClientFrame.subscribe t : ClientFrame Id))
    (hz : t ≠ Topic.zero) :
    ∃ s', step limits s (.act c (.sessionFrame tag body now)) = some s' ∧
      (Answered s s' c conn.peer t ↔ CanAnswer limits s c conn t now) := by
  have hstep : step limits s (.act c (.sessionFrame tag body now)) =
      some (s.apply c (handleSubscribe limits s.rooms c conn t now)) := by
    simp only [step,hc,Option.bind_some,perform,hlive,hidle,and_self,if_true,readSession,hdecode,
      handleFrame,Option.map_some]
  have hi := step_invariant (run_invariant hrun) hstep
  refine ⟨_,hstep,?_⟩
  unfold CanAnswer
  by_cases ht : t ∈ conn.subscribed
  · rw [handleSubscribe_known ht] at hi ⊢
    rw [answered_iff_of_unchanged (s := s) hi rfl]
    have hnone : ¬ErrorQueued s (s.apply c ⟨s.rooms,conn,[]⟩) c t :=
      not_errorQueued (State.apply_outs s c _ c)
    simp [hnone,ht]
  · cases hr : refusal limits s.rooms conn t now with
    | some reason =>
        obtain ⟨b,hb⟩ := handleSubscribe_refused (c := c) ht hr
        rw [hb] at hi ⊢
        have hout := State.apply_outs s c
          ⟨s.rooms,{ conn with joinRate := b },[error c (some t) reason]⟩ c
        have hone : sendsTo c [(error c (some t) reason : Send Id)] =
            [(error c (some t) reason).msg] := by
          simp [sendsTo,error]
        rw [hone] at hout
        rw [answered_iff_of_unchanged (s := s) hi rfl,errorQueued_iff hz hout]
        simp [ht]
    | none =>
        obtain ⟨b,hb⟩ := handleSubscribe_joined (c := c) ht hr
        rw [hb]
        apply iff_of_true
        · have howner : (s.rooms.insertRoom t (s.rooms.joined t ⟨conn.peer,c⟩)).owner t conn.peer =
              some c := by
            rw [Rooms.owner,Rooms.slot_joined,if_pos ⟨rfl,rfl⟩]
            rfl
          constructor
          · right
            refine ⟨c,_,State.apply_conns_self s c _,rfl,?_,howner⟩
            rw [hlive]
            rintro ⟨⟩
          · exact fun _ => .inr howner
        · right
          refine ⟨ht,?_⟩
          intro reason hsome
          cases hsome

end

/-- The older connection subscribed first, and announces and ends later. -/
def older : List (Action RawId) :=
  [.connect .base 0,.connect .base 0,sends 1 (.subscribe (topicOf 7)) 0]

def olderEnds : List (Action RawId) :=
  [sends 1 (.announce (topicOf 7) [9]) 6,.act 1 (.announceRate 7),.act 1 .announceRoom,
    .act 1 .endSession,.act 1 (.leaveNext (topicOf 7)),.act 1 .finish]

theorem newer_connection_owns_after_end : ∃ s,
    exec (step .default) (State.init .default)
      (older++sends 2 (.subscribe (topicOf 7)) 5::olderEnds) = some s ∧
    s.rooms.owner (topicOf 7) .base = some 2 := by
  have hrun : (exec (step .default) (State.init .default) older).any (fun s₀ =>
      (step .default s₀ (sends 2 (.subscribe (topicOf 7)) 5)).any fun s₁ =>
        (exec (step .default) s₁ olderEnds).any fun s =>
          decide (topicOf 7 ∉ topics s₀ 2 ∧ topicOf 7 ∈ topics s₁ 2 ∧ topicOf 7 ∈ topics s 2 ∧
            (s₁.conns 2).any (fun conn => conn.peer = .base) = true ∧
            Along (step .default) (fun u _ => topicOf 7 ∈ topics u 2) s₁ olderEnds)) = true := by
    decide +kernel
  obtain ⟨s₀,h₀,hrun⟩ := (Option.any_eq_true _ _).mp hrun
  obtain ⟨s₁,h₁,hrun⟩ := (Option.any_eq_true _ _).mp hrun
  obtain ⟨s,h₂,hrun⟩ := (Option.any_eq_true _ _).mp hrun
  obtain ⟨hold,hnew,hend,hconn,hkeep⟩ := of_decide_eq_true hrun
  obtain ⟨conn,hconn,hpeer⟩ := (Option.any_eq_true _ _).mp hconn
  have hlate : Along (step .default) (fun u b => lateSubscribe .default u b = false) (State.init .default)
      (older++sends 2 (.subscribe (topicOf 7)) 5::olderEnds) := by
    decide +kernel
  refine ⟨s,?_,?_⟩
  · exact (exec_append_eq_some _).mpr ⟨s₀,h₀,(exec_cons_eq_some _).mpr ⟨s₁,h₁,h₂⟩⟩
  · rw [← of_decide_eq_true hpeer]
    refine newer_connection_owns h₀ h₁ h₂ hlate hconn ⟨hold,s₁,h₁,hnew⟩ ?_ hkeep hend
    -- nothing that is left is a step of a newer connection
    apply along_of_forall
    intro b hb u d dconn hd _ _ hjoins
    obtain ⟨tag,body,now,rfl,-⟩ := joins_subscribes hjoins
    simp only [olderEnds,sends,List.mem_cons,Action.act.injEq,List.not_mem_nil,or_false] at hb
    omega

/-- The older connection's SUBSCRIBE comes after the newer one's and takes the
slot, although the newer one has the topic and has not left. -/
theorem older_connection_takes_over : ∃ s₀ s₁ s : State RawId Level,
    exec (step .default) (State.init .default) [.connect .base 0,.connect .base 0] = some s₀ ∧
    step .default s₀ (sends 2 (.subscribe (topicOf 7)) 0) = some s₁ ∧
    Joins .default 2 (topicOf 7) s₀ (sends 2 (.subscribe (topicOf 7)) 0) ∧
    step .default s₁ (sends 1 (.subscribe (topicOf 7)) 0) = some s ∧
    (∃ conn, s.conns 1 = some conn ∧ conn.peer = .base ∧ conn.phase = .live) ∧
    (∃ conn, s.conns 2 = some conn ∧ conn.peer = .base ∧ conn.phase = .live) ∧
    topicOf 7 ∈ topics s 2 ∧ s.rooms.owner (topicOf 7) .base = some 1 := by
  have hrun : (exec (step .default) (State.init .default)
      ([.connect .base 0,.connect .base 0] : List (Action RawId))).any (fun s₀ =>
        (step .default s₀ (sends 2 (.subscribe (topicOf 7)) 0)).any fun s₁ =>
          (step .default s₁ (sends 1 (.subscribe (topicOf 7)) 0)).any fun s =>
            decide (topicOf 7 ∉ topics s₀ 2 ∧ topicOf 7 ∈ topics s₁ 2 ∧ topicOf 7 ∈ topics s 2 ∧
              s.rooms.owner (topicOf 7) .base = some 1) &&
              [1,2].all fun c => (s.conns c).any fun conn =>
                decide (conn.peer = .base ∧ conn.phase = .live)) = true := by
    decide +kernel
  obtain ⟨s₀,h₀,hrun⟩ := (Option.any_eq_true _ _).mp hrun
  obtain ⟨s₁,h₁,hrun⟩ := (Option.any_eq_true _ _).mp hrun
  obtain ⟨s,h₂,hrun⟩ := (Option.any_eq_true _ _).mp hrun
  obtain ⟨hrun,hlive⟩ := Bool.and_eq_true_iff.mp hrun
  obtain ⟨hold,hnew,hend,howner⟩ := of_decide_eq_true hrun
  have hconn : ∀ c ∈ [1,2],
      ∃ conn, s.conns c = some conn ∧ conn.peer = .base ∧ conn.phase = .live := by
    intro c hc
    obtain ⟨conn,hconn,hok⟩ := (Option.any_eq_true _ _).mp (List.all_eq_true.mp hlive c hc)
    exact ⟨conn,hconn,of_decide_eq_true hok⟩
  exact ⟨s₀,s₁,s,h₀,h₁,⟨hold,s₁,h₁,hnew⟩,h₂,hconn 1 (by simp),hconn 2 (by simp),hend,howner⟩

/-- The slot an endpoint's second connection took over from its first, and gave
up again. -/
def givenUp : List (Action RawId) :=
  [.connect .base 0,.connect .base 0,sends 1 (.subscribe (topicOf 7)) 0,
    sends 2 (.subscribe (topicOf 7)) 0,sends 2 (.unsubscribe (topicOf 7)) 0]

theorem subscribe_answered_iff_again : ∃ s s' conn,
    exec (step .default) (State.init .default) givenUp = some s ∧ s.conns 2 = some conn ∧
    step .default s (sends 2 (.subscribe (topicOf 7)) 0) = some s' ∧
    Answered s s' 2 conn.peer (topicOf 7) := by
  have hrun : (exec (step .default) (State.init .default) givenUp).any (fun s =>
      (s.conns 2).any fun conn => decide (conn.phase = .live ∧ conn.session = .reading ∧
        topicOf 7 ∉ conn.subscribed ∧ refusal .default s.rooms conn (topicOf 7) 0 = none)) = true := by
    decide +kernel
  obtain ⟨s,hs,hrun⟩ := (Option.any_eq_true _ _).mp hrun
  obtain ⟨conn,hc,hrun⟩ := (Option.any_eq_true _ _).mp hrun
  obtain ⟨hlive,hidle,ht,hr⟩ := of_decide_eq_true hrun
  have hcan : CanAnswer .default s 2 conn (topicOf 7) 0 := by
    refine .inr ⟨ht,?_⟩
    rw [hr]
    nofun
  obtain ⟨s',hs',hiff⟩ := subscribe_answered_iff hs hc hlive hidle
    (clientFrame_decode (.subscribe (topicOf 7))) (by decide)
  exact ⟨s,s',conn,hs,hc,hs',hiff.mpr hcan⟩

/-- The first connection cannot: the topic is still in its set, so nothing
happens, and nobody holds the slot. -/
theorem subscribe_unanswered : ∃ s s' conn,
    exec (step .default) (State.init .default) givenUp = some s ∧ s.conns 1 = some conn ∧
    conn.peer = .base ∧ conn.phase = .live ∧
    step .default s (sends 1 (.subscribe (topicOf 7)) 0) = some s' ∧
    ¬Answered s s' 1 .base (topicOf 7) := by
  have hrun : (exec (step .default) (State.init .default) givenUp).any (fun s =>
      (s.conns 1).any fun conn =>
        (step .default s (sends 1 (.subscribe (topicOf 7)) 0)).any fun s' =>
          decide (conn.peer = .base ∧ conn.phase = .live ∧
            (s'.outs 1).session.sent.length = (s.outs 1).session.sent.length ∧
            s'.rooms.owner (topicOf 7) .base = none)) = true := by
    decide +kernel
  obtain ⟨s,hs,hrun⟩ := (Option.any_eq_true _ _).mp hrun
  obtain ⟨conn,hc,hrun⟩ := (Option.any_eq_true _ _).mp hrun
  obtain ⟨s',hs',hrun⟩ := (Option.any_eq_true _ _).mp hrun
  obtain ⟨hpeer,hlive,hsent,howner⟩ := of_decide_eq_true hrun
  refine ⟨s,s',conn,hs,hc,hpeer,hlive,hs',?_⟩
  intro h
  rcases h.owned with ⟨reason,q,hq,-⟩ | ⟨d,dconn,-,-,-,hd⟩
  · rw [hq] at hsent
    simp at hsent
  · rw [howner] at hd
    cases hd

end KeepTalkingSfu.SlotOwnership
