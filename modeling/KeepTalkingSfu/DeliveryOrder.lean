import KeepTalkingSfu.FanOut

/-!
# One order of deliveries

A publication is carried out in one step, under the lock of its topic's room, and goes to
every queue it is for in that step. So a span of a run has one list of publications, and
a connection that owns its slot all the while is queued, on each lane, exactly those of
the list that are for it, in the order of the list. Everything that is ever queued to a
connection came that way: from a member of the room, to a member of the room, of another
endpoint, and for it.
-/
namespace KeepTalkingSfu.DeliveryOrder
open ByteTransport WireFormat StreamWriters LaneStream MemberQueues RoomTable TokenBucket Server
  StepCases ServerEffects RoomInvariant TaskSteps InterleavedRuns FanOut

/-- A publication as its room operation carries it out. -/
structure Published (Id : Type) where
  publisher : ℕ
  peer : Id
  lane : Lane
  frame : Publish Id

section
variable {Id F : Type} [DecidableEq Id]

/-- The publication a step carries out: a lane reader's room operation while its
connection owns its slot. -/
def publishedBy (s : State Id F) : Action Id → Option (Published Id)
  | .act c (.laneRoom stream) =>
      (s.conns c).bind fun conn =>
        match conn.lanes stream with
        | some ⟨lane,.granted p⟩ =>
            if s.rooms.isMember p.topic ⟨conn.peer,c⟩ then some ⟨c,conn.peer,lane,p⟩ else none
        | _ => none
  | _ => none

/-- A publication as it stands in a lane queue. -/
def Published.queued (x : Published Id) : Queued Deliver :=
  ⟨x.frame.deliver,x.frame.deliver.len⟩

/-- Whether the endpoint is one the publication is for. -/
def Published.isFor (x : Published Id) (q : Id) : Bool :=
  decide (q ≠ x.peer) && x.frame.recipient.all fun r => r = q

/-- Whether the connection owns a slot of the topic under an endpoint the publication is
for. -/
def Published.reaches (x : Published Id) (s : State Id F) (d : ℕ) : Bool :=
  (s.conns d).any fun dconn =>
    s.rooms.isMember x.frame.topic ⟨dconn.peer,d⟩ && x.isFor dconn.peer

theorem reaches_eq {x : Published Id} {s : State Id F} {c : ℕ} {conn : Conn Id F}
    (hc : s.conns c = some conn) (hpeer : x.peer = conn.peer) (d : ℕ) :
    x.reaches s d = entitled s c d x.frame := by
  unfold Published.reaches entitled Published.isFor
  simp only [hc,Option.any_some,hpeer]
  cases s.conns d with
  | none => rfl
  | some dconn =>
      simp only [Option.any_some]
      rw [Bool.eq_iff_iff]
      cases x.frame.recipient <;> simp

variable [EndpointKey Id] [Scalar F] {limits : Limits F} {s s' : State Id F} {a : Action Id}
  {d : ℕ} {dconn : Conn Id F} {t : Topic} {i : Fin 2}

/-! ### One step -/

/-- The room operation of a lane reader, as the publication it carries out. -/
theorem laneRoom_published {c stream : ℕ} {conn : Conn Id F} {e : Effect Id F}
    (hi : Invariant limits s) (hc : s.conns c = some conn)
    (he : perform limits s.rooms c conn (.laneRoom stream) = some e) :
    match publishedBy s (.act c (.laneRoom stream)) with
    | some x => ∀ d, if x.reaches s d then sendsTo d e.sends = [.deliver x.lane x.frame.deliver]
        else ∀ msg ∈ sendsTo d e.sends, NotDeliver msg
    | none => ∀ d, ∀ msg ∈ sendsTo d e.sends, NotDeliver msg := by
  cases perform_ran he with
  | laneRoom lane p sends hl hcarried =>
      have hsends := carried_sendsTo hi hc hcarried
      simp only [publishedBy,hc,Option.bind_some,hl]
      cases hm : s.rooms.isMember p.topic ⟨conn.peer,c⟩ with
      | true =>
          simp only [if_true]
          intro d
          have h := hsends d
          rw [holdsSlot_of_conn hc,hm,Bool.true_and] at h
          rw [reaches_eq hc rfl]
          exact h
      | false =>
          simp only [Bool.false_eq_true,if_false]
          intro d
          have h := hsends d
          rw [holdsSlot_of_conn hc,hm,Bool.false_and,if_neg (by simp)] at h
          exact h

/-- What a task's step delivers: its publication, to whom it reaches; otherwise nothing. -/
theorem act_published {c : ℕ} {act : Act Id} {conn : Conn Id F} {e : Effect Id F}
    (hi : Invariant limits s) (hc : s.conns c = some conn)
    (he : perform limits s.rooms c conn act = some e) :
    match publishedBy s (.act c act) with
    | some x => ∀ d, if x.reaches s d then sendsTo d e.sends = [.deliver x.lane x.frame.deliver]
        else ∀ msg ∈ sendsTo d e.sends, NotDeliver msg
    | none => ∀ d, ∀ msg ∈ sendsTo d e.sends, NotDeliver msg := by
  cases act with
  | laneRoom stream => exact laneRoom_published hi hc he
  | _ =>
      rcases perform_delivers he with hsends | ⟨stream,l,p,hact,-⟩
      · exact notDeliver_sendsTo hsends
      · cases hact

theorem step_published (hi : Invariant limits s) (hs : step limits s a = some s') :
    match publishedBy s a with
    | some x => ∃ c e, s' = s.apply c e ∧ ∀ d,
        if x.reaches s d then sendsTo d e.sends = [.deliver x.lane x.frame.deliver]
        else ∀ msg ∈ sendsTo d e.sends, NotDeliver msg
    | none => Passive s s' ∨
        ∃ c e, s' = s.apply c e ∧ ∀ d, ∀ msg ∈ sendsTo d e.sends, NotDeliver msg := by
  cases a with
  | act c act =>
      obtain ⟨conn,e,hc,he,rfl⟩ := step_act hs
      have h := act_published hi hc he
      split at h
      · exact ⟨c,e,rfl,h⟩
      · exact .inr ⟨c,e,rfl,h⟩
  | _ =>
      rcases step_cases hi hs with hpassive | ⟨_,_,_,_,hact,-⟩
      · exact .inl hpassive
      · cases hact

/-- What a step adds to a connection's queue of a long-lived lane. -/
def laneGain (i : Fin 2) (d : ℕ) (s : State Id F) (a : Action Id) : List (Queued Deliver) :=
  match publishedBy s a with
  | some x =>
      if x.lane = longLane i ∧ x.reaches s d = true ∧ FitsLane (s.outs d) i x.frame.deliver.len then
        [x.queued]
      else []
  | none => []

omit [EndpointKey Id] [Scalar F] in
theorem laneGain_some {x : Published Id} (hx : publishedBy s a = some x) : laneGain i d s a =
    if x.lane = longLane i ∧ x.reaches s d = true ∧ FitsLane (s.outs d) i x.frame.deliver.len then
      [x.queued]
    else [] := by
  rw [laneGain,hx]

omit [EndpointKey Id] [Scalar F] in
theorem laneGain_none (hx : publishedBy s a = none) : laneGain i d s a = [] := by
  rw [laneGain,hx]

/-- A step adds its publication to the queues it reaches and fits. A queue it does not fit
refuses from then on. -/
theorem step_lane (hi : Invariant limits s) (hs : step limits s a = some s')
    (hd : s.conns d = some dconn) (i : Fin 2) :
    ((s'.outs d).lanes i).sent = ((s.outs d).lanes i).sent++laneGain i d s a ∧
      ∀ x, publishedBy s a = some x → x.lane = longLane i → x.reaches s d = true →
        ¬FitsLane (s.outs d) i x.frame.deliver.len → Refuses (s'.outs d) i := by
  have hpub := step_published hi hs
  cases hx : publishedBy s a with
  | none =>
      rw [hx] at hpub
      refine ⟨?_,nofun⟩
      rw [laneGain_none hx,List.append_nil]
      rcases hpub with hpassive | ⟨c,e,rfl,hsends⟩
      · exact hpassive.lanes d dconn hd i
      · rw [State.apply_outs,(acceptAll_notDeliver _ (hsends d)).1]
  | some x =>
      rw [hx] at hpub
      obtain ⟨c,e,rfl,hsends⟩ := hpub
      have h := hsends d
      rw [laneGain_some hx,State.apply_outs]
      by_cases hreach : x.reaches s d = true
      · rw [if_pos hreach] at h
        rw [h,acceptAll_cons,acceptAll_nil,Outbound.accept]
        by_cases hlane : x.lane = longLane i
        · rw [hlane,deliver_longLane]
          by_cases hfits : FitsLane (s.outs d) i x.frame.deliver.len
          · rw [if_pos ⟨rfl,hreach,hfits⟩,deliverLong_fits hfits,Function.update_self]
            refine ⟨rfl,?_⟩
            rintro _ ⟨⟩ - - hnot
            exact absurd hfits hnot
          · rw [if_neg fun h => hfits h.2.2,(deliverLong_not_fits hfits).1,List.append_nil]
            refine ⟨rfl,?_⟩
            rintro _ ⟨⟩ - - -
            exact (deliverLong_not_fits hfits).2
        · rw [if_neg fun h => hlane h.1,List.append_nil]
          refine ⟨untouched_longLane
            (untouched_other (s.outs d) (Ne.symm hlane) x.frame.deliver),?_⟩
          rintro _ ⟨⟩ h
          exact absurd h hlane
      · rw [if_neg hreach] at h
        rw [if_neg fun h => hreach h.2.1,List.append_nil,(acceptAll_notDeliver _ h).1]
        refine ⟨rfl,?_⟩
        rintro _ ⟨⟩ - h
        exact absurd h hreach

/-! ### What the lane readers have in hand -/

/-- Every lane stream was opened on its lane, and every frame its reader has in hand was
read from it; `opened` and `read` say what that means. -/
def Held (opened : ℕ → ℕ → Lane → Prop) (read : ℕ → ℕ → Publish Id → Prop) (c : ℕ)
    (conn : Conn Id F) : Prop :=
  ∀ stream l, conn.lanes stream = some l → opened c stream l.lane ∧
    ∀ p, l.task = .checked p ∨ l.task = .granted p → read c stream p

def AllHeld (opened : ℕ → ℕ → Lane → Prop) (read : ℕ → ℕ → Publish Id → Prop)
    (s : State Id F) : Prop :=
  ∀ c conn, s.conns c = some conn → Held opened read c conn

/-- The step opens streams and reads frames only as the two say. -/
structure Brings (opened : ℕ → ℕ → Lane → Prop) (read : ℕ → ℕ → Publish Id → Prop)
    (a : Action Id) : Prop where
  opens : ∀ c stream lane, a = .act c (.openLane stream lane) → opened c stream lane
  reads : ∀ c stream tag body p, a = .act c (.laneFrame stream tag body) →
    publication tag body = some p → read c stream p

section
variable {opened : ℕ → ℕ → Lane → Prop} {read : ℕ → ℕ → Publish Id → Prop} {c : ℕ}
  {conn : Conn Id F}

omit [DecidableEq Id] [EndpointKey Id] [Scalar F] in
theorem held_setLane {stream : ℕ} {l : LaneReader Id} (hk : Held opened read c conn)
    (hopened : opened c stream l.lane)
    (hread : ∀ p, l.task = .checked p ∨ l.task = .granted p → read c stream p) :
    Held opened read c (conn.setLane stream l) := by
  intro i l' h
  by_cases hi : i = stream
  · subst hi
    rw [setLane_self] at h
    cases h
    exact ⟨hopened,hread⟩
  · rw [setLane_other _ _ hi] at h
    exact hk i l' h

omit [DecidableEq Id] [EndpointKey Id] [Scalar F] in
/-- A reader that is done with its frame has nothing in hand. -/
theorem held_next {stream : ℕ} {l : LaneReader Id} (hk : Held opened read c conn)
    (hl : conn.lanes stream = some l) : Held opened read c (conn.setLane stream l.next) := by
  apply held_setLane hk
  · exact (hk stream l hl).1
  · intro p hp
    unfold LaneReader.next at hp
    dsimp only at hp
    split_ifs at hp <;> rcases hp with hp | hp <;> cases hp

theorem perform_held {r : Rooms Id} {act : Act Id} {e : Effect Id F}
    (hb : Brings opened read (.act c act)) (h : perform limits r c conn act = some e)
    (hk : Held opened read c conn) : Held opened read c e.conn := by
  cases perform_ran h with
  | laneMalformed lane err hl | laneTooLarge lane f topicBytes hl | laneNotSubscribed lane p hl
  | laneDenied lane p hl | laneRoom lane p sends hl => exact held_next hk hl
  | openLane stream lane =>
      apply held_setLane hk (hb.opens c stream lane rfl)
      rintro p (hp | hp) <;> cases hp
  | laneStopped lane hl =>
      refine held_setLane hk (hk _ _ hl).1 ?_
      rintro p (hp | hp) <;> cases hp
  | laneChecked lane p hl hpub hm =>
      refine held_setLane hk (hk _ _ hl).1 ?_
      rintro p' (hp | hp)
      · cases hp
        exact hb.reads c _ _ _ p rfl hpub
      · cases hp
  | laneGranted lane p hl hgranted =>
      refine held_setLane hk (hk _ _ hl).1 ?_
      rintro p' (hp | hp)
      · cases hp
      · cases hp
        exact (hk _ _ hl).2 p (.inl rfl)
  | _ => exact hk

theorem step_held (hb : Brings opened read a) (hs : step limits s a = some s')
    (hk : AllHeld opened read s) : AllHeld opened read s' := by
  cases a with
  | connect peer now =>
      cases hs
      intro c conn hc
      by_cases hcn : c = s.next
      · subst hcn
        rw [State.connect_conns_self] at hc
        cases hc
        rintro stream l ⟨⟩
      · rw [State.connect_conns_of_ne _ _ _ _ hcn] at hc
        exact hk c conn hc
  | act c act =>
      obtain ⟨conn,e,hc,he,rfl⟩ := step_act hs
      intro c' conn' hc'
      by_cases hcc : c' = c
      · subst hcc
        rw [State.apply_conns_self] at hc'
        cases hc'
        exact perform_held hb he (hk c' conn hc)
      · rw [State.apply_conns_of_ne _ _ _ hcc] at hc'
        exact hk c' conn' hc'
  | drain c w =>
      obtain ⟨out,-,rfl⟩ := step_drain hs
      exact hk
  | rehash topic room =>
      obtain ⟨old,-,-,rfl⟩ := step_rehash hs
      exact hk

end

/-! ### Topics of publications -/

theorem topic_eq {t t' : Topic} (h : t.bytes = t'.bytes) : t = t' := by
  cases t
  cases t'
  cases h
  rfl

omit [DecidableEq Id] in
/-- The DELIVER of a publication starts with its topic. -/
theorem publication_topic {tag : UInt8} {body : Bytes} {p : Publish Id}
    (h : publication tag body = some p) : p.deliver.topic = p.topic.bytes := by
  unfold publication at h
  split at h
  · cases h
  · next f topicBytes hd =>
    obtain ⟨⟨topic,recipient,payload⟩,hparts,h⟩ := Option.bind_eq_some_iff.mp h
    simp only at h
    split_ifs at h
    cases h
    obtain ⟨hlane,rfl⟩ := decodeLaneFrame_ok hd
    cases f with
    | publish topic' payload' =>
        cases hparts
        rfl
    | publishTo topic' recipient' payload' =>
        cases hparts
        rfl
    | subscribe topic' => cases hparts
    | unsubscribe topic' => cases hparts
    | announce topic' blob => cases hparts

/-- Every frame in hand has a DELIVER of its topic. -/
def TopicsKept (s : State Id F) : Prop :=
  AllHeld (fun _ _ _ => True) (fun _ _ p => p.deliver.topic = p.topic.bytes) s

theorem step_topics (hs : step limits s a = some s') (hk : TopicsKept s) : TopicsKept s' := by
  refine step_held ⟨fun _ _ _ _ => trivial,?_⟩ hs hk
  intro c stream tag body p _ hpub
  exact publication_topic hpub

theorem run_topics {as : List (Action Id)}
    (h : exec (step limits) (State.init limits) as = some s) : TopicsKept s := by
  refine exec_invariant (step limits) (fun _ _ _ hk hs => step_topics hs hk) ?_ h
  rintro c conn ⟨⟩

omit [EndpointKey Id] [Scalar F] in
/-- A publication is carried out by a lane reader whose connection owns its slot. -/
theorem publishedBy_some {x : Published Id} (h : publishedBy s a = some x) :
    ∃ stream conn, a = .act x.publisher (.laneRoom stream) ∧ s.conns x.publisher = some conn ∧
      conn.peer = x.peer ∧ conn.lanes stream = some ⟨x.lane,.granted x.frame⟩ ∧
      s.rooms.isMember x.frame.topic ⟨x.peer,x.publisher⟩ = true := by
  unfold publishedBy at h
  split at h
  · next c stream =>
    obtain ⟨conn,hc,h⟩ := Option.bind_eq_some_iff.mp h
    split at h
    · next lane p hl =>
      split_ifs at h with hm
      cases h
      exact ⟨stream,conn,rfl,hc,rfl,hl,hm⟩
    · cases h
  · cases h

omit [EndpointKey Id] [Scalar F] in
theorem publishedBy_topic {x : Published Id} (hk : TopicsKept s) (h : publishedBy s a = some x) :
    x.frame.deliver.topic = x.frame.topic.bytes := by
  obtain ⟨stream,conn,-,hc,-,hl,-⟩ := publishedBy_some h
  exact (hk _ conn hc stream _ hl).2 x.frame (.inr rfl)

/-! ### A span of a run -/

/-- The publications of a span, in the order they are carried out. -/
def publications (limits : Limits F) (s : State Id F) (as : List (Action Id)) :
    List (Published Id) :=
  (taken (step limits) (fun _ => true) s as).filterMap fun x => publishedBy x.before x.label

/-- The publications of a span in a topic, on a long-lived lane. -/
def history (limits : Limits F) (t : Topic) (i : Fin 2) (s : State Id F)
    (as : List (Action Id)) : List (Published Id) :=
  (publications limits s as).filter fun x => decide (x.lane = longLane i ∧ x.frame.topic = t)

/-- The delivery is one of the topic's. -/
def about (t : Topic) (q : Queued Deliver) : Bool := q.item.topic = t.bytes

/-- What a history has for an endpoint. -/
def dueTo (q : Id) (xs : List (Published Id)) : List (Queued Deliver) :=
  (xs.filter fun x => x.isFor q).map Published.queued

theorem history_cons (t : Topic) (i : Fin 2) (hs : step limits s a = some s')
    (as : List (Action Id)) : history limits t i s (a::as) =
      ((publishedBy s a).toList.filter fun x =>
        decide (x.lane = longLane i ∧ x.frame.topic = t))++history limits t i s' as := by
  unfold history publications
  rw [taken_cons _ _ hs,List.filterMap_append,List.filter_append]
  cases hx : publishedBy s a <;> simp [hx]

omit [DecidableEq Id] [EndpointKey Id] [Scalar F] in
theorem dueTo_append [DecidableEq Id] (q : Id) (xs ys : List (Published Id)) :
    dueTo q (xs++ys) = dueTo q xs++dueTo q ys := by
  simp [dueTo]

omit [EndpointKey Id] [Scalar F] in
theorem reaches_of_conn {x : Published Id} (hd : s.conns d = some dconn) : x.reaches s d =
    (s.rooms.isMember x.frame.topic ⟨dconn.peer,d⟩ && x.isFor dconn.peer) := by
  rw [Published.reaches,hd]
  rfl

/-- A queue that refuses has nothing added to it any more. -/
theorem refusing_exec {as : List (Action Id)} (hi : Invariant limits s)
    (hrun : exec (step limits) s as = some s') (hd : s.conns d = some dconn)
    (h : Refuses (s.outs d) i) :
    ((s'.outs d).lanes i).sent = ((s.outs d).lanes i).sent ∧ Refuses (s'.outs d) i := by
  induction as generalizing s dconn with
  | nil =>
      cases hrun
      exact ⟨rfl,h⟩
  | cons b as ih =>
      obtain ⟨s₁,hb,hrun⟩ := (exec_cons_eq_some _).mp hrun
      obtain ⟨hsent,h₁⟩ := refusing_step hi hb hd h
      obtain ⟨dconn₁,hd₁,-⟩ := step_kept hi hb hd
      obtain ⟨hsent',h'⟩ := ih (step_invariant hi hb) hrun hd₁ h₁
      exact ⟨hsent'.trans hsent,h'⟩

/-- What a step adds of a topic to the queue of an owner of a slot there: what its part of
the history has for the endpoint, or nothing, and then never again. -/
theorem laneGain_due (hi : Invariant limits s) (hk : TopicsKept s)
    (hs : step limits s a = some s') (hd : s.conns d = some dconn)
    (hslot : holdsSlot s d t = true) :
    (laneGain i d s a).filter (about t) = dueTo dconn.peer ((publishedBy s a).toList.filter
        fun x => decide (x.lane = longLane i ∧ x.frame.topic = t)) ∨
      (laneGain i d s a).filter (about t) = [] ∧ Refuses (s'.outs d) i := by
  cases hx : publishedBy s a with
  | none =>
      rw [laneGain_none hx]
      exact .inl rfl
  | some x =>
      rw [laneGain_some hx,reaches_of_conn hd]
      rw [holdsSlot_of_conn hd] at hslot
      by_cases hon : x.lane = longLane i ∧ x.frame.topic = t
      · obtain ⟨hlane,htopic⟩ := hon
        have hmember : s.rooms.isMember x.frame.topic ⟨dconn.peer,d⟩ = true := by
          rw [htopic]
          exact hslot
        have hhist : (some x).toList.filter (fun x =>
            decide (x.lane = longLane i ∧ x.frame.topic = t)) = [x] := by
          simp [hlane,htopic]
        rw [hmember,Bool.true_and,hhist]
        cases hfor : x.isFor dconn.peer with
        | false => simp [dueTo,hfor]
        | true =>
            by_cases hfits : FitsLane (s.outs d) i x.frame.deliver.len
            · left
              have habout : about t x.queued = true := by
                simp [about,Published.queued,publishedBy_topic hk hx,htopic]
              rw [if_pos ⟨hlane,rfl,hfits⟩]
              simp only [dueTo,List.filter_cons,hfor,if_true,List.filter_nil,List.map_cons,
                List.map_nil]
              exact if_pos habout
            · right
              rw [if_neg fun h => hfits h.2.2]
              refine ⟨rfl,(step_lane hi hs hd i).2 x hx hlane ?_ hfits⟩
              rw [reaches_of_conn hd,hmember,hfor]
              rfl
      · left
        have hhist : (some x).toList.filter (fun x =>
            decide (x.lane = longLane i ∧ x.frame.topic = t)) = [] := by
          simp only [Option.toList_some,List.filter_cons,decide_eq_false hon,Bool.false_eq_true,
            if_false,List.filter_nil]
        rw [hhist]
        split_ifs with hgain
        · have hother : x.frame.topic ≠ t := fun h => hon ⟨hgain.1,h⟩
          have habout : about t x.queued = false := by
            simp only [about,Published.queued,publishedBy_topic hk hx,decide_eq_false_iff_not]
            exact fun h => hother (topic_eq h)
          exact List.filter_cons_of_neg (by simp [habout])
        · rfl

/-- Of the deliveries one looks at, a run adds to a queue what its steps have for it, up to
the first that is refused: when each step adds what it has, or nothing, and then never
again. -/
theorem gained_run (look : Queued Deliver → Bool)
    (see : State Id F → Action Id → List (Queued Deliver)) {I : State Id F → Prop} {P : State Id F → Action Id → Prop}
    (hkeep : ∀ s a s', Invariant limits s → I s → step limits s a = some s' → I s')
    (hstep : ∀ s a s', Invariant limits s → I s → P s a → step limits s a = some s' →
      (laneGain i d s a).filter look = see s a ∨
        (laneGain i d s a).filter look = [] ∧ Refuses (s'.outs d) i)
    {as : List (Action Id)} (hi : Invariant limits s) (hs : I s) (hp : Along (step limits) P s as)
    (hrun : exec (step limits) s as = some s') (hd : s.conns d = some dconn) :
    ∃ gain, ((s'.outs d).lanes i).sent = ((s.outs d).lanes i).sent++gain ∧
      gain.filter look <+: observed (step limits) see s as ∧
      (¬Refuses (s'.outs d) i → gain.filter look = observed (step limits) see s as) := by
  induction as generalizing s dconn with
  | nil =>
      cases hrun
      exact ⟨[],(List.append_nil _).symm,List.nil_prefix,fun _ => rfl⟩
  | cons a as ih =>
      obtain ⟨s₁,ha,hrun⟩ := (exec_cons_eq_some _).mp hrun
      obtain ⟨dconn₁,hd₁,-⟩ := step_kept hi ha hd
      have hi₁ := step_invariant hi ha
      obtain ⟨gain,hsent,hpre,hall⟩ := ih hi₁ (hkeep s a s₁ hi hs ha) (hp.2 s₁ ha) hrun hd₁
      rw [(step_lane hi ha hd i).1,List.append_assoc] at hsent
      refine ⟨laneGain i d s a++gain,hsent,?_⟩
      rw [observed_cons _ _ ha,List.filter_append]
      rcases hstep s a s₁ hi hs hp.1 ha with hdue | ⟨hnone,hrefuses⟩
      · rw [hdue,List.prefix_append_right_inj,List.append_cancel_left_eq]
        exact ⟨hpre,hall⟩
      · -- The queue refuses from here on, so the rest of the run added nothing.
        obtain ⟨hsame,hrefuses'⟩ := refusing_exec hi₁ hrun hd₁ hrefuses
        have hgain : gain = [] := by
          rw [hsame,(step_lane hi ha hd i).1,List.append_cancel_left_eq] at hsent
          simpa using hsent
        rw [hnone,hgain]
        exact ⟨List.nil_prefix,fun h => absurd hrefuses' h⟩

/-- What a history has for an endpoint, step by step. -/
theorem observed_history (t : Topic) (i : Fin 2) (q : Id) {as : List (Action Id)}
    (h : exec (step limits) s as = some s') :
    observed (step limits) (fun s a => dueTo q ((publishedBy s a).toList.filter fun x =>
      decide (x.lane = longLane i ∧ x.frame.topic = t))) s as =
      dueTo q (history limits t i s as) := by
  induction as generalizing s with
  | nil => rfl
  | cons a as ih =>
      obtain ⟨s₁,ha,hrun⟩ := (exec_cons_eq_some _).mp h
      rw [observed_cons _ _ ha,history_cons t i ha,dueTo_append,ih hrun]

theorem span_lane {as : List (Action Id)} (hi : Invariant limits s) (hk : TopicsKept s)
    (hrun : exec (step limits) s as = some s') (hd : s.conns d = some dconn)
    (hslot : Along (step limits) (fun u _ => holdsSlot u d t = true) s as) :
    ∃ gain, ((s'.outs d).lanes i).sent = ((s.outs d).lanes i).sent++gain ∧
      gain.filter (about t) <+: dueTo dconn.peer (history limits t i s as) ∧
      (¬Refuses (s'.outs d) i →
        gain.filter (about t) = dueTo dconn.peer (history limits t i s as)) := by
  rw [← observed_history t i dconn.peer hrun]
  refine gained_run (about t) _ (I := fun s => TopicsKept s ∧
    ∃ conn, s.conns d = some conn ∧ conn.peer = dconn.peer) ?_ ?_ hi ⟨hk,dconn,hd,rfl⟩ hslot hrun hd
  · rintro u a u' hu ⟨hk,conn,hc,hpeer⟩ ha
    obtain ⟨conn',hc',hpeer',-⟩ := step_kept hu ha hc
    exact ⟨step_topics ha hk,conn',hc',hpeer'.trans hpeer⟩
  · rintro u a u' hu ⟨hk,conn,hc,hpeer⟩ hslot ha
    rw [← hpeer]
    exact laneGain_due hu hk ha hc hslot

/-- **One order of deliveries**: in every span of every run, a topic has one list of
publications on a lane. A connection that owns its slot throughout is queued those of the
list that are for its endpoint, each once and in the order of the list, up to the first its
queue refuses; all of them, if none was refused. -/
theorem deliveries_totally_ordered {pre as : List (Action Id)}
    (hpre : exec (step limits) (State.init limits) pre = some s)
    (hrun : exec (step limits) s as = some s') (hd : s.conns d = some dconn)
    (hslot : Along (step limits) (fun u _ => holdsSlot u d t = true) s as) :
    ∃ gain, ((s'.outs d).lanes i).sent = ((s.outs d).lanes i).sent++gain ∧
      gain.filter (about t) <+: dueTo dconn.peer (history limits t i s as) ∧
      (¬Refuses (s'.outs d) i →
        gain.filter (about t) = dueTo dconn.peer (history limits t i s as)) :=
  span_lane (run_invariant hpre) (run_topics hpre) hrun hd hslot

end

/-- Three endpoints in one room, two of them with a control stream. -/
def trio : List (Action RawId) :=
  [.connect .base 0,.connect .identity 0,.connect ⟨List.replicate 32 5,rfl⟩ 0,
    sends 1 (.subscribe (topicOf 7)) 0,sends 2 (.subscribe (topicOf 7)) 0,
    sends 3 (.subscribe (topicOf 7)) 0,.act 1 (.openLane 0 .control),.act 2 (.openLane 0 .control)]

/-- Both publish at once; the second one's frame gets to the room first. -/
def race : List (Action RawId) :=
  [.act 1 (publishes 0 (.publish (topicOf 7) [1])),.act 2 (publishes 0 (.publish (topicOf 7) [2])),
    .act 1 (.laneRate 0 1),.act 2 (.laneRate 0 1),.act 2 (.laneRoom 0),.act 1 (.laneRoom 0)]

theorem deliveries_totally_ordered_race : ∃ s s' dconn gain,
    exec (step .default) (State.init .default) trio = some s ∧
    exec (step .default) s race = some s' ∧ s.conns 3 = some dconn ∧
    (history .default (topicOf 7) 0 s race).map Published.publisher = [2,1] ∧
    ((s'.outs 3).lanes 0).sent = ((s.outs 3).lanes 0).sent++gain ∧
    gain.filter (about (topicOf 7)) = dueTo dconn.peer (history .default (topicOf 7) 0 s race) := by
  have hrun : (exec (step .default) (State.init .default) trio).any (fun s =>
      (s.conns 3).any fun _ => (exec (step .default) s race).any fun s' =>
        decide (Along (step .default) (fun u _ => holdsSlot u 3 (topicOf 7) = true) s race ∧
          (history .default (topicOf 7) 0 s race).map Published.publisher = [2,1] ∧
          (s'.outs 3).budget.overflowed = false ∧ ((s'.outs 3).lanes 0).isOpen = true)) = true := by
    decide +kernel
  obtain ⟨s,hpre,hrun⟩ := (Option.any_eq_true _ _).mp hrun
  obtain ⟨dconn,hd,hrun⟩ := (Option.any_eq_true _ _).mp hrun
  obtain ⟨s',hs',hrun⟩ := (Option.any_eq_true _ _).mp hrun
  obtain ⟨hslot,hhistory,hbudget,hopen⟩ := of_decide_eq_true hrun
  have hrefuses : ¬Refuses (s'.outs 3) 0 := by
    rintro (h | h)
    · rw [hbudget] at h
      cases h
    · rw [hopen] at h
      cases h
  obtain ⟨gain,hsent,-,hall⟩ := deliveries_totally_ordered (i := 0) hpre hs' hd hslot
  exact ⟨s,s',dconn,gain,hpre,hs',hd,hhistory,hsent,hall hrefuses⟩

end KeepTalkingSfu.DeliveryOrder
