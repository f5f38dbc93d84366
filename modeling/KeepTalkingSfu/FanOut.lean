import KeepTalkingSfu.TaskSteps

/-!
# Fan-out of a lane stream

A frame of a lane stream is checked, charged and carried out in three steps, and
everything can change in between. Which of a stream's frames were accepted, and to whom
each is due, is read off the states those steps were taken in; what a stream has appended
to a recipient's queue is read off the queue. The two are the same list: every accepted
frame the recipient was entitled to, in order and once, up to the first one its queue did
not take. And no frame that a check or the rate let through is left behind: only the last
one can still be in its reader's hand.
-/
namespace KeepTalkingSfu.FanOut
open ByteTransport WireFormat FrameCodec StreamWriters LaneStream MemberQueues RoomTable
  TokenBucket Server StepCases ServerEffects RoomInvariant TaskSteps InterleavedRuns

section
variable {Id F : Type} [DecidableEq Id] [EndpointKey Id]

/-! ### The frames of a stream -/

/-- A frame of a stream as far as it has come, with the states its steps were taken in. -/
structure Passage (Id F : Type) where
  tag : UInt8
  body : Bytes
  checked : State Id F
  charged : Option (State Id F × ℕ)
  carried : Option (State Id F)

/-- A frame is charged in the stream's step after its check. -/
def chargedIn : List (Taken (State Id F) (Action Id)) → Option (State Id F × ℕ)
  | ⟨.act _ (.laneRate _ now),s,_⟩::_ => some (s,now)
  | _ => none

def carriedIn : List (Taken (State Id F) (Action Id)) → Option (State Id F)
  | ⟨.act _ (.laneRate _ _),_,_⟩::⟨.act _ (.laneRoom _),s,_⟩::_ => some s
  | _ => none

/-- Every frame of a stream, read off the stream's steps. -/
def passages : List (Taken (State Id F) (Action Id)) → List (Passage Id F)
  | [] => []
  | ⟨.act _ (.laneFrame _ tag body),s,_⟩::xs =>
      ⟨tag,body,s,chargedIn xs,carriedIn xs⟩::passages xs
  | _::xs => passages xs

/-- A frame's publication, if it is within the limit and the publisher had its slot. -/
def passed (c : ℕ) (x : Passage Id F) : Option (Publish Id) :=
  (publication x.tag x.body).filter fun p => holdsSlot x.checked c p.topic

section
variable [Scalar F]

/-- The connection's publish rate has room for a frame. -/
def granted (s : State Id F) (c frameLen now : ℕ) : Bool :=
  (s.conns c).any fun conn => (conn.publishRate.tryTake frameLen now).1

/-- A frame's publication, if it passed its check and the publisher's rate granted it. -/
def letThrough (c : ℕ) (x : Passage Id F) : Option (Publish Id) :=
  (passed c x).filter fun p => x.charged.any fun y => granted y.1 c p.frameLen y.2

/-- A frame that was let through and whose publisher had its slot when it was carried out,
with the state that was in. -/
def accepted (c : ℕ) (x : Passage Id F) : Option (Publish Id × State Id F) :=
  (letThrough c x).bind fun p =>
    (x.carried.filter fun s => holdsSlot s c p.topic).map fun s => (p,s)

/-- A frame that passed its check is charged and one that was let through is carried out,
unless it is the stream's last and still in the reader's hand. -/
structure WentOn (c : ℕ) (task : Option (LaneTask Id)) (x : Passage Id F)
    (rest : List (Passage Id F)) : Prop where
  charged : ∀ p, passed c x = some p → x.charged = none → rest = [] ∧ task = some (.checked p)
  carried : ∀ p, letThrough c x = some p → x.carried = none → rest = [] ∧ task = some (.granted p)

end

/-- What the reader of a stream has in hand. -/
def readerTask (s : State Id F) (c stream : ℕ) : Option (LaneTask Id) :=
  (s.conns c).bind fun conn => (conn.lanes stream).map LaneReader.task

/-- The recipient has a slot of the topic under another endpoint than the
publisher's, and the frame is for everyone or for that endpoint. -/
def entitled (s : State Id F) (c d : ℕ) (p : Publish Id) : Bool :=
  (s.conns c).any fun conn => (s.conns d).any fun dconn =>
    decide (s.rooms.isMember p.topic ⟨dconn.peer,d⟩ = true ∧ dconn.peer ≠ conn.peer ∧
      (p.recipient = none ∨ p.recipient = some dconn.peer))

/-- What a step appended to a connection's lane queue. -/
def gained (i : Fin 2) (d : ℕ) (x : Taken (State Id F) (Action Id)) : List (Queued Deliver) :=
  ((x.after.outs d).lanes i).sent.drop ((x.before.outs d).lanes i).sent.length

/-! ### Where a publication goes -/

variable {limits : Limits F} {s : State Id F} {c d : ℕ} {conn : Conn Id F} {lane : Lane}
  {p : Publish Id} {sends : List (Send Id)}

omit [DecidableEq Id] in
theorem notDeliver_error (c : ℕ) (t : Option Topic) (reason : String) :
    ∀ m ∈ [(error c t reason : Send Id)], NotDeliver m.msg := by
  rw [List.forall_mem_singleton]
  nofun

omit [DecidableEq Id] [EndpointKey Id] in
theorem notDeliver_sendsTo (h : ∀ m ∈ sends, NotDeliver m.msg) (d : ℕ) :
    ∀ msg ∈ sendsTo d sends, NotDeliver msg := by
  intro msg hmsg
  obtain ⟨m,hm,rfl⟩ := List.mem_map.mp hmsg
  exact h m (List.mem_of_mem_filter hm)

omit [EndpointKey Id] in
theorem entitled_iff (hc : s.conns c = some conn) : entitled s c d p = true ↔
    ∃ dconn, s.conns d = some dconn ∧ s.rooms.owner p.topic dconn.peer = some d ∧
      dconn.peer ≠ conn.peer ∧ (p.recipient = none ∨ p.recipient = some dconn.peer) := by
  simp only [entitled,hc,Option.any_some,Option.any_eq_true,decide_eq_true_eq,Rooms.isMember_iff]

/-- A publication reaches whoever is entitled to it once, and nobody else. -/
theorem carried_sendsTo (hi : Invariant limits s) (hc : s.conns c = some conn)
    (h : Carried s.rooms c ⟨conn.peer,c⟩ lane p sends) (d : ℕ) :
    if holdsSlot s c p.topic && entitled s c d p then
      sendsTo d sends = [.deliver lane p.deliver]
    else ∀ msg ∈ sendsTo d sends, NotDeliver msg := by
  cases h with
  | notSubscribed hm =>
      rw [holdsSlot_of_conn hc,hm]
      exact notDeliver_sendsTo (notDeliver_error c _ _) d
  | noSuchRecipient recipient hm hrec habsent =>
      rw [if_neg]
      · exact notDeliver_sendsTo (notDeliver_error c _ _) d
      · rw [Bool.and_eq_true,entitled_iff hc]
        rintro ⟨-,dconn,hd,howner,hne,hto⟩
        rw [hrec] at hto
        have heq : recipient = dconn.peer := by simpa using hto
        subst heq
        rcases habsent with hself | hnone
        · exact hne hself
        · rw [Rooms.owner,hnone] at howner
          cases howner
  | toAll room hm hrec hroom =>
      rw [holdsSlot_of_conn hc,hm,Bool.true_and]
      cases hd : s.conns d with
      | none =>
          rw [sendsTo_nobody hi.slots hd fun q _ => (Rooms.slot_of_room _ _ hroom q).symm,if_neg]
          · exact List.forall_mem_nil _
          · rw [entitled_iff hc]
            rintro ⟨dconn,hdconn,-⟩
            rw [hd] at hdconn
            cases hdconn
      | some dconn =>
          rw [sendsTo_others hi.slots hd fun q _ => (Rooms.slot_of_room _ _ hroom q).symm]
          by_cases hto : dconn.peer ≠ conn.peer ∧ s.rooms.owner p.topic dconn.peer = some d
          · rw [if_pos,if_pos hto]
            rw [entitled_iff hc]
            exact ⟨dconn,hd,hto.2,hto.1,.inl hrec⟩
          · rw [if_neg,if_neg hto]
            · exact List.forall_mem_nil _
            · rw [entitled_iff hc]
              rintro ⟨dconn',hd',howner,hne,-⟩
              rw [hd] at hd'
              cases hd'
              exact hto ⟨hne,howner⟩
  | toOne recipient slot hm hrec hne hslot =>
      rw [holdsSlot_of_conn hc,hm,Bool.true_and]
      obtain ⟨sconn,hsconn,hpeer,-⟩ := (hi.slots _ _ _ hslot).conn
      by_cases hid : slot.handle.connId = d
      · rw [if_pos]
        · simp [sendsTo,hid]
        · rw [entitled_iff hc]
          refine ⟨sconn,hid ▸ hsconn,?_,hpeer ▸ hne,.inr (hpeer ▸ hrec)⟩
          rw [Rooms.owner,hpeer,hslot]
          exact congrArg some hid
      · rw [if_neg]
        · simp [sendsTo,hid]
        · rw [entitled_iff hc]
          rintro ⟨dconn,hd,howner,-,hto⟩
          rw [hrec] at hto
          have heq : recipient = dconn.peer := by simpa using hto
          rw [← heq,Rooms.owner,hslot] at howner
          exact hid (Option.some.inj howner)

/-! ### What a room operation appends -/

variable {e : Effect Id F} {i : Fin 2}

theorem carried_lane (hi : Invariant limits s) (hc : s.conns c = some conn)
    (h : Carried s.rooms c ⟨conn.peer,c⟩ (longLane i) p e.sends) (d : ℕ) :
    (((s.apply c e).outs d).lanes i).sent = ((s.outs d).lanes i).sent++
      if (holdsSlot s c p.topic && entitled s c d p) = true ∧
          FitsLane (s.outs d) i p.deliver.len then
        [⟨p.deliver,p.deliver.len⟩]
      else [] := by
  have hsends := carried_sendsTo hi hc h d
  rw [State.apply_outs]
  split_ifs at hsends with hto
  · rw [hsends,acceptAll_cons,acceptAll_nil,Outbound.accept,deliver_longLane]
    by_cases hfits : FitsLane (s.outs d) i p.deliver.len
    · rw [if_pos ⟨hto,hfits⟩,deliverLong_fits hfits,Function.update_self]
      rfl
    · rw [if_neg fun h => hfits h.2,(deliverLong_not_fits hfits).1,List.append_nil]
  · rw [if_neg fun h => hto h.1,(acceptAll_notDeliver _ hsends).1,List.append_nil]

theorem carried_refused (hi : Invariant limits s) (hc : s.conns c = some conn)
    (h : Carried s.rooms c ⟨conn.peer,c⟩ (longLane i) p e.sends)
    (hto : (holdsSlot s c p.topic && entitled s c d p) = true)
    (hfits : ¬FitsLane (s.outs d) i p.deliver.len) : Refuses ((s.apply c e).outs d) i := by
  have hsends := carried_sendsTo hi hc h d
  rw [if_pos hto] at hsends
  rw [State.apply_outs,hsends,acceptAll_cons,acceptAll_nil,Outbound.accept,deliver_longLane]
  exact (deliverLong_not_fits hfits).2

omit [DecidableEq Id] [EndpointKey Id] in
theorem untouched_notDeliver (h : ∀ msg ∈ sendsTo d e.sends, NotDeliver msg) (lane : Lane) :
    LaneUntouched lane (s.outs d) ((s.apply c e).outs d) := by
  obtain ⟨hlanes,hbulk⟩ := acceptAll_notDeliver (s.outs d) h
  rw [State.apply_outs]
  cases lane with
  | bulk => exact hbulk
  | _ => simp only [LaneUntouched,hlanes]

omit [DecidableEq Id] [EndpointKey Id] in
theorem untouched_other (out : Outbound Id) {lane lane' : Lane} (h : lane' ≠ lane)
    (frame : Deliver) : LaneUntouched lane' out (out.deliver lane frame) := by
  have hlong : ∀ {i j : Fin 2}, j ≠ i →
      ((out.deliverLong i frame).lanes j).sent = (out.lanes j).sent := by
    intro i j hj
    rw [deliverLong_other out hj frame]
  cases lane with
  | bulk =>
      cases lane' with
      | bulk => exact absurd rfl h
      | _ => rfl
  | control =>
      cases lane' with
      | bulk => exact deliverLong_bulk out 0 frame
      | control => exact absurd rfl h
      | interactive => exact hlong (by decide)
  | interactive =>
      cases lane' with
      | bulk => exact deliverLong_bulk out 1 frame
      | control => exact hlong (by decide)
      | interactive => exact absurd rfl h

/-- A publication adds to no lane but its own, and to none of a connection that
is not entitled to it. -/
theorem carried_untouched (hi : Invariant limits s) (hc : s.conns c = some conn)
    (h : Carried s.rooms c ⟨conn.peer,c⟩ lane p e.sends) {lane' : Lane}
    (hne : lane' ≠ lane ∨ entitled s c d p = false) :
    LaneUntouched lane' (s.outs d) ((s.apply c e).outs d) := by
  have hsends := carried_sendsTo hi hc h d
  split_ifs at hsends with hto
  · rw [State.apply_outs,hsends]
    rcases hne with hne | hne
    · exact untouched_other (s.outs d) hne p.deliver
    · rw [hne,Bool.and_false] at hto
      cases hto
  · exact untouched_notDeliver hsends lane'

/-! ### One step of the stream -/

variable [Scalar F]

/-- The steps of the frame a stream's reader has in hand, and what they let through. -/
inductive Tracks (c stream : ℕ) : List (Taken (State Id F) (Action Id)) → LaneTask Id → Prop
  | reading : Tracks c stream [] .reading
  | over : Tracks c stream [] .over
  | checked (tag : UInt8) (body : Bytes) (p : Publish Id) (u u' : State Id F) :
      publication tag body = some p → holdsSlot u c p.topic = true →
      Tracks c stream [⟨.act c (.laneFrame stream tag body),u,u'⟩] (.checked p)
  | granted (tag : UInt8) (body : Bytes) (p : Publish Id) (u u' v v' : State Id F) (now : ℕ) :
      publication tag body = some p → holdsSlot u c p.topic = true →
      granted v c p.frameLen now = true →
      Tracks c stream
        [⟨.act c (.laneFrame stream tag body),u,u'⟩,⟨.act c (.laneRate stream now),v,v'⟩] (.granted p)

/-- A frame that is in hand when the run ends has not been carried out. -/
theorem Tracks.unfinished {stream : ℕ} {prior : List (Taken (State Id F) (Action Id))}
    {now : LaneTask Id} (h : Tracks c stream prior now) : passages prior = [] ∨
      ∃ x, passages prior = [x] ∧ x.carried = none ∧ WentOn c (some now) x [] := by
  cases h with
  | checked tag body p u u' hpub hslot =>
      right
      refine ⟨⟨tag,body,u,none,none⟩,rfl,rfl,?_,?_⟩
      · intro q hq _
        rw [passed,hpub,Option.filter_some,if_pos hslot] at hq
        cases hq
        exact ⟨rfl,rfl⟩
      · intro q hq
        simp [letThrough] at hq
  | granted tag body p u u' v v' now hpub hslot hgranted =>
      right
      refine ⟨⟨tag,body,u,some (v,now),none⟩,rfl,rfl,?_,?_⟩
      · intro q _ hcharged
        cases hcharged
      · intro q hq _
        rw [letThrough,passed,hpub,Option.filter_some,if_pos hslot,Option.filter_some,
          if_pos (by simpa using hgranted)] at hq
        cases hq
        exact ⟨rfl,rfl⟩
  | _ => exact .inl rfl

theorem tracks_next (c stream : ℕ) (l : LaneReader Id) :
    Tracks (F := F) c stream [] l.next.task := by
  unfold LaneReader.next
  split_ifs
  · exact .over
  · exact .reading

/-- A step of a lane reader: the frame it has in hand goes on, or is given up and answered,
or is carried out. -/
inductive LaneStep (s : State Id F) (c stream : ℕ) (conn : Conn Id F) (l : LaneReader Id)
    (prior : List (Taken (State Id F) (Action Id))) (x : Taken (State Id F) (Action Id))
    (sends : List (Send Id)) (task' : LaneTask Id) : Prop
  | goesOn : (∀ m ∈ sends, NotDeliver m.msg) → Tracks c stream (prior++[x]) task' →
      LaneStep s c stream conn l prior x sends task'
  | givenUp : (∀ m ∈ sends, NotDeliver m.msg) → Tracks (F := F) c stream [] task' →
      (∀ xs, ∃ y, passages (prior++x::xs) = y::passages xs ∧ letThrough c y = none ∧
        (y.charged = none → passed c y = none)) →
      LaneStep s c stream conn l prior x sends task'
  | carries (y : Passage Id F) (p : Publish Id) : Carried s.rooms c ⟨conn.peer,c⟩ l.lane p sends →
      letThrough c y = some p → y.charged ≠ none → y.carried = some s →
      Tracks (F := F) c stream [] task' → (∀ xs, passages (prior++x::xs) = y::passages xs) →
      LaneStep s c stream conn l prior x sends task'

theorem lane_step {a : Act Id} {stream : ℕ} {l : LaneReader Id} (s' : State Id F)
    (hτ : task a = some (.lane stream)) (hc : s.conns c = some conn)
    (h : perform limits s.rooms c conn a = some e) (hl : conn.lanes stream = some l) :
    ∃ l', e.conn.lanes stream = some l' ∧ l'.lane = l.lane ∧
      ∀ prior, Tracks c stream prior l.task →
        LaneStep s c stream conn l prior ⟨.act c a,s,s'⟩ e.sends l'.task := by
  -- A frame that does not pass its check is given up at once.
  have hunpassed : ∀ {tag body} {sends : List (Send Id)} {task' : LaneTask Id} {lane : Lane},
      (∀ m ∈ sends, NotDeliver m.msg) → Tracks (F := F) c stream [] task' →
      ((publication tag body : Option (Publish Id)).filter fun p => holdsSlot s c p.topic) = none →
      LaneStep s c stream conn ⟨lane,.reading⟩ [] ⟨.act c (.laneFrame stream tag body),s,s'⟩ sends
        task' := by
    intro tag body sends task' lane hsends htask hnone
    refine .givenUp hsends htask fun xs => ⟨⟨tag,body,s,chargedIn xs,carriedIn xs⟩,rfl,?_,fun _ => hnone⟩
    rw [letThrough,passed,hnone]
    rfl
  cases perform_ran h with
  | laneMalformed lane err hl' hlane hd =>
      cases hτ
      cases hl.symm.trans hl'
      refine ⟨_,setLane_self _ _ _,rfl,?_⟩
      rintro _ ⟨⟩
      exact hunpassed (notDeliver_error c _ _) (tracks_next _ _ _) (by simp only [publication,hd]; rfl)
  | laneTooLarge lane f topicBytes hl' hd hnone =>
      cases hτ
      cases hl.symm.trans hl'
      refine ⟨_,setLane_self _ _ _,rfl,?_⟩
      rintro _ ⟨⟩
      exact hunpassed (notDeliver_error c _ _) (tracks_next _ _ _) (by rw [hnone]; rfl)
  | laneNotSubscribed lane p hl' hpub hm =>
      cases hτ
      cases hl.symm.trans hl'
      refine ⟨_,setLane_self _ _ _,rfl,?_⟩
      rintro _ ⟨⟩
      refine hunpassed (notDeliver_error c _ _) (tracks_next _ _ _) ?_
      simp [hpub,Option.filter_some,holdsSlot_of_conn hc,hm]
  | laneStopped lane hl' hnone =>
      cases hτ
      cases hl.symm.trans hl'
      refine ⟨_,setLane_self _ _ _,rfl,?_⟩
      rintro _ ⟨⟩
      exact hunpassed (List.forall_mem_nil _) .over (by rw [hnone]; rfl)
  | laneChecked lane p hl' hpub hm =>
      cases hτ
      cases hl.symm.trans hl'
      refine ⟨_,setLane_self _ _ _,rfl,?_⟩
      rintro _ ⟨⟩
      refine .goesOn (List.forall_mem_nil _) (.checked _ _ p s s' hpub ?_)
      rw [holdsSlot_of_conn hc,hm]
  | laneGranted lane p hl' hgranted =>
      cases hτ
      cases hl.symm.trans hl'
      refine ⟨_,setLane_self _ _ _,rfl,?_⟩
      intro prior htracks
      cases htracks with
      | checked tag body p u u' hpub hslot =>
          refine .goesOn (List.forall_mem_nil _) (.granted tag body p u u' s s' _ hpub hslot ?_)
          rw [granted,hc]
          exact hgranted
  | laneDenied lane p hl' hdenied =>
      cases hτ
      cases hl.symm.trans hl'
      refine ⟨_,setLane_self _ _ _,rfl,?_⟩
      intro prior htracks
      cases htracks with
      | checked tag body p u u' hpub hslot =>
          refine .givenUp (notDeliver_error c _ _) (tracks_next _ _ _) fun xs =>
            ⟨⟨tag,body,u,some (s,_),carriedIn (_::xs)⟩,rfl,?_,fun h => by cases h⟩
          simp [letThrough,passed,hpub,Option.filter_some,hslot,granted,hc,hdenied]
  | laneRoom lane p sends hl' hcarried =>
      cases hτ
      cases hl.symm.trans hl'
      refine ⟨_,setLane_self _ _ _,rfl,?_⟩
      intro prior htracks
      cases htracks with
      | granted tag body p u u' v v' now hpub hslot hgranted =>
          refine .carries ⟨tag,body,u,some (v,now),some s⟩ p hcarried ?_ (by simp) rfl (tracks_next _ _ _)
            fun _ => rfl
          simp [letThrough,passed,hpub,Option.filter_some,hslot,hgranted]
  | _ => cases hτ

/-! ### Whole runs -/

/-- A step towards a queue that refuses appends nothing to it, and the queue
still refuses. -/
theorem refusing_step {s' : State Id F} {b : Action Id} {dconn : Conn Id F}
    (hi : Invariant limits s) (hs : step limits s b = some s') (hd : s.conns d = some dconn)
    (h : Refuses (s.outs d) i) :
    ((s'.outs d).lanes i).sent = ((s.outs d).lanes i).sent ∧ Refuses (s'.outs d) i := by
  rcases step_cases hi hs with hpassive | ⟨c,a,conn,e,-,-,-,rfl⟩
  · exact ⟨hpassive.lanes d dconn hd i,h.later (hpassive.later d dconn hd)⟩
  · rw [State.apply_outs]
    exact ⟨by rw [acceptAll_refuses h],h.later (acceptAll_later _ _)⟩

theorem refusing_run {t : State Id F} {post : List (Action Id)} {sel : Action Id → Bool}
    {dconn : Conn Id F} (hi : Invariant limits s) (hrun : exec (step limits) s post = some t)
    (hd : s.conns d = some dconn) (h : Refuses (s.outs d) i) :
    (taken (step limits) sel s post).flatMap (gained i d) = [] := by
  induction post generalizing s dconn with
  | nil => rfl
  | cons b post ih =>
      obtain ⟨s',hb,hrun⟩ := (exec_cons_eq_some _).mp hrun
      obtain ⟨hsent,h'⟩ := refusing_step hi hb hd h
      obtain ⟨dconn',hd',-⟩ := step_kept hi hb hd
      rw [taken_cons _ _ hb,List.flatMap_append,ih (step_invariant hi hb) hrun hd' h',
        List.append_nil]
      split_ifs
      · simp [gained,hsent]
      · rfl

/-- What a stream's frames should have put into a connection's lane queue. -/
def due (c d : ℕ) (i : Fin 2) (xs : List (Passage Id F)) : List (Queued Deliver) :=
  (((xs.filterMap (accepted c)).filter fun y => entitled y.2 c d y.1).takeWhile fun y =>
    decide (FitsLane (y.2.outs d) i y.1.deliver.len)).map fun y => ⟨y.1.deliver,y.1.deliver.len⟩

theorem due_not {c d : ℕ} {x : Passage Id F} {xs : List (Passage Id F)}
    (h : (accepted c x).filter (fun y => entitled y.2 c d y.1) = none) :
    due c d i (x::xs) = due c d i xs := by
  unfold due
  cases hx : accepted c x with
  | none => rw [List.filterMap_cons_none hx]
  | some y =>
      rw [hx,Option.filter_some] at h
      rw [List.filterMap_cons_some hx,List.filter_cons]
      split_ifs at h ⊢
      rfl

theorem due_entitled {c d : ℕ} {x : Passage Id F} {xs : List (Passage Id F)}
    {y : Publish Id × State Id F} (hx : accepted c x = some y) (hy : entitled y.2 c d y.1 = true) :
    due c d i (x::xs) = if FitsLane (y.2.outs d) i y.1.deliver.len then
      ⟨y.1.deliver,y.1.deliver.len⟩::due c d i xs else [] := by
  unfold due
  rw [List.filterMap_cons_some hx,List.filter_cons,if_pos hy,List.takeWhile_cons]
  by_cases hfits : FitsLane (y.2.outs d) i y.1.deliver.len
  · rw [decide_eq_true hfits,if_pos rfl,if_pos hfits]
    rfl
  · rw [decide_eq_false hfits,if_neg Bool.false_ne_true,if_neg hfits]
    rfl

/-- A frame that is carried out appends what is due of it; if the recipient's
queue refuses it, nothing may follow. -/
theorem gained_due {x : Passage Id F} {xs : List (Passage Id F)} {rest : List (Queued Deliver)}
    {b : Action Id} (hi : Invariant limits s) (hc : s.conns c = some conn)
    (hcarried : Carried s.rooms c ⟨conn.peer,c⟩ (longLane i) p e.sends)
    (hlet : letThrough c x = some p) (hx : x.carried = some s) (hrest : rest = due c d i xs)
    (hrefused : ∀ dconn, s.conns d = some dconn → Refuses ((s.apply c e).outs d) i → rest = []) :
    gained i d ⟨b,s,s.apply c e⟩++rest = due c d i (x::xs) := by
  have hgained : gained i d ⟨b,s,s.apply c e⟩ = _ :=
    (congrArg (List.drop _) (carried_lane hi hc hcarried d)).trans List.drop_left
  have haccepted : accepted c x = if holdsSlot s c p.topic then some (p,s) else none := by
    simp only [accepted,hlet,hx,Option.bind_some,Option.filter_some]
    cases holdsSlot s c p.topic <;> rfl
  rw [hgained]
  by_cases hto : (holdsSlot s c p.topic && entitled s c d p) = true
  · obtain ⟨hslot,hentitled⟩ := Bool.and_eq_true_iff.mp hto
    rw [if_pos hslot] at haccepted
    rw [due_entitled haccepted hentitled]
    by_cases hfits : FitsLane (s.outs d) i p.deliver.len
    · rw [if_pos ⟨hto,hfits⟩,if_pos hfits,List.singleton_append,hrest]
    · obtain ⟨dconn,hd,-⟩ := (entitled_iff hc).mp hentitled
      have hnone := hrefused dconn hd (carried_refused hi hc hcarried hto hfits)
      rw [if_neg fun h => hfits h.2,if_neg hfits,List.nil_append,hnone]
  · rw [if_neg fun h => hto h.1,List.nil_append,hrest]
    refine (due_not ?_).symm
    rw [haccepted]
    split_ifs with hslot
    · simpa [hslot] using hto
    · rfl

theorem stream_sent {t : State Id F} {post : List (Action Id)} {stream : ℕ} {l : LaneReader Id}
    {prior : List (Taken (State Id F) (Action Id))} (hi : Invariant limits s)
    (hc : s.conns c = some conn) (hrun : exec (step limits) s post = some t)
    (hl : conn.lanes stream = some l) (hlane : l.lane = longLane i)
    (htracks : Tracks c stream prior l.task) (d : ℕ) :
    (taken (step limits) (ofTask c (.lane stream)) s post).flatMap (gained i d) =
      due c d i (passages (prior++taken (step limits) (ofTask c (.lane stream)) s post)) := by
  induction post generalizing s conn l prior with
  | nil =>
      rw [taken,List.append_nil,List.flatMap_nil]
      rcases htracks.unfinished with hnone | ⟨x,hx,hcarried,-⟩
      · rw [hnone]
        rfl
      · rw [hx,due_not]
        · rfl
        · simp [accepted,hcarried]
  | cons b post ih =>
      obtain ⟨s',hb,hrun⟩ := (exec_cons_eq_some _).mp hrun
      have hi' := step_invariant hi hb
      rw [taken_cons _ _ hb]
      cases hown : ofTask c (.lane stream) b with
      | false =>
          obtain ⟨conn',hc',hl'⟩ := lane_kept hi hb hown hc hl
          exact ih hi' hc' hrun hl' hlane htracks
      | true =>
          obtain ⟨a,e,rfl,hτ,he,rfl⟩ := own_step hown hb hc
          obtain ⟨l',hl',hlane',hstep⟩ := lane_step (s.apply c e) hτ hc he hl
          have hc' := State.apply_conns_self s c e
          have hnext := fun prior' (htracks' : Tracks c stream prior' l'.task) =>
            ih hi' hc' hrun hl' (hlane'.trans hlane) htracks'
          have hnone : (∀ m ∈ e.sends, NotDeliver m.msg) →
              gained i d ⟨.act c a,s,s.apply c e⟩ = [] := by
            intro hsends
            simp [gained,State.apply_outs,
              (acceptAll_notDeliver _ (notDeliver_sendsTo hsends d)).1]
          simp only [if_true,List.singleton_append,List.flatMap_cons]
          cases hstep prior htracks with
          | goesOn hsends htracks' =>
              rw [hnone hsends,List.nil_append,hnext _ htracks',List.append_assoc,List.singleton_append]
          | givenUp hsends htracks' hpass =>
              obtain ⟨y,hy,hlet,-⟩ := hpass (taken (step limits) (ofTask c (.lane stream)) _ post)
              rw [hnone hsends,List.nil_append,hy,due_not (by rw [accepted,hlet]; rfl)]
              exact hnext [] htracks'
          | carries y p hcarried hlet _ hy htracks' hpass =>
              rw [hlane] at hcarried
              rw [hpass]
              apply gained_due hi hc hcarried hlet hy
              · exact hnext [] htracks'
              · intro dconn hd hrefuses
                obtain ⟨dconn',hd',-⟩ := step_kept hi hb hd
                exact refusing_run hi' hrun hd' hrefuses

/-- No frame of a stream is left behind. -/
theorem stream_wentOn {t : State Id F} {post : List (Action Id)} {stream : ℕ} {l : LaneReader Id}
    {prior : List (Taken (State Id F) (Action Id))} (hi : Invariant limits s)
    (hc : s.conns c = some conn) (hrun : exec (step limits) s post = some t)
    (hl : conn.lanes stream = some l) (htracks : Tracks c stream prior l.task)
    {x : Passage Id F} {rest : List (Passage Id F)}
    (hx : x::rest <:+ passages (prior++taken (step limits) (ofTask c (.lane stream)) s post)) :
    WentOn c (readerTask t c stream) x rest := by
  induction post generalizing s conn l prior with
  | nil =>
      cases hrun
      have htask : readerTask t c stream = some l.task := by
        rw [readerTask,hc,Option.bind_some,hl]
        rfl
      rw [taken,List.append_nil] at hx
      rcases htracks.unfinished with hnone | ⟨y,hy,-,hwent⟩
      · rw [hnone,List.suffix_nil] at hx
        cases hx
      · rw [hy,List.suffix_cons_iff,List.suffix_nil] at hx
        rcases hx with heq | heq
        · cases heq
          rw [htask]
          exact hwent
        · cases heq
  | cons b post ih =>
      obtain ⟨s',hb,hrun⟩ := (exec_cons_eq_some _).mp hrun
      have hi' := step_invariant hi hb
      rw [taken_cons _ _ hb] at hx
      cases hown : ofTask c (.lane stream) b with
      | false =>
          rw [hown] at hx
          obtain ⟨conn',hc',hl'⟩ := lane_kept hi hb hown hc hl
          exact ih hi' hc' hrun hl' htracks hx
      | true =>
          rw [hown] at hx
          obtain ⟨a,e,rfl,hτ,he,rfl⟩ := own_step hown hb hc
          obtain ⟨l',hl',-,hstep⟩ := lane_step (s.apply c e) hτ hc he hl
          have hc' := State.apply_conns_self s c e
          have hnext := fun prior' (htracks' : Tracks c stream prior' l'.task) =>
            ih hi' hc' hrun hl' htracks'
          rw [if_pos rfl,List.singleton_append] at hx
          cases hstep prior htracks with
          | goesOn hsends htracks' =>
              refine hnext _ htracks' ?_
              rwa [List.append_assoc,List.singleton_append]
          | givenUp hsends htracks' hpass =>
              obtain ⟨y,hy,hlet,hcharged⟩ := hpass (taken (step limits) (ofTask c (.lane stream)) _ post)
              rw [hy,List.suffix_cons_iff] at hx
              rcases hx with heq | hx
              · cases heq
                refine ⟨?_,?_⟩
                · intro p hp hnone
                  rw [hcharged hnone] at hp
                  cases hp
                · intro p hp
                  rw [hlet] at hp
                  cases hp
              · exact hnext [] htracks' hx
          | carries y p hcarried hlet hcharged hy htracks' hpass =>
              rw [hpass,List.suffix_cons_iff] at hx
              rcases hx with heq | hx
              · cases heq
                refine ⟨fun p _ hnone => absurd hnone hcharged,?_⟩
                intro p _ hnone
                rw [hy] at hnone
                cases hnone
              · exact hnext [] htracks' hx

/-! ### Who else delivers -/

/-- Only the room operation of a lane frame delivers anything. -/
theorem perform_delivers {r : Rooms Id} {a : Act Id} (h : perform limits r c conn a = some e) :
    (∀ m ∈ e.sends, NotDeliver m.msg) ∨ ∃ stream l p, a = .laneRoom stream ∧
      conn.lanes stream = some l ∧ Carried r c ⟨conn.peer,c⟩ l.lane p e.sends := by
  by_cases ha : ∃ stream, a = .laneRoom stream
  · obtain ⟨stream,rfl⟩ := ha
    cases perform_ran h with
    | laneRoom lane p sends hl hcarried => exact .inr ⟨stream,_,p,rfl,hl,hcarried⟩
  · left
    intro m hm lane frame heq
    have hsends := perform_sends h m hm
    rw [heq] at hsends
    cases hsends with
    | deliver stream l frame hroom => exact ha ⟨stream,hroom⟩

/-- The steps of everything but the lane readers. -/
def offLanes : Action Id → Bool
  | .act _ a =>
      match task a with
      | some (.lane _) => false
      | _ => true
  | _ => false

theorem offLanes_untouched {s' : State Id F} {b : Action Id} (hs : step limits s b = some s')
    (hb : offLanes b = true) (d : ℕ) (lane : Lane) :
    LaneUntouched lane (s.outs d) (s'.outs d) := by
  cases b with
  | act c a =>
      obtain ⟨conn,e,hc,he,rfl⟩ := step_act hs
      rcases perform_delivers he with hsends | ⟨stream,l,p,rfl,-⟩
      · exact untouched_notDeliver (notDeliver_sendsTo hsends d) lane
      · cases hb
  | _ => cases hb

omit [DecidableEq Id] [EndpointKey Id] [Scalar F] in
theorem untouched_longLane {out out' : Outbound Id} (h : LaneUntouched (longLane i) out out') :
    (out'.lanes i).sent = (out.lanes i).sent := by
  match i with
  | 0 => exact h
  | 1 => exact h

/-- A lane reader's step appends to a connection's lane queue, adds nothing to any
other lane, and nothing at all to a connection of its own endpoint. -/
theorem lane_step_untouched {s' : State Id F} {a : Act Id} {stream : ℕ} {l : LaneReader Id}
    (hi : Invariant limits s) (hs : step limits s (.act c a) = some s')
    (hτ : task a = some (.lane stream)) (hc : s.conns c = some conn)
    (hl : conn.lanes stream = some l) (d : ℕ) :
    (∀ i, ((s'.outs d).lanes i).sent =
      ((s.outs d).lanes i).sent++gained i d ⟨.act c a,s,s'⟩) ∧
    ∀ lane, lane ≠ l.lane ∨ (s.conns d).map Conn.peer = (s.conns c).map Conn.peer →
      LaneUntouched lane (s.outs d) (s'.outs d) := by
  have happend : ∀ {i : Fin 2} {xs : List (Queued Deliver)},
      ((s'.outs d).lanes i).sent = ((s.outs d).lanes i).sent++xs →
      ((s'.outs d).lanes i).sent =
        ((s.outs d).lanes i).sent++gained i d ⟨.act c a,s,s'⟩ := by
    intro i xs hxs
    simp only [gained,hxs,List.drop_left]
  have hsame : ∀ {i : Fin 2}, LaneUntouched (longLane i) (s.outs d) (s'.outs d) →
      ((s'.outs d).lanes i).sent =
        ((s.outs d).lanes i).sent++gained i d ⟨.act c a,s,s'⟩ :=
    fun h => happend ((untouched_longLane h).trans (List.append_nil _).symm)
  obtain ⟨conn',e,hc',he,rfl⟩ := step_act hs
  rw [hc] at hc'
  cases hc'
  rcases perform_delivers he with hsends | ⟨stream',l',p,rfl,hl',hcarried⟩
  · have huntouched := untouched_notDeliver (s := s) (c := c) (notDeliver_sendsTo hsends d)
    exact ⟨fun i => hsame (huntouched _),fun lane _ => huntouched lane⟩
  · cases hτ
    rw [hl] at hl'
    cases hl'
    constructor
    · intro i
      by_cases hlane : longLane i = l.lane
      · exact happend (carried_lane hi hc (hlane ▸ hcarried) d)
      · exact hsame (carried_untouched hi hc hcarried (.inl hlane))
    · intro lane hne
      apply carried_untouched hi hc hcarried
      rcases hne with hne | hpeer
      · exact .inl hne
      · right
        rw [Bool.eq_false_iff,Ne,entitled_iff hc]
        rintro ⟨dconn,hd,-,hother,-⟩
        rw [hd,hc] at hpeer
        exact hother (Option.some.inj hpeer)

/-- A lane stream is there, and on its lane. -/
structure Streams (limits : Limits F) (c stream : ℕ) (lane : Lane) (s : State Id F) : Prop where
  ok : Invariant limits s
  reader : ∃ conn l, s.conns c = some conn ∧ conn.lanes stream = some l ∧ l.lane = lane

theorem streams_step {s' : State Id F} {b : Action Id} {stream : ℕ}
    (h : Streams limits c stream lane s) (hs : step limits s b = some s') :
    Streams limits c stream lane s' := by
  refine ⟨step_invariant h.ok hs,?_⟩
  obtain ⟨conn,l,hc,hl,hlane⟩ := h.reader
  cases hown : ofTask c (.lane stream) b with
  | false =>
      obtain ⟨conn',hc',hl'⟩ := lane_kept h.ok hs hown hc hl
      exact ⟨conn',l,hc',hl',hlane⟩
  | true =>
      obtain ⟨a,e,rfl,hτ,he,rfl⟩ := own_step hown hs hc
      obtain ⟨l',hl',hlane',-⟩ := lane_step s hτ hc he hl
      exact ⟨e.conn,l',State.apply_conns_self s c e,hl',hlane'.trans hlane⟩

/-- The steps of a stream that is there in `s`. -/
def streamSteps (limits : Limits F) (c stream : ℕ) (s : State Id F) (post : List (Action Id)) :
    List (Taken (State Id F) (Action Id)) :=
  taken (step limits) (ofTask c (.lane stream)) s post

theorem openLane_streams {s' : State Id F} {stream : ℕ} (hi : Invariant limits s)
    (hs : step limits s (.act c (.openLane stream lane)) = some s') :
    Invariant limits s' ∧ ∃ conn, s'.conns c = some conn ∧
      conn.lanes stream = some ⟨lane,.reading⟩ := by
  refine ⟨step_invariant hi hs,?_⟩
  obtain ⟨conn,e,-,he,rfl⟩ := step_act hs
  refine ⟨e.conn,State.apply_conns_self s c e,?_⟩
  simp only [perform] at he
  split at he
  · cases he
    exact setLane_self _ _ _
  · cases he

theorem streamSteps_untouched {post : List (Action Id)} {stream : ℕ}
    (h : Streams limits c stream lane s) {x : Taken (State Id F) (Action Id)}
    (hx : x ∈ streamSteps limits c stream s post) (d : ℕ) :
    (∀ i, ((x.after.outs d).lanes i).sent = ((x.before.outs d).lanes i).sent++gained i d x) ∧
    ∀ lane', lane' ≠ lane ∨
        (x.before.conns d).map Conn.peer = (x.before.conns c).map Conn.peer →
      LaneUntouched lane' (x.before.outs d) (x.after.outs d) := by
  obtain ⟨bs,hbs,hstep,hown⟩ := of_mem_taken _ hx
  obtain ⟨hi,conn,l,hc,hl,rfl⟩ :=
    exec_invariant _ (I := Streams limits c stream lane) (fun _ _ _ => streams_step) h hbs
  obtain ⟨label,before,after⟩ := x
  cases label with
  | act c' a =>
      obtain ⟨rfl,hτ⟩ := of_decide_eq_true hown
      exact lane_step_untouched hi hstep hτ hc hl d
  | _ => cases hown

/-- From the opening of a lane stream on, whatever comes in between: what its
frames append to a connection's queue of that lane is exactly what is due, and no frame
that passed its check or was granted is left behind. No step of the stream adds to another
lane or to a connection of the publisher's endpoint, and no task but a lane reader adds to
any lane. -/
theorem fan_out_exactly_once {pre post : List (Action Id)} {s₀ s₁ t : State Id F} {stream : ℕ}
    (hpre : exec (step limits) (State.init limits) pre = some s₀)
    (hopen : step limits s₀ (.act c (.openLane stream lane)) = some s₁)
    (hpost : exec (step limits) s₁ post = some t) :
    (∀ i d, longLane i = lane →
      (∀ x ∈ streamSteps limits c stream s₁ post, ((x.after.outs d).lanes i).sent =
        ((x.before.outs d).lanes i).sent++gained i d x) ∧
      (streamSteps limits c stream s₁ post).flatMap (gained i d) =
        due c d i (passages (streamSteps limits c stream s₁ post))) ∧
    (∀ x rest, x::rest <:+ passages (streamSteps limits c stream s₁ post) →
      WentOn c (readerTask t c stream) x rest) ∧
    (∀ x ∈ streamSteps limits c stream s₁ post, ∀ d lane', lane' ≠ lane ∨
        (x.before.conns d).map Conn.peer = (x.before.conns c).map Conn.peer →
      LaneUntouched lane' (x.before.outs d) (x.after.outs d)) ∧
    (∀ x ∈ taken (step limits) offLanes (State.init limits)
        (pre++.act c (.openLane stream lane)::post), ∀ d lane',
      LaneUntouched lane' (x.before.outs d) (x.after.outs d)) := by
  obtain ⟨hi,conn,hc,hl⟩ := openLane_streams (run_invariant hpre) hopen
  have hstreams : Streams limits c stream lane s₁ := ⟨hi,conn,_,hc,hl,rfl⟩
  refine ⟨?_,?_,?_,?_⟩
  · rintro i d rfl
    constructor
    · intro x hx
      exact (streamSteps_untouched hstreams hx d).1 i
    · exact stream_sent hi hc hpost hl rfl .reading d
  · intro x rest hx
    exact stream_wentOn hi hc hpost hl .reading hx
  · intro x hx d
    exact (streamSteps_untouched hstreams hx d).2
  · intro x hx d lane'
    obtain ⟨bs,-,hstep,hoff⟩ := of_mem_taken _ hx
    exact offLanes_untouched hstep hoff d lane'

end

/-- Two endpoints in one room. -/
def pair : List (Action RawId) :=
  [.connect .base 0,.connect .identity 0,sends 1 (.subscribe (topicOf 7)) 0,
    sends 2 (.subscribe (topicOf 7)) 0]

/-- A frame for everyone and one for the recipient; then the recipient's queue
closes and a third frame is published. A fourth is still in the reader's hand. -/
def hangUp : List (Action RawId) :=
  [.act 1 (publishes 0 (.publish (topicOf 7) [1,10])),.act 1 (.laneRate 0 1),.act 1 (.laneRoom 0),
    .act 1 (publishes 0 (.publishTo (topicOf 7) .identity [2])),.act 1 (.laneRate 0 2),
    .act 1 (.laneRoom 0),.drain 2 (.hungUp (.lane ⟨0,Nat.zero_lt_two⟩)),
    .act 1 (publishes 0 (.publish (topicOf 7) [3])),.act 1 (.laneRate 0 3),.act 1 (.laneRoom 0),
    .act 1 (publishes 0 (.publish (topicOf 7) [4])),.act 1 (.laneRate 0 4)]

theorem fan_out_exactly_once_hang_up : ∃ s₀ s₁ t,
    exec (step .default) (State.init .default) pair = some s₀ ∧
    step .default s₀ (.act 1 (.openLane 0 .control)) = some s₁ ∧
    exec (step .default) s₁ hangUp = some t ∧
    ((streamSteps .default 1 0 s₁ hangUp).flatMap (gained 0 2)).map (fun q => q.item.payload) =
      [[1,10],[2]] ∧
    (passages (streamSteps .default 1 0 s₁ hangUp)).map (fun x => x.carried.isSome) =
      [true,true,true,false] ∧
    (streamSteps .default 1 0 s₁ hangUp).flatMap (gained 0 2) =
      due 1 2 0 (passages (streamSteps .default 1 0 s₁ hangUp)) ∧
    ∀ x rest, x::rest <:+ passages (streamSteps .default 1 0 s₁ hangUp) →
      WentOn 1 (readerTask t 1 0) x rest := by
  have hrun : (exec (step .default) (State.init .default) pair).any (fun s₀ =>
      (step .default s₀ (.act 1 (.openLane 0 .control))).any fun s₁ =>
        (exec (step .default) s₁ hangUp).any fun _ =>
          decide (((streamSteps .default 1 0 s₁ hangUp).flatMap (gained 0 2)).map
              (fun q => q.item.payload) = [[1,10],[2]] ∧
            (passages (streamSteps .default 1 0 s₁ hangUp)).map (fun x => x.carried.isSome) =
              [true,true,true,false])) = true := by
    decide +kernel
  obtain ⟨s₀,hpre,hrun⟩ := (Option.any_eq_true _ _).mp hrun
  obtain ⟨s₁,hopen,hrun⟩ := (Option.any_eq_true _ _).mp hrun
  obtain ⟨t,hpost,hrun⟩ := (Option.any_eq_true _ _).mp hrun
  obtain ⟨hpayloads,hcarried⟩ := of_decide_eq_true hrun
  obtain ⟨hdue,hwent,-⟩ := fan_out_exactly_once hpre hopen hpost
  exact ⟨s₀,s₁,t,hpre,hopen,hpost,hpayloads,hcarried,(hdue 0 2 rfl).2,hwent⟩

end KeepTalkingSfu.FanOut
