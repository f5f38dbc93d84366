import KeepTalkingSfu.SlotOwnership
import KeepTalkingSfu.FloodBound

/-!
# Subscribing again after a reconnect

A client that reconnects subscribes to all its topics at once. The join rate allows that:
its burst is above the number of topics a connection may have, and it is refilled but never
drained by anything other than a SUBSCRIBE that gets that far. So no SUBSCRIBE of a new
connection is refused for the rate or for the number of topics, as long as there have been
no more of them than both allow; only a full room can refuse one, or the topic itself if it
is the reserved one.

Levels are exact rationals here.
-/
namespace KeepTalkingSfu.Resubscription
open ByteTransport WireFormat MemberQueues RoomTable TokenBucket Server StepCases ServerEffects
  RoomInvariant TaskSteps InterleavedRuns SlotOwnership TokenWindow FloodBound

/-! ### A rate on frames only -/

/-- The bucket of a rate on frames only, with at least `n` frames in it. -/
structure Holding (perSecond burst : ℚ≥0) (n : ℚ) (b : Bucket Level) : Prop where
  rate : b.rate = .frames (.finite perSecond) (.finite burst)
  bytes : b.bytes = .infinite
  frames : ∃ y, b.frames = .finite y ∧ n ≤ y ∧ y ≤ burst

section
variable {perSecond burst : ℚ≥0} {n : ℚ}

theorem holding_new (perSecond burst : ℚ≥0) (now : ℕ) :
    Holding perSecond burst burst (.new (.frames (.finite perSecond) (.finite burst)) now) :=
  ⟨rfl,rfl,burst,rfl,le_rfl,le_rfl⟩

theorem Holding.mono {b : Bucket Level} {m : ℚ} (h : Holding perSecond burst n b) (hm : m ≤ n) :
    Holding perSecond burst m b := by
  obtain ⟨y,hy,hn,hburst⟩ := h.frames
  exact ⟨h.rate,h.bytes,y,hy,hm.trans hn,hburst⟩

theorem tryTake_frames {y : ℚ} {last now : ℕ}
    (h : 1 ≤ refilled (perSecond/ticks) burst y (now-last)) :
    (⟨.frames (.finite perSecond) (.finite burst),.infinite,.finite y,last⟩ : Bucket Level).tryTake 0 now =
      (true,⟨.frames (.finite perSecond) (.finite burst),.infinite,
        .finite (refilled (perSecond/ticks) burst y (now-last)-1),now⟩) := by
  have hbytes : refill .infinite (Scalar.infinity : Level) Scalar.infinity (Scalar.seconds (now-last)) =
      .infinite := rfl
  simp only [Bucket.tryTake,Rate.frames,refill_exact,hbytes]
  simp [Scalar.lt,Scalar.ofNat,Scalar.sub,Level.lift,Level.less,not_lt.mpr h]

/-- As long as there is a frame in the bucket it is taken. -/
theorem Holding.take {b : Bucket Level} (h : Holding perSecond burst n b) (hn : 1 ≤ n) (now : ℕ) :
    (b.tryTake 0 now).1 = true ∧ Holding perSecond burst (n-1) (b.tryTake 0 now).2 := by
  obtain ⟨hr,hbytes,y,hframes,hny,hyburst⟩ := h
  have hb : b = ⟨.frames (.finite perSecond) (.finite burst),.infinite,.finite y,b.last⟩ := by
    rw [← hr,← hbytes,← hframes]
  have hinflow : (0 : ℚ) ≤ ((now-b.last : ℕ) : ℚ)*(perSecond/ticks) :=
    mul_nonneg (Nat.cast_nonneg _) (perTick_nonneg perSecond)
  have hlevel : y ≤ refilled (perSecond/ticks) burst y (now-b.last) := le_min (by linarith) hyburst
  have hburst : refilled (perSecond/ticks) burst y (now-b.last) ≤ burst := min_le_right _ _
  rw [hb,tryTake_frames (hn.trans (hny.trans hlevel))]
  exact ⟨rfl,rfl,rfl,_,rfl,by linarith,by linarith⟩

end

/-! ### The connection's SUBSCRIBEs -/

section
variable {Id : Type} [DecidableEq Id] [EndpointKey Id]

/-- The topic of a SUBSCRIBE of the connection. -/
def subscribeOf (c : ℕ) : Action Id → Option Topic
  | .act d (.sessionFrame tag body _) =>
      if d = c then
        match (ClientFrame.decode tag body : Except String (ClientFrame Id)) with
        | .ok (.subscribe t) => some t
        | _ => none
      else none
  | _ => none

/-- The topics of a run's SUBSCRIBEs of the connection. -/
def subscribesOf (c : ℕ) (as : List (Action Id)) : List Topic := as.filterMap (subscribeOf c)

omit [DecidableEq Id] in
theorem subscribeOf_eq {c : ℕ} {a : Action Id} {t : Topic} (h : subscribeOf c a = some t) :
    ∃ tag body now, a = .act c (.sessionFrame tag body now) ∧
      ClientFrame.decode tag body = .ok (ClientFrame.subscribe t : ClientFrame Id) := by
  unfold subscribeOf at h
  split at h
  · next d tag body now =>
    split_ifs at h with hd
    subst hd
    split at h
    · next t' hdecode =>
      cases h
      exact ⟨tag,body,now,rfl,hdecode⟩
    · cases h
  · cases h

/-- A SUBSCRIBE with topics and rate to spare: only the room can refuse it. -/
theorem handleSubscribe_spare {F : Type} [Scalar F] {limits : Limits F} {r : Rooms Id} {c : ℕ}
    {conn : Conn Id F} {t : Topic} {now : ℕ} (ht : t ∉ conn.subscribed) (hzero : t.isZero = false)
    (hcard : conn.subscribed.card < limits.maxTopicsPerConnection)
    (htake : (conn.joinRate.tryTake 0 now).1 = true) :
    handleSubscribe limits r c conn t now =
      if r.isFull t conn.peer then
        ⟨r,{ conn with joinRate := (conn.joinRate.tryTake 0 now).2 },[error c (some t) Reason.roomFull]⟩
      else
        ⟨r.insertRoom t (r.joined t ⟨conn.peer,c⟩),{ conn with
          joinRate := (conn.joinRate.tryTake 0 now).2
          subscribed := insert t conn.subscribed },r.joinSends t ⟨conn.peer,c⟩⟩ := by
  unfold handleSubscribe
  rw [if_neg ht,if_neg (by simp [hzero]),if_neg (Nat.not_le.mpr hcard)]
  simp only [htake,if_true]
  cases hfull : r.isFull t conn.peer with
  | true => simp only [r.join_full t ⟨conn.peer,c⟩ hfull,if_true,List.nil_append]
  | false => simp only [r.join_ok t ⟨conn.peer,c⟩ hfull,Bool.false_eq_true,if_false]

/-! ### A new connection -/

/-- The connection after `k` of its SUBSCRIBEs, as far as these are limited. -/
structure Spent (limits : Limits Level) (perSecond burst : ℚ≥0) (c k : ℕ) (s : State Id Level) :
    Prop where
  invariant : Invariant limits s
  conn : ∃ conn, s.conns c = some conn ∧ conn.subscribed.card ≤ k ∧
    Holding perSecond burst (burst-k) conn.joinRate

variable {limits : Limits Level} {perSecond burst : ℚ≥0} {s s' : State Id Level} {c k : ℕ}
  {a : Action Id} {t : Topic}

/-- Nothing but a SUBSCRIBE spends anything. -/
theorem spent_other (h : Spent limits perSecond burst c k s) (hs : step limits s a = some s')
    (ha : subscribeOf c a = none) : Spent limits perSecond burst c k s' := by
  refine ⟨step_invariant h.invariant hs,?_⟩
  obtain ⟨conn,hc,hcard,hrate⟩ := h.conn
  rcases step_cases h.invariant hs with hpassive | ⟨d,act,dconn,e,rfl,hd,he,rfl⟩
  · exact ⟨conn,hpassive.conns c conn hc,hcard,hrate⟩
  · by_cases hcd : c = d
    · subst hcd
      rw [hc] at hd
      cases hd
      refine ⟨e.conn,State.apply_conns_self s c e,?_⟩
      cases perform_ran he with
      | subscribeRefused t₀ reason b hidle hdecode | joined t₀ b hidle hdecode =>
          simp [subscribeOf,hdecode] at ha
      | unsubscribed t₀ | leaveNext t₀ => exact ⟨Finset.card_erase_le.trans hcard,hrate⟩
      | _ => exact ⟨hcard,hrate⟩
    · exact ⟨conn,by rw [State.apply_conns_of_ne _ _ _ hcd,hc],hcard,hrate⟩

/-- What a SUBSCRIBE comes to: the topic was in the set already, or its room is full, or it
is in the set now and the slot is the connection's. -/
def Outcome (c : ℕ) (t : Topic) (s s' : State Id Level) : Prop :=
  t ∈ topics s c ∨ (∃ conn, s.conns c = some conn ∧ s.rooms.isFull t conn.peer = true) ∨
    (t ∈ topics s' c ∧ ∃ conn, s.conns c = some conn ∧ s'.rooms.owner t conn.peer = some c)

theorem spent_subscribe (h : Spent limits perSecond burst c k s) (hs : step limits s a = some s')
    (ha : subscribeOf c a = some t) (hk : k < limits.maxTopicsPerConnection)
    (hburst : ((k+1 : ℕ) : ℚ) ≤ burst) :
    Spent limits perSecond burst c (k+1) s' ∧ (t.isZero = false → Outcome c t s s') := by
  obtain ⟨conn,hc,hcard,hrate⟩ := h.conn
  obtain ⟨tag,body,now,rfl,hdecode⟩ := subscribeOf_eq ha
  obtain ⟨conn',e,hc',he,rfl⟩ := step_act hs
  rw [hc] at hc'
  cases hc'
  have heffect : e = handleSubscribe limits s.rooms c conn t now := by
    simp only [perform] at he
    split_ifs at he
    cases he
    simp only [readSession,hdecode,handleFrame]
  have hspent : ∀ x : Conn Id Level, x.subscribed.card ≤ k+1 →
      Holding perSecond burst (burst-(k+1 : ℕ)) x.joinRate → e.conn = x →
      Spent limits perSecond burst c (k+1) (s.apply c e) := by
    rintro _ hx hrate rfl
    exact ⟨step_invariant h.invariant hs,e.conn,State.apply_conns_self s c e,hx,hrate⟩
  push_cast at hburst hspent
  by_cases ht : t ∈ conn.subscribed
  · rw [handleSubscribe_known ht] at heffect
    refine ⟨hspent conn (by omega) (hrate.mono (by linarith)) (by rw [heffect]),?_⟩
    intro _
    left
    rwa [topics_of_conn hc]
  by_cases hzero : t.isZero = true
  · rw [handleSubscribe,if_neg ht,if_pos hzero] at heffect
    refine ⟨hspent conn (by omega) (hrate.mono (by linarith)) (by rw [heffect]; rfl),?_⟩
    intro hnot
    rw [hzero] at hnot
    cases hnot
  · rw [Bool.not_eq_true] at hzero
    obtain ⟨htake,hrate'⟩ := hrate.take (by linarith) now
    rw [handleSubscribe_spare ht hzero (by omega) htake] at heffect
    rw [sub_sub] at hrate'
    split_ifs at heffect with hfull
    · refine ⟨hspent { conn with joinRate := (conn.joinRate.tryTake 0 now).2 } ?_ hrate' (by rw [heffect]),
        fun _ => .inr (.inl ⟨conn,hc,hfull⟩)⟩
      exact hcard.trans (Nat.le_succ k)
    · refine ⟨hspent { conn with
        joinRate := (conn.joinRate.tryTake 0 now).2
        subscribed := insert t conn.subscribed } ?_ hrate' (by rw [heffect]),fun _ => .inr (.inr ?_)⟩
      · exact (Finset.card_insert_le t _).trans (Nat.succ_le_succ hcard)
      · have hold : t ∉ topics s c := by rwa [topics_of_conn hc]
        have hnew : t ∈ topics (s.apply c e) c := by
          rw [topics_of_conn (State.apply_conns_self s c e),heffect]
          exact Finset.mem_insert_self _ _
        exact ⟨hnew,joins_owner h.invariant hs hold hnew⟩

/-- Every SUBSCRIBE of the connection in a run to a topic that is not reserved comes to one of
these. -/
def Unlimited (limits : Limits Level) (c : ℕ) (s : State Id Level) (as : List (Action Id)) : Prop :=
  Along (step limits) (fun u b => ∀ t u', subscribeOf c b = some t → step limits u b = some u' →
    t.isZero = false → Outcome c t u u') s as

theorem spent_run {as : List (Action Id)} (h : Spent limits perSecond burst c k s)
    (hrun : exec (step limits) s as = some s')
    (hk : k+(subscribesOf c as).length ≤ limits.maxTopicsPerConnection)
    (hburst : ((k+(subscribesOf c as).length : ℕ) : ℚ) ≤ burst) : Unlimited limits c s as := by
  induction as generalizing s k with
  | nil => trivial
  | cons b as ih =>
      obtain ⟨u,hb,hrest⟩ := (exec_cons_eq_some _).mp hrun
      have htail : ∀ {P : State Id Level → Prop}, P u → ∀ u', step limits s b = some u' → P u' := by
        intro P hP u' hu'
        rw [hb] at hu'
        cases hu'
        exact hP
      cases hof : subscribeOf c b with
      | none =>
          have hskip : subscribesOf c (b::as) = subscribesOf c as := List.filterMap_cons_none hof
          rw [hskip] at hk hburst
          refine ⟨?_,htail (ih (spent_other h hb hof) hrest hk hburst)⟩
          intro t u' ht
          rw [hof] at ht
          cases ht
      | some t =>
          have htake : subscribesOf c (b::as) = t::subscribesOf c as := List.filterMap_cons_some hof
          rw [htake,List.length_cons] at hk hburst
          have hone : ((k+1 : ℕ) : ℚ) ≤ burst := le_trans (Nat.cast_le.mpr (by omega)) hburst
          obtain ⟨hspent,houtcome⟩ := spent_subscribe h hb hof (by omega) hone
          refine ⟨?_,htail (ih hspent hrest (by omega) ?_)⟩
          · intro t' u' ht'
            rw [hof] at ht'
            cases ht'
            exact fun hu' hzero => htail (houtcome hzero) u' hu'
          · rwa [Nat.add_assoc,Nat.add_comm 1]

omit [EndpointKey Id] in
theorem spent_new (hi : Invariant limits s) (peer : Id) (now : ℕ)
    (hrate : limits.joinRate = .frames (.finite perSecond) (.finite burst)) :
    Spent limits perSecond burst s.next 0 (s.connect limits peer now) := by
  refine ⟨connect_invariant hi peer now,_,State.connect_conns_self limits s peer now,le_rfl,?_⟩
  rw [Nat.cast_zero,sub_zero,Conn.new,hrate]
  exact holding_new perSecond burst now

variable (Id) in
/-- **A reconnect is not rate limited**: of a new connection, while its SUBSCRIBEs have not
been more than the topics it may have and the burst of the join rate, every SUBSCRIBE to a
topic that is not reserved puts the topic into its set and makes the slot its own, unless
the topic was in the set already or the room is full; whatever else happens in between. With
the default limits the burst is no matter: it covers all topics a connection may have. -/
theorem reconnect_not_limited :
    (∀ (limits : Limits Level) (perSecond burst : ℚ≥0) (pre post : List (Action Id))
      (s s' : State Id Level) (peer : Id) (now : ℕ),
      limits.joinRate = .frames (.finite perSecond) (.finite burst) →
      exec (step limits) (State.init limits) pre = some s →
      exec (step limits) (s.connect limits peer now) post = some s' →
      (subscribesOf s.next post).length ≤ limits.maxTopicsPerConnection →
      ((subscribesOf s.next post).length : ℚ) ≤ burst →
      Unlimited limits s.next (s.connect limits peer now) post) ∧
    ∀ (pre post : List (Action Id)) (s s' : State Id Level) (peer : Id) (now : ℕ),
      exec (step .default) (State.init .default) pre = some s →
      exec (step .default) (s.connect .default peer now) post = some s' →
      (subscribesOf s.next post).length ≤ Limits.default.maxTopicsPerConnection →
      Unlimited .default s.next (s.connect .default peer now) post := by
  have hall : ∀ (limits : Limits Level) (perSecond burst : ℚ≥0) (pre post : List (Action Id))
      (s s' : State Id Level) (peer : Id) (now : ℕ),
      limits.joinRate = .frames (.finite perSecond) (.finite burst) →
      exec (step limits) (State.init limits) pre = some s →
      exec (step limits) (s.connect limits peer now) post = some s' →
      (subscribesOf s.next post).length ≤ limits.maxTopicsPerConnection →
      ((subscribesOf s.next post).length : ℚ) ≤ burst →
      Unlimited limits s.next (s.connect limits peer now) post := by
    intro limits perSecond burst pre post s s' peer now hrate hpre hpost htopics hburst
    exact spent_run (spent_new (run_invariant hpre) peer now hrate) hpost (by rwa [Nat.zero_add])
      (by rwa [Nat.zero_add])
  refine ⟨hall,?_⟩
  intro pre post s s' peer now hpre hpost htopics
  refine hall .default 50 600 pre post s s' peer now rfl hpre hpost htopics ?_
  have hmax : Limits.default.maxTopicsPerConnection ≤ 600 := by decide
  have hburst : ((subscribesOf s.next post).length : ℚ) ≤ 600 := by exact_mod_cast htopics.trans hmax
  simpa using hburst

end

/-- Rooms for one member. -/
def single : Limits Level := { Limits.default with maxMembersPerTopic := 1 }

/-- Another endpoint has a room to itself. -/
def occupied : List (Action RawId) := [.connect .base 0,sends 1 (.subscribe (topicOf 7)) 0]

/-- The room is full, then it is not; the reserved topic does not count, and the first one is
subscribed to again. -/
def resubscribed : List (Action RawId) :=
  [sends 2 (.subscribe (topicOf 7)) 0,sends 2 (.subscribe (topicOf 8)) 0,
    sends 2 (.subscribe Topic.zero) 0,sends 1 (.unsubscribe (topicOf 7)) 0,
    sends 2 (.subscribe (topicOf 7)) 0,sends 2 (.subscribe (topicOf 7)) 0]

theorem reconnect_not_limited_default :
    (∃ s s' : State RawId Level, exec (step single) (State.init single) occupied = some s ∧
      exec (step single) (s.connect single .identity 0) resubscribed = some s' ∧
      topics s' 2 = {topicOf 7,topicOf 8} ∧
      Unlimited single 2 (s.connect single .identity 0) resubscribed) ∧
    ∃ s s' : State RawId Level, exec (step .default) (State.init .default) occupied = some s ∧
      exec (step .default) (s.connect .default .identity 0) resubscribed = some s' ∧
      topics s' 2 = {topicOf 7,topicOf 8} ∧
      Unlimited .default 2 (s.connect .default .identity 0) resubscribed := by
  have hrun : ∀ limits ∈ [single,Limits.default],
      (exec (step limits) (State.init limits) occupied).any (fun s : State RawId Level =>
        (exec (step limits) (s.connect limits .identity 0) resubscribed).any fun s' =>
          decide (s.next = 2 ∧ topics s' 2 = {topicOf 7,topicOf 8})) = true := by
    rw [List.forall_mem_cons,List.forall_mem_singleton]
    exact ⟨by decide +kernel,by decide +kernel⟩
  have htaken : ∀ limits ∈ [single,Limits.default], ∃ s s' : State RawId Level,
      exec (step limits) (State.init limits) occupied = some s ∧
      exec (step limits) (s.connect limits .identity 0) resubscribed = some s' ∧
      s.next = 2 ∧ topics s' 2 = {topicOf 7,topicOf 8} := by
    intro limits hlimits
    obtain ⟨s,hs,hrun⟩ := (Option.any_eq_true _ _).mp (hrun limits hlimits)
    obtain ⟨s',hs',hrun⟩ := (Option.any_eq_true _ _).mp hrun
    exact ⟨s,s',hs,hs',of_decide_eq_true hrun⟩
  have hfive : (subscribesOf 2 resubscribed).length = 5 := by decide +kernel
  obtain ⟨hlimits,hdefault⟩ := reconnect_not_limited RawId
  constructor
  · obtain ⟨s,s',hs,hs',hnext,htopics⟩ := htaken single (by simp)
    refine ⟨s,s',hs,hs',htopics,?_⟩
    have hall := hlimits single 50 600 occupied resubscribed s s' .identity 0 rfl hs hs'
    rw [hnext,hfive] at hall
    exact hall (by decide) (by norm_num)
  · obtain ⟨s,s',hs,hs',hnext,htopics⟩ := htaken .default (by simp)
    refine ⟨s,s',hs,hs',htopics,?_⟩
    have hall := hdefault occupied resubscribed s s' .identity 0 hs hs'
    rw [hnext,hfive] at hall
    exact hall (by decide)

end KeepTalkingSfu.Resubscription
