import KeepTalkingSfu.SlotOwnership

/-!
# A client's view of a room

A connection that joins a room is sent its members once, and every change of
it after that. Reading these events in order gives at any time exactly the
others who are in the room, with what they announced: no event is missing, none
comes early or late, and none is about the reader itself. It holds for as long
as the connection's queue takes what it is sent.
-/
namespace KeepTalkingSfu.RoomView
open ByteTransport WireFormat StreamWriters MemberQueues RoomTable TokenBucket Server ServerEffects
  RoomInvariant TaskSteps SlotOwnership InterleavedRuns MembershipView

section
variable {Id : Type} [DecidableEq Id]

/-- The members of a room with what they announced. -/
def roster (r : Rooms Id) (t : Topic) : View Id Bytes := fun p => (r.slot t p).map Slot.blob

/-- The members a snapshot lists. -/
def viewOf (members : List (Member Id)) : View Id Bytes := fun p =>
  (members.find? fun m => m.id = p).map Member.blob

theorem viewOf_others (room : Room Id) (p : Id) :
    viewOf ((others room p).map fun e => ⟨e.1,e.2.blob⟩) =
      hide p fun q => (room.lookup q).map Slot.blob := by
  funext q
  unfold viewOf others hide AList.lookup
  induction room.entries with
  | nil => by_cases hq : q = p <;> simp [hq]
  | cons e l ih =>
      obtain ⟨k,slot⟩ := e
      by_cases hk : k = p
      · subst hk
        rw [List.filter_cons_of_neg (by simp),ih]
        by_cases hq : q = k
        · simp [hq]
        · simp [hq,List.dlookup_cons_ne _ (⟨k,slot⟩ : Σ _ : Id, Slot Id) hq]
      · rw [List.filter_cons_of_pos (by simpa using hk),List.map_cons,List.find?_cons]
        by_cases hq : k = q
        · subst hq
          simp [hk]
        · simp only [hq,decide_false]
          rw [ih]
          by_cases hqp : q = p
          · simp [hqp]
          · simp [hqp,List.dlookup_cons_ne _ (⟨k,slot⟩ : Σ _ : Id, Slot Id) (Ne.symm hq)]

theorem mem_others_ne {room : Room Id} {p : Id} {m : Member Id}
    (h : m ∈ (others room p).map fun e => (⟨e.1,e.2.blob⟩ : Member Id)) : m.id ≠ p := by
  obtain ⟨e,he,rfl⟩ := List.mem_map.mp h
  simpa [others] using (List.mem_filter.mp he).2

variable {F : Type} [EndpointKey Id] {limits : Limits F} {r r' : Rooms Id}

/-! ### What a connection hears of one step -/

omit [EndpointKey Id] in
/-- One slot of a room changes, and so does the roster there. -/
theorem roster_of_slot {t : Topic} {p : Id} {x : Option (Slot Id)}
    (h : ∀ q, r'.slot t q = if q = p then x else r.slot t q) :
    roster r' t = Function.update (roster r t) p (x.map Slot.blob) := by
  funext q
  unfold roster
  rw [h]
  by_cases hq : q = p
  · subst hq
    simp
  · simp [hq]

omit [EndpointKey Id] in
theorem roster_of_same {t : Topic} (h : ∀ q, r'.slot t q = r.slot t q) :
    roster r' t = roster r t := by
  funext q
  rw [roster,roster,h]

/-- A step of a connection `d` as `c` hears it of one topic: nothing happens, or
the roster changes at `d`'s endpoint, the owners of other slots are told, and
`d` itself is sent the members if it has just joined. -/
inductive Heard (r r' : Rooms Id) (t : Topic) (me p : Id) (owns joins : Prop)
    (evs : List (Event Id)) : Prop
  | nothing : (∀ q, r'.slot t q = r.slot t q) → ¬joins → evs = [] → Heard r r' t me p owns joins evs
  | told (ch : Change Id Bytes) : ch.subject = p → ch.Fits (roster r t) →
      roster r' t = ch.apply [] (roster r t) → ¬joins →
      (me ≠ p → owns → evs = [.change ch]) → (¬(me ≠ p ∧ owns) → evs = []) →
      Heard r r' t me p owns joins evs
  | joined (members : List (Member Id)) : joins → me = p → (∀ m ∈ members, m.id ≠ p) →
      viewOf members = hide p (roster r' t) → evs = [.snapshot members] →
      Heard r r' t me p owns joins evs

section
variable {conns : ℕ → Option (Conn Id F)} {c d : ℕ} {conn dconn : Conn Id F} {subs : Finset Topic}
  {sends : List (Send Id)} {t : Topic}

/-- What is told to the others about another topic is not heard of this one. -/
theorem msgEvents_others {room : Room Id} {p : Id} {f : ServerFrame Id}
    (hf : ∀ topic more members, f ≠ .snapshot topic more members) (hok : SlotsOk r conns)
    (hc : conns c = some conn) {t₀ : Topic} (hroom : ∀ q, q ≠ p → room.lookup q = r.slot t₀ q) :
    msgEvents t (sendsTo c (broadcast room p f.encode)) =
      if conn.peer ≠ p ∧ r.owner t₀ conn.peer = some c then (roomEvent t f).toList else [] := by
  rw [broadcast,sendsTo_others hok hc hroom]
  split_ifs
  · exact msgEvents_pushFrame t f hf
  · rfl

omit [DecidableEq Id] in
theorem msgEvents_of_quiet {msgs : List (Msg Id)} (h : ∀ msg ∈ msgs, Quiet msg) :
    msgEvents t msgs = [] := by
  induction msgs with
  | nil => rfl
  | cons msg msgs ih =>
      rw [← List.singleton_append,msgEvents_append,h msg List.mem_cons_self t,
        ih fun m hm => h m (List.mem_cons_of_mem _ hm)]
      rfl

theorem heard_told {room : Room Id} {p : Id} {f : ServerFrame Id} {t₀ : Topic}
    {ch : Change Id Bytes} {joins : Prop} (hok : SlotsOk r conns) (hc : conns c = some conn)
    (hroom : ∀ q, q ≠ p → room.lookup q = r.slot t₀ q)
    (hf : ∀ topic more members, f ≠ .snapshot topic more members)
    (hevent : ∀ t, roomEvent t f = if t₀ = t then some (.change ch) else none)
    (hsame : t ≠ t₀ → ∀ q, r'.slot t q = r.slot t q) (hsubject : ch.subject = p)
    (hfits : ch.Fits (roster r t₀)) (hroster : roster r' t₀ = ch.apply [] (roster r t₀))
    (hjoins : ¬joins) :
    Heard r r' t conn.peer p (r.owner t conn.peer = some c) joins
      (msgEvents t (sendsTo c (broadcast room p f.encode))) := by
  rw [msgEvents_others hf hok hc hroom,hevent]
  by_cases ht : t₀ = t
  · subst ht
    refine .told ch hsubject hfits hroster hjoins ?_ ?_
    · intro hne howns
      simp [hne,howns]
    · intro hnot
      rw [if_neg hnot]
  · refine .nothing (hsame (Ne.symm ht)) hjoins ?_
    simp [ht]

/-- The members are sent to the one that joins, and are heard of no other topic. -/
theorem msgEvents_joinSends {t₀ : Topic} (h : Handle Id) (hnot : ¬(h.connId = c ∧ t₀ = t)) :
    msgEvents t (sendsTo c (r.joinSends t₀ h)) = msgEvents t (sendsTo c
      (broadcast (r.joined t₀ h) h.peer (ServerFrame.joined t₀ h.peer).encode)) := by
  rw [Rooms.joinSends,sendsTo_cons,msgEvents_append]
  by_cases hc : h.connId = c
  · have htt : ¬t₀ = t := fun ht => hnot ⟨hc,ht⟩
    simp [hc,htt,msgEvents,events,Msg.sessionItem,itemEvent,readBack,roomEvent]
  · simp [hc,msgEvents,events]

theorem performed_heard (hok : SlotsOk r conns) (hd : conns d = some dconn)
    (hc : conns c = some conn) {subs' : Finset Topic}
    (hp : Performed limits r ⟨dconn.peer,d⟩ subs r' subs' sends) :
    Heard r r' t conn.peer dconn.peer (r.owner t conn.peer = some c)
      (c = d ∧ t ∉ subs ∧ t ∈ subs') (msgEvents t (sendsTo c sends)) := by
  cases hp with
  | quiet _ hquiet =>
      refine .nothing (fun _ => rfl) (fun h => h.2.1 h.2.2) (msgEvents_of_quiet ?_)
      intro msg hmsg
      obtain ⟨m,hm,rfl⟩ := List.mem_map.mp hmsg
      exact hquiet m (List.mem_filter.mp hm).1
  | drop t₀ ht₀ hm =>
      exact .nothing (fun _ => rfl) (fun h => h.2.1 (Finset.mem_of_mem_erase h.2.2)) rfl
  | join t₀ ht₀ hz hcard hf =>
      have hroom : ∀ q, q ≠ dconn.peer → (r.joined t₀ ⟨dconn.peer,d⟩).lookup q = r.slot t₀ q :=
        fun _ hq => Rooms.lookup_joined_ne r t₀ ⟨dconn.peer,d⟩ hq
      have hslot := Rooms.slot_joined r t₀ ⟨dconn.peer,d⟩
      have hroster : roster (r.insertRoom t₀ (r.joined t₀ ⟨dconn.peer,d⟩)) t₀ =
          (Change.joined dconn.peer).apply [] (roster r t₀) := by
        apply roster_of_slot (x := some ⟨⟨dconn.peer,d⟩,[]⟩)
        intro q
        simp [hslot]
      by_cases hjoins : c = d ∧ t = t₀
      · obtain ⟨rfl,rfl⟩ := hjoins
        rw [hc] at hd
        cases hd
        refine .joined ((others (r.joined t ⟨conn.peer,c⟩) conn.peer).map fun e => ⟨e.1,e.2.blob⟩)
          ⟨rfl,ht₀,Finset.mem_insert_self _ _⟩ rfl (fun m hm => mem_others_ne hm) ?_ ?_
        · rw [viewOf_others]
          congr 1
          funext q
          rw [roster,Rooms.slot_insertRoom,if_pos rfl]
        · rw [Rooms.joinSends,sendsTo_cons,msgEvents_append,
            msgEvents_others (f := .joined t conn.peer) (by rintro _ _ _ ⟨⟩) hok hc hroom]
          simp [msgEvents,events,Msg.sessionItem,itemEvent,readBack,roomEvent]
      · have hnotJoins : ¬(c = d ∧ t ∉ subs ∧ t ∈ insert t₀ subs) := by
          rintro ⟨hcd,hnew,hmem⟩
          rcases Finset.mem_insert.mp hmem with htt | hmem
          · exact hjoins ⟨hcd,htt⟩
          · exact hnew hmem
        rw [msgEvents_joinSends ⟨dconn.peer,d⟩ fun h => hjoins ⟨h.1.symm,h.2.symm⟩]
        refine heard_told hok hc hroom (by rintro _ _ _ ⟨⟩) (fun _ => rfl) ?_ rfl trivial hroster hnotJoins
        intro ht q
        rw [hslot,if_neg fun h => ht h.1]
  | leave t₀ room ht₀ hroom hm =>
      have hslot := Rooms.slot_left r t₀ hroom dconn.peer
      obtain ⟨slot,hs⟩ : ∃ slot, r.slot t₀ dconn.peer = some slot := by
        rw [Rooms.isMember_iff,Rooms.owner] at hm
        obtain ⟨slot,hs,-⟩ := Option.map_eq_some_iff.mp hm
        exact ⟨slot,hs⟩
      refine heard_told hok hc ?_ (by rintro _ _ _ ⟨⟩) (fun _ => rfl) ?_ rfl ?_ ?_ ?_
      · intro q hq
        rw [AList.lookup_erase_ne hq,Rooms.slot_of_room _ _ hroom]
      · intro ht q
        rw [hslot,if_neg fun h => ht h.1]
      · simp [Change.Fits,roster,hs]
      · apply roster_of_slot (x := none)
        intro q
        simp [hslot]
      · exact fun h => h.2.1 (Finset.mem_of_mem_erase h.2.2)
  | announce t₀ room slot blob hroom hs hid hblob =>
      have hslot := Rooms.slot_stored r t₀ (Rooms.slot_of_room _ _ hroom) dconn.peer
        { slot with blob := blob }
      refine heard_told hok hc ?_ (by rintro _ _ _ ⟨⟩) (fun _ => rfl) ?_ rfl ?_ ?_ (fun h => h.2.1 h.2.2)
      · intro q hq
        rw [AList.lookup_insert_ne hq,Rooms.slot_of_room _ _ hroom]
      · intro ht q
        rw [hslot,if_neg fun h => ht h.1]
      · simp [Change.Fits,roster,Rooms.slot_of_room _ _ hroom,hs]
      · apply roster_of_slot (x := some { slot with blob := blob })
        intro q
        simp [hslot]

end

/-! ### One step of the server -/

/-- The room events of a topic a connection has been queued. -/
def told (t : Topic) (s : State Id F) (c : ℕ) : List (Event Id) := events t (s.outs c).session.sent

variable [Scalar F] {s s' : State Id F} {a : Action Id} {c : ℕ} {conn : Conn Id F} {t : Topic}

/-- The events of a step for one connection: all of them are queued if its queue
is still healthy afterwards, some if it is not, none if it was not before. -/
structure Queues (t : Topic) (s s' : State Id F) (c : ℕ) (evs : List (Event Id)) : Prop where
  later : Later (s.outs c) (s'.outs c)
  all : Healthy (s'.outs c) → told t s' c = told t s c++evs
  some : ∃ l, told t s' c = told t s c++l ∧ l.Sublist evs
  none : ¬Healthy (s.outs c) → told t s' c = told t s c

omit [DecidableEq Id] [Scalar F] in
theorem queues_nothing (hlater : Later (s.outs c) (s'.outs c))
    (hsent : (s'.outs c).session.sent = (s.outs c).session.sent) : Queues t s s' c [] := by
  have htold : told t s' c = told t s c := congrArg (events t) hsent
  exact ⟨hlater,fun _ => by rw [htold,List.append_nil],⟨[],by rw [htold,List.append_nil],.refl _⟩,
    fun _ => htold⟩

omit [DecidableEq Id] [Scalar F] in
theorem queues_apply (s : State Id F) (c d : ℕ) (e : Effect Id F) :
    Queues t s (s.apply d e) c (msgEvents t (sendsTo c e.sends)) := by
  constructor
  · rw [State.apply_outs]
    exact acceptAll_later _ _
  · intro hh
    rw [State.apply_outs] at hh
    rw [told,told,State.apply_outs,acceptAll_sent hh,events_append]
    rfl
  · obtain ⟨l,hl,hsub⟩ := acceptAll_sublist (s.outs c) (sendsTo c e.sends)
    refine ⟨events t l,?_,hsub.filterMap _⟩
    rw [told,told,State.apply_outs,hl,events_append]
  · intro hh
    rw [told,told,State.apply_outs,acceptAll_unhealthy hh]

theorem step_heard (hi : Invariant limits s) (hs : step limits s a = some s')
    (hc : s.conns c = some conn) :
    ∃ p evs, Queues t s s' c evs ∧ Heard s.rooms s'.rooms t conn.peer p
      (s.rooms.owner t conn.peer = some c) (t ∉ topics s c ∧ t ∈ topics s' c) evs := by
  rcases step_cases hi hs with hpassive | ⟨d,act,dconn,e,rfl,hd,he,rfl⟩
  · refine ⟨conn.peer,[],queues_nothing (hpassive.later c conn hc) (hpassive.session c conn hc),
      .nothing (hpassive.slots t) ?_ rfl⟩
    rw [topics_of_conn hc,topics_of_conn (hpassive.conns c conn hc)]
    exact fun h => h.1 h.2
  · refine ⟨dconn.peer,_,queues_apply s c d e,?_⟩
    have hheard := performed_heard (t := t) hi.slots hd hc
      (perform_spec (hi.conns d dconn hd).blob he)
    have hjoins : (c = d ∧ t ∉ dconn.subscribed ∧ t ∈ e.conn.subscribed) =
        (t ∉ topics s c ∧ t ∈ topics (s.apply d e) c) := by
      by_cases hcd : c = d
      · subst hcd
        rw [topics_of_conn hd,topics_of_conn (State.apply_conns_self s c e)]
        simp
      · have hsame : topics (s.apply d e) c = topics s c := by
          rw [topics,State.apply_conns_of_ne _ _ _ hcd]
          rfl
        rw [hsame]
        simp [hcd]
    rw [hjoins] at hheard
    exact hheard

theorem owned_before {conn' : Conn Id F} (hi : Invariant limits s)
    (hs : step limits s a = some s') (hc' : s'.conns c = some conn')
    (howner' : s'.rooms.owner t conn'.peer = some c) :
    (∃ conn, s.conns c = some conn ∧ s.rooms.owner t conn.peer = some c) ∨
      (t ∉ topics s c ∧ t ∈ topics s' c) := by
  cases hc : s.conns c with
  | none =>
      right
      have hempty : topics s c = ∅ := by
        rw [topics,hc]
        rfl
      -- a connection that is new owns nothing
      obtain ⟨slot,hslot,hid⟩ := Option.map_eq_some_iff.mp howner'
      obtain ⟨d,hd,-,ht⟩ := ((step_invariant hi hs).slots t conn'.peer slot hslot).conn
      rw [hid,hc'] at hd
      cases hd
      rw [hempty,topics_of_conn hc']
      exact ⟨Finset.notMem_empty t,ht⟩
  | some conn =>
      obtain ⟨conn'',hc'',hpeer,-⟩ := step_kept hi hs hc
      rw [hc'] at hc''
      cases hc''
      rw [hpeer] at howner'
      rcases owner_before hi hs hc howner' with howner | hjoins
      · exact .inl ⟨conn,rfl,howner⟩
      · exact .inr hjoins

/-- An owner is told exactly what changes for the others. -/
theorem step_view (hi : Invariant limits s) (hs : step limits s a = some s')
    (hc : s.conns c = some conn) (howner : s.rooms.owner t conn.peer = some c)
    (hno : ¬(t ∉ topics s c ∧ t ∈ topics s' c)) (hh : Healthy (s'.outs c)) :
    ∃ chs : List (Change Id Bytes), told t s' c = told t s c++chs.map .change ∧
      Follows [] conn.peer (hide conn.peer (roster s.rooms t)) chs
        (hide conn.peer (roster s'.rooms t)) := by
  obtain ⟨p,evs,hqueues,hheard⟩ := step_heard (t := t) hi hs hc
  have hall := hqueues.all hh
  cases hheard with
  | nothing hslots hjoins hevs =>
      refine ⟨[],by rw [hall,hevs]; rfl,?_⟩
      rw [roster_of_same hslots]
      exact .refl _ _ _
  | told ch hsubject hfits hroster hjoins hheard hsilent =>
      by_cases hp : conn.peer = p
      · refine ⟨[],by rw [hall,hsilent fun h => h.1 hp]; rfl,?_⟩
        rw [hroster,hide_apply_of_eq [] (hsubject.trans hp.symm)]
        exact .refl _ _ _
      · refine ⟨[ch],by rw [hall,hheard hp howner]; rfl,?_⟩
        rw [hroster]
        exact follows_change [] (fun h => hp (h.symm.trans hsubject)) hfits
  | joined members hjoins => exact absurd hjoins hno

/-- A connection that joins is sent the others. -/
theorem step_join (hi : Invariant limits s) (hs : step limits s a = some s')
    (hc : s.conns c = some conn) (hjoins : t ∉ topics s c ∧ t ∈ topics s' c)
    (hh : Healthy (s'.outs c)) :
    ∃ members, told t s' c = told t s c++[.snapshot members] ∧ (∀ m ∈ members, m.id ≠ conn.peer) ∧
      viewOf members = hide conn.peer (roster s'.rooms t) := by
  obtain ⟨p,evs,hqueues,hheard⟩ := step_heard (t := t) hi hs hc
  cases hheard with
  | nothing hslots hno => exact absurd hjoins hno
  | told ch hsubject hfits hroster hno => exact absurd hjoins hno
  | joined members hj hp hothers hview hevs =>
      refine ⟨members,by rw [hqueues.all hh,hevs],?_,?_⟩
      · rwa [hp]
      · rwa [hp]

/-! ### Every run -/

/-- What a connection has been told since it last joined the topic: the members
once, and then changes that lead to the others as they are now. -/
def ToldSinceJoin (limits : Limits F) (as : List (Action Id)) (s : State Id F) (c : ℕ) (t : Topic)
    (p : Id) : Prop :=
  ∃ (pre post : List (Action Id)) (a : Action Id) (s₀ s₁ : State Id F)
    (members : List (Member Id)) (chs : List (Change Id Bytes)),
    as = pre++a::post ∧ exec (step limits) (State.init limits) pre = some s₀ ∧
    step limits s₀ a = some s₁ ∧ exec (step limits) s₁ post = some s ∧
    Joins limits c t s₀ a ∧ Along (step limits) (fun u b => ¬Joins limits c t u b) s₁ post ∧
    told t s c = told t s₀ c++.snapshot members::chs.map .change ∧
    (∀ m ∈ members, m.id ≠ p) ∧
    Follows [] p (viewOf members) chs (hide p (roster s.rooms t))

theorem told_since_join {as : List (Action Id)}
    (h : exec (step limits) (State.init limits) as = some s) (hc : s.conns c = some conn)
    (howner : s.rooms.owner t conn.peer = some c) (hh : Healthy (s.outs c)) :
    ToldSinceJoin limits as s c t conn.peer := by
  induction as using List.reverseRecOn generalizing s conn with
  | nil =>
      cases h
      cases hc
  | append_singleton as b ih =>
      obtain ⟨u,hu,hb⟩ := (exec_snoc_eq_some _).mp h
      have hi := run_invariant hu
      have hpeer : ∀ conn₀, u.conns c = some conn₀ → conn₀.peer = conn.peer := by
        intro conn₀ hc₀
        obtain ⟨conn',hc',hp,-⟩ := step_kept hi hb hc₀
        rw [hc] at hc'
        cases hc'
        exact hp.symm
      by_cases hjoins : t ∉ topics u c ∧ t ∈ topics s c
      · -- the last step is the join
        obtain ⟨conn₀,hc₀,-⟩ := joins_owner hi hb hjoins.1 hjoins.2
        obtain ⟨members,htold,hothers,hview⟩ := step_join hi hb hc₀ hjoins hh
        rw [hpeer conn₀ hc₀] at hothers hview
        refine ⟨as,[],b,u,s,members,[],rfl,hu,hb,rfl,⟨hjoins.1,s,hb,hjoins.2⟩,trivial,htold,hothers,?_⟩
        rw [hview]
        exact .refl _ _ _
      · rcases owned_before hi hb hc howner with ⟨conn₀,hc₀,howner₀⟩ | hj
        · obtain ⟨p,evs,hqueues,-⟩ := step_heard (t := t) hi hb hc₀
          obtain ⟨chs',htold',hfollows'⟩ := step_view hi hb hc₀ howner₀ hjoins hh
          obtain ⟨pre,post,a,s₀,s₁,members,chs,has,hpre,ha,hpost,hj,hlast,htold,hothers,hfollows⟩ :=
            ih hu hc₀ howner₀ (hqueues.later.healthy hh)
          rw [hpeer conn₀ hc₀] at hothers hfollows hfollows'
          have hnot : ¬Joins limits c t u b := by
            rintro ⟨hold,s',hs',hnew⟩
            rw [hb] at hs'
            cases hs'
            exact hjoins ⟨hold,hnew⟩
          refine ⟨pre,post++[b],a,s₀,s₁,members,chs++chs',by simp [has],hpre,ha,
            (exec_snoc_eq_some _).mpr ⟨u,hpost,hb⟩,hj,along_snoc _ hlast hpost hnot,?_,hothers,
            hfollows.trans [] hfollows'⟩
          rw [htold',htold,List.map_append,List.append_assoc,List.cons_append]
        · exact absurd hj hjoins

theorem silent_without_slot (hi : Invariant limits s) (hs : step limits s a = some s')
    (hc : s.conns c = some conn) (howner : s.rooms.owner t conn.peer ≠ some c)
    (hjoins : ¬Joins limits c t s a) : told t s' c = told t s c := by
  obtain ⟨p,evs,hqueues,hheard⟩ := step_heard (t := t) hi hs hc
  have hnil : evs = [] := by
    cases hheard with
    | nothing hslots hj hevs => exact hevs
    | told ch hsubject hfits hroster hj hheard hsilent => exact hsilent fun h => howner h.2
    | joined members hj => exact absurd ⟨hj.1,s',hs,hj.2⟩ hjoins
  obtain ⟨l,hl,hsub⟩ := hqueues.some
  rw [hnil,List.sublist_nil] at hsub
  rw [hl,hsub,List.append_nil]

theorem told_new (hs : step limits s a = some s') (hold : s.conns c = none)
    (hnew : s'.conns c = some conn) : told t s' c = [] := by
  cases a with
  | connect peer now =>
      cases hs
      have hc : c = s.next := by
        by_contra hne
        rw [State.connect_conns_of_ne _ _ _ _ hne,hold] at hnew
        cases hnew
      subst hc
      simp [told,State.connect,Outbound.new,Log.empty,events]
  | drain d w =>
      obtain ⟨out,-,rfl⟩ := step_drain hs
      rw [hold] at hnew
      cases hnew
  | rehash topic room =>
      obtain ⟨old,-,-,rfl⟩ := step_rehash hs
      rw [hold] at hnew
      cases hnew
  | act d act =>
      obtain ⟨dconn,e,hd,-,rfl⟩ := step_act hs
      have hne : c ≠ d := by
        rintro rfl
        rw [hold] at hd
        cases hd
      rw [State.apply_conns_of_ne _ _ _ hne,hold] at hnew
      cases hnew

/-- Nothing of a topic is told before its members. -/
theorem told_snapshot_first {as : List (Action Id)}
    (h : exec (step limits) (State.init limits) as = some s) (hc : s.conns c = some conn) :
    told t s c = [] ∨ ∃ members rest, told t s c = .snapshot members::rest := by
  induction as using List.reverseRecOn generalizing s conn with
  | nil =>
      cases h
      cases hc
  | append_singleton as b ih =>
      obtain ⟨u,hu,hb⟩ := (exec_snoc_eq_some _).mp h
      cases hc₀ : u.conns c with
      | none => exact .inl (told_new hb hc₀ hc)
      | some conn₀ =>
          obtain ⟨p,evs,hqueues,hheard⟩ := step_heard (t := t) (run_invariant hu) hb hc₀
          obtain ⟨l,hl,hsub⟩ := hqueues.some
          rcases ih hu hc₀ with hempty | ⟨members,rest,hfirst⟩
          · rw [hempty,List.nil_append] at hl
            cases hheard with
            | nothing hslots hj hevs =>
                left
                rw [hevs,List.sublist_nil] at hsub
                rw [hl,hsub]
            | told ch hsubject hfits hroster hj hheard hsilent =>
                left
                by_cases howns : conn₀.peer ≠ p ∧ u.rooms.owner t conn₀.peer = some c
                · -- an owner that was told nothing has lost its queue
                  have hdead : ¬Healthy (u.outs c) := by
                    intro hh
                    obtain ⟨_,_,_,_,_,members,chs,_,_,_,_,_,_,htold,_⟩ :=
                      told_since_join hu hc₀ howns.2 hh
                    rw [hempty] at htold
                    exact absurd htold.symm (by simp)
                  rw [hqueues.none hdead,hempty]
                · rw [hsilent howns,List.sublist_nil] at hsub
                  rw [hl,hsub]
            | joined members hj hp hothers hview hevs =>
                rw [hevs] at hsub
                rcases List.sublist_singleton.mp hsub with hnil | hone
                · exact .inl (by rw [hl,hnil])
                · exact .inr ⟨members,[],by rw [hl,hone]⟩
          · right
            exact ⟨members,rest++l,by rw [hl,hfirst]; rfl⟩

/-- In every run: an owner of a slot with a healthy queue has been told, since it
last joined, the members once and then changes that lead to the others as they
are; a connection without its slot is told nothing; and nothing is told before
the members. -/
theorem room_view_consistent {as : List (Action Id)}
    (h : exec (step limits) (State.init limits) as = some s) (hc : s.conns c = some conn)
    (t : Topic) :
    (s.rooms.owner t conn.peer = some c → Healthy (s.outs c) →
      ToldSinceJoin limits as s c t conn.peer) ∧
    (∀ a s', step limits s a = some s' → s.rooms.owner t conn.peer ≠ some c →
      ¬Joins limits c t s a → told t s' c = told t s c) ∧
    (told t s c = [] ∨ ∃ members rest, told t s c = .snapshot members::rest) :=
  ⟨told_since_join h hc,fun _ _ hs => silent_without_slot (run_invariant h) hs hc,
    told_snapshot_first h hc⟩

end

/-- A second endpoint joins the first one's room and announces. -/
def newcomer : List (Action RawId) :=
  [.connect .base 0,.connect .identity 0,sends 1 (.subscribe (topicOf 7)) 0,
    sends 2 (.subscribe (topicOf 7)) 0,sends 2 (.announce (topicOf 7) [1,2]) 7,
    .act 2 (.announceRate 8),.act 2 .announceRoom]

theorem room_view_consistent_newcomer : ∃ s conn,
    exec (step .default) (State.init .default) newcomer = some s ∧ s.conns 1 = some conn ∧
    told (topicOf 7) s 1 = [.snapshot [],.change (.joined .identity),
      .change (.presence .identity [1,2])] ∧
    ToldSinceJoin .default newcomer s 1 (topicOf 7) conn.peer := by
  have hrun : (exec (step .default) (State.init .default) newcomer).any (fun s =>
      (s.conns 1).any fun conn => decide (s.rooms.owner (topicOf 7) conn.peer = some 1 ∧
        (s.outs 1).budget.overflowed = false ∧ (s.outs 1).session.isOpen = true ∧
        told (topicOf 7) s 1 = [.snapshot [],.change (.joined .identity),
          .change (.presence .identity [1,2])])) = true := by
    decide +kernel
  obtain ⟨s,hs,hrun⟩ := (Option.any_eq_true _ _).mp hrun
  obtain ⟨conn,hc,hrun⟩ := (Option.any_eq_true _ _).mp hrun
  obtain ⟨howner,hbudget,hopen,htold⟩ := of_decide_eq_true hrun
  exact ⟨s,conn,hs,hc,htold,(room_view_consistent hs hc (topicOf 7)).1 howner ⟨hbudget,hopen⟩⟩

end KeepTalkingSfu.RoomView
