import KeepTalkingSfu.RoomView

/-!
# One history of a room

Every step makes at most one change to a room, and tells it to all who own a slot
there, the one it is about excepted. So a span of a run has one history of the
room, and whoever owns its slot all the while is queued that history, less the
changes about itself. Two of them are then queued the same about everyone else.
-/
namespace KeepTalkingSfu.RoomHistory
open ByteTransport WireFormat StreamWriters MemberQueues RoomTable TokenBucket Server ServerEffects
  RoomInvariant TaskSteps RoomView InterleavedRuns MembershipView

section
variable {Id F : Type} [EndpointKey Id]

/-- The session items queued to a connection between two states of a run. -/
def queuedIn (s s' : State Id F) (c : ℕ) : List (Queued (SessionItem Id)) :=
  (s'.outs c).session.sent.drop (s.outs c).session.sent.length

/-- The JOINED, LEFT and PRESENCE frames of a topic among queued items. -/
def changes (t : Topic) (qs : List (Queued (SessionItem Id))) : List (Change Id Bytes) :=
  (events t qs).filterMap fun
    | .change ch => some ch
    | .snapshot _ => none

@[simp] theorem changes_append (t : Topic) (xs ys : List (Queued (SessionItem Id))) :
    changes t (xs++ys) = changes t xs++changes t ys := by
  simp [changes]

variable [DecidableEq Id]

/-- The changes that are not about the endpoint. -/
def notAbout (p : Id) (chs : List (Change Id Bytes)) : List (Change Id Bytes) :=
  chs.filter fun ch => ch.subject ≠ p

omit [EndpointKey Id] in
@[simp] theorem notAbout_append (p : Id) (chs chs' : List (Change Id Bytes)) :
    notAbout p (chs++chs') = notAbout p chs++notAbout p chs' := List.filter_append ..

variable {limits : Limits F} {r r' : Rooms Id} {conns : ℕ → Option (Conn Id F)} {c d : ℕ}
  {conn dconn : Conn Id F} {t : Topic}

/-! ### One step -/

/-- A frame about one endpoint, told to the others of its room. -/
theorem told_others {room : Room Id} {p : Id} {f : ServerFrame Id} {t₀ : Topic}
    (ch : Change Id Bytes) (hok : SlotsOk r conns) (hsubject : ch.subject = p)
    (hroom : ∀ q, q ≠ p → room.lookup q = r.slot t₀ q)
    (hf : ∀ topic more members, f ≠ .snapshot topic more members)
    (hevent : roomEvent t f = if t₀ = t then some (.change ch) else none)
    (hc : conns c = some conn) (howner : r.owner t conn.peer = some c) :
    msgEvents t (sendsTo c (broadcast room p f.encode)) =
      (notAbout conn.peer (if t₀ = t then [ch] else [])).map .change := by
  rw [msgEvents_others hf hok hc hroom,hevent]
  by_cases ht : t₀ = t
  · subst ht
    by_cases hp : conn.peer = p
    · simp [notAbout,hsubject,hp]
    · simp [notAbout,hsubject,hp,howner,Ne.symm hp]
  · simp [notAbout,ht]

/-- What a connection's step changes in a room is heard by every owner it is not
about. -/
theorem performed_history (hok : SlotsOk r conns) (hd : conns d = some dconn)
    {subs' : Finset Topic} {sends : List (Send Id)}
    (hp : Performed limits r ⟨dconn.peer,d⟩ dconn.subscribed r' subs' sends) (t : Topic) :
    ∃ chs : List (Change Id Bytes), ∀ c conn, conns c = some conn → r.owner t conn.peer = some c →
      msgEvents t (sendsTo c sends) = (notAbout conn.peer chs).map .change := by
  cases hp with
  | quiet _ hquiet =>
      refine ⟨[],?_⟩
      intro c conn _ _
      apply msgEvents_of_quiet
      intro msg hmsg
      obtain ⟨m,hm,rfl⟩ := List.mem_map.mp hmsg
      exact hquiet m (List.mem_filter.mp hm).1
  | drop t₀ ht₀ hm => exact ⟨[],fun _ _ _ _ => rfl⟩
  | join t₀ ht₀ hz hcard hf =>
      refine ⟨if t₀ = t then [.joined dconn.peer] else [],?_⟩
      intro c conn hc howner
      -- who owns a slot has the topic, so it is not the one that joins
      have hnot : ¬(d = c ∧ t₀ = t) := by
        rintro ⟨rfl,rfl⟩
        obtain ⟨slot,hslot,hid⟩ := Option.map_eq_some_iff.mp howner
        obtain ⟨conn',hc',-,ht'⟩ := (hok t₀ conn.peer slot hslot).conn
        rw [hid,hd] at hc'
        cases hc'
        exact ht₀ ht'
      rw [msgEvents_joinSends ⟨dconn.peer,d⟩ hnot]
      refine told_others (f := .joined t₀ dconn.peer) _ hok rfl ?_ nofun rfl hc howner
      intro q hq
      exact Rooms.lookup_joined_ne r t₀ ⟨dconn.peer,d⟩ hq
  | leave t₀ room ht₀ hroom hm =>
      refine ⟨if t₀ = t then [.left dconn.peer] else [],?_⟩
      intro c conn hc howner
      refine told_others (f := .left t₀ dconn.peer) _ hok rfl ?_ nofun rfl hc howner
      intro q hq
      rw [AList.lookup_erase_ne hq,Rooms.slot_of_room _ _ hroom]
  | announce t₀ room slot blob hroom hs hid hblob =>
      refine ⟨if t₀ = t then [.presence dconn.peer blob] else [],?_⟩
      intro c conn hc howner
      refine told_others (f := .presence t₀ dconn.peer blob) _ hok rfl ?_ nofun rfl hc howner
      intro q hq
      rw [AList.lookup_insert_ne hq,Rooms.slot_of_room _ _ hroom]

variable [Scalar F] {s s' : State Id F}

/-- A connection is queued the history, less what is about itself. -/
def Hears (t : Topic) (s s' : State Id F) (c : ℕ) (p : Id) (chs : List (Change Id Bytes)) : Prop :=
  ∃ l, (s'.outs c).session.sent = (s.outs c).session.sent++l ∧ changes t l = notAbout p chs

omit [Scalar F] in
theorem Hears.trans {s₁ s₂ s₃ : State Id F} {p : Id} {chs chs' : List (Change Id Bytes)}
    (h : Hears t s₁ s₂ c p chs) (h' : Hears t s₂ s₃ c p chs') : Hears t s₁ s₃ c p (chs++chs') := by
  obtain ⟨l,hl,hchs⟩ := h
  obtain ⟨l',hl',hchs'⟩ := h'
  exact ⟨l++l',by rw [hl',hl,List.append_assoc],by rw [changes_append,notAbout_append,hchs,hchs']⟩

omit [Scalar F] in
theorem Hears.queuedIn {p : Id} {chs : List (Change Id Bytes)} (h : Hears t s s' c p chs) :
    changes t (queuedIn s s' c) = notAbout p chs := by
  obtain ⟨l,hl,hchs⟩ := h
  rw [RoomHistory.queuedIn,hl,List.drop_left,hchs]

theorem step_history {a : Action Id} (hi : Invariant limits s) (hs : step limits s a = some s')
    (t : Topic) : ∃ chs, ∀ c conn, s.conns c = some conn → s.rooms.owner t conn.peer = some c →
      Healthy (s'.outs c) → Hears t s s' c conn.peer chs := by
  rcases step_cases hi hs with hpassive | ⟨d,act,dconn,e,rfl,hd,he,rfl⟩
  · refine ⟨[],?_⟩
    intro c conn hc _ _
    exact ⟨[],by rw [hpassive.session c conn hc,List.append_nil],rfl⟩
  · obtain ⟨chs,hchs⟩ := performed_history hi.slots hd (perform_spec (hi.conns d dconn hd).blob he) t
    refine ⟨chs,?_⟩
    intro c conn hc howner hh
    refine ⟨(sendsTo c e.sends).flatMap Msg.sessionItem,?_,?_⟩
    · rw [State.apply_outs] at hh ⊢
      exact acceptAll_sent hh
    · have hevents : events t ((sendsTo c e.sends).flatMap Msg.sessionItem) =
          (notAbout conn.peer chs).map .change := hchs c conn hc howner
      rw [changes,hevents,List.filterMap_map]
      exact List.filterMap_some

/-! ### Spans of a run -/

theorem exec_healthy {span : List (Action Id)} (hi : Invariant limits s)
    (hrun : exec (step limits) s span = some s') (hc : s.conns c = some conn)
    (hh : Healthy (s'.outs c)) : Healthy (s.outs c) := by
  induction span generalizing s conn with
  | nil =>
      cases hrun
      exact hh
  | cons a span ih =>
      obtain ⟨u,hu,hrest⟩ := (exec_cons_eq_some _).mp hrun
      obtain ⟨conn',hc',-,-⟩ := step_kept hi hu hc
      obtain ⟨p,evs,hqueues,-⟩ := step_heard (t := topicOf 0) hi hu hc
      exact hqueues.later.healthy (ih (step_invariant hi hu) hrest hc')

/-- A span has one history of the room, and every connection that owns its slot all
the while is queued it. -/
theorem span_history {span : List (Action Id)} (hi : Invariant limits s)
    (hrun : exec (step limits) s span = some s') (t : Topic) :
    ∃ chs, ∀ c conn, s.conns c = some conn →
      Along (step limits) (fun u _ => holdsSlot u c t = true) s span → Healthy (s'.outs c) →
      Hears t s s' c conn.peer chs := by
  induction span generalizing s with
  | nil =>
      cases hrun
      exact ⟨[],fun c conn _ _ _ => ⟨[],(List.append_nil _).symm,rfl⟩⟩
  | cons a span ih =>
      obtain ⟨u,hu,hrest⟩ := (exec_cons_eq_some _).mp hrun
      have hiu := step_invariant hi hu
      obtain ⟨first,hfirst⟩ := step_history hi hu t
      obtain ⟨rest,hrest'⟩ := ih hiu hrest
      refine ⟨first++rest,?_⟩
      intro c conn hc howns hh
      obtain ⟨conn',hc',hpeer,-⟩ := step_kept hi hu hc
      have howner : s.rooms.owner t conn.peer = some c := by
        have h : holdsSlot s c t = true := howns.1
        rwa [holdsSlot_of_conn hc,Rooms.isMember_iff] at h
      have hhears := hrest' c conn' hc' (howns.2 u hu) hh
      rw [hpeer] at hhears
      exact (hfirst c conn hc howner (exec_healthy hiu hrest hc' hh)).trans hhears

/-- **Agreement on room history**: two connections that own their slots in a room
throughout a span, with queues that take all they are sent, are queued the same
JOINED, LEFT and PRESENCE frames about all others, in the same order. -/
theorem room_history_agrees {as span : List (Action Id)}
    (hrun : exec (step limits) (State.init limits) as = some s)
    (hspan : exec (step limits) s span = some s')
    (hc : s.conns c = some conn) (hd : s.conns d = some dconn)
    (hcowns : Along (step limits) (fun u _ => holdsSlot u c t = true) s span)
    (hdowns : Along (step limits) (fun u _ => holdsSlot u d t = true) s span)
    (hch : Healthy (s'.outs c)) (hdh : Healthy (s'.outs d)) :
    notAbout dconn.peer (notAbout conn.peer (changes t (queuedIn s s' c))) =
      notAbout dconn.peer (notAbout conn.peer (changes t (queuedIn s s' d))) := by
  obtain ⟨chs,hchs⟩ := span_history (run_invariant hrun) hspan t
  rw [(hchs c conn hc hcowns hch).queuedIn,(hchs d dconn hd hdowns hdh).queuedIn]
  simp only [notAbout,List.filter_filter]
  apply List.filter_congr
  intro ch _
  by_cases hp : ch.subject = conn.peer <;> by_cases hq : ch.subject = dconn.peer <;> simp [hp,hq]

end

/-- Two endpoints in a room. -/
def pair : List (Action RawId) :=
  [.connect .base 0,.connect .identity 0,.connect ⟨List.replicate 32 0,rfl⟩ 0,
    sends 1 (.subscribe (topicOf 7)) 0,sends 2 (.subscribe (topicOf 7)) 0]

/-- A third one comes and announces, the second one announces, and the third leaves. -/
def visit : List (Action RawId) :=
  [sends 3 (.subscribe (topicOf 7)) 0,sends 3 (.announce (topicOf 7) [1]) 1,
    sends 2 (.announce (topicOf 7) [2]) 1,.act 3 (.announceRate 2),.act 2 (.announceRate 2),
    .act 2 .announceRoom,.act 3 .announceRoom,sends 3 (.unsubscribe (topicOf 7)) 3]

theorem room_history_agrees_visit : ∃ s s',
    exec (step .default) (State.init .default) pair = some s ∧ exec (step .default) s visit = some s' ∧
    (changes (topicOf 7) (queuedIn s s' 1)).length = 4 ∧
    notAbout .identity (notAbout .base (changes (topicOf 7) (queuedIn s s' 1))) =
      notAbout .identity (notAbout .base (changes (topicOf 7) (queuedIn s s' 2))) := by
  have hrun : (exec (step .default) (State.init .default) pair).any (fun s =>
      (s.conns 1).any fun conn => (s.conns 2).any fun dconn => (exec (step .default) s visit).any fun s' =>
        decide (conn.peer = .base ∧ dconn.peer = .identity ∧
          Along (step .default) (fun u _ => holdsSlot u 1 (topicOf 7) = true) s visit ∧
          Along (step .default) (fun u _ => holdsSlot u 2 (topicOf 7) = true) s visit ∧
          (changes (topicOf 7) (queuedIn s s' 1)).length = 4 ∧
          (s'.outs 1).budget.overflowed = false ∧ (s'.outs 1).session.isOpen = true ∧
          (s'.outs 2).budget.overflowed = false ∧ (s'.outs 2).session.isOpen = true)) = true := by
    decide +kernel
  obtain ⟨s,hs,hrun⟩ := (Option.any_eq_true _ _).mp hrun
  obtain ⟨conn,hc,hrun⟩ := (Option.any_eq_true _ _).mp hrun
  obtain ⟨dconn,hd,hrun⟩ := (Option.any_eq_true _ _).mp hrun
  obtain ⟨s',hs',hrun⟩ := (Option.any_eq_true _ _).mp hrun
  obtain ⟨hp,hq,hcowns,hdowns,hfour,hc₁,hc₂,hd₁,hd₂⟩ := of_decide_eq_true hrun
  refine ⟨s,s',hs,hs',hfour,?_⟩
  rw [← hp,← hq]
  exact room_history_agrees hs hs' hc hd hcowns hdowns ⟨hc₁,hc₂⟩ ⟨hd₁,hd₂⟩

end KeepTalkingSfu.RoomHistory
