import KeepTalkingSfu.QueuedFrames
import KeepTalkingSfu.RoomView
import KeepTalkingSfu.StreamCuts

/-!
# The room as a client has it

What a client makes of a room is a fold over the frames it is handed: the members of
the SNAPSHOT, then every change. The server's queue, its writer, the stream and the
client's reader lie in between, and any of them can stop at any byte. The fold is
nevertheless always the room as it was, for everyone else, at one state of the run: the
client can be late, never wrong. As more arrives the states only move forward, and once
everything queued has arrived it is the room as it is.
-/
namespace KeepTalkingSfu.ClientView
open ByteTransport WireFormat StreamWriters MemberQueues RoomTable TokenBucket Server ServerEffects
  RoomInvariant TaskSteps SlotOwnership InterleavedRuns MembershipView RoomView SessionStream
  QueuedFrames StreamCuts

section
variable {Id : Type} [DecidableEq Id]

/-! ### Following a room -/

/-- What one event makes of the view. A change before any snapshot is of no room the
client knows. -/
def follow (view : Option (View Id Bytes)) : Event Id → Option (View Id Bytes)
  | .snapshot members => some (viewOf members)
  | .change ch => view.map (ch.apply [])

/-- The view after some events. -/
def followed (evs : List (Event Id)) : Option (View Id Bytes) := evs.foldl follow none

theorem followed_changes (view : View Id Bytes) (chs : List (Change Id Bytes)) :
    (chs.map Event.change).foldl follow (some view) = some (replay [] view chs) := by
  induction chs generalizing view with
  | nil => rfl
  | cons ch chs ih => exact ih (ch.apply [] view)

theorem followed_snapshot (evs : List (Event Id)) (members : List (Member Id))
    (chs : List (Change Id Bytes)) :
    followed (evs++.snapshot members::chs.map .change) = some (replay [] (viewOf members) chs) := by
  rw [followed,List.foldl_append,List.foldl_cons]
  exact followed_changes _ _

theorem followed_snoc (evs : List (Event Id)) (e : Event Id) :
    followed (evs++[e]) = follow (followed evs) e := by
  rw [followed,List.foldl_append]
  rfl

/-- The room a client reads off the frames it is handed. -/
def viewAfter [EndpointKey Id] (t : Topic) (frames : List (ServerFrame Id)) :
    Option (View Id Bytes) :=
  followed (frames.filterMap (roomEvent t))

variable {F : Type} [EndpointKey Id] [Scalar F] {limits : Limits F} {s : State Id F} {c : ℕ}
  {conn : Conn Id F} {t : Topic} {as : List (Action Id)}

/-! ### Every event leads to a room of the run -/

theorem followed_now (h : exec (step limits) (State.init limits) as = some s)
    (hc : s.conns c = some conn) (howner : s.rooms.owner t conn.peer = some c)
    (hh : Healthy (s.outs c)) :
    followed (told t s c) = some (hide conn.peer (roster s.rooms t)) := by
  obtain ⟨_,_,_,_,_,members,chs,_,_,_,_,_,_,htold,_,hfollows⟩ := told_since_join h hc howner hh
  rw [htold,followed_snapshot,hfollows.replay]

/-- A step that tells a connection something tells it one event, and leads from the
room before to the room after. -/
theorem step_told {u : State Id F} {b : Action Id} {conn₀ : Conn Id F}
    (h : exec (step limits) (State.init limits) as = some u) (hb : step limits u b = some s)
    (hc₀ : u.conns c = some conn₀) :
    told t s c = told t u c ∨ ∃ e, told t s c = told t u c++[e] ∧
      followed (told t s c) = some (hide conn₀.peer (roster s.rooms t)) := by
  obtain ⟨p,evs,hqueues,hheard⟩ := step_heard (t := t) (run_invariant h) hb hc₀
  obtain ⟨l,hl,hsub⟩ := hqueues.some
  by_cases hh : Healthy (u.outs c)
  · cases hheard with
    | nothing hslots hjoins hevs =>
        rw [hevs,List.sublist_nil] at hsub
        exact .inl (by rw [hl,hsub,List.append_nil])
    | told ch hsubject hfits hroster hjoins hheard hsilent =>
        by_cases howns : conn₀.peer ≠ p ∧ u.rooms.owner t conn₀.peer = some c
        · rw [hheard howns.1 howns.2] at hsub
          rcases List.sublist_singleton.mp hsub with hnil | hone
          · exact .inl (by rw [hl,hnil,List.append_nil])
          · right
            refine ⟨.change ch,by rw [hl,hone],?_⟩
            have hne : ch.subject ≠ conn₀.peer := fun heq => howns.1 (heq.symm.trans hsubject)
            rw [hl,hone,followed_snoc,followed_now h hc₀ howns.2 hh,hroster,hide_apply_of_ne [] hne]
            rfl
        · rw [hsilent howns,List.sublist_nil] at hsub
          exact .inl (by rw [hl,hsub,List.append_nil])
    | joined members hj hp hothers hview hevs =>
        rw [hevs] at hsub
        rcases List.sublist_singleton.mp hsub with hnil | hone
        · exact .inl (by rw [hl,hnil,List.append_nil])
        · refine .inr ⟨.snapshot members,by rw [hl,hone],?_⟩
          rw [hl,hone,followed_snoc,follow,hview,hp]
  · exact .inl (hqueues.none hh)

/-- The state a run leads to has just these events told to the connection, and they
lead to its room for everyone else. -/
structure Reaches (limits : Limits F) (pre : List (Action Id)) (u : State Id F) (c : ℕ) (p : Id)
    (t : Topic) (evs : List (Event Id)) : Prop where
  run : exec (step limits) (State.init limits) pre = some u
  conn : ∃ uconn, u.conns c = some uconn ∧ uconn.peer = p
  told : told t u c = evs
  view : followed evs = some (hide p (roster u.rooms t))

/-- Any number of events a connection has been told leads to the room at the state in
which it had been told just these. -/
theorem told_past (h : exec (step limits) (State.init limits) as = some s)
    (hc : s.conns c = some conn) {evs : List (Event Id)} (hevs : evs <+: told t s c)
    (hne : evs ≠ []) : ∃ pre u, pre <+: as ∧ Reaches limits pre u c conn.peer t evs := by
  induction as using List.reverseRecOn generalizing s conn with
  | nil =>
      cases h
      cases hc
  | append_singleton as b ih =>
      obtain ⟨u,hu,hb⟩ := (exec_snoc_eq_some _).mp h
      cases hc₀ : u.conns c with
      | none =>
          rw [told_new hb hc₀ hc] at hevs
          exact absurd (List.prefix_nil.mp hevs) hne
      | some conn₀ =>
          have hpeer : conn₀.peer = conn.peer := by
            obtain ⟨conn',hc',hp,-⟩ := step_kept (run_invariant hu) hb hc₀
            rw [hc] at hc'
            cases hc'
            exact hp.symm
          have hbefore : evs <+: told t u c →
              ∃ pre v, pre <+: as++[b] ∧ Reaches limits pre v c conn.peer t evs := by
            intro hevs
            obtain ⟨pre,v,hpre,hv⟩ := ih hu hc₀ hevs
            rw [hpeer] at hv
            exact ⟨pre,v,hpre.trans (List.prefix_append _ _),hv⟩
          rcases step_told hu hb hc₀ with hsame | ⟨e,hnew,hview⟩
          · rw [hsame] at hevs
            exact hbefore hevs
          · rw [hnew,List.prefix_concat_iff] at hevs
            rcases hevs with hevs | hevs
            · rw [← hnew] at hevs
              rw [hpeer] at hview
              exact ⟨as++[b],s,List.prefix_rfl,h,⟨conn,hc,rfl⟩,hevs.symm,hevs ▸ hview⟩
            · exact hbefore hevs

/-! ### From the queue to the client -/

section
omit [DecidableEq Id]

theorem exists_sent {qs : List (Queued (SessionItem Id))}
    (h : ∀ q ∈ qs, ∃ x : Sent Id, x.Fits ∧ x.item = q.item) :
    ∃ xs : List (Sent Id), (∀ x ∈ xs, x.Fits) ∧ xs.map Sent.item = qs.map Queued.item := by
  induction qs with
  | nil => exact ⟨[],nofun,rfl⟩
  | cons q qs ih =>
      obtain ⟨x,hx,hitem⟩ := h q List.mem_cons_self
      obtain ⟨xs,hxs,hitems⟩ := ih fun q hq => h q (List.mem_cons_of_mem _ hq)
      refine ⟨x::xs,?_,by rw [List.map_cons,List.map_cons,hitem,hitems]⟩
      intro y hy
      rcases List.mem_cons.mp hy with rfl | hy
      · exact hx
      · exact hxs y hy

theorem readBack_sent {x : Sent Id} (hx : x.Fits) : readBack x.item = some x.shown := by
  cases x with
  | room topic members => rfl
  | event frame =>
      apply readBack_encode
      rintro topic more members rfl
      exact hx

theorem events_sent {qs : List (Queued (SessionItem Id))} {xs : List (Sent Id)}
    (hxs : ∀ x ∈ xs, x.Fits) (hitems : xs.map Sent.item = qs.map Queued.item) (t : Topic) :
    events t qs = (xs.map Sent.shown).filterMap (roomEvent t) := by
  have hqs : events t qs = (qs.map Queued.item).filterMap fun i => (readBack i).bind (roomEvent t) := by
    rw [List.filterMap_map]
    rfl
  rw [hqs,← hitems,List.filterMap_map,List.filterMap_map]
  apply List.filterMap_congr
  intro x hx
  simp only [Function.comp_apply,readBack_sent (hxs x hx),Option.bind_some]

/-- What a client is handed of a session stream, cut anywhere, are the first of the
frames the server meant. -/
theorem handed_first {qs : List (Queued (SessionItem Id))} {xs : List (Sent Id)}
    (hxs : ∀ x ∈ xs, x.Fits) (hitems : xs.map Sent.item = qs.map Queued.item)
    (plan : ℕ → WriteOutcome) (k chunkEntries : ℕ) {chunkBytes : ℕ} (hbody : chunkBytes < maxFrameLen)
    (alive : ℕ → Bool) {r : Reads}
    (hr : r.bytes <+: (sessionWriter plan chunkEntries chunkBytes k (qs.map Queued.item)).1) :
    (pumpFrames alive r (Pump.start : Pump Id)).handed <+: xs.map Sent.shown ∧
      (pumpFrames alive r (Pump.start : Pump Id)).skipped = 0 := by
  have hfull : r.bytes <+: (Reads.whole (xs.flatMap fun x =>
      x.item.chunks chunkEntries chunkBytes).flatten).bytes := by
    rw [Reads.whole_bytes,← List.flatMap_map,hitems]
    exact hr.trans (sessionWriter_written ..)
  have hall := pump_items chunkEntries chunkBytes hbody xs hxs _ [] (Reads.whole_bytes _) rfl
  obtain ⟨halive,halive'⟩ := pumpFrames_alive alive r (Pump.start : Pump Id)
  obtain ⟨hcut,hcut'⟩ := pumpFrames_longer (fun _ => true) hfull (Pump.start : Pump Id)
  rw [Pump.start,hall] at hcut hcut'
  exact ⟨halive.trans hcut,Nat.le_zero.mp (halive'.trans hcut')⟩

theorem handed_all {qs : List (Queued (SessionItem Id))}
    (h : ∀ q ∈ qs, ∃ x : Sent Id, x.Fits ∧ x.item = q.item) {plan : ℕ → WriteOutcome}
    (hp : Flowing plan) (k chunkEntries : ℕ) {chunkBytes : ℕ} (hbody : chunkBytes < maxFrameLen) :
    (pumpFrames (fun _ => true) (Reads.whole
      (sessionWriter plan chunkEntries chunkBytes k (qs.map Queued.item)).1)
        (Pump.start : Pump Id)).handed.length = qs.length := by
  obtain ⟨xs,hxs,hitems⟩ := exists_sent h
  obtain ⟨k',hw⟩ := sessionWriter_flowing hp chunkEntries chunkBytes k (qs.map Queued.item)
  have hlen := congrArg List.length hitems
  rw [List.length_map,List.length_map] at hlen
  rw [hw,← hitems,List.flatMap_map,Pump.start,
    pump_items chunkEntries chunkBytes hbody xs hxs _ [] (Reads.whole_bytes _) rfl]
  simpa using hlen

end

/-- What the frames make of a topic is the room, for everyone else, in the state a run
leads to, in which just the events of these frames had been queued. -/
def IsRoomAfter (limits : Limits F) (pre : List (Action Id)) (c : ℕ) (p : Id) (t : Topic)
    (frames : List (ServerFrame Id)) : Prop :=
  ∃ u, exec (step limits) (State.init limits) pre = some u ∧
    told t u c = frames.filterMap (roomEvent t) ∧
    viewAfter t frames = some (hide p (roster u.rooms t))

/-- Frames without any event of the topic, or what they make of it is a past room. -/
def NothingOrPast (limits : Limits F) (as : List (Action Id)) (c : ℕ) (p : Id) (t : Topic)
    (frames : List (ServerFrame Id)) : Prop :=
  frames.filterMap (roomEvent t) = [] ∨ ∃ pre, pre <+: as ∧ IsRoomAfter limits pre c p t frames

/-- **A client's view is never wrong.** Whatever the writes, the cuts and the reads
were, and however many frames the client took, it skipped none of the server's, and what
it has of a topic is the room at a state of the run. Whatever it had earlier is the room
at an earlier state. Once it has been handed everything queued, an owner of a slot with a
healthy queue has the room as it is. -/
theorem client_view_past (h : exec (step limits) (State.init limits) as = some s)
    (hc : s.conns c = some conn) (hid : ShortErrors Id)
    (hmax : limits.maxMembersPerTopic ≤ maxMembersPerTopic) (t : Topic)
    (plan : ℕ → WriteOutcome) (k chunkEntries chunkBytes : ℕ) (hbody : chunkBytes < maxFrameLen)
    (alive : ℕ → Bool) {r r' : Reads} (hcut : r.bytes <+: r'.bytes)
    (hr : r'.bytes <+: (sessionWriter plan chunkEntries chunkBytes k
      ((s.outs c).session.sent.map Queued.item)).1) :
    (pumpFrames alive r' (Pump.start : Pump Id)).skipped = 0 ∧
    ((pumpFrames alive r' (Pump.start : Pump Id)).handed.filterMap (roomEvent t) = [] ∨
      ∃ now, now <+: as ∧
        IsRoomAfter limits now c conn.peer t (pumpFrames alive r' Pump.start).handed ∧
        NothingOrPast limits now c conn.peer t (pumpFrames alive r Pump.start).handed) ∧
    ((pumpFrames alive r' (Pump.start : Pump Id)).handed.length = (s.outs c).session.sent.length →
      Healthy (s.outs c) → s.rooms.owner t conn.peer = some c →
      viewAfter t (pumpFrames alive r' (Pump.start : Pump Id)).handed =
        some (hide conn.peer (roster s.rooms t))) := by
  obtain ⟨xs,hxs,hitems⟩ := exists_sent ((run_readable hid hmax h).queued c)
  obtain ⟨hhanded,hskipped⟩ := handed_first hxs hitems plan k chunkEntries hbody alive hr
  have htold : told t s c = (xs.map Sent.shown).filterMap (roomEvent t) := events_sent hxs hitems t
  have hearlier := (pumpFrames_longer alive hcut (Pump.start : Pump Id)).1
  generalize (pumpFrames alive r' (Pump.start : Pump Id)).handed = handed' at *
  generalize (pumpFrames alive r (Pump.start : Pump Id)).handed = handed at *
  have hevents' : handed'.filterMap (roomEvent t) <+: told t s c := by
    rw [htold]
    exact hhanded.filterMap _
  have hevents : handed.filterMap (roomEvent t) <+: handed'.filterMap (roomEvent t) :=
    hearlier.filterMap _
  refine ⟨hskipped,?_,?_⟩
  · by_cases hnone' : handed'.filterMap (roomEvent t) = []
    · exact .inl hnone'
    · obtain ⟨now,u',hnow,hu'⟩ := told_past h hc hevents' hnone'
      refine .inr ⟨now,hnow,⟨u',hu'.run,hu'.told,hu'.view⟩,?_⟩
      by_cases hnone : handed.filterMap (roomEvent t) = []
      · exact .inl hnone
      · -- what it had earlier was told by then
        obtain ⟨uconn,huconn,hpeer⟩ := hu'.conn
        rw [← hu'.told] at hevents
        obtain ⟨pre,u,hpre,hu⟩ := told_past hu'.run huconn hevents hnone
        rw [hpeer] at hu
        exact .inr ⟨pre,hpre,u,hu.run,hu.told,hu.view⟩
  · intro hlength hh howner
    have hcount : (xs.map Sent.shown).length = (s.outs c).session.sent.length := by
      have hlen := congrArg List.length hitems
      simpa only [List.length_map] using hlen
    have hall : handed' = xs.map Sent.shown := hhanded.eq_of_length (hlength.trans hcount.symm)
    rw [viewAfter,hall,← htold]
    exact followed_now h hc howner hh

end

theorem shortErrors_rawId : ShortErrors RawId := by
  intro bs e h
  simp only [EndpointKey.fromBytes] at h
  split_ifs at h
  cases h
  decide

/-- The first of two endpoints reads its whole stream, a byte a write. -/
theorem client_view_past_newcomer : ∃ s conn,
    exec (step .default) (State.init .default) newcomer = some s ∧ s.conns 1 = some conn ∧
    viewAfter (topicOf 7) (pumpFrames (fun _ => true) (Reads.whole (sessionWriter
      (fun _ => .took 0) 1 0 0 ((s.outs 1).session.sent.map Queued.item)).1)
        (Pump.start : Pump RawId)).handed = some (hide conn.peer (roster s.rooms (topicOf 7))) := by
  have hrun : (exec (step .default) (State.init .default) newcomer).any (fun s =>
      (s.conns 1).any fun conn => decide (s.rooms.owner (topicOf 7) conn.peer = some 1 ∧
        (s.outs 1).budget.overflowed = false ∧ (s.outs 1).session.isOpen = true)) = true := by
    decide +kernel
  obtain ⟨s,hs,hrun⟩ := (Option.any_eq_true _ _).mp hrun
  obtain ⟨conn,hc,hrun⟩ := (Option.any_eq_true _ _).mp hrun
  obtain ⟨howner,hbudget,hopen⟩ := of_decide_eq_true hrun
  have hread := (run_readable shortErrors_rawId le_rfl hs).queued 1
  refine ⟨s,conn,hs,hc,?_⟩
  refine (client_view_past hs hc shortErrors_rawId le_rfl (topicOf 7) (fun _ => .took 0) 0 1 0
    (by decide) (fun _ => true) (r := Reads.whole []) ?_ ?_).2.2 ?_ ⟨hbudget,hopen⟩ howner
  · rw [Reads.whole_bytes]
    exact List.nil_prefix
  · rw [Reads.whole_bytes]
  · exact handed_all hread (fun _ => ⟨0,rfl⟩) 0 1 (by decide)

end KeepTalkingSfu.ClientView
