import KeepTalkingSfu.DeliveryOrder

/-!
# Where a delivery comes from

Whatever is ever queued to a connection, on a long-lived lane or for a bulk stream, was
read from a client that owned a slot of the topic's room when it was carried out, was
handed on as it was read, and went to a connection that owned a slot of the same room
then, under another endpoint. Nothing else is delivered, to nobody else.
-/
namespace KeepTalkingSfu.DeliveryOrigin
open ByteTransport WireFormat StreamWriters LaneStream MemberQueues RoomTable TokenBucket Server
  StepCases ServerEffects RoomInvariant TaskSteps InterleavedRuns FanOut DeliveryOrder

section
variable {Id : Type}

/-! ### What a client's queues hold -/

/-- The queues hold a delivery on the lane, or held it until its writer took it. -/
inductive Holds (out : Outbound Id) : Lane → Deliver → Prop
  | long (i : Fin 2) (q : Queued Deliver) : q ∈ (out.lanes i).sent → Holds out (longLane i) q.item
  | waiting (f : Deliver) : f ∈ out.bulk.waiting → Holds out .bulk f
  | onStream (f : Deliver) : f ∈ out.onStreams → Holds out .bulk f

variable {out out' : Outbound Id} {lane : Lane} {f : Deliver}

theorem Holds.mono (h : Holds out' lane f)
    (hlanes : ∀ i, (out'.lanes i).sent = (out.lanes i).sent)
    (hbulk : ∀ f, f ∈ out'.bulk.waiting ∨ f ∈ out'.onStreams →
      f ∈ out.bulk.waiting ∨ f ∈ out.onStreams) : Holds out lane f := by
  have hboth : ∀ f, f ∈ out.bulk.waiting ∨ f ∈ out.onStreams → Holds out .bulk f := by
    rintro f (hf | hf)
    · exact .waiting f hf
    · exact .onStream f hf
  cases h with
  | long i q hq =>
      rw [hlanes i] at hq
      exact .long i q hq
  | waiting f hf => exact hboth f (hbulk f (.inl hf))
  | onStream f hf => exact hboth f (hbulk f (.inr hf))

theorem makeRoom_waiting (budget size : ℕ) (waiting : List Deliver) (waitingBytes bytes : ℕ) :
    (BulkState.makeRoom budget size waiting waitingBytes bytes).2.waiting ⊆ waiting := by
  induction waiting generalizing waitingBytes bytes with
  | nil => exact List.Subset.refl _
  | cons oldest rest ih =>
      simp only [BulkState.makeRoom]
      split_ifs
      · exact List.subset_cons_of_subset oldest (ih _ _)
      · exact List.Subset.refl _

/-- A push makes nothing wait but what waited and the new delivery. -/
theorem push_waiting (budget : ℕ) (state : BulkState) (frame : Deliver) :
    (state.push budget frame).2.waiting ⊆ state.waiting++[frame] := by
  simp only [BulkState.push]
  split_ifs
  · exact List.subset_append_left _ _
  · exact List.subset_append_left _ _
  · intro g hg
    rcases List.mem_append.mp hg with hg | hg
    · exact List.mem_append_left _ (makeRoom_waiting _ _ _ _ _ hg)
    · exact List.mem_append_right _ hg

theorem deliverLong_onStreams (out : Outbound Id) (i : Fin 2) (frame : Deliver) :
    (out.deliverLong i frame).onStreams = out.onStreams := by
  simp only [Outbound.deliverLong]
  split
  · split <;> rfl
  · rfl

theorem deliverLong_holds {i : Fin 2} {frame : Deliver}
    (h : Holds (out.deliverLong i frame) lane f) :
    Holds out lane f ∨ longLane i = lane ∧ frame = f := by
  have hbulk : ∀ f, f ∈ (out.deliverLong i frame).bulk.waiting ∨
      f ∈ (out.deliverLong i frame).onStreams → f ∈ out.bulk.waiting ∨ f ∈ out.onStreams := by
    intro f hf
    rwa [deliverLong_bulk,deliverLong_onStreams] at hf
  by_cases hfits : FitsLane out i frame.len
  · cases h with
    | long j q hq =>
        rw [deliverLong_fits hfits] at hq
        by_cases hj : j = i
        · subst hj
          rw [Function.update_self] at hq
          rcases List.mem_append.mp hq with hq | hq
          · exact .inl (.long j q hq)
          · rw [List.mem_singleton.mp hq]
            exact .inr ⟨rfl,rfl⟩
        · rw [Function.update_of_ne hj] at hq
          exact .inl (.long j q hq)
    | waiting f hf =>
        rcases hbulk f (.inl hf) with hf | hf
        · exact .inl (.waiting f hf)
        · exact .inl (.onStream f hf)
    | onStream f hf =>
        rcases hbulk f (.inr hf) with hf | hf
        · exact .inl (.waiting f hf)
        · exact .inl (.onStream f hf)
  · left
    apply h.mono _ hbulk
    intro j
    rw [(deliverLong_not_fits hfits).1]

/-- A message adds no delivery but its own. -/
theorem accept_holds {msg : Msg Id} (h : Holds (out.accept msg) lane f) :
    Holds out lane f ∨ msg = .deliver lane f := by
  cases msg with
  | session item size =>
      left
      have hsession : NotDeliver (.session item size : Msg Id) := nofun
      obtain ⟨hlanes,hbulk⟩ := accept_notDeliver out hsession
      have hstreams : (out.accept (.session item size)).onStreams = out.onStreams := by
        simp only [Outbound.accept,Outbound.pushSession]
        split
        · split <;> rfl
        · rfl
      apply h.mono
      · intro i
        rw [hlanes]
      · intro g hg
        rwa [hbulk,hstreams] at hg
  | datagram bytes => exact .inl (h.mono (fun _ => rfl) fun _ hg => hg)
  | deliver lane' frame =>
      cases lane' with
      | control =>
          rcases deliverLong_holds (i := 0) h with h | ⟨rfl,rfl⟩
          · exact .inl h
          · exact .inr rfl
      | interactive =>
          rcases deliverLong_holds (i := 1) h with h | ⟨rfl,rfl⟩
          · exact .inl h
          · exact .inr rfl
      | bulk =>
          cases h with
          | long i q hq => exact .inl (.long i q hq)
          | onStream f hf => exact .inl (.onStream f hf)
          | waiting f hf =>
              rcases List.mem_append.mp (push_waiting _ _ _ hf) with hf | hf
              · exact .inl (.waiting f hf)
              · rw [List.mem_singleton.mp hf]
                exact .inr rfl

theorem acceptAll_holds {msgs : List (Msg Id)} (h : Holds (acceptAll out msgs) lane f) :
    Holds out lane f ∨ .deliver lane f ∈ msgs := by
  induction msgs generalizing out with
  | nil => exact .inl h
  | cons msg msgs ih =>
      rcases ih h with h | h
      · rcases accept_holds h with h | rfl
        · exact .inl h
        · exact .inr List.mem_cons_self
      · exact .inr (List.mem_cons_of_mem _ h)

/-- The writers add nothing. -/
theorem drain_holds {w : Drain} (hw : out.drain w = some out') (h : Holds out' lane f) :
    Holds out lane f := by
  apply h.mono (drain_spec hw).2.2.1
  intro g hg
  cases w with
  | released q =>
      cases q with
      | session | lane i =>
          obtain ⟨x,-,rfl⟩ := Option.map_eq_some_iff.mp hw
          exact hg
  | hungUp q =>
      cases q with
      | session | lane i =>
          cases hw
          exact hg
  | crowded | bulkClosed =>
      cases hw
      exact hg
  | bulkNext =>
      obtain ⟨⟨frame,bulk⟩,hnext,rfl⟩ := Option.map_eq_some_iff.mp hw
      unfold BulkState.next at hnext
      split at hnext
      · cases hnext
      · next frame' rest hwaiting =>
        cases hnext
        rw [hwaiting]
        simpa [or_assoc,or_comm,or_left_comm] using hg
  | bulkDone i =>
      obtain ⟨x,-,rfl⟩ := Option.map_eq_some_iff.mp hw
      exact hg.imp_right fun hg => List.mem_of_mem_eraseIdx hg

theorem not_holds_new (outboxBytes bulkOutboxBytes : ℕ) :
    ¬Holds (Outbound.new Id outboxBytes bulkOutboxBytes) lane f := by
  intro h
  cases h with
  | long i q hq => cases hq
  | waiting f hf => cases hf
  | onStream f hf => cases hf

end

section
variable {Id F : Type} [DecidableEq Id] [EndpointKey Id] [Scalar F] {limits : Limits F}
  {s s' : State Id F} {a : Action Id} {d : ℕ} {lane : Lane} {f : Deliver}

/-! ### One step -/

/-- A step makes a connection's queues hold nothing new but its publication, if that
reaches the connection. -/
theorem step_holds (hi : Invariant limits s) (hs : step limits s a = some s')
    (h : Holds (s'.outs d) lane f) : Holds (s.outs d) lane f ∨
      ∃ x, publishedBy s a = some x ∧ x.reaches s d = true ∧ x.lane = lane ∧
        x.frame.deliver = f := by
  cases a with
  | connect peer now =>
      cases hs
      left
      by_cases hd : d = s.next
      · subst hd
        simp only [State.connect,Function.update_self] at h
        exact absurd h (not_holds_new _ _)
      · rwa [State.connect_outs_of_ne _ _ _ _ hd] at h
  | drain c w =>
      obtain ⟨out,hout,rfl⟩ := step_drain hs
      left
      by_cases hd : d = c
      · subst hd
        simp only [Function.update_self] at h
        exact drain_holds hout h
      · simpa only [Function.update_of_ne hd] using h
  | rehash topic room =>
      obtain ⟨old,-,-,rfl⟩ := step_rehash hs
      exact .inl h
  | act c act =>
      obtain ⟨conn,e,hc,he,rfl⟩ := step_act hs
      rw [State.apply_outs] at h
      rcases acceptAll_holds h with h | hsent
      · exact .inl h
      · right
        have hpub := act_published hi hc he
        cases hx : publishedBy s (.act c act) with
        | none =>
            rw [hx] at hpub
            exact absurd rfl (hpub d _ hsent lane f)
        | some x =>
            rw [hx] at hpub
            have hto := hpub d
            by_cases hreach : x.reaches s d = true
            · rw [if_pos hreach] at hto
              rw [hto] at hsent
              cases List.mem_singleton.mp hsent
              exact ⟨x,rfl,hreach,rfl,rfl⟩
            · rw [if_neg hreach] at hto
              exact absurd rfl (hto _ hsent lane f)

/-! ### Whole runs -/

/-- The stream was opened on the lane in the run. -/
def Opened (as : List (Action Id)) (c stream : ℕ) (lane : Lane) : Prop :=
  .act c (.openLane stream lane) ∈ as

/-- The frame was read from the stream in the run. -/
def Read (as : List (Action Id)) (c stream : ℕ) (p : Publish Id) : Prop :=
  ∃ tag body, .act c (.laneFrame stream tag body) ∈ as ∧ publication tag body = some p

theorem run_held {as : List (Action Id)}
    (h : exec (step limits) (State.init limits) as = some s) :
    AllHeld (Opened as) (Read as) s := by
  induction as using List.reverseRecOn generalizing s with
  | nil =>
      cases h
      rintro c conn ⟨⟩
  | append_singleton as a ih =>
      obtain ⟨u,hu,hs⟩ := (exec_snoc_eq_some _).mp h
      have hlast : a ∈ as++[a] := List.mem_append_right _ List.mem_cons_self
      refine step_held ⟨?_,?_⟩ hs ?_
      · rintro c stream lane rfl
        exact hlast
      · rintro c stream tag body p rfl hpub
        exact ⟨tag,body,hlast,hpub⟩
      · intro c conn hc stream l hl
        obtain ⟨hopened,hread⟩ := ih hu c conn hc stream l hl
        refine ⟨List.mem_append_left _ hopened,?_⟩
        intro p hp
        obtain ⟨tag,body,hmem,hpub⟩ := hread p hp
        exact ⟨tag,body,List.mem_append_left _ hmem,hpub⟩

/-- Where a delivery to a connection comes from: the client of a connection that owned a
slot of the topic sent it on a stream of the same lane, and it was carried out when the
recipient owned a slot of the topic too, under another endpoint, and was addressed. -/
structure Origin (limits : Limits F) (as : List (Action Id)) (d : ℕ) (lane : Lane)
    (f : Deliver) where
  before : List (Action Id)
  carrying : Action Id
  after : List (Action Id)
  state : State Id F
  published : Published Id
  stream : ℕ
  tag : UInt8
  body : Bytes
  run : as = before++carrying::after
  reached : exec (step limits) (State.init limits) before = some state
  carried : publishedBy state carrying = some published
  opened : .act published.publisher (.openLane stream lane) ∈ before
  read : .act published.publisher (.laneFrame stream tag body) ∈ before
  frame : publication tag body = some published.frame
  deliver : published.frame.deliver = f
  topic : f.topic = published.frame.topic.bytes
  publisher : holdsSlot state published.publisher published.frame.topic = true
  recipient : published.reaches state d = true

/-- A publication carried out after a run was read in the run. -/
theorem origin_of_published {before after : List (Action Id)} {x : Published Id}
    (hrun : exec (step limits) (State.init limits) before = some s)
    (hx : publishedBy s a = some x) (hreach : x.reaches s d = true) :
    Nonempty (Origin limits (before++a::after) d x.lane x.frame.deliver) := by
  obtain ⟨stream,conn,hact,hc,hpeer,hl,hm⟩ := publishedBy_some hx
  obtain ⟨hopened,hread⟩ := run_held hrun _ conn hc stream _ hl
  obtain ⟨tag,body,hmem,hpub⟩ := hread x.frame (.inr rfl)
  have hslot : holdsSlot s x.publisher x.frame.topic = true := by
    rw [holdsSlot_of_conn hc,hpeer,hm]
  exact ⟨⟨before,a,after,s,x,stream,tag,body,rfl,hrun,hx,hopened,hmem,hpub,rfl,
    publication_topic hpub,hslot,hreach⟩⟩

theorem origin_extend {as : List (Action Id)} (h : Nonempty (Origin limits as d lane f))
    (bs : List (Action Id)) : Nonempty (Origin limits (as++bs) d lane f) := by
  obtain ⟨o⟩ := h
  have hrun : as++bs = o.before++o.carrying::(o.after++bs) :=
    (congrArg (fun as => as++bs) o.run).trans (List.append_assoc _ _ _)
  exact ⟨{ o with after := o.after++bs, run := hrun }⟩

/-- **Only members deliver to members**: in every run, every delivery that is or was in a
connection's queues, or is on one of its bulk streams, was sent by the client of a member
of the topic's room, and was carried out while the connection was a member under another
endpoint that the publication was for. -/
theorem deliveries_from_members_only {as : List (Action Id)}
    (hrun : exec (step limits) (State.init limits) as = some s)
    (h : Holds (s.outs d) lane f) : Nonempty (Origin limits as d lane f) := by
  induction as using List.reverseRecOn generalizing s with
  | nil =>
      cases hrun
      exact absurd h (not_holds_new _ _)
  | append_singleton as a ih =>
      obtain ⟨u,hu,hs⟩ := (exec_snoc_eq_some _).mp hrun
      rcases step_holds (run_invariant hu) hs h with hold | ⟨x,hx,hreach,rfl,rfl⟩
      · exact origin_extend (ih hu hold) [a]
      · exact origin_of_published hu hx hreach

end

theorem deliveries_from_members_only_race : ∃ s f,
    exec (step .default) (State.init .default) (trio++race) = some s ∧
    Holds (s.outs 3) .control f ∧ f.payload = [2] ∧
    Nonempty (Origin .default (trio++race) 3 .control f) := by
  have hrun : (exec (step .default) (State.init .default) (trio++race)).any (fun s =>
      decide (((s.outs 3).lanes 0).sent.map (fun q => q.item.payload) = [[2],[1]])) = true := by
    decide +kernel
  obtain ⟨s,hs,hrun⟩ := (Option.any_eq_true _ _).mp hrun
  have hmem : [2] ∈ ((s.outs 3).lanes 0).sent.map (fun q => q.item.payload) := by
    rw [of_decide_eq_true hrun]
    exact List.mem_cons_self
  obtain ⟨q,hq,hpayload⟩ := List.mem_map.mp hmem
  have hholds : Holds (s.outs 3) .control q.item := .long 0 q hq
  exact ⟨s,q.item,hs,hholds,hpayload,deliveries_from_members_only hs hholds⟩

end KeepTalkingSfu.DeliveryOrigin
