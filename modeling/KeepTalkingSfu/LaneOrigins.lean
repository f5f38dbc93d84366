import KeepTalkingSfu.DeliveryOrigin
import KeepTalkingSfu.LaneCuts

/-!
# What a run has for a connection

A run has, for a connection and a long-lived lane, the publications that are carried out
while it is there and that reach it, each with the stream it was read from. Its queue has
the first of them, and all unless it refused one; and of each stream they are some of the
frames that were read, in the order they were: a reader has at most one in hand and takes
up the next when it is done with it.
-/
namespace KeepTalkingSfu.LaneOrigins
open ByteTransport WireFormat StreamWriters LaneStream MemberQueues RoomTable TokenBucket Server
  StepCases ServerEffects RoomInvariant TaskSteps InterleavedRuns FanOut LaneCuts DeliveryOrder
  DeliveryOrigin

/-- A publication that was carried out, with the stream it was read from. -/
structure Forwarded (Id : Type) where
  stream : ℕ
  published : Published Id

section
variable {Id F : Type} [DecidableEq Id]

def forwardedBy (s : State Id F) (a : Action Id) : Option (Forwarded Id) :=
  match a with
  | .act _ (.laneRoom stream) => (publishedBy s a).map fun x => ⟨stream,x⟩
  | _ => none

/-- What a step has for a connection on a long-lived lane. -/
def dueBy (i : Fin 2) (d : ℕ) (s : State Id F) (a : Action Id) : List (Forwarded Id) :=
  (forwardedBy s a).toList.filter fun x =>
    decide (x.published.lane = longLane i) && x.published.reaches s d

theorem forwardedBy_some {s : State Id F} {a : Action Id} {x : Forwarded Id}
    (h : forwardedBy s a = some x) :
    a = .act x.published.publisher (.laneRoom x.stream) ∧ publishedBy s a = some x.published := by
  unfold forwardedBy at h
  split at h
  · obtain ⟨y,hy,rfl⟩ := Option.map_eq_some_iff.mp h
    obtain ⟨stream,conn,hact,-⟩ := publishedBy_some hy
    cases hact
    exact ⟨rfl,hy⟩
  · cases h

theorem forwardedBy_of_published {s : State Id F} {a : Action Id} {x : Published Id}
    (h : publishedBy s a = some x) : ∃ stream, forwardedBy s a = some ⟨stream,x⟩ := by
  obtain ⟨stream,conn,rfl,-⟩ := publishedBy_some h
  refine ⟨stream,?_⟩
  rw [forwardedBy,h]
  rfl

variable [EndpointKey Id] [Scalar F] {limits : Limits F} {s s' : State Id F} {a : Action Id}
  {c d stream : ℕ} {conn dconn : Conn Id F} {i : Fin 2} {as : List (Action Id)}

/-- Everything a run has for a connection on a long-lived lane. -/
def due (limits : Limits F) (i : Fin 2) (d : ℕ) (as : List (Action Id)) : List (Forwarded Id) :=
  observed (step limits) (dueBy i d) (State.init limits) as

def Forwarded.queued (x : Forwarded Id) : Queued Deliver := x.published.queued

/-! ### What is queued -/

/-- A step adds what it has for the connection, or nothing, and then never again. -/
theorem laneGain_dueBy (hi : Invariant limits s) (hs : step limits s a = some s')
    (hd : s.conns d = some dconn) :
    laneGain i d s a = (dueBy i d s a).map Forwarded.queued ∨
      laneGain i d s a = [] ∧ Refuses (s'.outs d) i := by
  cases hx : publishedBy s a with
  | none =>
      have hnone : forwardedBy s a = none := by
        cases hf : forwardedBy s a with
        | none => rfl
        | some y =>
            rw [(forwardedBy_some hf).2] at hx
            cases hx
      left
      rw [laneGain_none hx,dueBy,hnone]
      rfl
  | some x =>
      obtain ⟨stream,hf⟩ := forwardedBy_of_published hx
      rw [laneGain_some hx,dueBy,hf]
      by_cases hlane : x.lane = longLane i ∧ x.reaches s d = true
      · by_cases hfits : FitsLane (s.outs d) i x.frame.deliver.len
        · left
          rw [if_pos ⟨hlane.1,hlane.2,hfits⟩]
          simp [hlane.1,hlane.2,Forwarded.queued]
        · right
          rw [if_neg fun h => hfits h.2.2]
          exact ⟨rfl,(step_lane hi hs hd i).2 x hx hlane.1 hlane.2 hfits⟩
      · left
        rw [if_neg fun h => hlane ⟨h.1,h.2.1⟩]
        have hnone : (decide (x.lane = longLane i) && x.reaches s d) = false := by
          rw [Bool.eq_false_iff]
          intro h
          simp only [Bool.and_eq_true,decide_eq_true_eq] at h
          exact hlane h
        simp [hnone]

omit [EndpointKey Id] [Scalar F] in
theorem dueBy_absent (h : s.conns d = none) : dueBy i d s a = [] := by
  rw [dueBy,List.filter_eq_nil_iff]
  intro x hx
  simp [Published.reaches,h]

theorem step_new (hs : step limits s a = some s') (hold : s.conns c = none)
    (hnew : s'.conns c = some conn) :
    ∃ peer now, c = s.next ∧ s' = s.connect limits peer now := by
  cases a with
  | connect peer now =>
      cases hs
      refine ⟨peer,now,?_,rfl⟩
      by_contra hne
      rw [State.connect_conns_of_ne _ _ _ _ hne,hold] at hnew
      cases hnew
  | act d act =>
      obtain ⟨dconn,e,hd,-,rfl⟩ := step_act hs
      have hne : c ≠ d := by
        rintro rfl
        rw [hold] at hd
        cases hd
      rw [State.apply_conns_of_ne _ _ _ hne,hold] at hnew
      cases hnew
  | drain d w =>
      obtain ⟨out,-,rfl⟩ := step_drain hs
      rw [hold] at hnew
      cases hnew
  | rehash topic room =>
      obtain ⟨old,-,-,rfl⟩ := step_rehash hs
      rw [hold] at hnew
      cases hnew

/-- What is on a connection's queue of a lane is the first of what the run had for it, and
all of it unless the queue refused something. -/
theorem queued_due (hi : Invariant limits s) (hrun : exec (step limits) s as = some s')
    (hnone : s.conns d = none) (hd : s'.conns d = some dconn) :
    ((s'.outs d).lanes i).sent <+:
        (observed (step limits) (dueBy i d) s as).map Forwarded.queued ∧
      (¬Refuses (s'.outs d) i → ((s'.outs d).lanes i).sent =
        (observed (step limits) (dueBy i d) s as).map Forwarded.queued) := by
  induction as generalizing s with
  | nil =>
      cases hrun
      rw [hnone] at hd
      cases hd
  | cons a as ih =>
      obtain ⟨s₁,ha,hrun⟩ := (exec_cons_eq_some _).mp hrun
      have hi₁ := step_invariant hi ha
      rw [observed_cons _ _ ha,dueBy_absent hnone,List.nil_append]
      cases hd₁ : s₁.conns d with
      | none => exact ih hi₁ hrun hd₁
      | some dconn₁ =>
          have hnew : ((s₁.outs d).lanes i).sent = [] := by
            obtain ⟨peer,now,rfl,rfl⟩ := step_new ha hnone hd₁
            simp [State.connect,Outbound.new,Log.empty]
          have hstays : ∀ (u : State Id F) b u', Invariant limits u → (∃ conn, u.conns d = some conn) →
              step limits u b = some u' → ∃ conn, u'.conns d = some conn := by
            rintro u b u' hu ⟨conn,hc⟩ hb
            obtain ⟨conn',hc',-⟩ := step_kept hu hb hc
            exact ⟨conn',hc'⟩
          have hgains : ∀ (u : State Id F) b u', Invariant limits u → (∃ conn, u.conns d = some conn) → True →
              step limits u b = some u' →
              (laneGain i d u b).filter (fun _ => true) = (dueBy i d u b).map Forwarded.queued ∨
                (laneGain i d u b).filter (fun _ => true) = [] ∧ Refuses (u'.outs d) i := by
            rintro u b u' hu ⟨conn,hc⟩ - hb
            simp only [List.filter_true]
            exact laneGain_dueBy hu hb hc
          obtain ⟨gain,hsent,hgain⟩ := gained_run (fun _ => true)
            (fun s a => (dueBy i d s a).map Forwarded.queued) hstays hgains hi₁ ⟨dconn₁,hd₁⟩
            (along_of_forall _ (fun _ _ _ => trivial) _) hrun hd₁
          rw [hnew,List.nil_append] at hsent
          rw [List.filter_true,observed_part _ rfl (fun _ _ => List.map_append)] at hgain
          rw [hsent]
          exact hgain

/-! ### What is read from a stream -/

/-- The frame a step reads from a stream. -/
def rawOn (c stream : ℕ) : Action Id → Option (UInt8 × Bytes)
  | .act c' (.laneFrame stream' tag body) =>
      if c' = c ∧ stream' = stream then some (tag,body) else none
  | _ => none

/-- The publication in it. -/
def readBy (c stream : ℕ) (a : Action Id) : List (Publish Id) :=
  ((rawOn c stream a).bind fun f => publication f.1 f.2).toList

/-- The frame a lane reader has in hand. -/
def taskInHand : LaneTask Id → List (Publish Id)
  | .checked p | .granted p => [p]
  | .reading | .over => []

def inHand (c stream : ℕ) (s : State Id F) : List (Publish Id) :=
  ((s.conns c).bind fun conn => conn.lanes stream).toList.flatMap fun l => taskInHand l.task

/-- Whether the publication was read from the stream. -/
def Forwarded.isFrom (c stream : ℕ) (x : Forwarded Id) : Bool :=
  decide (x.published.publisher = c ∧ x.stream = stream)

/-- The publication of a stream that a step carries out. -/
def carriedFrom (c stream : ℕ) (s : State Id F) (a : Action Id) : List (Publish Id) :=
  ((forwardedBy s a).toList.filter (Forwarded.isFrom c stream)).map fun x => x.published.frame

omit [DecidableEq Id] [EndpointKey Id] [Scalar F] in
theorem inHand_of_lane {l : LaneReader Id} (hc : s.conns c = some conn)
    (hl : conn.lanes stream = some l) : inHand c stream s = taskInHand l.task := by
  simp [inHand,hc,hl]

omit [DecidableEq Id] [EndpointKey Id] [Scalar F] in
theorem inHand_of_none (hc : s.conns c = some conn) (hl : conn.lanes stream = none) :
    inHand c stream s = [] := by
  simp [inHand,hc,hl]

omit [DecidableEq Id] [EndpointKey Id] [Scalar F] in
theorem inHand_absent (hc : s.conns c = none) : inHand c stream s = [] := by
  simp [inHand,hc]

theorem inHand_kept (hi : Invariant limits s) (hs : step limits s a = some s')
    (hown : ofTask c (.lane stream) a = false) : inHand c stream s' = inHand c stream s := by
  cases hc : s.conns c with
  | none =>
      rw [inHand_absent hc]
      cases hc' : s'.conns c with
      | none => exact inHand_absent hc'
      | some conn' =>
          obtain ⟨peer,now,rfl,rfl⟩ := step_new hs hc hc'
          rw [State.connect_conns_self] at hc'
          cases hc'
          exact inHand_of_none (State.connect_conns_self limits s peer now) rfl
  | some conn =>
      obtain ⟨conn',hc',-,hkept⟩ := step_kept hi hs hc
      obtain ⟨τ',hne,hkept⟩ := hkept _ hown
      rcases hkept.lanes stream hne with heq | ⟨hnone,lane,hnew⟩
      · simp only [inHand,hc,hc',Option.bind_some,heq]
      · rw [inHand_of_none hc hnone,inHand_of_lane hc' hnew]
        rfl

omit [EndpointKey Id] [Scalar F] in
theorem carriedFrom_other (hown : ofTask c (.lane stream) a = false) :
    carriedFrom c stream s a = [] := by
  rw [carriedFrom,List.map_eq_nil_iff,List.filter_eq_nil_iff]
  intro x hx hfrom
  obtain ⟨rfl,-⟩ := forwardedBy_some (Option.mem_toList.mp hx)
  obtain ⟨rfl,rfl⟩ := of_decide_eq_true hfrom
  simp [ofTask,task] at hown

omit [DecidableEq Id] [EndpointKey Id] [Scalar F] in
theorem taskInHand_next (l : LaneReader Id) : taskInHand l.next.task = [] := by
  unfold LaneReader.next
  split_ifs <;> rfl

omit [EndpointKey Id] [Scalar F] in
/-- What is carried out is what the reader had in hand. -/
theorem carriedFrom_inHand (c stream : ℕ) (s : State Id F) (a : Action Id) :
    (carriedFrom c stream s a).Sublist (inHand c stream s) := by
  unfold carriedFrom
  cases hf : forwardedBy s a with
  | none => exact List.nil_sublist _
  | some x =>
      cases hfrom : x.isFrom c stream with
      | false =>
          rw [Option.toList_some,List.filter_cons_of_neg (by simp [hfrom])]
          exact List.nil_sublist _
      | true =>
          obtain ⟨hact,hpub⟩ := forwardedBy_some hf
          obtain ⟨rfl,rfl⟩ := of_decide_eq_true hfrom
          obtain ⟨stream,conn,hact',hc,-,hl,-⟩ := publishedBy_some hpub
          rw [hact] at hact'
          cases hact'
          rw [inHand_of_lane hc hl,Option.toList_some,List.filter_cons_of_pos hfrom]
          exact List.Sublist.refl _

/-- A step of a lane reader lets go of its frame, or carries it out, or takes up the one
it reads. -/
theorem carriedFrom_step (hi : Invariant limits s) (hs : step limits s a = some s') :
    (carriedFrom c stream s a++inHand c stream s').Sublist
      (inHand c stream s++readBy c stream a) := by
  cases hown : ofTask c (.lane stream) a with
  | false =>
      rw [carriedFrom_other hown,inHand_kept hi hs hown]
      exact List.sublist_append_left _ _
  | true =>
      cases hc : s.conns c with
      | none =>
          cases a with
          | act d act =>
              obtain ⟨rfl,-⟩ := of_decide_eq_true hown
              obtain ⟨conn,e,hc',-⟩ := step_act hs
              rw [hc] at hc'
              cases hc'
          | _ => cases hown
      | some conn =>
          obtain ⟨act,e,rfl,hτ,he,rfl⟩ := own_step hown hs hc
          have hc' := State.apply_conns_self s c e
          have hcarried := carriedFrom_inHand c stream s (.act c act)
          cases perform_ran he with
          | laneMalformed lane err hl | laneTooLarge lane f topicBytes hl
          | laneNotSubscribed lane p hl | laneDenied lane p hl | laneRoom lane p sends hl =>
              cases hτ
              rw [inHand_of_lane hc' (setLane_self _ _ _),taskInHand_next,List.append_nil]
              exact hcarried.trans (List.sublist_append_left _ _)
          | laneStopped lane hl =>
              cases hτ
              rw [inHand_of_lane hc' (setLane_self _ _ _)]
              exact List.nil_sublist _
          | laneChecked lane p hl hpub =>
              cases hτ
              rw [inHand_of_lane hc' (setLane_self _ _ _),inHand_of_lane hc hl]
              simp [carriedFrom,forwardedBy,taskInHand,readBy,rawOn,hpub]
          | laneGranted lane p hl =>
              cases hτ
              rw [inHand_of_lane hc' (setLane_self _ _ _),inHand_of_lane hc hl]
              exact List.sublist_append_left _ _
          | _ => cases hτ

/-- The publications of a stream that a run carries out are among those that were read from
it, in their order. -/
theorem carried_read (h : exec (step limits) (State.init limits) as = some s) :
    (observed (step limits) (carriedFrom c stream) (State.init limits) as).Sublist
      ((as.filterMap (rawOn c stream)).filterMap fun f => publication f.1 f.2) := by
  have hflow := observed_sublist (step limits) (inHand c stream) (fun _ a => readBy c stream a)
    (carriedFrom c stream) (fun _ _ _ hu hb => step_invariant hu hb)
    (fun _ _ _ hu hb => carriedFrom_step hu hb) (init_invariant limits) h
  have hnone : inHand c stream (State.init limits : State Id F) = [] := inHand_absent rfl
  have hreads : (as.filterMap (rawOn c stream)).filterMap (fun f => publication f.1 f.2) =
      as.flatMap (readBy c stream) := by
    rw [List.filterMap_filterMap,List.filterMap_eq_flatMap_toList]
    rfl
  rw [hnone,List.nil_append,observed_labels _ _ h] at hflow
  rw [hreads]
  exact (List.sublist_append_left _ _).trans hflow

/-- What a run has for a connection from a stream is among what was read from the stream. -/
theorem due_read (h : exec (step limits) (State.init limits) as = some s) :
    (((due limits i d as).filter (Forwarded.isFrom c stream)).map
        fun x => x.published.frame).Sublist
      ((as.filterMap (rawOn c stream)).filterMap fun f => publication f.1 f.2) := by
  have hpart := observed_part (step limits) (f := fun xs : List (Forwarded Id) =>
    (xs.filter (Forwarded.isFrom c stream)).map fun x => x.published.frame) rfl
    (fun _ _ => by simp) (dueBy i d) (State.init limits) as
  rw [due,← hpart]
  refine (observed_mono _ ?_ _ _).trans (carried_read h)
  intro u b
  exact (List.filter_sublist.filter _).map _

end

/-! ### What is carried out was read -/

section
variable {Id F : Type} [DecidableEq Id] [EndpointKey Id] [Scalar F] {limits : Limits F} {d : ℕ}
  {i : Fin 2} {as : List (Action Id)}

/-- A publication has a DELIVER of its topic and of a payload within the limit. -/
def Sound (p : Publish Id) : Prop :=
  p.deliver = delivering (p.topic,p.deliver.payload) ∧ p.deliver.payload.length ≤ maxPublishLen

omit [DecidableEq Id] in
theorem publication_sound {tag : UInt8} {body : Bytes} {p : Publish Id}
    (h : publication tag body = some p) : Sound p := by
  have htopic := publication_topic h
  unfold publication at h
  split at h
  · cases h
  · obtain ⟨⟨topic,recipient,payload⟩,-,h⟩ := Option.bind_eq_some_iff.mp h
    simp only at h
    split_ifs at h with hlen
    cases h
    refine ⟨?_,hlen⟩
    rw [delivering,← htopic]
    rfl

/-- Where what a run has for a connection comes from: a stream that was opened on the lane. -/
structure Sourced (i : Fin 2) (as : List (Action Id)) (x : Forwarded Id) : Prop where
  opened : .act x.published.publisher (.openLane x.stream (longLane i)) ∈ as
  lane : x.published.lane = longLane i
  sound : Sound x.published.frame

theorem due_sourced {x : Forwarded Id} (h : x ∈ due limits i d as) : Sourced i as x := by
  obtain ⟨y,hy,hx⟩ := List.mem_flatMap.mp h
  obtain ⟨hx,hcond⟩ := List.mem_filter.mp hx
  simp only [Bool.and_eq_true,decide_eq_true_eq] at hcond
  have hheld : AllHeld (Opened as) (fun _ _ p => Sound p) y.before := by
    refine taken_invariant (step limits) ?_ ?_ hy
    · intro u a ha u' hu hs
      refine step_held ⟨?_,?_⟩ hs hu
      · rintro c stream lane rfl
        exact ha
      · intro c stream tag body p _ hpub
        exact publication_sound hpub
    · rintro c conn ⟨⟩
  obtain ⟨hact,hpub⟩ := forwardedBy_some (Option.mem_toList.mp hx)
  obtain ⟨stream,conn,hact',hc,-,hl,-⟩ := publishedBy_some hpub
  rw [hact] at hact'
  cases hact'
  obtain ⟨hopened,hsound⟩ := hheld _ conn hc _ _ hl
  rw [hcond.1] at hopened
  exact ⟨hopened,hcond.1,hsound _ (.inr rfl)⟩

end

end KeepTalkingSfu.LaneOrigins
