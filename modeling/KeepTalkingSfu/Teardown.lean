import KeepTalkingSfu.SlotOwnership
import KeepTalkingSfu.Admission
import Mathlib.Algebra.BigOperators.Fin

/-!
# The end of a connection

When a session ends its connection leaves its rooms, and with its last slot the last handle
that others have of its queues is gone. Its lane readers are told to stop but may be in the
middle of a frame. Whatever they still do, nothing of it reaches a room or another client;
and whatever the others do, nothing is queued to the connection any more but the ERRORs its
own readers get. So its writers have only so much left to write.
-/
namespace KeepTalkingSfu.Teardown
open ByteTransport WireFormat StreamWriters LaneStream MemberQueues RoomTable TokenBucket Server
  StepCases ServerEffects RoomInvariant TaskSteps InterleavedRuns SlotOwnership Admission

section
variable {Id F : Type} [DecidableEq Id] [EndpointKey Id] [Scalar F]
variable {limits : Limits F} {s s' : State Id F} {c : ℕ} {conn : Conn Id F} {t : Topic} {a : Action Id}

structure Over (limits : Limits F) (c : ℕ) (s : State Id F) : Prop where
  invariant : Invariant limits s
  conn : ∃ conn, s.conns c = some conn ∧ conn.phase = .ended

/-! ### Nobody has a handle -/

omit [EndpointKey Id] [Scalar F] in
theorem Over.topics (h : Over limits c s) : topics s c = ∅ := by
  obtain ⟨conn,hc,hphase⟩ := h.conn
  rw [topics_of_conn hc]
  exact (h.invariant.conns c conn hc).ended hphase

omit [EndpointKey Id] [Scalar F] in
theorem Over.noSlot (h : Over limits c s) {p : Id} {slot : Slot Id} (hslot : s.rooms.slot t p = some slot) :
    slot.handle.connId ≠ c := by
  rintro rfl
  obtain ⟨conn,hc,-,ht⟩ := (h.invariant.slots t p slot hslot).conn
  rw [← topics_of_conn hc,h.topics] at ht
  cases ht

omit [EndpointKey Id] [Scalar F] in
theorem Over.noOwner (h : Over limits c s) (t : Topic) (p : Id) : s.rooms.owner t p ≠ some c := by
  intro howner
  obtain ⟨slot,hslot,hid⟩ := Option.map_eq_some_iff.mp howner
  exact h.noSlot hslot hid

omit [EndpointKey Id] [Scalar F] in
theorem Over.notMember (h : Over limits c s) (t : Topic) (p : Id) : s.rooms.isMember t ⟨p,c⟩ = false := by
  cases hm : s.rooms.isMember t ⟨p,c⟩ with
  | false => rfl
  | true =>
      rw [Rooms.isMember_iff] at hm
      exact absurd hm (h.noOwner t p)

theorem over_step (h : Over limits c s) (hs : step limits s a = some s') : Over limits c s' := by
  obtain ⟨conn,hc,hphase⟩ := h.conn
  refine ⟨step_invariant h.invariant hs,?_⟩
  rcases step_cases h.invariant hs with hpassive | ⟨d,act,dconn,e,rfl,hd,he,rfl⟩
  · exact ⟨conn,hpassive.conns c conn hc,hphase⟩
  · by_cases hcd : c = d
    · subst hcd
      rw [hc] at hd
      cases hd
      exact ⟨e.conn,State.apply_conns_self s c e,perform_ended he hphase⟩
    · exact ⟨conn,by rw [State.apply_conns_of_ne _ _ _ hcd,hc],hphase⟩

/-! ### What its readers still do -/

/-- The steps its tasks still take change no room and send nothing but an ERROR to itself. -/
theorem over_own {act : Act Id} {e : Effect Id F} (h : Over limits c s) (hc : s.conns c = some conn)
    (he : perform limits s.rooms c conn act = some e) :
    e.rooms = s.rooms ∧ (e.sends = [] ∨ ∃ topic reason, e.sends = [error c topic reason]) := by
  have hphase : conn.phase = .ended := by
    obtain ⟨conn',hc',hphase⟩ := h.conn
    rw [hc] at hc'
    cases hc'
    exact hphase
  have hlive : ¬Idle conn := fun hidle => absurd (hidle.live.symm.trans hphase) (by decide)
  cases perform_ran he with
  | malformed err hidle | alreadySubscribed t hidle | subscribeRefused t reason b hidle
  | joined t b hidle | notSubscribed t hidle | unsubscribed t hidle | frameRefused f reason hidle
  | announceChecked t blob hidle | endSession hidle => exact absurd hidle hlive
  | leaveNext t hleaving => exact absurd (hleaving.symm.trans hphase) (by decide)
  | announceDenied | laneMalformed | laneTooLarge | laneNotSubscribed | laneDenied =>
      exact ⟨rfl,.inr ⟨_,_,rfl⟩⟩
  | announceRoom t blob =>
      rcases announceRoom_cases s.rooms c conn t blob with ⟨-,heq⟩ | ⟨hm,-⟩
      · rw [heq]
        exact ⟨rfl,.inl rfl⟩
      · rw [h.notMember] at hm
        cases hm
  | laneRoom lane p sends hl hcarried =>
      refine ⟨rfl,?_⟩
      cases hcarried with
      | notSubscribed => exact .inr ⟨_,_,rfl⟩
      | noSuchRecipient recipient hm | toAll room hm | toOne recipient slot hm =>
          rw [h.notMember] at hm
          cases hm
  | datagramRoom datagram failed =>
      refine ⟨rfl,.inl ?_⟩
      cases hx : splitDatagram datagram with
      | none => simp only [datagramRoom,hx,Option.bind_none,Option.getD_none,List.filter_nil,List.map_nil]
      | some x =>
          simp only [datagramRoom,hx,Option.bind_some,
            Rooms.datagramTargets_other _ _ _ (h.notMember x.1 conn.peer),Option.getD_none,
            List.filter_nil,List.map_nil]
  | _ => exact ⟨rfl,.inl rfl⟩

/-! ### What the others send it -/

omit [EndpointKey Id] [Scalar F] in
theorem Over.notTold (h : Over limits c s) {room : Room Id} {p : Id}
    (hroom : ∀ q, q ≠ p → room.lookup q = s.rooms.slot t q) (msg : Msg Id) :
    sendsTo c (toOthers room p msg) = [] := by
  obtain ⟨conn,hc,-⟩ := h.conn
  rw [sendsTo_others h.invariant.slots hc hroom,if_neg fun hown => h.noOwner t conn.peer hown.2]

omit [DecidableEq Id] [EndpointKey Id] [Scalar F] in
theorem sendsTo_target {m : Send Id} (hm : m.target ≠ c) : sendsTo c [m] = [] := by
  simp [sendsTo,hm]

omit [EndpointKey Id] [Scalar F] in
/-- No datagram is sent to it. -/
theorem Over.notTarget (h : Over limits c s) {handle : Handle Id} {d : ℕ} {ds : List ℕ}
    (hds : s.rooms.datagramTargets t handle = some ds) (hd : d ∈ ds) : d ≠ c := by
  unfold Rooms.datagramTargets at hds
  split at hds
  · cases hds
  · next room hroom =>
    split_ifs at hds
    cases hds
    obtain ⟨e,he,rfl⟩ := List.mem_map.mp hd
    have hslot : s.rooms.slot t e.1 = some e.2 := by
      rw [Rooms.slot_of_room _ _ hroom]
      exact AList.mem_lookup_iff.mpr (List.mem_filter.mp he).1
    exact h.noSlot hslot

/-- Another connection's step sends it nothing. -/
theorem over_others {d : ℕ} {dconn : Conn Id F} {act : Act Id} {e : Effect Id F}
    (h : Over limits c s) (hne : d ≠ c) (he : perform limits s.rooms d dconn act = some e) :
    sendsTo c e.sends = [] := by
  cases perform_ran he with
  | malformed | subscribeRefused | frameRefused | announceDenied | laneMalformed | laneTooLarge
  | laneNotSubscribed | laneDenied => exact sendsTo_target hne
  | joined t b =>
      have hroom : ∀ q, q ≠ dconn.peer →
          (s.rooms.joined t ⟨dconn.peer,d⟩).lookup q = s.rooms.slot t q :=
        fun _ hq => Rooms.lookup_joined_ne s.rooms t ⟨dconn.peer,d⟩ hq
      rw [Rooms.joinSends,sendsTo_cons,broadcast,h.notTold hroom,if_neg hne]
      rfl
  | unsubscribed t | leaveNext t =>
      rcases leaveTopic_cases s.rooms d dconn t with ⟨-,heq⟩ | ⟨-,room,hroom,heq⟩
      · rw [heq]
        rfl
      · rw [heq]
        refine h.notTold (t := t) ?_ _
        intro q hq
        rw [AList.lookup_erase_ne hq,Rooms.slot_of_room _ _ hroom]
  | announceRoom t blob =>
      rcases announceRoom_cases s.rooms d dconn t blob with ⟨-,heq⟩ | ⟨-,room,slot,hroom,-,-,heq⟩
      · rw [heq]
        rfl
      · rw [heq]
        refine h.notTold (t := t) ?_ _
        intro q hq
        rw [AList.lookup_insert_ne hq,Rooms.slot_of_room _ _ hroom]
  | laneRoom lane p sends hl hcarried =>
      cases hcarried with
      | notSubscribed | noSuchRecipient => exact sendsTo_target hne
      | toAll room hm hrec hroom =>
          exact h.notTold (fun q _ => (Rooms.slot_of_room _ _ hroom q).symm) _
      | toOne recipient slot hm hrec hother hslot => exact sendsTo_target (h.noSlot hslot)
  | datagramRoom datagram failed =>
      cases hx : splitDatagram datagram with
      | none =>
          simp only [datagramRoom,hx,Option.bind_none,Option.getD_none,List.filter_nil,List.map_nil,
            sendsTo_nil]
      | some x =>
          simp only [datagramRoom,hx,Option.bind_some]
          cases htargets : s.rooms.datagramTargets x.1 ⟨dconn.peer,d⟩ with
          | none => rfl
          | some ds =>
              refine List.map_eq_nil_iff.mpr (List.filter_eq_nil_iff.mpr ?_)
              intro m hm
              obtain ⟨y,hy,rfl⟩ := List.mem_map.mp hm
              have hne' := h.notTarget htargets (List.mem_filter.mp hy).1
              simpa using hne'
  | _ => rfl

end

/-! ### What is left to write -/

section
variable {Id : Type}

def untaken {A : Type} (l : Log A) : ℕ := l.sent.length-l.taken

/-- The steps the writers have left: one for each item of the session and lane queues and
for each delivery on a stream, two for each bulk delivery that waits for one. -/
def remaining (out : Outbound Id) : ℕ :=
  untaken out.session+∑ i, untaken (out.lanes i)+2*out.bulk.waiting.length+out.onStreams.length

/-- The writer's step gets an item off a queue or a delivery off a stream, or onto one. -/
def writes : Drain → Bool
  | .released _ | .bulkNext | .bulkDone _ => true
  | .hungUp _ | .crowded | .bulkClosed => false

/-- The queues are written and nothing is put on them but ERRORs, `own` at most. -/
structure Winds [EndpointKey Id] (wrote own : ℕ) (out out' : Outbound Id) : Prop where
  session : ∃ errors, out'.session.sent = out.session.sent++errors ∧
    ∀ q ∈ errors, ∃ topic reason, q.item = .frame (errorFrame Id topic reason)
  lanes : ∀ i, (out'.lanes i).sent = (out.lanes i).sent
  bulk : ∀ f, f ∈ out'.bulk.waiting ∨ f ∈ out'.onStreams → f ∈ out.bulk.waiting ∨ f ∈ out.onStreams
  datagrams : out'.datagrams = out.datagrams
  remaining : wrote+remaining out' ≤ remaining out+own

section
variable [EndpointKey Id] {out out' out'' : Outbound Id} {m n k l : ℕ}

theorem Winds.refl (out : Outbound Id) : Winds 0 0 out out :=
  ⟨⟨[],(List.append_nil _).symm,List.forall_mem_nil _⟩,fun _ => rfl,fun _ => id,rfl,(Nat.zero_add _).le⟩

theorem Winds.trans (h : Winds m n out out') (h' : Winds k l out' out'') :
    Winds (m+k) (n+l) out out'' := by
  obtain ⟨xs,hxs,hall⟩ := h.session
  obtain ⟨ys,hys,hall'⟩ := h'.session
  refine ⟨⟨xs++ys,by rw [hys,hxs,List.append_assoc],?_⟩,?_,?_,h'.datagrams.trans h.datagrams,?_⟩
  · intro q hq
    rcases List.mem_append.mp hq with hq | hq
    · exact hall q hq
    · exact hall' q hq
  · intro i
    rw [h'.lanes,h.lanes]
  · intro f hf
    exact h.bulk f (h'.bulk f hf)
  · have := h.remaining
    have := h'.remaining
    omega

omit [EndpointKey Id] in
theorem pushSession_cases (out : Outbound Id) (item : SessionItem Id) (size : ℕ) :
    ∃ b, out.pushSession item size = { out with budget := b } ∨
      out.pushSession item size = { out with budget := b, session := out.session.push ⟨item,size⟩ } := by
  simp only [Outbound.pushSession]
  split
  · split
    · exact ⟨_,.inr rfl⟩
    · exact ⟨_,.inl rfl⟩
  · exact ⟨_,.inl rfl⟩

theorem Winds.weaken (h : Winds m n out out') (hn : n ≤ k) : Winds m k out out' :=
  ⟨h.session,h.lanes,h.bulk,h.datagrams,h.remaining.trans (Nat.add_le_add_left hn _)⟩

theorem winds_error (out : Outbound Id) (topic : Option Topic) (reason : String) (c : ℕ) :
    Winds 0 1 out (out.accept (error c topic reason).msg) := by
  change Winds 0 1 out (out.pushSession (.frame (errorFrame Id topic reason)) _)
  obtain ⟨b,heq | heq⟩ := pushSession_cases out (.frame (errorFrame Id topic reason))
    (errorFrame Id topic reason).length
  · rw [heq]
    refine ⟨⟨[],(List.append_nil _).symm,List.forall_mem_nil _⟩,fun _ => rfl,fun _ => id,rfl,?_⟩
    simp only [remaining]
    omega
  · rw [heq]
    refine ⟨⟨[_],rfl,?_⟩,fun _ => rfl,fun _ => id,rfl,?_⟩
    · intro q hq
      rw [List.mem_singleton.mp hq]
      exact ⟨topic,reason,rfl⟩
    · simp only [remaining,untaken,Log.push,List.length_append,List.length_singleton]
      omega

/-- One long-lived queue got an item off. -/
theorem untaken_update (lanes : Fin 2 → Log Deliver) (i : Fin 2) (l : Log Deliver) :
    (∑ j, untaken (Function.update lanes i l j))+untaken (lanes i) = (∑ j, untaken (lanes j))+untaken l := by
  match i with
  | 0 =>
      simp only [Fin.sum_univ_two,Function.update_self,
        Function.update_of_ne (by decide : (1 : Fin 2) ≠ 0)]
      omega
  | 1 =>
      simp only [Fin.sum_univ_two,Function.update_self,
        Function.update_of_ne (by decide : (0 : Fin 2) ≠ 1)]
      omega

theorem winds_drain {d : Drain} (hd : out.drain d = some out') :
    Winds (if writes d then 1 else 0) 0 out out' := by
  have hsent := drain_spec hd
  have hsession : ∃ errors, out'.session.sent = out.session.sent++errors ∧
      ∀ q ∈ errors, ∃ topic reason, q.item = .frame (errorFrame Id topic reason) :=
    ⟨[],by rw [hsent.2.1,List.append_nil],List.forall_mem_nil _⟩
  cases d with
  | released q =>
      cases q with
      | session =>
          obtain ⟨x,hx,rfl⟩ := Option.map_eq_some_iff.mp hd
          have hlt := (List.getElem?_eq_some_iff.mp hx).1
          refine ⟨hsession,fun _ => rfl,fun _ => id,rfl,?_⟩
          simp only [writes,remaining,untaken,if_true]
          omega
      | lane i =>
          obtain ⟨x,hx,rfl⟩ := Option.map_eq_some_iff.mp hd
          have hlt := (List.getElem?_eq_some_iff.mp hx).1
          have hsum := untaken_update out.lanes i
            ⟨(out.lanes i).sent,(out.lanes i).taken+1,(out.lanes i).isOpen⟩
          refine ⟨hsession,hsent.2.2.1,fun _ => id,rfl,?_⟩
          have hone : untaken ⟨(out.lanes i).sent,(out.lanes i).taken+1,(out.lanes i).isOpen⟩+1 =
              untaken (out.lanes i) := by
            simp only [untaken]
            omega
          simp only [writes,remaining,if_true]
          omega
  | hungUp q =>
      cases q with
      | session =>
          cases hd
          exact ⟨hsession,fun _ => rfl,fun _ => id,rfl,(Nat.zero_add _).le⟩
      | lane i =>
          cases hd
          have hsum := untaken_update out.lanes i ⟨(out.lanes i).sent,(out.lanes i).taken,false⟩
          refine ⟨hsession,hsent.2.2.1,fun _ => id,rfl,?_⟩
          have hsame : untaken ⟨(out.lanes i).sent,(out.lanes i).taken,false⟩ = untaken (out.lanes i) := rfl
          simp only [writes,remaining,Bool.false_eq_true,if_false]
          omega
  | crowded | bulkClosed =>
      cases hd
      exact ⟨hsession,fun _ => rfl,fun _ => id,rfl,(Nat.zero_add _).le⟩
  | bulkNext =>
      obtain ⟨⟨frame,bulk⟩,hnext,rfl⟩ := Option.map_eq_some_iff.mp hd
      unfold BulkState.next at hnext
      cases hw : out.bulk.waiting with
      | nil =>
          rw [hw] at hnext
          cases hnext
      | cons first rest =>
          rw [hw] at hnext
          cases hnext
          refine ⟨hsession,fun _ => rfl,?_,rfl,?_⟩
          · intro f hf
            rw [hw]
            rcases hf with hf | hf
            · exact .inl (List.mem_cons_of_mem _ hf)
            · rcases List.mem_append.mp hf with hf | hf
              · exact .inr hf
              · exact .inl (List.mem_singleton.mp hf ▸ List.mem_cons_self)
          · simp only [writes,remaining,if_true,hw,List.length_cons,List.length_append,List.length_nil]
            omega
  | bulkDone i =>
      obtain ⟨frame,hi,rfl⟩ := Option.map_eq_some_iff.mp hd
      have hlt := (List.getElem?_eq_some_iff.mp hi).1
      refine ⟨hsession,fun _ => rfl,?_,rfl,?_⟩
      · intro f hf
        rcases hf with hf | hf
        · exact .inl hf
        · exact .inr (List.mem_of_mem_eraseIdx hf)
      · simp only [writes,remaining,if_true,BulkState.done,List.length_eraseIdx_of_lt hlt]
        omega

end

end

/-! ### Every run -/

section
variable {Id F : Type}

/-- The steps of the connection's writers. -/
def writesOf (c : ℕ) : Action Id → ℕ
  | .drain d w => if d = c ∧ writes w then 1 else 0
  | _ => 0

/-- The steps of the connection's readers. -/
def ownSteps (c : ℕ) : Action Id → ℕ
  | .act d _ => if d = c then 1 else 0
  | _ => 0

variable [DecidableEq Id] [EndpointKey Id] [Scalar F]
variable {limits : Limits F} {s s' : State Id F} {c : ℕ} {a : Action Id}

theorem over_winds (h : Over limits c s) (hs : step limits s a = some s') :
    Winds (writesOf c a) (ownSteps c a) (s.outs c) (s'.outs c) := by
  obtain ⟨conn,hc,-⟩ := h.conn
  cases a with
  | connect peer now =>
      cases hs
      have hne : c ≠ s.next := by
        rintro rfl
        rw [h.invariant.fresh _ le_rfl] at hc
        cases hc
      rw [State.connect_outs_of_ne _ _ _ _ hne]
      exact .refl _
  | act d act =>
      obtain ⟨dconn,e,hd,he,rfl⟩ := step_act hs
      rw [State.apply_outs]
      by_cases hdc : d = c
      · subst hdc
        simp only [writesOf,ownSteps,if_true]
        rcases (over_own h hd he).2 with hnone | ⟨topic,reason,hone⟩
        · rw [hnone]
          exact (Winds.refl _).weaken (Nat.zero_le 1)
        · rw [hone]
          have hself : sendsTo d [(error d topic reason : Send Id)] = [(error d topic reason : Send Id).msg] := by
            simp [sendsTo,error]
          rw [hself]
          exact winds_error _ topic reason d
      · rw [over_others h hdc he]
        simp only [writesOf,ownSteps,if_neg hdc]
        exact .refl _
  | drain d w =>
      obtain ⟨out,hout,rfl⟩ := step_drain hs
      by_cases hdc : d = c
      · subst hdc
        simp only [writesOf,ownSteps,true_and,Function.update_self]
        exact winds_drain hout
      · simp only [writesOf,ownSteps,hdc,false_and,if_false,Function.update_of_ne (Ne.symm hdc)]
        exact .refl _
  | rehash topic room =>
      obtain ⟨old,-,-,rfl⟩ := step_rehash hs
      exact .refl _

/-- A step of the connection's tasks that nobody else notices. -/
def Unnoticed (limits : Limits F) (c : ℕ) (s : State Id F) (a : Action Id) : Prop :=
  ∀ act s', a = .act c act → step limits s a = some s' →
    s'.rooms = s.rooms ∧ ∀ d, d ≠ c → s'.conns d = s.conns d ∧ s'.outs d = s.outs d

theorem over_unnoticed (h : Over limits c s) (a : Action Id) : Unnoticed limits c s a := by
  rintro act s' rfl hs
  obtain ⟨conn,e,hc,he,rfl⟩ := step_act hs
  obtain ⟨hrooms,hsends⟩ := over_own h hc he
  refine ⟨hrooms,?_⟩
  intro d hd
  refine ⟨State.apply_conns_of_ne _ _ _ hd,?_⟩
  rw [State.apply_outs]
  rcases hsends with hnone | ⟨topic,reason,hone⟩
  · rw [hnone]
    rfl
  · rw [hone,sendsTo_target (Ne.symm hd)]
    rfl

theorem over_run {as : List (Action Id)} (h : Over limits c s)
    (hrun : exec (step limits) s as = some s') :
    Over limits c s' ∧ Along (step limits) (Unnoticed limits c) s as ∧
      Winds (as.map (writesOf c)).sum (as.map (ownSteps c)).sum (s.outs c) (s'.outs c) := by
  induction as generalizing s with
  | nil =>
      cases hrun
      exact ⟨h,trivial,.refl _⟩
  | cons b as ih =>
      obtain ⟨u,hb,hrest⟩ := (exec_cons_eq_some _).mp hrun
      obtain ⟨hend,halong,hwinds⟩ := ih (over_step h hb) hrest
      refine ⟨hend,⟨over_unnoticed h b,?_⟩,?_⟩
      · intro u' hu'
        rw [hb] at hu'
        cases hu'
        exact halong
      · rw [List.map_cons,List.map_cons,List.sum_cons,List.sum_cons]
        exact (over_winds h hb).trans hwinds

/-- **An ended connection is gone**: in every run from a state in which a connection has
ended, no slot is its own again; the steps its readers still take change no room and no
other connection and send nothing to others; and nothing is put on its queues but an ERROR
for each of those steps, so that its writers have at most so many steps to take. -/
theorem ended_connection_gone {pre post : List (Action Id)}
    (hpre : exec (step limits) (State.init limits) pre = some s) (hended : hasEnded s c = true)
    (hpost : exec (step limits) s post = some s') :
    (∀ t p, s'.rooms.owner t p ≠ some c) ∧ Along (step limits) (Unnoticed limits c) s post ∧
    Winds (post.map (writesOf c)).sum (post.map (ownSteps c)).sum (s.outs c) (s'.outs c) := by
  have hover : Over limits c s := by
    refine ⟨run_invariant hpre,?_⟩
    obtain ⟨conn,hc,hphase⟩ := (Option.any_eq_true _ _).mp hended
    exact ⟨conn,hc,of_decide_eq_true hphase⟩
  obtain ⟨hend,halong,hwinds⟩ := over_run hover hpost
  exact ⟨hend.noOwner,halong,hwinds⟩

end

/-- A member with a lane stream leaves while another one stays. -/
def departure : List (Action RawId) :=
  [.connect .base 0,.connect .identity 0,sends 1 (.subscribe (topicOf 7)) 0,
    sends 2 (.subscribe (topicOf 7)) 0,.act 1 (.openLane 0 .control),.act 1 .endSession,
    .act 1 (.leaveNext (topicOf 7)),.act 1 .finish]

/-- Its lane reader has one more frame; its session writer writes what is queued. -/
def aftermath : List (Action RawId) :=
  [.act 1 (publishes 0 (.publish (topicOf 7) [1])),.drain 1 (.released .session),
    .drain 1 (.released .session),.drain 1 (.released .session)]

theorem ended_connection_gone_aftermath : ∃ s s' : State RawId Level,
    exec (step .default) (State.init .default) departure = some s ∧
    exec (step .default) s aftermath = some s' ∧ remaining (s.outs 1) = 2 ∧
    3+remaining (s'.outs 1) ≤ 2+1 ∧ ∀ t p, s'.rooms.owner t p ≠ some 1 := by
  have hrun : (exec (step .default) (State.init .default) departure).any (fun s : State RawId Level =>
      (exec (step .default) s aftermath).any fun _ =>
        decide (hasEnded s 1 = true ∧ remaining (s.outs 1) = 2)) = true := by
    decide +kernel
  obtain ⟨s,hs,hrun⟩ := (Option.any_eq_true _ _).mp hrun
  obtain ⟨s',hs',hrun⟩ := (Option.any_eq_true _ _).mp hrun
  obtain ⟨hended,hleft⟩ := of_decide_eq_true hrun
  obtain ⟨hslots,-,hwinds⟩ := ended_connection_gone hs hended hs'
  have hbound := hwinds.remaining
  rw [hleft] at hbound
  exact ⟨s,s',hs,hs',hleft,hbound,hslots⟩

end KeepTalkingSfu.Teardown
