import KeepTalkingSfu.Admission
import KeepTalkingSfu.BulkQueue
import KeepTalkingSfu.DeliveryOrder
import Mathlib.Algebra.BigOperators.Fin
import Mathlib.Algebra.Order.BigOperators.Group.Finset
import Mathlib.Tactic.Abel

/-!
# What clients can make the server hold

Connections are limited, topics per connection are, and so are the bytes queued towards
each connection, except that an empty queue takes any one item. Together the limits bound
what all clients can make the server hold: members in its rooms, and bytes in its queues.
-/
namespace KeepTalkingSfu.ServerLoad
open ByteTransport WireFormat StreamWriters LaneStream OutboxBudget MemberQueues RoomTable TokenBucket Server StepCases
  ServerEffects RoomInvariant InterleavedRuns DeliveryOrder Admission

/-! ### A budget that takes any one item when it is empty -/

/-- The counter is the sum of the sizes, and within the limit or a single size. -/
structure Within (limit queued : ℕ) (sizes : Multiset ℕ) : Prop where
  sum : queued = sizes.sum
  within : queued ≤ limit ∨ queued ∈ sizes

section
variable {limit queued n : ℕ} {sizes : Multiset ℕ}

theorem Within.add (h : Within limit queued sizes) (hfits : queued = 0 ∨ queued+n ≤ limit) :
    Within limit (queued+n) (n ::ₘ sizes) := by
  refine ⟨by rw [Multiset.sum_cons,h.sum,Nat.add_comm],?_⟩
  rcases hfits with hzero | hle
  · rw [hzero,Nat.zero_add]
    exact .inr (Multiset.mem_cons_self n sizes)
  · exact .inl hle

theorem Within.remove (h : Within limit queued (n ::ₘ sizes)) :
    n ≤ queued ∧ Within limit (queued-n) sizes := by
  have hsum := h.sum
  rw [Multiset.sum_cons] at hsum
  refine ⟨by omega,by omega,?_⟩
  rcases h.within with hle | hmem
  · exact .inl (by omega)
  · rcases Multiset.mem_cons.mp hmem with heq | hmem
    · exact .inl (by omega)
    · have hle := Multiset.single_le_sum (fun _ _ => Nat.zero_le _) _ hmem
      have hzero : n = 0 := by omega
      rw [hzero,Nat.sub_zero]
      exact .inr hmem

theorem Within.le (h : Within limit queued sizes) {big : ℕ} (hbig : ∀ n ∈ sizes, n ≤ big) :
    queued ≤ max limit big := by
  rcases h.within with hle | hmem
  · exact hle.trans (le_max_left _ _)
  · exact (hbig _ hmem).trans (le_max_right _ _)

end

/-! ### One client's queues -/

section
variable {Id : Type}

/-- The sizes of what has been queued and not written. -/
def left {A : Type} (l : Log A) : Multiset ℕ := ((l.sent.drop l.taken).map Queued.size : List ℕ)

theorem left_push {A : Type} {l : Log A} (h : l.taken ≤ l.sent.length) (x : Queued A) :
    left (l.push x) = x.size ::ₘ left l := by
  simp only [left,Log.push]
  rw [List.drop_append_of_le_length h,List.map_append,List.map_singleton,← Multiset.coe_add,
    Multiset.coe_singleton,Multiset.add_comm,Multiset.singleton_add]

theorem left_taken {A : Type} {l : Log A} {x : Queued A} (h : l.sent[l.taken]? = some x) :
    left l = x.size ::ₘ left { l with taken := l.taken+1 } := by
  obtain ⟨hlt,hx⟩ := List.getElem?_eq_some_iff.mp h
  simp only [left]
  rw [List.drop_eq_getElem_cons hlt,hx,List.map_cons]
  rfl

/-- The sizes of all items queued to a client and not written. -/
def sizes (out : Outbound Id) : Multiset ℕ := left out.session+∑ i, left (out.lanes i)

structure OutboxKept (limit : ℕ) (out : Outbound Id) : Prop where
  cap : out.budget.limit = limit
  session : out.session.taken ≤ out.session.sent.length
  lanes : ∀ i, (out.lanes i).taken ≤ (out.lanes i).sent.length
  queued : Within limit out.budget.queued (sizes out)

theorem outbox_new (outboxBytes bulkOutboxBytes : ℕ) :
    OutboxKept outboxBytes (Outbound.new Id outboxBytes bulkOutboxBytes) where
  cap := rfl
  session := Nat.le_refl _
  lanes _ := Nat.le_refl _
  queued := ⟨rfl,.inl (Nat.zero_le _)⟩

theorem release_counts (b : Budget) {n size : ℕ} (h : b.queued = n+size) :
    (b.release size).queued = n := by
  rw [Budget.release,wrappingSub]
  simp only
  rw [if_pos (by omega)]
  omega

/-- A reservation counts what fits. -/
theorem reserve_taken {b : Budget} {size : ℕ} (h : (reserve b size).1 = true) :
    (reserve b size).2.queued = b.queued+size ∧ (reserve b size).2.limit = b.limit ∧
      (b.queued = 0 ∨ b.queued+size ≤ b.limit) := by
  have hb := (reserve_granted h).1
  have hfits := (reserve_eq hb size).mp h
  have heq : reserve b size = (true,(b.fetchAdd size).2) := by
    simp only [reserve,hb,Bool.false_eq_true,if_false] at h ⊢
    split_ifs at h with hover
    exact if_neg hover
  rw [heq]
  exact ⟨rfl,rfl,hfits⟩

/-- What does not fit is not counted. -/
theorem reserve_undone {b : Budget} {size : ℕ} (h : (reserve b size).1 = false) :
    (reserve b size).2.queued = b.queued ∧ (reserve b size).2.limit = b.limit := by
  unfold reserve at h ⊢
  split_ifs at h ⊢ with hb
  · exact ⟨rfl,rfl⟩
  · simp only at h ⊢
    split_ifs at h ⊢ with hover
    exact ⟨release_counts (b.fetchAdd size).2 rfl,rfl⟩

section
variable {limit : ℕ} {out out' : Outbound Id}

theorem pushSession_kept (h : OutboxKept limit out) (item : SessionItem Id) (size : ℕ) :
    OutboxKept limit (out.pushSession item size) := by
  unfold Outbound.pushSession
  cases hr : (reserve out.budget size).1 with
  | false =>
      obtain ⟨hqueued,hlimit⟩ := reserve_undone hr
      simp only [hr,Bool.false_eq_true,if_false]
      exact ⟨hlimit.trans h.cap,h.session,h.lanes,hqueued ▸ h.queued⟩
  | true =>
      obtain ⟨hqueued,hlimit,hfits⟩ := reserve_taken hr
      rw [h.cap] at hlimit hfits
      simp only [hr,if_true]
      split_ifs
      · refine ⟨hlimit,?_,h.lanes,?_⟩
        · exact h.session.trans (by simp [Log.push])
        · have hsizes : sizes { out with
              budget := (reserve out.budget size).2
              session := out.session.push ⟨item,size⟩ } = size ::ₘ sizes out := by
            simp only [sizes,left_push h.session,Multiset.cons_add]
          rw [hsizes]
          exact hqueued ▸ h.queued.add hfits
      · exact ⟨hlimit,h.session,h.lanes,release_counts _ hqueued ▸ h.queued⟩

/-- One long-lived queue replaced. -/
theorem sizes_update (out : Outbound Id) (i : Fin 2) (l : Log Deliver) (b : Budget) :
    sizes { out with budget := b, lanes := Function.update out.lanes i l }+left (out.lanes i) =
      sizes out+left l := by
  match i with
  | 0 =>
      simp only [sizes,Fin.sum_univ_two,Function.update_self,
        Function.update_of_ne (by decide : (1 : Fin 2) ≠ 0)]
      abel
  | 1 =>
      simp only [sizes,Fin.sum_univ_two,Function.update_self,
        Function.update_of_ne (by decide : (0 : Fin 2) ≠ 1)]
      abel

theorem sizes_lane {i : Fin 2} {l : Log Deliver} {n : ℕ} (b : Budget)
    (hl : left l = n ::ₘ left (out.lanes i)) :
    sizes { out with budget := b, lanes := Function.update out.lanes i l } = n ::ₘ sizes out := by
  have hsizes := sizes_update out i l b
  rw [hl,Multiset.add_cons,← Multiset.cons_add] at hsizes
  exact Multiset.add_left_inj.mp hsizes

theorem lanes_update {i : Fin 2} {l : Log Deliver} (hl : l.taken ≤ l.sent.length)
    (h : ∀ j, (out.lanes j).taken ≤ (out.lanes j).sent.length) (j : Fin 2) :
    (Function.update out.lanes i l j).taken ≤ (Function.update out.lanes i l j).sent.length := by
  by_cases hj : j = i
  · subst hj
    rwa [Function.update_self]
  · rw [Function.update_of_ne hj]
    exact h j

theorem deliverLong_kept (h : OutboxKept limit out) (i : Fin 2) (frame : Deliver) :
    OutboxKept limit (out.deliverLong i frame) := by
  unfold Outbound.deliverLong
  cases hr : (reserve out.budget frame.len).1 with
  | false =>
      obtain ⟨hqueued,hlimit⟩ := reserve_undone hr
      simp only [hr,Bool.false_eq_true,if_false]
      exact ⟨hlimit.trans h.cap,h.session,h.lanes,hqueued ▸ h.queued⟩
  | true =>
      obtain ⟨hqueued,hlimit,hfits⟩ := reserve_taken hr
      rw [h.cap] at hlimit hfits
      simp only [hr,if_true]
      split_ifs
      · refine ⟨hlimit,h.session,lanes_update ?_ h.lanes,?_⟩
        · exact (h.lanes i).trans (by simp [Log.push])
        · rw [sizes_lane _ (left_push (h.lanes i) ⟨frame,frame.len⟩)]
          exact hqueued ▸ h.queued.add hfits
      · exact ⟨hlimit,h.session,h.lanes,release_counts _ hqueued ▸ h.queued⟩

theorem accept_outbox (h : OutboxKept limit out) (msg : Msg Id) : OutboxKept limit (out.accept msg) := by
  cases msg with
  | session item size => exact pushSession_kept h item size
  | deliver lane frame =>
      cases lane with
      | control => exact deliverLong_kept h 0 frame
      | interactive => exact deliverLong_kept h 1 frame
      | bulk => exact ⟨h.cap,h.session,h.lanes,h.queued⟩
  | datagram bytes => exact ⟨h.cap,h.session,h.lanes,h.queued⟩

theorem drain_outbox (h : OutboxKept limit out) {d : Drain} (hd : out.drain d = some out') :
    OutboxKept limit out' := by
  cases d with
  | released q =>
      cases q with
      | session =>
          obtain ⟨x,hx,rfl⟩ := Option.map_eq_some_iff.mp hd
          have hlt := (List.getElem?_eq_some_iff.mp hx).1
          have hqueued := h.queued
          rw [sizes,left_taken hx,Multiset.cons_add] at hqueued
          obtain ⟨hle,hwithin⟩ := hqueued.remove
          refine ⟨h.cap,hlt,h.lanes,?_⟩
          rw [release_counts out.budget (Nat.sub_add_cancel hle).symm]
          exact hwithin
      | lane i =>
          obtain ⟨x,hx,rfl⟩ := Option.map_eq_some_iff.mp hd
          have hlt := (List.getElem?_eq_some_iff.mp hx).1
          have hsizes := sizes_update out i { out.lanes i with taken := (out.lanes i).taken+1 }
            (out.budget.release x.size)
          rw [left_taken hx,Multiset.add_cons,← Multiset.cons_add] at hsizes
          have hqueued := h.queued
          rw [← Multiset.add_left_inj.mp hsizes] at hqueued
          obtain ⟨hle,hwithin⟩ := hqueued.remove
          refine ⟨h.cap,h.session,lanes_update hlt h.lanes,?_⟩
          rw [release_counts out.budget (Nat.sub_add_cancel hle).symm]
          exact hwithin
  | hungUp q =>
      cases q with
      | session =>
          cases hd
          exact ⟨h.cap,h.session,h.lanes,h.queued⟩
      | lane i =>
          cases hd
          have hsizes := sizes_update out i { out.lanes i with isOpen := false } out.budget
          refine ⟨h.cap,h.session,lanes_update (h.lanes i) h.lanes,?_⟩
          exact (Multiset.add_left_inj.mp hsizes).symm ▸ h.queued
  | crowded =>
      cases hd
      exact ⟨h.cap,h.session,h.lanes,h.queued⟩
  | bulkNext =>
      obtain ⟨x,-,rfl⟩ := Option.map_eq_some_iff.mp hd
      exact ⟨h.cap,h.session,h.lanes,h.queued⟩
  | bulkDone i =>
      obtain ⟨x,-,rfl⟩ := Option.map_eq_some_iff.mp hd
      exact ⟨h.cap,h.session,h.lanes,h.queued⟩
  | bulkClosed =>
      cases hd
      exact ⟨h.cap,h.session,h.lanes,h.queued⟩

end

/-! ### Bulk deliveries -/

structure BulkKept (budget : ℕ) (out : Outbound Id) : Prop where
  cap : out.bulkBudget = budget
  accounted : BulkQueue.Accounted budget out.bulk out.onStreams

theorem bulk_new (outboxBytes bulkOutboxBytes : ℕ) :
    BulkKept bulkOutboxBytes (Outbound.new Id outboxBytes bulkOutboxBytes) where
  cap := rfl
  accounted := ⟨rfl,rfl,List.forall_mem_nil _,.inl (Nat.zero_le _)⟩

/-- The message is not an empty DELIVER. -/
def Filled (msg : Msg Id) : Prop := ∀ lane frame, msg = .deliver lane frame → 0 < frame.len

section
variable {budget : ℕ} {out out' : Outbound Id}

theorem bulkPush_kept (h : BulkKept budget out) {frame : Deliver} (hframe : 0 < frame.len) :
    BulkQueue.Accounted budget (out.bulk.push out.bulkBudget frame).2 out.onStreams := by
  rw [h.cap]
  cases hclosed : out.bulk.closed with
  | true =>
      rw [BulkQueue.push_ok (BulkQueue.push_closed hclosed frame)]
      exact h.accounted
  | false =>
      rcases BulkQueue.push_spec h.accounted hclosed frame with ⟨-,hpush⟩ | ⟨-,k,-,hroom,-,hpush⟩
      · rw [BulkQueue.push_ok hpush]
        exact h.accounted
      · rw [BulkQueue.push_ok hpush]
        exact BulkQueue.pushed_accounted h.accounted hframe hroom

theorem deliverLong_bulkKept (h : BulkKept budget out) (i : Fin 2) (frame : Deliver) :
    BulkKept budget (out.deliverLong i frame) := by
  simp only [Outbound.deliverLong]
  split
  · split <;> exact ⟨h.cap,h.accounted⟩
  · exact ⟨h.cap,h.accounted⟩

theorem accept_bulk (h : BulkKept budget out) {msg : Msg Id} (hmsg : Filled msg) :
    BulkKept budget (out.accept msg) := by
  cases msg with
  | session item size =>
      simp only [Outbound.accept,Outbound.pushSession]
      split
      · split <;> exact ⟨h.cap,h.accounted⟩
      · exact ⟨h.cap,h.accounted⟩
  | deliver lane frame =>
      cases lane with
      | control => exact deliverLong_bulkKept h 0 frame
      | interactive => exact deliverLong_bulkKept h 1 frame
      | bulk => exact ⟨h.cap,bulkPush_kept h (hmsg _ frame rfl)⟩
  | datagram bytes => exact ⟨h.cap,h.accounted⟩

theorem drain_bulk (h : BulkKept budget out) {d : Drain} (hd : out.drain d = some out') :
    BulkKept budget out' := by
  cases d with
  | bulkNext =>
      obtain ⟨⟨frame,bulk⟩,hnext,rfl⟩ := Option.map_eq_some_iff.mp hd
      cases hw : out.bulk.waiting with
      | nil =>
          rw [BulkState.next,hw] at hnext
          cases hnext
      | cons first rest =>
          obtain ⟨hok,haccounted⟩ := BulkQueue.next_frame h.accounted hw
          rw [BulkQueue.next_ok hok] at hnext
          cases hnext
          exact ⟨h.cap,haccounted⟩
  | bulkDone i =>
      obtain ⟨frame,hi,rfl⟩ := Option.map_eq_some_iff.mp hd
      obtain ⟨hok,haccounted⟩ := BulkQueue.done_spec h.accounted hi
      exact ⟨h.cap,BulkQueue.done_ok hok ▸ haccounted⟩
  | bulkClosed =>
      cases hd
      exact ⟨h.cap,BulkQueue.close_accounted h.accounted⟩
  | released q =>
      cases q with
      | _ =>
          obtain ⟨x,-,rfl⟩ := Option.map_eq_some_iff.mp hd
          exact ⟨h.cap,h.accounted⟩
  | hungUp q =>
      cases q with
      | _ =>
          cases hd
          exact ⟨h.cap,h.accounted⟩
  | crowded =>
      cases hd
      exact ⟨h.cap,h.accounted⟩

theorem bulk_le (h : BulkKept budget out) {big : ℕ}
    (hbig : ∀ f ∈ out.bulk.waiting++out.onStreams, f.len ≤ big) : out.bulk.bytes ≤ max budget big := by
  rcases h.accounted.within with hle | hone
  · exact hle.trans (le_max_left _ _)
  · obtain ⟨f,hf⟩ := List.length_eq_one_iff.mp ((List.length_append).trans hone)
    have hbytes : out.bulk.bytes = BulkQueue.total (out.bulk.waiting++out.onStreams) := by
      rw [h.accounted.bytes,h.accounted.waiting,BulkQueue.total_append]
    rw [hbytes,hf]
    exact (hbig f (hf ▸ List.mem_singleton_self f)).trans (le_max_right _ _)

end

/-- Both budgets of a client. -/
structure ClientKept (outboxBytes bulkOutboxBytes : ℕ) (out : Outbound Id) : Prop where
  outbox : OutboxKept outboxBytes out
  bulk : BulkKept bulkOutboxBytes out

section
variable {outboxBytes bulkOutboxBytes : ℕ} {out out' : Outbound Id}

theorem client_new : ClientKept outboxBytes bulkOutboxBytes (Outbound.new Id outboxBytes bulkOutboxBytes) :=
  ⟨outbox_new _ _,bulk_new _ _⟩

theorem acceptAll_kept (h : ClientKept outboxBytes bulkOutboxBytes out) {msgs : List (Msg Id)}
    (hmsgs : ∀ msg ∈ msgs, Filled msg) : ClientKept outboxBytes bulkOutboxBytes (acceptAll out msgs) := by
  induction msgs generalizing out with
  | nil => exact h
  | cons msg msgs ih =>
      have hmsg := hmsgs msg List.mem_cons_self
      exact ih ⟨accept_outbox h.outbox msg,accept_bulk h.bulk hmsg⟩
        (fun m hm => hmsgs m (List.mem_cons_of_mem _ hm))

theorem drain_kept (h : ClientKept outboxBytes bulkOutboxBytes out) {d : Drain}
    (hd : out.drain d = some out') : ClientKept outboxBytes bulkOutboxBytes out' :=
  ⟨drain_outbox h.outbox hd,drain_bulk h.bulk hd⟩

end

end

/-! ### Every client's queues -/

section
variable {Id F : Type} [DecidableEq Id] [EndpointKey Id] [Scalar F] {limits : Limits F}
  {s s' : State Id F} {a : Action Id}

omit [DecidableEq Id] in
theorem publication_filled {tag : UInt8} {body : Bytes} {p : Publish Id}
    (h : publication tag body = some p) : 0 < p.deliver.len := by
  unfold publication at h
  split at h
  · cases h
  · next f topicBytes hd =>
    obtain ⟨⟨topic,recipient,payload⟩,-,h⟩ := Option.bind_eq_some_iff.mp h
    simp only at h
    split_ifs at h
    cases h
    exact BulkQueue.deliver_len_pos _ _

structure QueuesKept (limits : Limits F) (s : State Id F) : Prop where
  invariant : Invariant limits s
  filled : AllHeld (fun _ _ _ => True) (fun _ _ p => 0 < p.deliver.len) s
  client : ∀ c, ClientKept limits.outboxBytes limits.bulkOutboxBytes (s.outs c)

omit [EndpointKey Id] [Scalar F] in
theorem queues_init (limits : Limits F) : QueuesKept limits (State.init limits : State Id F) where
  invariant := init_invariant limits
  filled := by rintro c conn ⟨⟩
  client _ := client_new

omit [EndpointKey Id] [Scalar F] in
theorem queues_connect (hk : QueuesKept limits s) (peer : Id) (now : ℕ) :
    QueuesKept limits (s.connect limits peer now) := by
  refine ⟨connect_invariant hk.invariant peer now,?_,?_⟩
  · intro c conn hc
    by_cases heq : c = s.next
    · rw [heq,State.connect_conns_self] at hc
      cases hc
      rintro stream l ⟨⟩
    · rw [State.connect_conns_of_ne _ _ _ _ heq] at hc
      exact hk.filled c conn hc
  · intro c
    by_cases heq : c = s.next
    · subst heq
      simp only [State.connect,Function.update_self]
      exact client_new
    · rw [State.connect_outs_of_ne _ _ _ _ heq]
      exact hk.client c

/-- What a task sends a client is never an empty DELIVER. -/
theorem sends_filled (hk : QueuesKept limits s) {c : ℕ} {act : Act Id} {conn : Conn Id F}
    {e : Effect Id F} (hc : s.conns c = some conn) (he : perform limits s.rooms c conn act = some e)
    (d : ℕ) : ∀ msg ∈ sendsTo d e.sends, Filled msg := by
  have hother : ∀ msg : Msg Id, NotDeliver msg → Filled msg :=
    fun msg hnot lane frame heq => absurd heq (hnot lane frame)
  have hpublished := act_published hk.invariant hc he
  split at hpublished
  · next x hx =>
    have hd := hpublished d
    split_ifs at hd
    · rw [hd]
      intro msg hmsg lane frame heq
      obtain ⟨stream,conn',-,hc',-,hl,-⟩ := publishedBy_some hx
      rw [List.mem_singleton.mp hmsg] at heq
      cases heq
      exact (hk.filled _ conn' hc' stream _ hl).2 _ (.inr rfl)
    · intro msg hmsg
      exact hother msg (hd msg hmsg)
  · intro msg hmsg
    exact hother msg (hpublished d msg hmsg)

theorem queues_step (hk : QueuesKept limits s) (hs : step limits s a = some s') :
    QueuesKept limits s' := by
  have hi := step_invariant hk.invariant hs
  have hfilled : AllHeld (fun _ _ _ => True) (fun _ _ p => 0 < p.deliver.len) s' :=
    step_held ⟨fun _ _ _ _ => trivial,fun _ _ _ _ _ _ hpub => publication_filled hpub⟩ hs hk.filled
  cases a with
  | connect peer now =>
      cases hs
      exact queues_connect hk peer now
  | act c act =>
      obtain ⟨conn,e,hc,he,rfl⟩ := step_act hs
      refine ⟨hi,hfilled,?_⟩
      intro d
      rw [State.apply_outs]
      exact acceptAll_kept (hk.client d) (sends_filled hk hc he d)
  | drain c w =>
      obtain ⟨out,hout,rfl⟩ := step_drain hs
      refine ⟨hi,hfilled,?_⟩
      intro d
      by_cases hdc : d = c
      · subst hdc
        simp only [Function.update_self]
        exact drain_kept (hk.client d) hout
      · simp only [Function.update_of_ne hdc]
        exact hk.client d
  | rehash topic room =>
      obtain ⟨old,-,-,rfl⟩ := step_rehash hs
      exact ⟨hi,hfilled,hk.client⟩

/-! ### Members of rooms -/

/-- Every membership: a topic and the connection that holds the slot. -/
def memberships (r : Rooms Id) : List (Topic × ℕ) :=
  (List.finRange RoomTable.shards).flatMap fun i => (r.shards i).entries.flatMap fun e =>
    e.2.entries.map fun m => (e.1,m.2.handle.connId)

omit [DecidableEq Id] [EndpointKey Id] in
theorem occupancy_eq (r : Rooms Id) : r.occupancy =
    (((List.finRange RoomTable.shards).map fun i => (r.shards i).entries.length).sum,
      (memberships r).length) := by
  have hfold : ∀ (is : List (Fin RoomTable.shards)) (acc : ℕ × ℕ),
      is.foldl (fun acc i => (acc.1+(r.shards i).entries.length,
        acc.2+((r.shards i).entries.map fun e => e.2.entries.length).sum)) acc =
      (acc.1+(is.map fun i => (r.shards i).entries.length).sum,
        acc.2+(is.map fun i => ((r.shards i).entries.map fun e => e.2.entries.length).sum).sum) := by
    intro is
    induction is with
    | nil => simp
    | cons i is ih =>
        intro acc
        rw [List.foldl_cons,ih]
        simp only [List.map_cons,List.sum_cons]
        rw [Nat.add_assoc,Nat.add_assoc]
  rw [Rooms.occupancy,hfold,memberships]
  simp only [Nat.zero_add,List.length_flatMap,List.length_map]

section
variable (hi : Invariant limits s)
include hi

omit [EndpointKey Id] [Scalar F] in
theorem slotOk_of_mem {i : Fin RoomTable.shards} {e : Sigma fun _ : Topic => Room Id}
    (he : e ∈ (s.rooms.shards i).entries) {m : Sigma fun _ : Id => Slot Id} (hm : m ∈ e.2.entries) :
    SlotOk s.conns e.1 m.1 m.2 := by
  obtain ⟨-,hroom⟩ := hi.room_in_shard (AList.mem_lookup_iff.mpr he : _ ∈ _)
  refine hi.slots e.1 m.1 m.2 ?_
  rw [Rooms.slot_of_room _ _ hroom]
  exact AList.mem_lookup_iff.mpr hm

omit [EndpointKey Id] [Scalar F] in
/-- Within a room no two slots are one connection's. -/
theorem room_nodup {i : Fin RoomTable.shards} {e : Sigma fun _ : Topic => Room Id}
    (he : e ∈ (s.rooms.shards i).entries) :
    (e.2.entries.map fun m => (e.1,m.2.handle.connId)).Nodup := by
  refine List.Nodup.map_on ?_ e.2.nodupKeys.nodup
  intro m hm m' hm' heq
  obtain ⟨conn,hc,hpeer,-⟩ := (slotOk_of_mem hi he hm).conn
  have hid : m'.2.handle.connId = m.2.handle.connId := (Prod.ext_iff.mp heq).2.symm
  have hkey : m'.1 = m.1 := by
    rw [(slotOk_of_mem hi he hm').own hc hid,hpeer]
  exact (e.2.nodupKeys.eq_of_fst_eq hm' hm hkey).symm

omit [EndpointKey Id] [Scalar F] in
theorem memberships_nodup : (memberships s.rooms).Nodup := by
  have htopic : ∀ {e : Sigma fun _ : Topic => Room Id} {x : Topic × ℕ},
      x ∈ e.2.entries.map (fun m => (e.1,m.2.handle.connId)) → x.1 = e.1 := by
    intro e x hx
    obtain ⟨m,-,rfl⟩ := List.mem_map.mp hx
    rfl
  refine List.nodup_flatMap.mpr ⟨?_,?_⟩
  · intro i _
    refine List.nodup_flatMap.mpr ⟨fun e he => room_nodup hi he,?_⟩
    refine (s.rooms.shards i).nodupKeys.pairwise_ne.imp ?_
    intro e e' hne x hx hx'
    exact hne ((htopic hx).symm.trans (htopic hx'))
  · refine (List.nodup_finRange RoomTable.shards).imp ?_
    intro i j hne x hx hx'
    -- the topic says in which shard its room is
    have hshard : ∀ {k : Fin RoomTable.shards}, x ∈ ((s.rooms.shards k).entries.flatMap fun e =>
        e.2.entries.map fun m => (e.1,m.2.handle.connId)) → shardIndex x.1 = k := by
      intro k hk
      obtain ⟨e,he,hxe⟩ := List.mem_flatMap.mp hk
      rw [htopic hxe]
      exact (hi.room_in_shard (AList.mem_lookup_iff.mpr he : _ ∈ _)).1
    exact hne ((hshard hx).symm.trans (hshard hx'))

omit [EndpointKey Id] [Scalar F] in
/-- A member's connection has not ended and has the topic in its set. -/
theorem memberships_live {x : Topic × ℕ} (hx : x ∈ memberships s.rooms) :
    ∃ conn, s.conns x.2 = some conn ∧ conn.phase ≠ .ended ∧ x.1 ∈ conn.subscribed := by
  obtain ⟨i,-,hx⟩ := List.mem_flatMap.mp hx
  obtain ⟨e,he,hx⟩ := List.mem_flatMap.mp hx
  obtain ⟨m,hm,rfl⟩ := List.mem_map.mp hx
  obtain ⟨conn,hc,-,ht⟩ := (slotOk_of_mem hi he hm).conn
  refine ⟨conn,hc,?_,ht⟩
  intro hended
  rw [(hi.conns _ conn hc).ended hended] at ht
  cases ht

omit [EndpointKey Id] [Scalar F] in
/-- There are no more rooms than members. -/
theorem rooms_le_members :
    ((List.finRange RoomTable.shards).map fun i => (s.rooms.shards i).entries.length).sum ≤
      (memberships s.rooms).length := by
  rw [memberships,List.length_flatMap]
  refine List.sum_le_sum ?_
  intro i _
  rw [List.length_flatMap]
  have hone := List.length_le_sum_of_one_le ((s.rooms.shards i).entries.map fun e =>
    (e.2.entries.map fun m => (e.1,m.2.handle.connId)).length) (by
      intro n hn
      obtain ⟨e,he,rfl⟩ := List.mem_map.mp hn
      obtain ⟨-,hroom⟩ := hi.room_in_shard (AList.mem_lookup_iff.mpr he : _ ∈ _)
      rw [List.length_map]
      exact (hi.rooms.rooms e.1 e.2 hroom).occupied)
  rwa [List.length_map] at hone

omit [EndpointKey Id] [Scalar F] in
/-- Each connection is a member at most once for each topic of its set. -/
theorem members_le {cs : Finset ℕ} (hcs : ∀ x ∈ memberships s.rooms, x.2 ∈ cs) :
    (memberships s.rooms).length ≤ limits.maxTopicsPerConnection*cs.card := by
  rw [← List.toFinset_card_of_nodup (memberships_nodup hi)]
  have hmaps : ∀ x ∈ (memberships s.rooms).toFinset, Prod.snd x ∈ cs :=
    fun x hx => hcs x (List.mem_toFinset.mp hx)
  refine Finset.card_le_mul_card_image_of_maps_to hmaps _ ?_
  intro c _
  cases hc : s.conns c with
  | none =>
      refine (Finset.card_eq_zero.mpr (Finset.filter_eq_empty_iff.mpr ?_)).trans_le (Nat.zero_le _)
      rintro x hx rfl
      obtain ⟨conn,hconn,-⟩ := memberships_live hi (List.mem_toFinset.mp hx)
      rw [hc] at hconn
      cases hconn
  | some conn =>
      refine le_trans (Finset.card_le_card_of_injOn Prod.fst ?_ ?_) (hi.conns c conn hc).topics
      · intro x hx
        obtain ⟨hmem,hsnd⟩ := Finset.mem_filter.mp hx
        obtain ⟨conn',hc',-,ht⟩ := memberships_live hi (List.mem_toFinset.mp hmem)
        rw [hsnd,hc] at hc'
        cases hc'
        exact ht
      · intro x hx y hy hxy
        exact Prod.ext hxy ((Finset.mem_filter.mp hx).2.trans (Finset.mem_filter.mp hy).2.symm)

end

/-! ### All of it -/

/-- The bytes queued to a client, and those on bulk streams to it. -/
def held (out : Outbound Id) : ℕ :=
  (sizes out).sum+BulkQueue.total (out.bulk.waiting++out.onStreams)

/-- Nothing queued to a client is larger. -/
structure Largest (big : ℕ) (out : Outbound Id) : Prop where
  items : ∀ n ∈ sizes out, n ≤ big
  deliveries : ∀ f ∈ out.bulk.waiting++out.onStreams, f.len ≤ big

omit [DecidableEq Id] [EndpointKey Id] in
theorem held_le {outboxBytes bulkOutboxBytes big : ℕ} {out : Outbound Id}
    (hk : ClientKept outboxBytes bulkOutboxBytes out) (hbig : Largest big out) :
    held out ≤ max outboxBytes big+max bulkOutboxBytes big := by
  have hqueued := hk.outbox.queued.le hbig.items
  have hbulk := bulk_le hk.bulk hbig.deliveries
  rw [hk.outbox.queued.sum] at hqueued
  rw [hk.bulk.accounted.bytes,hk.bulk.accounted.waiting,← BulkQueue.total_append] at hbulk
  exact Nat.add_le_add hqueued hbulk

/-- The connections that have a task. -/
def serving (guests : List Guest) : Finset ℕ :=
  (guests.filterMap fun g => match g with
    | .connecting => none
    | .serving c => some c).toFinset

theorem mem_serving {guests : List Guest} {c : ℕ} : c ∈ serving guests ↔ .serving c ∈ guests := by
  rw [serving,List.mem_toFinset,List.mem_filterMap]
  constructor
  · rintro ⟨g,hg,heq⟩
    cases g with
    | connecting => cases heq
    | serving d =>
        cases heq
        exact hg
  · intro hg
    exact ⟨_,hg,rfl⟩

theorem serving_card_le (guests : List Guest) : (serving guests).card ≤ guests.length :=
  (List.toFinset_card_le _).trans (List.length_filterMap_le _ _)

/-- **The load is bounded**: after every run of any clients, the rooms and their members are
at most as many as the connections that are let in can have topics, and the bytes held for
all of them are at most the two budgets for each connection, or an item larger than those. -/
theorem load_bounded {maxConnections : ℕ} {ms : List (Move Id)} {h : Hall Id F}
    (hrun : exec (move limits maxConnections) (Hall.init limits) ms = some h) :
    h.server.rooms.occupancy.1 ≤ h.server.rooms.occupancy.2 ∧
    h.server.rooms.occupancy.2 ≤ limits.maxTopicsPerConnection*maxConnections ∧
    ∀ big, (∀ c ∈ serving h.guests, Largest big (h.server.outs c)) →
      ∑ c ∈ serving h.guests, held (h.server.outs c) ≤
        maxConnections*(max limits.outboxBytes big+max limits.bulkOutboxBytes big) := by
  have hi := run_counts hrun
  obtain ⟨as,hserver⟩ := run_server hrun
  have hk : QueuesKept limits h.server :=
    exec_invariant _ (fun _ _ _ hk hs => queues_step hk hs) (queues_init limits) hserver
  have hcard := (serving_card_le h.guests).trans hi.within
  rw [occupancy_eq]
  refine ⟨rooms_le_members hi.server,?_,?_⟩
  · have hcs : ∀ x ∈ memberships h.server.rooms, x.2 ∈ serving h.guests := by
      intro x hx
      obtain ⟨conn,hc,hphase,-⟩ := memberships_live hi.server hx
      exact mem_serving.mpr (hi.served x.2 conn hc hphase)
    exact (members_le hi.server hcs).trans (Nat.mul_le_mul_left _ hcard)
  · intro big hbig
    calc ∑ c ∈ serving h.guests, held (h.server.outs c)
        ≤ (serving h.guests).card•(max limits.outboxBytes big+max limits.bulkOutboxBytes big) :=
          Finset.sum_le_card_nsmul _ _ _ (fun c hc => held_le (hk.client c) (hbig c hc))
      _ ≤ maxConnections*(max limits.outboxBytes big+max limits.bulkOutboxBytes big) :=
          Nat.mul_le_mul_right _ hcard

end
/-- Two connections are let in and subscribe. -/
def visitors : List (Move RawId) :=
  [.incoming,.compare,.opened 0 .base 0,.incoming,.compare,.opened 1 .identity 0,
    .serve (sends 1 (.subscribe (topicOf 7)) 0),.serve (sends 2 (.subscribe (topicOf 7)) 0)]

theorem load_bounded_visitors : ∃ h : Hall RawId Level,
    exec (move .default 2) (Hall.init .default) visitors = some h ∧
    h.server.rooms.occupancy = (1,2) ∧ h.server.rooms.occupancy.2 ≤ 1024 ∧
    ∑ c ∈ serving h.guests, held (h.server.outs c) ≤ 2*(8*1048576+8*1048576) := by
  have hrun : (exec (move .default 2) (Hall.init .default) visitors).any (fun h : Hall RawId Level =>
      decide (h.server.rooms.occupancy = (1,2) ∧ ∀ c ∈ serving h.guests,
        (∀ n ∈ sizes (h.server.outs c), n ≤ 1000) ∧
        ∀ f ∈ (h.server.outs c).bulk.waiting++(h.server.outs c).onStreams, f.len ≤ 1000)) = true := by
    decide +kernel
  obtain ⟨h,hh,hrun⟩ := (Option.any_eq_true _ _).mp hrun
  obtain ⟨hoccupancy,hbig⟩ := of_decide_eq_true hrun
  obtain ⟨-,hmembers,hbytes⟩ := load_bounded hh
  exact ⟨h,hh,hoccupancy,hmembers,hbytes 1000 (fun c hc => ⟨(hbig c hc).1,(hbig c hc).2⟩)⟩

end KeepTalkingSfu.ServerLoad
