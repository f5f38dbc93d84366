import KeepTalkingSfu.OutboxBudget
import KeepTalkingSfu.StreamWriters
import Mathlib.Data.Fin.VecNotation

/-!
# The queues towards one client

The sending half of a connection: a session queue and two long-lived lane
queues under one disconnecting byte budget, a bulk queue that drops its oldest
deliveries instead, and the datagrams handed to the connection. Here one push
is one step: the counter is added to, compared and put back in one go. A push
of another task that is half-way can still be noticed, as a budget that is
`crowded` at any time.

A queue keeps everything that was ever sent on it, with how much its writer
has taken, so that what a client was told is still there to be read.
-/
namespace KeepTalkingSfu.MemberQueues
open ByteTransport WireFormat StreamWriters OutboxBudget

structure Queued (A : Type) where
  item : A
  size : ℕ
  deriving DecidableEq

structure Log (A : Type) where
  sent : List (Queued A)
  taken : ℕ
  isOpen : Bool
  deriving DecidableEq

def Log.empty {A : Type} : Log A := ⟨[],0,true⟩

def Log.push {A : Type} (l : Log A) (x : Queued A) : Log A := { l with sent := l.sent++[x] }

/-! ### Bulk deliveries -/

structure BulkState where
  waiting : List Deliver
  waitingBytes : ℕ
  bytes : ℕ
  closed : Bool
  deriving DecidableEq

def BulkState.empty : BulkState := ⟨[],0,0,false⟩

/-- Drops the oldest waiting deliveries until the new one fits, the budget is
empty, or nothing waits any more. Returns how many were dropped. -/
def BulkState.makeRoom (budget size : ℕ) : List Deliver → ℕ → ℕ → ℕ × BulkState
  | [],waitingBytes,bytes => (0,⟨[],waitingBytes,bytes,false⟩)
  | oldest::rest,waitingBytes,bytes =>
      if 0 < bytes ∧ budget < bytes+size then
        let (dropped,state) := makeRoom budget size rest (waitingBytes-oldest.len) (bytes-oldest.len)
        (dropped+1,state)
      else (0,⟨oldest::rest,waitingBytes,bytes,false⟩)

/-- Queues a delivery within the budget. Returns how many deliveries were
dropped, the new one included. -/
def BulkState.push (budget : ℕ) (state : BulkState) (frame : Deliver) : ℕ × BulkState :=
  if state.closed then (0,state)
  else
    let onStreams := state.bytes-state.waitingBytes
    if 0 < onStreams ∧ budget < onStreams+frame.len then (1,state)
    else
      let (dropped,room) := makeRoom budget frame.len state.waiting state.waitingBytes state.bytes
      (dropped,{ room with
        waiting := room.waiting++[frame]
        waitingBytes := room.waitingBytes+frame.len
        bytes := room.bytes+frame.len })

/-- The oldest waiting delivery, moved onto a stream. -/
def BulkState.next (state : BulkState) : Option (Deliver × BulkState) :=
  match state.waiting with
  | [] => none
  | frame::rest =>
      some (frame,{ state with waiting := rest, waitingBytes := state.waitingBytes-frame.len })

/-- A delivery left its stream. -/
def BulkState.done (state : BulkState) (size : ℕ) : BulkState :=
  { state with bytes := state.bytes-size }

def BulkState.close (state : BulkState) : BulkState := { state with closed := true }

/-! ### One client's queues -/

structure Outbound (Id : Type) where
  budget : Budget
  session : Log (SessionItem Id)
  /-- Control, then interactive. -/
  lanes : Fin 2 → Log Deliver
  bulk : BulkState
  bulkBudget : ℕ
  onStreams : List Deliver
  datagrams : List Bytes

/-- The lane of each long-lived queue. -/
def longLane : Fin 2 → Lane := ![.control,.interactive]

def Outbound.new (Id : Type) (outboxBytes bulkOutboxBytes : ℕ) : Outbound Id where
  budget := ⟨0,outboxBytes,false⟩
  session := .empty
  lanes _ := .empty
  bulk := .empty
  bulkBudget := bulkOutboxBytes
  onStreams := []
  datagrams := []

/-- Counts `size` bytes against the budget, or refuses them for good. -/
def reserve (b : Budget) (size : ℕ) : Bool × Budget :=
  if b.overflowed then (false,b)
  else
    let (before,added) := b.fetchAdd size
    if added.exceeds before size then
      (false,{ added.release size with overflowed := true })
    else (true,added)

section
variable {Id : Type}

def Outbound.pushSession (out : Outbound Id) (item : SessionItem Id) (size : ℕ) : Outbound Id :=
  let (ok,budget) := reserve out.budget size
  if ok then
    if out.session.isOpen then
      { out with budget := budget, session := out.session.push ⟨item,size⟩ }
    else { out with budget := budget.release size }
  else { out with budget := budget }

/-- Queues a DELIVER on a long-lived lane. -/
def Outbound.deliverLong (out : Outbound Id) (i : Fin 2) (frame : Deliver) : Outbound Id :=
  let (ok,budget) := reserve out.budget frame.len
  if ok then
    if (out.lanes i).isOpen then
      { out with
        budget := budget
        lanes := Function.update out.lanes i ((out.lanes i).push ⟨frame,frame.len⟩) }
    else { out with budget := budget.release frame.len }
  else { out with budget := budget }

def Outbound.deliver (out : Outbound Id) (lane : Lane) (frame : Deliver) : Outbound Id :=
  match lane with
  | .bulk => { out with bulk := (out.bulk.push out.bulkBudget frame).2 }
  | .control => out.deliverLong 0 frame
  | .interactive => out.deliverLong 1 frame

/-- Nothing was queued on the lane. -/
def LaneUntouched (lane : Lane) (out out' : Outbound Id) : Prop :=
  match lane with
  | .control => (out'.lanes 0).sent = (out.lanes 0).sent
  | .interactive => (out'.lanes 1).sent = (out.lanes 1).sent
  | .bulk => out'.bulk = out.bulk

/-- What one task hands to the sending half of a connection. -/
inductive Msg (Id : Type) where
  | session (item : SessionItem Id) (size : ℕ)
  | deliver (lane : Lane) (frame : Deliver)
  | datagram (bytes : Bytes)
  deriving DecidableEq

def Outbound.accept (out : Outbound Id) : Msg Id → Outbound Id
  | .session item size => out.pushSession item size
  | .deliver lane frame => out.deliver lane frame
  | .datagram bytes => { out with datagrams := out.datagrams++[bytes] }

/-- A message and the connection it goes to. -/
structure Send (Id : Type) where
  target : ℕ
  msg : Msg Id
  deriving DecidableEq

def sendAll (outs : ℕ → Outbound Id) : List (Send Id) → ℕ → Outbound Id
  | [] => outs
  | m::ms => sendAll (Function.update outs m.target ((outs m.target).accept m.msg)) ms

def pushFrame (frame : Bytes) : Msg Id := .session (.frame frame) frame.length

def errorFrame (Id : Type) [EndpointKey Id] (topic : Option Topic) (reason : String) : Bytes :=
  (.error topic reason : ServerFrame Id).encode

/-- An ERROR to a client. -/
def error [EndpointKey Id] (target : ℕ) (topic : Option Topic) (reason : String) : Send Id :=
  ⟨target,pushFrame (errorFrame Id topic reason)⟩

/-! ### The writers' side -/

inductive QueueName where
  | session
  | lane (i : Fin 2)
  deriving DecidableEq

inductive Drain where
  | released (q : QueueName)
  | hungUp (q : QueueName)
  | crowded
  | bulkNext
  | bulkDone (i : ℕ)
  | bulkClosed
  deriving DecidableEq

/-- What the writers do: take and release the oldest item, drop a queue's
receiver, or move bulk deliveries through their streams. -/
def Outbound.drain (out : Outbound Id) : Drain → Option (Outbound Id)
  | .released .session =>
      (out.session.sent[out.session.taken]?).map fun x =>
        { out with
          budget := out.budget.release x.size
          session := { out.session with taken := out.session.taken+1 } }
  | .released (.lane i) =>
      ((out.lanes i).sent[(out.lanes i).taken]?).map fun x =>
        { out with
          budget := out.budget.release x.size
          lanes := Function.update out.lanes i
            { out.lanes i with taken := (out.lanes i).taken+1 } }
  | .hungUp .session => some { out with session := { out.session with isOpen := false } }
  | .hungUp (.lane i) =>
      some { out with lanes := Function.update out.lanes i { out.lanes i with isOpen := false } }
  | .crowded => some { out with budget := { out.budget with overflowed := true } }
  | .bulkNext =>
      out.bulk.next.map fun (frame,bulk) =>
        { out with bulk := bulk, onStreams := out.onStreams++[frame] }
  | .bulkDone i =>
      (out.onStreams[i]?).map fun frame =>
        { out with bulk := out.bulk.done frame.len, onStreams := out.onStreams.eraseIdx i }
  | .bulkClosed => some { out with bulk := out.bulk.close }

/-! ### Refusals are for good -/

/-- What no push and no writer undoes. -/
structure Later (out out' : Outbound Id) : Prop where
  overflowed : out.budget.overflowed = true → out'.budget.overflowed = true
  session : out.session.isOpen = false → out'.session.isOpen = false
  lanes : ∀ i, (out.lanes i).isOpen = false → (out'.lanes i).isOpen = false

theorem Later.refl (out : Outbound Id) : Later out out := ⟨id,id,fun _ => id⟩

theorem Later.trans {out out' out'' : Outbound Id} (h : Later out out') (h' : Later out' out'') :
    Later out out'' where
  overflowed := h'.overflowed ∘ h.overflowed
  session := h'.session ∘ h.session
  lanes i := h'.lanes i ∘ h.lanes i

theorem reserve_later (b : Budget) (size : ℕ) :
    b.overflowed = true → (reserve b size).2.overflowed = true := by
  intro h
  simp [reserve,h]

/-- A refusal raises the flag. -/
theorem reserve_refused {b : Budget} {size : ℕ} (h : (reserve b size).1 = false) :
    (reserve b size).2.overflowed = true := by
  unfold reserve at h ⊢
  split
  · next hb => exact hb
  · next hb =>
    simp only [hb,Bool.false_eq_true,if_false] at h ⊢
    split at h
    · next hover => rw [if_pos hover]
    · cases h

theorem reserve_granted {b : Budget} {size : ℕ} (h : (reserve b size).1 = true) :
    b.overflowed = false ∧ (reserve b size).2.overflowed = false := by
  unfold reserve at h ⊢
  cases hb : b.overflowed with
  | true => simp [hb] at h
  | false =>
      simp only [hb,Bool.false_eq_true,if_false] at h ⊢
      split at h
      · cases h
      · next hfit =>
        rw [if_neg hfit]
        exact ⟨trivial,hb⟩

theorem pushSession_later (out : Outbound Id) (item : SessionItem Id) (size : ℕ) :
    Later out (out.pushSession item size) := by
  unfold Outbound.pushSession
  constructor
  · intro h
    have hr := reserve_later out.budget size h
    simp only
    split
    · split <;> exact hr
    · exact hr
  · intro h
    simp only [h]
    split <;> exact h
  · intro i h
    simp only
    split
    · split <;> exact h
    · exact h

theorem deliverLong_later (out : Outbound Id) (i : Fin 2) (frame : Deliver) :
    Later out (out.deliverLong i frame) := by
  unfold Outbound.deliverLong
  constructor
  · intro h
    have hr := reserve_later out.budget frame.len h
    simp only
    split
    · split <;> exact hr
    · exact hr
  · intro h
    simp only
    split
    · split <;> exact h
    · exact h
  · intro j h
    simp only
    split
    · split
      · by_cases hj : j = i
        · subst hj
          simpa [Log.push] using h
        · simpa [hj] using h
      · exact h
    · exact h

theorem accept_later (out : Outbound Id) (msg : Msg Id) : Later out (out.accept msg) := by
  cases msg with
  | session item size => exact pushSession_later out item size
  | deliver lane frame =>
      cases lane with
      | control => exact deliverLong_later out 0 frame
      | interactive => exact deliverLong_later out 1 frame
      | bulk => exact ⟨id,id,fun _ => id⟩
  | datagram bytes => exact ⟨id,id,fun _ => id⟩

theorem drain_spec {out out' : Outbound Id} {d : Drain} (h : out.drain d = some out') :
    Later out out' ∧ out'.session.sent = out.session.sent ∧
      (∀ i, (out'.lanes i).sent = (out.lanes i).sent) ∧ out'.datagrams = out.datagrams := by
  have hupdate : ∀ (i : Fin 2) (l : Log Deliver), l.sent = (out.lanes i).sent →
      ((out.lanes i).isOpen = false → l.isOpen = false) → ∀ j,
        (Function.update out.lanes i l j).sent = (out.lanes j).sent ∧
        ((out.lanes j).isOpen = false → (Function.update out.lanes i l j).isOpen = false) := by
    intro i l hsent hopen j
    by_cases hj : j = i
    · subst hj
      simpa using ⟨hsent,hopen⟩
    · simp [hj]
  cases d with
  | released q =>
      cases q with
      | session =>
          obtain ⟨x,-,rfl⟩ := Option.map_eq_some_iff.mp h
          exact ⟨⟨id,id,fun _ => id⟩,rfl,fun _ => rfl,rfl⟩
      | lane i =>
          obtain ⟨x,-,rfl⟩ := Option.map_eq_some_iff.mp h
          have hu := hupdate i { out.lanes i with taken := (out.lanes i).taken+1 } rfl id
          exact ⟨⟨id,id,fun j => (hu j).2⟩,rfl,fun j => (hu j).1,rfl⟩
  | hungUp q =>
      cases q with
      | session =>
          cases h
          exact ⟨⟨id,fun _ => rfl,fun _ => id⟩,rfl,fun _ => rfl,rfl⟩
      | lane i =>
          cases h
          have hu := hupdate i { out.lanes i with isOpen := false } rfl (fun _ => rfl)
          exact ⟨⟨id,id,fun j => (hu j).2⟩,rfl,fun j => (hu j).1,rfl⟩
  | crowded =>
      cases h
      exact ⟨⟨fun _ => rfl,id,fun _ => id⟩,rfl,fun _ => rfl,rfl⟩
  | bulkNext =>
      obtain ⟨x,-,rfl⟩ := Option.map_eq_some_iff.mp h
      exact ⟨⟨id,id,fun _ => id⟩,rfl,fun _ => rfl,rfl⟩
  | bulkDone i =>
      obtain ⟨x,-,rfl⟩ := Option.map_eq_some_iff.mp h
      exact ⟨⟨id,id,fun _ => id⟩,rfl,fun _ => rfl,rfl⟩
  | bulkClosed =>
      cases h
      exact ⟨⟨id,id,fun _ => id⟩,rfl,fun _ => rfl,rfl⟩

/-! ### What a push appends -/

/-- The budget has not overflowed and the session queue has its writer. -/
structure Healthy (out : Outbound Id) : Prop where
  budget : out.budget.overflowed = false
  session : out.session.isOpen = true

theorem Later.healthy {out out' : Outbound Id} (h : Later out out') (h' : Healthy out') :
    Healthy out := by
  constructor
  · by_contra hb
    rw [Bool.not_eq_false] at hb
    exact absurd (h.overflowed hb) (by simp [h'.budget])
  · by_contra hb
    rw [Bool.not_eq_true] at hb
    exact absurd (h.session hb) (by simp [h'.session])

theorem pushSession_sent {out : Outbound Id} {item : SessionItem Id} {size : ℕ}
    (h : Healthy (out.pushSession item size)) :
    (out.pushSession item size).session.sent = out.session.sent++[⟨item,size⟩] := by
  have hopen := ((pushSession_later out item size).healthy h).session
  have hb := h.budget
  unfold Outbound.pushSession at hb ⊢
  simp only [hopen,if_true] at hb ⊢
  cases hr : (reserve out.budget size).1 with
  | true => rfl
  | false =>
      simp only [hr,Bool.false_eq_true,if_false] at hb
      rw [reserve_refused hr] at hb
      cases hb

/-- A session item of this size is taken. -/
def Fits (out : Outbound Id) (size : ℕ) : Prop :=
  out.budget.overflowed = false ∧ out.session.isOpen = true ∧
    (out.budget.queued = 0 ∨ out.budget.queued+size ≤ out.budget.limit)

instance (out : Outbound Id) (size : ℕ) : Decidable (Fits out size) :=
  inferInstanceAs (Decidable (_ ∧ _ ∧ _))

theorem reserve_eq {b : Budget} (hb : b.overflowed = false) (size : ℕ) :
    (reserve b size).1 = true ↔ b.queued = 0 ∨ b.queued+size ≤ b.limit := by
  simp only [reserve,hb,Bool.false_eq_true,if_false,Budget.fetchAdd,Budget.exceeds,
    Bool.and_eq_true,decide_eq_true_eq]
  split_ifs with hover
  · simp only [false_iff]
    omega
  · simp only [true_iff]
    omega

theorem pushSession_fits {out : Outbound Id} {size : ℕ} (h : Fits out size)
    (item : SessionItem Id) :
    (out.pushSession item size).session.sent = out.session.sent++[⟨item,size⟩] := by
  have hr := (reserve_eq h.1 size).mpr h.2.2
  simp only [Outbound.pushSession,hr,h.2.1,if_true]
  rfl

theorem pushSession_not_fits {out : Outbound Id} {size : ℕ} (h : ¬Fits out size)
    (item : SessionItem Id) : (out.pushSession item size).session.sent = out.session.sent := by
  simp only [Outbound.pushSession]
  cases hr : (reserve out.budget size).1 with
  | false => rfl
  | true =>
      have hb := (reserve_granted hr).1
      have hopen : out.session.isOpen = false := by
        by_contra ho
        exact h ⟨hb,by simpa using ho,(reserve_eq hb size).mp hr⟩
      simp only [hopen,if_true,Bool.false_eq_true,if_false]

theorem deliver_session (out : Outbound Id) (lane : Lane) (frame : Deliver) :
    (out.deliver lane frame).session = out.session := by
  cases lane with
  | bulk => rfl
  | _ =>
      simp only [Outbound.deliver,Outbound.deliverLong]
      split
      · split <;> rfl
      · rfl

def Msg.sessionItem : Msg Id → List (Queued (SessionItem Id))
  | .session item size => [⟨item,size⟩]
  | _ => []

theorem accept_sent {out : Outbound Id} {msg : Msg Id} (h : Healthy (out.accept msg)) :
    (out.accept msg).session.sent = out.session.sent++msg.sessionItem := by
  cases msg with
  | session item size => exact pushSession_sent h
  | deliver lane frame =>
      simp only [Outbound.accept,Msg.sessionItem,deliver_session,List.append_nil]
  | datagram bytes => simp only [Outbound.accept,Msg.sessionItem,List.append_nil]

/-! ### Many pushes -/

def acceptAll (out : Outbound Id) (msgs : List (Msg Id)) : Outbound Id :=
  msgs.foldl Outbound.accept out

@[simp] theorem acceptAll_nil (out : Outbound Id) : acceptAll out [] = out := rfl

@[simp] theorem acceptAll_cons (out : Outbound Id) (msg : Msg Id) (msgs : List (Msg Id)) :
    acceptAll out (msg::msgs) = acceptAll (out.accept msg) msgs := rfl

/-- What the sends have for one connection, in order. -/
def sendsTo (c : ℕ) (ms : List (Send Id)) : List (Msg Id) :=
  (ms.filter fun m => m.target = c).map Send.msg

@[simp] theorem sendsTo_nil (c : ℕ) : sendsTo c ([] : List (Send Id)) = [] := rfl

theorem sendsTo_cons (c : ℕ) (m : Send Id) (ms : List (Send Id)) :
    sendsTo c (m::ms) = (if m.target = c then [m.msg] else [])++sendsTo c ms := by
  by_cases hm : m.target = c <;> simp [sendsTo,hm]

@[simp] theorem sendsTo_append (c : ℕ) (ms ns : List (Send Id)) :
    sendsTo c (ms++ns) = sendsTo c ms++sendsTo c ns := by
  simp [sendsTo]

/-- Each connection gets its own messages, in order, and nothing else. -/
theorem sendAll_apply (outs : ℕ → Outbound Id) (ms : List (Send Id)) (c : ℕ) :
    sendAll outs ms c = acceptAll (outs c) (sendsTo c ms) := by
  induction ms generalizing outs with
  | nil => rfl
  | cons m ms ih =>
      rw [sendAll,ih]
      by_cases hm : m.target = c
      · subst hm
        simp [sendsTo]
      · simp [sendsTo,hm,Ne.symm hm]

theorem acceptAll_later (out : Outbound Id) (msgs : List (Msg Id)) :
    Later out (acceptAll out msgs) := by
  induction msgs generalizing out with
  | nil => exact .refl out
  | cons msg msgs ih => exact (accept_later out msg).trans (ih _)

theorem acceptAll_sent {out : Outbound Id} {msgs : List (Msg Id)}
    (h : Healthy (acceptAll out msgs)) :
    (acceptAll out msgs).session.sent = out.session.sent++msgs.flatMap Msg.sessionItem := by
  induction msgs generalizing out with
  | nil => simp
  | cons msg msgs ih =>
      rw [acceptAll_cons] at h ⊢
      rw [ih h,accept_sent ((acceptAll_later _ msgs).healthy h),List.flatMap_cons,List.append_assoc]

/-- Whatever is refused, the items that are taken are in order. -/
theorem acceptAll_sublist (out : Outbound Id) (msgs : List (Msg Id)) :
    ∃ l, (acceptAll out msgs).session.sent = out.session.sent++l ∧
      l.Sublist (msgs.flatMap Msg.sessionItem) := by
  induction msgs generalizing out with
  | nil => exact ⟨[],by simp,.slnil⟩
  | cons msg msgs ih =>
      obtain ⟨l,hl,hsub⟩ := ih (out.accept msg)
      have hone : ∃ k, (out.accept msg).session.sent = out.session.sent++k ∧
          k.Sublist msg.sessionItem := by
        cases msg with
        | session item size =>
            by_cases hfits : Fits out size
            · exact ⟨_,pushSession_fits hfits item,.refl _⟩
            · exact ⟨[],by rw [List.append_nil]; exact pushSession_not_fits hfits item,
                List.nil_sublist _⟩
        | deliver lane frame =>
            exact ⟨[],by rw [List.append_nil,Outbound.accept,deliver_session],List.nil_sublist _⟩
        | datagram bytes => exact ⟨[],by rw [List.append_nil]; rfl,List.nil_sublist _⟩
      obtain ⟨k,hk,hksub⟩ := hone
      refine ⟨k++l,?_,?_⟩
      · rw [acceptAll_cons,hl,hk,List.append_assoc]
      · rw [List.flatMap_cons]
        exact hksub.append hsub

/-- A queue that refuses takes nothing. -/
theorem acceptAll_unhealthy {out : Outbound Id} (h : ¬Healthy out) (msgs : List (Msg Id)) :
    (acceptAll out msgs).session.sent = out.session.sent := by
  induction msgs generalizing out with
  | nil => rfl
  | cons msg msgs ih =>
      rw [acceptAll_cons,ih fun h' => h ((accept_later out msg).healthy h')]
      cases msg with
      | session item size => exact pushSession_not_fits (fun hf => h ⟨hf.1,hf.2.1⟩) item
      | deliver lane frame => rw [Outbound.accept,deliver_session]
      | datagram bytes => rfl

/-! ### Deliveries -/

/-- A DELIVER of this size is taken on a long-lived lane. -/
def FitsLane (out : Outbound Id) (i : Fin 2) (size : ℕ) : Prop :=
  out.budget.overflowed = false ∧ (out.lanes i).isOpen = true ∧
    (out.budget.queued = 0 ∨ out.budget.queued+size ≤ out.budget.limit)

instance (out : Outbound Id) (i : Fin 2) (size : ℕ) : Decidable (FitsLane out i size) :=
  inferInstanceAs (Decidable (_ ∧ _ ∧ _))

/-- Nothing more is taken on the lane. -/
def Refuses (out : Outbound Id) (i : Fin 2) : Prop :=
  out.budget.overflowed = true ∨ (out.lanes i).isOpen = false

theorem Refuses.later {out out' : Outbound Id} {i : Fin 2} (h : Refuses out i)
    (hl : Later out out') : Refuses out' i := h.imp hl.overflowed (hl.lanes i)

theorem Refuses.not_fits {out : Outbound Id} {i : Fin 2} (h : Refuses out i) (size : ℕ) :
    ¬FitsLane out i size := by
  rintro ⟨hb,hopen,-⟩
  rcases h with h | h
  · rw [hb] at h
    cases h
  · rw [hopen] at h
    cases h

theorem deliver_longLane (out : Outbound Id) (i : Fin 2) (frame : Deliver) :
    out.deliver (longLane i) frame = out.deliverLong i frame := by
  match i with
  | 0 => rfl
  | 1 => rfl

theorem deliverLong_fits {out : Outbound Id} {i : Fin 2} {frame : Deliver}
    (h : FitsLane out i frame.len) : (out.deliverLong i frame).lanes =
      Function.update out.lanes i ((out.lanes i).push ⟨frame,frame.len⟩) := by
  have hr := (reserve_eq h.1 frame.len).mpr h.2.2
  simp only [Outbound.deliverLong,hr,h.2.1,if_true]

/-- A refused delivery leaves every lane as it was, and the lane refuses from
then on. -/
theorem deliverLong_not_fits {out : Outbound Id} {i : Fin 2} {frame : Deliver}
    (h : ¬FitsLane out i frame.len) : (out.deliverLong i frame).lanes = out.lanes ∧
      Refuses (out.deliverLong i frame) i := by
  simp only [Outbound.deliverLong]
  cases hr : (reserve out.budget frame.len).1 with
  | false => exact ⟨rfl,.inl (reserve_refused hr)⟩
  | true =>
      have hb := (reserve_granted hr).1
      have hopen : (out.lanes i).isOpen = false := by
        by_contra ho
        exact h ⟨hb,by simpa using ho,(reserve_eq hb frame.len).mp hr⟩
      simp only [hopen,if_true,Bool.false_eq_true,if_false]
      exact ⟨trivial,.inr hopen⟩

theorem deliverLong_other (out : Outbound Id) {i j : Fin 2} (hj : j ≠ i) (frame : Deliver) :
    (out.deliverLong i frame).lanes j = out.lanes j := by
  by_cases h : FitsLane out i frame.len
  · rw [deliverLong_fits h,Function.update_of_ne hj]
  · rw [(deliverLong_not_fits h).1]

theorem deliverLong_refuses {out : Outbound Id} {j : Fin 2} (h : Refuses out j) (i : Fin 2)
    (frame : Deliver) : (out.deliverLong i frame).lanes j = out.lanes j := by
  by_cases hj : j = i
  · subst hj
    rw [(deliverLong_not_fits (h.not_fits _)).1]
  · exact deliverLong_other out hj frame

theorem deliverLong_bulk (out : Outbound Id) (i : Fin 2) (frame : Deliver) :
    (out.deliverLong i frame).bulk = out.bulk := by
  simp only [Outbound.deliverLong]
  split
  · split <;> rfl
  · rfl

/-- A message that is no DELIVER. -/
def NotDeliver (msg : Msg Id) : Prop := ∀ lane frame, msg ≠ .deliver lane frame

theorem accept_notDeliver (out : Outbound Id) {msg : Msg Id} (h : NotDeliver msg) :
    (out.accept msg).lanes = out.lanes ∧ (out.accept msg).bulk = out.bulk := by
  cases msg with
  | deliver lane frame => exact absurd rfl (h lane frame)
  | datagram bytes => exact ⟨rfl,rfl⟩
  | session item size =>
      simp only [Outbound.accept,Outbound.pushSession]
      split
      · split <;> exact ⟨rfl,rfl⟩
      · exact ⟨rfl,rfl⟩

theorem acceptAll_notDeliver (out : Outbound Id) {msgs : List (Msg Id)}
    (h : ∀ msg ∈ msgs, NotDeliver msg) :
    (acceptAll out msgs).lanes = out.lanes ∧ (acceptAll out msgs).bulk = out.bulk := by
  induction msgs generalizing out with
  | nil => exact ⟨rfl,rfl⟩
  | cons msg msgs ih =>
      obtain ⟨hlanes,hbulk⟩ := accept_notDeliver out (h msg List.mem_cons_self)
      rw [acceptAll_cons,← hlanes,← hbulk]
      exact ih _ fun m hm => h m (List.mem_cons_of_mem _ hm)

theorem acceptAll_refuses {out : Outbound Id} {i : Fin 2} (h : Refuses out i)
    (msgs : List (Msg Id)) : (acceptAll out msgs).lanes i = out.lanes i := by
  induction msgs generalizing out with
  | nil => rfl
  | cons msg msgs ih =>
      rw [acceptAll_cons,ih (h.later (accept_later out msg))]
      cases msg with
      | session item size =>
          have hsession : NotDeliver (.session item size : Msg Id) := nofun
          rw [(accept_notDeliver out hsession).1]
      | datagram bytes => rfl
      | deliver lane frame =>
          cases lane with
          | bulk => rfl
          | control => exact deliverLong_refuses h 0 frame
          | interactive => exact deliverLong_refuses h 1 frame

end

end KeepTalkingSfu.MemberQueues
