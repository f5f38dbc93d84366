import KeepTalkingSfu.MemberQueues
import KeepTalkingSfu.InterleavedRuns
import KeepTalkingSfu.Wakeups

/-!
# The bulk dispatcher

One task sends the deliveries of a bulk queue, each on a stream of its own, and
takes one off the queue only with a stream slot in hand. Any number of tasks push
meanwhile, and the last handle closes the queue. Every await, every critical
section and every notification is a step of its own here.
-/
namespace KeepTalkingSfu.BulkDispatch
open ByteTransport WireFormat StreamWriters MemberQueues InterleavedRuns Wakeups

variable {N M : Type}

/-- Whether a push appends its delivery, and so notifies: the queue is open and what
is on streams leaves room. -/
def appends (budget : ℕ) (state : BulkState) (frame : Deliver) : Bool :=
  !state.closed && !(0 < state.bytes-state.waitingBytes &&
    budget < state.bytes-state.waitingBytes+frame.len)

theorem push_of_not_appends {budget : ℕ} {state : BulkState} {frame : Deliver}
    (h : appends budget state frame = false) : (state.push budget frame).2 = state := by
  unfold BulkState.push
  split_ifs with hclosed
  · rfl
  · simp only
    split_ifs with hfull
    · rfl
    · simp [appends,hclosed] at h
      omega

/-- Where the dispatcher is: before a slot, at the top of `next`, with the future
made, past a look that found nothing, in the wait, with a delivery in hand, past
the end of the queue, or gone. -/
inductive Pc where
  | acquiring
  | top
  | created
  | unlocked
  | parked
  | holding (frame : Deliver)
  | leaving
  | ended
  deriving DecidableEq

/-- A slot is in the dispatcher's hands from the acquire to the spawn. -/
def Pc.slot : Pc → ℕ
  | .acquiring | .ended => 0
  | .top | .created | .unlocked | .parked | .holding _ | .leaving => 1

/-- The deliveries in the dispatcher's hands. -/
def Pc.held : Pc → List Deliver
  | .holding frame => [frame]
  | .acquiring | .top | .created | .unlocked | .parked | .leaving | .ended => []

def Pc.phase : Pc → Phase
  | .unlocked => .looked
  | .parked => .parked
  | .acquiring | .top | .created | .holding _ | .leaving | .ended => .away

/-- The queue with its notifier, the pushes and closings that have let go of the
lock and not yet notified, the dispatcher, its slots, the deliveries on streams
and the streams that are done and still have their slot. -/
structure State (N M : Type) where
  queue : BulkState
  ready : N
  notifying : ℕ
  pc : Pc
  slots : M
  sending : List Deliver
  finishing : ℕ

def State.start (ops : Notify N) (sem : Semaphore M) (maxBulkStreams : ℕ) : State N M where
  queue := .empty
  ready := ops.new
  notifying := 0
  pc := .acquiring
  slots := sem.new (max maxBulkStreams 1)
  sending := []
  finishing := 0

/-- The deliveries taken off the queue and not done. -/
def State.outstanding (s : State N M) : List Deliver := s.pc.held++s.sending

inductive Label where
  | push (topic payload : Bytes)
  | close
  | notify
  | acquire
  | create
  | check
  | park
  | wake
  | spawn
  | sent (i : ℕ)
  | release
  | leave
  deriving DecidableEq

/-- The look of the dispatcher, under the lock. -/
def check (s : State N M) : State N M :=
  match s.queue.next with
  | some (frame,queue) => { s with queue := queue, pc := .holding frame }
  | none => if s.queue.closed then { s with pc := .leaving } else { s with pc := .unlocked }

def step (ops : Notify N) (sem : Semaphore M) (budget : ℕ) (s : State N M) :
    Label → Option (State N M)
  | .push topic payload =>
      let frame := Deliver.new topic payload
      some { s with
        queue := (s.queue.push budget frame).2
        notifying := s.notifying+(if appends budget s.queue frame then 1 else 0) }
  | .close => some { s with queue := s.queue.close, notifying := s.notifying+1 }
  | .notify =>
      match s.notifying with
      | 0 => none
      | n+1 => some { s with ready := ops.notifyOne s.ready, notifying := n }
  | .acquire =>
      if s.pc = .acquiring then (sem.acquire s.slots).map fun slots =>
        { s with slots := slots, pc := .top }
      else none
  | .create => if s.pc = .top then some { s with pc := .created } else none
  | .check => if s.pc = .created then some (check s) else none
  | .park =>
      if s.pc = .unlocked then
        let (done,ready) := ops.poll s.ready
        some { s with ready := ready, pc := if done then .top else .parked }
      else none
  | .wake =>
      if s.pc = .parked ∧ ops.woken s.ready = true then
        some { s with ready := ops.resume s.ready, pc := .top }
      else none
  | .spawn =>
      match s.pc with
      | .holding frame => some { s with sending := s.sending++[frame], pc := .acquiring }
      | .acquiring | .top | .created | .unlocked | .parked | .leaving | .ended => none
  | .sent i =>
      match s.sending[i]? with
      | some frame => some { s with
          queue := s.queue.done frame.len
          sending := s.sending.eraseIdx i
          finishing := s.finishing+1 }
      | none => none
  | .release =>
      match s.finishing with
      | 0 => none
      | n+1 => some { s with slots := sem.release s.slots, finishing := n }
  | .leave =>
      if s.pc = .leaving then some { s with slots := sem.release s.slots, pc := .ended } else none

section
variable {ops : Notify N} {sem : Semaphore M} {budget : ℕ} {s s' : State N M}

/-- What a step needs, and where it leads. -/
inductive Stepped (ops : Notify N) (sem : Semaphore M) (budget : ℕ) (s : State N M) :
    Label → State N M → Prop
  | push (topic payload : Bytes) : Stepped ops sem budget s (.push topic payload) { s with
      queue := (s.queue.push budget (Deliver.new topic payload)).2
      notifying := s.notifying+(if appends budget s.queue (Deliver.new topic payload) then 1 else 0) }
  | close : Stepped ops sem budget s .close
      { s with queue := s.queue.close, notifying := s.notifying+1 }
  | notify (n : ℕ) : s.notifying = n+1 → Stepped ops sem budget s .notify
      { s with ready := ops.notifyOne s.ready, notifying := n }
  | acquire (slots : M) : s.pc = .acquiring → sem.acquire s.slots = some slots →
      Stepped ops sem budget s .acquire { s with slots := slots, pc := .top }
  | create : s.pc = .top → Stepped ops sem budget s .create { s with pc := .created }
  | check : s.pc = .created → Stepped ops sem budget s .check (check s)
  | park : s.pc = .unlocked → Stepped ops sem budget s .park { s with
      ready := (ops.poll s.ready).2
      pc := if (ops.poll s.ready).1 then .top else .parked }
  | wake : s.pc = .parked → ops.woken s.ready = true → Stepped ops sem budget s .wake
      { s with ready := ops.resume s.ready, pc := .top }
  | spawn (frame : Deliver) : s.pc = .holding frame → Stepped ops sem budget s .spawn
      { s with sending := s.sending++[frame], pc := .acquiring }
  | sent (i : ℕ) (frame : Deliver) : s.sending[i]? = some frame → Stepped ops sem budget s (.sent i)
      { s with
        queue := s.queue.done frame.len
        sending := s.sending.eraseIdx i
        finishing := s.finishing+1 }
  | release (n : ℕ) : s.finishing = n+1 → Stepped ops sem budget s .release
      { s with slots := sem.release s.slots, finishing := n }
  | leave : s.pc = .leaving → Stepped ops sem budget s .leave
      { s with slots := sem.release s.slots, pc := .ended }

theorem step_stepped {a : Label} (h : step ops sem budget s a = some s') :
    Stepped ops sem budget s a s' := by
  cases a with
  | push topic payload =>
      cases h
      exact .push topic payload
  | close =>
      cases h
      exact .close
  | notify =>
      rw [step] at h
      split at h <;> cases h
      exact .notify _ ‹_›
  | acquire =>
      rw [step] at h
      split_ifs at h with hpc
      obtain ⟨slots,hacquire,rfl⟩ := Option.map_eq_some_iff.mp h
      exact .acquire slots hpc hacquire
  | create =>
      rw [step] at h
      split_ifs at h with hpc
      cases h
      exact .create hpc
  | check =>
      rw [step] at h
      split_ifs at h with hpc
      cases h
      exact .check hpc
  | park =>
      rw [step] at h
      split_ifs at h with hpc
      cases h
      exact .park hpc
  | wake =>
      rw [step] at h
      split_ifs at h with hpc
      cases h
      exact .wake hpc.1 hpc.2
  | spawn =>
      rw [step] at h
      split at h <;> cases h
      exact .spawn _ ‹_›
  | sent i =>
      rw [step] at h
      split at h <;> cases h
      exact .sent i _ ‹_›
  | release =>
      rw [step] at h
      split at h <;> cases h
      exact .release _ ‹_›
  | leave =>
      rw [step] at h
      split_ifs at h with hpc
      cases h
      exact .leave hpc

end

/-! ### Invariants -/

/-- There is nothing for the dispatcher to do. -/
def Nothing (queue : BulkState) : Prop := queue.waiting = [] ∧ queue.closed = false

/-- The dispatcher does not sleep on work, and every slot is free or in use. -/
structure Sound (ops : Notify N) (sem : Semaphore M) (cap : ℕ) (s : State N M) : Prop where
  attentive : Attentive ops (Nothing s.queue) s.notifying s.pc.phase s.ready
  slots : sem.available s.slots+s.pc.slot+s.sending.length+s.finishing = cap

section
variable {ops : Notify N} {sem : Semaphore M} {budget cap : ℕ} {s s' : State N M}

theorem start_sound (hops : ops.Lawful) (hsem : sem.Lawful) (maxBulkStreams : ℕ) :
    Sound ops sem (max maxBulkStreams 1) (.start ops sem maxBulkStreams) where
  attentive := .new hops
  slots := by simp [State.start,Pc.slot,hsem.new_available]

/-- The look takes a delivery, sees the end, or finds nothing. -/
theorem check_sound (h : Sound ops sem cap s) (hpc : s.pc = .created) :
    Sound ops sem cap (check s) := by
  have haway := h.attentive
  have hslots := h.slots
  rw [hpc] at haway hslots
  unfold check
  cases hnext : s.queue.next with
  | some taken =>
      refine ⟨haway.quiet ?_,hslots⟩
      intro hnothing
      rw [BulkState.next,hnothing.1] at hnext
      cases hnext
  | none =>
      have hwaiting : s.queue.waiting = [] := by
        cases hw : s.queue.waiting with
        | nil => rfl
        | cons frame rest =>
            rw [BulkState.next,hw] at hnext
            cases hnext
      simp only
      split_ifs with hclosed
      · exact ⟨haway,hslots⟩
      · exact ⟨haway.look ⟨hwaiting,by simpa using hclosed⟩,hslots⟩

/-- A push notifies if it appends, and changes nothing else. -/
theorem push_attentive (h : Sound ops sem cap s) (frame : Deliver) :
    Attentive ops (Nothing (s.queue.push budget frame).2)
      (s.notifying+(if appends budget s.queue frame then 1 else 0)) s.pc.phase s.ready := by
  cases happ : appends budget s.queue frame with
  | true => exact h.attentive.change
  | false =>
      rw [push_of_not_appends happ]
      exact h.attentive

/-- Slots change hands at the acquire, the spawn, the end of a stream, its release and when the
dispatcher leaves; none is lost or made. -/
theorem step_slots (hsem : sem.Lawful) (h : Sound ops sem cap s) {a : Label}
    (hstep : Stepped ops sem budget s a s') :
    sem.available s'.slots+s'.pc.slot+s'.sending.length+s'.finishing = cap := by
  have hslots := h.slots
  cases hstep with
  | push | close | notify => exact hslots
  | acquire slots hpc hacquire =>
      have htakes := hsem.acquire_takes _ _ hacquire
      simp only [hpc,Pc.slot] at hslots ⊢
      omega
  | create hpc | wake hpc => simpa only [hpc,Pc.slot] using hslots
  | check hpc => exact (check_sound h hpc).slots
  | park hpc =>
      rw [hpc] at hslots
      cases (ops.poll s.ready).1 <;> exact hslots
  | spawn frame hpc =>
      simp only [hpc,Pc.slot,List.length_append,List.length_singleton] at hslots ⊢
      omega
  | sent i frame hi =>
      have hlt := (List.getElem?_eq_some_iff.mp hi).1
      simp only [List.length_eraseIdx_of_lt hlt]
      omega
  | release n hn =>
      simp only [hsem.release_returns]
      omega
  | leave hpc =>
      simp only [hsem.release_returns,hpc,Pc.slot] at hslots ⊢
      omega

theorem step_attentive (hops : ops.Lawful) (h : Sound ops sem cap s) {a : Label}
    (hstep : Stepped ops sem budget s a s') :
    Attentive ops (Nothing s'.queue) s'.notifying s'.pc.phase s'.ready := by
  have hattentive := h.attentive
  cases hstep with
  | push topic payload => exact push_attentive h (Deliver.new topic payload)
  | close => exact hattentive.change
  | notify n hn =>
      rw [hn] at hattentive
      exact hattentive.notify hops
  | acquire _ hpc | create hpc | spawn _ hpc | leave hpc =>
      rw [hpc] at hattentive
      exact hattentive
  | check hpc => exact (check_sound h hpc).attentive
  | park hpc =>
      rw [hpc] at hattentive
      have hpark := hattentive.park hops
      cases hready : (ops.poll s.ready).1 <;> rw [hready] at hpark <;> exact hpark
  | wake hpc hwoken =>
      rw [hpc] at hattentive
      exact hattentive.wake hops hwoken
  | sent | release => exact hattentive

theorem step_sound (hops : ops.Lawful) (hsem : sem.Lawful) (h : Sound ops sem cap s) {a : Label}
    (hstep : step ops sem budget s a = some s') : Sound ops sem cap s' :=
  ⟨step_attentive hops h (step_stepped hstep),step_slots hsem h (step_stepped hstep)⟩

theorem outstanding_le (h : Sound ops sem cap s) : s.outstanding.length ≤ cap := by
  have hheld : s.pc.held.length ≤ s.pc.slot := by
    cases s.pc <;> simp [Pc.held,Pc.slot]
  have hslots := h.slots
  rw [State.outstanding,List.length_append]
  omega

end

/-- **The bulk dispatcher never sleeps on work and respects its stream cap**: in
every interleaving, a dispatcher that is parked with no notification for it has an
empty open queue, or a push or closing is about to notify; and the deliveries taken
and not done are never more than the streams allowed. -/
theorem bulk_dispatcher_attentive (ops : Notify N) (hops : ops.Lawful) (sem : Semaphore M)
    (hsem : sem.Lawful) (budget maxBulkStreams : ℕ) (run : List Label) (s : State N M)
    (h : exec (step ops sem budget) (.start ops sem maxBulkStreams) run = some s) :
    (s.pc = .parked → ops.stored s.ready = false → ops.woken s.ready = false →
      (s.queue.waiting = [] ∧ s.queue.closed = false) ∨ 0 < s.notifying) ∧
    s.outstanding.length ≤ max 1 maxBulkStreams := by
  have hsound : Sound ops sem (max maxBulkStreams 1) s :=
    exec_invariant _ (fun s a s' hs hstep => step_sound hops hsem hs hstep)
      (start_sound hops hsem maxBulkStreams) h
  constructor
  · intro hpc hstored hwoken
    have hawake := hsound.attentive.awake
    rw [hpc] at hawake
    exact hawake nofun hstored hwoken
  · rw [max_comm]
    exact outstanding_le hsound

/-- A push between the look and the wait: the dispatcher parks on a queue that is
not empty, and the push has not notified yet. -/
theorem bulk_dispatcher_attentive_late_push :
    ∃ s, exec (step flag counter 200) (.start flag counter 0)
        [.acquire,.create,.check,.push (List.replicate 32 1) [2],.park] = some s ∧
      s.queue.waiting ≠ [] ∧ 0 < s.notifying ∧ s.outstanding.length ≤ 1 := by
  refine ⟨_,rfl,by decide,?_,?_⟩
  · have hawake := (bulk_dispatcher_attentive flag flag_lawful counter counter_lawful 200 0
      [.acquire,.create,.check,.push (List.replicate 32 1) [2],.park] _ rfl).1 rfl rfl rfl
    exact hawake.resolve_left fun hnothing => by cases hnothing.1
  · exact (bulk_dispatcher_attentive flag flag_lawful counter counter_lawful 200 0
      [.acquire,.create,.check,.push (List.replicate 32 1) [2],.park] _ rfl).2

end KeepTalkingSfu.BulkDispatch
