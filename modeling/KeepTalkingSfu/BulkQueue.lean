import KeepTalkingSfu.BufferReads
import KeepTalkingSfu.MemberQueues

/-!
# The bulk queue

Bulk deliveries wait in a queue, go onto streams one by one and count against a
byte budget until their stream is done. A delivery that does not fit drops the
oldest waiting ones, or is dropped itself when what is on streams leaves no room.

The counters are machine words. Here the operations are written with every
subtraction checked and with the way out of the dropping loop that an empty queue
takes, so that a run which gets through has had neither. Every delivery gets a
ticket when it is pushed, and its ticket is followed to where it ends up.
-/
namespace KeepTalkingSfu.BulkQueue
open ByteTransport WireFormat StreamWriters MemberQueues BufferReads

/-! ### The operations -/

/-- What would turn the bound off: a counter below zero, or a loop that finds
nothing to drop. -/
inductive Hazard where
  | underflow
  | emptyBreak
  deriving DecidableEq, Repr

def sub (a b : ℕ) : Except Hazard ℕ := if b ≤ a then .ok (a-b) else .error .underflow

def makeRoom (budget size : ℕ) : List Deliver → ℕ → ℕ → Except Hazard (ℕ × BulkState)
  | [],waitingBytes,bytes =>
      if 0 < bytes ∧ budget < bytes+size then .error .emptyBreak
      else .ok (0,⟨[],waitingBytes,bytes,false⟩)
  | oldest::rest,waitingBytes,bytes =>
      if 0 < bytes ∧ budget < bytes+size then do
        let waitingBytes ← sub waitingBytes oldest.len
        let bytes ← sub bytes oldest.len
        let (dropped,state) ← makeRoom budget size rest waitingBytes bytes
        pure (dropped+1,state)
      else .ok (0,⟨oldest::rest,waitingBytes,bytes,false⟩)

def push (budget : ℕ) (state : BulkState) (frame : Deliver) : Except Hazard (ℕ × BulkState) :=
  if state.closed then .ok (0,state)
  else do
    let onStreams ← sub state.bytes state.waitingBytes
    if 0 < onStreams ∧ budget < onStreams+frame.len then pure (1,state)
    else do
      let (dropped,room) ← makeRoom budget frame.len state.waiting state.waitingBytes state.bytes
      pure (dropped,{ room with
        waiting := room.waiting++[frame]
        waitingBytes := room.waitingBytes+frame.len
        bytes := room.bytes+frame.len })

/-- One look at the queue: a delivery, the end, or nothing yet. -/
inductive Poll where
  | frame (f : Deliver) (state : BulkState)
  | ended
  | wait
  deriving DecidableEq

def next (state : BulkState) : Except Hazard Poll :=
  match state.waiting with
  | frame::rest => do
      let waitingBytes ← sub state.waitingBytes frame.len
      pure (.frame frame { state with waiting := rest, waitingBytes := waitingBytes })
  | [] => if state.closed then .ok .ended else .ok .wait

def done (state : BulkState) (size : ℕ) : Except Hazard BulkState := do
  let bytes ← sub state.bytes size
  pure { state with bytes := bytes }

/-! ### The same queue -/

section
variable {budget size : ℕ} {state : BulkState}

theorem sub_ok {a b c : ℕ} (h : sub a b = .ok c) : c = a-b := by
  unfold sub at h
  split_ifs at h
  cases h
  rfl

theorem sub_of_le {a b : ℕ} (h : b ≤ a) : sub a b = .ok (a-b) := if_pos h

theorem makeRoom_ok {waiting : List Deliver} {waitingBytes bytes : ℕ} {x : ℕ × BulkState}
    (h : makeRoom budget size waiting waitingBytes bytes = .ok x) :
    BulkState.makeRoom budget size waiting waitingBytes bytes = x := by
  induction waiting generalizing waitingBytes bytes x with
  | nil =>
      simp only [makeRoom] at h
      split_ifs at h
      cases h
      rfl
  | cons oldest rest ih =>
      simp only [makeRoom] at h
      rw [BulkState.makeRoom]
      split_ifs at h ⊢ with hover
      · obtain ⟨wb,hwb,h⟩ := bind_eq_ok h
        obtain ⟨b,hb,h⟩ := bind_eq_ok h
        obtain ⟨y,hy,h⟩ := bind_eq_ok h
        cases h
        rw [← sub_ok hwb,← sub_ok hb,ih hy]
      · cases h
        rfl

/-- Without a hazard the operations are those of the client's queues. -/
theorem push_ok {frame : Deliver} {x : ℕ × BulkState} (h : push budget state frame = .ok x) :
    state.push budget frame = x := by
  unfold push at h
  unfold BulkState.push
  split_ifs at h ⊢ with hclosed
  · cases h
    rfl
  · obtain ⟨onStreams,hsub,h⟩ := bind_eq_ok h
    cases sub_ok hsub
    simp only
    split_ifs at h ⊢ with hfull
    · cases h
      rfl
    · obtain ⟨y,hy,h⟩ := bind_eq_ok h
      cases h
      rw [makeRoom_ok hy]

theorem next_ok {frame : Deliver} {state' : BulkState} (h : next state = .ok (.frame frame state')) :
    state.next = some (frame,state') := by
  unfold next at h
  unfold BulkState.next
  cases hw : state.waiting with
  | nil =>
      simp only [hw] at h
      split_ifs at h <;> cases h
  | cons oldest rest =>
      simp only [hw] at h
      obtain ⟨waitingBytes,hsub,h⟩ := bind_eq_ok h
      cases h
      simp only [sub_ok hsub]

theorem done_ok {state' : BulkState} (h : done state size = .ok state') : state.done size = state' := by
  obtain ⟨bytes,hsub,h⟩ := bind_eq_ok h
  cases h
  rw [BulkState.done,sub_ok hsub]

end

/-! ### Accounting -/

def total (fs : List Deliver) : ℕ := (fs.map Deliver.len).sum

@[simp] theorem total_nil : total [] = 0 := rfl

@[simp] theorem total_cons (f : Deliver) (fs : List Deliver) : total (f::fs) = f.len+total fs := by
  simp [total]

@[simp] theorem total_append (fs gs : List Deliver) : total (fs++gs) = total fs+total gs := by
  simp [total]

/-- A DELIVER has its five header bytes at least. -/
theorem deliver_len_pos (topic payload : Bytes) : 0 < (Deliver.new topic payload).len := by
  simp [Deliver.len,Deliver.new,frameHeader]

/-- The counters say what is in the queue and what is on streams; either that is
within the budget, or it is one delivery. -/
structure Accounted (budget : ℕ) (state : BulkState) (out : List Deliver) : Prop where
  waiting : state.waitingBytes = total state.waiting
  bytes : state.bytes = state.waitingBytes+total out
  positive : ∀ f ∈ state.waiting++out, 0 < f.len
  within : state.bytes ≤ budget ∨ state.waiting.length+out.length = 1

theorem total_pos_iff {fs : List Deliver} (h : ∀ f ∈ fs, 0 < f.len) : 0 < total fs ↔ fs ≠ [] := by
  cases fs with
  | nil => simp
  | cons f fs =>
      have hf := h f List.mem_cons_self
      simp only [total_cons,ne_eq,reduceCtorEq,not_false_eq_true,iff_true]
      omega

/-- With the first `k` waiting deliveries gone a new one of `size` bytes has room,
or nothing counts any more. -/
def Room (budget size onStreams : ℕ) (waiting : List Deliver) (k : ℕ) : Prop :=
  total (waiting.drop k)+onStreams = 0 ∨ total (waiting.drop k)+onStreams+size ≤ budget

/-- The loop drops the shortest part of the queue that makes room, and always
finds one when what is on streams leaves room. -/
theorem makeRoom_spec {budget size onStreams : ℕ} (hroom : onStreams = 0 ∨ onStreams+size ≤ budget)
    (waiting : List Deliver) :
    ∃ k, k ≤ waiting.length ∧ Room budget size onStreams waiting k ∧
      (∀ j < k, ¬Room budget size onStreams waiting j) ∧
      makeRoom budget size waiting (total waiting) (total waiting+onStreams) =
        .ok (k,⟨waiting.drop k,total (waiting.drop k),total (waiting.drop k)+onStreams,false⟩) := by
  induction waiting with
  | nil =>
      have hnot : ¬(0 < total []+onStreams ∧ budget < total []+onStreams+size) := by
        simp only [total_nil]
        omega
      refine ⟨0,le_rfl,?_,nofun,?_⟩
      · simp only [Room,List.drop_nil,total_nil]
        omega
      · rw [makeRoom,if_neg hnot]
        rfl
  | cons oldest rest ih =>
      by_cases hover : 0 < total (oldest::rest)+onStreams ∧
          budget < total (oldest::rest)+onStreams+size
      · obtain ⟨k,hk,hfits,hshort,hloop⟩ := ih
        refine ⟨k+1,Nat.succ_le_succ hk,hfits,?_,?_⟩
        · intro j hj
          cases j with
          | zero =>
              simp only [Room,List.drop_zero]
              omega
          | succ j => exact hshort j (Nat.lt_of_succ_lt_succ hj)
        · have hwb : sub (total (oldest::rest)) oldest.len = .ok (total rest) := by
            rw [sub_of_le (by simp),total_cons,Nat.add_sub_cancel_left]
          have hb : sub (total (oldest::rest)+onStreams) oldest.len = .ok (total rest+onStreams) := by
            rw [total_cons,sub_of_le (by omega),Nat.add_assoc,Nat.add_sub_cancel_left]
          rw [makeRoom,if_pos hover,hwb]
          change (sub (total (oldest::rest)+onStreams) oldest.len >>= _) = _
          rw [hb]
          change (makeRoom budget size rest (total rest) (total rest+onStreams) >>= _) = _
          rw [hloop]
          rfl
      · refine ⟨0,Nat.zero_le _,?_,nofun,?_⟩
        · simp only [Room,List.drop_zero]
          omega
        · rw [makeRoom,if_neg hover]
          rfl

section
variable {budget : ℕ} {state : BulkState} {out : List Deliver}

/-- What is on streams leaves no room for the delivery. -/
def Crowded (budget : ℕ) (out : List Deliver) (frame : Deliver) : Prop :=
  out ≠ [] ∧ budget < total out+frame.len

instance (frame : Deliver) : Decidable (Crowded budget out frame) := inferInstanceAs (Decidable (_ ∧ _))

/-- The queue with its first `k` deliveries gone and a new one at its end. -/
def pushed (state : BulkState) (out : List Deliver) (k : ℕ) (frame : Deliver) : BulkState where
  waiting := state.waiting.drop k++[frame]
  waitingBytes := total (state.waiting.drop k)+frame.len
  bytes := total (state.waiting.drop k)+total out+frame.len
  closed := false

/-- What a push on an open queue does: it drops the new delivery, or appends it
after dropping the shortest part of the queue that makes room. -/
def PushOutcome (budget : ℕ) (state : BulkState) (out : List Deliver) (frame : Deliver) : Prop :=
  (Crowded budget out frame ∧ push budget state frame = .ok (1,state)) ∨
  (¬Crowded budget out frame ∧ ∃ k, k ≤ state.waiting.length ∧
    Room budget frame.len (total out) state.waiting k ∧
    (∀ j < k, ¬Room budget frame.len (total out) state.waiting j) ∧
    push budget state frame = .ok (k,pushed state out k frame))

theorem push_spec (h : Accounted budget state out) (hopen : state.closed = false) (frame : Deliver) :
    PushOutcome budget state out frame := by
  have hsub : sub state.bytes state.waitingBytes = .ok (total out) := by
    rw [h.bytes,sub_of_le (Nat.le_add_right _ _),Nat.add_sub_cancel_left]
  have hpos : 0 < total out ↔ out ≠ [] :=
    total_pos_iff fun f hf => h.positive f (List.mem_append_right _ hf)
  have hpush : push budget state frame =
      if 0 < total out ∧ budget < total out+frame.len then .ok (1,state)
      else makeRoom budget frame.len state.waiting state.waitingBytes state.bytes >>= fun x =>
        .ok (x.1,{ x.2 with
          waiting := x.2.waiting++[frame]
          waitingBytes := x.2.waitingBytes+frame.len
          bytes := x.2.bytes+frame.len }) := by
    rw [push,if_neg (by simp [hopen]),hsub]
    rfl
  rw [PushOutcome,hpush]
  by_cases hfull : 0 < total out ∧ budget < total out+frame.len
  · exact .inl ⟨⟨hpos.mp hfull.1,hfull.2⟩,if_pos hfull⟩
  · refine .inr ⟨fun hc => hfull ⟨hpos.mpr hc.1,hc.2⟩,?_⟩
    have hleft : total out = 0 ∨ total out+frame.len ≤ budget := by omega
    obtain ⟨k,hk,hfits,hshort,hloop⟩ := makeRoom_spec hleft state.waiting
    refine ⟨k,hk,hfits,hshort,?_⟩
    rw [if_neg hfull,h.bytes,h.waiting,hloop]
    rfl

theorem pushed_accounted (h : Accounted budget state out) {frame : Deliver} (hframe : 0 < frame.len)
    {k : ℕ} (hk : Room budget frame.len (total out) state.waiting k) :
    Accounted budget (pushed state out k frame) out where
  waiting := by simp [pushed]
  bytes := by
    simp only [pushed]
    omega
  positive := by
    intro f hf
    simp only [pushed,List.append_assoc,List.mem_append,List.mem_singleton] at hf
    rcases hf with hf | rfl | hf
    · exact h.positive f (List.mem_append_left _ (List.mem_of_mem_drop hf))
    · exact hframe
    · exact h.positive f (List.mem_append_right _ hf)
  within := by
    rcases hk with hempty | hfits
    · right
      have hwaiting : ¬0 < total (state.waiting.drop k) := by omega
      have hout : ¬0 < total out := by omega
      rw [total_pos_iff fun f hf =>
        h.positive f (List.mem_append_left _ (List.mem_of_mem_drop hf)),not_not] at hwaiting
      rw [total_pos_iff fun f hf => h.positive f (List.mem_append_right _ hf),not_not] at hout
      simp [pushed,hwaiting,hout]
    · left
      simp only [pushed]
      omega

/-- A delivery that is taken goes on counting. -/
theorem next_frame (h : Accounted budget state out) {frame : Deliver} {rest : List Deliver}
    (hw : state.waiting = frame::rest) :
    next state = .ok (.frame frame { state with waiting := rest, waitingBytes := total rest }) ∧
      Accounted budget { state with waiting := rest, waitingBytes := total rest }
        (out++[frame]) := by
  have hsub : sub state.waitingBytes frame.len = .ok (total rest) := by
    rw [h.waiting,hw,total_cons,sub_of_le (by omega),Nat.add_sub_cancel_left]
  constructor
  · simp only [next,hw,hsub]
    rfl
  · constructor
    · rfl
    · simp only [h.bytes,h.waiting,hw,total_cons,total_append,total_nil]
      omega
    · intro f hf
      apply h.positive f
      simp only [List.mem_append,hw,List.mem_cons] at hf ⊢
      tauto
    · have hwithin := h.within
      simp only [hw,List.length_cons,List.length_append,List.length_nil] at hwithin ⊢
      omega

theorem next_empty (hw : state.waiting = []) :
    next state = .ok (if state.closed then .ended else .wait) := by
  simp only [next,hw]
  split_ifs <;> rfl

theorem total_eraseIdx {i : ℕ} {frame : Deliver} (hi : out[i]? = some frame) :
    total out = frame.len+total (out.eraseIdx i) := by
  induction out generalizing i with
  | nil => cases hi
  | cons f fs ih =>
      cases i with
      | zero =>
          cases hi
          simp
      | succ i =>
          rw [List.getElem?_cons_succ] at hi
          rw [List.eraseIdx_cons_succ,total_cons,total_cons,ih hi]
          omega

/-- A delivery whose stream is over counts no longer. -/
theorem done_spec (h : Accounted budget state out) {i : ℕ} {frame : Deliver}
    (hi : out[i]? = some frame) :
    done state frame.len = .ok { state with bytes := state.bytes-frame.len } ∧
      Accounted budget { state with bytes := state.bytes-frame.len } (out.eraseIdx i) := by
  have hout := total_eraseIdx hi
  have hbytes := h.bytes
  constructor
  · rw [done,sub_of_le (by omega)]
    rfl
  · constructor
    · exact h.waiting
    · simp only
      omega
    · intro f hf
      apply h.positive f
      rcases List.mem_append.mp hf with hf | hf
      · exact List.mem_append_left _ hf
      · exact List.mem_append_right _ (List.mem_of_mem_eraseIdx hf)
    · have hlen : (out.eraseIdx i).length = out.length-1 :=
        List.length_eraseIdx_of_lt (List.getElem?_eq_some_iff.mp hi).1
      have hlt := (List.getElem?_eq_some_iff.mp hi).1
      rcases h.within with hle | hone
      · left
        simp only
        omega
      · -- the one delivery there was is gone
        left
        have hw : state.waiting = [] := List.length_eq_zero_iff.mp (by omega)
        have he : out.eraseIdx i = [] := List.length_eq_zero_iff.mp (by omega)
        have hwb := h.waiting
        rw [hw,total_nil] at hwb
        rw [he,total_nil] at hout
        simp only
        omega

theorem close_accounted (h : Accounted budget state out) : Accounted budget state.close out :=
  ⟨h.waiting,h.bytes,h.positive,h.within⟩

end

theorem push_closed {budget : ℕ} {state : BulkState} (h : state.closed = true) (frame : Deliver) :
    push budget state frame = .ok (0,state) := if_pos h

/-! ### Runs -/

/-- The calls made on a queue. A delivery whose stream is over is named by its
place among those on streams. -/
inductive Op where
  | push (topic payload : Bytes)
  | next
  | done (i : ℕ)
  | close
  deriving DecidableEq

/-- A queue and where every delivery pushed before its closing went. A ticket is
the place of a delivery among those pushed. -/
structure Tracked where
  queue : BulkState
  pushed : List Deliver
  waiting : List ℕ
  returned : List ℕ
  dropped : List ℕ
  handed : List Deliver
  onStreams : List Deliver
  reported : ℕ

def Tracked.start : Tracked := ⟨.empty,[],[],[],[],[],[],0⟩

/-- A push: the loop takes tickets off the front of the queue, the new one goes to
the end of it or is dropped. -/
def Tracked.push (budget : ℕ) (t : Tracked) (frame : Deliver) : Except Hazard Tracked := do
  let (dropped,queue) ← BulkQueue.push budget t.queue frame
  let t' := { t with queue := queue, reported := t.reported+dropped }
  if t.queue.closed then pure t'
  else if Crowded budget t.onStreams frame then
    pure { t' with pushed := t.pushed++[frame], dropped := t.dropped++[t.pushed.length] }
  else
    pure { t' with
      pushed := t.pushed++[frame]
      waiting := t.waiting.drop dropped++[t.pushed.length]
      dropped := t.dropped++t.waiting.take dropped }

def Tracked.next (t : Tracked) : Except Hazard Tracked := do
  match ← BulkQueue.next t.queue with
  | .frame frame queue =>
      pure { t with
        queue := queue
        waiting := t.waiting.drop 1
        returned := t.returned++t.waiting.take 1
        handed := t.handed++[frame]
        onStreams := t.onStreams++[frame] }
  | .ended | .wait => pure t

def Tracked.step (budget : ℕ) (t : Tracked) : Op → Except Hazard Tracked
  | .push topic payload => t.push budget (Deliver.new topic payload)
  | .next => t.next
  | .done i =>
      match t.onStreams[i]? with
      | some frame => do
          let queue ← BulkQueue.done t.queue frame.len
          pure { t with queue := queue, onStreams := t.onStreams.eraseIdx i }
      | none => pure t
  | .close => pure { t with queue := t.queue.close }

def run (budget : ℕ) (ops : List Op) : Except Hazard Tracked := ops.foldlM (Tracked.step budget) .start

/-- The deliveries the tickets stand for. -/
def Stands (pushed : List Deliver) (tickets : List ℕ) (fs : List Deliver) : Prop :=
  tickets.map (fun n => pushed[n]?) = fs.map some

theorem Stands.length {pushed : List Deliver} {tickets : List ℕ} {fs : List Deliver}
    (h : Stands pushed tickets fs) : tickets.length = fs.length := by
  simpa using congrArg List.length h

theorem Stands.append {pushed : List Deliver} {ns ms : List ℕ} {fs gs : List Deliver}
    (h : Stands pushed ns fs) (h' : Stands pushed ms gs) : Stands pushed (ns++ms) (fs++gs) := by
  unfold Stands at h h' ⊢
  rw [List.map_append,List.map_append,h,h']

theorem Stands.drop {pushed : List Deliver} {ns : List ℕ} {fs : List Deliver}
    (h : Stands pushed ns fs) (k : ℕ) : Stands pushed (ns.drop k) (fs.drop k) := by
  unfold Stands at h ⊢
  rw [List.map_drop,h,List.map_drop]

theorem Stands.take {pushed : List Deliver} {ns : List ℕ} {fs : List Deliver}
    (h : Stands pushed ns fs) (k : ℕ) : Stands pushed (ns.take k) (fs.take k) := by
  unfold Stands at h ⊢
  rw [List.map_take,h,List.map_take]

/-- A later push changes no ticket. -/
theorem Stands.grow {pushed : List Deliver} {ns : List ℕ} {fs : List Deliver}
    (h : Stands pushed ns fs) (frame : Deliver) : Stands (pushed++[frame]) ns fs := by
  induction ns generalizing fs with
  | nil => exact h
  | cons n ns ih =>
      cases fs with
      | nil => cases h
      | cons f fs =>
          obtain ⟨hn,hns⟩ := List.cons.inj h
          change pushed[n]? = some f at hn
          have hlt : n < pushed.length := (List.getElem?_eq_some_iff.mp hn).1
          unfold Stands
          rw [List.map_cons,List.map_cons,List.getElem?_append_left hlt,hn]
          exact congrArg _ (ih hns)

theorem stands_last (pushed : List Deliver) (frame : Deliver) :
    Stands (pushed++[frame]) [pushed.length] [frame] := by
  simp [Stands]

/-- Every ticket has one place, tickets leave the queue in order, and the places
hold what the queue holds and has handed out. -/
structure Placed (t : Tracked) : Prop where
  fates : (t.returned++t.waiting++t.dropped).Perm (List.range t.pushed.length)
  order : (t.returned++t.waiting).Pairwise (· < ·)
  waiting : Stands t.pushed t.waiting t.queue.waiting
  returned : Stands t.pushed t.returned t.handed
  reported : t.reported = t.dropped.length

/-- Tickets are numbered by the pushes so far. -/
theorem Placed.lt {t : Tracked} (h : Placed t) {n : ℕ} (hn : n ∈ t.returned++t.waiting) :
    n < t.pushed.length := by
  rw [← List.mem_range,← h.fates.mem_iff]
  exact List.mem_append_left _ hn

theorem Placed.refused {t : Tracked} (h : Placed t) (frame : Deliver) :
    Placed { t with
      pushed := t.pushed++[frame]
      dropped := t.dropped++[t.pushed.length]
      reported := t.reported+1 } where
  fates := by
    simp only [List.length_append,List.length_singleton,List.range_succ]
    rw [← List.append_assoc]
    exact h.fates.append_right _
  order := h.order
  waiting := h.waiting.grow frame
  returned := h.returned.grow frame
  reported := by simp [h.reported]

theorem Placed.appended {t : Tracked} (h : Placed t) (out : List Deliver) (frame : Deliver) {k : ℕ}
    (hk : k ≤ t.queue.waiting.length) :
    Placed { t with
      queue := BulkQueue.pushed t.queue out k frame
      pushed := t.pushed++[frame]
      waiting := t.waiting.drop k++[t.pushed.length]
      dropped := t.dropped++t.waiting.take k
      reported := t.reported+k } where
  fates := by
    have hfates := h.fates
    rw [List.perm_iff_count] at hfates ⊢
    intro n
    have hn := hfates n
    have hsplit : t.waiting.count n = (t.waiting.take k).count n+(t.waiting.drop k).count n := by
      rw [← List.count_append,List.take_append_drop]
    simp only [List.length_append,List.length_singleton,List.range_succ,List.count_append] at hn ⊢
    omega
  order := by
    have hsub : (t.returned++t.waiting.drop k).Sublist (t.returned++t.waiting) :=
      (List.Sublist.refl _).append (List.drop_sublist k _)
    rw [← List.append_assoc,List.pairwise_append]
    refine ⟨h.order.sublist hsub,List.pairwise_singleton _ _,?_⟩
    intro n hn m hm
    rw [List.mem_singleton.mp hm]
    exact h.lt (hsub.mem hn)
  waiting := (h.waiting.grow frame).drop k |>.append (stands_last t.pushed frame)
  returned := h.returned.grow frame
  reported := by
    have hlen := h.waiting.length
    simp only [List.length_append,List.length_take,h.reported]
    omega

theorem Placed.taken {t : Tracked} (h : Placed t) {frame : Deliver} {rest : List Deliver}
    (hw : t.queue.waiting = frame::rest) (n : ℕ) :
    Placed { t with
      queue := { t.queue with waiting := rest, waitingBytes := n }
      waiting := t.waiting.drop 1
      returned := t.returned++t.waiting.take 1
      handed := t.handed++[frame]
      onStreams := t.onStreams++[frame] } := by
  have hsplit : t.returned++t.waiting.take 1++t.waiting.drop 1 = t.returned++t.waiting := by
    rw [List.append_assoc,List.take_append_drop]
  have hwaiting := h.waiting
  rw [hw] at hwaiting
  constructor
  · rw [hsplit]
    exact h.fates
  · rw [hsplit]
    exact h.order
  · exact hwaiting.drop 1
  · exact h.returned.append (hwaiting.take 1)
  · exact h.reported

/-- Tickets stay where they are while the queue keeps what is waiting. -/
theorem Placed.requeued {t : Tracked} (h : Placed t) (queue : BulkState) (onStreams : List Deliver)
    (hw : queue.waiting = t.queue.waiting) :
    Placed { t with queue := queue, onStreams := onStreams } := by
  refine ⟨h.fates,h.order,?_,h.returned,h.reported⟩
  simp only [hw]
  exact h.waiting

/-- The counters are right and every ticket is in its place. -/
structure Good (budget : ℕ) (t : Tracked) : Prop where
  accounted : Accounted budget t.queue t.onStreams
  placed : Placed t

theorem start_good (budget : ℕ) : Good budget .start where
  accounted := ⟨rfl,rfl,nofun,.inl (Nat.zero_le _)⟩
  placed := ⟨.refl _,.nil,rfl,rfl,rfl⟩

/-- Everything a call can do to a queue whose counters are right. -/
inductive Stepped (budget : ℕ) (t : Tracked) : Op → Tracked → Prop
  | pushClosed (topic payload : Bytes) : t.queue.closed = true →
      Stepped budget t (.push topic payload) t
  | pushRefused (topic payload : Bytes) : t.queue.closed = false →
      Stepped budget t (.push topic payload)
        { t with
          pushed := t.pushed++[Deliver.new topic payload]
          dropped := t.dropped++[t.pushed.length]
          reported := t.reported+1 }
  | pushed (topic payload : Bytes) (k : ℕ) : t.queue.closed = false →
      k ≤ t.queue.waiting.length →
      Room budget (Deliver.new topic payload).len (total t.onStreams) t.queue.waiting k →
      Stepped budget t (.push topic payload)
        { t with
          queue := BulkQueue.pushed t.queue t.onStreams k (Deliver.new topic payload)
          pushed := t.pushed++[Deliver.new topic payload]
          waiting := t.waiting.drop k++[t.pushed.length]
          dropped := t.dropped++t.waiting.take k
          reported := t.reported+k }
  | taken (frame : Deliver) (rest : List Deliver) : t.queue.waiting = frame::rest →
      Stepped budget t .next
        { t with
          queue := { t.queue with waiting := rest, waitingBytes := total rest }
          waiting := t.waiting.drop 1
          returned := t.returned++t.waiting.take 1
          handed := t.handed++[frame]
          onStreams := t.onStreams++[frame] }
  | nothing : t.queue.waiting = [] → Stepped budget t .next t
  | done (i : ℕ) (frame : Deliver) : t.onStreams[i]? = some frame →
      Stepped budget t (.done i)
        { t with
          queue := { t.queue with bytes := t.queue.bytes-frame.len }
          onStreams := t.onStreams.eraseIdx i }
  | notOut (i : ℕ) : t.onStreams[i]? = none → Stepped budget t (.done i) t
  | close : Stepped budget t .close { t with queue := t.queue.close }

section
variable {budget : ℕ} {t t' : Tracked} {op : Op}

theorem push_stepped (h : Accounted budget t.queue t.onStreams) (topic payload : Bytes) :
    ∃ t', t.push budget (Deliver.new topic payload) = .ok t' ∧
      Stepped budget t (.push topic payload) t' := by
  set frame := Deliver.new topic payload with hframe
  cases hclosed : t.queue.closed with
  | true =>
      refine ⟨t,?_,.pushClosed topic payload hclosed⟩
      rw [Tracked.push,push_closed hclosed]
      exact if_pos hclosed
  | false =>
      have hstep : ∀ x, BulkQueue.push budget t.queue frame = .ok x → t.push budget frame =
          if Crowded budget t.onStreams frame then
            .ok { t with
              queue := x.2
              pushed := t.pushed++[frame]
              dropped := t.dropped++[t.pushed.length]
              reported := t.reported+x.1 }
          else
            .ok { t with
              queue := x.2
              pushed := t.pushed++[frame]
              waiting := t.waiting.drop x.1++[t.pushed.length]
              dropped := t.dropped++t.waiting.take x.1
              reported := t.reported+x.1 } := by
        intro x hx
        rw [Tracked.push,hx]
        change (if t.queue.closed = true then _ else _) = _
        rw [if_neg (by simp [hclosed])]
        rfl
      rcases push_spec h hclosed frame with ⟨hcrowded,hpush⟩ | ⟨hroom,k,hk,hfits,-,hpush⟩
      · exact ⟨_,(hstep _ hpush).trans (if_pos hcrowded),.pushRefused topic payload hclosed⟩
      · exact ⟨_,(hstep _ hpush).trans (if_neg hroom),.pushed topic payload k hclosed hk hfits⟩

/-- Every call gets through, and does one of these. -/
theorem step_stepped (h : Accounted budget t.queue t.onStreams) (op : Op) :
    ∃ t', t.step budget op = .ok t' ∧ Stepped budget t op t' := by
  cases op with
  | push topic payload => exact push_stepped h topic payload
  | next =>
      cases hw : t.queue.waiting with
      | nil =>
          refine ⟨t,?_,.nothing hw⟩
          rw [Tracked.step,Tracked.next,next_empty hw]
          cases t.queue.closed <;> rfl
      | cons frame rest =>
          refine ⟨_,?_,.taken frame rest hw⟩
          rw [Tracked.step,Tracked.next,(next_frame h hw).1]
          rfl
  | done i =>
      cases hi : t.onStreams[i]? with
      | none => exact ⟨t,by simp only [Tracked.step,hi]; rfl,.notOut i hi⟩
      | some frame =>
          refine ⟨_,?_,.done i frame hi⟩
          simp only [Tracked.step,hi,(done_spec h hi).1]
          rfl
  | close => exact ⟨_,rfl,.close⟩

theorem Stepped.good (hstep : Stepped budget t op t') (h : Good budget t) : Good budget t' := by
  cases hstep with
  | pushClosed | nothing | notOut => exact h
  | pushRefused => exact ⟨h.accounted,h.placed.refused _⟩
  | pushed topic payload k hopen hk hfits =>
      exact ⟨pushed_accounted h.accounted (deliver_len_pos topic payload) hfits,
        h.placed.appended t.onStreams _ hk⟩
  | taken frame rest hw => exact ⟨(next_frame h.accounted hw).2,h.placed.taken hw _⟩
  | done i frame hi => exact ⟨(done_spec h.accounted hi).2,h.placed.requeued _ _ rfl⟩
  | close => exact ⟨close_accounted h.accounted,h.placed.requeued _ _ rfl⟩

end

theorem foldlM_good {budget : ℕ} {t : Tracked} (h : Good budget t) (ops : List Op) :
    ∃ t', ops.foldlM (Tracked.step budget) t = .ok t' ∧ Good budget t' := by
  induction ops generalizing t with
  | nil => exact ⟨t,rfl,h⟩
  | cons op ops ih =>
      obtain ⟨t₁,hstep,hstepped⟩ := step_stepped h.accounted op
      obtain ⟨t₂,hrun,h₂⟩ := ih (hstepped.good h)
      refine ⟨t₂,?_,h₂⟩
      rw [List.foldlM_cons,hstep]
      exact hrun

theorem run_good (budget : ℕ) (ops : List Op) : ∃ t, run budget ops = .ok t ∧ Good budget t :=
  foldlM_good (start_good budget) ops

/-- **Bulk queue accounting**: after any calls in any order the counters are the
sums they stand for, nothing underflowed and the dropping loop never ran dry, and
what counts is within the budget or is one delivery. -/
theorem bulk_queue_accounting (budget : ℕ) (ops : List Op) :
    ∃ t, run budget ops = .ok t ∧
      t.queue.waitingBytes = total t.queue.waiting ∧
      t.queue.bytes = t.queue.waitingBytes+total t.onStreams ∧
      (t.queue.bytes ≤ budget ∨ t.queue.waiting.length+t.onStreams.length = 1) := by
  obtain ⟨t,hrun,hgood⟩ := run_good budget ops
  exact ⟨t,hrun,hgood.accounted.waiting,hgood.accounted.bytes,hgood.accounted.within⟩

/-- The deliveries pushed before the first closing. -/
def pushes : List Op → List Deliver
  | [] => []
  | .push topic payload::ops => Deliver.new topic payload::pushes ops
  | .close::_ => []
  | .next::ops | .done _::ops => pushes ops

theorem Stepped.pushes {budget : ℕ} {t t' : Tracked} {op : Op} (h : Stepped budget t op t') :
    t'.pushed = t.pushed++(if t.queue.closed then [] else BulkQueue.pushes [op]) ∧
      t'.queue.closed = (t.queue.closed || op == .close) := by
  cases h with
  | pushClosed topic payload hclosed => simp [hclosed]
  | pushRefused topic payload hopen => simp [hopen,BulkQueue.pushes]
  | pushed topic payload k hopen => simp [hopen,BulkQueue.pushes,BulkQueue.pushed]
  | taken | nothing | done | notOut | close => simp [BulkQueue.pushes,BulkState.close]

theorem pushes_cons (op : Op) (ops : List Op) :
    pushes (op::ops) = pushes [op]++(if op == .close then [] else pushes ops) := by
  cases op <;> rfl

/-- The tickets are those of the deliveries pushed before the closing. -/
theorem foldlM_pushed {budget : ℕ} {t t' : Tracked} (hgood : Good budget t) {ops : List Op}
    (h : ops.foldlM (Tracked.step budget) t = .ok t') :
    t'.pushed = t.pushed++(if t.queue.closed then [] else pushes ops) := by
  induction ops generalizing t with
  | nil =>
      cases h
      simp [pushes]
  | cons op ops ih =>
      rw [List.foldlM_cons] at h
      obtain ⟨t₁,hstep,h⟩ := bind_eq_ok h
      obtain ⟨t₂,hstep',hstepped⟩ := step_stepped hgood.accounted op
      cases hstep.symm.trans hstep'
      obtain ⟨hpushed,hclosed⟩ := hstepped.pushes
      rw [ih (hstepped.good hgood) h,hpushed,hclosed,pushes_cons op ops]
      cases t.queue.closed <;> simp

/-! ### Closing -/

/-- `t'` is `t`, a closed queue, after `n` more looks at it. -/
structure Drained (t t' : Tracked) (n : ℕ) : Prop where
  closed : t'.queue.closed = true
  waiting : t'.queue.waiting = t.queue.waiting.drop n
  handed : t'.handed = t.handed++t.queue.waiting.take n

theorem drained_refl {t : Tracked} (h : t.queue.closed = true) : Drained t t 0 :=
  ⟨h,rfl,(List.append_nil _).symm⟩

theorem Drained.trans {t₁ t₂ t₃ : Tracked} {n m : ℕ} (h : Drained t₁ t₂ n) (h' : Drained t₂ t₃ m) :
    Drained t₁ t₃ (n+m) where
  closed := h'.closed
  waiting := by rw [h'.waiting,h.waiting,List.drop_drop]
  handed := by rw [h'.handed,h.handed,h.waiting,List.append_assoc,← List.take_add]

/-- On a closed queue only looks at it move deliveries. -/
theorem Stepped.drained {budget : ℕ} {t t' : Tracked} {op : Op} (h : Stepped budget t op t')
    (hclosed : t.queue.closed = true) : Drained t t' ([op].count .next) := by
  cases h with
  | pushClosed | notOut => exact drained_refl hclosed
  | pushRefused topic payload hopen => simp [hopen] at hclosed
  | pushed topic payload k hopen => simp [hopen] at hclosed
  | taken frame rest hw => exact ⟨hclosed,by simp [hw],by simp [hw]⟩
  | nothing hw => exact ⟨hclosed,by simp [hw],by simp [hw]⟩
  | done => exact ⟨hclosed,rfl,(List.append_nil _).symm⟩
  | close => exact ⟨rfl,rfl,(List.append_nil _).symm⟩

theorem foldlM_drained {budget : ℕ} {t : Tracked} (hgood : Good budget t)
    (hclosed : t.queue.closed = true) (ops : List Op) :
    ∃ t', ops.foldlM (Tracked.step budget) t = .ok t' ∧ Drained t t' (ops.count .next) := by
  induction ops generalizing t with
  | nil => exact ⟨t,rfl,drained_refl hclosed⟩
  | cons op ops ih =>
      obtain ⟨t₁,hstep,hstepped⟩ := step_stepped hgood.accounted op
      have hfirst := hstepped.drained hclosed
      obtain ⟨t₂,hrun,hrest⟩ := ih (hstepped.good hgood) hfirst.closed
      refine ⟨t₂,?_,?_⟩
      · rw [List.foldlM_cons,hstep]
        exact hrun
      · rw [← List.singleton_append,List.count_append]
        exact hfirst.trans hrest

/-- **Bulk queue delivery discipline**: every delivery pushed before the closing is
waiting, returned or dropped, and only one of these; what waits and what was
returned is in push order; a push drops what it has to and counts it; and after
the closing the queue drains whatever else is called. -/
theorem bulk_delivery_discipline (budget : ℕ) (ops : List Op) :
    ∃ t, run budget ops = .ok t ∧
      t.pushed = pushes ops ∧
      (t.returned++t.waiting++t.dropped).Perm (List.range t.pushed.length) ∧
      Stands t.pushed t.waiting t.queue.waiting ∧
      Stands t.pushed t.returned t.handed ∧
      (t.returned++t.waiting).Pairwise (· < ·) ∧
      (t.queue.closed = false → ∀ frame, PushOutcome budget t.queue t.onStreams frame) ∧
      t.reported = t.dropped.length ∧
      ∀ more, ∃ t', run budget (ops++.close::more) = .ok t' ∧
        (∀ frame, push budget t'.queue frame = .ok (0,t'.queue)) ∧
        t'.handed = t.handed++t.queue.waiting.take (more.count .next) ∧
        (t.queue.waiting.length ≤ more.count .next → next t'.queue = .ok .ended) := by
  obtain ⟨t,hrun,hgood⟩ := run_good budget ops
  have hpushed : t.pushed = pushes ops := foldlM_pushed (start_good budget) hrun
  refine ⟨t,hrun,hpushed,hgood.placed.fates,hgood.placed.waiting,hgood.placed.returned,hgood.placed.order,
    fun hopen frame => push_spec hgood.accounted hopen frame,hgood.placed.reported,?_⟩
  intro more
  obtain ⟨t',hmore,hdrained⟩ := foldlM_drained (Stepped.close.good hgood) rfl more
  refine ⟨t',?_,fun frame => push_closed hdrained.closed frame,hdrained.handed,?_⟩
  · unfold run at hrun ⊢
    rw [List.foldlM_append,hrun]
    exact hmore
  · intro hall
    have hempty : t'.queue.waiting = [] := by
      rw [hdrained.waiting]
      exact List.drop_eq_nil_of_le hall
    rw [next_empty hempty,hdrained.closed]
    rfl

end KeepTalkingSfu.BulkQueue
