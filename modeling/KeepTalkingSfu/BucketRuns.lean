import KeepTalkingSfu.FloodBound
import Mathlib.Algebra.BigOperators.Ring.Finset

/-!
# What the publish bucket lets through

The session reader and the lane readers of a connection share one bucket behind a
lock, so the calls on it are a list with later and later times, whatever the
readers' steps are interleaved with. In every window the calls that are accepted
are at most the burst and the rate over the window. In bytes a frame larger than
the burst goes through a full bucket and leaves it in debt; it can be only the last
of a window that exceeds what the bucket holds, so one such frame is all that comes
on top.
-/
namespace KeepTalkingSfu.BucketRuns
open ByteTransport WireFormat MemberQueues TokenBucket TokenWindow FloodBound Server StepCases
  ServerEffects RoomInvariant TaskSteps InterleavedRuns

/-- A call of `try_take`. -/
structure Call where
  len : ℕ
  now : ℕ
  deriving DecidableEq

section
variable {F : Type} [Scalar F]

/-- The bucket after some calls. -/
def after : Bucket F → List Call → Bucket F
  | b,[] => b
  | b,c::cs => after (b.tryTake c.len c.now).2 cs

/-- The calls that are accepted. -/
def accepted : Bucket F → List Call → List Call
  | _,[] => []
  | b,c::cs =>
      if (b.tryTake c.len c.now).1 then c::accepted (b.tryTake c.len c.now).2 cs
      else accepted (b.tryTake c.len c.now).2 cs

theorem after_append (b : Bucket F) (cs ds : List Call) :
    after b (cs++ds) = after (after b cs) ds := by
  induction cs generalizing b with
  | nil => rfl
  | cons c cs ih => exact ih _

theorem accepted_append (b : Bucket F) (cs ds : List Call) :
    accepted b (cs++ds) = accepted b cs++accepted (after b cs) ds := by
  induction cs generalizing b with
  | nil => rfl
  | cons c cs ih =>
      rw [List.cons_append,accepted,accepted,ih]
      split_ifs <;> rfl

end

/-- The calls of a window. -/
def during (s e : ℕ) (cs : List Call) : List Call := cs.filter fun c => s ≤ c.now ∧ c.now ≤ e

def totalLen (cs : List Call) : ℕ := (cs.map Call.len).sum

def longest (cs : List Call) : ℕ := (cs.map Call.len).foldr max 0

theorem le_longest {cs : List Call} {c : Call} (h : c ∈ cs) : c.len ≤ longest cs := by
  induction cs with
  | nil => cases h
  | cons d cs ih =>
      rcases List.mem_cons.mp h with rfl | h
      · exact le_max_left _ _
      · exact (ih h).trans (le_max_right _ _)

/-- Calls from a time on, at later and later times. -/
def Ordered (start : ℕ) (cs : List Call) : Prop := (start::cs.map Call.now).Pairwise (· ≤ ·)

instance (start : ℕ) (cs : List Call) : Decidable (Ordered start cs) :=
  inferInstanceAs (Decidable (List.Pairwise _ _))

theorem Ordered.cons {start : ℕ} {c : Call} {cs : List Call} (h : Ordered start (c::cs)) :
    start ≤ c.now ∧ Ordered c.now cs := by
  rw [Ordered,List.map_cons,List.pairwise_cons] at h
  exact ⟨h.1 _ List.mem_cons_self,h.2⟩

/-- The bounds of a bucket that starts full. -/
structure Bounded (q : Rate ℚ≥0) (start : ℕ) (calls : List Call) : Prop where
  frames : ∀ s e, ((during s e (accepted (.new (exact q) start) calls)).length : ℚ) ≤
    q.burstFrames+q.framesPerSecond*((e-s : ℕ)/ticks)
  bytes : ∀ s e, (totalLen (during s e (accepted (.new (exact q) start) calls)) : ℚ) ≤
    max (q.burstBytes : ℚ) (longest (during s e (accepted (.new (exact q) start) calls)))+
      q.bytesPerSecond*((e-s : ℕ)/ticks)
  levels : ∀ done, done <+: calls → ∃ bytes frames last,
    after (.new (exact q) start) done = ⟨exact q,.finite bytes,.finite frames,last⟩ ∧
    bytes ≤ q.burstBytes ∧ frames ≤ q.burstFrames ∧
    min 0 ((q.burstBytes : ℚ)-longest (accepted (.new (exact q) start) done)) ≤ bytes

section
variable {q : Rate ℚ≥0} {x y : ℚ} {last : ℕ}

/-! ### One call -/

/-- A bucket with exact levels. -/
def holding (q : Rate ℚ≥0) (x y : ℚ) (last : ℕ) : Bucket Level := ⟨exact q,.finite x,.finite y,last⟩

/-- What a call does to the levels. -/
inductive Took (q : Rate ℚ≥0) (x y : ℚ) (last : ℕ) (c : Call) : Bool → ℚ → ℚ → Prop
  | denied : Took q x y last c false
      (refilled (q.bytesPerSecond/ticks) q.burstBytes x (c.now-last))
      (refilled (q.framesPerSecond/ticks) q.burstFrames y (c.now-last))
  | granted : 1 ≤ refilled (q.framesPerSecond/ticks) q.burstFrames y (c.now-last) →
      min (c.len : ℚ) q.burstBytes ≤
        refilled (q.bytesPerSecond/ticks) q.burstBytes x (c.now-last) →
      Took q x y last c true
        (refilled (q.bytesPerSecond/ticks) q.burstBytes x (c.now-last)-c.len)
        (refilled (q.framesPerSecond/ticks) q.burstFrames y (c.now-last)-1)

theorem tryTake_took (q : Rate ℚ≥0) (x y : ℚ) (last : ℕ) (c : Call) : ∃ ok x' y',
    (holding q x y last).tryTake c.len c.now = (ok,holding q x' y' c.now) ∧
      Took q x y last c ok x' y' := by
  rw [holding,tryTake_exact]
  split_ifs with hdenied
  · exact ⟨false,_,_,rfl,.denied⟩
  · rw [not_or,not_lt,not_lt] at hdenied
    exact ⟨true,_,_,rfl,.granted hdenied.1 hdenied.2⟩

theorem Took.le_burst {c : Call} {ok : Bool} {x' y' : ℚ} (h : Took q x y last c ok x' y') :
    x' ≤ q.burstBytes ∧ y' ≤ q.burstFrames := by
  have hbytes : refilled (q.bytesPerSecond/ticks) q.burstBytes x (c.now-last) ≤ q.burstBytes :=
    min_le_right _ _
  have hframes : refilled (q.framesPerSecond/ticks) q.burstFrames y (c.now-last) ≤ q.burstFrames :=
    min_le_right _ _
  cases h with
  | denied => exact ⟨hbytes,hframes⟩
  | granted =>
      have hlen : (0 : ℚ) ≤ c.len := Nat.cast_nonneg _
      constructor <;> linarith

/-! ### Windows -/

/-- What the calls take of a level: the cost of each that is accepted. -/
def takes (cost : Call → ℚ) : Bucket Level → List Call → List Take
  | _,[] => []
  | b,c::cs =>
      ⟨c.now,if (b.tryTake c.len c.now).1 then cost c else 0⟩::
        takes cost (b.tryTake c.len c.now).2 cs

theorem outflow_takes (cost : Call → ℚ) (s e : ℕ) (b : Bucket Level) (cs : List Call) :
    outflow s e (takes cost b cs) = ((during s e (accepted b cs)).map cost).sum := by
  induction cs generalizing b with
  | nil => rfl
  | cons c cs ih =>
      rw [takes,outflow_cons,ih,accepted]
      by_cases hok : (b.tryTake c.len c.now).1 = true
      · rw [if_pos hok,if_pos hok]
        by_cases hin : s ≤ c.now ∧ c.now ≤ e
        · rw [if_pos hin,during,during,List.filter_cons_of_pos (by simpa using hin),List.map_cons,
            List.sum_cons]
        · rw [if_neg hin,during,during,List.filter_cons_of_neg (by simpa using hin),zero_add]
      · rw [if_neg hok,if_neg hok,ite_self,zero_add]

/-- Every frame finds one in the bucket of frames. -/
theorem frames_paid (s e : ℕ) {cs : List Call} (h : Ordered last cs) :
    Paid (q.framesPerSecond/ticks) q.burstFrames s e 0 y last
      (takes (fun _ => 1) (holding q x y last) cs) := by
  induction cs generalizing x y last with
  | nil => exact .nil y last
  | cons c cs ih =>
      obtain ⟨hclock,hrest⟩ := h.cons
      obtain ⟨ok,x',y',htake,htook⟩ := tryTake_took q x y last c
      rw [takes,htake]
      cases htook with
      | denied =>
          refine .cons y last c.now _ _ hclock (fun _ _ => .inl rfl) ?_
          simpa using ih hrest
      | granted hframes =>
          refine .cons y last c.now _ _ hclock (fun _ _ => .inr ?_) ?_
          · simpa using hframes
          · simpa using ih hrest

/-- A frame finds its bytes in the bucket, but for what it is longer than the burst. -/
theorem bytes_paid (s e : ℕ) {overdraft : ℚ} (hoverdraft : 0 ≤ overdraft) {cs : List Call}
    (h : Ordered last cs)
    (hlong : ∀ c ∈ during s e (accepted (holding q x y last) cs),
      (c.len : ℚ) ≤ q.burstBytes+overdraft) :
    Paid (q.bytesPerSecond/ticks) q.burstBytes s e overdraft x last
      (takes (fun c => c.len) (holding q x y last) cs) := by
  induction cs generalizing x y last with
  | nil => exact .nil x last
  | cons c cs ih =>
      obtain ⟨hclock,hrest⟩ := h.cons
      obtain ⟨ok,x',y',htake,htook⟩ := tryTake_took q x y last c
      rw [accepted,htake] at hlong
      rw [takes,htake]
      cases htook with
      | denied =>
          refine .cons x last c.now _ _ hclock (fun _ _ => .inl rfl) ?_
          simpa using ih hrest (by simpa using hlong)
      | granted _ hbytes =>
          refine .cons x last c.now _ _ hclock (fun hs he => .inr ?_) ?_
          · have hlen := hlong c (List.mem_filter.mpr ⟨List.mem_cons_self,by simpa using ⟨hs,he⟩⟩)
            rcases min_le_iff.mp hbytes with hfound | hfull
            · simpa using hfound.trans (le_add_of_nonneg_right hoverdraft)
            · simpa using hlen.trans (add_le_add_left hfull _)
          · refine ih hrest fun d hd => hlong d ?_
            obtain ⟨hmem,hin⟩ := List.mem_filter.mp hd
            exact List.mem_filter.mpr ⟨List.mem_cons_of_mem _ hmem,hin⟩

/-- The level of bytes is never below the debt of the longest frame. -/
theorem after_levels {debt : ℚ} (hdebt : 0 ≤ debt) {cs : List Call} (hx : x ≤ q.burstBytes)
    (hy : y ≤ q.burstFrames) (hlow : -debt ≤ x)
    (hlong : ∀ c ∈ accepted (holding q x y last) cs, (c.len : ℚ) ≤ q.burstBytes+debt) :
    ∃ bytes frames now, after (holding q x y last) cs = holding q bytes frames now ∧
      bytes ≤ q.burstBytes ∧ frames ≤ q.burstFrames ∧ -debt ≤ bytes := by
  induction cs generalizing x y last with
  | nil => exact ⟨x,y,last,rfl,hx,hy,hlow⟩
  | cons c cs ih =>
      obtain ⟨ok,x',y',htake,htook⟩ := tryTake_took q x y last c
      obtain ⟨hx',hy'⟩ := htook.le_burst
      rw [accepted,htake] at hlong
      rw [after,htake]
      have hburst : (0 : ℚ) ≤ q.burstBytes := q.burstBytes.coe_nonneg
      cases htook with
      | denied =>
          refine ih hx' hy' ?_ (by simpa using hlong)
          -- refilling only raises the level
          have hflow : 0 ≤ ((c.now-last : ℕ) : ℚ)*(q.bytesPerSecond/ticks) :=
            mul_nonneg (Nat.cast_nonneg _) (perTick_nonneg _)
          exact le_min (by linarith) (by linarith)
      | granted _ hbytes =>
          refine ih hx' hy' ?_ fun d hd => hlong d (List.mem_cons_of_mem _ hd)
          have hlen := hlong c List.mem_cons_self
          rcases min_le_iff.mp hbytes with hfound | hfull <;> linarith

/-- The debt a run of calls can leave. -/
def debtOf (q : Rate ℚ≥0) (cs : List Call) : ℚ := max 0 ((longest cs : ℚ)-q.burstBytes)

theorem debtOf_nonneg (q : Rate ℚ≥0) (cs : List Call) : 0 ≤ debtOf q cs := le_max_left _ _

theorem len_le_debt {cs : List Call} {c : Call} (h : c ∈ cs) :
    (c.len : ℚ) ≤ q.burstBytes+debtOf q cs := by
  have hlen : (c.len : ℚ) ≤ longest cs := Nat.cast_le.mpr (le_longest h)
  have hdebt : (longest cs : ℚ)-q.burstBytes ≤ debtOf q cs := le_max_right _ _
  linarith

theorem calls_bounded (q : Rate ℚ≥0) {start : ℕ} {calls : List Call} (h : Ordered start calls) :
    Bounded q start calls := by
  have hnew : Bucket.new (exact q) start = holding q q.burstBytes q.burstFrames start := rfl
  refine ⟨?_,?_,?_⟩
  · intro s e
    have hpaid := frames_paid (q := q) (x := q.burstBytes) (y := q.burstFrames) s e h
    have hle := hpaid.outflow_le (perTick_nonneg _) q.burstFrames.coe_nonneg le_rfl le_rfl
    rw [outflow_takes,← hnew,List.map_const',List.sum_replicate,nsmul_one,allowance] at hle
    linarith [mul_div_left_comm ((e-s : ℕ) : ℚ) q.framesPerSecond ticks]
  · intro s e
    set taken := during s e (accepted (.new (exact q) start) calls) with htaken
    have hpaid := bytes_paid (q := q) (x := q.burstBytes) (y := q.burstFrames) s e
      (debtOf_nonneg q taken) h fun c hc => len_le_debt hc
    have hle := hpaid.outflow_le (perTick_nonneg _) q.burstBytes.coe_nonneg le_rfl
      (debtOf_nonneg q taken)
    have hsum : (taken.map fun c => (c.len : ℚ)).sum = totalLen taken := by
      rw [totalLen,Nat.cast_list_sum,List.map_map]
      rfl
    have hmax : (q.burstBytes : ℚ)+debtOf q taken = max (q.burstBytes : ℚ) (longest taken) := by
      rw [debtOf,← max_add_add_left,add_zero,add_sub_cancel]
    rw [outflow_takes,← hnew,← htaken,hsum,allowance] at hle
    rw [← hmax]
    linarith [mul_div_left_comm ((e-s : ℕ) : ℚ) q.bytesPerSecond ticks]
  · intro done _
    have hdebt := debtOf_nonneg q (accepted (.new (exact q) start) done)
    obtain ⟨bytes,frames,now,hafter,hbytes,hframes,hlow⟩ := after_levels hdebt
      (le_refl (q.burstBytes : ℚ)) (le_refl (q.burstFrames : ℚ))
      ((neg_nonpos.mpr hdebt).trans q.burstBytes.coe_nonneg) fun c hc => len_le_debt hc
    refine ⟨bytes,frames,now,hafter,hbytes,hframes,le_trans (le_of_eq ?_) hlow⟩
    rw [debtOf,← min_neg_neg,neg_zero,neg_sub]

end

/-! ### The bucket of a connection -/

section
variable {Id F : Type}

/-- The call a step makes on the publish bucket of `a`. -/
def callOf (a : ℕ) (s : State Id F) : Action Id → Option Call
  | .act c (.announceRate now) =>
      if c = a then
        match (s.conns c).map Conn.session with
        | some (.announceChecked _ _ frameLen) => some ⟨frameLen,now⟩
        | _ => none
      else none
  | .act c (.laneRate stream now) =>
      if c = a then
        match (s.conns c).bind fun conn => conn.lanes stream with
        | some ⟨_,.checked p⟩ => some ⟨p.frameLen,now⟩
        | _ => none
      else none
  | _ => none

theorem callOf_reading {a : ℕ} {s : State Id F} {b : Action Id} {c : Call} (h : callOf a s b = some c) :
    reading a s b = [c.now] := by
  cases b with
  | act d act =>
      cases act with
      | announceRate now | laneRate stream now =>
          simp only [callOf] at h
          split_ifs at h with hd
          split at h
          · cases h
            simp [reading,charge,hd]
          · cases h
      | _ => cases h
  | _ => cases h

theorem callOf_uncharged {a : ℕ} {b : Action Id} (h : charge a b = none) (s : State Id F) :
    callOf a s b = none := by
  cases b with
  | act c act =>
      cases act with
      | announceRate now | laneRate stream now =>
          simp only [charge] at h
          split_ifs at h with hc
          exact if_neg hc
      | _ => rfl
  | _ => rfl

variable [DecidableEq Id] [EndpointKey Id] [Scalar F] (limits : Limits F)

/-- The calls of a run on the publish bucket of `a`. -/
def callsOf (a : ℕ) : State Id F → List (Action Id) → List Call
  | _,[] => []
  | s,b::bs =>
      match step limits s b with
      | some s' => (callOf a s b).toList++callsOf a s' bs
      | none => []

variable {limits} {s s' : State Id F} {a : ℕ} {b : Action Id} {bs : List (Action Id)}

theorem callsOf_cons (h : step limits s b = some s') :
    callsOf limits a s (b::bs) = (callOf a s b).toList++callsOf limits a s' bs := by
  simp only [callsOf,h]

/-- A step makes its call on the bucket, and does nothing else to it. -/
theorem step_bucket {conn : Conn Id F} (hi : Invariant limits s) (hs : step limits s b = some s')
    (hc : s.conns a = some conn) : ∃ conn', s'.conns a = some conn' ∧
      conn'.publishRate = after conn.publishRate (callOf a s b).toList := by
  cases step_touched hi hs a with
  | absent hnone | fresh _ _ _ hnone =>
      rw [hc] at hnone
      cases hnone
  | kept _ conn' hconn hconn' hcharge hsame =>
      rw [hc] at hconn
      cases hconn
      rw [callOf_uncharged hcharge]
      exact ⟨conn',hconn',hsame⟩
  | charged _ conn' τ now hconn hconn' hcharge =>
      refine ⟨conn',hconn',?_⟩
      cases b with
      | act c act =>
          have hca : c = a := by
            by_contra hne
            rw [charge_other hne] at hcharge
            cases hcharge
          subst hca
          obtain ⟨cconn,e,hcc,he,rfl⟩ := step_act hs
          rw [hc] at hcc
          cases hcc
          rw [State.apply_conns_self] at hconn'
          cases hconn'
          cases perform_ran he with
          | announceGranted t blob frameLen hsession | announceDenied t blob frameLen hsession =>
              simp only [callOf,hc,Option.map_some,hsession,if_true]
              rfl
          | laneGranted lane p hlane | laneDenied lane p hlane =>
              simp only [callOf,hc,Option.bind_some,hlane,if_true]
              rfl
          | _ => cases hcharge
      | _ => cases hcharge

theorem run_bucket {conn : Conn Id F} {t : State Id F} (hi : Invariant limits s)
    (hc : s.conns a = some conn) (h : exec (step limits) s bs = some t) :
    ∃ conn', t.conns a = some conn' ∧
      conn'.publishRate = after conn.publishRate (callsOf limits a s bs) := by
  induction bs generalizing s conn with
  | nil =>
      cases h
      exact ⟨conn,hc,rfl⟩
  | cons b bs ih =>
      obtain ⟨s',hs,h⟩ := (exec_cons_eq_some _).mp h
      obtain ⟨conn',hc',hrate⟩ := step_bucket hi hs hc
      obtain ⟨conn'',hc'',hrate'⟩ := ih (step_invariant hi hs) hc' h
      refine ⟨conn'',hc'',?_⟩
      rw [callsOf_cons hs,after_append,hrate',hrate]

/-- The times of the calls are readings of the clock. -/
theorem callsOf_times (a : ℕ) (s : State Id F) (bs : List (Action Id)) :
    ((callsOf limits a s bs).map Call.now).Sublist (readings limits a s bs) := by
  induction bs generalizing s with
  | nil => exact .slnil
  | cons b bs ih =>
      cases hs : step limits s b with
      | none =>
          simp only [callsOf,hs]
          exact List.nil_sublist _
      | some s' =>
          rw [callsOf_cons hs,List.map_append,readings,observed_cons _ _ hs]
          cases hcall : callOf a s b with
          | none => exact (ih s').trans (List.sublist_append_right _ _)
          | some c =>
              rw [callOf_reading hcall]
              exact (ih s').cons_cons _

/-- The bucket of a connection is one that started full, after the calls of its
readers. -/
theorem run_bucket_new {t : State Id F} {conn : Conn Id F} (hi : Invariant limits s)
    (hnone : s.conns a = none) (h : exec (step limits) s bs = some t) (hc : t.conns a = some conn)
    (hclock : (readings limits a s bs).Pairwise (· ≤ ·)) : ∃ start,
      conn.publishRate = after (.new limits.publishRate start) (callsOf limits a s bs) ∧
        Ordered start (callsOf limits a s bs) := by
  induction bs generalizing s with
  | nil =>
      cases h
      rw [hnone] at hc
      cases hc
  | cons b bs ih =>
      obtain ⟨s',hs,hrest⟩ := (exec_cons_eq_some _).mp h
      have hi' := step_invariant hi hs
      cases step_touched hi hs a with
      | absent _ hnone' hcharge =>
          rw [callsOf_cons hs,callOf_uncharged hcharge]
          exact ih hi' hnone' hrest (clock_tail hclock hs)
      | fresh peer now hnext _ hnew hb =>
          subst hb
          obtain ⟨conn',hc',hrate⟩ := run_bucket hi' hnew hrest
          rw [hc] at hc'
          cases hc'
          rw [callsOf_cons hs]
          refine ⟨now,hrate,?_⟩
          have hread : reading a s (.connect peer now) = [now] := if_pos hnext
          rw [readings,observed_cons _ _ hs,hread] at hclock
          exact hclock.sublist ((callsOf_times a s' bs).cons_cons now)
      | kept _ _ hsome | charged _ _ _ _ hsome =>
          rw [hnone] at hsome
          cases hsome

end

/-- **Token bucket bound**: whatever the calls on a bucket, in every window those that
are accepted are at most the burst and the rate over the window, and in bytes at most
the burst or the longest of them, whichever is more, and the rate over the window. So
it is with the publish bucket of every connection in every run of the server. -/
theorem token_bucket_bound {Id : Type} [DecidableEq Id] [EndpointKey Id] (q : Rate ℚ≥0) :
    (∀ start calls, Ordered start calls → Bounded q start calls) ∧
    ∀ (limits : Limits Level) (as : List (Action Id)) (s : State Id Level) (a : ℕ)
      (conn : Conn Id Level), limits.publishRate = exact q →
      (readings limits a (State.init limits) as).Pairwise (· ≤ ·) →
      exec (step limits) (State.init limits) as = some s → s.conns a = some conn →
      ∃ start, Bounded q start (callsOf limits a (State.init limits) as) ∧
        conn.publishRate = after (.new (exact q) start) (callsOf limits a (State.init limits) as) := by
  constructor
  · intro start calls h
    exact calls_bounded q h
  · intro limits as s a conn hrate hclock hrun hc
    obtain ⟨start,hbucket,hordered⟩ := run_bucket_new (init_invariant limits) rfl hrun hc hclock
    rw [hrate] at hbucket
    exact ⟨start,calls_bounded q hordered,hbucket⟩

/-- A burst of 100 bytes, and 1000 bytes a second. -/
def smallBurst : Rate ℚ≥0 := ⟨1000,100,1000,1000⟩

/-- A frame larger than the burst, and two that come while its debt is repaid. -/
def oversized : List Call := [⟨500,0⟩,⟨1,0⟩,⟨1,500000000⟩]

theorem token_bucket_bound_oversized :
    accepted (.new (exact smallBurst) 0) oversized = [⟨500,0⟩,⟨1,500000000⟩] ∧
    Bounded smallBurst 0 oversized ∧
    callsOf .default 1 (State.init .default) instant = [⟨38,3⟩,⟨38,3⟩] ∧
    ∃ start, Bounded ⟨4194304,4194304,200,400⟩ start
      (callsOf .default 1 (State.init .default) instant) := by
  have hcalls := (@token_bucket_bound RawId _ _ smallBurst).1 0 oversized (by decide)
  have hrate : Limits.default.publishRate = exact ⟨4194304,4194304,200,400⟩ := by
    simp [Limits.default,exact]
  have hrun : ∃ s conn, exec (step .default) (State.init .default) instant = some s ∧
      s.conns 1 = some conn := by
    have hsome : ((exec (step .default) (State.init .default) instant).bind fun s =>
        s.conns 1).isSome = true := by decide +kernel
    obtain ⟨conn,hconn⟩ := Option.isSome_iff_exists.mp hsome
    obtain ⟨s,hs,hc⟩ := Option.bind_eq_some_iff.mp hconn
    exact ⟨s,conn,hs,hc⟩
  obtain ⟨s,conn,hs,hc⟩ := hrun
  obtain ⟨start,hbound,-⟩ :=
    (token_bucket_bound ⟨4194304,4194304,200,400⟩).2 .default instant s 1 conn hrate
      (by decide +kernel) hs hc
  exact ⟨by decide +kernel,hcalls,by decide +kernel,start,hbound⟩

end KeepTalkingSfu.BucketRuns
