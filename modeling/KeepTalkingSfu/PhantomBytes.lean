import KeepTalkingSfu.OutboxLedger
import Mathlib.Data.Multiset.OrderedMonoid

/-!
# Bytes in the budget that are in no queue

A lane writer whose stream the client stopped goes on with the next frame. The
session writer returns, and the frames still in its channel go with it while
their bytes stay in the counter; a frame that is on its way to that channel, or
pushed later, is in the counter until its push finds the channel closed. Up to
such a return, and to an abort of a writer that has frames left, the counter of
an open connection is exactly what its channels and writers hold; and while no
push adds to a counter with bytes of a frame that has nowhere to go, a slow
consumer is one whose frames with the new one do exceed the limit.
-/
namespace KeepTalkingSfu.PhantomBytes
open InterleavedRuns OutboxBudget

/-- The step leaves no frame behind: a session writer that returns because its
stream is closed has an empty channel, and so has an aborted writer, which has
nothing in hand either. -/
def LeavesNothing (s : State) : Action → Prop
  | .decide q => q = .session → s.writer .session = .deciding .closed → s.connOpen = true →
      (s.channel .session).items = []
  | .abort q => s.connOpen = true → (s.channel q).items = [] ∧ (s.writer q).inHand = []
  | _ => True

instance (s : State) : ∀ a, Decidable (LeavesNothing s a)
  | .decide q => inferInstanceAs (Decidable (q = .session →
      s.writer .session = .deciding .closed → s.connOpen = true →
        (s.channel .session).items = []))
  | .abort q => inferInstanceAs (Decidable (s.connOpen = true →
      (s.channel q).items = [] ∧ (s.writer q).inHand = []))
  | .start _ _ | .push _ | .receive _ | .wrote _ _ | .release _ | .drained _ | .hangUp
  | .peerClose => .isTrue trivial

/-- The push was let in and is on its way to the queue. -/
def onItsWay (s : State) (q : Queue) : Push → Bool
  | .compare q' load => q' = q && !s.budget.exceeds load.before load.size
  | .send q' _ => q' = q
  | _ => false

/-- The push was let in, but its queue is gone. -/
def astray (s : State) : Push → Bool
  | .compare q load => !s.budget.exceeds load.before load.size && !(s.channel q).isOpen
  | .send q _ => !(s.channel q).isOpen
  | .unsend _ => true
  | _ => false

def adds : Push → Bool
  | .add _ _ => true
  | _ => false

/-- No push of an open connection adds to a counter with bytes of a frame that is astray,
and the session writer does not return with a frame on its way to it. -/
def NoneAstray (s : State) : Action → Prop
  | .push i => (s.pushes[i]?).any adds = true → s.connOpen = true →
      ∀ p ∈ s.pushes, astray s p = false
  | .decide q => q = .session → s.writer .session = .deciding .closed → s.connOpen = true →
      ∀ p ∈ s.pushes, onItsWay s .session p = false
  | _ => True

instance (s : State) : ∀ a, Decidable (NoneAstray s a)
  | .push i => inferInstanceAs (Decidable ((s.pushes[i]?).any adds = true → s.connOpen = true →
      ∀ p ∈ s.pushes, astray s p = false))
  | .decide q => inferInstanceAs (Decidable (q = .session →
      s.writer .session = .deciding .closed → s.connOpen = true →
        ∀ p ∈ s.pushes, onItsWay s .session p = false))
  | .start _ _ | .abort _ | .receive _ | .wrote _ _ | .release _ | .drained _ | .hangUp
  | .peerClose => .isTrue trivial

/-- The frames that were let in and are on their way to a queue that is there. -/
def arriving (s : State) : Multiset Load :=
  tally (fun p => if astray s p then 0 else p.held s.budget.limit) s.pushes

/-- The step adds a frame that, with those that are queued, being written or on their way
to a queue, exceeds the limit. -/
def Overfull (s : State) (a : Action) : Prop :=
  ∃ i q size, a = .push i ∧ s.pushes[i]? = some (.add q size) ∧
    s.budget.limit < bytes (arriving s)+bytes s.items+bytes s.inHand+size

/-- No push is between its add and its end, and no writer is about to release. -/
structure Settled (s : State) : Prop where
  pushes : ∀ p ∈ s.pushes, ∃ q size, p = .add q size
  writers : ∀ q load result, s.writer q ≠ .releasing load result

def NothingLost (s : State) : Prop := s.connOpen = true → s.lost = []

theorem exit_lost {s : State} {q : Queue} (hc : (s.channel q).items = [])
    (hw : (s.writer q).inHand = []) : (s.exit q).lost = s.lost := by
  simp [State.exit,hc,hw]

theorem decideStep_lost {s : State} {q : Queue} {result : Written}
    (hw : s.writer q = .deciding result) (hi : NothingLost s)
    (hleft : LeavesNothing s (.decide q)) : NothingLost (decideStep s q result) := by
  cases result with
  | ok => exact hi
  | closed =>
      intro hopen
      simp only [decideStep] at hopen ⊢
      split at hopen
      · next hexit =>
        -- the connection is open, so it is the session writer that returns
        have hs : s.connOpen = true := hopen
        have hq : q = .session := by
          rcases hexit with hq | hclosed
          · exact hq
          · rw [hs] at hclosed
            cases hclosed
        subst hq
        have hnone : (s.writer .session).inHand = [] := by rw [hw]; rfl
        rw [if_pos hexit,exit_lost (hleft rfl hw hs) hnone]
        exact hi hs
      · next hstay =>
        rw [if_neg hstay]
        exact hi hopen
  | stalled => rintro ⟨⟩

theorem pushStep_lost (s : State) (i : ℕ) (p : Push) :
    (pushStep s i p).lost = s.lost ∧ ((pushStep s i p).connOpen = true → s.connOpen = true) := by
  cases p with
  | close => exact ⟨rfl,nofun⟩
  | compare q load =>
      simp only [pushStep]
      split <;> exact ⟨rfl,id⟩
  | send q load =>
      simp only [pushStep]
      split <;> exact ⟨rfl,id⟩
  | _ => exact ⟨rfl,id⟩

theorem step_nothingLost {s s' : State} {a : Action} (hi : NothingLost s)
    (hleft : LeavesNothing s a) (h : step s a = some s') : NothingLost s' := by
  cases step_stepped h with
  | push i p =>
      intro hopen
      rw [(pushStep_lost s i p).1]
      exact hi ((pushStep_lost s i p).2 hopen)
  | decide q result hw => exact decideStep_lost hw hi hleft
  | drained q hw hempty =>
      intro hopen
      rw [exit_lost hempty (by rw [hw]; rfl)]
      exact hi hopen
  | abort q =>
      intro hopen
      have hs : s.connOpen = true := hopen
      rw [exit_lost (hleft hs).1 (hleft hs).2]
      exact hi hs
  | peerClose => rintro ⟨⟩
  | _ => exact hi

/-! ### The first push that is refused -/

/-- Nothing has been refused, and nothing in the counter will be. -/
structure Clean (s : State) : Prop where
  found : s.found = false
  overshoot : tally (Push.overshoot s.budget.limit) s.pushes = 0

theorem counted {limit : ℕ} {s : State} (hi : s.Invariant limit) (hlost : s.lost = []) :
    s.budget.queued = bytes (tally (Push.held limit) s.pushes)+bytes s.items+bytes s.inHand+
      (tally (Push.overshoot limit) s.pushes).sum := by
  have hexact := hi.sound.exact_count
  simpa only [State.ledger,State.accepted,bytes_add,hlost,hi.limit_eq,Multiset.coe_nil,
    show bytes 0 = 0 from rfl,add_zero] using hexact

/-- When no frame is astray, all that pushes have put in the counter arrives. -/
theorem held_arriving {s : State} (h : ∀ p ∈ s.pushes, astray s p = false) :
    tally (Push.held s.budget.limit) s.pushes = arriving s := by
  refine congrArg List.sum (List.map_congr_left fun p hp => ?_)
  rw [h p hp]
  rfl

theorem Clean.resume {s t : State} {i : ℕ} {p : Push} {next : Option Push} (h : Clean s)
    (hp : s.pushes[i]? = some p) (hpushes : t.pushes = s.pushes) (hfound : t.found = s.found)
    (hlimit : t.budget.limit = s.budget.limit)
    (hnext : tally (Push.overshoot s.budget.limit) next.toList = 0) : Clean (t.resume i next) := by
  refine ⟨hfound.trans h.found,?_⟩
  have hsum := tally_resume (Push.overshoot s.budget.limit) (s := t) (hpushes ▸ hp) next
  rw [hpushes,h.overshoot,hnext,add_zero] at hsum
  exact hlimit ▸ (add_eq_zero.mp hsum).1

/-- As long as nothing has been refused, only an overfull step changes that. -/
theorem step_clean {limit : ℕ} {s s' : State} {a : Action} (hi : s.Invariant limit)
    (hlost : s.lost = []) (hopen : s.connOpen = true) (hastray : NoneAstray s a) (h : Clean s)
    (hs : step s a = some s') : Clean s' ∨ Overfull s a := by
  by_cases ha : ∃ i, a = .push i
  · obtain ⟨i,rfl⟩ := ha
    obtain ⟨p,hp,rfl⟩ := Option.map_eq_some_iff.mp hs
    cases p with
    | add q size =>
        by_cases hexceeds : 0 < s.budget.queued ∧ s.budget.limit < s.budget.queued+size
        · right
          have hcount := counted hi hlost
          have hnone := hastray (by rw [hp]; rfl) hopen
          rw [← hi.limit_eq,held_arriving hnone,h.overshoot,Multiset.sum_zero,add_zero] at hcount
          exact ⟨i,q,size,rfl,hp,hcount ▸ hexceeds.2⟩
        · left
          refine h.resume hp rfl rfl rfl ?_
          simp only [Option.toList_some,tally_singleton,Push.overshoot,Budget.fetchAdd,if_neg hexceeds]
    | compare q load =>
        left
        have hsum := tally_resume (Push.overshoot s.budget.limit) hp none
        rw [h.overshoot,Option.toList_none,tally_nil,add_zero] at hsum
        have hfits : ¬(0 < load.before ∧ s.budget.limit < load.before+load.size) := by
          intro hexceeds
          have hzero := (add_eq_zero.mp hsum).2
          rw [Push.overshoot,if_pos hexceeds] at hzero
          exact Multiset.singleton_ne_zero _ hzero
        rw [pushStep,if_neg (by simpa [Budget.exceeds] using hfits)]
        exact h.resume hp rfl rfl rfl rfl
    | send q load =>
        left
        simp only [pushStep]
        split
        · exact h.resume hp rfl rfl rfl rfl
        · exact h.resume hp rfl rfl rfl rfl
    | swap =>
        left
        refine h.resume hp rfl rfl rfl ?_
        cases s.budget.overflowed <;> rfl
    | _ => exact .inl (h.resume hp rfl rfl rfl rfl)
  · obtain ⟨hlimit,-,-,hfound,hpushes⟩ := step_other hs fun i hi => ha ⟨i,hi⟩
    refine .inl ⟨hfound.trans h.found,?_⟩
    rw [hlimit]
    rcases hpushes with hpushes | ⟨q,size,-,hpushes⟩
    · rw [hpushes,h.overshoot]
    · rw [hpushes,tally_append,h.overshoot]
      rfl

theorem step_open {s s' : State} {a : Action} (hs : step s a = some s') (hopen : s'.connOpen = true) :
    s.connOpen = true := by
  cases step_stepped hs with
  | push i p => exact (pushStep_lost s i p).2 hopen
  | decide q result =>
      cases result with
      | ok => exact hopen
      | closed =>
          simp only [decideStep] at hopen
          split at hopen <;> exact hopen
      | stalled => cases hopen
  | peerClose => cases hopen
  | _ => exact hopen

theorem exec_open {s t : State} {as : List Action} (h : exec step s as = some t)
    (hopen : t.connOpen = true) : s.connOpen = true := by
  by_contra hs
  exact exec_invariant step (I := fun s => ¬s.connOpen = true)
    (fun _ _ _ hclosed hstep hopen' => hclosed (step_open hstep hopen')) hs h hopen

theorem run_clean {limit : ℕ} {s t : State} {as : List Action} (hi : s.Invariant limit)
    (hlost : NothingLost s) (hall : Along step LeavesNothing s as)
    (hastray : Along step NoneAstray s as) (h : exec step s as = some t) (hopen : t.connOpen = true)
    (hclean : Clean s) : Clean t ∨ Sometime step Overfull s as := by
  induction as generalizing s with
  | nil =>
      cases h
      exact .inl hclean
  | cons a as ih =>
      obtain ⟨s',hs,h⟩ := (exec_cons_eq_some _).mp h
      have hopen' : s'.connOpen = true :=
        exec_open h hopen
      have hsopen := step_open hs hopen'
      rcases step_clean hi (hlost hsopen) hsopen hastray.1 hclean hs with hclean' | hover
      · rcases ih (step_invariant hi hs) (step_nothingLost hlost hall.1 hs) (hall.2 s' hs)
          (hastray.2 s' hs) h hclean' with hclean' | hover
        · exact .inl hclean'
        · exact .inr (.inr ⟨s',hs,hover⟩)
      · exact .inr (.inl hover)

/-! ### Frames on their way -/

/-- Once every handle is gone no push is under way. -/
def HungUp (s : State) : Prop := s.handles = false → s.pushes = []

theorem pushStep_handles (s : State) (i : ℕ) (p : Push) :
    (pushStep s i p).handles = s.handles ∧
      ∀ q, ((pushStep s i p).channel q).isOpen = (s.channel q).isOpen := by
  cases p with
  | compare q load =>
      simp only [pushStep]
      split <;> exact ⟨rfl,fun _ => rfl⟩
  | send q load =>
      simp only [pushStep]
      split
      · refine ⟨rfl,fun q' => ?_⟩
        by_cases hq : q' = q
        · subst hq
          simp [State.resume,State.setItems]
        · simp [State.resume,State.setItems,hq]
      · exact ⟨rfl,fun _ => rfl⟩
  | _ => exact ⟨rfl,fun _ => rfl⟩

theorem step_hungUp {s s' : State} {a : Action} (h : HungUp s) (hs : step s a = some s') :
    HungUp s' := by
  cases step_stepped hs with
  | started q size hpos hhandles =>
      intro hnone
      rw [hhandles] at hnone
      cases hnone
  | push i p hp =>
      intro hnone
      rw [(pushStep_handles s i p).1] at hnone
      rw [h hnone] at hp
      cases hp
  | decide q result =>
      cases result with
      | ok | stalled => exact h
      | closed =>
          simp only [decideStep]
          split <;> exact h
  | hangUp hnone => exact fun _ => hnone
  | _ => exact h

/-- A queue that a frame is on its way to stays, as long as the connection is open. -/
theorem queue_stays {s s' : State} {a : Action} {q : Queue} (hh : HungUp s)
    (hs : step s a = some s') (hastray : NoneAstray s a) (hopen : s'.connOpen = true)
    (hway : ∃ p ∈ s.pushes, onItsWay s q p = true) (hq : (s.channel q).isOpen = true) :
    (s'.channel q).isOpen = true := by
  obtain ⟨p,hp,hway⟩ := hway
  have hkept : ∀ {q' : Queue}, q' ≠ q → ((s.exit q').channel q).isOpen = true := by
    intro q' hne
    simpa [State.exit,hne.symm] using hq
  have hpushes : s.handles ≠ false := by
    intro hnone
    rw [hh hnone] at hp
    cases hp
  cases step_stepped hs with
  | push i p' => rwa [(pushStep_handles s i p').2]
  | receive q' load rest =>
      by_cases hne : q = q'
      · subst hne
        simpa [State.setWriter,State.setItems] using hq
      · simpa [State.setWriter,State.setItems,hne] using hq
  | decide q' result hw =>
      cases result with
      | ok => exact hq
      | closed =>
          simp only [decideStep] at hopen ⊢
          split at hopen
          · next hexit =>
            have hsopen : s.connOpen = true := hopen
            rw [if_pos hexit]
            rcases hexit with rfl | hclosed
            · apply hkept
              rintro rfl
              rw [hastray rfl hw hsopen p hp] at hway
              cases hway
            · rw [hsopen] at hclosed
              cases hclosed
          · next hstay =>
            rw [if_neg hstay]
            exact hq
      | stalled => cases hopen
  | drained q' hw hempty hnone => exact absurd hnone hpushes
  | abort q' hnone => exact absurd hnone hpushes
  | _ => exact hq

/-- Whoever closes a slow consumer had seen a push refused. -/
theorem step_slowCloses {limit : ℕ} {s s' : State} {a : Action} (hi : s.Invariant limit)
    (hs : step s a = some s') (hslow : s'.slowCloses ≠ s.slowCloses) : s.found = true := by
  by_cases ha : ∃ i, a = .push i
  · obtain ⟨i,rfl⟩ := ha
    obtain ⟨p,hp,rfl⟩ := Option.map_eq_some_iff.mp hs
    cases p with
    | close =>
        have hcloses := hi.flags.closes
        have hsum : _+0 = _+1 := (tally_resume Push.closing hp none).symm
        apply hi.flags.found_iff.mpr
        left
        cases hover : s.budget.overflowed with
        | true => rfl
        | false =>
            rw [hover,Bool.toNat_false] at hcloses
            omega
    | compare q load =>
        simp only [pushStep] at hslow
        split at hslow <;> exact absurd rfl hslow
    | send q load =>
        simp only [pushStep] at hslow
        split at hslow <;> exact absurd rfl hslow
    | _ => exact absurd rfl hslow
  · exact absurd (step_other hs fun i hi => ha ⟨i,hi⟩).2.2.1 hslow

/-- While no step leaves a frame behind and the connection is open, a settled
counter is the bytes in the three channels and in the writers' hands. If no push
either adds to a counter with bytes of a frame that is astray, a step closes the
connection as a slow consumer only if a frame that was added exceeded the limit
together with those that were queued, being written or on their way to a queue;
and the queue of a frame that is on its way is still there after any such step. -/
theorem no_phantom_bytes {limit : ℕ} {as : List Action} {s : State}
    (h : exec step (State.init limit) as = some s)
    (hall : Along step LeavesNothing (State.init limit) as) (hopen : s.connOpen = true) :
    (Settled s → s.budget.queued = bytes s.items+bytes s.inHand) ∧
    (Along step NoneAstray (State.init limit) as → ∀ a s', step s a = some s' →
      s'.slowCloses ≠ s.slowCloses → Sometime step Overfull (State.init limit) as) ∧
    ∀ a s' q, step s a = some s' → NoneAstray s a → s'.connOpen = true →
      (∃ p ∈ s.pushes, onItsWay s q p = true) → (s.channel q).isOpen = true →
      (s'.channel q).isOpen = true := by
  have hi := run_invariant h
  have hlost : s.lost = [] := along_invariant step (I := NothingLost)
    (fun _ _ _ hi hp hs => step_nothingLost hi hp hs) (fun _ => rfl) hall h hopen
  have hhung : HungUp s := exec_invariant step (fun _ _ _ => step_hungUp) (fun _ => rfl) h
  refine ⟨?_,?_,fun a s' q => queue_stays hhung⟩
  · intro hset
    have hcount := counted hi hlost
    have hnone : ∀ {α : Type} (f : Push → Multiset α), (∀ q size, f (.add q size) = 0) →
        tally f s.pushes = 0 := by
      intro α f hf
      apply List.sum_eq_zero
      intro x hx
      obtain ⟨p,hp,rfl⟩ := List.mem_map.mp hx
      obtain ⟨q,size,rfl⟩ := hset.pushes p hp
      exact hf q size
    rw [hnone _ (fun _ _ => rfl),hnone _ (fun _ _ => rfl)] at hcount
    simpa [bytes] using hcount
  · intro hastray a s' hs hslow
    rcases run_clean (init_invariant limit) (fun _ => rfl) hall hastray h hopen ⟨rfl,rfl⟩ with
      hclean | hsome
    · have hfound := step_slowCloses hi hs hslow
      rw [hclean.found] at hfound
      cases hfound
    · exact hsome

/-- Two membership frames of 69 bytes, the first of them written. -/
def firstWritten (result : Written) : List Action :=
  [.start .session 69,.push 0,.push 0,.push 0,.start .session 69,.push 0,.push 0,.push 0,
    .receive .session,.wrote .session result,.release .session,.decide .session]

/-- A frame of 69 bytes is queued when one of 150 is pushed. -/
def tooMuch : List Action :=
  [.start .session 69,.push 0,.push 0,.push 0,.start .control 150,.push 0,.push 0,.push 0,.push 0]

theorem no_phantom_bytes_written :
    (∃ s, exec step (State.init 200) (firstWritten .ok) = some s ∧ s.connOpen = true ∧
      s.budget.queued = bytes s.items+bytes s.inHand ∧ s.budget.queued = 69) ∧
    ∃ s s', exec step (State.init 200) tooMuch = some s ∧ s.connOpen = true ∧
      step s (.push 0) = some s' ∧ s'.slowCloses = 1 ∧
      Sometime step Overfull (State.init 200) tooMuch := by
  constructor
  · refine ⟨_,rfl,rfl,?_,rfl⟩
    apply (@no_phantom_bytes 200 (firstWritten .ok) _ rfl (by decide) rfl).1
    exact ⟨nofun,fun q => by cases q <;> nofun⟩
  · refine ⟨_,_,rfl,rfl,rfl,rfl,?_⟩
    exact (@no_phantom_bytes 200 tooMuch _ rfl (by decide) rfl).2.1 (by decide) (.push 0) _ rfl
      (by decide)

/-- The client stops the session stream during the first frame: the writer
returns, and the second frame's bytes stay in the counter. -/
theorem phantom_bytes_after_stop :
    ∃ s, exec step (State.init 200) (firstWritten .closed) = some s ∧ s.connOpen = true ∧
      Settled s ∧ s.budget.queued = 69 ∧ bytes s.items+bytes s.inHand = 0 ∧
      s.budget.exceeds s.budget.queued 150 = true ∧
      ¬200 < bytes (tally (Push.held 200) s.pushes)+bytes s.items+bytes s.inHand+150 :=
  ⟨_,rfl,rfl,⟨nofun,fun q => by cases q <;> nofun⟩,rfl,by decide,by decide,by decide⟩

/-- The client stops the session stream and the writer returns with nothing left; then a
session push has added its 60 bytes and not yet found its channel closed when one of 150
bytes is refused. -/
def pushedAstray : List Action :=
  [.start .session 69,.push 0,.push 0,.push 0,.receive .session,.wrote .session .closed,
    .release .session,.decide .session,.start .session 60,.push 0,.start .control 150,.push 1,
    .push 1,.push 1,.push 1]

/-- So the connection is closed with nothing queued or being written, although no step
left a frame behind. -/
theorem closed_by_astray : ∃ s s', exec step (State.init 200) pushedAstray = some s ∧
    Along step LeavesNothing (State.init 200) pushedAstray ∧ s.connOpen = true ∧
    step s (.push 1) = some s' ∧ s'.slowCloses = 1 ∧ bytes s.items+bytes s.inHand = 0 ∧
    bytes (arriving s) = 0 :=
  ⟨_,_,rfl,by decide,rfl,rfl,rfl,by decide,by decide⟩

end KeepTalkingSfu.PhantomBytes
