import KeepTalkingSfu.RoomInvariant

/-!
# The steps of one task

A connection's session reader, each of its lane readers and its datagram reader
take steps of their own, and what one of them has in hand is touched by no
other task, of this connection or of another. So a frame under way is where its
reader left it when the reader goes on, whatever came in between.
-/
namespace KeepTalkingSfu.TaskSteps
open ByteTransport WireFormat LaneStream MemberQueues RoomTable TokenBucket Server StepCases
  ServerEffects RoomInvariant InterleavedRuns

inductive Task where
  | session
  | lane (stream : ℕ)
  | datagram
  deriving DecidableEq, Repr

section
variable {Id : Type}

/-- The reader that takes the step, if it is part of handling a frame or datagram. -/
def task : Act Id → Option Task
  | .sessionFrame _ _ _ | .announceRate _ | .announceRoom => some .session
  | .laneFrame stream _ _ | .laneRate stream _ | .laneRoom stream => some (.lane stream)
  | .datagramIn _ _ | .datagramRoom _ => some .datagram
  | .endSession | .leaveNext _ | .finish | .openLane _ _ => none

/-- The step is the first one of a frame or datagram. -/
def begins : Act Id → Bool
  | .sessionFrame _ _ _ | .laneFrame _ _ _ | .datagramIn _ _ => true
  | _ => false

/-- The steps of one reader of a connection. -/
def ofTask (c : ℕ) (τ : Task) : Action Id → Bool
  | .act d a => d = c ∧ task a = some τ
  | _ => false

variable {F : Type}

/-- The connection holds its endpoint's slot in the topic's room. -/
def holdsSlot [DecidableEq Id] (s : State Id F) (c : ℕ) (t : Topic) : Bool :=
  (s.conns c).any fun conn => s.rooms.isMember t ⟨conn.peer,c⟩

theorem holdsSlot_of_conn [DecidableEq Id] {s : State Id F} {c : ℕ} {conn : Conn Id F}
    (hc : s.conns c = some conn) (t : Topic) :
    holdsSlot s c t = s.rooms.isMember t ⟨conn.peer,c⟩ := by
  rw [holdsSlot,hc]
  rfl

theorem setLane_other (conn : Conn Id F) (l : LaneReader Id) {i stream : ℕ} (h : i ≠ stream) :
    (conn.setLane stream l).lanes i = conn.lanes i := Function.update_of_ne h _ _

@[simp] theorem setLane_self (conn : Conn Id F) (l : LaneReader Id) (stream : ℕ) :
    (conn.setLane stream l).lanes stream = some l := Function.update_self _ _ _

/-! ### What a task leaves to the others -/

/-- What every reader has in hand is as before, except the reader that took the
step. A new lane stream has nothing in hand. -/
structure Kept (τ : Option Task) (conn conn' : Conn Id F) : Prop where
  session : τ ≠ some .session → conn'.session = conn.session
  lanes : ∀ i, τ ≠ some (.lane i) → conn'.lanes i = conn.lanes i ∨
    (conn.lanes i = none ∧ ∃ lane, conn'.lanes i = some ⟨lane,.reading⟩)
  datagram : τ ≠ some .datagram → conn'.datagram = conn.datagram

theorem Kept.of_eq {τ : Option Task} {conn conn' : Conn Id F} (hs : conn'.session = conn.session)
    (hl : conn'.lanes = conn.lanes) (hd : conn'.datagram = conn.datagram) : Kept τ conn conn' :=
  ⟨fun _ => hs,fun _ _ => .inl (congrFun hl _),fun _ => hd⟩

theorem Kept.setLane {conn conn' : Conn Id F} {stream : ℕ} {l : LaneReader Id}
    (hs : conn'.session = conn.session) (hl : conn'.lanes = conn.lanes)
    (hd : conn'.datagram = conn.datagram) :
    Kept (some (.lane stream)) conn (conn'.setLane stream l) where
  session _ := hs
  lanes i hi := by
    have hne : i ≠ stream := by
      rintro rfl
      exact hi rfl
    rw [setLane_other _ _ hne,hl]
    exact .inl rfl
  datagram _ := hd

variable [DecidableEq Id] [EndpointKey Id] [Scalar F] {limits : Limits F} {r : Rooms Id} {c : ℕ}
  {conn : Conn Id F}

theorem perform_kept {a : Act Id} {e : Effect Id F} (h : perform limits r c conn a = some e) :
    Kept (task a) conn e.conn := by
  cases perform_ran h with
  | announceChecked | announceGranted | announceDenied | announceRoom =>
      exact ⟨fun hne => absurd rfl hne,fun _ _ => .inl rfl,fun _ => rfl⟩
  | openLane stream lane hnone =>
      refine ⟨fun _ => rfl,?_,fun _ => rfl⟩
      intro i _
      by_cases hi : i = stream
      · subst hi
        exact .inr ⟨hnone,lane,setLane_self _ _ _⟩
      · exact .inl (setLane_other _ _ hi)
  | laneMalformed | laneStopped | laneTooLarge | laneNotSubscribed | laneChecked | laneGranted
  | laneDenied | laneRoom => exact .setLane rfl rfl rfl
  | datagramIn | datagramRoom =>
      exact ⟨fun _ => rfl,fun _ _ => .inl rfl,fun hne => absurd rfl hne⟩
  | _ => exact .of_eq rfl rfl rfl

/-- Whatever step is taken, a connection stays and every reader that did not
take it is where it was. -/
theorem step_kept {s s' : State Id F} {a : Action Id} (hi : Invariant limits s)
    (hs : step limits s a = some s') (hc : s.conns c = some conn) :
    ∃ conn', s'.conns c = some conn' ∧ conn'.peer = conn.peer ∧
      ∀ τ, ofTask c τ a = false → ∃ τ', τ' ≠ some τ ∧ Kept τ' conn conn' := by
  have hsame : ∀ τ : Task, ∃ τ', τ' ≠ some τ ∧ Kept τ' conn conn :=
    fun τ => ⟨none,nofun,.of_eq rfl rfl rfl⟩
  rcases step_cases hi hs with hpassive | ⟨d,act,dconn,e,rfl,hd,he,rfl⟩
  · exact ⟨conn,hpassive.conns c conn hc,rfl,fun τ _ => hsame τ⟩
  · by_cases hcd : c = d
    · subst hcd
      rw [hc] at hd
      cases hd
      refine ⟨e.conn,State.apply_conns_self s c e,(perform_private (hi.conns c conn hc) he).1,?_⟩
      intro τ hτ
      refine ⟨task act,?_,perform_kept he⟩
      intro heq
      simp [ofTask,heq] at hτ
    · exact ⟨conn,by rw [State.apply_conns_of_ne _ _ _ hcd,hc],rfl,fun τ _ => hsame τ⟩

/-- A connection stays, with its endpoint, through every run. -/
theorem exec_conn {s u : State Id F} {bs : List (Action Id)} (hi : Invariant limits s)
    (hrun : exec (step limits) s bs = some u) (hc : s.conns c = some conn) :
    ∃ conn', u.conns c = some conn' ∧ conn'.peer = conn.peer := by
  induction bs generalizing s conn with
  | nil =>
      cases hrun
      exact ⟨conn,hc,rfl⟩
  | cons b bs ih =>
      obtain ⟨w,hw,hrest⟩ := (exec_cons_eq_some _).mp hrun
      obtain ⟨conn₁,hc₁,hpeer,-⟩ := step_kept hi hw hc
      obtain ⟨conn',hc',hpeer'⟩ := ih (step_invariant hi hw) hrest hc₁
      exact ⟨conn',hc',hpeer'.trans hpeer⟩

/-- A step of a reader, taken apart. -/
theorem own_step {s s' : State Id F} {b : Action Id} {τ : Task} (hown : ofTask c τ b = true)
    (hs : step limits s b = some s') (hc : s.conns c = some conn) :
    ∃ a e, b = .act c a ∧ task a = some τ ∧ perform limits s.rooms c conn a = some e ∧
      s' = s.apply c e := by
  cases b with
  | act d a =>
      obtain ⟨rfl,hτ⟩ := of_decide_eq_true hown
      obtain ⟨conn',e,hc',he,hs'⟩ := step_act hs
      rw [hc] at hc'
      cases hc'
      exact ⟨a,e,rfl,hτ,he,hs'⟩
  | _ => cases hown

/-- A lane stream is where its reader left it after any other step. -/
theorem lane_kept {s s' : State Id F} {b : Action Id} {stream : ℕ} {l : LaneReader Id}
    (hi : Invariant limits s) (hs : step limits s b = some s')
    (hown : ofTask c (.lane stream) b = false) (hc : s.conns c = some conn)
    (hl : conn.lanes stream = some l) :
    ∃ conn', s'.conns c = some conn' ∧ conn'.lanes stream = some l := by
  obtain ⟨conn',hc',-,hkept⟩ := step_kept hi hs hc
  obtain ⟨τ',hne,hkept⟩ := hkept _ hown
  refine ⟨conn',hc',?_⟩
  rcases hkept.lanes stream hne with heq | ⟨hnone,-⟩
  · rw [heq,hl]
  · rw [hl] at hnone
    cases hnone

end

end KeepTalkingSfu.TaskSteps
