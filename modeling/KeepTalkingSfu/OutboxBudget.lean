import Mathlib.Algebra.Ring.Nat
import Mathlib.Logic.Function.Basic

/-!
# The byte budget of one connection, operation by operation

Any number of tasks push frames onto the session, control and interactive
queues of one connection while three writers drain them. Every step here is
one operation another task can see: the load of the overflow flag, the
optimistic add, the comparison, the subtraction that undoes it, the swap, the
close, a channel send or receive, the release after a write, and the writer's
decision how to go on. A frame is its size, with what the counter showed when
it was added.

The counter is a natural number that only a subtraction can wrap; additions
are of frames held in memory. Two fields are records that no step reads:
`found` says that some push found a nonempty budget it would exceed, and
`lost` collects the frames that went away with their queue.
-/
namespace KeepTalkingSfu.OutboxBudget

structure Budget where
  queued : ℕ
  limit : ℕ
  overflowed : Bool
  deriving DecidableEq, Repr

/-- Adds to the counter and returns what it was. -/
def Budget.fetchAdd (b : Budget) (size : ℕ) : ℕ × Budget :=
  (b.queued,{ b with queued := b.queued+size })

/-- Subtraction in 64 bits: an underflow wraps. -/
def wrappingSub (queued size : ℕ) : ℕ :=
  if size ≤ queued then queued-size else queued+2^64-size

def Budget.release (b : Budget) (size : ℕ) : Budget :=
  { b with queued := wrappingSub b.queued size }

/-- What the comparison after the add decides. -/
def Budget.exceeds (b : Budget) (before size : ℕ) : Bool := 0 < before && b.limit < before+size

inductive Queue where
  | session
  | control
  | interactive
  deriving DecidableEq, Repr

/-- A frame and what the counter showed before it was added. -/
structure Load where
  size : ℕ
  before : ℕ
  deriving DecidableEq, Repr

structure Channel where
  items : List Load
  isOpen : Bool
  deriving DecidableEq, Repr

/-- Where a push is: the operation it does next. -/
inductive Push where
  | add (q : Queue) (size : ℕ)
  | compare (q : Queue) (load : Load)
  | undo (size : ℕ)
  | swap
  | close
  | send (q : Queue) (load : Load)
  | unsend (load : Load)
  deriving DecidableEq, Repr

inductive Written where
  | ok
  | closed
  | stalled
  deriving DecidableEq, Repr

/-- Where a writer is. -/
inductive Writer where
  | receiving
  | writing (load : Load)
  | releasing (load : Load) (result : Written)
  | deciding (result : Written)
  | exited
  deriving DecidableEq, Repr

structure State where
  budget : Budget
  channel : Queue → Channel
  writer : Queue → Writer
  pushes : List Push
  handles : Bool
  connOpen : Bool
  slowCloses : ℕ
  found : Bool
  lost : List Load

inductive Action where
  | start (q : Queue) (size : ℕ)
  | push (i : ℕ)
  | receive (q : Queue)
  | wrote (q : Queue) (result : Written)
  | release (q : Queue)
  | decide (q : Queue)
  | drained (q : Queue)
  | abort (q : Queue)
  | hangUp
  | peerClose
  deriving DecidableEq, Repr

def State.init (limit : ℕ) : State where
  budget := ⟨0,limit,false⟩
  channel _ := ⟨[],true⟩
  writer _ := .receiving
  pushes := []
  handles := true
  connOpen := true
  slowCloses := 0
  found := false
  lost := []

/-- Replaces the `i`-th push by its continuation, none once it is over. -/
def State.resume (s : State) (i : ℕ) (next : Option Push) : State :=
  { s with pushes := s.pushes.take i++next.toList++s.pushes.drop (i+1) }

def State.setWriter (s : State) (q : Queue) (w : Writer) : State :=
  { s with writer := Function.update s.writer q w }

def State.setItems (s : State) (q : Queue) (items : List Load) : State :=
  { s with channel := Function.update s.channel q ⟨items,(s.channel q).isOpen⟩ }

/-- The frame a writer has in hand and has not released. -/
def Writer.inHand : Writer → List Load
  | .writing load | .releasing load _ => [load]
  | _ => []

/-- A writer waits for a frame or for a write, and only there can it be aborted. -/
def Writer.waits : Writer → Bool
  | .receiving | .writing _ => true
  | _ => false

/-- A writer that goes away drops its receiver, with what is in the queue and
what it had in hand. -/
def State.exit (s : State) (q : Queue) : State :=
  { s with
    writer := Function.update s.writer q .exited
    channel := Function.update s.channel q ⟨[],false⟩
    lost := s.lost++((s.channel q).items++(s.writer q).inHand) }

def pushStep (s : State) (i : ℕ) : Push → State
  | .add q size =>
      { s with budget := (s.budget.fetchAdd size).2 }.resume i
        (some (.compare q ⟨size,(s.budget.fetchAdd size).1⟩))
  | .compare q load =>
      if s.budget.exceeds load.before load.size then
        { s with found := true }.resume i (some (.undo load.size))
      else s.resume i (some (.send q load))
  | .undo size => { s with budget := s.budget.release size }.resume i (some .swap)
  | .swap =>
      { s with budget := { s.budget with overflowed := true } }.resume i
        (if s.budget.overflowed then none else some .close)
  | .close => { s with slowCloses := s.slowCloses+1, connOpen := false }.resume i none
  | .send q load =>
      if (s.channel q).isOpen then
        (s.setItems q ((s.channel q).items++[load])).resume i none
      else s.resume i (some (.unsend load))
  | .unsend load => { s with budget := s.budget.release load.size }.resume i none

/-- How a writer goes on after its write. The session writer ends when its
stream is closed; a lane writer only when the connection is. -/
def decideStep (s : State) (q : Queue) : Written → State
  | .ok => s.setWriter q .receiving
  | .closed =>
      if q = .session ∨ s.connOpen = false then s.exit q else s.setWriter q .receiving
  | .stalled => { s with connOpen := false }.exit q

/-- A push starts with the load of the flag; every frame has at least a header.
Once every handle is gone the writers drain, or are aborted where they wait. -/
def step (s : State) : Action → Option State
  | .start q size =>
      if 0 < size ∧ s.handles = true then
        if s.budget.overflowed then some s
        else some { s with pushes := s.pushes++[.add q size] }
      else none
  | .push i => (s.pushes[i]?).map (pushStep s i)
  | .receive q =>
      match s.writer q,(s.channel q).items with
      | .receiving,load::rest => some ((s.setItems q rest).setWriter q (.writing load))
      | _,_ => none
  | .wrote q result =>
      match s.writer q with
      | .writing load => some (s.setWriter q (.releasing load result))
      | _ => none
  | .release q =>
      match s.writer q with
      | .releasing load result =>
          some ({ s with budget := s.budget.release load.size }.setWriter q (.deciding result))
      | _ => none
  | .decide q =>
      match s.writer q with
      | .deciding result => some (decideStep s q result)
      | _ => none
  | .drained q =>
      if s.writer q = .receiving ∧ (s.channel q).items = [] ∧ s.handles = false then
        some (s.exit q)
      else none
  | .abort q =>
      if s.handles = false ∧ (s.writer q).waits = true then some (s.exit q) else none
  | .hangUp => if s.pushes = [] then some { s with handles := false } else none
  | .peerClose => some { s with connOpen := false }

/-- Every step with its condition and what it does. -/
inductive Stepped (s : State) : Action → State → Prop
  | refused (q : Queue) (size : ℕ) : s.budget.overflowed = true → Stepped s (.start q size) s
  | started (q : Queue) (size : ℕ) : 0 < size → s.handles = true →
      Stepped s (.start q size) { s with pushes := s.pushes++[.add q size] }
  | push (i : ℕ) (p : Push) : s.pushes[i]? = some p → Stepped s (.push i) (pushStep s i p)
  | receive (q : Queue) (load : Load) (rest : List Load) : s.writer q = .receiving →
      (s.channel q).items = load::rest →
      Stepped s (.receive q) ((s.setItems q rest).setWriter q (.writing load))
  | wrote (q : Queue) (load : Load) (result : Written) : s.writer q = .writing load →
      Stepped s (.wrote q result) (s.setWriter q (.releasing load result))
  | release (q : Queue) (load : Load) (result : Written) : s.writer q = .releasing load result →
      Stepped s (.release q)
        ({ s with budget := s.budget.release load.size }.setWriter q (.deciding result))
  | decide (q : Queue) (result : Written) : s.writer q = .deciding result →
      Stepped s (.decide q) (decideStep s q result)
  | drained (q : Queue) : s.writer q = .receiving → (s.channel q).items = [] → s.handles = false →
      Stepped s (.drained q) (s.exit q)
  | abort (q : Queue) : s.handles = false → (s.writer q).waits = true →
      Stepped s (.abort q) (s.exit q)
  | hangUp : s.pushes = [] → Stepped s .hangUp { s with handles := false }
  | peerClose : Stepped s .peerClose { s with connOpen := false }

theorem step_stepped {s s' : State} {a : Action} (h : step s a = some s') : Stepped s a s' := by
  cases a with
  | push i =>
      obtain ⟨p,hp,rfl⟩ := Option.map_eq_some_iff.mp h
      exact .push i p hp
  | start q size =>
      simp only [step] at h
      split_ifs at h with hstart hover
      · cases h
        exact .refused q size hover
      · cases h
        exact .started q size hstart.1 hstart.2
  | receive q =>
      simp only [step] at h
      split at h
      · next load rest hw hc =>
        cases h
        exact .receive q load rest hw hc
      · cases h
  | wrote q result =>
      simp only [step] at h
      split at h
      · next load hw =>
        cases h
        exact .wrote q load result hw
      · cases h
  | release q =>
      simp only [step] at h
      split at h
      · next load result hw =>
        cases h
        exact .release q load result hw
      · cases h
  | decide q =>
      simp only [step] at h
      split at h
      · next result hw =>
        cases h
        exact .decide q result hw
      · cases h
  | drained q =>
      simp only [step] at h
      split_ifs at h with hdrained
      cases h
      exact .drained q hdrained.1 hdrained.2.1 hdrained.2.2
  | abort q =>
      simp only [step] at h
      split_ifs at h with habort
      cases h
      exact .abort q habort.1 habort.2
  | hangUp =>
      simp only [step] at h
      split_ifs at h with hnone
      cases h
      exact .hangUp hnone
  | peerClose =>
      cases h
      exact .peerClose

end KeepTalkingSfu.OutboxBudget
