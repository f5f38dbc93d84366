import Mathlib.Data.Option.Basic
import Mathlib.Logic.Function.Basic

/-!
# Views of a group that follow its changes

A group is a finite map from members to what they announced. Someone who was
given the group once and is told every change after that can keep a view of
it. Here is what one change does to a view, when a change makes sense for it,
and how a member's view leaves the member itself out. Nothing here names a
particular server.
-/
namespace KeepTalkingSfu.MembershipView

variable {K V : Type}

abbrev View (K V : Type) := K → Option V

inductive Change (K V : Type) where
  | joined (k : K)
  | presence (k : K) (v : V)
  | left (k : K)
  deriving DecidableEq

/-- The member a change is about. -/
def Change.subject : Change K V → K
  | .joined k | .presence k _ | .left k => k

/-- A presence or a departure is of someone in the view. -/
def Change.Fits (view : View K V) : Change K V → Prop
  | .joined _ => True
  | .presence k _ | .left k => view k ≠ none

variable [DecidableEq K] (blank : V)

/-- A newcomer starts with the blank announcement. -/
def Change.apply : Change K V → View K V → View K V
  | .joined k,view => Function.update view k (some blank)
  | .presence k v,view => Function.update view k (some v)
  | .left k,view => Function.update view k none

/-- The view after a list of changes. -/
def replay : View K V → List (Change K V) → View K V
  | view,[] => view
  | view,ch::chs => replay (ch.apply blank view) chs

/-- Every change fits the view at its point. -/
def Valid : View K V → List (Change K V) → Prop
  | _,[] => True
  | view,ch::chs => ch.Fits view ∧ Valid (ch.apply blank view) chs

theorem replay_append (view : View K V) (chs chs' : List (Change K V)) :
    replay blank view (chs++chs') = replay blank (replay blank view chs) chs' := by
  induction chs generalizing view with
  | nil => rfl
  | cons ch chs ih => exact ih _

theorem valid_append (view : View K V) (chs chs' : List (Change K V)) :
    Valid blank view (chs++chs') ↔
      Valid blank view chs ∧ Valid blank (replay blank view chs) chs' := by
  induction chs generalizing view with
  | nil => simp [Valid,replay]
  | cons ch chs ih =>
      simp only [List.cons_append,Valid,replay,ih,and_assoc]

/-! ### A member's own view -/

/-- The group as one member sees it: everyone else. -/
def hide (me : K) (view : View K V) : View K V := Function.update view me none

theorem hide_apply_of_ne {me : K} {ch : Change K V} (h : ch.subject ≠ me) (view : View K V) :
    hide me (ch.apply blank view) = ch.apply blank (hide me view) := by
  cases ch <;> exact Function.update_comm h _ _ _

theorem hide_apply_of_eq {me : K} {ch : Change K V} (h : ch.subject = me) (view : View K V) :
    hide me (ch.apply blank view) = hide me view := by
  cases ch <;> cases h <;> exact Function.update_idem _ _ _

theorem fits_hide {me : K} {ch : Change K V} (h : ch.subject ≠ me) {view : View K V}
    (hf : ch.Fits view) : ch.Fits (hide me view) := by
  cases ch with
  | joined k => trivial
  | presence k v => exact (Function.update_of_ne h none view).trans_ne hf
  | left k => exact (Function.update_of_ne h none view).trans_ne hf

/-- The changes lead from one view to another, each fits at its point, and none
is about the one who sees them. -/
structure Follows (me : K) (view : View K V) (chs : List (Change K V)) (view' : View K V) :
    Prop where
  valid : Valid blank view chs
  replay : replay blank view chs = view'
  others : ∀ ch ∈ chs, ch.subject ≠ me

theorem Follows.refl (me : K) (view : View K V) : Follows blank me view [] view :=
  ⟨trivial,rfl,nofun⟩

theorem Follows.trans {me : K} {u v w : View K V} {xs ys : List (Change K V)}
    (h : Follows blank me u xs v) (h' : Follows blank me v ys w) :
    Follows blank me u (xs++ys) w := by
  constructor
  · rw [valid_append,h.replay]
    exact ⟨h.valid,h'.valid⟩
  · rw [replay_append,h.replay]
    exact h'.replay
  · intro ch hch
    rcases List.mem_append.mp hch with hch | hch
    · exact h.others ch hch
    · exact h'.others ch hch

/-- A change of someone else is one step of a member's view. -/
theorem follows_change {me : K} {ch : Change K V} (h : ch.subject ≠ me) {view : View K V}
    (hf : ch.Fits view) :
    Follows blank me (hide me view) [ch] (hide me (ch.apply blank view)) := by
  constructor
  · exact ⟨fits_hide h hf,trivial⟩
  · exact (hide_apply_of_ne blank h view).symm
  · intro ch' hch
    rwa [List.mem_singleton.mp hch]

end KeepTalkingSfu.MembershipView
