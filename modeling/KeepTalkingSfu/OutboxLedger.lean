import KeepTalkingSfu.InterleavedRuns
import KeepTalkingSfu.OutboxBudget
import Mathlib.Algebra.BigOperators.Group.Multiset.Basic
import Mathlib.Algebra.Order.BigOperators.Group.Multiset
import Mathlib.Algebra.Order.Group.Nat
import Mathlib.Tactic.Abel

/-!
# The ledger of a byte budget

What the counter is for: every byte in it belongs to a frame that was accepted
and not released, or to one that was refused and is about to be taken back.
The ledger keeps these two bags beside the counter. Its steps keep it sound,
every step of the budget machine is a ledger step, and so the counter is exact
in every interleaving of the pushes and the writers.
-/
namespace KeepTalkingSfu.OutboxBudget
open InterleavedRuns

@[ext] structure Ledger where
  queued : ℕ
  held : Multiset Load
  overshoot : Multiset ℕ

inductive LedgerStep (limit : ℕ) (l l' : Ledger) : Prop
  | idle : l' = l → LedgerStep limit l l'
  | letIn (size : ℕ) : 0 < size → (l.queued = 0 ∨ l.queued+size ≤ limit) →
      l'.queued = l.queued+size → l'.held = ⟨size,l.queued⟩ ::ₘ l.held →
      l'.overshoot = l.overshoot → LedgerStep limit l l'
  | overshoot (size : ℕ) : l'.queued = l.queued+size → l'.held = l.held →
      l'.overshoot = size ::ₘ l.overshoot → LedgerStep limit l l'
  | undo (size : ℕ) : l'.queued = wrappingSub l.queued size → l'.held = l.held →
      l.overshoot = size ::ₘ l'.overshoot → LedgerStep limit l l'
  | release (load : Load) : l'.queued = wrappingSub l.queued load.size →
      l.held = load ::ₘ l'.held → l'.overshoot = l.overshoot → LedgerStep limit l l'

theorem add_singleton {α : Type} (H : Multiset α) (x : α) : H+{x} = x ::ₘ H := by
  rw [add_comm,Multiset.singleton_add]

/-- The bytes of a bag of frames. -/
def bytes (frames : Multiset Load) : ℕ := (frames.map Load.size).sum

@[simp] theorem bytes_cons (load : Load) (H : Multiset Load) :
    bytes (load ::ₘ H) = load.size+bytes H := by
  simp [bytes]

@[simp] theorem bytes_add (H K : Multiset Load) : bytes (H+K) = bytes H+bytes K := by
  simp [bytes]

theorem size_le_bytes {load : Load} {H : Multiset Load} (h : load ∈ H) :
    load.size ≤ bytes H :=
  Multiset.single_le_sum (fun _ _ => Nat.zero_le _) _ (Multiset.mem_map_of_mem Load.size h)

/-- The counter is exact, and what is held is within the limit or is one frame
that was accepted on an empty budget. -/
structure Ledger.Sound (limit : ℕ) (l : Ledger) : Prop where
  exact_count : l.queued = bytes l.held+l.overshoot.sum
  positive : ∀ load ∈ l.held, 0 < load.size
  within : bytes l.held ≤ limit ∨ ∃ load, l.held = {load} ∧ load.before = 0

theorem wrappingSub_eq {queued size : ℕ} (h : size ≤ queued) :
    wrappingSub queued size = queued-size := if_pos h

theorem LedgerStep.sound {limit : ℕ} {l l' : Ledger} (hs : LedgerStep limit l l')
    (h : l.Sound limit) : l'.Sound limit := by
  have hcount := h.exact_count
  rcases hs with rfl | ⟨size,hpos,hfit,hq,hH,hT⟩ | ⟨size,hq,hH,hT⟩ | ⟨size,hq,hH,hT⟩ |
    ⟨load,hq,hH,hT⟩
  · exact h
  · have hbytes : bytes l'.held = size+bytes l.held := by rw [hH,bytes_cons]
    constructor
    · rw [hT,hq]
      omega
    · rw [hH]
      intro load hl
      rcases Multiset.mem_cons.mp hl with rfl | hl
      · exact hpos
      · exact h.positive load hl
    · rcases hfit with hzero | hfit
      · -- the counter was zero, so nothing with a size is held
        have hnone : l.held = 0 := by
          apply Multiset.eq_zero_of_forall_notMem
          intro load hl
          have h₁ := h.positive load hl
          have h₂ := size_le_bytes hl
          omega
        exact .inr ⟨_,by rw [hH,hnone]; rfl,hzero⟩
      · left
        omega
  · constructor
    · rw [hH,hT,hq,Multiset.sum_cons]
      omega
    · rw [hH]
      exact h.positive
    · rw [hH]
      exact h.within
  · rw [hT,Multiset.sum_cons] at hcount
    constructor
    · rw [hq,hH,wrappingSub_eq (by omega)]
      omega
    · rw [hH]
      exact h.positive
    · rw [hH]
      exact h.within
  · rw [hH,bytes_cons] at hcount
    constructor
    · rw [hq,hT,wrappingSub_eq (by omega)]
      omega
    · intro g hg
      apply h.positive
      rw [hH]
      exact Multiset.mem_cons_of_mem hg
    · left
      rcases h.within with hw | ⟨g,hg,-⟩
      · rw [hH,bytes_cons] at hw
        omega
      · have hnone : l'.held = 0 := by
          have hcard := congrArg Multiset.card hg
          rw [hH] at hcard
          simpa using hcard
        rw [hnone]
        exact Nat.zero_le limit

/-! ### The machine keeps the ledger -/

/-- What a push has added and will leave in the counter. -/
def Push.held (limit : ℕ) : Push → Multiset Load
  | .compare _ load => if 0 < load.before ∧ limit < load.before+load.size then 0 else {load}
  | .send _ load | .unsend load => {load}
  | _ => 0

/-- What a push has added and will take back. -/
def Push.overshoot (limit : ℕ) : Push → Multiset ℕ
  | .compare _ load =>
      if 0 < load.before ∧ limit < load.before+load.size then {load.size} else 0
  | .undo size => {size}
  | _ => 0

section Tally
variable {M : Type} [AddCommMonoid M]

def tally (f : Push → M) (ps : List Push) : M := (ps.map f).sum

@[simp] theorem tally_nil (f : Push → M) : tally f [] = 0 := rfl

@[simp] theorem tally_singleton (f : Push → M) (p : Push) : tally f [p] = f p := by
  simp [tally]

theorem tally_append (f : Push → M) (ps qs : List Push) :
    tally f (ps++qs) = tally f ps+tally f qs := by
  simp [tally]

/-- A push that goes on changes a tally by its own part only. -/
theorem tally_resume (f : Push → M) {s : State} {i : ℕ} {p : Push}
    (hp : s.pushes[i]? = some p) (next : Option Push) :
    tally f (s.resume i next).pushes+f p = tally f s.pushes+tally f next.toList := by
  obtain ⟨hi,hget⟩ := List.getElem?_eq_some_iff.mp hp
  have hsplit : s.pushes = s.pushes.take i++p::s.pushes.drop (i+1) := by
    rw [← hget,← List.drop_eq_getElem_cons hi,List.take_append_drop]
  conv_rhs => rw [hsplit]
  simp only [State.resume,tally,List.map_append,List.map_cons,List.sum_append,List.sum_cons]
  abel

/-- The three queues together. -/
def total {α : Type} (f : α → M) (g : Queue → α) : M :=
  f (g .session)+f (g .control)+f (g .interactive)

theorem total_update {α : Type} (f : α → M) (g : Queue → α) (q : Queue) (x : α) :
    total f (Function.update g q x)+f (g q) = total f g+f x := by
  cases q <;> simp only [total,Function.update_self,ne_eq,reduceCtorEq,not_false_eq_true,
    Function.update_of_ne] <;> abel

end Tally

/-- The frames in the three channels. -/
def State.items (s : State) : Multiset Load := total (fun c => (c.items : Multiset Load)) s.channel

/-- The frames the three writers have in hand. -/
def State.inHand (s : State) : Multiset Load := total (fun w => (w.inHand : Multiset Load)) s.writer

/-- The frames the counter has let in and no release has taken out: on their
way to a channel, in one, in a writer's hand, or lost with their queue. -/
def State.accepted (s : State) : Multiset Load :=
  tally (Push.held s.budget.limit) s.pushes+s.items+s.inHand+(s.lost : Multiset Load)

def State.ledger (s : State) : Ledger where
  queued := s.budget.queued
  held := s.accepted
  overshoot := tally (Push.overshoot s.budget.limit) s.pushes

theorem State.exit_ledger (s : State) (q : Queue) : (s.exit q).ledger = s.ledger := by
  have hc := total_update (fun c : Channel => (c.items : Multiset Load)) s.channel q ⟨[],false⟩
  have hw := total_update (fun w : Writer => (w.inHand : Multiset Load)) s.writer q .exited
  simp only [show Writer.exited.inHand = [] from rfl,Multiset.coe_nil,add_zero] at hc hw
  simp only [State.ledger,State.accepted,State.items,State.inHand,State.exit,
    ← Multiset.coe_add,← hc,← hw]
  congr 1
  abel

theorem State.setWriter_accepted (s : State) (q : Queue) (w : Writer) :
    (s.setWriter q w).accepted+((s.writer q).inHand : Multiset Load) =
      s.accepted+(w.inHand : Multiset Load) := by
  have hw := total_update (fun w : Writer => (w.inHand : Multiset Load)) s.writer q w
  change tally (Push.held s.budget.limit) s.pushes+s.items+
    total _ (Function.update s.writer q _)+(s.lost : Multiset Load)+_ = _
  rw [add_right_comm,add_assoc (tally _ _+_),hw,State.accepted,State.inHand]
  abel

theorem State.setItems_accepted (s : State) (q : Queue) (items : List Load) :
    (s.setItems q items).accepted+((s.channel q).items : Multiset Load) =
      s.accepted+(items : Multiset Load) := by
  have hc := total_update (fun c : Channel => (c.items : Multiset Load)) s.channel q
    ⟨items,(s.channel q).isOpen⟩
  change tally (Push.held s.budget.limit) s.pushes+total _ (Function.update s.channel q _)+
    s.inHand+(s.lost : Multiset Load)+_ = _
  rw [add_right_comm,add_right_comm _ s.inHand,add_assoc (tally _ _),hc,State.accepted,State.items]
  abel

/-- A writer that keeps what it has in hand keeps the ledger. -/
theorem State.setWriter_ledger (s : State) {q : Queue} {w : Writer}
    (h : w.inHand = (s.writer q).inHand) : (s.setWriter q w).ledger = s.ledger := by
  have hw := s.setWriter_accepted q w
  rw [h] at hw
  exact Ledger.ext rfl (add_right_cancel hw) rfl

theorem decideStep_ledger (s : State) {q : Queue} {result : Written}
    (h : s.writer q = .deciding result) : (decideStep s q result).ledger = s.ledger := by
  have hnone : Writer.receiving.inHand = (s.writer q).inHand := by rw [h]; rfl
  cases result with
  | ok => exact s.setWriter_ledger hnone
  | closed =>
      simp only [decideStep]
      split
      · exact s.exit_ledger q
      · exact s.setWriter_ledger hnone
  | stalled => exact State.exit_ledger _ q

/-- Every push still to be counted is of a frame with a size. -/
def State.Ready (s : State) : Prop := ∀ q size, Push.add q size ∈ s.pushes → 0 < size

section Resume
variable {s : State} {i : ℕ} {p : Push}

theorem State.resume_accepted (hp : s.pushes[i]? = some p) (next : Option Push) :
    (s.resume i next).accepted+p.held s.budget.limit =
      s.accepted+tally (Push.held s.budget.limit) next.toList := by
  have h := tally_resume (Push.held s.budget.limit) hp next
  calc (s.resume i next).accepted+p.held s.budget.limit
      = tally (Push.held s.budget.limit) (s.resume i next).pushes+p.held s.budget.limit+
          s.items+s.inHand+(s.lost : Multiset Load) := by
        change tally (Push.held s.budget.limit) (s.resume i next).pushes+s.items+s.inHand+
          (s.lost : Multiset Load)+_ = _
        abel
    _ = s.accepted+tally (Push.held s.budget.limit) next.toList := by
        rw [h,State.accepted]
        abel

theorem State.resume_overshoot (hp : s.pushes[i]? = some p) (next : Option Push) :
    (s.resume i next).ledger.overshoot+p.overshoot s.budget.limit =
      s.ledger.overshoot+tally (Push.overshoot s.budget.limit) next.toList :=
  tally_resume (Push.overshoot s.budget.limit) hp next

/-- Only the counter and the push that goes on change the ledger. -/
theorem State.resume_ledger (hp : s.pushes[i]? = some p) {next : Option Push}
    (hh : tally (Push.held s.budget.limit) next.toList = p.held s.budget.limit)
    (ho : tally (Push.overshoot s.budget.limit) next.toList = p.overshoot s.budget.limit) :
    (s.resume i next).ledger = s.ledger := by
  have h₁ := State.resume_accepted hp next
  have h₂ := State.resume_overshoot hp next
  rw [hh] at h₁
  rw [ho] at h₂
  have h₃ : (s.resume i next).ledger =
      ⟨s.budget.queued,(s.resume i next).accepted,(s.resume i next).ledger.overshoot⟩ := rfl
  rw [h₃,add_right_cancel h₁,add_right_cancel h₂]
  rfl

end Resume

theorem pushStep_ledger {s : State} {i : ℕ} {p : Push} (hp : s.pushes[i]? = some p)
    (hready : s.Ready) : LedgerStep s.budget.limit s.ledger (pushStep s i p).ledger := by
  cases p with
  | add q size =>
      let t : State := { s with budget := (s.budget.fetchAdd size).2 }
      have hh := State.resume_accepted (s := t) hp (some (.compare q ⟨size,s.budget.queued⟩))
      have ho := State.resume_overshoot (s := t) hp (some (.compare q ⟨size,s.budget.queued⟩))
      have hl : t.budget.limit = s.budget.limit := rfl
      simp only [Option.toList_some,tally_singleton,Push.held,Push.overshoot,add_zero,hl] at hh ho
      by_cases hfit : 0 < s.budget.queued ∧ s.budget.limit < s.budget.queued+size
      · rw [if_pos hfit] at hh ho
        apply LedgerStep.overshoot size
        · rfl
        · exact hh.trans (add_zero s.accepted)
        · exact ho.trans (add_singleton _ _)
      · rw [if_neg hfit] at hh ho
        apply LedgerStep.letIn size (hready q size (List.mem_of_getElem? hp))
        · change s.budget.queued = 0 ∨ s.budget.queued+size ≤ s.budget.limit
          omega
        · rfl
        · exact hh.trans (add_singleton _ _)
        · exact ho.trans (add_zero s.ledger.overshoot)
  | compare q load =>
      apply LedgerStep.idle
      simp only [pushStep,Budget.exceeds,Bool.and_eq_true,decide_eq_true_eq]
      split
      · next hover =>
        apply State.resume_ledger (s := { s with found := true }) hp
        · simp [Push.held,hover]
        · simp [Push.overshoot,hover]
      · next hfit =>
        apply State.resume_ledger hp
        · rw [Option.toList_some,tally_singleton,Push.held,Push.held,if_neg hfit]
        · simp [Push.overshoot,hfit]
  | undo size =>
      let t : State := { s with budget := s.budget.release size }
      have hh := State.resume_accepted (s := t) hp (some .swap)
      have ho := State.resume_overshoot (s := t) hp (some .swap)
      simp only [Option.toList_some,tally_singleton,Push.held,Push.overshoot,add_zero] at hh ho
      apply LedgerStep.undo size
      · rfl
      · exact hh
      · exact ho.symm.trans (add_singleton _ _)
  | swap =>
      apply LedgerStep.idle
      apply State.resume_ledger (s := { s with budget := { s.budget with overflowed := true } }) hp
      all_goals cases s.budget.overflowed <;> rfl
  | close =>
      apply LedgerStep.idle
      exact State.resume_ledger (s := { s with slowCloses := s.slowCloses+1, connOpen := false })
        hp rfl rfl
  | send q load =>
      apply LedgerStep.idle
      simp only [pushStep]
      split
      · let t := s.setItems q ((s.channel q).items++[load])
        have hh := State.resume_accepted (s := t) hp none
        have ho := State.resume_overshoot (s := t) hp none
        have hi := s.setItems_accepted q ((s.channel q).items++[load])
        simp only [Option.toList_none,tally_nil,Push.held,Push.overshoot,add_zero] at hh ho
        rw [← Multiset.coe_add,add_comm _ (([load] : List Load) : Multiset Load),← add_assoc] at hi
        have hsame := add_right_cancel (hh.trans (add_right_cancel hi))
        exact Ledger.ext rfl hsame ho
      · exact State.resume_ledger hp rfl rfl
  | unsend load =>
      let t : State := { s with budget := s.budget.release load.size }
      have hh := State.resume_accepted (s := t) hp none
      have ho := State.resume_overshoot (s := t) hp none
      simp only [Option.toList_none,tally_nil,Push.held,Push.overshoot,add_zero] at hh ho
      apply LedgerStep.release load
      · rfl
      · exact hh.symm.trans (add_singleton _ _)
      · exact ho

theorem step_ledger {s s' : State} {a : Action} (h : step s a = some s') (hready : s.Ready) :
    LedgerStep s.budget.limit s.ledger s'.ledger := by
  cases step_stepped h with
  | started q size =>
      apply LedgerStep.idle
      simp only [State.ledger,State.accepted,tally_append,tally_singleton,Push.held,
        Push.overshoot,add_zero]
      rfl
  | push i p hp => exact pushStep_ledger hp hready
  | receive q load rest hw hc =>
      apply LedgerStep.idle
      have hi := s.setItems_accepted q rest
      have hw' := (s.setItems q rest).setWriter_accepted q (.writing load)
      have hnone : ((s.setItems q rest).writer q).inHand = [] := by
        change (s.writer q).inHand = []
        rw [hw]
        rfl
      rw [hc,← Multiset.cons_coe,← add_singleton,← add_assoc,add_right_comm] at hi
      rw [hnone,Multiset.coe_nil,add_zero] at hw'
      exact Ledger.ext rfl (hw'.trans (add_right_cancel hi)) rfl
  | wrote q load result hw => exact .idle (s.setWriter_ledger (by rw [hw]; rfl))
  | release q load result hw =>
      let t : State := { s with budget := s.budget.release load.size }
      have hw' := t.setWriter_accepted q (.deciding result)
      have hhand : (t.writer q).inHand = [load] := by
        change (s.writer q).inHand = _
        rw [hw]
        rfl
      rw [hhand,show (Writer.deciding result).inHand = [] from rfl,Multiset.coe_nil,add_zero] at hw'
      apply LedgerStep.release load
      · rfl
      · exact hw'.symm.trans (add_singleton _ _)
      · rfl
  | decide q result hw => exact .idle (decideStep_ledger s hw)
  | drained q | abort q => exact .idle (s.exit_ledger q)
  | refused | hangUp | peerClose => exact .idle rfl

/-! ### The flag and the close -/

/-- A push that swapped the flag first and has not closed yet. -/
def Push.closing : Push → ℕ
  | .close => 1
  | _ => 0

/-- A refused push that has not swapped the flag yet. -/
def Push.refused : Push → ℕ
  | .undo _ | .swap => 1
  | _ => 0

structure State.Flags (s : State) : Prop where
  closes : s.slowCloses+tally Push.closing s.pushes = s.budget.overflowed.toNat
  found_iff : s.found = true ↔ s.budget.overflowed = true ∨ 0 < tally Push.refused s.pushes

theorem State.Flags.resume {s : State} {i : ℕ} {p : Push} (h : s.Flags)
    (hp : s.pushes[i]? = some p) {next : Option Push}
    (hc : tally Push.closing next.toList = p.closing)
    (hr : tally Push.refused next.toList = p.refused) : (s.resume i next).Flags := by
  have h₁ := tally_resume Push.closing hp next
  have h₂ := tally_resume Push.refused hp next
  rw [hc] at h₁
  rw [hr] at h₂
  constructor
  · rw [add_right_cancel h₁]
    exact h.closes
  · rw [add_right_cancel h₂]
    exact h.found_iff

theorem pushStep_flags {s : State} {i : ℕ} {p : Push} (hp : s.pushes[i]? = some p)
    (h : s.Flags) : (pushStep s i p).Flags := by
  have hcloses := h.closes
  cases p with
  | add q size =>
      exact State.Flags.resume (s := { s with budget := (s.budget.fetchAdd size).2 })
        ⟨h.closes,h.found_iff⟩ hp rfl rfl
  | compare q load =>
      simp only [pushStep]
      split
      · -- the refused push now counts, and it is recorded
        have hc : _+0 = _+0 := tally_resume Push.closing hp (some (.undo load.size))
        have hr : _+0 = _+1 := tally_resume Push.refused hp (some (.undo load.size))
        constructor
        · exact (congrArg (s.slowCloses+·) hc).trans hcloses
        · apply iff_of_true
          · rfl
          · right
            change 0 < tally Push.refused (s.resume i (some (.undo load.size))).pushes
            omega
      · exact h.resume hp rfl rfl
  | undo size =>
      exact State.Flags.resume (s := { s with budget := s.budget.release size })
        ⟨h.closes,h.found_iff⟩ hp rfl rfl
  | swap =>
      have hfound : s.found = true := by
        have hr : _+1 = _ := tally_resume Push.refused hp none
        apply h.found_iff.mpr
        right
        rw [Option.toList_none,tally_nil] at hr
        omega
      constructor
      · change s.slowCloses+tally Push.closing
          (s.resume i (if s.budget.overflowed then none else some .close)).pushes = 1
        cases hb : s.budget.overflowed with
        | false =>
            have hc : _+0 = _+1 := tally_resume Push.closing hp (some .close)
            rw [hb] at hcloses
            simp only [Bool.toNat_false] at hcloses
            simp only [Bool.false_eq_true,if_false]
            omega
        | true =>
            have hc : _+0 = _+0 := tally_resume Push.closing hp none
            rw [hb] at hcloses
            simp only [Bool.toNat_true] at hcloses
            simp only [if_true]
            omega
      · exact iff_of_true hfound (.inl rfl)
  | close =>
      have hc : _+1 = _+0 := tally_resume Push.closing hp none
      have hr : _+0 = _+0 := tally_resume Push.refused hp none
      constructor
      · change s.slowCloses+1+tally Push.closing (s.resume i none).pushes = s.budget.overflowed.toNat
        omega
      · change s.found = true ↔ s.budget.overflowed = true ∨
          0 < tally Push.refused (s.resume i none).pushes
        rw [show tally Push.refused (s.resume i none).pushes = _ from hr]
        exact h.found_iff
  | send q load =>
      simp only [pushStep]
      split
      · exact State.Flags.resume (s := s.setItems q ((s.channel q).items++[load]))
          ⟨h.closes,h.found_iff⟩ hp rfl rfl
      · exact h.resume hp rfl rfl
  | unsend load =>
      exact State.Flags.resume (s := { s with budget := s.budget.release load.size })
        ⟨h.closes,h.found_iff⟩ hp rfl rfl

/-- A step that is not a push leaves the flag and the records, and at most
starts one push. -/
theorem step_other {s s' : State} {a : Action} (h : step s a = some s') (ha : ∀ i, a ≠ .push i) :
    s'.budget.limit = s.budget.limit ∧ s'.budget.overflowed = s.budget.overflowed ∧
      s'.slowCloses = s.slowCloses ∧ s'.found = s.found ∧
      (s'.pushes = s.pushes ∨ ∃ q size, 0 < size ∧ s'.pushes = s.pushes++[.add q size]) := by
  cases step_stepped h with
  | push i => exact absurd rfl (ha i)
  | started q size hpos => exact ⟨rfl,rfl,rfl,rfl,.inr ⟨q,size,hpos,rfl⟩⟩
  | decide q result =>
      cases result with
      | ok | stalled => exact ⟨rfl,rfl,rfl,rfl,.inl rfl⟩
      | closed =>
          simp only [decideStep]
          split <;> exact ⟨rfl,rfl,rfl,rfl,.inl rfl⟩
  | _ => exact ⟨rfl,rfl,rfl,rfl,.inl rfl⟩

/-! ### Every run -/

structure State.Invariant (limit : ℕ) (s : State) : Prop where
  limit_eq : s.budget.limit = limit
  ready : s.Ready
  sound : s.ledger.Sound limit
  flags : s.Flags

theorem init_invariant (limit : ℕ) : (State.init limit).Invariant limit where
  limit_eq := rfl
  ready := nofun
  sound := ⟨rfl,nofun,.inl (Nat.zero_le limit)⟩
  flags := ⟨rfl,by simp [State.init]⟩

theorem mem_resume {s : State} {i : ℕ} {next : Option Push} {p : Push}
    (h : p ∈ (s.resume i next).pushes) : p ∈ s.pushes ∨ next = some p := by
  simp only [State.resume,List.mem_append,Option.mem_toList] at h
  rcases h with (h | h) | h
  · exact .inl (List.mem_of_mem_take h)
  · exact .inr h
  · exact .inl (List.mem_of_mem_drop h)

/-- Only a new push has still to be counted. -/
theorem pushStep_ready {s : State} (i : ℕ) (p : Push) (h : s.Ready) : (pushStep s i p).Ready := by
  have key : ∀ (t : State) (next : Option Push), t.pushes = s.pushes →
      (∀ q size, next ≠ some (.add q size)) → (t.resume i next).Ready := by
    intro t next ht hnext q size hmem
    rcases mem_resume hmem with hmem | hmem
    · exact h q size (ht ▸ hmem)
    · exact absurd hmem (hnext q size)
  cases p with
  | compare q load =>
      simp only [pushStep]
      split <;> exact key _ _ rfl nofun
  | swap =>
      apply key _ _ rfl
      intro q size
      cases s.budget.overflowed <;> nofun
  | send q load =>
      simp only [pushStep]
      split <;> exact key _ _ rfl nofun
  | _ => exact key _ _ rfl nofun

theorem pushStep_limit (s : State) (i : ℕ) (p : Push) :
    (pushStep s i p).budget.limit = s.budget.limit := by
  cases p <;> simp only [pushStep] <;> first | rfl | split <;> rfl

theorem step_invariant {limit : ℕ} {s s' : State} {a : Action} (hi : s.Invariant limit)
    (h : step s a = some s') : s'.Invariant limit := by
  have hsound : s'.ledger.Sound limit := by
    have hl := step_ledger h hi.ready
    rw [hi.limit_eq] at hl
    exact hl.sound hi.sound
  by_cases ha : ∃ i, a = .push i
  · obtain ⟨i,rfl⟩ := ha
    obtain ⟨p,hp,rfl⟩ := Option.map_eq_some_iff.mp h
    exact ⟨(pushStep_limit s i p).trans hi.limit_eq,pushStep_ready i p hi.ready,hsound,
      pushStep_flags hp hi.flags⟩
  · obtain ⟨hlim,hover,hslow,hfound,hpushes⟩ := step_other h (fun i hi => ha ⟨i,hi⟩)
    have htally : ∀ f : Push → ℕ, (∀ q size, f (.add q size) = 0) →
        tally f s'.pushes = tally f s.pushes := by
      intro f hf
      rcases hpushes with hp | ⟨q,size,-,hp⟩
      · rw [hp]
      · rw [hp,tally_append,tally_singleton,hf,add_zero]
    refine ⟨hlim.trans hi.limit_eq,?_,hsound,?_,?_⟩
    · intro q size hmem
      rcases hpushes with hp | ⟨q',size',hpos,hp⟩
      · exact hi.ready q size (hp ▸ hmem)
      · rw [hp,List.mem_append,List.mem_singleton,Push.add.injEq] at hmem
        rcases hmem with hmem | ⟨-,rfl⟩
        · exact hi.ready q size hmem
        · exact hpos
    · rw [hslow,hover,htally _ (fun _ _ => rfl)]
      exact hi.flags.closes
    · rw [hfound,hover,htally _ (fun _ _ => rfl)]
      exact hi.flags.found_iff

theorem run_invariant {limit : ℕ} {as : List Action} {s : State}
    (h : exec step (State.init limit) as = some s) : s.Invariant limit :=
  exec_invariant step (fun _ _ _ hi hs => step_invariant hi hs) (init_invariant limit) h

/-- What the next operation of a push takes out of the counter. -/
def Push.takesOut : Push → ℕ
  | .undo size => size
  | .unsend load => load.size
  | _ => 0

/-- What the next operation of a writer takes out of the counter. -/
def Writer.takesOut : Writer → ℕ
  | .releasing load _ => load.size
  | _ => 0

/-- The step is a comparison that finds a nonempty budget the frame exceeds. -/
def Refuses (s : State) (a : Action) : Prop :=
  ∃ i q load, a = .push i ∧ s.pushes[i]? = some (.compare q load) ∧
    0 < load.before ∧ s.budget.limit < load.before+load.size

theorem step_found {s s' : State} {a : Action} (h : step s a = some s') :
    s'.found = true ↔ s.found = true ∨ Refuses s a := by
  by_cases ha : ∃ i, a = .push i
  · obtain ⟨i,rfl⟩ := ha
    obtain ⟨p,hp,rfl⟩ := Option.map_eq_some_iff.mp h
    have hother : (∀ q load, p ≠ .compare q load) → ¬Refuses s (.push i) := by
      rintro hne ⟨j,q,load,hj,hcmp,-⟩
      cases hj
      exact hne q load (Option.some.inj (hp.symm.trans hcmp))
    cases p with
    | compare q load =>
        have hiff : Refuses s (.push i) ↔ s.budget.exceeds load.before load.size = true := by
          simp [Refuses,Budget.exceeds,hp]
        simp only [pushStep]
        split
        · next hover => exact iff_of_true rfl (.inr (hiff.mpr hover))
        · next hfit =>
          rw [hiff,or_iff_left hfit]
          rfl
    | send q load =>
        rw [or_iff_left (hother nofun)]
        simp only [pushStep]
        split <;> rfl
    | _ =>
        rw [or_iff_left (hother nofun)]
        rfl
  · have hfound := (step_other h (fun i hi => ha ⟨i,hi⟩)).2.2.2.1
    rw [hfound,or_iff_left]
    rintro ⟨i,q,load,hi,-⟩
    exact ha ⟨i,hi⟩

theorem overshoot_le {limit : ℕ} {ps : List Push} {p : Push} (h : p ∈ ps) :
    (p.overshoot limit).sum ≤ (tally (Push.overshoot limit) ps).sum := by
  obtain ⟨ps₁,ps₂,rfl⟩ := List.append_of_mem h
  simp only [tally,List.map_append,List.map_cons,List.sum_append,List.sum_cons,Multiset.sum_add]
  omega

theorem held_le {limit : ℕ} {ps : List Push} {p : Push} (h : p ∈ ps) :
    bytes (p.held limit) ≤ bytes (tally (Push.held limit) ps) := by
  obtain ⟨ps₁,ps₂,rfl⟩ := List.append_of_mem h
  simp only [tally,List.map_append,List.map_cons,List.sum_append,List.sum_cons,bytes_add]
  omega

theorem State.Invariant.push_takesOut_le {limit : ℕ} {s : State} (hi : s.Invariant limit) {p : Push}
    (hp : p ∈ s.pushes) : p.takesOut ≤ s.budget.queued := by
  have hcount := hi.sound.exact_count
  simp only [State.ledger,State.accepted,bytes_add] at hcount
  have h₁ := @overshoot_le s.budget.limit _ _ hp
  have h₂ := @held_le s.budget.limit _ _ hp
  cases p with
  | undo size =>
      simp only [Push.overshoot,Multiset.sum_singleton] at h₁
      simp only [Push.takesOut]
      omega
  | unsend load =>
      simp only [Push.held,bytes,Multiset.map_singleton,Multiset.sum_singleton] at h₂ hcount
      simp only [Push.takesOut]
      omega
  | _ => exact Nat.zero_le _

theorem State.Invariant.writer_takesOut_le {limit : ℕ} {s : State} (hi : s.Invariant limit) (q : Queue) :
    (s.writer q).takesOut ≤ s.budget.queued := by
  have hcount := hi.sound.exact_count
  have hhand : bytes ((s.writer q).inHand : Multiset Load) ≤ bytes s.inHand := by
    cases q <;> simp only [State.inHand,total,bytes_add] <;> omega
  simp only [State.ledger,State.accepted,bytes_add] at hcount
  have hle : (s.writer q).takesOut ≤ bytes ((s.writer q).inHand : Multiset Load) := by
    cases s.writer q <;> simp [Writer.takesOut,Writer.inHand,bytes]
  omega

/-- In every interleaving no release takes out more than the counter holds, the
frames let in and not released are within the limit or are one frame let in on
an empty budget, and the connection is closed as a slow consumer at most once:
only if some push found a nonempty budget it would exceed, and by the time no
refused push is under way also if. -/
theorem outbox_budget_safe {limit : ℕ} {as : List Action} {s : State}
    (h : exec step (State.init limit) as = some s) :
    (∀ p ∈ s.pushes, p.takesOut ≤ s.budget.queued) ∧
    (∀ q, (s.writer q).takesOut ≤ s.budget.queued) ∧
    (bytes s.accepted ≤ limit ∨ ∃ load, s.accepted = {load} ∧ load.before = 0) ∧
    s.slowCloses ≤ 1 ∧
    (s.slowCloses = 1 → Sometime step Refuses (State.init limit) as) ∧
    (Sometime step Refuses (State.init limit) as →
      (∀ p ∈ s.pushes, p.refused = 0 ∧ p.closing = 0) → s.slowCloses = 1) := by
  have hi := run_invariant h
  have hfound : s.found = true ↔ Sometime step Refuses (State.init limit) as := by
    have hflag := sometime_flag step (F := fun s => s.found = true) (fun _ _ _ => step_found) h
    rw [hflag]
    exact or_iff_right nofun
  have hcloses := hi.flags.closes
  have hle := s.budget.overflowed.toNat_le
  refine ⟨fun p => hi.push_takesOut_le,hi.writer_takesOut_le,hi.sound.within,by omega,?_,?_⟩
  · intro hone
    rw [← hfound,hi.flags.found_iff]
    left
    apply Bool.toNat_eq_one.mp
    omega
  · intro hsome hnone
    have htally : ∀ f : Push → ℕ, (∀ p ∈ s.pushes, f p = 0) → tally f s.pushes = 0 := by
      intro f hf
      apply List.sum_eq_zero
      simpa using hf
    rw [← hfound,hi.flags.found_iff,htally _ (fun p hp => (hnone p hp).1)] at hsome
    rw [htally _ (fun p hp => (hnone p hp).2),hsome.resolve_right (lt_irrefl 0)] at hcloses
    exact hcloses

/-- Two pushes of 60 bytes under a limit of 100, counted before either
compares: the second one closes the connection. -/
def twoPushes : List Action :=
  [.start .session 60,.start .control 60,.push 0,.push 1,.push 0,.push 1,.push 1,.push 1,.push 1,
    .push 0]

theorem outbox_budget_safe_two_pushes : ∃ s, exec step (State.init 100) twoPushes = some s ∧
    s.slowCloses = 1 ∧ bytes s.accepted = 60 ∧
    Sometime step Refuses (State.init 100) twoPushes ∧ bytes s.accepted ≤ 100 := by
  refine ⟨_,rfl,rfl,by decide,?_⟩
  obtain ⟨-,-,hbytes,-,hsome,-⟩ := @outbox_budget_safe 100 twoPushes _ rfl
  constructor
  · exact hsome rfl
  · rcases hbytes with hbytes | ⟨load,hload,-⟩
    · exact hbytes
    · decide

end KeepTalkingSfu.OutboxBudget
