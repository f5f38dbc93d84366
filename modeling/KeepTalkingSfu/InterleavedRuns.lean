import Mathlib.Data.List.Basic
import Mathlib.Algebra.Order.Ring.Defs

/-!
# Runs of an interleaved system

A system is a partial step function on labelled actions: a label that is not
enabled gives no next state. A run is the list of its labels, so every
interleaving of the tasks is a run, and what holds of all runs is proved by
one step at a time. Nothing here names a particular system.
-/
namespace KeepTalkingSfu.InterleavedRuns

variable {S A : Type} (step : S → A → Option S)

/-- Executes the labels in order. -/
def exec : S → List A → Option S
  | s,[] => some s
  | s,a::as => (step s a).bind fun s' => exec s' as

@[simp] theorem exec_nil (s : S) : exec step s [] = some s := rfl

theorem exec_cons_eq_some {s t : S} {a : A} {as : List A} :
    exec step s (a::as) = some t ↔ ∃ s', step s a = some s' ∧ exec step s' as = some t := by
  simp [exec,Option.bind_eq_some_iff]

theorem exec_append_eq_some {s t : S} {as bs : List A} :
    exec step s (as++bs) = some t ↔ ∃ u, exec step s as = some u ∧ exec step u bs = some t := by
  induction as generalizing s with
  | nil => simp
  | cons a as ih =>
      rw [List.cons_append,exec_cons_eq_some]
      constructor
      · rintro ⟨s',hs,h⟩
        obtain ⟨u,hu,ht⟩ := ih.mp h
        exact ⟨u,(exec_cons_eq_some step).mpr ⟨s',hs,hu⟩,ht⟩
      · rintro ⟨u,hu,ht⟩
        obtain ⟨s',hs,hu⟩ := (exec_cons_eq_some step).mp hu
        exact ⟨s',hs,ih.mpr ⟨u,hu,ht⟩⟩

theorem exec_invariant {I : S → Prop} (hstep : ∀ s a s', I s → step s a = some s' → I s')
    {s t : S} {as : List A} (hs : I s) (h : exec step s as = some t) : I t := by
  induction as generalizing s with
  | nil =>
      cases h
      exact hs
  | cons a as ih =>
      obtain ⟨s',h₁,h₂⟩ := (exec_cons_eq_some step).mp h
      exact ih (hstep s a s' hs h₁) h₂

/-- A run all of whose steps meet a condition on the state they start from. -/
def Along (P : S → A → Prop) : S → List A → Prop
  | _,[] => True
  | s,a::as => P s a ∧ ∀ s', step s a = some s' → Along P s' as

instance Along.decidable {P : S → A → Prop} [∀ s a, Decidable (P s a)] :
    ∀ s as, Decidable (Along step P s as)
  | _,[] => .isTrue trivial
  | s,a::as =>
      match h : step s a with
      | none => decidable_of_iff (P s a) (by simp [Along,h])
      | some s' =>
          have := Along.decidable (P := P) s' as
          decidable_of_iff (P s a ∧ Along step P s' as) (by simp [Along,h])

theorem along_of_append {P : S → A → Prop} {s u : S} {as bs : List A}
    (h : Along step P s (as++bs)) (hu : exec step s as = some u) : Along step P u bs := by
  induction as generalizing s with
  | nil =>
      cases hu
      exact h
  | cons a as ih =>
      obtain ⟨s',h₁,h₂⟩ := (exec_cons_eq_some step).mp hu
      exact ih (h.2 s' h₁) h₂

theorem along_snoc {P : S → A → Prop} {s u : S} {as : List A} {b : A}
    (h : Along step P s as) (hu : exec step s as = some u) (hb : P u b) :
    Along step P s (as++[b]) := by
  induction as generalizing s with
  | nil =>
      cases hu
      exact ⟨hb,fun _ _ => trivial⟩
  | cons a as ih =>
      refine ⟨h.1,fun s' hs => ih (h.2 s' hs) ?_⟩
      obtain ⟨s'',h₁,h₂⟩ := (exec_cons_eq_some step).mp hu
      rw [hs] at h₁
      cases h₁
      exact h₂

theorem exec_snoc_eq_some {s t : S} {as : List A} {a : A} :
    exec step s (as++[a]) = some t ↔ ∃ u, exec step s as = some u ∧ step u a = some t := by
  rw [exec_append_eq_some]
  simp [exec]

theorem along_of_forall {P : S → A → Prop} {as : List A} (h : ∀ a ∈ as, ∀ s, P s a) (s : S) :
    Along step P s as := by
  induction as generalizing s with
  | nil => trivial
  | cons a as ih =>
      exact ⟨h a List.mem_cons_self s,fun s' _ => ih (fun b hb => h b (List.mem_cons_of_mem _ hb)) s'⟩

/-- What holds in the states a run goes through and where it ends holds where it
starts. -/
theorem along_start {Q : S → Prop} {s t : S} {as : List A} (h : Along step (fun u _ => Q u) s as)
    (ht : exec step s as = some t) (hend : Q t) : Q s := by
  cases as with
  | nil =>
      cases ht
      exact hend
  | cons a as => exact h.1

/-- What every step that meets the condition preserves holds after every run
whose steps all meet it. -/
theorem along_invariant {P : S → A → Prop} {I : S → Prop}
    (hstep : ∀ s a s', I s → P s a → step s a = some s' → I s')
    {s t : S} {as : List A} (hs : I s) (hp : Along step P s as)
    (h : exec step s as = some t) : I t := by
  induction as generalizing s with
  | nil =>
      cases h
      exact hs
  | cons a as ih =>
      obtain ⟨s',h₁,h₂⟩ := (exec_cons_eq_some step).mp h
      exact ih (hstep s a s' hs hp.1 h₁) (hp.2 s' h₁) h₂

/-- A run one of whose steps meets a condition on the state it starts from. -/
def Sometime (P : S → A → Prop) : S → List A → Prop
  | _,[] => False
  | s,a::as => P s a ∨ ∃ s', step s a = some s' ∧ Sometime P s' as

/-- A flag that exactly the steps meeting the condition raise is up after a run
when it was up before or one of the steps met it. -/
theorem sometime_flag {P : S → A → Prop} {F : S → Prop}
    (hstep : ∀ s a s', step s a = some s' → (F s' ↔ F s ∨ P s a))
    {s t : S} {as : List A} (h : exec step s as = some t) : F t ↔ F s ∨ Sometime step P s as := by
  induction as generalizing s with
  | nil =>
      cases h
      simp [Sometime]
  | cons a as ih =>
      obtain ⟨s',h₁,h₂⟩ := (exec_cons_eq_some step).mp h
      rw [ih h₂,hstep s a s' h₁]
      simp only [Sometime,h₁,Option.some.injEq,exists_eq_left',or_assoc]

/-- A step of a run: its label, where it started and where it led. -/
structure Taken (S A : Type) where
  label : A
  before : S
  after : S

/-- The steps of a run with a selected label, in order. -/
def taken (sel : A → Bool) : S → List A → List (Taken S A)
  | _,[] => []
  | s,a::as =>
      match step s a with
      | none => []
      | some s' => (if sel a then [⟨a,s,s'⟩] else [])++taken sel s' as

theorem taken_cons (sel : A → Bool) {s s' : S} {a : A} (h : step s a = some s') (as : List A) :
    taken step sel s (a::as) = (if sel a then [⟨a,s,s'⟩] else [])++taken step sel s' as := by
  simp only [taken,h]

/-- A step of a run was taken in a state that a first part of the run leads to. -/
theorem of_mem_taken {sel : A → Bool} {s : S} {as : List A} {x : Taken S A}
    (h : x ∈ taken step sel s as) : ∃ bs, exec step s bs = some x.before ∧
      step x.before x.label = some x.after ∧ sel x.label = true := by
  induction as generalizing s with
  | nil => cases h
  | cons a as ih =>
      cases hs : step s a with
      | none =>
          simp only [taken,hs] at h
          cases h
      | some s' =>
          rw [taken_cons step sel hs,List.mem_append] at h
          rcases h with h | h
          · split_ifs at h with hsel
            · rw [List.mem_singleton.mp h]
              exact ⟨[],rfl,hs,hsel⟩
            · cases h
          · obtain ⟨bs,hbs,hx⟩ := ih h
            exact ⟨a::bs,(exec_cons_eq_some step).mpr ⟨s',hs,hbs⟩,hx⟩

/-- What the steps of a run preserve holds wherever one of them was taken. -/
theorem taken_invariant {sel : A → Bool} {I : S → Prop} {s : S} {as : List A}
    (hstep : ∀ s, ∀ a ∈ as, ∀ s', I s → step s a = some s' → I s') (hs : I s)
    {x : Taken S A} (h : x ∈ taken step sel s as) : I x.before := by
  induction as generalizing s with
  | nil => cases h
  | cons a as ih =>
      cases ha : step s a with
      | none =>
          simp only [taken,ha] at h
          cases h
      | some s' =>
          rw [taken_cons step sel ha,List.mem_append] at h
          rcases h with h | h
          · split_ifs at h
            · rw [List.mem_singleton.mp h]
              exact hs
            · cases h
          · refine ih ?_ (hstep s a List.mem_cons_self s' hs ha) h
            intro u b hb u' hu hstep'
            exact hstep u b (List.mem_cons_of_mem _ hb) u' hu hstep'

/-! ### Totals -/

/-- What a function says of the first step of a run with a selected label. -/
def atNext (sel : A → Bool) (f : S → A → ℕ) : S → List A → ℕ
  | _,[] => 0
  | s,a::as =>
      if sel a then f s a
      else match step s a with
        | none => 0
        | some s' => atNext sel f s' as

/-- The total over the steps of a run of a cost that may look at what comes after. -/
def total (cost : S → A → S → List A → ℕ) : S → List A → ℕ
  | _,[] => 0
  | s,a::as =>
      match step s a with
      | none => 0
      | some s' => cost s a s' as+total cost s' as

section
variable {B : Type}

/-- What a function sees of the steps of a run, in order. -/
def observed (see : S → A → List B) (s : S) (as : List A) : List B :=
  (taken step (fun _ => true) s as).flatMap fun x => see x.before x.label

theorem observed_cons (see : S → A → List B) {s s' : S} {a : A} (h : step s a = some s')
    (as : List A) : observed step see s (a::as) = see s a++observed step see s' as := by
  unfold observed
  rw [taken_cons step _ h]
  rfl

theorem observed_labels (see : A → List B) {s t : S} {as : List A} (h : exec step s as = some t) :
    observed step (fun _ a => see a) s as = as.flatMap see := by
  induction as generalizing s with
  | nil => rfl
  | cons a as ih =>
      obtain ⟨s',h₁,h₂⟩ := (exec_cons_eq_some step).mp h
      rw [observed_cons step _ h₁,ih h₂,List.flatMap_cons]

/-- Seeing a part of what is seen of each step is seeing that part of the whole. -/
theorem observed_part {C : Type} {f : List B → List C} (hnil : f [] = [])
    (happend : ∀ xs ys, f (xs++ys) = f xs++f ys) (see : S → A → List B) (s : S) (as : List A) :
    observed step (fun s a => f (see s a)) s as = f (observed step see s as) := by
  unfold observed
  induction taken step (fun _ => true) s as with
  | nil => exact hnil.symm
  | cons x xs ih => rw [List.flatMap_cons,List.flatMap_cons,happend,ih]

theorem observed_mono {see see' : S → A → List B} (h : ∀ s a, (see s a).Sublist (see' s a)) (s : S)
    (as : List A) : (observed step see s as).Sublist (observed step see' s as) := by
  unfold observed
  induction taken step (fun _ => true) s as with
  | nil => exact List.Sublist.refl _
  | cons x xs ih => exact (h x.before x.label).append ih

section
variable {P : S → A → Prop} {I : S → Prop} (stock : S → List B) (taking giving : S → A → List B)

/-- What is taken into a stock and out of it: when each step keeps "out, then left" related
to "had, then in", so does a run. The relation is one that appending on either side keeps. -/
theorem observed_flow {R : List B → List B → Prop} (hrefl : ∀ xs, R xs xs)
    (htrans : ∀ xs ys zs, R xs ys → R ys zs → R xs zs)
    (hleft : ∀ xs ys zs, R ys zs → R (xs++ys) (xs++zs))
    (hright : ∀ xs ys zs, R xs ys → R (xs++zs) (ys++zs))
    (hkeep : ∀ s a s', I s → step s a = some s' → I s')
    (hstep : ∀ s a s', I s → P s a → step s a = some s' →
      R (giving s a++stock s') (stock s++taking s a))
    {s t : S} {as : List A} (hs : I s) (hp : Along step P s as) (h : exec step s as = some t) :
    R (observed step giving s as++stock t) (stock s++observed step taking s as) := by
  induction as generalizing s with
  | nil =>
      cases h
      simpa [observed,taken] using hrefl _
  | cons a as ih =>
      obtain ⟨s',h₁,h₂⟩ := (exec_cons_eq_some step).mp h
      have hrest := ih (hkeep s a s' hs h₁) (hp.2 s' h₁) h₂
      have hfirst := hright _ _ (observed step taking s' as) (hstep s a s' hs hp.1 h₁)
      rw [observed_cons step _ h₁,observed_cons step _ h₁,List.append_assoc]
      rw [List.append_assoc,List.append_assoc] at hfirst
      exact htrans _ _ _ (hleft (giving s a) _ _ hrest) hfirst

/-- Nothing comes out that did not go in, and in the same order. -/
theorem observed_sublist (hkeep : ∀ s a s', I s → step s a = some s' → I s')
    (hstep : ∀ s a s', I s → step s a = some s' →
      (giving s a++stock s').Sublist (stock s++taking s a))
    {s t : S} {as : List A} (hs : I s) (h : exec step s as = some t) :
    (observed step giving s as++stock t).Sublist (stock s++observed step taking s as) :=
  observed_flow step stock taking giving (P := fun _ _ => True) List.Sublist.refl
    (fun _ _ _ => List.Sublist.trans) (fun xs _ _ h => h.append_left xs)
    (fun _ _ zs h => h.append_right zs) hkeep (fun s a s' hs _ => hstep s a s' hs) hs
    (along_of_forall step (fun _ _ _ => trivial) s) h

theorem observed_all (hkeep : ∀ s a s', I s → step s a = some s' → I s')
    (hstep : ∀ s a s', I s → P s a → step s a = some s' →
      giving s a++stock s' = stock s++taking s a)
    {s t : S} {as : List A} (hs : I s) (hp : Along step P s as) (h : exec step s as = some t) :
    observed step giving s as++stock t = stock s++observed step taking s as :=
  observed_flow step stock taking giving (R := Eq) (fun _ => rfl) (fun _ _ _ => Eq.trans)
    (fun xs _ _ h => congrArg (fun ys => xs++ys) h) (fun _ _ zs h => congrArg (fun xs => xs++zs) h)
    hkeep hstep hs hp h

end

end

end KeepTalkingSfu.InterleavedRuns
