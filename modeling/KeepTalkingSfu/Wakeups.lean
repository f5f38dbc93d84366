import Mathlib.Data.List.Basic

/-!
# Wakeups

A task looks for work under a lock, and when there is none it waits for a
notification. Others change what there is to do under the same lock and notify
after they have let go of it. The look and the wait are two steps, and so are
the change and the notification: what has to be shown is that no order of them
leaves the task asleep on work.

The notifier and the semaphore are given by their operations, with what is relied
on of them as laws. Nothing here names a particular system.
-/
namespace KeepTalkingSfu.Wakeups

/-- A notifier with one task waiting on it: `poll` is the first poll of a future,
`resume` the poll that finds its future woken. -/
structure Notify (N : Type) where
  new : N
  notifyOne : N → N
  poll : N → Bool × N
  resume : N → N
  /-- A notification is stored. -/
  stored : N → Bool
  /-- A future is registered. -/
  waiting : N → Bool
  /-- The future that was registered has been woken. -/
  woken : N → Bool

section
variable {N : Type}

/-- A notification wakes the future that waits or is stored, once; the first poll
of a future takes the stored notification or registers the future. -/
structure Notify.Lawful (ops : Notify N) : Prop where
  new_stored : ops.stored ops.new = false
  new_waiting : ops.waiting ops.new = false
  new_woken : ops.woken ops.new = false
  notify_wakes : ∀ n, ops.waiting n = true →
    ops.waiting (ops.notifyOne n) = false ∧ ops.woken (ops.notifyOne n) = true
  notify_stores : ∀ n, ops.waiting n = false →
    ops.waiting (ops.notifyOne n) = false ∧ ops.woken (ops.notifyOne n) = ops.woken n ∧
      ops.stored (ops.notifyOne n) = true
  poll_stored : ∀ n, ops.stored n = true → (ops.poll n).1 = true ∧
    ops.waiting (ops.poll n).2 = ops.waiting n ∧ ops.woken (ops.poll n).2 = ops.woken n
  poll_registers : ∀ n, ops.stored n = false → (ops.poll n).1 = false ∧
    ops.stored (ops.poll n).2 = false ∧ ops.waiting (ops.poll n).2 = true ∧
      ops.woken (ops.poll n).2 = ops.woken n
  resume_done : ∀ n, ops.woken n = true →
    ops.woken (ops.resume n) = false ∧ ops.waiting (ops.resume n) = ops.waiting n

/-- Where the task is: elsewhere, with a look behind it that found nothing, or
registered with the notifier. -/
inductive Phase where
  | away
  | looked
  | parked
  deriving DecidableEq, Repr

/-- The task does not sleep on work: past a look, with no notification there or on
its way to it, there is nothing to do or a notification is still to be made. -/
structure Attentive (ops : Notify N) (nothing : Prop) (notifying : ℕ) (phase : Phase) (n : N) :
    Prop where
  awake : phase ≠ .away → ops.stored n = false → ops.woken n = false → nothing ∨ 0 < notifying
  waiting : phase ≠ .parked → ops.waiting n = false
  woken : phase ≠ .parked → ops.woken n = false
  registered : phase = .parked → ops.waiting n = true ∨ ops.woken n = true
  once : ops.waiting n = true → ops.woken n = false

namespace Attentive
variable {ops : Notify N} {nothing nothing' : Prop} {notifying : ℕ} {phase : Phase} {n : N}

theorem new (hops : ops.Lawful) : Attentive ops nothing notifying .away ops.new where
  awake h := absurd rfl h
  waiting _ := hops.new_waiting
  woken _ := hops.new_woken
  registered := nofun
  once _ := hops.new_woken

/-- A change that will be notified. -/
theorem change (h : Attentive ops nothing notifying phase n) :
    Attentive ops nothing' (notifying+1) phase n :=
  { h with awake := fun _ _ _ => .inr (Nat.succ_pos _) }

/-- A change that makes no work needs no notification. -/
theorem quiet (h : Attentive ops nothing notifying phase n) (hquiet : nothing → nothing') :
    Attentive ops nothing' notifying phase n :=
  { h with awake := fun hp hs hw => (h.awake hp hs hw).imp_left hquiet }

theorem notify (hops : ops.Lawful) (h : Attentive ops nothing (notifying+1) phase n) :
    Attentive ops nothing notifying phase (ops.notifyOne n) := by
  cases hwaiting : ops.waiting n with
  | true =>
      have hparked : phase = .parked := by
        by_contra hp
        rw [h.waiting hp] at hwaiting
        cases hwaiting
      obtain ⟨hw,hwoken⟩ := hops.notify_wakes n hwaiting
      constructor
      · intro _ _ hasleep
        rw [hwoken] at hasleep
        cases hasleep
      · exact fun hp => absurd hparked hp
      · exact fun hp => absurd hparked hp
      · exact fun _ => .inr hwoken
      · intro h'
        rw [hw] at h'
        cases h'
  | false =>
      obtain ⟨hw,hwoken,hstored⟩ := hops.notify_stores n hwaiting
      constructor
      · intro _ hempty
        rw [hstored] at hempty
        cases hempty
      · exact fun _ => hw
      · exact fun hp => hwoken.trans (h.woken hp)
      · intro hp
        right
        rw [hwoken]
        exact (h.registered hp).resolve_left (by simp [hwaiting])
      · intro h'
        rw [hw] at h'
        cases h'

/-- The look that finds nothing. -/
theorem look (h : Attentive ops nothing notifying .away n) (hnothing : nothing) :
    Attentive ops nothing notifying .looked n where
  awake _ _ _ := .inl hnothing
  waiting _ := h.waiting nofun
  woken _ := h.woken nofun
  registered := nofun
  once := h.once

/-- The first poll of the future comes after the look: a change in between has
stored its notification or is still to make it. -/
theorem park (hops : ops.Lawful) (h : Attentive ops nothing notifying .looked n) :
    Attentive ops nothing notifying (if (ops.poll n).1 then .away else .parked) (ops.poll n).2 := by
  cases hstored : ops.stored n with
  | true =>
      obtain ⟨hready,hwaiting,hwoken⟩ := hops.poll_stored n hstored
      rw [hready,if_pos rfl]
      exact ⟨fun hp => absurd rfl hp,fun _ => hwaiting.trans (h.waiting nofun),
        fun _ => hwoken.trans (h.woken nofun),nofun,fun _ => hwoken.trans (h.woken nofun)⟩
  | false =>
      obtain ⟨hready,-,hwaiting,hwoken⟩ := hops.poll_registers n hstored
      rw [hready,if_neg (by simp)]
      exact ⟨fun _ _ _ => h.awake nofun hstored (h.woken nofun),fun hp => absurd rfl hp,
        fun hp => absurd rfl hp,fun _ => .inl hwaiting,fun _ => hwoken.trans (h.woken nofun)⟩

theorem wake (hops : ops.Lawful) (h : Attentive ops nothing notifying .parked n)
    (hwoken : ops.woken n = true) : Attentive ops nothing notifying .away (ops.resume n) := by
  obtain ⟨hdone,hwaiting⟩ := hops.resume_done n hwoken
  have hnot : ops.waiting n = false := by
    by_contra hw
    rw [h.once (by simpa using hw)] at hwoken
    cases hwoken
  exact ⟨fun hp => absurd rfl hp,fun _ => hwaiting.trans hnot,fun _ => hdone,nofun,fun _ => hdone⟩

end Attentive

end

/-- The notifier as a stored notification and the two states of a future. -/
structure Flag where
  permit : Bool
  waiting : Bool
  woken : Bool
  deriving DecidableEq, Repr

def flag : Notify Flag where
  new := ⟨false,false,false⟩
  notifyOne n := if n.waiting then { n with waiting := false, woken := true } else { n with permit := true }
  poll n := if n.permit then (true,{ n with permit := false }) else (false,{ n with waiting := true })
  resume n := { n with woken := false }
  stored := Flag.permit
  waiting := Flag.waiting
  woken := Flag.woken

theorem flag_lawful : flag.Lawful where
  new_stored := rfl
  new_waiting := rfl
  new_woken := rfl
  notify_wakes n h := by
    change n.waiting = true at h
    simp [flag,h]
  notify_stores n h := by
    change n.waiting = false at h
    simp [flag,h]
  poll_stored n h := by
    change n.permit = true at h
    simp [flag,h]
  poll_registers n h := by
    change n.permit = false at h
    simp [flag,h]
  resume_done _ _ := ⟨rfl,rfl⟩

/-! ### Permits -/

/-- A counting semaphore. -/
structure Semaphore (M : Type) where
  new : ℕ → M
  acquire : M → Option M
  release : M → M
  available : M → ℕ

/-- It grants at most its permits. -/
structure Semaphore.Lawful {M : Type} (sem : Semaphore M) : Prop where
  new_available : ∀ n, sem.available (sem.new n) = n
  acquire_takes : ∀ m m', sem.acquire m = some m' → sem.available m = sem.available m'+1
  release_returns : ∀ m, sem.available (sem.release m) = sem.available m+1

def counter : Semaphore ℕ where
  new n := n
  acquire n := if 0 < n then some (n-1) else none
  release n := n+1
  available n := n

theorem counter_lawful : counter.Lawful where
  new_available _ := rfl
  acquire_takes m m' h := by
    simp only [counter] at h ⊢
    split_ifs at h with hpos
    cases h
    omega
  release_returns _ := rfl

end KeepTalkingSfu.Wakeups
