import Mathlib.Algebra.Order.Ring.Unbundled.Rat
import Mathlib.Algebra.Order.Ring.Defs
import Mathlib.Algebra.Order.Group.MinMax
import Mathlib.Tactic.FieldSimp
import Mathlib.Tactic.Linarith

/-!
# What a token bucket lets through in a window

A bucket is refilled at a fixed rate up to its burst, and what is taken from it
comes out of its level. However the takes are spread, those between two times are
at most the burst and what flows in between these times. The credit of a bucket is
what can still be taken from it in the window; every take is paid from it. Nothing
here names a particular rate limiter.
-/
namespace KeepTalkingSfu.TokenWindow

variable (perTick burst : ℚ) (s e : ℕ)

/-- The level after some ticks. -/
def refilled (level : ℚ) (ticks : ℕ) : ℚ := min (level+ticks*perTick) burst

/-- The burst, and what flows in during the window. -/
def allowance : ℚ := burst+(e-s : ℕ)*perTick

/-- What can still be taken in the window from a bucket last touched at `last`. -/
def credit (level : ℚ) (last : ℕ) : ℚ :=
  if e < last then 0
  else if last < s then allowance perTick burst s e
  else level+(e-last : ℕ)*perTick

variable {perTick burst s e} {level : ℚ} {last now : ℕ}

theorem allowance_nonneg (hrate : 0 ≤ perTick) (hburst : 0 ≤ burst) :
    0 ≤ allowance perTick burst s e :=
  add_nonneg hburst (mul_nonneg (Nat.cast_nonneg _) hrate)

theorem inflow_mono (hrate : 0 ≤ perTick) {m n : ℕ} (h : m ≤ n) :
    (m : ℚ)*perTick ≤ (n : ℚ)*perTick :=
  mul_le_mul_of_nonneg_right (Nat.cast_le.mpr h) hrate

/-- A bucket that is at most full has at most the allowance. -/
theorem credit_le (hrate : 0 ≤ perTick) (hburst : 0 ≤ burst) (hlevel : level ≤ burst) :
    credit perTick burst s e level last ≤ allowance perTick burst s e := by
  unfold credit
  split_ifs with hafter hbefore
  · exact allowance_nonneg hrate hburst
  · exact le_rfl
  · exact add_le_add hlevel (inflow_mono hrate (by omega))

theorem credit_take_of_le (hrate : 0 ≤ perTick) (hclock : last ≤ now) (hend : now ≤ e) (amount : ℚ) :
    (if s ≤ now then amount else 0)+
        credit perTick burst s e (refilled perTick burst level (now-last)-amount) now ≤
      credit perTick burst s e level last := by
  have hlast : ¬e < last := by omega
  by_cases hbefore : now < s
  · rw [if_neg (Nat.not_le.mpr hbefore),credit,if_neg (Nat.not_lt.mpr hend),if_pos hbefore,zero_add,
      credit,if_neg hlast,if_pos (by omega)]
  · rw [if_pos (Nat.not_lt.mp hbefore),credit,if_neg (Nat.not_lt.mpr hend),if_neg hbefore,
      credit,if_neg hlast]
    split_ifs with hearly
    · have hfull : refilled perTick burst level (now-last) ≤ burst := min_le_right _ _
      have hflow : ((e-now : ℕ) : ℚ)*perTick ≤ ((e-s : ℕ) : ℚ)*perTick :=
        inflow_mono hrate (by omega)
      unfold allowance
      linarith
    · have hgain : refilled perTick burst level (now-last) ≤ level+((now-last : ℕ) : ℚ)*perTick :=
        min_le_left _ _
      have hsplit : ((e-last : ℕ) : ℚ) = ((now-last : ℕ) : ℚ)+((e-now : ℕ) : ℚ) := by
        rw [← Nat.cast_add]
        congr 1
        omega
      rw [hsplit,add_mul]
      linarith

theorem refilled_le_credit (hrate : 0 ≤ perTick) (hclock : last ≤ now) (hin : s ≤ now) (hend : now ≤ e) :
    refilled perTick burst level (now-last) ≤ credit perTick burst s e level last := by
  have hall : (if s ≤ now then refilled perTick burst level (now-last) else 0)+
      credit perTick burst s e
        (refilled perTick burst level (now-last)-refilled perTick burst level (now-last)) now ≤
      credit perTick burst s e level last := credit_take_of_le hrate hclock hend _
  have hflow : 0 ≤ ((e-now : ℕ) : ℚ)*perTick := mul_nonneg (Nat.cast_nonneg _) hrate
  rw [if_pos hin,sub_self,credit,if_neg (Nat.not_lt.mpr hend),if_neg (Nat.not_lt.mpr hin)] at hall
  linarith

/-! ### Runs of takes -/

structure Take where
  now : ℕ
  amount : ℚ

variable (s e) in
/-- What the takes between two times come to. -/
def outflow (ts : List Take) : ℚ :=
  ((ts.filter fun t => s ≤ t.now ∧ t.now ≤ e).map Take.amount).sum

theorem outflow_cons (t : Take) (ts : List Take) :
    outflow s e (t::ts) = (if s ≤ t.now ∧ t.now ≤ e then t.amount else 0)+outflow s e ts := by
  unfold outflow
  by_cases hin : s ≤ t.now ∧ t.now ≤ e
  · rw [List.filter_cons_of_pos (by simpa using hin),if_pos hin,List.map_cons,List.sum_cons]
  · rw [List.filter_cons_of_neg (by simpa using hin),if_neg hin,zero_add]

variable (perTick burst s e) in
/-- Takes at later and later times. Those in the window find what they take, but for
an overdraft; a take of nothing is always possible. -/
inductive Paid (overdraft : ℚ) : ℚ → ℕ → List Take → Prop
  | nil (level : ℚ) (last : ℕ) : Paid overdraft level last []
  | cons (level : ℚ) (last now : ℕ) (amount : ℚ) (ts : List Take) : last ≤ now →
      (s ≤ now → now ≤ e → amount = 0 ∨
        amount ≤ refilled perTick burst level (now-last)+overdraft) →
      Paid overdraft (refilled perTick burst level (now-last)-amount) now ts →
      Paid overdraft level last (⟨now,amount⟩::ts)

variable {overdraft : ℚ} {ts : List Take}

theorem Paid.none_after (h : Paid perTick burst s e overdraft level last ts) (hafter : e < last) :
    outflow s e ts = 0 := by
  induction h with
  | nil => rfl
  | cons level last now amount ts hclock _ _ ih =>
      rw [outflow_cons,ih (by omega),if_neg (by simp only; omega),add_zero]

theorem Paid.outflow_le_credit (hrate : 0 ≤ perTick)
    (h : Paid perTick burst s e overdraft level last ts) :
    outflow s e ts = 0 ∨ outflow s e ts ≤ credit perTick burst s e level last+overdraft := by
  induction h with
  | nil => exact .inl rfl
  | cons level last now amount ts hclock hpaid hrest ih =>
      rw [outflow_cons]
      by_cases hafter : e < now
      · left
        rw [hrest.none_after hafter,if_neg (by simp only; omega),add_zero]
      · have hend : now ≤ e := Nat.not_lt.mp hafter
        have htake : (if s ≤ now then amount else 0)+
            credit perTick burst s e (refilled perTick burst level (now-last)-amount) now ≤
            credit perTick burst s e level last := credit_take_of_le hrate hclock hend amount
        simp only [hend,and_true]
        by_cases hin : s ≤ now
        · rw [if_pos hin] at htake ⊢
          rcases ih with hzero | hle
          · rw [hzero,add_zero]
            rcases hpaid hin hend with hnothing | henough
            · exact .inl hnothing
            · right
              exact henough.trans (add_le_add_left (refilled_le_credit hrate hclock hin hend) _)
          · right
            linarith
        · rw [if_neg hin] at htake ⊢
          rcases ih with hzero | hle
          · left
            rw [hzero,add_zero]
          · right
            linarith

/-- Whatever the takes, those of a window come to at most the burst, what flows in and
the overdraft. -/
theorem Paid.outflow_le (hrate : 0 ≤ perTick) (hburst : 0 ≤ burst) (hlevel : level ≤ burst)
    (hoverdraft : 0 ≤ overdraft) (h : Paid perTick burst s e overdraft level last ts) :
    outflow s e ts ≤ allowance perTick burst s e+overdraft := by
  rcases h.outflow_le_credit hrate with hzero | hle
  · rw [hzero]
    exact add_nonneg (allowance_nonneg hrate hburst) hoverdraft
  · exact hle.trans (add_le_add_left (credit_le hrate hburst hlevel) _)

/-! ### Refilling in parts -/

theorem refilled_refilled (hrate : 0 ≤ perTick) (m n : ℕ) :
    refilled perTick burst (refilled perTick burst level m) n =
      refilled perTick burst level (m+n) := by
  have hflow : 0 ≤ (n : ℚ)*perTick := mul_nonneg (Nat.cast_nonneg _) hrate
  unfold refilled
  rw [Nat.cast_add,add_mul,← add_assoc,min_add,min_assoc,
    min_eq_right (le_add_of_nonneg_right hflow)]

/-- Refilling in small steps is refilling at once. -/
theorem refilled_iterate (hrate : 0 ≤ perTick) (hlevel : level ≤ burst) (n : ℕ) :
    (refilled perTick burst · 1)^[n] level = refilled perTick burst level n := by
  induction n with
  | zero => simp [refilled,hlevel]
  | succ n ih => rw [Function.iterate_succ_apply',ih,refilled_refilled hrate]

/-- A tick may be cut into parts. -/
theorem refilled_parts {k : ℕ} (hk : 0 < k) (n : ℕ) :
    refilled (perTick/k) burst level (k*n) = refilled perTick burst level n := by
  have hne : (k : ℚ) ≠ 0 := Nat.cast_ne_zero.mpr (by omega)
  unfold refilled
  rw [Nat.cast_mul]
  congr 2
  field_simp

end KeepTalkingSfu.TokenWindow
