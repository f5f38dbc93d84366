import Mathlib.Algebra.BigOperators.Group.List.Basic
import Mathlib.Algebra.Order.Ring.Nat
import Mathlib.Data.List.Chain

/-!
# Cutting a list greedily

A list is cut into consecutive groups. A group takes its first element whatever
it is, and then one after the other as long as the group still fits; the next
group begins with the element that did not. Nothing here says what fits, so the
number of groups is bounded by what every group holds and by what a group that is
followed by another must hold.
-/
namespace KeepTalkingSfu.GreedyCuts

variable {A : Type}

/-- The greedy cuts of a list. Only the empty list has an empty group. -/
inductive Cut (fits : List A → Prop) : List A → List (List A) → Prop
  | last (g : List A) : fits g ∨ g.length ≤ 1 → Cut fits g [g]
  | more (g : List A) (x : A) (xs : List A) (gs : List (List A)) : g ≠ [] → fits g ∨ g.length ≤ 1 →
      ¬fits (g++[x]) → Cut fits (x::xs) gs → Cut fits (g++x::xs) (g::gs)

variable {fits : List A → Prop} {xs : List A} {gs : List (List A)}

namespace Cut

theorem ne_nil (h : Cut fits xs gs) : gs ≠ [] := by
  cases h <;> exact List.cons_ne_nil _ _

theorem flatten (h : Cut fits xs gs) : gs.flatten = xs := by
  induction h with
  | last g _ => simp
  | more g x xs gs _ _ _ _ ih => rw [List.flatten_cons,ih]

theorem group (h : Cut fits xs gs) : ∀ g ∈ gs, fits g ∨ g.length ≤ 1 := by
  induction h with
  | last g hg =>
      intro g' hg'
      rwa [List.mem_singleton.mp hg']
  | more g x xs gs _ hg _ _ ih =>
      intro g' hg'
      rcases List.mem_cons.mp hg' with rfl | hg'
      · exact hg
      · exact ih g' hg'

theorem group_ne_nil (h : Cut fits xs gs) (hxs : xs ≠ []) : ∀ g ∈ gs, g ≠ [] := by
  induction h with
  | last g _ =>
      intro g' hg'
      rwa [List.mem_singleton.mp hg']
  | more g x xs gs hg _ _ _ ih =>
      intro g' hg'
      rcases List.mem_cons.mp hg' with rfl | hg'
      · exact hg
      · exact ih (List.cons_ne_nil _ _) g' hg'

theorem of_nil (h : Cut fits [] gs) : gs = [[]] := by
  generalize hxs : ([] : List A) = xs at h
  cases h with
  | last g _ => rw [← hxs]
  | more g x xs gs hg _ _ _ => simp at hxs

theorem head (h : Cut fits xs gs) : ∀ g ∈ gs.head?, g.head? = xs.head? := by
  intro g hg
  cases h with
  | last g' _ =>
      cases hg
      rfl
  | more g' x xs gs hne _ _ _ =>
      cases hg
      exact (List.head?_append_of_ne_nil _ hne).symm

/-- No group could have taken the element the next one starts with. -/
theorem greedy (h : Cut fits xs gs) :
    gs.IsChain fun g g' => ∀ x ∈ g'.head?, ¬fits (g++[x]) := by
  induction h with
  | last g _ => exact List.isChain_singleton g
  | more g x xs gs _ _ hx hcut ih =>
      refine List.isChain_cons.mpr ⟨?_,ih⟩
      intro g' hg' y hy
      rw [hcut.head g' hg'] at hy
      cases hy
      exact hx

/-- If every group has room for at most `n`, the groups together have room for the
list. -/
theorem weight_le (h : Cut fits xs gs) (w : A → ℕ) (n : ℕ) (hw : ∀ g ∈ gs, (g.map w).sum ≤ n) :
    (xs.map w).sum ≤ gs.length*n := by
  induction h with
  | last g _ =>
      rw [List.length_singleton,Nat.one_mul]
      exact hw g List.mem_cons_self
  | more g x xs gs _ _ _ _ ih =>
      have hg := hw g List.mem_cons_self
      have hrest := ih fun g' hg' => hw g' (List.mem_cons_of_mem _ hg')
      rw [List.map_append,List.sum_append,List.length_cons,Nat.succ_mul]
      omega

/-- If a group that can take no further element of the list has at least `n`, all
groups but the last have at least `n`. -/
theorem length_ge (h : Cut fits xs gs) (hxs : xs ≠ []) (n : ℕ)
    (hn : ∀ g, (∀ y ∈ g, y ∈ xs) → ∀ x ∈ xs, ¬fits (g++[x]) → n ≤ g.length) :
    (gs.length-1)*n+1 ≤ xs.length := by
  induction h with
  | last g _ =>
      have hpos := List.length_pos_iff.mpr hxs
      simp only [List.length_singleton,Nat.sub_self,Nat.zero_mul]
      omega
  | more g x xs gs _ _ hx hcut ih =>
      have hrest := ih (List.cons_ne_nil x xs) ?_
      · have hg := hn g (fun y hy => List.mem_append_left _ hy) x (by simp) hx
        have hpos := List.length_pos_iff.mpr hcut.ne_nil
        obtain ⟨k,hk⟩ : ∃ k, gs.length = k+1 := ⟨gs.length-1,by omega⟩
        rw [hk,Nat.add_sub_cancel] at hrest
        rw [List.length_cons,Nat.add_sub_cancel,hk,Nat.succ_mul,List.length_append]
        omega
      · intro g' hg' y hy
        exact hn g' (fun z hz => List.mem_append_right _ (hg' z hz)) y (List.mem_append_right _ hy)

end Cut

end KeepTalkingSfu.GreedyCuts
