import Mathlib.Algebra.BigOperators.Fin
import Mathlib.Algebra.Group.Int.Defs
import Mathlib.Algebra.GroupWithZero.Nat

/-!
# Slots

A family of records indexed by `Fin n`: sums when one of them is replaced, and the search for a slot with
the least value.
-/

namespace Slots

variable {α : Type*} {n : Nat}

theorem sum_update (f : α → Nat) (slots : Fin n → α) (i : Fin n) (v : α) :
    (∑ k, f (Function.update slots i v k)) + f (slots i) = (∑ k, f (slots k)) + f v := by
  have hu : (fun k => f (Function.update slots i v k)) =
      Function.update (fun k => f (slots k)) i (f v) := Function.comp_update f slots i v
  have hs := Finset.sum_sdiff (f := fun k => f (slots k)) (Finset.subset_univ {i})
  rw [Finset.sum_singleton] at hs
  rw [hu, Finset.sum_update_of_mem (Finset.mem_univ i), ← hs]
  omega

/-- A replacement that keeps the summand keeps the sum. -/
theorem sum_update_eq {f : α → Nat} {slots : Fin n → α} {i : Fin n} {v : α} (h : f v = f (slots i)) :
    ∑ k, f (Function.update slots i v k) = ∑ k, f (slots k) := by
  have := sum_update f slots i v
  omega

/-- The search keeps the slot it has until it comes to one with a lesser value. -/
theorem foldl_least_le {β : Type*} [LinearOrder β] (f : α → β) (l : List α) (dest : α) :
    f (l.foldl (fun dest i => if f i < f dest then i else dest) dest) ≤ f dest ∧
      ∀ i ∈ l, f (l.foldl (fun dest i => if f i < f dest then i else dest) dest) ≤ f i := by
  induction l generalizing dest with
  | nil => exact ⟨le_rfl, fun _ hi => nomatch hi⟩
  | cons i l ih =>
    rw [List.foldl_cons]
    obtain ⟨hdest, hl⟩ := ih (if f i < f dest then i else dest)
    have hmin : f (if f i < f dest then i else dest) ≤ f i ∧
        f (if f i < f dest then i else dest) ≤ f dest := by
      split
      · next h => exact ⟨le_rfl, h.le⟩
      · next h => exact ⟨le_of_not_gt h, le_rfl⟩
    refine ⟨hdest.trans hmin.2, fun k hk => ?_⟩
    rcases List.mem_cons.mp hk with rfl | hk
    · exact hdest.trans hmin.1
    · exact hl k hk

end Slots
