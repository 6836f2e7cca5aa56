import Mathlib.Algebra.Group.Int.Defs
import Mathlib.Algebra.GroupWithZero.Nat
import Mathlib.Algebra.Order.Sub.Basic
import Mathlib.Data.List.Basic

/-!
# Packing a list into bins in order

Bins with capacities are numbered from `d` on. A packing puts an initial part of a list of items into
bins whose numbers do not decrease along the list. `nextFit` keeps the current bin until an item does
not fit, and never goes back; no packing has more items.
-/

namespace Packing

variable {M : Type} [AddCommMonoid M] {d : Nat} {b e : M} {caps items : List M} {bins : List Nat}

/-- The sizes of the items that are in the bin `k`. -/
def load : List M → List Nat → Nat → M
  | x :: xs, d :: ds, k => (if d = k then x else 0) + load xs ds k
  | _, _, _ => 0

theorem load_eq_zero {k : Nat} (h : k ∉ bins) : load items bins k = 0 := by
  induction items generalizing bins with
  | nil => rfl
  | cons x items ih =>
    cases bins with
    | nil => rfl
    | cons j bins =>
      obtain ⟨hj, hk⟩ := not_or.mp (mt List.mem_cons.mpr h)
      rw [load, if_neg (Ne.symm hj), zero_add, ih hk]

variable [LinearOrder M]

structure Packs (d : Nat) (caps items : List M) (bins : List Nat) : Prop where
  length_le : bins.length ≤ items.length
  ordered : bins.Pairwise (· ≤ ·)
  bounds : ∀ k ∈ bins, d ≤ k ∧ k < d + caps.length
  fits : ∀ i c, caps[i]? = some c → load items bins (d + i) ≤ c

def nextFit [Sub M] : Nat → List M → List M → List Nat
  | _, _, [] => []
  | _, [], _ :: _ => []
  | d, b :: caps, e :: items =>
    if b < e then nextFit (d + 1) caps (e :: items) else d :: nextFit d ((b - e) :: caps) items
termination_by _ caps items => caps.length + items.length

namespace Packs

/-- Where the first bin is left out, the packing is one into the others. -/
theorem skip (h : Packs d (b :: caps) items bins) (hd : d ∉ bins) : Packs (d + 1) caps items bins where
  length_le := h.length_le
  ordered := h.ordered
  bounds k hk := by
    obtain ⟨hle, hlt⟩ := h.bounds k hk
    have hne : k ≠ d := fun hkd => hd (hkd ▸ hk)
    rw [List.length_cons] at hlt
    omega
  fits i c hc := by
    have hi := h.fits (i + 1) c hc
    rwa [← Nat.add_assoc, Nat.add_right_comm] at hi

variable [CanonicallyOrderedAdd M]

theorem nil (d : Nat) (caps items : List M) : Packs d caps items [] where
  length_le := Nat.zero_le _
  ordered := .nil
  bounds _ h := nomatch h
  fits _ _ _ := by
    rw [load_eq_zero List.not_mem_nil]
    exact zero_le

theorem unskip (h : Packs (d + 1) caps items bins) : Packs d (b :: caps) items bins where
  length_le := h.length_le
  ordered := h.ordered
  bounds k hk := by
    obtain ⟨hle, hlt⟩ := h.bounds k hk
    rw [List.length_cons]
    omega
  fits i c hc := by
    cases i with
    | zero =>
      have hd : d ∉ bins := fun hd => absurd (h.bounds d hd).1 (Nat.not_succ_le_self d)
      rw [Nat.add_zero, load_eq_zero hd]
      exact zero_le
    | succ i =>
      have hi := h.fits i c hc
      rwa [Nat.add_right_comm, Nat.add_assoc] at hi

variable [IsOrderedCancelAddMonoid M] [Sub M] [OrderedSub M]

/-- An item put into the first bin takes its room there. -/
theorem put (h : Packs d ((b - e) :: caps) items bins) (hle : e ≤ b) :
    Packs d (b :: caps) (e :: items) (d :: bins) where
  length_le := Nat.succ_le_succ h.length_le
  ordered := .cons (fun k hk => (h.bounds k hk).1) h.ordered
  bounds k hk := by
    rcases List.mem_cons.mp hk with rfl | hk
    · rw [List.length_cons]
      omega
    · exact h.bounds k hk
  fits i c hc := by
    cases i with
    | zero =>
      cases hc
      rw [Nat.add_zero, load, if_pos rfl, ← add_tsub_cancel_of_le hle]
      exact add_le_add_right (h.fits 0 _ rfl) e
    | succ i =>
      rw [load, if_neg (by omega), zero_add]
      exact h.fits (i + 1) c hc

/-- The other way around: whichever bin its first item is in, the rest of a packing fits where the
first bin has room for that item less. -/
theorem tail {j : Nat} (h : Packs d (b :: caps) (e :: items) (j :: bins)) :
    Packs d ((b - e) :: caps) items bins where
  length_le := Nat.le_of_succ_le_succ h.length_le
  ordered := h.ordered.tail
  bounds k hk := h.bounds k (List.mem_cons_of_mem j hk)
  fits i c hc := by
    have hle : ∀ c', (b :: caps)[i]? = some c' → (if j = d + i then e else 0) + load items bins (d + i) ≤ c' :=
      h.fits i
    cases i with
    | zero =>
      cases hc
      have hb := hle b rfl
      rw [Nat.add_zero] at hb ⊢
      by_cases hj : j = d
      · rw [if_pos hj] at hb
        exact le_tsub_of_add_le_left hb
      · have hd : d ∉ bins := fun hd => by
          have hjd := List.rel_of_pairwise_cons h.ordered hd
          have hdj := (h.bounds j List.mem_cons_self).1
          omega
        rw [load_eq_zero hd]
        exact zero_le
    | succ i => exact le_trans le_add_self (hle c hc)

end Packs

variable [CanonicallyOrderedAdd M]

/-- An item larger than the first bin is in no packing there, and nothing behind it is. -/
theorem Packs.not_mem_of_lt (h : Packs d (b :: caps) (e :: items) bins) (hlt : b < e) : d ∉ bins := by
  intro hd
  cases bins with
  | nil => exact nomatch hd
  | cons j bins =>
    have hj : j = d := by
      have hdj := (h.bounds j List.mem_cons_self).1
      rcases List.mem_cons.mp hd with hd | hd
      · exact hd.symm
      · have hjd := List.rel_of_pairwise_cons h.ordered hd
        omega
    have hfits := h.fits 0 b rfl
    rw [Nat.add_zero, load, if_pos hj] at hfits
    exact absurd (le_trans le_self_add hfits) (not_le_of_gt hlt)

variable [IsOrderedCancelAddMonoid M] [Sub M] [OrderedSub M]

theorem nextFit_packs (d : Nat) (caps items : List M) : Packs d caps items (nextFit d caps items) := by
  induction d, caps, items using nextFit.induct with
  | case1 d caps =>
    rw [nextFit]
    exact .nil d caps []
  | case2 d e items =>
    rw [nextFit]
    exact .nil d [] _
  | case3 d b caps e items hlt ih =>
    rw [nextFit, if_pos hlt]
    exact ih.unskip
  | case4 d b caps e items hge ih =>
    rw [nextFit, if_neg hge]
    exact ih.put (le_of_not_gt hge)

/-- No packing has more items than `nextFit`: if the first item fits, then what a packing makes of the
rest is a packing into what `nextFit` has left; if not, then no packing uses the first bin. -/
theorem Packs.length_le_nextFit (h : Packs d caps items bins) :
    bins.length ≤ (nextFit d caps items).length := by
  induction d, caps, items using nextFit.induct generalizing bins with
  | case1 d caps =>
    rw [nextFit]
    exact h.length_le
  | case2 d e items =>
    cases bins with
    | nil => exact Nat.zero_le _
    | cons j bins =>
      have hj := h.bounds j List.mem_cons_self
      rw [List.length_nil] at hj
      omega
  | case3 d b caps e items hlt ih =>
    rw [nextFit, if_pos hlt]
    exact ih (h.skip (h.not_mem_of_lt hlt))
  | case4 d b caps e items hge ih =>
    rw [nextFit, if_neg hge]
    cases bins with
    | nil => exact Nat.zero_le _
    | cons j bins => exact Nat.succ_le_succ (ih h.tail)

end Packing
