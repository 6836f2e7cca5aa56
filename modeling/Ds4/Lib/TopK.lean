import Mathlib.Algebra.Group.Int.Defs
import Mathlib.Algebra.GroupWithZero.Nat
import Mathlib.Data.List.Sort
import Mathlib.Data.Multiset.AddSub
import Mathlib.Data.Multiset.Range
import Mathlib.Logic.Equiv.Basic
import Mathlib.Order.Basic

/-!
# The largest elements of a list

A heap of at most `cap` elements with the least one at its root, and a sorted array of at most `cap` elements, both keep
the `cap` largest of the elements offered to them. Elements are compared by a key.
-/

namespace TopK

variable {α κ : Type} [LinearOrder κ] {key : α → κ}

/-! ## Descending order -/

def Desc (key : α → κ) (l : List α) : Prop := l.Pairwise fun a b => key b ≤ key a

def sortDesc (key : α → κ) (l : List α) : List α := l.mergeSort fun a b => decide (key b ≤ key a)

theorem sortDesc_perm (l : List α) : (sortDesc key l).Perm l := List.mergeSort_perm _ _

theorem sortDesc_desc (l : List α) : Desc key (sortDesc key l) := by
  have htrans : ∀ a b c : α, decide (key b ≤ key a) = true → decide (key c ≤ key b) = true → decide (key c ≤ key a) = true :=
    fun a b c hab hbc => decide_eq_true ((of_decide_eq_true hbc).trans (of_decide_eq_true hab))
  have htotal : ∀ a b : α, (decide (key b ≤ key a) || decide (key a ≤ key b)) = true := fun a b => by
    rw [Bool.or_eq_true, decide_eq_true_iff, decide_eq_true_iff]
    exact le_total _ _
  exact (List.pairwise_mergeSort htrans htotal l).imp fun hab => of_decide_eq_true hab

/-- With distinct keys there is one list in descending order. -/
theorem eq_of_desc {s t l : List α} (hkeys : (l.map key).Nodup) (hs : Desc key s) (hsl : s.Perm l) (ht : Desc key t)
    (htl : t.Perm l) : s = t := by
  refine List.Perm.eq_of_pairwise (fun a b ha hb hab hba => ?_) hs ht (hsl.trans htl.symm)
  exact List.inj_on_of_nodup_map hkeys (hsl.mem_iff.mp ha) (htl.mem_iff.mp hb) (le_antisymm hba hab)

/-! ## Selections -/

/-- `m` holds the `cap` largest elements of `l`. -/
structure Top (key : α → κ) (cap : Nat) (l m : Multiset α) : Prop where
  card : m.card = min cap l.card
  rest : ∃ r, m + r = l ∧ ∀ x ∈ r, ∀ y ∈ m, key x ≤ key y

namespace Top

variable {cap : Nat} {l m : Multiset α} {x y : α}

theorem zero : Top key cap 0 0 := ⟨by simp, 0, rfl, by simp⟩

theorem room (h : Top key cap l m) (hroom : m.card < cap) : Top key cap (x ::ₘ l) (x ::ₘ m) := by
  obtain ⟨r, hr, -⟩ := h.rest
  have hcard := h.card
  have hadd := congrArg Multiset.card hr
  rw [Multiset.card_add] at hadd
  have hr0 : r = 0 := Multiset.card_eq_zero.mp (by omega)
  refine ⟨by rw [Multiset.card_cons, Multiset.card_cons]; omega, 0, ?_, by simp⟩
  rw [← hr, hr0, Multiset.add_zero, Multiset.add_zero]

theorem skip (h : Top key cap l m) (hfull : cap ≤ m.card) (hx : ∀ y ∈ m, key x ≤ key y) : Top key cap (x ::ₘ l) m := by
  obtain ⟨r, hr, hle⟩ := h.rest
  have hcard := h.card
  refine ⟨by rw [Multiset.card_cons]; omega, x ::ₘ r, ?_, fun z hz => ?_⟩
  · rw [← hr, Multiset.add_cons]
  · cases Multiset.mem_cons.mp hz with
    | inl hzx => exact hzx ▸ hx
    | inr hzr => exact hle z hzr

/-- A least element `y` gives way to `x`. -/
theorem replace (h : Top key cap l (y ::ₘ m)) (hfull : cap ≤ m.card + 1) (hy : ∀ z ∈ m, key y ≤ key z)
    (hx : key y ≤ key x) : Top key cap (x ::ₘ l) (x ::ₘ m) := by
  obtain ⟨r, hr, hle⟩ := h.rest
  have hcard := h.card
  refine ⟨?_, y ::ₘ r, ?_, fun z hz w hw => ?_⟩
  · rw [Multiset.card_cons] at hcard ⊢
    rw [Multiset.card_cons]
    omega
  · rw [← hr, Multiset.add_cons, Multiset.cons_add, Multiset.cons_add, Multiset.cons_swap]
  · have hyw : key y ≤ key w := by
      cases Multiset.mem_cons.mp hw with
      | inl hwx => exact hwx ▸ hx
      | inr hwm => exact hy w hwm
    cases Multiset.mem_cons.mp hz with
    | inl hzy => exact hzy ▸ hyw
    | inr hzr => exact (hle z hzr y (Multiset.mem_cons_self y m)).trans hyw

end Top

/-- With distinct keys the selection in descending order is the beginning of the list in descending order. -/
theorem Top.eq_take {cap : Nat} {l m s t : List α} (h : Top key cap l m) (hkeys : (l.map key).Nodup)
    (hs : Desc key s) (hsm : s.Perm m) (ht : Desc key t) (htl : t.Perm l) : s = t.take cap := by
  obtain ⟨r, hr, hle⟩ := h.rest
  have hcard := h.card
  induction r using Quotient.inductionOn with
  | h r =>
    have hml : (m ++ r).Perm l := Multiset.coe_eq_coe.mp hr
    have hsplit : (sortDesc key r).Perm r := sortDesc_perm r
    have hperm : (s ++ sortDesc key r).Perm l := (hsm.append hsplit).trans hml
    have hjoin : Desc key (s ++ sortDesc key r) := by
      rw [Desc, List.pairwise_append]
      exact ⟨hs, sortDesc_desc r, fun a ha b hb => hle b (Multiset.mem_coe.mpr (hsplit.mem_iff.mp hb)) a
        (Multiset.mem_coe.mpr (hsm.mem_iff.mp ha))⟩
    have heq : s ++ sortDesc key r = t := eq_of_desc hkeys hjoin hperm ht htl
    have hlen := hperm.length_eq
    rw [List.length_append] at hlen
    rw [Multiset.coe_card, Multiset.coe_card, ← hsm.length_eq] at hcard
    rw [← heq]
    rcases Nat.le_total cap l.length with hcap | hcap
    · rw [List.take_left' (by omega)]
    · have hnil : sortDesc key r = [] := List.length_eq_zero_iff.mp (by omega)
      rw [hnil, List.append_nil, List.take_of_length_le (by omega)]

/-! ## Arrays -/

/-- The first `n` elements. -/
def elems (a : Nat → α) (n : Nat) : List α := (List.range n).map a

section
variable {a : Nat → α} {n i j : Nat} {x : α}

theorem mem_elems : x ∈ elems a n ↔ ∃ i < n, a i = x := by
  rw [elems, List.mem_map]
  exact exists_congr fun i => and_congr_left' List.mem_range

theorem length_elems : (elems a n).length = n := by rw [elems, List.length_map, List.length_range]

theorem elems_succ : elems a (n + 1) = elems a n ++ [a n] := by
  rw [elems, elems, List.range_succ, List.map_append]
  rfl

theorem elems_cons : elems a (n + 1) = a 0 :: elems (fun i => a (i + 1)) n := by
  rw [elems, List.range_succ_eq_map, List.map_cons, List.map_map]
  rfl

theorem elems_update (h : n ≤ i) : elems (Function.update a i x) n = elems a n :=
  List.map_congr_left fun k hk => Function.update_of_ne (by have := List.mem_range.mp hk; omega) _ _

/-- `tmp = heap[i]; heap[i] = heap[j]; heap[j] = tmp` -/
def swap (a : Nat → α) (i j : Nat) : Nat → α := a ∘ Equiv.swap i j

theorem swap_left : swap a i j i = a j := congrArg a (Equiv.swap_apply_left i j)

theorem swap_right : swap a i j j = a i := congrArg a (Equiv.swap_apply_right i j)

theorem swap_of_ne {k : Nat} (hi : k ≠ i) (hj : k ≠ j) : swap a i j k = a k :=
  congrArg a (Equiv.swap_apply_of_ne_of_ne hi hj)

theorem elems_swap (hi : i < n) (hj : j < n) : (elems (swap a i j) n).Perm (elems a n) := by
  have hrange : ((List.range n).map (Equiv.swap i j)).Perm (List.range n) := by
    refine (List.perm_ext_iff_of_nodup (List.nodup_range.map (Equiv.injective _)) List.nodup_range).mpr fun k => ?_
    rw [List.mem_map, List.mem_range]
    constructor
    · intro h
      obtain ⟨m, hm, rfl⟩ := h
      rw [List.mem_range] at hm
      rw [Equiv.swap_apply_def]
      split_ifs <;> assumption
    · intro hk
      refine ⟨Equiv.swap i j k, ?_, Equiv.swap_apply_self i j k⟩
      rw [List.mem_range, Equiv.swap_apply_def]
      split_ifs <;> assumption
  have hmap := hrange.map a
  rwa [List.map_map] at hmap

end

/-! ## The heap -/

section Heap
variable (gt : α → α → Prop) [DecidableRel gt]

def siftUp (heap : Nat → α) (idx : Nat) : Nat → α :=
  if idx = 0 then heap
  else
    let parent := (idx - 1) / 2
    if ¬gt (heap parent) (heap idx) then heap else siftUp (swap heap parent idx) parent
termination_by idx
decreasing_by omega

/-- The least of an entry and its children. -/
def smallest (heap : Nat → α) (n idx : Nat) : Nat :=
  let left := idx * 2 + 1
  let right := left + 1
  let s := if left < n ∧ gt (heap idx) (heap left) then left else idx
  if right < n ∧ gt (heap s) (heap right) then right else s

theorem smallest_cases (heap : Nat → α) (n idx : Nat) :
    smallest gt heap n idx = idx ∨
      idx < smallest gt heap n idx ∧ smallest gt heap n idx < n ∧ (smallest gt heap n idx - 1) / 2 = idx := by
  rw [smallest]
  split_ifs with h1 h2 h2
  · exact .inr ⟨by omega, h2.1, by omega⟩
  · exact .inr ⟨by omega, h1.1, by omega⟩
  · exact .inr ⟨by omega, h2.1, by omega⟩
  · exact .inl rfl

def siftDown (heap : Nat → α) (n idx : Nat) : Nat → α :=
  if smallest gt heap n idx = idx then heap else siftDown (swap heap idx (smallest gt heap n idx)) n (smallest gt heap n idx)
termination_by n - idx
decreasing_by
  have := smallest_cases gt heap n idx
  omega

/-- `heap_n` entries, of which at most `cap` are used. -/
def offer (cap : Nat) (heap : Nat → α) (n : Nat) (x : α) : (Nat → α) × Nat :=
  if n < cap then (siftUp gt (Function.update heap n x) n, n + 1)
  else if gt x (heap 0) then (siftDown gt (Function.update heap 0 x) n 0, n)
  else (heap, n)

/-- No entry is below its parent. -/
def Ordered (key : α → κ) (heap : Nat → α) (n : Nat) : Prop := ∀ i, 0 < i → i < n → key (heap ((i - 1) / 2)) ≤ key (heap i)

variable {gt} {heap : Nat → α} {n idx : Nat}

theorem siftUp_perm (h : idx < n) : (elems (siftUp gt heap idx) n).Perm (elems heap n) := by
  fun_induction siftUp gt heap idx with
  | case1 => exact .refl _
  | case2 => exact .refl _
  | case3 heap idx h0 parent hgt ih => exact (ih (by omega)).trans (elems_swap (by omega) h)

theorem siftDown_perm (h : idx < n) : (elems (siftDown gt heap n idx) n).Perm (elems heap n) := by
  fun_induction siftDown gt heap n idx with
  | case1 => exact .refl _
  | case2 heap idx hne ih =>
    have := smallest_cases gt heap n idx
    exact (ih (by omega)).trans (elems_swap h (by omega))

theorem siftUp_update_perm {x : α} : (elems (siftUp gt (Function.update heap n x) n) (n + 1)).Perm (x :: elems heap n) := by
  refine (siftUp_perm (Nat.lt_succ_self n)).trans ?_
  rw [elems_succ, elems_update le_rfl, Function.update_self]
  exact List.perm_append_singleton x _

theorem siftDown_update_perm {x : α} {k : Nat} :
    (elems (siftDown gt (Function.update heap 0 x) (k + 1) 0) (k + 1)).Perm (x :: elems (fun i => heap (i + 1)) k) := by
  refine (siftDown_perm (Nat.succ_pos k)).trans ?_
  rw [elems_cons, Function.update_self]
  exact .refl _

/-- The order but for the entry at `idx` and its parent. -/
structure UpTo (key : α → κ) (heap : Nat → α) (n idx : Nat) : Prop where
  others : ∀ i, 0 < i → i < n → i ≠ idx → key (heap ((i - 1) / 2)) ≤ key (heap i)
  grand : 0 < idx → ∀ i, 0 < i → i < n → (i - 1) / 2 = idx → key (heap ((idx - 1) / 2)) ≤ key (heap i)

/-- The order but for the entry at `idx` and its children. -/
structure DownTo (key : α → κ) (heap : Nat → α) (n idx : Nat) : Prop where
  others : ∀ i, 0 < i → i < n → (i - 1) / 2 ≠ idx → key (heap ((i - 1) / 2)) ≤ key (heap i)
  grand : 0 < idx → ∀ i, 0 < i → i < n → (i - 1) / 2 = idx → key (heap ((idx - 1) / 2)) ≤ key (heap i)

theorem UpTo.move (h : UpTo key heap n idx) (h0 : idx ≠ 0) (hlt : idx < n)
    (hgt : key (heap idx) < key (heap ((idx - 1) / 2))) :
    UpTo key (swap heap ((idx - 1) / 2) idx) n ((idx - 1) / 2) where
  others i hi hin hne := by
    by_cases hidx : i = idx
    · subst hidx
      rw [swap_left, swap_right]
      exact hgt.le
    · rw [swap_of_ne hne hidx]
      by_cases hchild : (i - 1) / 2 = idx
      · rw [hchild, swap_right]
        exact h.grand (by omega) i hi hin hchild
      · by_cases hsibling : (i - 1) / 2 = (idx - 1) / 2
        · have hle := h.others i hi hin hidx
          rw [hsibling] at hle ⊢
          rw [swap_left]
          exact hgt.le.trans hle
        · rw [swap_of_ne hsibling hchild]
          exact h.others i hi hin hidx
  grand hpos i hi hin hchild := by
    have hup := h.others ((idx - 1) / 2) hpos (by omega) (by omega)
    rw [swap_of_ne (by omega) (by omega)]
    by_cases hidx : i = idx
    · rw [hidx, swap_right]
      exact hup
    · rw [swap_of_ne (by omega) hidx]
      have hle := h.others i hi hin hidx
      rw [hchild] at hle
      exact hup.trans hle

theorem siftUp_ordered (hgt : ∀ a b, gt a b ↔ key b < key a) (h : UpTo key heap n idx) (hlt : idx < n) :
    Ordered key (siftUp gt heap idx) n := by
  fun_induction siftUp gt heap idx with
  | case1 heap => exact fun i hi hin => h.others i hi hin (by omega)
  | case2 heap idx h0 parent hstop =>
    intro i hi hin
    by_cases hidx : i = idx
    · rw [hgt, not_lt] at hstop
      exact hidx ▸ hstop
    · exact h.others i hi hin hidx
  | case3 heap idx h0 parent hgo ih =>
    rw [not_not, hgt] at hgo
    exact ih (h.move h0 hlt hgo) (by omega)

theorem smallest_le (hgt : ∀ a b, gt a b ↔ key b < key a) {i : Nat} (hin : i < n) (hi : i = idx ∨ i = idx * 2 + 1 ∨ i = idx * 2 + 2) :
    key (heap (smallest gt heap n idx)) ≤ key (heap i) := by
  rw [smallest]
  simp only [hgt]
  split_ifs with hl hr hr <;> rcases hi with rfl | rfl | rfl
  · exact (hr.2.trans hl.2).le
  · exact hr.2.le
  · exact le_rfl
  · exact hl.2.le
  · exact le_rfl
  · exact le_of_not_gt fun hlt => hr ⟨hin, hlt⟩
  · exact hr.2.le
  · exact hr.2.le.trans (le_of_not_gt fun hlt => hl ⟨hin, hlt⟩)
  · exact le_rfl
  · exact le_rfl
  · exact le_of_not_gt fun hlt => hl ⟨hin, hlt⟩
  · exact le_of_not_gt fun hlt => hr ⟨hin, hlt⟩

theorem DownTo.move (h : DownTo key heap n idx) {s : Nat} (hs : idx < s) (hsn : s < n) (hparent : (s - 1) / 2 = idx)
    (hsmall : ∀ i, i < n → i = idx ∨ i = idx * 2 + 1 ∨ i = idx * 2 + 2 → key (heap s) ≤ key (heap i)) :
    DownTo key (swap heap idx s) n s where
  others i hi hin hne := by
    by_cases hidx : i = idx
    · rw [hidx, swap_left, swap_of_ne (by omega) (by omega)]
      exact h.grand (by omega) s (by omega) hsn hparent
    · by_cases his : i = s
      · rw [his, hparent, swap_left, swap_right]
        exact hsmall idx (by omega) (.inl rfl)
      · rw [swap_of_ne hidx his]
        by_cases hchild : (i - 1) / 2 = idx
        · rw [hchild, swap_left]
          exact hsmall i hin (by omega)
        · rw [swap_of_ne hchild hne]
          exact h.others i hi hin hchild
  grand hpos i hi hin hchild := by
    have hle := h.others i hi hin (by omega)
    rw [hchild] at hle
    rwa [hparent, swap_left, swap_of_ne (by omega) (by omega)]

theorem siftDown_ordered (hgt : ∀ a b, gt a b ↔ key b < key a) (h : DownTo key heap n idx) :
    Ordered key (siftDown gt heap n idx) n := by
  fun_induction siftDown gt heap n idx with
  | case1 heap idx hstop =>
    intro i hi hin
    by_cases hchild : (i - 1) / 2 = idx
    · have hle := @smallest_le α κ _ key gt _ heap n idx hgt i hin (by omega)
      rw [hstop] at hle
      rwa [hchild]
    · exact h.others i hi hin hchild
  | case2 heap idx hne ih =>
    obtain ⟨hlt, hn, hparent⟩ := (smallest_cases gt heap n idx).resolve_left hne
    exact ih (h.move hlt hn hparent fun i hin hi => smallest_le hgt hin hi)

/-- The root is the least entry. -/
theorem Ordered.root (h : Ordered key heap n) {i : Nat} (hi : i < n) : key (heap 0) ≤ key (heap i) := by
  induction i using Nat.strong_induction_on with
  | _ i ih =>
    rcases Nat.eq_zero_or_pos i with rfl | hpos
    · exact le_rfl
    · exact (ih ((i - 1) / 2) (by omega) (by omega)).trans (h i hpos hi)

/-- A heap that holds the `cap` largest elements of `l`. -/
structure TopHeap (key : α → κ) (cap : Nat) (heap : Nat → α) (n : Nat) (l : List α) : Prop where
  ordered : Ordered key heap n
  top : Top key cap l (elems heap n)

theorem TopHeap.nil (cap : Nat) (heap : Nat → α) : TopHeap key cap heap 0 [] :=
  ⟨fun i _ hi => absurd hi (Nat.not_lt_zero i), Top.zero⟩

theorem TopHeap.offer {cap : Nat} {l : List α} {x : α} (hgt : ∀ a b, gt a b ↔ key b < key a) (hcap : 0 < cap)
    (h : TopHeap key cap heap n l) :
    TopHeap key cap (offer gt cap heap n x).1 (offer gt cap heap n x).2 (x :: l) := by
  have hcard : (elems heap n : Multiset α).card = n := length_elems
  rw [TopK.offer]
  by_cases hroom : n < cap
  · rw [if_pos hroom]
    have hup : UpTo key (Function.update heap n x) (n + 1) n := by
      refine ⟨fun i hi hin hne => ?_, fun _ i _ hin hchild => absurd hchild (by omega)⟩
      rw [Function.update_of_ne (by omega), Function.update_of_ne hne]
      exact h.ordered i hi (by omega)
    refine ⟨siftUp_ordered hgt hup (Nat.lt_succ_self n), ?_⟩
    rw [Multiset.coe_eq_coe.mpr siftUp_update_perm]
    exact h.top.room (by omega)
  · rw [if_neg hroom]
    have hn : 0 < n := by omega
    have hroot : ∀ y ∈ elems heap n, key (heap 0) ≤ key y := fun y hy => by
      obtain ⟨i, hi, rfl⟩ := mem_elems.mp hy
      exact h.ordered.root hi
    by_cases hbetter : gt x (heap 0)
    · obtain ⟨k, rfl⟩ := Nat.exists_eq_succ_of_ne_zero hn.ne'
      have hdown : DownTo key (Function.update heap 0 x) (k + 1) 0 := by
        refine ⟨fun i hi hin hne => ?_, fun h0 => absurd h0 (Nat.lt_irrefl 0)⟩
        rw [Function.update_of_ne hne, Function.update_of_ne hi.ne']
        exact h.ordered i hi hin
      have htop := h.top
      rw [Nat.succ_eq_add_one, elems_cons, ← Multiset.cons_coe] at htop hcard
      rw [Nat.succ_eq_add_one, elems_cons] at hroot
      rw [if_pos hbetter]
      refine ⟨siftDown_ordered hgt hdown, ?_⟩
      rw [Multiset.coe_eq_coe.mpr siftDown_update_perm]
      rw [Multiset.card_cons] at hcard
      exact htop.replace (by omega) (fun z hz => hroot z (List.mem_cons_of_mem _ hz)) ((hgt _ _).mp hbetter).le
    · rw [if_neg hbetter]
      rw [hgt, not_lt] at hbetter
      exact ⟨h.ordered, h.top.skip (by omega) fun y hy => hbetter.trans (hroot y hy)⟩

end Heap

/-! ## The sorted array -/

section Sorted
variable (less : α → α → Prop) [DecidableRel less]

/-- Entries below `x` move up by one place, from the place `j` down. -/
def place (a : Nat → α) (x : α) : Nat → Nat → α
  | 0 => Function.update a 0 x
  | j + 1 => if less (a j) x then place (Function.update a (j + 1) (a j)) x j else Function.update a (j + 1) x

def insert (cap : Nat) (a : Nat → α) (n : Nat) (x : α) : (Nat → α) × Nat :=
  if n = cap ∧ ¬less (a (n - 1)) x then (a, n)
  else (place less a x (if n < cap then n else n - 1), if n < cap then n + 1 else n)

variable {less} {a : Nat → α} {x : α} {j n cap : Nat}

theorem place_of_gt {k : Nat} (h : j < k) : place less a x j k = a k := by
  induction j generalizing a with
  | zero => exact Function.update_of_ne h.ne' _ _
  | succ j ih =>
    rw [place]
    split
    · rw [ih (by omega)]
      exact Function.update_of_ne h.ne' _ _
    · exact Function.update_of_ne h.ne' _ _

theorem place_perm : (elems (place less a x j) (j + 1)).Perm (x :: elems a j) := by
  induction j generalizing a with
  | zero => exact .of_eq (by rw [place, elems_cons, Function.update_self]; rfl)
  | succ j ih =>
    rw [place]
    split
    · have hsplit : x :: elems a (j + 1) = (x :: elems a j) ++ [a j] := by
        rw [elems_succ]
        rfl
      rw [@elems_succ _ _ (j + 1), place_of_gt (Nat.lt_succ_self j), Function.update_self, hsplit]
      refine List.Perm.append_right _ (ih.trans ?_)
      rw [elems_update (Nat.le_succ j)]
    · rw [elems_succ, Function.update_self, elems_update le_rfl]
      exact List.perm_append_singleton x _

theorem desc_append_singleton {l : List α} {y : α} (hl : Desc key l) (hy : ∀ z ∈ l, key y ≤ key z) : Desc key (l ++ [y]) := by
  rw [Desc, List.pairwise_append]
  refine ⟨hl, List.pairwise_singleton _ _, fun z hz w hw => ?_⟩
  rw [List.mem_singleton.mp hw]
  exact hy z hz

theorem Desc.last_le {y : α} (h : Desc key (elems a (j + 1))) (hy : y ∈ elems a j) : key (a j) ≤ key y := by
  rw [Desc, elems_succ, List.pairwise_append] at h
  exact h.2.2 y hy _ (List.mem_singleton.mpr rfl)

theorem Desc.init (h : Desc key (elems a (j + 1))) : Desc key (elems a j) := by
  rw [Desc, elems_succ, List.pairwise_append] at h
  exact h.1

theorem place_desc (h : Desc key (elems a j)) (hless : ∀ y ∈ elems a j, less y x ↔ key y < key x) :
    Desc key (elems (place less a x j) (j + 1)) := by
  induction j generalizing a with
  | zero => exact List.pairwise_singleton _ _
  | succ j ih =>
    have hlast : a j ∈ elems a (j + 1) := mem_elems.mpr ⟨j, Nat.lt_succ_self j, rfl⟩
    have hsub : ∀ y ∈ elems a j, y ∈ elems a (j + 1) := fun y hy => by
      rw [elems_succ]
      exact List.mem_append_left _ hy
    have hupdate : elems (Function.update a (j + 1) (a j)) j = elems a j := elems_update (Nat.le_succ j)
    rw [place]
    split
    · next hlt =>
      rw [elems_succ, place_of_gt (Nat.lt_succ_self j), Function.update_self]
      refine desc_append_singleton (ih (hupdate ▸ h.init) fun y hy => hless y (hsub y (hupdate ▸ hy))) fun z hz => ?_
      cases List.mem_cons.mp (place_perm.mem_iff.mp hz) with
      | inl hzx => exact hzx ▸ ((hless _ hlast).mp hlt).le
      | inr hza => exact h.last_le (hupdate ▸ hza)
    · next hnlt =>
      rw [elems_succ, Function.update_self, elems_update le_rfl]
      rw [hless _ hlast, not_lt] at hnlt
      refine desc_append_singleton h fun z hz => ?_
      rw [elems_succ] at hz
      cases List.mem_append.mp hz with
      | inl hzj => exact hnlt.trans (h.last_le hzj)
      | inr hzl => exact List.mem_singleton.mp hzl ▸ hnlt

/-- A descending array that holds the `cap` largest elements of `l`. -/
structure TopArray (key : α → κ) (cap : Nat) (a : Nat → α) (n : Nat) (l : List α) : Prop where
  desc : Desc key (elems a n)
  top : Top key cap l (elems a n)

theorem TopArray.nil (cap : Nat) (a : Nat → α) : TopArray key cap a 0 [] := ⟨List.Pairwise.nil, Top.zero⟩

theorem TopArray.insert {l : List α} (hcap : 0 < cap) (hless : ∀ y ∈ elems a n, less y x ↔ key y < key x)
    (h : TopArray key cap a n l) : TopArray key cap (insert less cap a n x).1 (insert less cap a n x).2 (x :: l) := by
  have hcard : (elems a n : Multiset α).card = n := length_elems
  have hle := h.top.card
  rw [TopK.insert]
  by_cases hroom : n < cap
  · rw [if_neg (by omega), if_pos hroom, if_pos hroom]
    refine ⟨place_desc h.desc hless, ?_⟩
    rw [Multiset.coe_eq_coe.mpr place_perm]
    exact h.top.room (by omega)
  · obtain ⟨k, rfl⟩ := Nat.exists_eq_succ_of_ne_zero (show n ≠ 0 by omega)
    have hlast : a k ∈ elems a (k + 1) := mem_elems.mpr ⟨k, Nat.lt_succ_self k, rfl⟩
    have hleast : ∀ y ∈ elems a (k + 1), key (a k) ≤ key y := fun y hy => by
      rw [elems_succ] at hy
      cases List.mem_append.mp hy with
      | inl hyk => exact h.desc.last_le hyk
      | inr hyl => exact (List.mem_singleton.mp hyl).symm ▸ le_rfl
    by_cases hskip : less (a k) x
    · rw [if_neg (fun hs => hs.2 hskip), if_neg hroom, if_neg hroom]
      have hperm : (elems a (k + 1)).Perm (a k :: elems a k) := by
        rw [elems_succ]
        exact List.perm_append_singleton _ _
      have hsub : ∀ y ∈ elems a k, y ∈ elems a (k + 1) := fun y hy => hperm.mem_iff.mpr (List.mem_cons_of_mem _ hy)
      have htop := h.top
      rw [Nat.succ_eq_add_one, Multiset.coe_eq_coe.mpr hperm, ← Multiset.cons_coe] at htop hcard
      rw [Multiset.card_cons] at hcard
      refine ⟨place_desc h.desc.init fun y hy => hless y (hsub y hy), ?_⟩
      show Top key cap _ ↑(elems (place less a x k) (k + 1))
      rw [Multiset.coe_eq_coe.mpr place_perm]
      exact htop.replace (by omega) (fun z hz => hleast z (hsub z hz)) ((hless _ hlast).mp hskip).le
    · rw [if_pos ⟨by omega, hskip⟩]
      rw [hless _ hlast, not_lt] at hskip
      exact ⟨h.desc, h.top.skip (by omega) fun y hy => hskip.trans (hleast y hy)⟩

end Sorted

end TopK
