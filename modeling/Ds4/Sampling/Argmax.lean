import Mathlib.Algebra.Group.Int.Defs
import Mathlib.Algebra.GroupWithZero.Nat
import Mathlib.Data.Int.Order.Basic
import Mathlib.Data.Prod.Lex
import Mathlib.Order.Bounds.Basic
import Mathlib.Order.Interval.Set.LinearOrder

/-!
# The largest logit

The loop over the logits is unrolled: eight lanes each keep the first of the largest values they see, and are merged
with the smaller index first. A candidate is ordered by its value and then by its index, the smaller one first; all
the loops compute the greatest candidate in this order.
-/

namespace Ds4.Sampling

/-- `best` and `best_v`. -/
structure Best (K : Type u) where
  id : ℤ
  v : K

variable {K : Type u} [LinearOrder K]

/-- `if (x > v) { v = x; b = i; }` -/
def Best.see (b : Best K) (i : ℕ) (x : K) : Best K := if b.v < x then ⟨i, x⟩ else b

/-- The loop over `begin..end` in single steps. -/
def scalarLoop (logits : ℕ → K) (i e : ℕ) (b : Best K) : Best K :=
  if i < e then scalarLoop logits (i + 1) e (b.see i (logits i)) else b
termination_by e - i

/-- The unrolled loop: where it stops, and the lanes. -/
def lanesLoop (logits : ℕ → K) (i e : ℕ) (lanes : Fin 8 → Best K) : ℕ × (Fin 8 → Best K) :=
  if 8 ≤ e - i then lanesLoop logits (i + 8) e fun k => (lanes k).see (i + k) (logits (i + k)) else (i, lanes)
termination_by e - i

/-- `DS4_ARGMAX_MERGE_LANE` -/
def Best.merge (best l : Best K) : Best K := if best.v < l.v ∨ l.v = best.v ∧ l.id < best.id then l else best

def argmaxF32Unrolled8Range (logits : ℕ → K) (i e : ℕ) (best : Best K) : Best K :=
  let (i, lanes) := lanesLoop logits i e fun _ => best
  scalarLoop logits i e ((List.finRange 8).foldl (fun b k => b.merge (lanes k)) best)

/-- The range from 0, where `negInf` is `DS4_NEG_INF`. -/
def sampleArgmaxUnrolled8 (negInf : K) (logits : ℕ → K) (n : ℕ) : ℤ :=
  (argmaxF32Unrolled8Range logits 0 n ⟨0, negInf⟩).id

/-- The first index that is not excluded. -/
def firstIndex (excludedId : ℤ) : ℕ := if excludedId = 0 then 1 else 0

def argmaxF32ExcludingUnrolled8 (logits : ℕ → K) (n : ℕ) (excludedId : ℤ) : ℤ :=
  let first := firstIndex excludedId
  if n ≤ first then -1
  else
    let best := ⟨first, logits first⟩
    if 0 ≤ excludedId ∧ first + 1 ≤ excludedId.toNat ∧ excludedId.toNat < n then
      (argmaxF32Unrolled8Range logits (excludedId.toNat + 1) n
        (argmaxF32Unrolled8Range logits (first + 1) excludedId.toNat best)).id
    else (argmaxF32Unrolled8Range logits (first + 1) n best).id

/-- `sample_argmax`; `unrolled` when `DS4_CPU_DISABLE_UNROLLED_ARGMAX` is not set. -/
def sampleArgmax (unrolled : Bool) (negInf : K) (logits : ℕ → K) (n : ℕ) : ℤ :=
  if unrolled then sampleArgmaxUnrolled8 negInf logits n else (scalarLoop logits 0 n ⟨0, negInf⟩).id

/-- The body of the loop of `ds4_test_argmax_excluding_logits`. -/
def Best.seeExcluding (excludedId : ℤ) (b : Best K) (i : ℕ) (x : K) : Best K :=
  if (i : ℤ) = excludedId then b else if b.id < 0 ∨ b.v < x then ⟨i, x⟩ else b

def excludingLoop (logits : ℕ → K) (excludedId : ℤ) (i e : ℕ) (b : Best K) : Best K :=
  if i < e then excludingLoop logits excludedId (i + 1) e (b.seeExcluding excludedId i (logits i)) else b
termination_by e - i

def ds4TestArgmaxExcludingLogits (unrolled : Bool) (negInf : K) (logits : ℕ → K) (n : ℕ) (excludedId : ℤ) : ℤ :=
  if unrolled then argmaxF32ExcludingUnrolled8 logits n excludedId
  else (excludingLoop logits excludedId 0 n ⟨-1, negInf⟩).id

/-! ## The order of candidates -/

/-- A larger value is better, and of equal values the one with the smaller index. -/
def Best.key (b : Best K) : K ×ₗ ℤᵒᵈ := toLex (b.v, OrderDual.toDual b.id)

/-- The candidate at an index. -/
def cand (logits : ℕ → K) (i : ℕ) : Best K := ⟨i, logits i⟩

section
variable {logits : ℕ → K} {a b best : Best K} {i e n : ℕ} {lanes : Fin 8 → Best K}

theorem Best.key_le_iff : a.key ≤ b.key ↔ a.v < b.v ∨ a.v = b.v ∧ b.id ≤ a.id := Prod.Lex.toLex_le_toLex

omit [LinearOrder K] in
theorem Best.key_injective : Function.Injective (Best.key (K := K)) := by
  intro a b h
  have h := Prod.ext_iff.mp (toLex.injective h)
  cases a
  cases b
  exact congrArg₂ Best.mk h.2 h.1

theorem Best.merge_key : (best.merge a).key = max best.key a.key := by
  rw [Best.merge]
  split
  · next h =>
    refine (max_eq_right (Best.key_le_iff.mpr ?_)).symm
    exact h.imp_right fun h => ⟨h.1.symm, h.2.le⟩
  · next h =>
    obtain ⟨h1, h2⟩ := not_or.mp h
    refine (max_eq_left (Best.key_le_iff.mpr ?_)).symm
    rcases (not_lt.mp h1).lt_or_eq with hlt | heq
    · exact .inl hlt
    · exact .inr ⟨heq, not_lt.mp fun hlt => h2 ⟨heq, hlt⟩⟩

/-- A candidate whose index is not smaller than that of the best one so far. -/
theorem Best.see_key (h : b.id ≤ i) : (b.see i (logits i)).key = max b.key (cand logits i).key := by
  rw [Best.see]
  split
  · next hlt => exact (max_eq_right (Best.key_le_iff.mpr (.inl hlt))).symm
  · next hlt =>
    refine (max_eq_left (Best.key_le_iff.mpr ?_)).symm
    rcases (not_lt.mp hlt).lt_or_eq with hlt' | heq
    · exact .inl hlt'
    · exact .inr ⟨heq, h⟩

theorem Best.see_id_le (h : b.id ≤ i) : (b.see i (logits i)).id ≤ i := by
  rw [Best.see]
  split
  · exact le_refl _
  · exact h

/-- `r` is the best of `b` and of the candidates at the indices `s`. -/
def IsBest (logits : ℕ → K) (b : Best K) (s : Set ℕ) (r : Best K) : Prop :=
  IsGreatest (insert b.key ((fun j => (cand logits j).key) '' s)) r.key

variable {r r' : Best K} {s t : Set ℕ}

theorem IsBest.unique (h : IsBest logits b s r) (h' : IsBest logits b s r') : r = r' :=
  Best.key_injective (IsGreatest.unique h h')

/-- The best is one of the candidates. -/
theorem IsBest.cases (h : IsBest logits b s r) : r = b ∨ ∃ j ∈ s, r = cand logits j := by
  rcases h.1 with hb | ⟨j, hj, hkey⟩
  · exact .inl (Best.key_injective hb)
  · exact .inr ⟨j, hj, Best.key_injective hkey.symm⟩

theorem IsBest.base (h : IsBest logits b s r) : b.key ≤ r.key := h.2 (Set.mem_insert ..)

theorem IsBest.le (h : IsBest logits b s r) {j : ℕ} (hj : j ∈ s) : (cand logits j).key ≤ r.key :=
  h.2 (Set.mem_insert_of_mem _ ⟨j, hj, rfl⟩)

theorem isBest_empty (b : Best K) : IsBest logits b ∅ b := by
  rw [IsBest, Set.image_empty, insert_empty_eq]
  exact isGreatest_singleton

theorem IsBest.union (h : IsBest logits b s r) (h' : IsBest logits r t r') : IsBest logits b (s ∪ t) r' := by
  refine ⟨?_, ?_⟩
  · rcases h'.cases with rfl | ⟨j, hj, rfl⟩
    · rcases h.cases with rfl | ⟨j, hj, rfl⟩
      · exact Set.mem_insert ..
      · exact Set.mem_insert_of_mem _ ⟨j, .inl hj, rfl⟩
    · exact Set.mem_insert_of_mem _ ⟨j, .inr hj, rfl⟩
  · rintro x (rfl | ⟨j, hj | hj, rfl⟩)
    · exact h.base.trans h'.base
    · exact (h.le hj).trans h'.base
    · exact h'.le hj

theorem IsBest.see (h : b.id ≤ i) : IsBest logits b {i} (b.see i (logits i)) := by
  rw [IsBest, Set.image_singleton, Best.see_key h]
  exact isGreatest_pair

variable (logits) in
theorem scalarLoop_isBest (h : b.id ≤ i) : IsBest logits b (Set.Ico i e) (scalarLoop logits i e b) := by
  fun_induction scalarLoop logits i e b with
  | case1 i b hlt ih =>
    have hrest := ih ((Best.see_id_le h).trans (by omega))
    have hsplit : Set.Ico i e = {i} ∪ Set.Ico (i + 1) e := by
      ext j
      simp only [Set.mem_Ico, Set.mem_union, Set.mem_singleton_iff]
      omega
    rw [hsplit]
    exact (IsBest.see h).union hrest
  | case2 i b hlt =>
    rw [Set.Ico_eq_empty_of_le (Nat.le_of_not_lt hlt)]
    exact isBest_empty b

/-! ## The lanes -/

/-- What the lanes have seen: each is one of the candidates, and none of the candidates is better than all of them. -/
structure Lanes (logits : ℕ → K) (b : Best K) (i e : ℕ) (lanes : Fin 8 → Best K) : Prop where
  mem : ∀ k, lanes k = b ∨ ∃ j ∈ Set.Ico i e, lanes k = cand logits j
  base : ∀ k, b.key ≤ (lanes k).key
  le : ∀ j ∈ Set.Ico i e, ∃ k, (cand logits j).key ≤ (lanes k).key

theorem Lanes.id_le (h : Lanes logits b i e lanes) (hb : b.id ≤ i) (hi : i ≤ e) (k : Fin 8) :
    (lanes k).id ≤ e := by
  rcases h.mem k with hk | ⟨j, hj, hk⟩
  · rw [hk]
    omega
  · rw [hk]
    exact Int.ofNat_le.mpr hj.2.le

theorem Lanes.step {m : ℕ} (h : Lanes logits b i m lanes) (hb : b.id ≤ i) (hi : i ≤ m) :
    Lanes logits b i (m + 8) fun k => (lanes k).see (m + k) (logits (m + k)) := by
  have hid : ∀ k : Fin 8, (lanes k).id ≤ ↑(m + (k : ℕ)) := fun k => (h.id_le hb hi k).trans (by omega)
  have hsee : ∀ k : Fin 8, IsBest logits (lanes k) {m + (k : ℕ)} ((lanes k).see (m + k) (logits (m + k))) :=
    fun k => IsBest.see (hid k)
  refine ⟨fun k => ?_, fun k => (h.base k).trans (hsee k).base, fun j hj => ?_⟩
  · rcases (hsee k).cases with hk | ⟨j, hj, hk⟩
    · rw [hk]
      refine (h.mem k).imp_right fun hm => ?_
      obtain ⟨j, hj, hm⟩ := hm
      exact ⟨j, ⟨hj.1, Nat.lt_add_right 8 hj.2⟩, hm⟩
    · cases hj
      exact .inr ⟨m + k, ⟨by omega, by omega⟩, hk⟩
  · rcases Nat.lt_or_ge j m with hlt | hge
    · obtain ⟨k, hk⟩ := h.le j ⟨hj.1, hlt⟩
      exact ⟨k, hk.trans (hsee k).base⟩
    · have hj2 := hj.2
      refine ⟨⟨j - m, by omega⟩, (hsee _).le ?_⟩
      show j = m + (j - m)
      omega

theorem Lanes.loop {m : ℕ} (h : Lanes logits b i m lanes) (hb : b.id ≤ i) (hi : i ≤ m) (hm : m ≤ e) :
    Lanes logits b i (lanesLoop logits m e lanes).1 (lanesLoop logits m e lanes).2 ∧
      m ≤ (lanesLoop logits m e lanes).1 ∧ (lanesLoop logits m e lanes).1 ≤ e := by
  fun_induction lanesLoop logits m e lanes with
  | case1 m lanes hroom ih =>
    obtain ⟨hl, hle, hend⟩ := ih (h.step hb hi) (by omega) (by omega)
    exact ⟨hl, by omega, hend⟩
  | case2 m lanes hroom => exact ⟨h, le_refl _, hm⟩

theorem foldl_merge_key (lanes : Fin 8 → Best K) (l : List (Fin 8)) (b : Best K) :
    b.key ≤ (l.foldl (fun b k => b.merge (lanes k)) b).key ∧
    (∀ k ∈ l, (lanes k).key ≤ (l.foldl (fun b k => b.merge (lanes k)) b).key) ∧
    (l.foldl (fun b k => b.merge (lanes k)) b = b ∨ ∃ k, l.foldl (fun b k => b.merge (lanes k)) b = lanes k) := by
  induction l generalizing b with
  | nil => exact ⟨le_refl _, fun k hk => absurd hk List.not_mem_nil, .inl rfl⟩
  | cons k l ih =>
    rw [List.foldl_cons]
    obtain ⟨hbase, hle, hmem⟩ := ih (b.merge (lanes k))
    rw [Best.merge_key] at hbase
    refine ⟨(le_max_left ..).trans hbase, fun j hj => ?_, ?_⟩
    · rcases List.mem_cons.mp hj with rfl | hj
      · exact (le_max_right ..).trans hbase
      · exact hle j hj
    · rcases hmem with hm | hm
      · rw [hm, Best.merge]
        split
        · exact .inr ⟨k, rfl⟩
        · exact .inl rfl
      · exact .inr hm

/-- The lanes merged are the best of the candidates. -/
theorem Lanes.merged {m : ℕ} (h : Lanes logits b i m lanes) :
    IsBest logits b (Set.Ico i m) ((List.finRange 8).foldl (fun b k => b.merge (lanes k)) b) := by
  obtain ⟨hbase, hle, hmem⟩ := foldl_merge_key lanes (List.finRange 8) b
  refine ⟨?_, ?_⟩
  · rcases hmem with hb | ⟨k, hk⟩
    · rw [hb]
      exact Set.mem_insert ..
    · rw [hk]
      rcases h.mem k with hb | ⟨j, hj, hk⟩
      · rw [hb]
        exact Set.mem_insert ..
      · rw [hk]
        exact Set.mem_insert_of_mem _ ⟨j, hj, rfl⟩
  · rintro x (rfl | ⟨j, hj, rfl⟩)
    · exact hbase
    · obtain ⟨k, hk⟩ := h.le j hj
      exact hk.trans (hle k (List.mem_finRange k))

variable (logits) in
theorem argmaxF32Unrolled8Range_isBest (h : b.id ≤ i) (hie : i ≤ e) :
    IsBest logits b (Set.Ico i e) (argmaxF32Unrolled8Range logits i e b) := by
  have hstart : Lanes logits b i i fun _ => b :=
    ⟨fun _ => .inl rfl, fun _ => le_refl _, fun j hj => absurd hj.2 (not_lt.mpr hj.1)⟩
  obtain ⟨hlanes, hle, hend⟩ := hstart.loop h (le_refl _) hie
  rw [argmaxF32Unrolled8Range]
  dsimp only
  generalize lanesLoop logits i e (fun _ => b) = p at *
  have hmerged := hlanes.merged
  have hid : ((List.finRange 8).foldl (fun b k => b.merge (p.2 k)) b).id ≤ p.1 := by
    rcases hmerged.cases with hb | ⟨j, hj, hb⟩
    · rw [hb]
      omega
    · rw [hb]
      exact Int.ofNat_le.mpr hj.2.le
  have hall := hmerged.union (scalarLoop_isBest logits (e := e) hid)
  rwa [Set.Ico_union_Ico_eq_Ico hle hend] at hall

/-! ## The smallest index of the maximum -/

def FirstMax (logits : ℕ → K) (s : Set ℕ) (r : ℤ) : Prop :=
  ∃ i ∈ s, r = i ∧ ∀ j ∈ s, logits j ≤ logits i ∧ (j < i → logits j < logits i)

theorem firstMax_of_le (hi : i ∈ s) (h : ∀ j ∈ s, (cand logits j).key ≤ (cand logits i).key) :
    FirstMax logits s i := by
  refine ⟨i, hi, rfl, fun j hj => ?_⟩
  rcases Best.key_le_iff.mp (h j hj) with hlt | ⟨heq, hid⟩
  · exact ⟨le_of_lt hlt, fun _ => hlt⟩
  · exact ⟨le_of_eq heq, fun hji => absurd (Int.ofNat_le.mp hid) (Nat.not_le.mpr hji)⟩

/-- A candidate with a larger value than the initial one wins over it. -/
theorem IsBest.firstMax (h : IsBest logits b s r) (hex : ∃ i ∈ s, b.v < logits i) : FirstMax logits s r.id := by
  rcases h.cases with rfl | ⟨i, hi, rfl⟩
  · obtain ⟨i, hi, hlt⟩ := hex
    have hwin : r.key < (cand logits i).key := lt_of_le_of_ne (Best.key_le_iff.mpr (.inl hlt)) fun heq =>
      hlt.ne (congrArg Best.v (Best.key_injective heq))
    exact absurd (h.le hi) (not_le_of_gt hwin)
  · exact firstMax_of_le hi fun j hj => h.le hj

theorem IsBest.eq_base (h : IsBest logits b s r) (hid : ∀ i ∈ s, b.id ≤ i) (hex : ¬∃ i ∈ s, b.v < logits i) :
    r = b := by
  refine h.unique ⟨Set.mem_insert .., ?_⟩
  rintro x (rfl | ⟨i, hi, rfl⟩)
  · exact le_refl _
  · refine Best.key_le_iff.mpr ?_
    rcases (not_lt.mp fun hlt => hex ⟨i, hi, hlt⟩).lt_or_eq with hlt | heq
    · exact .inl hlt
    · exact .inr ⟨heq, hid i hi⟩

/-- The initial value is that of the first index. -/
theorem IsBest.firstMax_cand (h : IsBest logits (cand logits i) s r) : FirstMax logits (insert i s) r.id := by
  have hall : ∀ j ∈ insert i s, (cand logits j).key ≤ r.key := by
    rintro j (rfl | hj)
    · exact h.base
    · exact h.le hj
  rcases h.cases with rfl | ⟨j, hj, rfl⟩
  · exact firstMax_of_le (Set.mem_insert ..) hall
  · exact firstMax_of_le (Set.mem_insert_of_mem _ hj) hall

/-! ## The loops without an excluded index -/

variable {negInf : K} {ex : ℤ}

/-- The indices that a token may have when one is excluded. -/
def allowed (n : ℕ) (ex : ℤ) : Set ℕ := {j | j < n ∧ (j : ℤ) ≠ ex}

variable (logits ex) in
theorem excludingLoop_isBest (hb : b.id ≤ i) (hpos : 0 ≤ b.id) :
    IsBest logits b (Set.Ico i e ∩ {j | (j : ℤ) ≠ ex}) (excludingLoop logits ex i e b) := by
  fun_induction excludingLoop logits ex i e b with
  | case1 i b hlt ih =>
    have hsplit : Set.Ico i e ∩ {j | (j : ℤ) ≠ ex}
        = (({i} : Set ℕ) ∩ {j | (j : ℤ) ≠ ex}) ∪ (Set.Ico (i + 1) e ∩ {j | (j : ℤ) ≠ ex}) := by
      rw [← Set.union_inter_distrib_right]
      congr 1
      ext j
      simp only [Set.mem_Ico, Set.mem_union, Set.mem_singleton_iff]
      omega
    rw [hsplit]
    by_cases heq : (i : ℤ) = ex
    · have hnone : ({i} : Set ℕ) ∩ {j | (j : ℤ) ≠ ex} = ∅ :=
        Set.eq_empty_of_forall_notMem fun j hj => hj.2 (by rw [Set.mem_singleton_iff.mp hj.1, heq])
      have hskip : b.seeExcluding ex i (logits i) = b := if_pos heq
      rw [hskip] at ih ⊢
      rw [hnone]
      exact (isBest_empty b).union (ih (by omega) hpos)
    · have hone : ({i} : Set ℕ) ∩ {j | (j : ℤ) ≠ ex} = {i} :=
        Set.inter_eq_left.mpr fun j hj => by rw [Set.mem_singleton_iff.mp hj]; exact heq
      have hsee : b.seeExcluding ex i (logits i) = b.see i (logits i) := by
        rw [Best.seeExcluding, if_neg heq, Best.see]
        exact if_congr (or_iff_right (not_lt.mpr hpos)) rfl rfl
      rw [hsee] at ih ⊢
      rw [hone]
      refine (IsBest.see hb).union (ih ((Best.see_id_le hb).trans (by omega)) ?_)
      rcases (@IsBest.see K _ logits b i hb).cases with hb' | ⟨j, -, hj⟩
      · rw [hb']
        exact hpos
      · rw [hj]
        exact Int.natCast_nonneg j
  | case2 i b hlt =>
    rw [Set.Ico_eq_empty_of_le (Nat.le_of_not_lt hlt), Set.empty_inter]
    exact isBest_empty b

/-- The first index that is not excluded starts the loop. -/
theorem excludingLoop_first (hn : firstIndex ex < n) :
    excludingLoop logits ex 0 n ⟨-1, negInf⟩
      = excludingLoop logits ex (firstIndex ex + 1) n (cand logits (firstIndex ex)) := by
  have hfirst : ∀ i : ℕ, (i : ℤ) ≠ ex → Best.seeExcluding ex ⟨-1, negInf⟩ i (logits i) = cand logits i :=
    fun i hi => (if_neg hi).trans (if_pos (.inl (show (-1 : ℤ) < 0 by decide)))
  rw [firstIndex] at hn
  split at hn
  · next h0 =>
    have hskip : Best.seeExcluding ex ⟨-1, negInf⟩ 0 (logits 0) = ⟨-1, negInf⟩ := if_pos h0.symm
    rw [firstIndex, if_pos h0, excludingLoop, if_pos (by omega), hskip, excludingLoop, if_pos hn, hfirst 1 (by rw [h0]; decide)]
  · next h0 =>
    rw [firstIndex, if_neg h0, excludingLoop, if_pos hn, hfirst 0 fun h => h0 h.symm]

theorem excludingLoop_none (hn : n ≤ firstIndex ex) : excludingLoop logits ex 0 n ⟨-1, negInf⟩ = ⟨-1, negInf⟩ := by
  rw [firstIndex] at hn
  split at hn
  · next h0 =>
    have hskip : Best.seeExcluding ex ⟨-1, negInf⟩ 0 (logits 0) = ⟨-1, negInf⟩ := if_pos h0.symm
    rw [excludingLoop]
    split
    · rw [hskip, excludingLoop, if_neg (by omega)]
    · rfl
  · rw [excludingLoop, if_neg (by omega)]

variable (logits) in
/-- The unrolled form skips the excluded index by going over two ranges. -/
theorem argmaxF32ExcludingUnrolled8_isBest (hn : firstIndex ex < n) :
    ∃ r, IsBest logits (cand logits (firstIndex ex))
        (Set.Ico (firstIndex ex + 1) n ∩ {j | (j : ℤ) ≠ ex}) r ∧
      argmaxF32ExcludingUnrolled8 logits n ex = r.id := by
  rw [argmaxF32ExcludingUnrolled8]
  generalize firstIndex ex = first at hn ⊢
  dsimp only
  rw [if_neg (Nat.not_le.mpr hn)]
  have hid : (cand logits first).id ≤ ↑(first + 1) := Int.ofNat_le.mpr (Nat.le_succ first)
  split
  · next hex =>
    obtain ⟨k, rfl⟩ := Int.eq_ofNat_of_zero_le hex.1
    rw [Int.toNat_natCast] at hex ⊢
    have h1 := argmaxF32Unrolled8Range_isBest logits hid hex.2.1
    have hid' : (argmaxF32Unrolled8Range logits (first + 1) k (cand logits first)).id ≤ ↑(k + 1) := by
      rcases h1.cases with hb | ⟨j, hj, hb⟩
      · rw [hb]
        exact hid.trans (by omega)
      · rw [hb]
        exact Int.ofNat_le.mpr (hj.2.le.trans (Nat.le_succ k))
    have h2 := argmaxF32Unrolled8Range_isBest logits hid' hex.2.2
    have hsplit : Set.Ico (first + 1) n ∩ {j | (j : ℤ) ≠ k} = Set.Ico (first + 1) k ∪ Set.Ico (k + 1) n := by
      ext j
      simp only [Set.mem_inter_iff, Set.mem_Ico, Set.mem_ofPred_eq, Set.mem_union]
      omega
    rw [hsplit]
    exact ⟨_, h1.union h2, rfl⟩
  · next hex =>
    have hall : Set.Ico (first + 1) n ∩ {j | (j : ℤ) ≠ ex} = Set.Ico (first + 1) n := by
      refine Set.inter_eq_left.mpr fun j hj heq => hex ?_
      have := hj.1
      have := hj.2
      omega
    rw [hall]
    exact ⟨_, argmaxF32Unrolled8Range_isBest logits hid hn, rfl⟩

theorem mem_allowed (hn : firstIndex ex < n) :
    insert (firstIndex ex) (Set.Ico (firstIndex ex + 1) n ∩ {j | (j : ℤ) ≠ ex}) = allowed n ex := by
  ext j
  simp only [allowed, Set.mem_insert_iff, Set.mem_inter_iff, Set.mem_Ico, Set.mem_ofPred_eq]
  rw [firstIndex] at hn ⊢
  split_ifs at hn ⊢ <;> omega

end

/-- The unrolled loops find what the plain ones find: the smallest index of the largest value. -/
theorem argmax_unrolled (negInf : K) (logits : ℕ → K) (n : ℕ) :
    sampleArgmax true negInf logits n = sampleArgmax false negInf logits n ∧
    ((∃ i < n, negInf < logits i) → FirstMax logits (Set.Iio n) (sampleArgmax true negInf logits n)) ∧
    ((¬∃ i < n, negInf < logits i) → sampleArgmax true negInf logits n = 0) ∧
    ∀ ex : ℤ,
      ds4TestArgmaxExcludingLogits true negInf logits n ex = ds4TestArgmaxExcludingLogits false negInf logits n ex ∧
      ((allowed n ex).Nonempty → FirstMax logits (allowed n ex) (argmaxF32ExcludingUnrolled8 logits n ex)) ∧
      (allowed n ex = ∅ → argmaxF32ExcludingUnrolled8 logits n ex = -1) := by
  have hplain := scalarLoop_isBest logits (b := ⟨0, negInf⟩) (i := 0) (e := n) (le_refl _)
  have hunrolled := argmaxF32Unrolled8Range_isBest logits (b := ⟨0, negInf⟩) (i := 0) (le_refl _) (Nat.zero_le n)
  refine ⟨congrArg Best.id (hunrolled.unique hplain), fun hex => ?_, fun hex => ?_, fun ex => ?_⟩
  · have hset : Set.Ico 0 n = Set.Iio n := Set.ext fun i => and_iff_right (Nat.zero_le i)
    obtain ⟨i, hi, hlt⟩ := hex
    rw [← hset]
    exact hunrolled.firstMax ⟨i, ⟨Nat.zero_le i, hi⟩, hlt⟩
  · exact congrArg Best.id (hunrolled.eq_base (fun i _ => Int.natCast_nonneg i)
      fun h => hex (h.imp fun i hi => ⟨hi.1.2, hi.2⟩))
  · rcases Nat.lt_or_ge (firstIndex ex) n with hn | hn
    · obtain ⟨r, hr, hrid⟩ := argmaxF32ExcludingUnrolled8_isBest logits hn
      have hloop := excludingLoop_isBest logits ex (b := cand logits (firstIndex ex)) (e := n)
        (i := firstIndex ex + 1) (Int.ofNat_le.mpr (Nat.le_succ _)) (Int.natCast_nonneg _)
      have hmem := mem_allowed hn
      refine ⟨?_, fun _ => ?_, fun hempty => ?_⟩
      · show argmaxF32ExcludingUnrolled8 logits n ex = (excludingLoop logits ex 0 n ⟨-1, negInf⟩).id
        rw [excludingLoop_first hn, hrid, hr.unique hloop]
      · rw [hrid, ← hmem]
        exact hr.firstMax_cand
      · rw [hempty] at hmem
        exact absurd (hmem ▸ Set.mem_insert ..) (Set.notMem_empty _)
    · have hnone : argmaxF32ExcludingUnrolled8 logits n ex = -1 := if_pos hn
      refine ⟨?_, fun hex => ?_, fun _ => hnone⟩
      · show argmaxF32ExcludingUnrolled8 logits n ex = (excludingLoop logits ex 0 n ⟨-1, negInf⟩).id
        rw [hnone, excludingLoop_none hn]
      · obtain ⟨j, hj, hne⟩ := hex
        rw [firstIndex] at hn
        split_ifs at hn <;> omega

theorem argmax_unrolled_tie :
    FirstMax (fun i => if i = 0 then (1 : ℤ) else 2) (Set.Iio 3)
      (sampleArgmax true (-5) (fun i => if i = 0 then (1 : ℤ) else 2) 3) :=
  (argmax_unrolled (-5) _ 3).2.1 ⟨0, by decide, by decide⟩

end Ds4.Sampling
