import Ds4.Lib.Draws
import Ds4.Sampling.Paths

/-!
# Judging drafts

A draft is accepted with the probability that the table of the target gives it, and is replaced by a token drawn from the
table without it. Whatever the drafts are, every token that comes out has the probability of the table behind the tokens
in front of it.
-/

namespace Ds4.Sampling
open WeightedDraw

section
variable {K : Type} [Field K] [LinearOrder K]

def speculativePointAccept (targetP draftP : K) : Draws K Bool :=
  if ¬0 < draftP then .ret false
  else if draftP ≤ targetP then .ret true
  else if ¬0 < targetP then .ret false
  else .draw fun u => .ret (decide (u * draftP ≤ targetP))

/-- `sum`, `best` and `best_p`. -/
structure ProbScan (K : Type) where
  sum : K
  best : ℕ
  bestP : K

def scanProbs (probs : ℕ → K) (nVocab : ℕ) : ProbScan K :=
  (List.range nVocab).foldl (fun s i =>
    let p := probs i
    let s := if 0 < p then { s with sum := s.sum + p } else s
    if s.bestP < p then { s with best := i, bestP := p } else s) ⟨0, 0, probs 0⟩

/-- The second loop of `sample_probabilities`. -/
def drawProbs (probs : ℕ → K) : List ℕ → K → ℕ → ℕ
  | [], _, best => best
  | i :: l, r, best =>
    if probs i ≤ 0 then drawProbs probs l r best
    else if r - probs i ≤ 0 then i
    else drawProbs probs l (r - probs i) best

/-- The token, or `none` for -1. -/
def sampleProbabilities (probs : ℕ → K) (nVocab : ℕ) : Draws K (Option ℕ) :=
  if nVocab = 0 then .ret none
  else
    let s := scanProbs probs nVocab
    if s.sum ≤ 0 then .ret (some s.best)
    else .draw fun u => .ret (some (drawProbs probs (List.range nVocab) (u * s.sum) s.best))

def speculativePointReplacement (probs : ℕ → K) (nVocab : ℕ) (draftToken : ℤ) : Draws K (Option ℕ) :=
  if draftToken < 0 ∨ (nVocab : ℤ) ≤ draftToken then .ret none
  else sampleProbabilities (Function.update probs draftToken.toNat 0) nVocab

/-- The probability of a token that is an `int`. -/
def tokenProb (t : ℕ → K) (x : ℤ) : K := if 0 ≤ x then t x.toNat else 0

def replaced : Option ℕ → List ℤ
  | none => []
  | some x => [(x : ℤ)]

/-- The tokens that come out when drafts are judged behind `c`, with a table behind every prefix. -/
def judge (table : List ℤ → ℕ → K) (nVocab : ℕ) (c : List ℤ) : List ℤ → Draws K (List ℤ)
  | [] => .ret []
  | d :: ds =>
    (speculativePointAccept (table c d.toNat) 1).bind fun
      | true => (judge table nVocab (c ++ [d]) ds).bind fun w => .ret (d :: w)
      | false => (speculativePointReplacement (table c) nVocab d).bind fun r => .ret (replaced r)

section
open Draws

theorem replacement_some {nVocab : ℕ} {d : ℤ} (h0 : 0 ≤ d) (hd : d < nVocab) (t : ℕ → K) :
    (speculativePointReplacement t nVocab d).All fun r => r.isSome = true := by
  rw [speculativePointReplacement, if_neg (by omega), sampleProbabilities, if_neg (by omega)]
  dsimp only
  split
  · exact rfl
  · exact fun _ _ _ => rfl

end

/-! ## Tables -/

/-- The probabilities of a vocabulary. -/
structure ProbTable (nVocab : ℕ) (t : ℕ → K) : Prop where
  nonneg : ∀ i, 0 ≤ t i
  zero : ∀ i, nVocab ≤ i → t i = 0
  total : ∑ i ∈ Finset.range nVocab, t i = 1

/-- The entries that can be drawn. -/
def positives (probs : ℕ → K) (l : List ℕ) : List (ℕ × K) := (l.filter fun i => decide (0 < probs i)).map fun i => (i, probs i)

theorem positives_cons (probs : ℕ → K) (i : ℕ) (l : List ℕ) :
    positives probs (i :: l) = if 0 < probs i then (i, probs i) :: positives probs l else positives probs l := by
  rw [positives, List.filter_cons]
  by_cases h : 0 < probs i
  · rw [if_pos h, if_pos (decide_eq_true h)]
    rfl
  · rw [if_neg h, if_neg (by rwa [decide_eq_true_iff])]
    rfl

theorem drawProbs_eq (probs : ℕ → K) (l : List ℕ) (r : K) (best : ℕ) :
    drawProbs probs l r best = draw (positives probs l) r best := by
  induction l generalizing r with
  | nil => rfl
  | cons i l ih =>
    rw [drawProbs, positives_cons]
    by_cases h : probs i ≤ 0
    · rw [if_pos h, if_neg (not_lt_of_ge h), ih]
    · rw [if_neg h, if_pos (lt_of_not_ge h), draw, ih]

theorem positives_pos {probs : ℕ → K} {l : List ℕ} : ∀ p ∈ positives probs l, 0 < p.2 := by
  intro p hp
  obtain ⟨i, hi, rfl⟩ := List.mem_map.mp hp
  exact of_decide_eq_true (List.mem_filter.mp hi).2

theorem positives_nodup {probs : ℕ → K} {l : List ℕ} (h : l.Nodup) : ((positives probs l).map Prod.fst).Nodup := by
  have hfst : (positives probs l).map Prod.fst = l.filter fun i => decide (0 < probs i) := by
    rw [positives, List.map_map]
    exact List.map_id _
  rw [hfst]
  exact h.filter _

theorem mass_positives {probs : ℕ → K} (h : ∀ i, 0 ≤ probs i) (l : List ℕ) : mass (positives probs l) = (l.map probs).sum := by
  induction l with
  | nil => rfl
  | cons i l ih =>
    rw [positives_cons, List.map_cons, List.sum_cons, ← ih]
    split
    · exact mass_cons
    · next hi => rw [le_antisymm (le_of_not_gt hi) (h i), zero_add]

theorem weight_positives {probs : ℕ → K} (h : ∀ i, 0 ≤ probs i) {l : List ℕ} (hl : l.Nodup) (x : ℕ) :
    weight (positives probs l) x = if x ∈ l then probs x else 0 := by
  induction l with
  | nil => rfl
  | cons i l ih =>
    rw [List.nodup_cons] at hl
    have hcons : weight (positives probs (i :: l)) x = (if i = x then probs i else 0) + weight (positives probs l) x := by
      rw [positives_cons]
      split
      · exact weight_cons
      · next hi => rw [le_antisymm (le_of_not_gt hi) (h i), ite_self, zero_add]
    rw [hcons, ih hl.2]
    by_cases hx : i = x
    · subst hx
      rw [if_pos rfl, if_neg hl.1, if_pos (List.mem_cons_self ..), add_zero]
    · rw [if_neg hx, zero_add]
      simp only [List.mem_cons, Ne.symm hx, false_or]

theorem scanProbs_sum {probs : ℕ → K} (h : ∀ i, 0 ≤ probs i) (nVocab : ℕ) :
    (scanProbs probs nVocab).sum = ((List.range nVocab).map probs).sum := by
  rw [scanProbs]
  have hfold : ∀ (l : List ℕ) (s : ProbScan K), (l.foldl (fun s i =>
      let p := probs i
      let s := if 0 < p then { s with sum := s.sum + p } else s
      if s.bestP < p then { s with best := i, bestP := p } else s) s).sum = s.sum + (l.map probs).sum := by
    intro l
    induction l with
    | nil => exact fun s => (add_zero s.sum).symm
    | cons i l ih =>
      intro s
      rw [List.foldl_cons, ih, List.map_cons, List.sum_cons, ← add_assoc]
      congr 1
      by_cases hi : 0 < probs i
      · simp only [if_pos hi]
        split <;> rfl
      · have hzero : probs i = 0 := le_antisymm (le_of_not_gt hi) (h i)
        simp only [if_neg hi]
        split <;> rw [hzero, add_zero]
  rw [hfold]
  exact zero_add _

end

/-! ## What is drawn -/

section
open MeasureTheory Draws
open scoped ENNReal

variable {t : ℕ → ℝ} {nVocab : ℕ}

theorem list_sum_range (t : ℕ → ℝ) (n : ℕ) : ((List.range n).map t).sum = ∑ i ∈ Finset.range n, t i := rfl

theorem ProbTable.add_le (h : ProbTable nVocab t) {d x : ℕ} (hx : x ≠ d) : t x + t d ≤ 1 := by
  by_cases hxn : x < nVocab
  · by_cases hdn : d < nVocab
    · have hsub : ({x, d} : Finset ℕ) ⊆ Finset.range nVocab := by
        intro y hy
        rw [Finset.mem_insert, Finset.mem_singleton] at hy
        rw [Finset.mem_range]
        cases hy with
        | inl hy => exact hy ▸ hxn
        | inr hy => exact hy ▸ hdn
      have hle := Finset.sum_le_sum_of_subset_of_nonneg hsub (f := t) fun i _ _ => h.nonneg i
      rwa [Finset.sum_pair hx, h.total] at hle
    · rw [h.zero d (not_lt.mp hdn), add_zero, ← h.total]
      exact Finset.single_le_sum (fun i _ => h.nonneg i) (Finset.mem_range.mpr hxn)
  · rw [h.zero x (not_lt.mp hxn), zero_add]
    by_cases hdn : d < nVocab
    · rw [← h.total]
      exact Finset.single_le_sum (fun i _ => h.nonneg i) (Finset.mem_range.mpr hdn)
    · rw [h.zero d (not_lt.mp hdn)]
      exact zero_le_one

theorem ProbTable.le_one (h : ProbTable nVocab t) (d : ℕ) : t d ≤ 1 := by
  have hle := h.add_le (Nat.succ_ne_self d)
  have hpos := h.nonneg (d + 1)
  linarith

theorem mean_speculativePointAccept {p : ℝ} (h0 : 0 ≤ p) (h1 : p ≤ 1) (f : Bool → ℝ≥0∞) :
    (speculativePointAccept p 1).mean f = ENNReal.ofReal p * f true + ENNReal.ofReal (1 - p) * f false := by
  rw [speculativePointAccept, if_neg (not_not.mpr one_pos)]
  by_cases hone : 1 ≤ p
  · have hp : p = 1 := le_antisymm h1 hone
    rw [if_pos hone, hp, sub_self, ENNReal.ofReal_one, ENNReal.ofReal_zero, zero_mul, add_zero, one_mul]
    rfl
  · rw [if_neg hone]
    by_cases hpos : 0 < p
    · rw [if_neg (not_not.mpr hpos), ← mean_test h0 h1]
      simp only [mul_one]
      rfl
    · have hp : p = 0 := le_antisymm (le_of_not_gt hpos) h0
      rw [if_pos hpos, hp, sub_zero, ENNReal.ofReal_one, ENNReal.ofReal_zero, zero_mul, zero_add, one_mul]
      rfl

theorem mass_without (h : ProbTable nVocab t) {d : ℕ} (hd : d < nVocab) :
    ((List.range nVocab).map (Function.update t d 0)).sum = 1 - t d := by
  have hsum := Finset.sum_update_of_mem (Finset.mem_range.mpr hd) t 0
  have hsplit := Finset.sum_sdiff (f := t) (Finset.singleton_subset_iff.mpr (Finset.mem_range.mpr hd))
  rw [Finset.sum_singleton, h.total] at hsplit
  rw [list_sum_range, hsum]
  linarith

/-- A replacement is drawn from the table without the draft. -/
theorem mean_speculativePointReplacement (h : ProbTable nVocab t) {d : ℤ} (h0 : 0 ≤ d) (hd : d < nVocab)
    (hlt : t d.toNat < 1) (f : Option ℕ → ℝ≥0∞) :
    (speculativePointReplacement t nVocab d).mean f =
      (tsum fun x => f (some x) * ENNReal.ofReal (if x = d.toNat then 0 else t x / (1 - t d.toNat))) := by
  have hdn : d.toNat < nVocab := by omega
  have hnonneg : ∀ i, 0 ≤ Function.update t d.toNat 0 i := fun i => by
    by_cases hi : i = d.toNat
    · rw [hi, Function.update_self]
    · rw [Function.update_of_ne hi]
      exact h.nonneg i
  have hmass := mass_positives hnonneg (List.range nVocab)
  rw [mass_without h hdn] at hmass
  have hsum := scanProbs_sum hnonneg nVocab
  rw [mass_without h hdn] at hsum
  have hpos : 0 < 1 - t d.toNat := sub_pos.mpr hlt
  have hne : positives (Function.update t d.toNat 0) (List.range nVocab) ≠ [] := fun hnil => by
    rw [hnil] at hmass
    exact hpos.ne hmass
  rw [speculativePointReplacement, if_neg (by omega), sampleProbabilities, if_neg (by omega)]
  dsimp only
  rw [if_neg (by rw [hsum]; exact not_le_of_gt hpos)]
  have hmean := mean_weights positives_pos hne (positives_nodup List.nodup_range)
    (scanProbs (Function.update t d.toNat 0) nVocab).best fun x => f (some x)
  rw [hmass] at hmean
  simp only [mean, drawProbs_eq, hsum]
  rw [hmean]
  refine tsum_congr fun x => ?_
  rw [weight_positives hnonneg List.nodup_range]
  by_cases hx : x = d.toNat
  · rw [if_pos hx, hx, Function.update_self, ite_self, zero_div]
  · rw [if_neg hx, Function.update_of_ne hx]
    by_cases hxn : x ∈ List.range nVocab
    · rw [if_pos hxn]
    · rw [if_neg hxn, h.zero x (by rwa [List.mem_range, not_lt] at hxn)]

/-! ## The tables of the sampler -/

section
variable {l : List (Candidate ℝ)}

theorem oneHot_table {id : ℕ} (hid : id < nVocab) : ProbTable nVocab (oneHot id : ℕ → ℝ) where
  nonneg i := by
    by_cases hi : i = id
    · rw [oneHot, hi, Function.update_self]
      exact zero_le_one
    · rw [oneHot, Function.update_of_ne hi]
  zero i hi := Function.update_of_ne (by omega) _ _
  total := by
    rw [Finset.sum_eq_single_of_mem id (Finset.mem_range.mpr hid) fun i _ hi => Function.update_of_ne hi _ _]
    exact Function.update_self ..

theorem sum_weight {ps : List (ℕ × ℝ)} (hps : ∀ p ∈ ps, p.1 < nVocab) : ∑ x ∈ Finset.range nVocab, weight ps x = mass ps := by
  induction ps with
  | nil => exact Finset.sum_eq_zero fun x _ => rfl
  | cons p ps ih =>
    obtain ⟨i, v⟩ := p
    have hi : i ∈ Finset.range nVocab := Finset.mem_range.mpr (hps (i, v) (List.mem_cons_self ..))
    simp only [weight_cons, Finset.sum_add_distrib]
    rw [Finset.sum_ite_eq, if_pos hi, ih fun p hp => hps p (List.mem_cons_of_mem _ hp), mass_cons]

theorem share_table (hpos : ∀ c ∈ l, 0 < c.prob) (hne : l ≠ []) (hids : ∀ c ∈ l, c.id < nVocab) :
    ProbTable nVocab (share l) where
  nonneg x := by
    refine div_nonneg (List.sum_nonneg fun v hv => ?_) (probSum_pos hpos hne).le
    obtain ⟨p, hp, rfl⟩ := List.mem_map.mp hv
    obtain ⟨c, hc, rfl⟩ := List.mem_map.mp hp
    split
    · exact (hpos c hc).le
    · exact le_rfl
  zero x hx := by
    rw [share, weight_of_not_mem, zero_div]
    rw [pairs_ids]
    intro hmem
    obtain ⟨c, hc, rfl⟩ := List.mem_map.mp hmem
    exact absurd (hids c hc) (not_lt_of_ge hx)
  total := by
    have hps : ∀ p ∈ pairs l, p.1 < nVocab := fun p hp => by
      obtain ⟨c, hc, rfl⟩ := List.mem_map.mp hp
      exact hids c hc
    simp only [share]
    rw [← Finset.sum_div, sum_weight hps, mass_pairs, div_self (probSum_pos hpos hne).ne']

/-- The sampler always builds a table of probabilities. -/
theorem sampleBuildProbabilities_table {expf : ℝ → ℝ} (hpos : ∀ x, 0 < expf x) (hmono : StrictMono expf) (h0 : expf 0 = 1)
    {argmax : ℕ} (hargmax : argmax < nVocab) (logits : ℕ → Option ℝ) (temperature : ℝ) (topK : ℤ) (topP minP : ℝ) :
    ∃ t, sampleBuildProbabilities expf argmax logits nVocab temperature topK topP minP = some t ∧ ProbTable nVocab t := by
  have hvocab : nVocab ≠ 0 := Nat.ne_zero_of_lt hargmax
  by_cases ht : temperature ≤ 0
  · exact ⟨oneHot argmax, by rw [sampleBuildProbabilities, if_neg hvocab, if_pos ht], oneHot_table hargmax⟩
  have hscan : Scan.Of (finiteEntries logits nVocab) (scanLogits logits nVocab) := scanLogits_of
  cases hmax : (scanLogits logits nVocab).maxLogit with
  | none =>
    refine ⟨oneHot argmax, ?_, oneHot_table hargmax⟩
    rw [sampleBuildProbabilities, if_neg hvocab, if_neg ht]
    dsimp only
    rw [hmax]
  | some m =>
    obtain ⟨hbest, hall⟩ := hscan.best m hmax
    have hw := weights_of_exp hpos hmono h0 (not_le.mp ht) m
    obtain ⟨h, t, hs, -⟩ := sorted_of hw finiteEntries_sorted hbest hall
    obtain ⟨probs, hprobs, hshare⟩ := sampleBuildProbabilities_eq argmax topK topP minP (not_le.mp ht) hmax rfl hs
    refine ⟨probs, hprobs, funext hshare ▸ ?_⟩
    refine share_table (fun c hc => hs.pos c (kept_sublist.subset hc)) kept_ne_nil fun c hc => ?_
    have hmem := hs.eq ▸ kept_sublist.subset hc
    have hentry := (mem_candidates.mp (descending_perm.mem_iff.mp hmem)).1
    exact (mem_finiteEntries.mp hentry).1

end

/-! ## Whole drafts -/

section
variable {table : List ℤ → ℕ → ℝ} {c : List ℤ}

theorem prob_judge_cons (ht : ProbTable nVocab (table c)) (d : ℤ) (ds : List ℤ) (s : Set (List ℤ)) :
    (judge table nVocab c (d :: ds)).prob s =
      ENNReal.ofReal (table c d.toNat) * (judge table nVocab (c ++ [d]) ds).prob {o | d :: o ∈ s} +
        ENNReal.ofReal (1 - table c d.toNat) * (speculativePointReplacement (table c) nVocab d).prob {r | replaced r ∈ s} := by
  rw [prob, judge, mean_bind, mean_speculativePointAccept (ht.nonneg _) (ht.le_one _), mean_map, mean_map]
  rfl

/-- The outputs that go on behind `w`, and those that go on with `x`. -/
def goesOn (w : List ℤ) : Set (List ℤ) := {o | w <+: o ∧ w ≠ o}

def goesOnWith (w : List ℤ) (x : ℤ) : Set (List ℤ) := {o | w ++ [x] <+: o}

/-- The replacement is the token `x`. -/
theorem prob_replaced (ht : ProbTable nVocab (table c)) {d : ℤ} (h0 : 0 ≤ d) (hd : d < nVocab) {x : ℤ} (hx : x ≠ d) :
    ENNReal.ofReal (1 - table c d.toNat) * (speculativePointReplacement (table c) nVocab d).prob {r | replaced r = [x]} =
      ENNReal.ofReal (tokenProb (table c) x) := by
  by_cases hlt : table c d.toNat < 1
  · have hpos : 0 < 1 - table c d.toNat := sub_pos.mpr hlt
    have hsingle : ∀ y : ℕ, some y ∈ {r | replaced r = [x]} ↔ (y : ℤ) = x := fun y => List.singleton_inj
    rw [prob, mean_speculativePointReplacement ht h0 hd hlt, tokenProb]
    by_cases hx0 : 0 ≤ x
    · obtain ⟨k, rfl⟩ := Int.eq_ofNat_of_zero_le hx0
      have hk : k ≠ d.toNat := by omega
      rw [if_pos hx0, tsum_eq_single k fun y hy => by
        rw [Set.indicator_of_notMem (mt (hsingle y).mp (Int.ofNat_inj.not.mpr hy)), zero_mul]]
      rw [Set.indicator_of_mem ((hsingle k).mpr rfl), if_neg hk, Pi.one_apply, one_mul, ← ENNReal.ofReal_mul hpos.le,
        mul_div_cancel₀ _ hpos.ne', Int.toNat_natCast]
    · rw [if_neg hx0, ENNReal.ofReal_zero]
      refine mul_eq_zero_of_right _ (ENNReal.tsum_eq_zero.mpr fun y => ?_)
      rw [Set.indicator_of_notMem (mt (hsingle y).mp (by omega)), zero_mul]
  · -- the draft has the whole mass
    have hone : table c d.toNat = 1 := le_antisymm (ht.le_one _) (le_of_not_gt hlt)
    have hzero : tokenProb (table c) x = 0 := by
      rw [tokenProb]
      split
      · next hx0 =>
        have hle := ht.add_le (x := x.toNat) (d := d.toNat) (by omega)
        have hnonneg := ht.nonneg x.toNat
        linarith
      · rfl
    rw [hone, sub_self, ENNReal.ofReal_zero, zero_mul, hzero, ENNReal.ofReal_zero]

/-- The draft does not come back. -/
theorem prob_replaced_self (ht : ProbTable nVocab (table c)) {d : ℤ} (h0 : 0 ≤ d) (hd : d < nVocab) :
    ENNReal.ofReal (1 - table c d.toNat) *
      (speculativePointReplacement (table c) nVocab d).prob {r | replaced r ∈ goesOnWith [] d} = 0 := by
  by_cases hlt : table c d.toNat < 1
  · refine mul_eq_zero_of_right _ ?_
    rw [prob, mean_speculativePointReplacement ht h0 hd hlt]
    refine ENNReal.tsum_eq_zero.mpr fun y => ?_
    by_cases hy : y = d.toNat
    · rw [if_pos hy, ENNReal.ofReal_zero, mul_zero]
    · refine mul_eq_zero_of_left (Set.indicator_of_notMem (fun h => hy ?_) _) _
      have heq : (y : ℤ) = d := (List.cons_prefix_cons.mp h).1.symm
      omega
  · rw [le_antisymm (ht.le_one _) (le_of_not_gt hlt), sub_self, ENNReal.ofReal_zero, zero_mul]

theorem judge_ne_nil {ds : List ℤ} (hds : ds ≠ []) (hvalid : ∀ d ∈ ds, 0 ≤ d ∧ d < nVocab) :
    (judge table nVocab c ds).All (· ≠ []) := by
  cases ds with
  | nil => exact absurd rfl hds
  | cons d ds =>
    obtain ⟨h0, hd⟩ := hvalid d (List.mem_cons_self ..)
    refine (all_true _).bind fun b _ => ?_
    cases b with
    | true => exact (all_true _).bind fun w _ => List.cons_ne_nil d w
    | false =>
      refine (replacement_some h0 hd _).bind fun r hr => ?_
      obtain ⟨x, rfl⟩ := Option.isSome_iff_exists.mp hr
      exact List.cons_ne_nil _ _

theorem eq_replaced {y : ℤ} {w : List ℤ} {r : Option ℕ} (h : y :: w <+: replaced r) : y :: w = replaced r := by
  refine h.eq_of_length (Nat.le_antisymm h.length_le ?_)
  cases r with
  | none => exact Nat.zero_le _
  | some x => exact Nat.succ_le_succ (Nat.zero_le _)

/-- Every token that comes out has the probability of the table behind the tokens in front of it. -/
theorem prob_judge {ds : List ℤ} (ht : ∀ c, ProbTable nVocab (table c)) (hvalid : ∀ d ∈ ds, 0 ≤ d ∧ d < nVocab)
    (w : List ℤ) (x : ℤ) :
    (judge table nVocab c ds).prob (goesOnWith w x) =
      (judge table nVocab c ds).prob (goesOn w) * ENNReal.ofReal (tokenProb (table (c ++ w)) x) := by
  induction ds generalizing c w with
  | nil =>
    have hwith : [] ∉ goesOnWith w x := fun h =>
      List.append_ne_nil_of_right_ne_nil w (List.cons_ne_nil x []) (List.prefix_nil.mp h)
    have hon : [] ∉ goesOn w := fun h => h.2 (List.prefix_nil.mp h.1)
    rw [prob_of_none (p := judge table nVocab c []) hwith, prob_of_none (p := judge table nVocab c []) hon, zero_mul]
  | cons d ds ih =>
    obtain ⟨h0, hd⟩ := hvalid d (List.mem_cons_self ..)
    have htail : ∀ e ∈ ds, 0 ≤ e ∧ e < nVocab := fun e he => hvalid e (List.mem_cons_of_mem d he)
    cases w with
    | nil =>
      have hon : (judge table nVocab c (d :: ds)).prob (goesOn []) = 1 :=
        prob_of_all ((judge_ne_nil (List.cons_ne_nil d ds) hvalid).mono fun o ho => ⟨List.nil_prefix, Ne.symm ho⟩)
      rw [hon, one_mul, List.append_nil, prob_judge_cons (ht c)]
      by_cases hx : x = d
      · subst hx
        have haccept : {o | x :: o ∈ goesOnWith [] x} = Set.univ :=
          Set.eq_univ_of_forall fun o => List.prefix_append [x] o
        rw [haccept, prob_univ, mul_one, prob_replaced_self (ht c) h0 hd, add_zero, tokenProb, if_pos h0]
      · have haccept : {o | d :: o ∈ goesOnWith [] x} = ∅ :=
          Set.eq_empty_of_forall_notMem fun o ho => hx (List.cons_prefix_cons.mp ho).1
        have hreplaced : {r | replaced r ∈ goesOnWith [] x} = {r | replaced r = [x]} :=
          Set.ext fun r => ⟨fun h => (eq_replaced h).symm, fun h => ⟨[], Eq.symm h⟩⟩
        rw [haccept, prob_empty, mul_zero, zero_add, hreplaced, prob_replaced (ht c) h0 hd hx]
    | cons y w =>
      -- a replacement ends the output
      have hwith : {r | replaced r ∈ goesOnWith (y :: w) x} = ∅ :=
        Set.eq_empty_of_forall_notMem fun r hr => by
          have hlong := congrArg List.length (eq_replaced ((List.prefix_append (y :: w) [x]).trans hr))
          have hlen := hr.length_le
          rw [← hlong, List.length_append] at hlen
          exact absurd hlen (by simp)
      have hon : {r | replaced r ∈ goesOn (y :: w)} = ∅ :=
        Set.eq_empty_of_forall_notMem fun r hr => hr.2 (eq_replaced hr.1)
      rw [prob_judge_cons (ht c), prob_judge_cons (ht c), hwith, hon, prob_empty, mul_zero, add_zero, add_zero]
      by_cases hy : y = d
      · subst hy
        have hwith : {o | y :: o ∈ goesOnWith (y :: w) x} = goesOnWith w x :=
          Set.ext fun o => List.prefix_cons_inj y
        have hon : {o | y :: o ∈ goesOn (y :: w)} = goesOn w := Set.ext fun o =>
          and_congr (List.prefix_cons_inj y) (not_congr ⟨fun h => (List.cons.inj h).2, fun h => h ▸ rfl⟩)
        rw [hwith, hon, ih htail, List.append_assoc, mul_assoc]
        rfl
      · have hwith : {o | d :: o ∈ goesOnWith (y :: w) x} = ∅ :=
          Set.eq_empty_of_forall_notMem fun o ho => hy (List.cons_prefix_cons.mp ho).1
        have hon : {o | d :: o ∈ goesOn (y :: w)} = ∅ :=
          Set.eq_empty_of_forall_notMem fun o ho => hy (List.cons_prefix_cons.mp ho.1).1
        rw [hwith, hon, prob_empty, mul_zero, zero_mul]

end

end

end Ds4.Sampling
