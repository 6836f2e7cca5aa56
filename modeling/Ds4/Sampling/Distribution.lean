import Ds4.Sampling.Filters

/-!
# The candidates in descending order

Their weights, what the filters keep of them, and the share of a token in a list that is drawn from.
-/

namespace Ds4.Sampling
open TopK WeightedDraw

section
variable {K : Type} [Field K] [LinearOrder K] [IsStrictOrderedRing K]

/-! ## Weights -/

/-- Larger logits have larger weights, and the largest one has the weight one. -/
structure Weights (raw : K → K) (m : K) : Prop where
  pos : ∀ v, 0 < raw v
  mono : StrictMono raw
  one : raw m = 1

theorem weights_of_exp {expf : K → K} (hpos : ∀ x, 0 < expf x) (hmono : StrictMono expf) (h0 : expf 0 = 1) {temperature : K}
    (ht : 0 < temperature) (m : K) : Weights (fun v => expf ((v - m) / temperature)) m where
  pos v := hpos _
  mono v w h := hmono (div_lt_div_of_pos_right (sub_lt_sub_right h m) ht)
  one := by rw [sub_self, zero_div, h0]

/-- The candidates in descending order: a list `h :: t` with the best entry first. -/
structure Sorted (raw : K → K) (m : K) (es : List (ℕ × K)) (h : Candidate K) (t : List (Candidate K)) : Prop where
  eq : descending raw es = h :: t
  logit : h.logit = m
  one : h.prob = 1
  pos : ∀ c ∈ h :: t, 0 < c.prob
  desc : (h :: t).Pairwise fun a b => b.prob ≤ a.prob
  ids : ((h :: t).map Candidate.id).Nodup

variable {raw : K → K} {m : K} {es : List (ℕ × K)} {h : Candidate K} {t : List (Candidate K)}

omit [IsStrictOrderedRing K] in
theorem Sorted.length_eq (hs : Sorted raw m es h t) : (h :: t).length = es.length := by
  rw [← hs.eq, descending_perm.length_eq, candidates, List.length_map]

omit [IsStrictOrderedRing K] in
theorem sorted_of (hw : Weights raw m) (hs : es.Pairwise fun e f => e.1 < f.1) {best : ℕ} (hbest : (best, m) ∈ es)
    (hall : ∀ e ∈ es, e.2 ≤ m ∧ (e.2 = m → best ≤ e.1)) : ∃ h t, Sorted raw m es h t ∧ h.id = best := by
  have hmem : (⟨best, m, raw m⟩ : Candidate K) ∈ descending raw es :=
    descending_perm.mem_iff.mpr (mem_candidates.mpr ⟨hbest, rfl⟩)
  obtain ⟨h, t, heq⟩ := List.exists_cons_of_ne_nil (List.ne_nil_of_mem hmem)
  have hdesc : Desc Candidate.key (h :: t) := heq ▸ sortDesc_desc _
  have hcand : ∀ c ∈ h :: t, (c.id, c.logit) ∈ es ∧ c.prob = raw c.logit := fun c hc =>
    mem_candidates.mp (descending_perm.mem_iff.mp (heq ▸ hc))
  have hh := hcand h (List.mem_cons_self ..)
  -- the head is not below the best entry
  have hhead : h.id = best ∧ h.logit = m := by
    rw [heq] at hmem
    cases List.mem_cons.mp hmem with
    | inl hb => exact hb ▸ ⟨rfl, rfl⟩
    | inr hb =>
      have hle := (List.pairwise_cons.mp hdesc).1 _ hb
      rw [← not_lt, Candidate.key_lt, not_or, not_and] at hle
      have hm : h.logit = m := le_antisymm (hall _ hh.1).1 (le_of_not_gt hle.1)
      exact ⟨Nat.le_antisymm (Nat.le_of_not_lt (hle.2 hm)) ((hall _ hh.1).2 hm), hm⟩
  refine ⟨h, t, ⟨heq, hhead.2, ?_, fun c hc => ?_, ?_, ?_⟩, hhead.1⟩
  · rw [hh.2, hhead.2, hw.one]
  · rw [(hcand c hc).2]
    exact hw.pos _
  · refine hdesc.imp_of_mem fun ha hb hab => ?_
    rw [(hcand _ ha).2, (hcand _ hb).2]
    refine hw.mono.monotone (le_of_not_gt fun hlt => ?_)
    exact absurd hab (not_le_of_gt (Candidate.key_lt.mpr (.inl hlt)))
  · exact ((heq ▸ descending_perm.map Candidate.id : ((h :: t).map _).Perm _).nodup_iff).mpr (candidates_ids hs raw)

/-! ## Shares -/

/-- The pairs of a list that is drawn from. -/
def pairs (l : List (Candidate K)) : List (ℕ × K) := l.map fun c => (c.id, c.prob)

/-- The part of the mass of the list that the token has. -/
def share (l : List (Candidate K)) (x : ℕ) : K := weight (pairs l) x / probSum l

variable {l l' : List (Candidate K)}

omit [LinearOrder K] [IsStrictOrderedRing K] in
theorem mass_pairs : mass (pairs l) = probSum l := congrArg List.sum List.map_map

omit [Field K] [LinearOrder K] [IsStrictOrderedRing K] in
theorem pairs_ids : (pairs l).map Prod.fst = l.map Candidate.id := List.map_map

omit [LinearOrder K] [IsStrictOrderedRing K] in
theorem share_perm (hp : l.Perm l') (x : ℕ) : share l x = share l' x := by
  have hpairs : (pairs l).Perm (pairs l') := hp.map _
  rw [share, share, probSum_perm hp, weight_perm hpairs]

theorem probSum_pos (hpos : ∀ c ∈ l, 0 < c.prob) (hne : l ≠ []) : 0 < probSum l := by
  rw [← mass_pairs]
  refine mass_pos (fun p hp => ?_) fun hnil => hne (List.map_eq_nil_iff.mp hnil)
  obtain ⟨c, hc, rfl⟩ := List.mem_map.mp hp
  exact hpos c hc

omit [LinearOrder K] [IsStrictOrderedRing K] in
/-- The loop that writes `probs`. -/
theorem foldl_update (hids : (l.map Candidate.id).Nodup) (inv : K) (x : ℕ) :
    l.foldl (fun (probs : ℕ → K) c => Function.update probs c.id (c.prob * inv)) (fun _ => 0) x = weight (pairs l) x * inv := by
  induction l using List.reverseRecOn with
  | nil => exact (zero_mul inv).symm
  | append_singleton l c ih =>
    rw [List.map_append, List.nodup_append] at hids
    have hweight : weight (pairs (l ++ [c])) x = weight (pairs l) x + (if c.id = x then c.prob else 0) := by
      have hpairs : (pairs (l ++ [c])).Perm ((c.id, c.prob) :: pairs l) := (List.perm_append_singleton c l).map _
      rw [weight_perm hpairs, weight_cons, add_comm]
    rw [List.foldl_append, List.foldl_cons, List.foldl_nil, hweight]
    by_cases hx : c.id = x
    · have hnot : x ∉ (pairs l).map Prod.fst := by
        rw [pairs_ids]
        exact fun hmem => hids.2.2 x hmem c.id (List.mem_singleton.mpr rfl) hx.symm
      rw [if_pos hx, weight_of_not_mem hnot, zero_add, ← hx, Function.update_self]
    · rw [if_neg hx, add_zero, Function.update_of_ne (Ne.symm hx), ih hids.1]

/-! ## What is kept -/

theorem cutAtMass_eq_self {bound : K} (hpos : ∀ c ∈ l, 0 < c.prob) (hb : probSum l ≤ bound) : cutAtMass bound l = l := by
  induction l generalizing bound with
  | nil => rfl
  | cons c cs ih =>
    have htail : ∀ d ∈ cs, 0 < d.prob := fun d hd => hpos d (List.mem_cons_of_mem c hd)
    rw [probSum_cons] at hb
    rw [cutAtMass]
    split
    · next hle =>
      have hnil : cs = [] := by
        by_contra hne
        have := probSum_pos htail hne
        linarith
      rw [hnil]
    · rw [ih htail (by linarith)]

omit [Field K] [IsStrictOrderedRing K] in
theorem takeWhile_eq_filter {minP : K} (hdesc : l.Pairwise fun a b => b.prob ≤ a.prob) :
    l.takeWhile (fun c => decide (minP ≤ c.prob)) = l.filter fun c => decide (minP ≤ c.prob) := by
  induction l with
  | nil => rfl
  | cons c cs ih =>
    rw [List.pairwise_cons] at hdesc
    by_cases hc : minP ≤ c.prob
    · rw [List.takeWhile_cons, List.filter_cons, if_pos (decide_eq_true hc), if_pos (decide_eq_true hc), ih hdesc.2]
    · have hnil : cs.filter (fun c => decide (minP ≤ c.prob)) = [] := by
        rw [List.filter_eq_nil_iff]
        intro d hd hle
        exact hc ((of_decide_eq_true hle).trans (hdesc.1 d hd))
      rw [List.takeWhile_cons, List.filter_cons, if_neg (by rwa [decide_eq_true_iff]), if_neg (by rwa [decide_eq_true_iff]), hnil]

omit [IsStrictOrderedRing K] in
/-- Up to one the least weight is a filter. -/
theorem keptByMinP_filter {minP : K} (hs : Sorted raw m es h t) (h1 : minP ≤ 1) :
    keptByMinP minP (h :: t) = (h :: t).filter fun c => decide (minP ≤ c.prob) := by
  have hh : decide (minP ≤ h.prob) = true := decide_eq_true (by rwa [hs.one])
  rw [keptByMinP, List.filter_cons, if_pos hh, hs.one, mul_one, takeWhile_eq_filter (List.pairwise_cons.mp hs.desc).2]

/-- Above one only the first entry is kept. -/
theorem keptByMinP_one {minP : K} (hs : Sorted raw m es h t) (h1 : 1 < minP) : keptByMinP minP (h :: t) = [h] := by
  rw [keptByMinP, hs.one, mul_one]
  cases t with
  | nil => rfl
  | cons c cs =>
    have hc := (List.pairwise_cons.mp hs.desc).1 c (List.mem_cons_self ..)
    rw [hs.one] at hc
    rw [List.takeWhile_cons, if_neg (by rw [decide_eq_true_iff]; linarith)]

/-! ### The beginning of the list -/

section
variable {below : Candidate K → Prop} [DecidablePred below] {baseSum topP minP : K} {cap : ℕ}

theorem filterLoop_sorted (hone : h.prob = 1) (hbase : 0 < baseSum) (hbelow : ∀ c, below c ↔ c.prob < minP) :
    (filterLoop below baseSum topP .start (h :: t)).kept = cutAtMass (topP * baseSum) (keptByMinP minP (h :: t)) :=
  filterLoop_kept hbase fun h' hh' c _ => by
    rw [hbelow, ← Option.mem_some_iff.mp hh', hone, mul_one]

omit [Field K] [LinearOrder K] [IsStrictOrderedRing K] in
theorem take_cons (hcap : 0 < cap) : (h :: t).take cap = h :: t.take (cap - 1) := by
  obtain ⟨k, rfl⟩ := Nat.exists_eq_succ_of_ne_zero hcap.ne'
  rfl

omit [IsStrictOrderedRing K] in
/-- What was decided within the beginning of the list is decided. -/
theorem filterLoop_take (h : l.length ≤ cap ∨ (filterLoop below baseSum topP .start (l.take cap)).Done) :
    filterLoop below baseSum topP .start (l.take cap) = filterLoop below baseSum topP .start l := by
  cases h with
  | inl hlen => rw [List.take_of_length_le hlen]
  | inr hdone =>
    conv_rhs => rw [← List.take_append_drop cap l]
    exact (filterLoop_append ⟨rfl, rfl⟩ hdone).symm

omit [Field K] [LinearOrder K] [IsStrictOrderedRing K] in
/-- A bound on the number of entries that is not reached does not matter. -/
theorem take_clamp {n : ℕ} {topK k : ℤ} (hlen : l.length ≤ n) (hk : k = if n < min topK 1024 then (n : ℤ) else min topK 1024) :
    l.take k.toNat = l.take (min topK 1024).toNat := by
  split at hk
  · rw [List.take_of_length_le (by omega), List.take_of_length_le (by omega)]
  · rw [hk]

end

omit [IsStrictOrderedRing K] in
theorem kept_ne_nil {topK : ℤ} {topP minP : K} : kept topK topP minP (h :: t) ≠ [] := by
  have hcut : ∀ (bound : K) c cs, cutAtMass bound (c :: cs) ≠ [] := fun bound c cs => by
    rw [cutAtMass]
    exact List.cons_ne_nil _ _
  rw [kept]
  by_cases hk : topK ≤ 0
  · rw [if_pos hk, keptByMinP]
    exact hcut _ _ _
  · rw [if_neg hk, take_cons (by omega), keptByMinP]
    exact hcut _ _ _

theorem probSum_take_pos (hs : Sorted raw m es h t) {cap : ℕ} (hcap : 0 < cap) : 0 < probSum ((h :: t).take cap) := by
  refine probSum_pos (fun c hc => hs.pos c (List.mem_of_mem_take hc)) ?_
  rw [take_cons hcap]
  exact List.cons_ne_nil _ _

theorem probSum_kept_pos (hs : Sorted raw m es h t) {topK : ℤ} {topP minP : K} : 0 < probSum (kept topK topP minP (h :: t)) :=
  probSum_pos (fun c hc => hs.pos c (kept_sublist.subset hc)) kept_ne_nil

section
variable {nVocab : ℕ} {logits : ℕ → Option K}

omit [IsStrictOrderedRing K] in
theorem Sorted.length_le (hs : Sorted raw m (finiteEntries logits nVocab) h t) : (h :: t).length ≤ nVocab :=
  hs.length_eq.trans_le ((List.length_filterMap_le _ _).trans_eq List.length_range)

/-- The heap loop when the sorted list is known. -/
structure HeapOf (h : Candidate K) (t : List (Candidate K)) (cap : ℕ) (s : Heap K) : Prop where
  sorted : qsort (elems s.heap s.n) = (h :: t).take cap
  n : s.n = min cap (h :: t).length
  sum : s.sum = probSum (h :: t)
  heapSum : s.heapSum = probSum ((h :: t).take cap)

omit [IsStrictOrderedRing K] in
theorem heapLoop_sorted {cap : ℕ} (hcap : 0 < cap) (hs : Sorted raw m (finiteEntries logits nVocab) h t) :
    HeapOf h t cap (heapLoop raw cap logits nVocab) := by
  have hheap : (heapLoop raw cap logits nVocab).Of raw cap (finiteEntries logits nVocab) := heapLoop_of hcap
  have hq := hheap.qsort finiteEntries_sorted
  rw [hs.eq] at hq
  refine ⟨hq, ?_, ?_, ?_⟩
  · rw [hheap.n_eq, hs.length_eq]
  · rw [hheap.sum, ← hs.eq]
    exact (probSum_perm descending_perm).symm
  · rw [hheap.heapSum, ← hq, qsort_eq]
    exact (probSum_perm (sortDesc_perm _)).symm

end

end

end Ds4.Sampling
