import Mathlib.Analysis.SpecialFunctions.Log.Basic
import Mathlib.Data.List.TakeWhile
import Ds4.Sampling.Distribution

/-!
# One distribution on all paths

Every path of the sampler draws from the list that the filters keep of the candidates in descending order, and
`sample_build_probabilities` gives every token its share of this list.
-/

namespace Ds4.Sampling
open TopK WeightedDraw MeasureTheory

section
variable {K : Type} [Field K] [LinearOrder K] [IsStrictOrderedRing K] {raw : K → K} {m : K} {es : List (ℕ × K)}
  {h : Candidate K} {t l l' : List (Candidate K)} {expf : K → K} {nVocab : ℕ} {logits : ℕ → Option K}
  {temperature topP minP : K} {topK : ℤ}

/-! ## The table of probabilities -/

/-- The last step of `sample_build_probabilities`. -/
theorem normalize_eq (hs : Sorted raw m es h t) {f : Filtered K} (hf : f.kept = kept topK topP minP (h :: t))
    (hsum : f.sum = probSum f.kept) (id : ℕ) :
    ∃ probs, (if f.kept = [] ∨ f.sum ≤ 0 then some (oneHot id)
        else some (f.kept.foldl (fun probs c => Function.update probs c.id (c.prob * (1 / f.sum))) fun _ => 0)) = some probs ∧
      ∀ x, probs x = share (kept topK topP minP (h :: t)) x := by
  have hids : (f.kept.map Candidate.id).Nodup := by
    rw [hf]
    exact hs.ids.sublist (kept_sublist.map _)
  have hpos : 0 < f.sum := by
    rw [hsum, hf]
    exact probSum_kept_pos hs
  have hne : ¬(f.kept = [] ∨ f.sum ≤ 0) := by
    rw [hf, not_or, not_le]
    exact ⟨kept_ne_nil, hpos⟩
  rw [if_neg hne]
  refine ⟨_, rfl, fun x => ?_⟩
  rw [foldl_update hids, share, ← hf, hsum, mul_one_div]

section
variable (argmax : ℕ) (topK : ℤ) (topP minP : K)

/-- Every token has its share of what is kept. -/
theorem sampleBuildProbabilities_eq (ht : 0 < temperature) (hmax : (scanLogits logits nVocab).maxLogit = some m)
    (hraw : raw = fun v => expf ((v - m) / temperature)) (hs : Sorted raw m (finiteEntries logits nVocab) h t) :
    ∃ probs, sampleBuildProbabilities expf argmax logits nVocab temperature topK topP minP = some probs ∧
      ∀ x, probs x = share (kept topK topP minP (h :: t)) x := by
  have hlen := hs.length_le
  have hvocab : nVocab ≠ 0 := Nat.ne_zero_of_lt ((Nat.succ_pos _).trans_le hlen)
  have hsumPos := probSum_pos hs.pos (List.cons_ne_nil h t)
  rw [sampleBuildProbabilities, if_neg hvocab, if_neg (not_le_of_gt ht)]
  dsimp only
  rw [hmax]
  dsimp only
  rw [← hraw]
  generalize hk : (if (nVocab : ℤ) < if (if 1024 < topK then 1024 else topK) < 0 then 0 else if 1024 < topK then 1024 else topK
    then (nVocab : ℤ) else if (if 1024 < topK then 1024 else topK) < 0 then 0 else if 1024 < topK then 1024 else topK) = k
  have hk0 : 0 < k ↔ 0 < topK := by split_ifs at hk <;> omega
  have hcap : 0 < if 0 < k then k.toNat else 512 := by split <;> omega
  generalize hcapk : (if 0 < k then k.toNat else 512) = cap at hcap ⊢
  obtain ⟨hq, hn, hsum, hheapSum⟩ := heapLoop_sorted hcap hs
  generalize heapLoop raw cap logits nVocab = s at hq hn hsum hheapSum ⊢
  have hfull : qsort (collect raw logits nVocab).1 = h :: t := by
    rw [collect_eq, qsort_eq]
    exact hs.eq
  have hne : ¬(s.sum ≤ 0 ∨ s.n = 0) := by
    rw [hsum, not_or, not_le]
    have hpos : 0 < (h :: t).length := Nat.succ_pos _
    exact ⟨hsumPos, by omega⟩
  have hhead : ((h :: t).take cap).head!.prob = 1 := by rw [take_cons hcap, List.head!_cons, hs.one]
  rw [if_neg hne, hq, hfull, hhead, List.head!_cons, hs.one, one_mul]
  generalize hf : filterLoop (fun c => c.prob < clampMinP minP) (if 0 < k then s.heapSum else s.sum) (clampTopP topP) .start
    ((h :: t).take cap) = f
  generalize hg : filterLoop (fun c => c.prob < clampMinP minP) s.sum (clampTopP topP) .start (h :: t) = g
  have hfsum : f.sum = probSum f.kept := hf ▸ filterLoop_sum rfl
  have hgsum : g.sum = probSum g.kept := hg ▸ filterLoop_sum rfl
  generalize hr : (if 0 < k ∨ s.n = (scanLogits logits nVocab).finite ∨ f.reachedTopP = true ∨
      f.stoppedByMinP = true ∧ ((h :: t).take cap).getLast!.prob < clampMinP minP
    then ((h :: t).take cap, f) else (h :: t, g)) = r
  have hfinal : r.2.kept = kept topK topP minP (h :: t) ∧ r.2.sum = probSum r.2.kept := by
    by_cases hpos : 0 < k
    · have htake : (h :: t).take cap = (h :: t).take (min topK 1024).toNat := by
        rw [← hcapk, if_pos hpos]
        exact take_clamp hlen (by split_ifs at hk <;> split <;> omega)
      have hprefixPos := probSum_take_pos hs hcap
      rw [if_pos (.inl hpos)] at hr
      rw [← hr]
      refine ⟨?_, hfsum⟩
      rw [← hf, if_pos hpos, hheapSum, kept, if_neg (not_le_of_gt (hk0.mp hpos)), ← htake]
      rw [take_cons hcap] at hprefixPos ⊢
      exact filterLoop_sorted hs.one hprefixPos fun c => Iff.rfl
    · have hgkept : g.kept = kept topK topP minP (h :: t) := by
        rw [← hg, kept, if_pos (by omega), hsum]
        exact filterLoop_sorted hs.one hsumPos fun c => Iff.rfl
      rw [if_neg hpos] at hf
      split at hr
      · next hfast =>
        -- the loop over the heap has seen enough
        have hdone : (h :: t).length ≤ cap ∨ f.Done := by
          rcases hfast with hk' | hn' | hreached | hstopped
          · exact absurd hk' hpos
          · rw [scanLogits_of.finite, ← hs.length_eq] at hn'
            exact .inl (by omega)
          · exact .inr ⟨.inr hreached⟩
          · exact .inr ⟨.inl hstopped.1⟩
        rw [← hf] at hdone
        have hfg : f = g := by rw [← hf, ← hg, filterLoop_take hdone]
        rw [← hr]
        exact ⟨hfg ▸ hgkept, hfsum⟩
      · rw [← hr]
        exact ⟨hgkept, hgsum⟩
  exact normalize_eq hs hfinal.1 hfinal.2 _

end

/-! ## The paths of the sampler -/

theorem minRel_eq (hmin : 0 ≤ minP) : (if 0 < minP then minP else 0) = minP := by
  split
  · rfl
  · exact le_antisymm hmin (by linarith)

theorem relative_lt {sum : K} (hsum : 0 < sum) (hone : h.prob = 1) (c : Candidate K) :
    c.prob / sum < h.prob / sum * minP ↔ c.prob < minP := by
  rw [hone, one_div_mul_eq_div, div_lt_div_iff_of_pos_right hsum]

/-- What is kept of all candidates. -/
theorem sampleFastTopP_eq (hraw : raw = fun v => expf ((v - m) / temperature))
    (hs : Sorted raw m (finiteEntries logits nVocab) h t) (htop : 0 < topP) (hmin : 0 ≤ minP) (best : ℕ) :
    (∀ u, sampleFastTopP expf logits nVocab temperature topP minP (finiteEntries logits nVocab).length m best u = none) ∨
      ∃ last, ∀ u, sampleFastTopP expf logits nVocab temperature topP minP (finiteEntries logits nVocab).length m best u =
        some (drawLoop (cutAtMass (topP * probSum (h :: t)) (keptByMinP minP (h :: t)))
          (u * probSum (cutAtMass (topP * probSum (h :: t)) (keptByMinP minP (h :: t)))) last) := by
  have hlen := hs.length_eq
  have hfinite : (finiteEntries logits nVocab).length ≠ 0 := by
    rw [List.length_cons] at hlen
    omega
  have hsumPos := probSum_pos hs.pos (List.cons_ne_nil h t)
  by_cases hcut : 512 < (finiteEntries logits nVocab).length ∧ 999 / 1000 ≤ topP
  · refine .inl fun u => ?_
    rw [sampleFastTopP, if_neg hfinite, if_pos hcut]
  have hcap : 0 < if (finiteEntries logits nVocab).length < 512 then (finiteEntries logits nVocab).length else 512 := by
    split <;> omega
  generalize hcapk : (if (finiteEntries logits nVocab).length < 512 then (finiteEntries logits nVocab).length else 512) = cap at hcap
  obtain ⟨hq, hn, hsum, hheapSum⟩ := heapLoop_sorted hcap hs
  generalize hloop : heapLoop raw cap logits nVocab = s at hq hn hsum hheapSum
  by_cases hmass : s.n < (finiteEntries logits nVocab).length ∧ s.heapSum < topP * s.sum
  · refine .inl fun u => ?_
    rw [sampleFastTopP, if_neg hfinite, if_neg hcut]
    dsimp only
    rw [hcapk, ← hraw, hloop, if_neg (not_le_of_gt (hsum ▸ hsumPos)), if_pos hmass]
  have hbelow : ∀ c : Candidate K, c.prob / s.sum < h.prob / s.sum * minP ↔ c.prob < minP :=
    relative_lt (hsum ▸ hsumPos) hs.one
  have hhead : ((h :: t).take cap).head! = h := by rw [take_cons hcap, List.head!_cons]
  generalize hf : filterLoop (fun c => c.prob / s.sum < h.prob / s.sum * minP) s.sum topP .start ((h :: t).take cap) = f
  have hwhole : f = filterLoop (fun c => c.prob / s.sum < h.prob / s.sum * minP) s.sum topP .start (h :: t) := by
    by_cases hall : s.n < (finiteEntries logits nVocab).length
    · -- the mass of the heap reaches the bound, so the loop ends in it
      have hdone : f.Done := by
        by_contra hrun
        rw [← hf] at hrun
        have hbound := filterLoop_running (hsum ▸ hsumPos) (mul_pos htop (hsum ▸ hsumPos)) hrun
        rw [← hheapSum] at hbound
        exact hmass ⟨hall, (zero_add s.heapSum).symm.trans_lt hbound⟩
      rw [← hf] at hdone ⊢
      exact filterLoop_take (.inr hdone)
    · rw [← hf, filterLoop_take (.inl (by omega))]
  have hkept : f.kept = cutAtMass (topP * probSum (h :: t)) (keptByMinP minP (h :: t)) := by
    rw [hwhole, ← hsum]
    exact filterLoop_sorted hs.one (hsum ▸ hsumPos) hbelow
  have hfsum : f.sum = probSum f.kept := hf ▸ filterLoop_sum rfl
  have hne : f.kept ≠ [] := by
    rw [hkept, keptByMinP, cutAtMass]
    exact List.cons_ne_nil _ _
  have hpath : ∀ u, sampleFastTopP expf logits nVocab temperature topP minP (finiteEntries logits nVocab).length m best u =
      if s.n < (finiteEntries logits nVocab).length ∧ f.stoppedByMinP = true ∧ 0 < minP ∧
        h.prob * minP ≤ ((h :: t).take cap).getLast!.prob then none
      else some (drawLoop f.kept (u * f.sum) f.kept.getLast!.id) := fun u => by
    rw [sampleFastTopP, if_neg hfinite, if_neg hcut]
    dsimp only
    rw [hcapk, ← hraw, hloop, if_neg (not_le_of_gt (hsum ▸ hsumPos)), if_neg hmass, hq, hhead, minRel_eq hmin, hf,
      if_neg hne]
  by_cases htest : s.n < (finiteEntries logits nVocab).length ∧ f.stoppedByMinP = true ∧ 0 < minP ∧
      h.prob * minP ≤ ((h :: t).take cap).getLast!.prob
  · exact .inl fun u => by rw [hpath, if_pos htest]
  · exact .inr ⟨f.kept.getLast!.id, fun u => by rw [hpath, if_neg htest, hfsum, hkept]⟩

omit [Field K] [IsStrictOrderedRing K] in
/-- Numbers up to the boundary have weights below `minRel`. -/
theorem rejectScaled_lt {nextafter : K → K} {minRel cutoff r : K} {n : ℕ}
    (hr : rejectScaled expf nextafter minRel n cutoff = some r) : expf r < minRel := by
  induction n generalizing cutoff with
  | zero => exact absurd hr (Option.some_ne_none r).symm
  | succ n ih =>
    rw [rejectScaled] at hr
    split at hr
    · next hlt => exact Option.some.inj hr ▸ hlt
    · exact ih hr

theorem probSum_sublist (hl : l.Sublist l') (hpos : ∀ c ∈ l', 0 < c.prob) : probSum l ≤ probSum l' :=
  (hl.map _).sum_le_sum fun w hw => by
    obtain ⟨c, hc, rfl⟩ := List.mem_map.mp hw
    exact (hpos c hc).le

omit [IsStrictOrderedRing K] in
/-- A loop that keeps the entries with weights from `minRel` on and sums these up. -/
theorem eachFinite_filter (raw : K → K) (minRel : K) :
    eachFinite logits nVocab
      (fun s i v => if raw v < minRel then s else (s.1 ++ [(⟨i, v, raw v⟩ : Candidate K)], s.2 + raw v)) ([], 0) =
      ((candidates raw (finiteEntries logits nVocab)).filter fun c => decide (minRel ≤ c.prob),
        probSum ((candidates raw (finiteEntries logits nVocab)).filter fun c => decide (minRel ≤ c.prob))) := by
  rw [eachFinite_eq]
  generalize finiteEntries logits nVocab = es
  induction es using List.reverseRecOn with
  | nil => rfl
  | append_singleton es e ih =>
    rw [List.foldl_append, ih, candidates_append, List.filter_append, probSum_append, List.foldl_cons, List.foldl_nil]
    have hsingle : candidates raw [e] = [⟨e.1, e.2, raw e.2⟩] := rfl
    rw [hsingle]
    by_cases hlt : raw e.2 < minRel
    · have hnil : [(⟨e.1, e.2, raw e.2⟩ : Candidate K)].filter (fun c => decide (minRel ≤ c.prob)) = [] := by
        rw [List.filter_singleton, decide_eq_false (not_le_of_gt hlt)]
        rfl
      rw [if_pos hlt, hnil, List.append_nil]
      exact congrArg (Prod.mk _) (add_zero _).symm
    · have hone : [(⟨e.1, e.2, raw e.2⟩ : Candidate K)].filter (fun c => decide (minRel ≤ c.prob)) =
          [⟨e.1, e.2, raw e.2⟩] := by
        rw [List.filter_singleton, decide_eq_true (le_of_not_gt hlt)]
        rfl
      rw [if_neg hlt, hone]
      exact congrArg (Prod.mk _) (congrArg (_ + ·) (add_zero (raw e.2)).symm)

omit [IsStrictOrderedRing K] in
theorem keptByMinP_idem : keptByMinP minP (keptByMinP minP l) = keptByMinP minP l := by
  cases l with
  | nil => rfl
  | cons c cs => exact congrArg (c :: ·) List.takeWhile_idem

/-- The candidates that survive the least weight, in descending order. -/
theorem prefilter_kept (hids : es.Pairwise fun e f => e.1 < f.1) (hs : Sorted raw m es h t) {sum : K} (hsum : 0 < sum)
    {cand : List (Candidate K)}
    (hcand : cand = if 0 < minP ∧ minP ≤ 1 then (candidates raw es).filter fun c => decide ¬c.prob / sum < 1 / sum * minP
      else candidates raw es) :
    ∃ t', qsort cand = h :: t' ∧ keptByMinP minP (h :: t') = keptByMinP minP (h :: t) := by
  by_cases hrange : 0 < minP ∧ minP ≤ 1
  · rw [if_pos hrange] at hcand
    have hfilter : cand = (candidates raw es).filter fun c => decide (minP ≤ c.prob) := by
      rw [hcand]
      refine List.filter_congr fun c _ => ?_
      rw [decide_eq_decide, one_div_mul_eq_div, div_lt_div_iff_of_pos_right hsum, not_lt]
    have hperm : ((h :: t).filter fun c => decide (minP ≤ c.prob)).Perm cand := by
      rw [hfilter, ← hs.eq]
      exact descending_perm.filter _
    have hkeys : (cand.map Candidate.key).Nodup := by
      rw [hfilter]
      exact (descending_keys hids).sublist (List.filter_sublist.map _)
    have hdesc : Desc Candidate.key ((h :: t).filter fun c => decide (minP ≤ c.prob)) := by
      rw [← hs.eq]
      exact (sortDesc_desc _).sublist List.filter_sublist
    have hq : qsort cand = keptByMinP minP (h :: t) := by
      rw [qsort_eq, keptByMinP_filter hs hrange.2]
      exact eq_of_desc hkeys (sortDesc_desc _) (sortDesc_perm _) hdesc hperm
    refine ⟨_, hq, ?_⟩
    exact keptByMinP_idem (l := h :: t)
  · rw [if_neg hrange] at hcand
    refine ⟨t, ?_, rfl⟩
    rw [hcand, qsort_eq]
    exact hs.eq

omit [IsStrictOrderedRing K] in
/-- The scan in the order of the vocabulary, which computes no weights up to the boundary. -/
theorem scan_eq (hraw : raw = fun v => expf ((v - m) / temperature)) (hexp : Monotone expf) {minRel : K} {reject : Option K}
    (hreject : ∀ r ∈ reject, expf r < minRel) :
    eachFinite logits nVocab (fun s i v =>
      if ∃ r ∈ reject, (v - m) / temperature ≤ r then s
      else if expf ((v - m) / temperature) < minRel then s
      else (s.1 ++ [(⟨i, v, expf ((v - m) / temperature)⟩ : Candidate K)], s.2 + expf ((v - m) / temperature))) ([], 0) =
      ((candidates raw (finiteEntries logits nVocab)).filter fun c => decide (minRel ≤ c.prob),
        probSum ((candidates raw (finiteEntries logits nVocab)).filter fun c => decide (minRel ≤ c.prob))) := by
  rw [← eachFinite_filter raw minRel, hraw]
  congr 1
  funext s i v
  by_cases hr : ∃ r ∈ reject, (v - m) / temperature ≤ r
  · obtain ⟨r, hmem, hle⟩ := hr
    rw [if_pos ⟨r, hmem, hle⟩, if_pos ((hexp hle).trans_lt (hreject r hmem))]
  · rw [if_neg hr]

/-- The path over the whole vocabulary draws from what is kept of all candidates. -/
theorem sampleFullVocab_eq (argmax : ℕ) (hraw : raw = fun v => expf ((v - m) / temperature)) (hexp : Monotone expf)
    (hmax : (scanLogits logits nVocab).maxLogit = some m) (hs : Sorted raw m (finiteEntries logits nVocab) h t)
    (hbest : h.id = (scanLogits logits nVocab).best) (htop : 0 < topP) (htop1 : topP ≤ 1) (hmin : 0 ≤ minP)
    (logf nextafter : K → K) :
    ∃ k last, k.Perm (cutAtMass (topP * probSum (h :: t)) (keptByMinP minP (h :: t))) ∧
      ∀ u, sampleFullVocab expf argmax logits nVocab temperature topP minP logf nextafter u =
        drawLoop k (u * probSum k) last := by
  have hids : (finiteEntries logits nVocab).Pairwise fun e f => e.1 < f.1 := finiteEntries_sorted
  have hsumPos := probSum_pos hs.pos (List.cons_ne_nil h t)
  have hrel := minRel_eq hmin
  by_cases hone : 1 ≤ topP
  · have htopP : topP = 1 := le_antisymm htop1 hone
    subst htopP
    by_cases hmin1 : 1 < minP
    · -- only the best entry
      refine ⟨[h], h.id, ?_, fun u => ?_⟩
      · rw [keptByMinP_one hs hmin1, cutAtMass, cutAtMass, ite_self]
      · rw [sampleFullVocab]
        dsimp only
        rw [hmax]
        dsimp only
        rw [if_neg (lt_irrefl 1), if_pos le_rfl, hrel, if_pos hmin1, ← hbest]
        exact (ite_self h.id).symm
    · have hfilter := keptByMinP_filter hs (le_of_not_gt hmin1)
      have hperm : ((candidates raw (finiteEntries logits nVocab)).filter fun c => decide (minP ≤ c.prob)).Perm
          (keptByMinP minP (h :: t)) := by
        rw [hfilter, ← hs.eq]
        exact (descending_perm.filter _).symm
      have hcut : cutAtMass (1 * probSum (h :: t)) (keptByMinP minP (h :: t)) = keptByMinP minP (h :: t) := by
        rw [one_mul]
        exact cutAtMass_eq_self (fun c hc => hs.pos c (keptByMinP_sublist.subset hc))
          (probSum_sublist keptByMinP_sublist hs.pos)
      have hreject : ∀ r ∈ if 0 < minP then rejectScaled expf nextafter minP 8 (logf minP) else none,
          expf r < minP := fun r hr => by
        split at hr
        · exact rejectScaled_lt hr
        · exact absurd hr (Option.not_mem_none r)
      have hpos : 0 < probSum ((candidates raw (finiteEntries logits nVocab)).filter fun c => decide (minP ≤ c.prob)) := by
        rw [probSum_perm hperm]
        exact probSum_pos (fun c hc => hs.pos c (keptByMinP_sublist.subset hc)) (List.cons_ne_nil _ _)
      refine ⟨(candidates raw (finiteEntries logits nVocab)).filter fun c => decide (minP ≤ c.prob),
        (scanLogits logits nVocab).best, by rw [hcut]; exact hperm, fun u => ?_⟩
      rw [sampleFullVocab]
      dsimp only
      rw [hmax]
      dsimp only
      rw [if_neg (lt_irrefl 1), if_pos le_rfl, hrel, if_neg hmin1, scan_eq hraw hexp hreject, if_neg (not_le_of_gt hpos)]
  · have hfinite : (scanLogits logits nVocab).finite = (finiteEntries logits nVocab).length := scanLogits_of.finite
    cases sampleFastTopP_eq hraw hs htop hmin (scanLogits logits nVocab).best with
    | inr hfast =>
      obtain ⟨last, hfast⟩ := hfast
      refine ⟨_, last, .refl _, fun u => ?_⟩
      rw [sampleFullVocab]
      dsimp only
      rw [hmax]
      dsimp only
      rw [if_pos (lt_of_not_ge hone), hfinite, hfast]
    | inl hfast =>
      have hsum : probSum (candidates raw (finiteEntries logits nVocab)) = probSum (h :: t) := by
        rw [← hs.eq]
        exact (probSum_perm descending_perm).symm
      have hcollect : collect raw logits nVocab = (candidates raw (finiteEntries logits nVocab), probSum (h :: t)) := by
        rw [collect_eq, hsum]
      generalize hcand : (if 0 < minP ∧ minP ≤ 1 then (candidates raw (finiteEntries logits nVocab)).filter fun c =>
        decide ¬c.prob / probSum (h :: t) < 1 / probSum (h :: t) * minP else candidates raw (finiteEntries logits nVocab)) = cand
      obtain ⟨t', hq, hkept⟩ := prefilter_kept hids hs hsumPos hcand.symm
      have hne : ¬(probSum (h :: t) ≤ 0 ∨ cand = []) := by
        rw [not_or, not_le]
        refine ⟨hsumPos, fun hnil => ?_⟩
        rw [hnil, qsort_eq, sortDesc, List.mergeSort_nil] at hq
        exact absurd hq (List.cons_ne_nil h t').symm
      generalize hf : filterLoop (fun c => c.prob / probSum (h :: t) < h.prob / probSum (h :: t) * minP) (probSum (h :: t)) topP
        .start (h :: t') = f
      have hfkept : f.kept = cutAtMass (topP * probSum (h :: t)) (keptByMinP minP (h :: t)) := by
        rw [← hf, ← hkept]
        exact filterLoop_sorted hs.one hsumPos (relative_lt hsumPos hs.one)
      have hfsum : f.sum = probSum f.kept := hf ▸ filterLoop_sum rfl
      have hfne : f.kept ≠ [] := by
        rw [hfkept, keptByMinP, cutAtMass]
        exact List.cons_ne_nil _ _
      refine ⟨f.kept, f.kept.getLast!.id, .of_eq hfkept, fun u => ?_⟩
      rw [sampleFullVocab]
      dsimp only
      rw [hmax]
      dsimp only
      rw [if_pos (lt_of_not_ge hone), hfinite, hfast, if_neg hone, ← hraw, hcollect]
      dsimp only
      rw [hcand, if_neg hne, hq, List.head!_cons, hrel, hf, if_neg hfne, hfsum]

theorem clampTopP_range (topP : K) : 0 < clampTopP topP ∧ clampTopP topP ≤ 1 := by
  rw [clampTopP]
  split
  · exact ⟨one_pos, le_rfl⟩
  · next h =>
    rw [not_or, not_le, not_lt] at h
    exact h

omit [IsStrictOrderedRing K] in
theorem clampMinP_nonneg (minP : K) : 0 ≤ clampMinP minP := by
  rw [clampMinP]
  split
  · exact le_rfl
  · next h => exact le_of_not_gt h

/-- Every path draws from what is kept. -/
theorem sampleTopPMinP_eq (argmax : ℕ) (topK : ℤ) (topP minP : K) (ht : 0 < temperature)
    (hraw : raw = fun v => expf ((v - m) / temperature)) (hexp : Monotone expf)
    (hmax : (scanLogits logits nVocab).maxLogit = some m) (hs : Sorted raw m (finiteEntries logits nVocab) h t)
    (hbest : h.id = (scanLogits logits nVocab).best) (logf nextafter : K → K) :
    ∃ k last, k.Perm (kept topK topP minP (h :: t)) ∧
      ∀ u, sampleTopPMinP expf argmax logits nVocab temperature topK topP minP logf nextafter u =
        drawLoop k (u * probSum k) last := by
  obtain ⟨htop, htop1⟩ := clampTopP_range topP
  have hmin := clampMinP_nonneg minP
  by_cases hk : topK ≤ 0
  · obtain ⟨k, last, hperm, hpath⟩ :=
      sampleFullVocab_eq argmax hraw hexp hmax hs hbest htop htop1 hmin logf nextafter
    refine ⟨k, last, ?_, fun u => ?_⟩
    · rw [kept, if_pos hk]
      exact hperm
    · rw [sampleTopPMinP, if_neg (not_le_of_gt ht), if_pos hk, hpath]
  · have hlen := hs.length_le
    have hvocab : 0 < nVocab := (Nat.succ_pos _).trans_le hlen
    generalize hkk : (if (nVocab : ℤ) < if 1024 < topK then 1024 else topK then (nVocab : ℤ) else
      if 1024 < topK then 1024 else topK) = kk
    have hpos : 0 < kk.toNat := by split_ifs at hkk <;> omega
    have htake : (h :: t).take kk.toNat = (h :: t).take (min topK 1024).toNat :=
      take_clamp hlen (by split_ifs at hkk <;> split <;> omega)
    generalize hloop : eachFinite logits nVocab (Insertion.see kk.toNat) ⟨fun _ => (0, 0), 0⟩ = s
    have hinsert : candidates raw (elems s.entries s.n) = h :: t.take (kk.toNat - 1) := by
      rw [insertionLoop_eq hpos hloop.symm, hs.eq, take_cons hpos]
    have hn : s.n ≠ 0 := fun hzero => by
      rw [hzero] at hinsert
      exact absurd hinsert (List.cons_ne_nil _ _).symm
    have hfirst : (s.entries 0).2 = m := by
      obtain ⟨n, hn⟩ := Nat.exists_eq_succ_of_ne_zero hn
      rw [hn, Nat.succ_eq_add_one, elems_cons] at hinsert
      rw [← hs.logit]
      exact congrArg Candidate.logit (List.cons.inj hinsert).1
    have hprefixPos := probSum_take_pos hs hpos
    rw [take_cons hpos] at hprefixPos
    generalize hf : filterLoop (fun c => c.prob / probSum (h :: t.take (kk.toNat - 1)) <
      h.prob / probSum (h :: t.take (kk.toNat - 1)) * clampMinP minP) (probSum (h :: t.take (kk.toNat - 1))) (clampTopP topP)
      .start (h :: t.take (kk.toNat - 1)) = f
    have hfkept : f.kept = kept topK topP minP (h :: t) := by
      rw [← hf, kept, if_neg hk, ← htake, take_cons hpos]
      exact filterLoop_sorted hs.one hprefixPos (relative_lt hprefixPos hs.one)
    have hfsum : f.sum = probSum f.kept := hf ▸ filterLoop_sum rfl
    refine ⟨f.kept, f.kept.getLast!.id, .of_eq hfkept, fun u => ?_⟩
    have hcand : ((elems s.entries s.n).map fun e => (⟨e.1, e.2, expf ((e.2 - (s.entries 0).2) / temperature)⟩ : Candidate K)) =
        h :: t.take (kk.toNat - 1) := by
      rw [hfirst, ← hinsert, hraw]
      rfl
    rw [sampleTopPMinP, if_neg (not_le_of_gt ht), if_neg hk]
    dsimp only
    rw [hkk, hloop, if_neg hn, hcand]
    have hmass : (List.map Candidate.prob (h :: t.take (kk.toNat - 1))).sum = probSum (h :: t.take (kk.toNat - 1)) := rfl
    rw [hmass, if_neg (not_le_of_gt hprefixPos), List.head!_cons, hf, if_neg (by rw [hfkept]; exact kept_ne_nil), hfsum]

end

section
variable {expf : ℝ → ℝ} {logits : ℕ → Option ℝ} {nVocab : ℕ} {temperature : ℝ}

theorem volume_drawLoop {k : List (Candidate ℝ)} (hpos : ∀ c ∈ k, 0 < c.prob) (hne : k ≠ [])
    (hids : (k.map Candidate.id).Nodup) (x last : ℕ) :
    volume {u : ℝ | u ∈ Set.Ico 0 1 ∧ drawLoop k (u * probSum k) last = x} = ENNReal.ofReal (share k x) := by
  have hpairs : ∀ p ∈ pairs k, 0 < p.2 := fun p hp => by
    obtain ⟨c, hc, rfl⟩ := List.mem_map.mp hp
    exact hpos c hc
  have hvol := volume_draw hpairs (fun hnil => hne (List.map_eq_nil_iff.mp hnil)) (by rw [pairs_ids]; exact hids) x last
  rwa [mass_pairs] at hvol

end

end Ds4.Sampling
