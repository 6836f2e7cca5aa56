import Ds4.Sampling.Selection

/-!
# What the filters keep

The loops over the sorted candidates compute one list, which is stated here without a loop.
-/

namespace Ds4.Sampling

section
variable {K : Type} [Field K] [LinearOrder K]

/-- The first entry, and the following ones as long as their weight is at least `minP` times the first one's. -/
def keptByMinP (minP : K) : List (Candidate K) → List (Candidate K)
  | [] => []
  | c :: cs => c :: cs.takeWhile fun d => decide (minP * c.prob ≤ d.prob)

/-- The entries up to the first one at which the mass reaches the bound. -/
def cutAtMass : K → List (Candidate K) → List (Candidate K)
  | _, [] => []
  | bound, c :: cs => c :: if bound ≤ c.prob then [] else cutAtMass (bound - c.prob) cs

/-- What is kept of the candidates in descending order. -/
def kept (topK : ℤ) (topP minP : K) (l : List (Candidate K)) : List (Candidate K) :=
  let l := if topK ≤ 0 then l else l.take (min topK 1024).toNat
  cutAtMass (clampTopP topP * probSum l) (keptByMinP (clampMinP minP) l)

variable {minP bound : K} {l l' : List (Candidate K)}

theorem keptByMinP_sublist : (keptByMinP minP l).Sublist l := by
  cases l with
  | nil => exact .refl _
  | cons c cs => exact (List.takeWhile_sublist _).cons_cons c

theorem cutAtMass_sublist : (cutAtMass bound l).Sublist l := by
  induction l generalizing bound with
  | nil => exact .refl _
  | cons c cs ih =>
    rw [cutAtMass]
    split
    · exact (List.nil_sublist cs).cons_cons c
    · exact ih.cons_cons c

theorem kept_sublist {topK : ℤ} {topP : K} : (kept topK topP minP l).Sublist l := by
  refine cutAtMass_sublist.trans (keptByMinP_sublist.trans ?_)
  split
  · exact .refl _
  · exact List.take_sublist _ _

/-! ## The loop -/

variable [IsStrictOrderedRing K] {below : Candidate K → Prop} [DecidablePred below] {baseSum topP : K} {s : Filtered K}

theorem takeWhile_congr {α : Type} {p q : α → Bool} {l : List α} (h : ∀ a ∈ l, p a = q a) :
    l.takeWhile p = l.takeWhile q := by
  induction l with
  | nil => rfl
  | cons a l ih =>
    rw [List.takeWhile_cons, List.takeWhile_cons, h a (List.mem_cons_self ..), ih fun b hb => h b (List.mem_cons_of_mem a hb)]

theorem reaches_iff (hbase : 0 < baseSum) (c : Candidate K) :
    topP ≤ (s.sum + c.prob) / baseSum ↔ topP * baseSum - s.sum ≤ c.prob := by
  rw [le_div_iff₀ hbase, sub_le_iff_le_add']

theorem filterLoop_later (hbase : 0 < baseSum) (hs : s.kept ≠ []) :
    (filterLoop below baseSum topP s l).kept =
      s.kept ++ cutAtMass (topP * baseSum - s.sum) (l.takeWhile fun d => decide ¬below d) := by
  induction l generalizing s with
  | nil => exact (List.append_nil _).symm
  | cons c cs ih =>
    rw [filterLoop]
    by_cases hb : below c
    · have hd : (c :: cs).takeWhile (fun d => decide ¬below d) = [] := by
        simp only [List.takeWhile_cons, hb, not_true, decide_false, Bool.false_eq_true, if_false]
      rw [if_pos ⟨hs, hb⟩, hd]
      exact (List.append_nil _).symm
    · have hd : (c :: cs).takeWhile (fun d => decide ¬below d) = c :: cs.takeWhile fun d => decide ¬below d := by
        simp only [List.takeWhile_cons, hb, not_false_iff, decide_true, if_true]
      rw [if_neg (fun h => hb h.2), hd, cutAtMass]
      dsimp only
      by_cases hr : topP ≤ (s.sum + c.prob) / baseSum
      · rw [if_pos hr, if_pos ((reaches_iff hbase c).mp hr)]
      · rw [if_neg hr, if_neg (fun h => hr ((reaches_iff hbase c).mpr h)),
          ih (List.append_ne_nil_of_right_ne_nil _ (List.cons_ne_nil _ _)), List.append_assoc, sub_sub]
        rfl

theorem filterLoop_kept (hbase : 0 < baseSum) (hbelow : ∀ h ∈ l.head?, ∀ c ∈ l, below c ↔ c.prob < minP * h.prob) :
    (filterLoop below baseSum topP .start l).kept = cutAtMass (topP * baseSum) (keptByMinP minP l) := by
  cases l with
  | nil => rfl
  | cons c cs =>
    have htake : cs.takeWhile (fun d => decide ¬below d) = cs.takeWhile fun d => decide (minP * c.prob ≤ d.prob) :=
      takeWhile_congr fun d hd => by
        rw [decide_eq_decide, hbelow c rfl d (List.mem_cons_of_mem c hd), not_lt]
    have hreach : topP ≤ (Filtered.start.sum + c.prob) / baseSum ↔ topP * baseSum - Filtered.start.sum ≤ c.prob :=
      reaches_iff hbase c
    rw [filterLoop, if_neg (fun h => h.1 rfl), keptByMinP, cutAtMass]
    dsimp only
    by_cases hr : topP ≤ (Filtered.start.sum + c.prob) / baseSum
    · rw [if_pos hr, if_pos (by simpa [Filtered.start] using hreach.mp hr)]
      rfl
    · rw [if_neg hr, if_neg (fun h => hr (hreach.mpr (by simpa [Filtered.start] using h))),
        filterLoop_later hbase (List.append_ne_nil_of_right_ne_nil _ (List.cons_ne_nil _ _)), htake]
      show [c] ++ cutAtMass (topP * baseSum - (0 + c.prob)) _ = _
      rw [zero_add]
      rfl

omit [IsStrictOrderedRing K] in
theorem filterLoop_sum (hs : s.sum = probSum s.kept) :
    (filterLoop below baseSum topP s l).sum = probSum (filterLoop below baseSum topP s l).kept := by
  induction l generalizing s with
  | nil => exact hs
  | cons c cs ih =>
    have hsum : s.sum + c.prob = probSum (s.kept ++ [c]) := by
      rw [probSum_append, hs]
      exact congrArg (_ + ·) (add_zero c.prob).symm
    rw [filterLoop]
    split
    · exact hs
    · dsimp only
      split
      · exact hsum
      · exact ih hsum

/-- A loop that was left early does not see what follows. -/
structure Filtered.Done (s : Filtered K) : Prop where
  done : s.stoppedByMinP = true ∨ s.reachedTopP = true

/-- No reason to leave the loop has been met. -/
structure Filtered.Running (s : Filtered K) : Prop where
  stopped : s.stoppedByMinP = false
  reached : s.reachedTopP = false

omit [IsStrictOrderedRing K] in
theorem filterLoop_append (hs : s.Running) (h : (filterLoop below baseSum topP s l).Done) :
    filterLoop below baseSum topP s (l ++ l') = filterLoop below baseSum topP s l := by
  induction l generalizing s with
  | nil => exact absurd h.done (by rw [filterLoop, hs.stopped, hs.reached]; decide)
  | cons c cs ih =>
    rw [List.cons_append, filterLoop, filterLoop]
    rw [filterLoop] at h
    split
    · rfl
    · next hb =>
      rw [if_neg hb] at h
      dsimp only at h ⊢
      split
      · rfl
      · next hr =>
        rw [if_neg hr] at h
        exact ih ⟨hs.stopped, hs.reached⟩ h

/-- A loop that runs to the end keeps everything and stays below the bound. -/
theorem filterLoop_running (hbase : 0 < baseSum) (hs : s.sum < topP * baseSum)
    (h : ¬(filterLoop below baseSum topP s l).Done) : s.sum + probSum l < topP * baseSum := by
  induction l generalizing s with
  | nil => exact (add_zero s.sum).trans_lt hs
  | cons c cs ih =>
    rw [filterLoop] at h
    split at h
    · exact absurd ⟨.inl rfl⟩ h
    · dsimp only at h
      split at h
      · exact absurd ⟨.inr rfl⟩ h
      · next hr =>
        rw [probSum_cons, ← add_assoc]
        exact ih ((div_lt_iff₀ hbase).mp (lt_of_not_ge hr)) h

end

end Ds4.Sampling
