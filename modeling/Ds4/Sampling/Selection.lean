import Ds4.Sampling.Sample

/-!
# What the loops over the vocabulary select

The heap and the insertion array hold the beginning of the list of the finite logits in descending order.
-/

namespace Ds4.Sampling
open TopK

section
variable {K : Type} [LinearOrder K]

/-! ## The order of candidates -/

/-- A larger logit is better, and of equal logits the one with the smaller id. -/
def Candidate.key (a : Candidate K) : K ×ₗ ℕᵒᵈ := toLex (a.logit, OrderDual.toDual a.id)

variable {a b : Candidate K}

theorem Candidate.key_lt : b.key < a.key ↔ b.logit < a.logit ∨ b.logit = a.logit ∧ a.id < b.id := Prod.Lex.toLex_lt_toLex

theorem Candidate.gt_iff (a b : Candidate K) : a.gt b ↔ b.key < a.key := by
  rw [key_lt, gt]
  by_cases h : a.logit = b.logit
  · rw [if_neg (not_not.mpr h)]
    exact ⟨fun hid => .inr ⟨h.symm, hid⟩, fun hk => hk.elim (fun hlt => absurd h hlt.ne') And.right⟩
  · rw [if_pos h]
    exact ⟨.inl, fun hk => hk.resolve_right fun heq => absurd heq.1.symm h⟩

theorem cmpDesc_le_zero (a b : Candidate K) : sampleCandidateCmpDesc a b ≤ 0 ↔ b.key ≤ a.key := by
  rw [← @not_lt _ _ a.key, Candidate.key_lt, sampleCandidateCmpDesc]
  rcases lt_trichotomy a.logit b.logit with h | h | h
  · simp [h, h.not_gt]
  · simp only [h, lt_irrefl, if_false, sub_self, ne_eq, not_true, true_and, false_or]
    split_ifs <;> omega
  · simp [h, h.not_gt, h.ne']

theorem qsort_eq (l : List (Candidate K)) : qsort l = sortDesc Candidate.key l := by
  rw [qsort, sortDesc]
  congr 1
  funext a b
  rw [decide_eq_decide]
  exact cmpDesc_le_zero a b

omit [LinearOrder K] in
theorem Candidate.key_inj_id {l : List (Candidate K)} (h : (l.map Candidate.id).Nodup) : (l.map Candidate.key).Nodup := by
  refine List.Nodup.of_map (fun k => OrderDual.ofDual (ofLex k).2) ?_
  rw [List.map_map]
  exact h

end

/-! ## The finite entries -/

section
variable {K : Type}

/-- The finite logits with their indices. -/
def finiteEntries (logits : ℕ → Option K) (nVocab : ℕ) : List (ℕ × K) :=
  (List.range nVocab).filterMap fun i => (logits i).map fun v => (i, v)

variable {logits : ℕ → Option K} {nVocab : ℕ}

theorem eachFinite_eq {σ : Type} (body : σ → ℕ → K → σ) (s : σ) :
    eachFinite logits nVocab body s = (finiteEntries logits nVocab).foldl (fun s e => body s e.1 e.2) s := by
  rw [eachFinite, finiteEntries, List.foldl_filterMap]
  congr 1
  funext s i
  cases logits i <;> rfl

theorem mem_finiteEntries {e : ℕ × K} : e ∈ finiteEntries logits nVocab ↔ e.1 < nVocab ∧ logits e.1 = some e.2 := by
  obtain ⟨i, v⟩ := e
  rw [finiteEntries, List.mem_filterMap]
  constructor
  · intro h
    obtain ⟨j, hj, hv⟩ := h
    rw [Option.map_eq_some_iff] at hv
    obtain ⟨w, hw, heq⟩ := hv
    cases heq
    exact ⟨List.mem_range.mp hj, hw⟩
  · intro h
    exact ⟨i, List.mem_range.mpr h.1, by rw [h.2]; rfl⟩

/-- The indices are visited in their order. -/
theorem finiteEntries_sorted : (finiteEntries logits nVocab).Pairwise fun e f => e.1 < f.1 := by
  rw [finiteEntries, List.pairwise_filterMap]
  refine List.pairwise_lt_range.imp fun hij e he f hf => ?_
  rw [Option.map_eq_some_iff] at he hf
  obtain ⟨v, -, rfl⟩ := he
  obtain ⟨w, -, rfl⟩ := hf
  exact hij

/-- The candidates for the entries. -/
def candidates (raw : K → K) (es : List (ℕ × K)) : List (Candidate K) := es.map fun e => ⟨e.1, e.2, raw e.2⟩

theorem candidates_ids {es : List (ℕ × K)} (hs : es.Pairwise fun e f => e.1 < f.1) (raw : K → K) :
    ((candidates raw es).map Candidate.id).Nodup := by
  rw [candidates, List.map_map, List.nodup_iff_pairwise_ne, List.pairwise_map]
  exact hs.imp fun h => h.ne

/-! ## The first loop -/

variable [LinearOrder K]

/-- The best entry is the first of the largest ones. -/
structure Scan.Of (es : List (ℕ × K)) (s : Scan K) : Prop where
  finite : s.finite = es.length
  none : s.maxLogit = none → es = []
  best : ∀ m ∈ s.maxLogit, (s.best, m) ∈ es ∧ ∀ e ∈ es, e.2 ≤ m ∧ (e.2 = m → s.best ≤ e.1)

theorem scanLogits_of : Scan.Of (finiteEntries logits nVocab) (scanLogits logits nVocab) := by
  rw [scanLogits, eachFinite_eq]
  have hs : (finiteEntries logits nVocab).Pairwise fun e f => e.1 < f.1 := finiteEntries_sorted
  generalize finiteEntries logits nVocab = es at hs ⊢
  induction es using List.reverseRecOn with
  | nil => exact ⟨rfl, fun _ => rfl, fun m hm => absurd hm (Option.not_mem_none m)⟩
  | append_singleton es e ih =>
    rw [List.pairwise_append] at hs
    have h := ih hs.1
    rw [List.foldl_append, List.foldl_cons, List.foldl_nil]
    generalize es.foldl _ _ = s at h ⊢
    have hfinite : s.finite + 1 = (es ++ [e]).length := by rw [h.finite, List.length_append]; rfl
    by_cases hbest : ∀ m ∈ s.maxLogit, m < e.2
    · rw [if_pos hbest]
      refine ⟨hfinite, fun h => absurd h (Option.some_ne_none _), fun m hm => ?_⟩
      cases Option.mem_some_iff.mp hm
      refine ⟨List.mem_append_right _ (List.mem_singleton.mpr rfl), fun f hf => ?_⟩
      cases List.mem_append.mp hf with
      | inl hfe =>
        cases hmax : s.maxLogit with
        | none => rw [h.none hmax] at hfe; exact absurd hfe List.not_mem_nil
        | some m =>
          have hlt := ((h.best m hmax).2 f hfe).1.trans_lt (hbest m hmax)
          exact ⟨hlt.le, fun heq => absurd heq hlt.ne⟩
      | inr hfe =>
        rw [List.mem_singleton.mp hfe]
        exact ⟨le_rfl, fun _ => le_rfl⟩
    · rw [if_neg hbest]
      rw [not_forall₂] at hbest
      obtain ⟨m, hm, hle⟩ := hbest
      refine ⟨hfinite, fun hn => ?_, fun m' hm' => ?_⟩
      · rw [hn] at hm
        exact absurd hm (Option.not_mem_none m)
      · have hmm : m' = m := Option.mem_unique hm' hm
        obtain ⟨hmem, hall⟩ := h.best m hm
        rw [hmm]
        refine ⟨List.mem_append_left _ hmem, fun f hf => ?_⟩
        cases List.mem_append.mp hf with
        | inl hfe => exact hall f hfe
        | inr hfe =>
          rw [List.mem_singleton.mp hfe]
          exact ⟨le_of_not_gt hle, fun _ => (hs.2.2 _ hmem e (List.mem_singleton.mpr rfl)).le⟩

end

section
variable {K : Type} [Field K] [LinearOrder K] {raw : K → K} {logits : ℕ → Option K} {nVocab : ℕ} {es : List (ℕ × K)}

/-- The candidates in descending order. -/
def descending (raw : K → K) (es : List (ℕ × K)) : List (Candidate K) := sortDesc Candidate.key (candidates raw es)

omit [Field K] [LinearOrder K] in
theorem mem_candidates {c : Candidate K} : c ∈ candidates raw es ↔ (c.id, c.logit) ∈ es ∧ c.prob = raw c.logit := by
  rw [candidates, List.mem_map]
  constructor
  · intro h
    obtain ⟨e, he, rfl⟩ := h
    exact ⟨he, rfl⟩
  · intro h
    exact ⟨(c.id, c.logit), h.1, by rw [← h.2]⟩

omit [Field K] [LinearOrder K] in
theorem candidates_append (es fs : List (ℕ × K)) : candidates raw (es ++ fs) = candidates raw es ++ candidates raw fs :=
  List.map_append

/-! ## The heap loop -/

def probSum (l : List (Candidate K)) : K := (l.map Candidate.prob).sum

omit [LinearOrder K] in
theorem probSum_cons (c : Candidate K) (l : List (Candidate K)) : probSum (c :: l) = c.prob + probSum l := List.sum_cons

omit [LinearOrder K] in
theorem probSum_append (l m : List (Candidate K)) : probSum (l ++ m) = probSum l + probSum m := by
  rw [probSum, List.map_append, List.sum_append]
  rfl

omit [LinearOrder K] in
theorem probSum_perm {l m : List (Candidate K)} (h : l.Perm m) : probSum l = probSum m := (h.map _).sum_eq

structure Heap.Of (raw : K → K) (cap : ℕ) (es : List (ℕ × K)) (s : Heap K) : Prop where
  top : TopHeap Candidate.key cap s.heap s.n (candidates raw es).reverse
  sum : s.sum = probSum (candidates raw es)
  heapSum : s.heapSum = probSum (elems s.heap s.n)

theorem Heap.Of.see {cap : ℕ} (hcap : 0 < cap) {s : Heap K} (h : s.Of raw cap es) (e : ℕ × K) :
    (s.see raw cap e.1 e.2).Of raw cap (es ++ [e]) := by
  have htop := h.top.offer (x := ⟨e.1, e.2, raw e.2⟩) Candidate.gt_iff hcap
  have hlist : (⟨e.1, e.2, raw e.2⟩ :: (candidates raw es).reverse : List (Candidate K)) =
      (candidates raw (es ++ [e])).reverse := by
    rw [candidates_append, List.reverse_append]
    rfl
  have hsum : s.sum + raw e.2 = probSum (candidates raw (es ++ [e])) := by
    rw [candidates_append, probSum_append, h.sum]
    exact congrArg (_ + ·) (add_zero (raw e.2)).symm
  rw [hlist, offer] at htop
  rw [Heap.see]
  by_cases hroom : s.n < cap
  · rw [if_pos hroom] at htop ⊢
    refine ⟨htop, hsum, ?_⟩
    show s.heapSum + raw e.2 = _
    rw [h.heapSum, add_comm, ← probSum_cons ⟨e.1, e.2, raw e.2⟩]
    exact (probSum_perm siftUp_update_perm).symm
  · rw [if_neg hroom] at htop ⊢
    by_cases hgt : (⟨e.1, e.2, raw e.2⟩ : Candidate K).gt (s.heap 0)
    · rw [if_pos hgt] at htop ⊢
      refine ⟨htop, hsum, ?_⟩
      obtain ⟨k, hk⟩ := Nat.exists_eq_succ_of_ne_zero (show s.n ≠ 0 by omega)
      have hold : s.heapSum = (s.heap 0).prob + probSum (elems (fun i => s.heap (i + 1)) k) := by
        rw [h.heapSum, hk, Nat.succ_eq_add_one, elems_cons, probSum_cons]
      show s.heapSum - (s.heap 0).prob + raw e.2 = probSum (elems (siftDown Candidate.gt (Function.update s.heap 0 _) s.n 0) s.n)
      rw [hk, Nat.succ_eq_add_one, probSum_perm siftDown_update_perm, probSum_cons, hold]
      ring
    · rw [if_neg hgt] at htop ⊢
      exact ⟨htop, hsum, h.heapSum⟩

theorem heapLoop_of {cap : ℕ} (hcap : 0 < cap) :
    (heapLoop raw cap logits nVocab).Of raw cap (finiteEntries logits nVocab) := by
  rw [heapLoop, eachFinite_eq]
  generalize finiteEntries logits nVocab = es
  induction es using List.reverseRecOn with
  | nil => exact ⟨TopHeap.nil cap _, rfl, rfl⟩
  | append_singleton es e ih =>
    rw [List.foldl_append]
    exact ih.see hcap e

omit [LinearOrder K] in
theorem collect_eq : collect raw logits nVocab =
    (candidates raw (finiteEntries logits nVocab), probSum (candidates raw (finiteEntries logits nVocab))) := by
  rw [collect, eachFinite_eq]
  generalize finiteEntries logits nVocab = es
  induction es using List.reverseRecOn with
  | nil => rfl
  | append_singleton es e ih =>
    rw [List.foldl_append, ih, candidates_append, probSum_append]
    exact congrArg (Prod.mk _) (congrArg (_ + ·) (add_zero (raw e.2)).symm)

omit [Field K] in
theorem descending_perm : (descending raw es).Perm (candidates raw es) := sortDesc_perm _

omit [Field K] in
theorem descending_keys (hs : es.Pairwise fun e f => e.1 < f.1) : ((candidates raw es).map Candidate.key).Nodup :=
  Candidate.key_inj_id (candidates_ids hs raw)

/-- The sorted heap is the beginning of the sorted list. -/
theorem Heap.Of.qsort {cap : ℕ} {s : Heap K} (hs : es.Pairwise fun e f => e.1 < f.1) (h : s.Of raw cap es) :
    qsort (elems s.heap s.n) = (descending raw es).take cap := by
  have hrev := List.reverse_perm (candidates raw es)
  rw [qsort_eq]
  refine h.top.top.eq_take ?_ (sortDesc_desc _) (sortDesc_perm _) (sortDesc_desc _) (descending_perm.trans hrev.symm)
  exact ((hrev.map _).nodup_iff).mpr (descending_keys hs)

theorem Heap.Of.n_eq {cap : ℕ} {s : Heap K} (h : s.Of raw cap es) : s.n = min cap es.length := by
  have hcard := h.top.top.card
  rw [Multiset.coe_card, Multiset.coe_card, length_elems, List.length_reverse, candidates, List.length_map] at hcard
  exact hcard

/-! ## The insertion loop -/

/-- The order of the entries is that of their candidates. -/
def entryKey (e : ℕ × K) : K ×ₗ ℕᵒᵈ := toLex (e.2, OrderDual.toDual e.1)

omit [Field K] in
theorem Insertion.see_eq (topK : ℕ) (s : Insertion K) (e : ℕ × K) :
    ((s.see topK e.1 e.2).entries, (s.see topK e.1 e.2).n) =
      TopK.insert (fun e f : ℕ × K => e.2 < f.2) topK s.entries s.n e := by
  rw [Insertion.see, TopK.insert]
  by_cases h : s.n = topK ∧ e.2 ≤ (s.entries (s.n - 1)).2
  · rw [if_pos h, if_pos ⟨h.1, not_lt_of_ge h.2⟩]
  · have hn : ¬(s.n = topK ∧ ¬(s.entries (s.n - 1)).2 < e.2) := fun hn => h ⟨hn.1, le_of_not_gt hn.2⟩
    rw [if_neg h, if_neg hn]

theorem insertionLoop_of {topK : ℕ} (hk : 0 < topK) {s : Insertion K}
    (hs : s = eachFinite logits nVocab (Insertion.see topK) ⟨fun _ => (0, 0), 0⟩) :
    TopArray entryKey topK s.entries s.n (finiteEntries logits nVocab).reverse := by
  rw [eachFinite_eq] at hs
  have hsorted : (finiteEntries logits nVocab).Pairwise fun e f => e.1 < f.1 := finiteEntries_sorted
  generalize finiteEntries logits nVocab = es at hs hsorted ⊢
  induction es using List.reverseRecOn generalizing s with
  | nil => exact hs ▸ TopArray.nil topK _
  | append_singleton es e ih =>
    rw [List.pairwise_append] at hsorted
    rw [List.foldl_append, List.foldl_cons, List.foldl_nil] at hs
    have h := ih rfl hsorted.1
    generalize es.foldl _ _ = s' at h hs
    have hmem : ∀ y ∈ elems s'.entries s'.n, y ∈ es := fun y hy => by
      obtain ⟨r, hr, -⟩ := h.top.rest
      have : y ∈ (es.reverse : Multiset (ℕ × K)) := hr ▸ Multiset.mem_add.mpr (.inl (Multiset.mem_coe.mpr hy))
      exact List.mem_reverse.mp (Multiset.mem_coe.mp this)
    let less : ℕ × K → ℕ × K → Prop := fun e f => e.2 < f.2
    have hless : ∀ y ∈ elems s'.entries s'.n, less y e ↔ entryKey y < entryKey e := fun y hy => by
      have hid := hsorted.2.2 y (hmem y hy) e (List.mem_singleton.mpr rfl)
      rw [entryKey, entryKey, Prod.Lex.toLex_lt_toLex]
      exact ⟨.inl, fun hlt => hlt.resolve_right fun heq => absurd heq.2 (not_lt_of_gt hid)⟩
    have hstep := h.insert hk hless
    rw [List.reverse_append, List.reverse_singleton, List.singleton_append, hs]
    rw [← Insertion.see_eq] at hstep
    exact hstep

/-- The entries with their weights are the beginning of the sorted list. -/
theorem insertionLoop_eq {topK : ℕ} (hk : 0 < topK) {s : Insertion K}
    (hs : s = eachFinite logits nVocab (Insertion.see topK) ⟨fun _ => (0, 0), 0⟩) :
    candidates raw (elems s.entries s.n) = (descending raw (finiteEntries logits nVocab)).take topK := by
  have h := insertionLoop_of hk hs
  have hsorted : (finiteEntries logits nVocab).Pairwise fun e f => e.1 < f.1 := finiteEntries_sorted
  generalize finiteEntries logits nVocab = es at h hsorted ⊢
  have hkeys : (es.map entryKey).Nodup := by
    refine List.Nodup.of_map (fun k => OrderDual.ofDual (ofLex k).2) ?_
    rw [List.map_map, List.nodup_iff_pairwise_ne, List.pairwise_map]
    exact hsorted.imp fun hlt => hlt.ne
  have htake := h.top.eq_take (t := sortDesc entryKey es) (((List.reverse_perm es).map _).nodup_iff.mpr hkeys) h.desc (.refl _)
    (sortDesc_desc es) ((sortDesc_perm es).trans (List.reverse_perm es).symm)
  have hdesc : candidates raw (sortDesc entryKey es) = descending raw es := by
    refine eq_of_desc (descending_keys hsorted) ?_ ((sortDesc_perm es).map _) (sortDesc_desc _) descending_perm
    rw [Desc, candidates, List.pairwise_map]
    exact sortDesc_desc es
  rw [htake, ← hdesc, candidates, candidates, List.map_take]

end

end Ds4.Sampling
