import Ds4.Server.Stream

/-!
# What a stream holds back

A stream must not send the beginning of a marker whose end has not arrived. The lemmas bound the
limits of an update by the position of a marker of the whole text that is not yet complete in the
received part.
-/

namespace Ds4
open C Scan

theorem isPrefix_drop (hs : s <+: t) (n : Nat) : s.drop n <+: t.drop n := by
  obtain ⟨u, rfl⟩ := hs
  rw [List.drop_append]
  exact List.prefix_append _ _

/-- A literal of the whole text is complete in the received part, or the received part ends in
it. -/
theorem full_or_partial {r t w : Bytes} (hr : r <+: t) (hw : w <+: t) :
    rawFullLit r w = true ∨ rawPartialLit r w = true := by
  simp only [rawFullLit, rawPartialLit, decide_eq_true_eq]
  rcases Nat.lt_or_ge r.length w.length with h | h
  · exact .inr ⟨h, List.prefix_of_prefix_length_le hr hw h.le⟩
  · exact .inl (List.prefix_of_prefix_length_le hw hr h)

/-- A cut sharp literal starts at the last occurrence of its first byte. -/
theorem findLastSubstr_cut {s t w : Bytes} (hw : Sharp c w) (hs : s <+: t) (ho : w <+: t.drop q)
    (hq : q < s.length) (hcut : s.length < q + w.length) (hscan : scan ≤ q) :
    findLastSubstr [c] (s.drop scan) = some (q - scan) ∧ rawPartialLit (s.drop q) w = true := by
  have hp : s.drop q <+: w :=
    List.prefix_of_prefix_length_le (isPrefix_drop hs q) ho (by rw [List.length_drop]; omega)
  obtain ⟨tl, rfl, hc⟩ := hw
  have hd : ∃ tl', s.drop q = c :: tl' ∧ tl' <+: tl := by
    cases hr : s.drop q with
    | nil =>
      rw [List.drop_eq_nil_iff] at hr
      omega
    | cons d tl' =>
      rw [hr, List.cons_prefix_cons] at hp
      exact ⟨tl', by rw [hp.1], hp.2⟩
  obtain ⟨tl', hd, htl⟩ := hd
  constructor
  · have hsplit : s.drop scan = (s.drop scan).take (q - scan) ++ c :: tl' := by
      rw [← hd, ← Nat.add_sub_cancel' hscan, ← List.drop_drop]
      simp only [Nat.add_sub_cancel_left, List.take_append_drop]
    rw [hsplit, findLastSubstr_single (fun h => hc (htl.subset h)), List.length_take,
      List.length_drop]
    congr 1
    omega
  · simp only [rawPartialLit, decide_eq_true_eq]
    exact ⟨by rw [List.length_drop]; omega, hp⟩

theorem findLastSubstr_lt (h : findLastSubstr [c] s = some i) : i < s.length := by
  have := (findLastSubstr_isPrefix h).length_le
  rw [List.length_drop, List.length_singleton] at this
  omega

theorem toolMarkerLimit_le {s t w : Bytes} (hw : Sharp (ch '<') w) (hs : s <+: t)
    (ho : w <+: t.drop q) (hp : p ≤ q) (hcut : s.length < q + w.length) :
    toolMarkerLimit s p w ≤ q := by
  rw [toolMarkerLimit]
  generalize hscan : (if p + w.length < s.length then s.length - w.length else p) = scan
  have hsc : scan ≤ q := by split at hscan <;> omega
  rcases Nat.lt_or_ge q s.length with hq | hq
  · obtain ⟨h1, h2⟩ := findLastSubstr_cut hw hs ho hq hcut hsc
    rw [h1]
    simp only [Nat.add_sub_cancel' hsc, h2, if_true, Nat.le_refl]
  · split
    · next i hi =>
      have := findLastSubstr_lt hi
      rw [List.length_drop] at this
      split <;> omega
    · exact hq

theorem toolEntityLimit_le : toolEntityLimit s p limit w ≤ limit := by
  rw [toolEntityLimit]
  split
  · next i hi =>
    have := findLastSubstr_lt hi
    rw [List.length_drop, List.length_take] at this
    split <;> omega
  · exact Nat.le_refl _

/-! ## Tool markers -/

/-- A tool start marker of any syntax stands at an offset. -/
def MarkerAt (s : Bytes) (i : Nat) : Prop := ∃ w ∈ anyToolStarts, w <+: s.drop i

theorem anyToolStarts_sharp : ∀ w ∈ anyToolStarts, Sharp (ch '<') w ∧ w.length ≤ 80 := by decide

theorem findAnyToolStart_eq_none : findAnyToolStart s = none ↔ ∀ i, ¬ MarkerAt s i := by
  rw [findAnyToolStart, Option.map_eq_none_iff, findAny_eq_none_iff]
  simp only [find_eq_none_iff, MarkerAt, id]
  exact ⟨fun h i ⟨w, hw, hp⟩ => h w hw i hp, fun h w hw i hp => h i ⟨w, hw, hp⟩⟩

theorem findAnyToolStart_eq_some :
    findAnyToolStart s = some i ↔ MarkerAt s i ∧ ∀ j < i, ¬ MarkerAt s j := by
  rw [findAnyToolStart, Option.map_eq_some_iff]
  constructor
  · rintro ⟨⟨_, w⟩, h, rfl⟩
    obtain ⟨h1, h2, h3⟩ := (findAny_eq_some_iff anyToolStarts_free).1 h
    exact ⟨⟨w, h1, h2⟩, fun j hj ⟨v, hv, hp⟩ => h3 v hv j hj hp⟩
  · rintro ⟨⟨w, hw, hp⟩, h⟩
    exact ⟨(i, w), (findAny_eq_some_iff anyToolStarts_free).2
      ⟨hw, hp, fun v hv j hj hvp => h j hj ⟨v, hv, hvp⟩⟩, rfl⟩

theorem isPrefix_of_complete {s t w : Bytes} (hs : s <+: t) (hw : w <+: t.drop i)
    (hle : i + w.length ≤ s.length) : w <+: s.drop i :=
  List.prefix_of_prefix_length_le hw (isPrefix_drop hs i) (by rw [List.length_drop]; omega)

/-- A marker that is found in the received part stands in the whole text. -/
theorem markerAt_of_found {s t : Bytes} (hs : s <+: t)
    (h : findAnyToolStart (cstr (s.drop p)) = some i) :
    ∃ w ∈ anyToolStarts, w <+: t.drop (p + i) ∧ p + i + w.length ≤ s.length := by
  obtain ⟨⟨w, hw, hp⟩, -⟩ := findAnyToolStart_eq_some.1 h
  have hp' := hp.trans (isPrefix_drop (cstr_isPrefix _) i)
  rw [List.drop_drop] at hp'
  refine ⟨w, hw, hp'.trans (isPrefix_drop hs _), ?_⟩
  have := hp'.length_le
  have hpos := List.length_pos_of_ne_nil (anyToolStarts_sharp w hw).1.ne_nil
  rw [List.length_drop] at this
  omega

/-- Without zero bytes it is the first one of the whole text from there. -/
theorem not_markerAt_before {s t : Bytes} (h0 : 0 ∉ t) (hs : s <+: t)
    (h : findAnyToolStart (cstr (s.drop p)) = some i) (hj : p ≤ j) (hji : j < p + i) :
    ¬ MarkerAt t j := by
  intro ⟨v, hv, hp⟩
  obtain ⟨w, hw, hwp, hle⟩ := markerAt_of_found hs h
  rw [cstr_of_notMem (fun hm => h0 (hs.subset (List.mem_of_mem_drop hm))),
    findAnyToolStart_eq_some] at h
  apply h.2 (j - p) (by omega)
  refine ⟨v, hv, ?_⟩
  rw [List.drop_drop, Nat.add_sub_cancel' hj]
  apply isPrefix_of_complete hs hp
  have := (anyToolStarts_sharp v hv).1.disjoint (anyToolStarts_sharp w hw).1 hp hwp
  omega

/-- A marker of the whole text that the search missed is cut. -/
theorem cut_of_not_found {s t : Bytes} (h0 : 0 ∉ t) (hs : s <+: t)
    (h : findAnyToolStart (cstr (s.drop p)) = none) (hv : v ∈ anyToolStarts) (hp : v <+: t.drop j)
    (hj : p ≤ j) : s.length < j + v.length := by
  by_contra hle
  rw [cstr_of_notMem (fun hm => h0 (hs.subset (List.mem_of_mem_drop hm))),
    findAnyToolStart_eq_none] at h
  apply h (j - p)
  refine ⟨v, hv, ?_⟩
  rw [List.drop_drop, Nat.add_sub_cancel' hj]
  exact isPrefix_of_complete hs hp (by omega)

/-- The closing tag of a parameter is never sent as a part of its value. -/
theorem toolParamValueStreamSafeLen_le {s t w : Bytes} (isString : Bool) (hw : Sharp (ch '<') w)
    (hs : s <+: t) (hn : find w (s.drop p) = none) (hk : find w (t.drop p) = some k) :
    toolParamValueStreamSafeLen s p w isString ≤ p + k := by
  have hcut : s.length < p + k + w.length := by
    by_contra hge
    rw [find_prefix_of_le (isPrefix_drop hs p) hk (by rw [List.length_drop]; omega)] at hn
    cases hn
  have ho := (find_eq_some_iff.1 hk).1
  rw [List.drop_drop] at ho
  have hlim := toolMarkerLimit_le hw hs ho (Nat.le_add_right p k) hcut
  refine (utf8StreamSafeLen_le ..).trans ?_
  split
  · exact toolEntityLimit_le.trans hlim
  · exact hlim

/-- A marker of the whole text that starts before the limit of a content delta has been found. -/
theorem textStreamSafeLimit_le {s t w : Bytes} (hw : Sharp (ch '<') w) (hlen : w.length ≤ 80)
    (hs : s <+: t) (hn : findAnyToolStart (cstr (s.drop p)) = none) (ho : w <+: t.drop q)
    (hp : p ≤ q) (hcut : s.length < q + w.length) : textStreamSafeLimit s p true false ≤ q := by
  rw [textStreamSafeLimit]
  split
  · omega
  next hlt =>
  rw [if_pos rfl, hn]
  dsimp only
  rw [if_neg Bool.false_ne_true]
  generalize hscan : (if 80 < s.length - p then s.length - 80 else p) = scan
  have hsc : p ≤ scan ∧ scan ≤ q ∧ scan ≤ s.length := by split at hscan <;> omega
  have htrim : trimToolSeparatorWs s p s.length ≤ s.length := trimToolSeparatorWs_le (by omega)
  have hge : p ≤ trimToolSeparatorWs s p s.length := Nat.le_add_right _ _
  refine (utf8StreamSafeLen_le ..).trans ?_
  rcases Nat.lt_or_ge q s.length with hq | hq
  · obtain ⟨h1, -⟩ := findLastSubstr_cut hw hs ho hq hcut hsc.2.1
    rw [h1]
    dsimp only
    rw [Nat.add_sub_cancel' hsc.2.1]
    exact (trimToolSeparatorWs_le (Nat.le_min.2 ⟨hge, hp⟩)).trans (Nat.min_le_right _ _)
  · split
    · next i _ =>
      refine (trimToolSeparatorWs_le (Nat.le_min.2 ⟨hge, hsc.1.trans (Nat.le_add_right _ _)⟩)).trans ?_
      exact (Nat.min_le_left _ _).trans (htrim.trans hq)
    · exact (trimToolSeparatorWs_le hge).trans (htrim.trans hq)

end Ds4
