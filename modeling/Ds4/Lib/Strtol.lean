import Ds4.Lib.CString

/-!
# The value of `strtol` in base ten

White space, an optional sign and decimal digits, as a 64-bit `long`. What the value of a longer text is
where the digits of a shorter one have come to an end, and where they have not.
-/

namespace C

def decimal (s : Bytes) : Nat := s.foldl (fun n c => 10 * n + (c.toNat - (ch '0').toNat)) 0

/-- A value out of range is replaced by the nearest one. -/
def clampLong (v : Int) : Int := max (-2 ^ 63) (min v (2 ^ 63 - 1))

/-- Whether there is a minus sign, and what is behind the sign. -/
def splitSign : Bytes → Bool × Bytes
  | [] => (false, [])
  | c :: s => if c = ch '-' then (true, s) else if c = ch '+' then (false, s) else (false, c :: s)

/-- The digits that are read. -/
def longDigits (s : Bytes) : Bytes := (splitSign (skipSpace (cstr s))).2.takeWhile isdigit

def strtol (s : Bytes) : Int :=
  let v : Int := decimal (longDigits s)
  clampLong (if (splitSign (skipSpace (cstr s))).1 then -v else v)

theorem decimal_append_le (s t : Bytes) : decimal s ≤ decimal (s ++ t) := by
  rw [decimal, decimal, List.foldl_append]
  generalize s.foldl (fun n c => 10 * n + (c.toNat - (ch '0').toNat)) 0 = n
  induction t generalizing n with
  | nil => exact Nat.le_refl n
  | cons c t ih =>
    refine Nat.le_trans ?_ (ih (10 * n + (c.toNat - (ch '0').toNat)))
    omega

theorem strtol_eq_zero_iff (s : Bytes) : strtol s = 0 ↔ decimal (longDigits s) = 0 := by
  rw [strtol, clampLong]
  split
  all_goals omega

/-- White space at the front is skipped in a longer text as in a shorter one. -/
theorem skipSpace_append {s t : Bytes} (h : skipSpace s ≠ []) : skipSpace (s ++ t) = skipSpace s ++ t := by
  induction s with
  | nil => exact absurd rfl h
  | cons c s ih =>
    cases hc : isspace c with
    | true =>
      rw [skipSpace_cons_of hc] at h ⊢
      rw [List.cons_append, skipSpace_cons_of hc]
      exact ih h
    | false => rw [List.cons_append, skipSpace_cons_of_not hc, skipSpace_cons_of_not hc, List.cons_append]

theorem splitSign_append {s t : Bytes} (h : s ≠ []) :
    splitSign (s ++ t) = ((splitSign s).1, (splitSign s).2 ++ t) := by
  cases s with
  | nil => exact absurd rfl h
  | cons c s =>
    rw [List.cons_append, splitSign, splitSign]
    split
    · rfl
    split
    · rfl
    · rfl

theorem exists_takeWhile_append (p : UInt8 → Bool) (s t : Bytes) :
    ∃ u, (s ++ t).takeWhile p = s.takeWhile p ++ u := by
  induction s with
  | nil => exact ⟨t.takeWhile p, rfl⟩
  | cons c s ih =>
    obtain ⟨u, hu⟩ := ih
    rw [List.cons_append, List.takeWhile_cons, List.takeWhile_cons]
    split
    · exact ⟨u, congrArg (c :: ·) hu⟩
    · exact ⟨[], rfl⟩

/-- Where an element stops the scan, what is behind it does not matter. -/
theorem takeWhile_append_of_mem {p : UInt8 → Bool} {c : UInt8} {s : Bytes} (hc : c ∈ s) (hp : p c = false)
    (t : Bytes) : (s ++ t).takeWhile p = s.takeWhile p := by
  induction s with
  | nil => exact nomatch hc
  | cons d s ih =>
    rw [List.cons_append, List.takeWhile_cons, List.takeWhile_cons]
    split
    · next hd =>
      rcases List.mem_cons.mp hc with rfl | hc
      · rw [hp] at hd
        exact absurd hd Bool.false_ne_true
      · rw [ih hc]
    · rfl

/-- The digits of a longer text begin with those of a shorter one. -/
theorem exists_longDigits_append (s t : Bytes) : ∃ u, longDigits (s ++ t) = longDigits s ++ u := by
  obtain ⟨v, hv⟩ := exists_takeWhile_append (· ≠ 0) s t
  rw [longDigits, longDigits, cstr, hv]
  change ∃ u, (splitSign (skipSpace (cstr s ++ v))).2.takeWhile isdigit = _
  by_cases h : skipSpace (cstr s) = []
  · rw [h]
    exact ⟨_, rfl⟩
  · rw [skipSpace_append h, splitSign_append h]
    exact exists_takeWhile_append isdigit _ v

theorem strtol_eq_zero_of_append {s t : Bytes} (h : strtol (s ++ t) = 0) : strtol s = 0 := by
  obtain ⟨u, hu⟩ := exists_longDigits_append s t
  rw [strtol_eq_zero_iff, hu] at h
  exact (strtol_eq_zero_iff s).mpr (Nat.le_zero.mp (h ▸ decimal_append_le _ u))

theorem mem_splitSign {c : UInt8} {s : Bytes} (hc : c ∈ s) (hminus : c ≠ ch '-') (hplus : c ≠ ch '+') :
    c ∈ (splitSign s).2 := by
  cases s with
  | nil => exact hc
  | cons d s =>
    rw [splitSign]
    split
    · next hd => exact (List.mem_cons.mp hc).resolve_left fun h => hminus (h.trans hd)
    split
    · next hd => exact (List.mem_cons.mp hc).resolve_left fun h => hplus (h.trans hd)
    · exact hc

/-- A value other than 0 in a text that ends with a newline stays when the text goes on. -/
theorem strtol_append_of_ne_zero {s : Bytes} (hs : s.getLast? = some (ch '\n')) (h : strtol s ≠ 0) (t : Bytes) :
    strtol (s ++ t) = strtol s := by
  by_cases h0 : (0 : UInt8) ∈ s
  · have hcstr : cstr (s ++ t) = cstr s := takeWhile_append_of_mem h0 rfl t
    rw [strtol, longDigits, hcstr]
    rfl
  have hcstr : cstr (s ++ t) = s ++ cstr t :=
    List.takeWhile_append_of_pos fun c hc => decide_eq_true fun hz => h0 (hz ▸ hc)
  have hne : skipSpace s ≠ [] := fun hnil => by
    rw [Ne, strtol_eq_zero_iff, longDigits, cstr_of_notMem h0, hnil] at h
    exact h rfl
  have hmem : ch '\n' ∈ (splitSign (skipSpace s)).2 := by
    refine mem_splitSign ?_ (by decide) (by decide)
    obtain ⟨a, ha⟩ := skipSpace_suffix s
    rw [← ha, List.getLast?_append_of_ne_nil _ hne] at hs
    exact List.mem_of_getLast? hs
  have hdigits : longDigits (s ++ t) = longDigits s := by
    rw [longDigits, hcstr, skipSpace_append hne, splitSign_append hne, longDigits, cstr_of_notMem h0]
    exact takeWhile_append_of_mem hmem (by decide) _
  rw [strtol, hdigits, hcstr, skipSpace_append hne, splitSign_append hne, strtol, cstr_of_notMem h0]

end C
