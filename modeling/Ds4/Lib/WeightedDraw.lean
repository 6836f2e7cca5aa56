import Mathlib.MeasureTheory.Measure.Lebesgue.Basic

/-!
# Drawing from a list of weights

The list is gone through until the number drawn is used up. A number that is uniform up to the whole mass gives every entry
with its share of the mass, in whatever order the entries stand.
-/

namespace WeightedDraw

section
variable {ι K : Type} [Field K] {l l' : List (ι × K)} {i x last : ι} {v : K}

def mass (l : List (ι × K)) : K := (l.map Prod.snd).sum

theorem mass_cons : mass ((i, v) :: l) = v + mass l := List.sum_cons

theorem mass_perm (h : l.Perm l') : mass l = mass l' := (h.map _).sum_eq

/-- The weight of `x` in the list. -/
def weight [DecidableEq ι] (l : List (ι × K)) (x : ι) : K := (l.map fun p => if p.1 = x then p.2 else 0).sum

theorem weight_cons [DecidableEq ι] : weight ((i, v) :: l) x = (if i = x then v else 0) + weight l x := List.sum_cons

theorem weight_perm [DecidableEq ι] (h : l.Perm l') : weight l x = weight l' x := (h.map _).sum_eq

theorem weight_of_not_mem [DecidableEq ι] (h : x ∉ l.map Prod.fst) : weight l x = 0 := by
  induction l with
  | nil => rfl
  | cons p l ih =>
    rw [List.map_cons, List.mem_cons, not_or] at h
    rw [weight_cons, if_neg (fun heq => h.1 heq.symm), ih h.2, add_zero]

variable [LinearOrder K]

/-- `last` is returned when the list ends first. -/
def draw : List (ι × K) → K → ι → ι
  | [], _, last => last
  | (i, w) :: l, r, last => if r - w ≤ 0 then i else draw l (r - w) last

variable [IsStrictOrderedRing K]

theorem mass_nonneg (h : ∀ p ∈ l, 0 < p.2) : 0 ≤ mass l :=
  List.sum_nonneg fun w hw => by
    obtain ⟨p, hp, rfl⟩ := List.mem_map.mp hw
    exact (h p hp).le

theorem mass_pos (h : ∀ p ∈ l, 0 < p.2) (hne : l ≠ []) : 0 < mass l := by
  obtain ⟨p, t, rfl⟩ := List.exists_cons_of_ne_nil hne
  rw [mass_cons]
  exact add_pos_of_pos_of_nonneg (h p (List.mem_cons_self ..)) (mass_nonneg fun q hq => h q (List.mem_cons_of_mem p hq))

/-- The numbers that give `x` are an interval of the length of its weight. -/
theorem draw_interval [DecidableEq ι] (hpos : ∀ p ∈ l, 0 < p.2) (hnodup : (l.map Prod.fst).Nodup) (x last : ι) :
    ∃ c, 0 ≤ c ∧ c + weight l x ≤ mass l ∧ ∀ r, 0 < r → r ≤ mass l → (draw l r last = x ↔ c < r ∧ r ≤ c + weight l x) := by
  induction l with
  | nil => exact ⟨0, le_rfl, (add_zero (0 : K)).le, fun r h0 hr => absurd h0 (not_lt_of_ge hr)⟩
  | cons p l ih =>
    obtain ⟨i, v⟩ := p
    rw [List.map_cons, List.nodup_cons] at hnodup
    have hv : 0 < v := hpos (i, v) (List.mem_cons_self ..)
    have htail : ∀ q ∈ l, 0 < q.2 := fun q hq => hpos q (List.mem_cons_of_mem _ hq)
    obtain ⟨c, hc, hcm, hdraw⟩ := ih htail hnodup.2
    by_cases hix : i = x
    · have hzero : weight l x = 0 := weight_of_not_mem (hix ▸ hnodup.1)
      rw [weight_cons, if_pos hix, hzero, add_zero, mass_cons]
      refine ⟨0, le_rfl, by linarith [mass_nonneg htail], fun r h0 hr => ?_⟩
      rw [zero_add, draw]
      by_cases hle : r - v ≤ 0
      · rw [if_pos hle]
        exact iff_of_true hix ⟨h0, by linarith⟩
      · rw [if_neg hle, hdraw _ (lt_of_not_ge hle) (by linarith), hzero]
        constructor <;> intro h <;> linarith [h.1, h.2]
    · rw [weight_cons, if_neg hix, zero_add, mass_cons]
      refine ⟨v + c, by linarith, by linarith, fun r h0 hr => ?_⟩
      rw [draw]
      by_cases hle : r - v ≤ 0
      · rw [if_pos hle]
        exact iff_of_false hix fun h => by linarith [h.1]
      · rw [if_neg hle, hdraw _ (lt_of_not_ge hle) (by linarith)]
        constructor
        · intro h
          constructor <;> linarith [h.1, h.2]
        · intro h
          constructor <;> linarith [h.1, h.2]

end

open MeasureTheory Set in
/-- A uniform number below one gives `x` with its share of the mass. -/
theorem volume_draw {ι : Type} [DecidableEq ι] {l : List (ι × ℝ)} (hpos : ∀ p ∈ l, 0 < p.2) (hne : l ≠ [])
    (hnodup : (l.map Prod.fst).Nodup) (x last : ι) :
    volume {u : ℝ | u ∈ Ico 0 1 ∧ draw l (u * mass l) last = x} = ENNReal.ofReal (weight l x / mass l) := by
  obtain ⟨c, hc, hcm, hdraw⟩ := draw_interval hpos hnodup x last
  have hmass := mass_pos hpos hne
  have hset : {u : ℝ | u ∈ Ioc 0 1 ∧ draw l (u * mass l) last = x} = Ioc (c / mass l) ((c + weight l x) / mass l) := by
    ext u
    rw [mem_ofPred_eq, mem_Ioc, mem_Ioc, div_lt_iff₀ hmass, le_div_iff₀ hmass]
    constructor
    · intro h
      exact (hdraw _ (mul_pos h.1.1 hmass) (mul_le_of_le_one_left hmass.le h.1.2)).mp h.2
    · intro h
      have hu : 0 < u * mass l := hc.trans_lt h.1
      have hu1 : u * mass l ≤ mass l := h.2.trans hcm
      exact ⟨⟨pos_of_mul_pos_left hu hmass.le, (mul_le_iff_le_one_left hmass).mp hu1⟩, (hdraw _ hu hu1).mpr h⟩
  have hae : {u : ℝ | u ∈ Ico 0 1 ∧ draw l (u * mass l) last = x} =ᵐ[volume]
      {u : ℝ | u ∈ Ioc 0 1 ∧ draw l (u * mass l) last = x} :=
    Ico_ae_eq_Ioc.inter (ae_eq_refl {u : ℝ | draw l (u * mass l) last = x})
  rw [measure_congr hae, hset, Real.volume_Ioc]
  congr 1
  ring

end WeightedDraw
