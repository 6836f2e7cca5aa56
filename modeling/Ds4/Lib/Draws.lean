import Mathlib.MeasureTheory.Integral.Lebesgue.Countable
import Mathlib.MeasureTheory.Integral.Lebesgue.Map
import Ds4.Lib.WeightedDraw

/-!
# Programs that draw numbers

A program draws numbers from zero up to below one and ends in a result. `run` takes the numbers from a stream, `All` is
what holds of every result, and `mean` is the mean of a function of the result when the numbers are independent and
uniform: one integral for every number drawn.
-/

inductive Draws (K α : Type)
  | ret (a : α)
  | draw (k : K → Draws K α)

namespace Draws

variable {K α β : Type}

def bind : Draws K α → (α → Draws K β) → Draws K β
  | ret a, f => f a
  | draw k, f => draw fun u => (k u).bind f

instance : Monad (Draws K) where
  pure := ret
  bind := bind

/-- One number. -/
def uniform : Draws K K := draw ret

def run : Draws K α → (ℕ → K) → α
  | ret a, _ => a
  | draw k, us => (k (us 0)).run fun i => us (i + 1)

@[simp] theorem ret_bind (a : α) (f : α → Draws K β) : (ret a).bind f = f a := rfl

theorem bind_ret (p : Draws K α) : p.bind ret = p := by
  induction p with
  | ret a => rfl
  | draw k ih => exact congrArg draw (funext ih)

theorem bind_assoc {γ : Type} (p : Draws K α) (f : α → Draws K β) (g : β → Draws K γ) :
    (p.bind f).bind g = p.bind fun a => (f a).bind g := by
  induction p with
  | ret a => rfl
  | draw k ih => exact congrArg draw (funext ih)

section
variable [LE K] [LT K] [Zero K] [One K]

/-- Whatever is drawn. -/
def All (P : α → Prop) : Draws K α → Prop
  | ret a => P a
  | draw k => ∀ u, 0 ≤ u → u < 1 → (k u).All P

theorem All.mono {P Q : α → Prop} {p : Draws K α} (h : p.All P) (hPQ : ∀ a, P a → Q a) : p.All Q := by
  induction p with
  | ret a => exact hPQ a h
  | draw k ih => exact fun u h0 h1 => ih u (h u h0 h1)

theorem All.bind {P : α → Prop} {Q : β → Prop} {p : Draws K α} {f : α → Draws K β} (h : p.All P)
    (hf : ∀ a, P a → (f a).All Q) : (p.bind f).All Q := by
  induction p with
  | ret a => exact hf a h
  | draw k ih => exact fun u h0 h1 => ih u (h u h0 h1)

theorem All.run {P : α → Prop} {p : Draws K α} (h : p.All P) {us : ℕ → K} (hus : ∀ i, 0 ≤ us i ∧ us i < 1) : P (p.run us) := by
  induction p generalizing us with
  | ret a => exact h
  | draw k ih => exact ih _ (h _ (hus 0).1 (hus 0).2) fun i => hus (i + 1)

theorem all_true (p : Draws K α) : p.All fun _ => True := by
  induction p with
  | ret a => trivial
  | draw k ih => exact fun u _ _ => ih u

/-- Two programs that draw the same numbers and end in results that are related. -/
def Coupled (R : α → β → Prop) : Draws K α → Draws K β → Prop
  | ret a, ret b => R a b
  | draw k, draw l => ∀ u, 0 ≤ u → u < 1 → Coupled R (k u) (l u)
  | _, _ => False

theorem All.coupled {P : α → Prop} {p : Draws K α} (h : p.All P) : Coupled (fun a b => a = b ∧ P a) p p := by
  induction p with
  | ret a => exact ⟨rfl, h⟩
  | draw k ih => exact fun u h0 h1 => ih u (h u h0 h1)

theorem Coupled.mono {R S : α → β → Prop} {p : Draws K α} {q : Draws K β} (h : Coupled R p q) (hRS : ∀ a b, R a b → S a b) :
    Coupled S p q := by
  induction p generalizing q with
  | ret a =>
    cases q with
    | ret b => exact hRS a b h
    | draw l => exact h
  | draw k ih =>
    cases q with
    | ret b => exact h
    | draw l => exact fun u h0 h1 => ih u (h u h0 h1)

theorem Coupled.bind {γ δ : Type} {R : α → β → Prop} {S : γ → δ → Prop} {p : Draws K α} {q : Draws K β} {f : α → Draws K γ}
    {g : β → Draws K δ} (h : Coupled R p q) (hfg : ∀ a b, R a b → Coupled S (f a) (g b)) :
    Coupled S (p.bind f) (q.bind g) := by
  induction p generalizing q with
  | ret a =>
    cases q with
    | ret b => exact hfg a b h
    | draw l => exact absurd h not_false
  | draw k ih =>
    cases q with
    | ret b => exact absurd h not_false
    | draw l => exact fun u h0 h1 => ih u (h u h0 h1)

/-- The same numbers decide in both programs. -/
theorem Coupled.bind_same {γ δ : Type} {P : α → Prop} {S : γ → δ → Prop} {p : Draws K α} {f : α → Draws K γ} {g : α → Draws K δ}
    (h : p.All P) (hfg : ∀ a, P a → Coupled S (f a) (g a)) : Coupled S (p.bind f) (p.bind g) :=
  h.coupled.bind fun a _ hab => hab.1 ▸ hfg a hab.2

theorem Coupled.map_right {γ : Type} {R : α → β → Prop} {S : α → γ → Prop} {p : Draws K α} {q : Draws K β} {f : β → γ}
    (h : Coupled R p q) (hf : ∀ a b, R a b → S a (f b)) : Coupled S p (q.bind fun b => ret (f b)) := by
  rw [← bind_ret p]
  exact h.bind hf

/-- A related result exists. -/
theorem Coupled.all {R : α → β → Prop} {p : Draws K α} {q : Draws K β} (h : Coupled R p q) : p.All fun a => ∃ b, R a b := by
  induction p generalizing q with
  | ret a =>
    cases q with
    | ret b => exact ⟨b, h⟩
    | draw l => exact absurd h not_false
  | draw k ih =>
    cases q with
    | ret b => exact absurd h not_false
    | draw l => exact fun u h0 h1 => ih u (h u h0 h1)

end

/-! ## Means -/

open MeasureTheory Set
open scoped ENNReal

noncomputable section

def mean : Draws ℝ α → (α → ℝ≥0∞) → ℝ≥0∞
  | ret a, f => f a
  | draw k, f => ∫⁻ u in Ico 0 1, (k u).mean f

/-- The probability of a set of results. -/
def prob (p : Draws ℝ α) (s : Set α) : ℝ≥0∞ := p.mean (s.indicator 1)

theorem mean_bind (p : Draws ℝ α) (f : α → Draws ℝ β) (g : β → ℝ≥0∞) : (p.bind f).mean g = p.mean fun a => (f a).mean g := by
  induction p with
  | ret a => rfl
  | draw k ih => exact lintegral_congr fun u => ih u

/-- The results are mapped. -/
theorem mean_map (p : Draws ℝ α) (f : α → β) (g : β → ℝ≥0∞) : (p.bind fun a => ret (f a)).mean g = p.mean fun a => g (f a) :=
  mean_bind p _ g

/-- Only results that can come up matter. -/
theorem mean_congr {P : α → Prop} {p : Draws ℝ α} (h : p.All P) {f g : α → ℝ≥0∞} (hfg : ∀ a, P a → f a = g a) :
    p.mean f = p.mean g := by
  induction p with
  | ret a => exact hfg a h
  | draw k ih => exact setLIntegral_congr_fun measurableSet_Ico fun u hu => ih u (h u hu.1 hu.2)

theorem mean_const (p : Draws ℝ α) (c : ℝ≥0∞) : (p.mean fun _ => c) = c := by
  induction p with
  | ret a => rfl
  | draw k ih =>
    simp only [mean, ih]
    rw [setLIntegral_const, Real.volume_Ico, sub_zero, ENNReal.ofReal_one, mul_one]

theorem prob_of_all {p : Draws ℝ α} {s : Set α} (h : p.All (· ∈ s)) : p.prob s = 1 := by
  rw [prob, mean_congr h (g := fun _ => 1) fun a ha => indicator_of_mem ha 1]
  exact mean_const p 1

theorem prob_of_none {p : Draws ℝ α} {s : Set α} (h : p.All (· ∉ s)) : p.prob s = 0 := by
  rw [prob, mean_congr h (g := fun _ => 0) fun a ha => indicator_of_notMem ha 1]
  exact mean_const p 0

theorem prob_empty (p : Draws ℝ α) : p.prob ∅ = 0 := prob_of_none ((all_true p).mono fun a _ => notMem_empty a)

theorem prob_univ (p : Draws ℝ α) : p.prob univ = 1 := prob_of_all ((all_true p).mono fun a _ => mem_univ a)

theorem Coupled.prob {R : α → β → Prop} {p : Draws ℝ α} {q : Draws ℝ β} (h : Coupled R p q) {s : Set α} {t : Set β}
    (hst : ∀ a b, R a b → (a ∈ s ↔ b ∈ t)) : p.prob s = q.prob t := by
  induction p generalizing q with
  | ret a =>
    cases q with
    | ret b =>
      by_cases hb : b ∈ t
      · exact (indicator_of_mem ((hst a b h).mpr hb) 1).trans (indicator_of_mem hb 1).symm
      · exact (indicator_of_notMem (mt (hst a b h).mp hb) 1).trans (indicator_of_notMem hb 1).symm
    | draw l => exact absurd h not_false
  | draw k ih =>
    cases q with
    | ret b => exact absurd h not_false
    | draw l => exact setLIntegral_congr_fun measurableSet_Ico fun u hu => ih u (h u hu.1 hu.2)

/-- A number that decides between countably many cases. -/
theorem mean_uniform {ι : Type} [MeasurableSpace ι] [MeasurableSingletonClass ι] [Countable ι] {g : ℝ → ι}
    (hg : Measurable g) (f : ι → ℝ≥0∞) :
    ∫⁻ u in Ico 0 1, f (g u) = tsum fun x => f x * volume {u : ℝ | u ∈ Ico 0 1 ∧ g u = x} := by
  have hf : Measurable f := measurable_of_countable f
  rw [← lintegral_map hf hg, lintegral_countable']
  refine tsum_congr fun x => ?_
  rw [Measure.map_apply hg (measurableSet_singleton x), Measure.restrict_apply (hg (measurableSet_singleton x)), inter_comm]
  rfl

/-- A test with a given chance. -/
theorem mean_test {p : ℝ} (h0 : 0 ≤ p) (h1 : p ≤ 1) (f : Bool → ℝ≥0∞) :
    ∫⁻ u in Ico 0 1, f (decide (u ≤ p)) = ENNReal.ofReal p * f true + ENNReal.ofReal (1 - p) * f false := by
  have hg : Measurable fun u : ℝ => decide (u ≤ p) :=
    measurable_to_bool (by
      have hset : Set.preimage (fun u : ℝ => decide (u ≤ p)) {true} = Iic p := by
        ext u
        simp
      rw [hset]
      exact measurableSet_Iic)
  have htrue : volume {u : ℝ | u ∈ Ico 0 1 ∧ decide (u ≤ p) = true} = ENNReal.ofReal p := by
    have hae : {u : ℝ | u ∈ Ico 0 1 ∧ decide (u ≤ p) = true} =ᵐ[volume] {u : ℝ | u ∈ Ioc 0 1 ∧ decide (u ≤ p) = true} :=
      Ico_ae_eq_Ioc.inter (ae_eq_refl {u : ℝ | decide (u ≤ p) = true})
    have hset : {u : ℝ | u ∈ Ioc 0 1 ∧ decide (u ≤ p) = true} = Ioc 0 p := by
      ext u
      simp only [mem_ofPred_eq, mem_Ioc, decide_eq_true_eq]
      constructor
      · exact fun h => ⟨h.1.1, h.2⟩
      · exact fun h => ⟨⟨h.1, h.2.trans h1⟩, h.2⟩
    rw [measure_congr hae, hset, Real.volume_Ioc, sub_zero]
  have hfalse : volume {u : ℝ | u ∈ Ico 0 1 ∧ decide (u ≤ p) = false} = ENNReal.ofReal (1 - p) := by
    have hset : {u : ℝ | u ∈ Ico 0 1 ∧ decide (u ≤ p) = false} = Ioo p 1 := by
      ext u
      simp only [mem_ofPred_eq, mem_Ico, mem_Ioo, decide_eq_false_iff_not, not_le]
      constructor
      · exact fun h => ⟨h.2, h.1.2⟩
      · exact fun h => ⟨⟨h0.trans h.1.le, h.2⟩, h.1⟩
    rw [hset, Real.volume_Ioo]
  rw [mean_uniform hg, tsum_bool, htrue, hfalse, mul_comm (f true), mul_comm (f false), add_comm]

theorem measurable_weights (l : List (ℕ × ℝ)) (last : ℕ) : Measurable fun r : ℝ => WeightedDraw.draw l r last := by
  induction l with
  | nil => exact measurable_const
  | cons p l ih =>
    obtain ⟨i, w⟩ := p
    have hsub : Measurable fun r : ℝ => r - w := measurable_id.sub_const w
    exact Measurable.ite (measurableSet_le hsub measurable_const) measurable_const (ih.comp hsub)

open WeightedDraw in
/-- Drawing from a list of weights. -/
theorem mean_weights {l : List (ℕ × ℝ)} (hpos : ∀ p ∈ l, 0 < p.2) (hne : l ≠ []) (hnodup : (l.map Prod.fst).Nodup)
    (last : ℕ) (f : ℕ → ℝ≥0∞) :
    ∫⁻ u in Ico 0 1, f (WeightedDraw.draw l (u * mass l) last) = tsum fun x => f x * ENNReal.ofReal (weight l x / mass l) := by
  have hg : Measurable fun u : ℝ => WeightedDraw.draw l (u * mass l) last :=
    (measurable_weights l last).comp (measurable_id.mul_const (mass l))
  rw [mean_uniform hg]
  exact tsum_congr fun x => by rw [volume_draw hpos hne hnodup]

end

end Draws
