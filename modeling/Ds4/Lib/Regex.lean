import Mathlib.Algebra.Group.Int.Defs
import Mathlib.Algebra.GroupWithZero.Nat
import Mathlib.Data.List.Basic

/-!
# Regular expressions with backtracking

What a regular expression leaves of a text, in the order in which a backtracking search tries it: the first one is the
match. `findAll` are the matches that are found one behind the other, `isolate` keeps what is between them too.
-/

inductive Regex (α : Type u)
  | empty
  | one (p : α → Bool)
  | seq (r q : Regex α)
  | alt (r q : Regex α)
  | star (r : Regex α)
  | notAhead (r : Regex α)

namespace Regex

variable {α : Type u}

/-- A greedy repetition. A round that takes nothing ends it. -/
def starEnds (f : List α → List (List α)) : Nat → List α → List (List α)
  | 0, s => [s]
  | n + 1, s => ((f s).filter fun t => t.length < s.length).flatMap (starEnds f n) ++ [s]

/-- The rests of a text behind the ways to match its start, the preferred way first. -/
def ends : Regex α → List α → List (List α)
  | .empty, s => [s]
  | .one _, [] => []
  | .one p, a :: s => if p a then [s] else []
  | .seq r q, s => (r.ends s).flatMap q.ends
  | .alt r q, s => r.ends s ++ q.ends s
  | .star r, s => starEnds r.ends s.length s
  | .notAhead r, s => if (r.ends s).isEmpty then [s] else []

/-- The rest behind the match at the start of a text. -/
def first (r : Regex α) (s : List α) : Option (List α) := (r.ends s).head?

def opt (r : Regex α) : Regex α := .alt r .empty

def plus (r : Regex α) : Regex α := .seq r (.star r)

/-- At most `n` times. -/
def upTo : Nat → Regex α → Regex α
  | 0, _ => .empty
  | n + 1, r => .opt (.seq r (upTo n r))

def alts : List (Regex α) → Regex α
  | [] => .one fun _ => false
  | r :: rs => .alt r (alts rs)

/-- The matches one behind the other. A place where none starts is passed over, and so is an empty one. -/
def findAll (r : Regex α) : List α → List (List α)
  | [] => []
  | a :: s =>
    match r.first (a :: s) with
    | some t => if t.length ≤ s.length then (a :: s).take (s.length + 1 - t.length) :: r.findAll t else r.findAll s
    | none => r.findAll s
termination_by s => s.length

/-- The matches and the texts between them; `gap` is what was passed over since the last match. -/
def isolate (r : Regex α) (gap : List α) : List α → List (List α × Bool)
  | [] => if gap.isEmpty then [] else [(gap, false)]
  | a :: s =>
    match r.first (a :: s) with
    | some t =>
      if t.length ≤ s.length then
        (if gap.isEmpty then [] else [(gap, false)]) ++
          ((a :: s).take (s.length + 1 - t.length), true) :: r.isolate [] t
      else r.isolate (gap ++ [a]) s
    | none => r.isolate (gap ++ [a]) s
termination_by s => s.length

section
variable {r q : Regex α} {p q' : α → Bool} {a : α} {s t m : List α} {rs qs : List (Regex α)} {n : Nat}

@[simp] theorem first_empty : first .empty s = some s := rfl

@[simp] theorem first_one_nil : first (.one p) [] = none := rfl

theorem first_one_cons : first (.one p) (a :: s) = if p a then some s else none := by
  rw [first, ends]
  split <;> rfl

theorem first_alt : first (.alt r q) s = (r.first s).or (q.first s) := List.head?_append

theorem first_alts : first (alts rs) s = rs.findSome? fun r => r.first s := by
  induction rs with
  | nil =>
    cases s with
    | nil => rfl
    | cons a s => rfl
  | cons r rs ih =>
    rw [alts, first_alt, ih, List.findSome?_cons]
    cases r.first s <;> rfl

theorem first_alts_append : first (alts (rs ++ qs)) s = (first (alts rs) s).or (first (alts qs) s) := by
  rw [first_alts, first_alts, first_alts, List.findSome?_append]

theorem first_alts_cons : first (alts (r :: rs)) s = (r.first s).or (first (alts rs) s) := first_alt

theorem first_alts_nil : first (alts []) s = none := by
  rw [first_alts, List.findSome?_nil]

/-- Of a sequence the first half is tried in its order until the second half matches. -/
theorem first_seq : first (.seq r q) s = (r.ends s).findSome? q.first := List.head?_flatMap

@[simp] theorem first_seq_one_nil : first (.seq (.one p) q) [] = none := rfl

theorem first_seq_one_cons : first (.seq (.one p) q) (a :: s) = if p a then q.first s else none := by
  rw [first_seq, ends]
  split
  · exact List.findSome?_singleton
  · rfl

theorem first_seq_opt : first (.seq (.opt r) q) s = ((first (.seq r q) s)).or (q.first s) := by
  rw [first_seq, opt, ends, List.findSome?_append, first_seq, ends, List.findSome?_singleton]

theorem first_opt : first (.opt r) s = (r.first s).or (some s) := first_alt

/-! ## Repetitions of one class -/

theorem ends_star_one_nil : ends (.star (.one p)) [] = [[]] := rfl

theorem ends_star_one_cons :
    ends (.star (.one p)) (a :: s) = if p a then ends (.star (.one p)) s ++ [a :: s] else [a :: s] := by
  rw [ends, List.length_cons, starEnds, ends]
  split
  · rw [List.filter_cons_of_pos (by simp), List.filter_nil, List.flatMap_singleton]
    rfl
  · rfl

/-- A greedy repetition gives one character back after the other. -/
theorem first_seq_star_nil : first (.seq (.star (.one p)) q) [] = q.first [] := by
  rw [first_seq, ends_star_one_nil]
  exact List.findSome?_singleton

theorem first_seq_star_cons : first (.seq (.star (.one p)) q) (a :: s) =
    if p a then (first (.seq (.star (.one p)) q) s).or (q.first (a :: s)) else q.first (a :: s) := by
  rw [first_seq, ends_star_one_cons]
  split
  · rw [List.findSome?_append, first_seq, List.findSome?_singleton]
  · exact List.findSome?_singleton

theorem first_star : first (.star (.one p)) s = some (s.dropWhile p) := by
  induction s with
  | nil => rfl
  | cons a s ih =>
    rw [first, ends_star_one_cons, List.dropWhile_cons]
    split
    · rw [List.head?_append, ← first, ih]
      rfl
    · rfl

@[simp] theorem first_plus_nil : first (.plus (.one p)) [] = none := rfl

theorem first_plus_cons : first (.plus (.one p)) (a :: s) = if p a then some (s.dropWhile p) else none := by
  rw [plus, first_seq_one_cons, first_star]

theorem first_plus : first (.plus (.one p)) s = if s.head?.any p then some (s.dropWhile p) else none := by
  cases s with
  | nil => rfl
  | cons a s =>
    rw [first_plus_cons, List.head?_cons, Option.any_some, List.dropWhile_cons]
    split <;> rfl

/-- What always matches does not make the first half go back. -/
theorem first_seq_total {g : List α → List α} (h : ∀ s, q.first s = some (g s)) :
    first (.seq r q) s = (r.first s).map g := by
  rw [first_seq, first, funext h]
  cases r.ends s <;> rfl

theorem first_seq_plus_nil : first (.seq (.plus (.one p)) q) [] = none := rfl

theorem first_seq_plus_cons : first (.seq (.plus (.one p)) q) (a :: s) =
    if p a then first (.seq (.star (.one p)) q) s else none := by
  rw [first_seq, plus, ends, ends]
  split
  · rw [List.flatMap_singleton, first_seq]
  · rfl

theorem first_upTo : first (.upTo n (.one p)) s = some (s.drop ((s.take n).takeWhile p).length) := by
  induction n generalizing s with
  | zero => rw [upTo, List.take_zero]; rfl
  | succ n ih =>
    rw [upTo, first_opt]
    cases s with
    | nil => rfl
    | cons a s =>
      rw [first_seq_one_cons, ih, List.take_succ_cons, List.takeWhile_cons]
      split <;> rfl

theorem first_notAhead : first (.notAhead (.one p)) s = if (s.head?.any p) then none else some s := by
  cases s with
  | nil => rfl
  | cons a s =>
    rw [first, ends, ends, List.head?_cons, Option.any_some]
    split <;> rfl

/-- White space up to its last newline: with `q` inside `p` each character is given back in turn. -/
theorem first_star_plus_cons (hq : q' a = true → p a = true) :
    first (.seq (.star (.one p)) (.plus (.one q'))) (a :: s) =
      if p a then (first (.seq (.star (.one p)) (.plus (.one q'))) s).or (if q' a then some (s.dropWhile q') else none)
      else none := by
  rw [first_seq_star_cons, first_plus_cons]
  split
  · rfl
  · next h => exact if_neg fun hn => h (hq hn)

/-- A repetition that nothing outside of it may follow. -/
theorem first_star_notAhead_cons :
    first (.seq (.star (.one p)) (.notAhead (.one fun a => !p a))) (a :: s) =
      if p a then (first (.seq (.star (.one p)) (.notAhead (.one fun a => !p a))) s).or (some (a :: s)) else none := by
  rw [first_seq_star_cons, first_notAhead, List.head?_cons, Option.any_some]
  split
  · next h => rw [h, Bool.not_true, if_neg Bool.false_ne_true]
  · next h => rw [Bool.eq_false_iff.mpr h, Bool.not_false, if_pos rfl]

/-! ## Matches -/

@[simp] theorem findAll_nil : r.findAll [] = [] := by rw [findAll]

theorem findAll_append (hm : m ≠ []) (h : r.first (m ++ t) = some t) : r.findAll (m ++ t) = m :: r.findAll t := by
  obtain ⟨a, m, rfl⟩ := List.exists_cons_of_ne_nil hm
  rw [List.cons_append, findAll, ← List.cons_append, h]
  dsimp only
  rw [if_pos (by rw [List.length_append]; omega), List.length_append,
    show m.length + t.length + 1 - t.length = (a :: m).length by rw [List.length_cons]; omega, List.take_left]

theorem starEnds_suffix {f : List α → List (List α)} (hf : ∀ s, ∀ t ∈ f s, t <:+ s) (n : Nat) (s : List α) :
    ∀ t ∈ starEnds f n s, t <:+ s := by
  induction n generalizing s with
  | zero =>
    intro t ht
    obtain rfl := List.mem_singleton.mp ht
    exact List.suffix_rfl
  | succ n ih =>
    intro t ht
    rw [starEnds, List.mem_append, List.mem_flatMap] at ht
    obtain ⟨u, hu, ht⟩ | ht := ht
    · exact (ih u t ht).trans (hf s u (List.mem_filter.mp hu).1)
    · obtain rfl := List.mem_singleton.mp ht
      exact List.suffix_rfl

/-- A match leaves an end of the text. -/
theorem ends_suffix (r : Regex α) (s : List α) : ∀ t ∈ r.ends s, t <:+ s := by
  induction r generalizing s with
  | empty =>
    intro t ht
    obtain rfl := List.mem_singleton.mp ht
    exact List.suffix_rfl
  | one p =>
    intro t ht
    cases s with
    | nil => cases ht
    | cons a s =>
      rw [ends] at ht
      split at ht
      · obtain rfl := List.mem_singleton.mp ht
        exact List.suffix_cons a t
      · cases ht
  | seq r q ihr ihq =>
    intro t ht
    obtain ⟨u, hu, ht⟩ := List.mem_flatMap.mp ht
    exact (ihq u t ht).trans (ihr s u hu)
  | alt r q ihr ihq =>
    intro t ht
    exact (List.mem_append.mp ht).elim (ihr s t) (ihq s t)
  | star r ih => exact starEnds_suffix ih _ s
  | notAhead r =>
    intro t ht
    rw [ends] at ht
    split at ht
    · obtain rfl := List.mem_singleton.mp ht
      exact List.suffix_rfl
    · cases ht

theorem first_suffix (h : r.first s = some t) : t <:+ s := ends_suffix r s t (List.mem_of_head? h)

/-- The matches lie in the text one behind the other. -/
theorem findAll_sublist (r : Regex α) (s : List α) : (r.findAll s).flatten.Sublist s := by
  fun_induction findAll r s with
  | case1 => exact .slnil
  | case2 a s t ht hlen ih =>
    obtain ⟨m, hm⟩ := first_suffix ht
    have hcut : (a :: s).take (s.length + 1 - t.length) = m := by
      have hl := congrArg List.length hm
      rw [List.length_append, List.length_cons] at hl
      rw [← hm, show s.length + 1 - t.length = m.length by omega, List.take_left]
    rw [hcut, List.flatten_cons, ← hm]
    exact ih.append_left m
  | case3 a s t ht hlen ih => exact ih.cons a
  | case4 a s ht ih => exact ih.cons a

/-! ## Isolation -/

/-- The matches of `r` isolated, what is between them split by `f`. -/
def splitBy (r : Regex α) (f : List α → List (List α)) (s : List α) : List (List α) :=
  (r.isolate [] s).flatMap fun p => if p.2 then [p.1] else f p.1

section
variable {f : List α → List (List α)} {x v gap : List α}

theorem isolate_nil : r.isolate gap [] = if gap.isEmpty then [] else [(gap, false)] := by rw [isolate]

theorem isolate_match (hm : m ≠ []) (h : r.first (m ++ t) = some t) :
    r.isolate gap (m ++ t) = (if gap.isEmpty then [] else [(gap, false)]) ++ (m, true) :: r.isolate [] t := by
  obtain ⟨a, m, rfl⟩ := List.exists_cons_of_ne_nil hm
  rw [List.cons_append, isolate, ← List.cons_append, h]
  dsimp only
  rw [if_pos (by rw [List.length_append]; omega), List.length_append,
    show m.length + t.length + 1 - t.length = (a :: m).length by rw [List.length_cons]; omega, List.take_left]

/-- What no match starts at joins the gap. -/
theorem isolate_skip (h : ∀ a ∈ x, ∀ s, r.first (a :: s) = none) :
    r.isolate gap (x ++ v) = r.isolate (gap ++ x) v := by
  induction x generalizing gap with
  | nil => rw [List.nil_append, List.append_nil]
  | cons a x ih =>
    rw [List.cons_append, isolate, h a List.mem_cons_self, ih fun b hb => h b (List.mem_cons_of_mem _ hb),
      List.append_assoc]
    rfl

theorem splitBy_nil : splitBy r f [] = [] := by
  rw [splitBy, isolate_nil]
  rfl

theorem splitBy_match (hm : m ≠ []) (h : r.first (m ++ t) = some t) : splitBy r f (m ++ t) = m :: splitBy r f t := by
  rw [splitBy, isolate_match hm h]
  rfl

/-- A gap in front of a match is split on its own. -/
theorem splitBy_gap (hf : f [] = []) (hx : ∀ a ∈ x, ∀ s, r.first (a :: s) = none)
    (hv : v = [] ∨ ∃ m t, v = m ++ t ∧ m ≠ [] ∧ r.first (m ++ t) = some t) :
    splitBy r f (x ++ v) = f x ++ splitBy r f v := by
  have hgap : (if x.isEmpty then [] else [(x, false)]).flatMap (fun p : List α × Bool => if p.2 then [p.1] else f p.1) =
      f x := by
    cases x with
    | nil => exact hf.symm
    | cons a x => exact List.append_nil _
  rw [splitBy, isolate_skip hx, List.nil_append]
  obtain rfl | ⟨m, t, rfl, hm, h⟩ := hv
  · rw [isolate_nil, splitBy_nil, List.append_nil, hgap]
  · rw [isolate_match hm h, List.flatMap_append, hgap, splitBy_match hm h]
    rfl

end
end
end Regex
