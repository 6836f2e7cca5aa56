import Mathlib.Algebra.Group.Int.Defs
import Mathlib.Algebra.GroupWithZero.Nat
import Mathlib.Data.List.Basic
import Mathlib.Data.List.Infix

/-!
# First occurrences in lists

`Scan.find pat s` is the position of the first occurrence of `pat` in `s`. A pattern is *sharp*
when its first symbol does not occur again in it, so two occurrences of sharp patterns with the
same first symbol are either equal or disjoint. Most lemmas say how a search behaves on an
appended text; they are what a scanner that reads its input in pieces relies on.
-/

namespace Scan

variable {α : Type*} [DecidableEq α] {pat s t u : List α} {c : α} {i j : Nat}

/-- Position of the first occurrence of `pat`. -/
def find (pat : List α) : List α → Option Nat
  | [] => if pat = [] then some 0 else none
  | c :: s => if pat <+: c :: s then some 0 else (find pat s).map (· + 1)

theorem find_eq_some_iff :
    find pat s = some i ↔ pat <+: s.drop i ∧ ∀ j < i, ¬ pat <+: s.drop j := by
  induction s generalizing i with
  | nil =>
    simp only [find, List.drop_nil, List.prefix_nil]
    split
    · next h =>
      simp only [Option.some.injEq, h, true_and, not_true_eq_false, imp_false, Nat.not_lt]
      exact ⟨fun h => by omega, fun h => by have := h 0; omega⟩
    · next h => simp [h]
  | cons c s ih =>
    rw [find]
    split
    · next h =>
      simp only [Option.some.injEq]
      constructor
      · rintro rfl
        exact ⟨h, fun _ h => absurd h (Nat.not_lt_zero _)⟩
      · intro ⟨_, h2⟩
        rcases Nat.eq_zero_or_pos i with rfl | hi
        · rfl
        · exact absurd h (h2 0 hi)
    · next h =>
      simp only [Option.map_eq_some_iff]
      constructor
      · rintro ⟨k, hk, rfl⟩
        obtain ⟨h1, h2⟩ := ih.1 hk
        refine ⟨h1, fun j hj => ?_⟩
        cases j with
        | zero => exact h
        | succ j => exact h2 j (by omega)
      · intro ⟨h1, h2⟩
        cases i with
        | zero => exact absurd h1 h
        | succ i => exact ⟨i, ih.2 ⟨h1, fun j hj => h2 (j + 1) (by omega)⟩, rfl⟩

theorem find_eq_none_iff : find pat s = none ↔ ∀ j, ¬ pat <+: s.drop j := by
  induction s with
  | nil => simp [find]
  | cons c s ih =>
    rw [find]
    split
    · next h => exact ⟨(fun h => nomatch h), fun H => absurd h (H 0)⟩
    · next h =>
      simp only [Option.map_eq_none_iff, ih]
      constructor
      · intro H j
        cases j with
        | zero => exact h
        | succ j => exact H j
      · exact fun H j => H (j + 1)

theorem find_eq_none_iff_absent : find pat s = none ↔ ¬ pat <:+: s := by
  rw [find_eq_none_iff]
  constructor
  · rintro H ⟨a, b, rfl⟩
    exact H a.length ⟨b, by simp⟩
  · rintro H j ⟨b, hb⟩
    exact H ⟨s.take j, b, by rw [List.append_assoc, hb, List.take_append_drop]⟩

theorem find_isSome_iff : (find pat s).isSome ↔ pat <:+: s := by
  rw [← not_iff_not, ← find_eq_none_iff_absent]
  cases find pat s <;> simp

/-- The text before, at and after the first occurrence. -/
theorem find_split (h : find pat s = some i) :
    ∃ b, s = s.take i ++ pat ++ b ∧ s.drop (i + pat.length) = b ∧ i + pat.length ≤ s.length := by
  obtain ⟨⟨b, hb⟩, -⟩ := find_eq_some_iff.1 h
  refine ⟨b, ?_, ?_, ?_⟩
  · rw [List.append_assoc, hb, List.take_append_drop]
  · rw [← List.drop_drop, ← hb, List.drop_left]
  · have hl := congrArg List.length hb
    simp only [List.length_append, List.length_drop] at hl
    rcases Nat.lt_or_ge s.length i with hi | hi
    · have hn : ¬ pat <+: s.drop s.length := (find_eq_some_iff.1 h).2 _ hi
      rw [List.drop_of_length_le (Nat.le_of_lt hi)] at hb
      simp only [List.append_eq_nil_iff] at hb
      rw [hb.1] at hn
      exact absurd List.nil_prefix hn
    · omega

theorem find_le (h : find pat s = some i) : i + pat.length ≤ s.length :=
  let ⟨_, _, _, h⟩ := find_split h; h

theorem find_prefix (h : pat <+: s) : find pat s = some 0 :=
  find_eq_some_iff.2 ⟨h, fun _ h => absurd h (Nat.not_lt_zero _)⟩

/-- A prefix of a text that ends after the first occurrence contains it. -/
theorem find_append_of_some (h : find pat s = some i) : find pat (s ++ t) = some i := by
  have hle := find_le h
  obtain ⟨h1, h2⟩ := find_eq_some_iff.1 h
  refine find_eq_some_iff.2 ⟨?_, fun j hj hp => h2 j hj ?_⟩
  · rw [List.drop_append_of_le_length (by omega)]
    exact h1.trans (List.prefix_append _ _)
  · rw [List.drop_append_of_le_length (by omega)] at hp
    refine List.prefix_of_prefix_length_le hp (List.prefix_append _ _) ?_
    simp only [List.length_drop]; omega

theorem find_mono (hst : s <+: t) (h : find pat s = some i) : find pat t = some i := by
  obtain ⟨u, rfl⟩ := hst
  exact find_append_of_some h

/-- An occurrence that fits in a prefix is found there. -/
theorem find_prefix_of_le (hst : s <+: t) (h : find pat t = some i)
    (hi : i + pat.length ≤ s.length) : find pat s = some i := by
  obtain ⟨u, rfl⟩ := hst
  obtain ⟨h1, h2⟩ := find_eq_some_iff.1 h
  have hd : ∀ j ≤ i, (s ++ u).drop j = s.drop j ++ u := fun j hj =>
    List.drop_append_of_le_length (by omega)
  refine find_eq_some_iff.2 ⟨?_, fun j hj hp => h2 j hj ?_⟩
  · rw [hd i le_rfl] at h1
    refine List.prefix_of_prefix_length_le h1 (List.prefix_append _ _) ?_
    simp only [List.length_drop]; omega
  · rw [hd j hj.le]
    exact hp.trans (List.prefix_append _ _)

theorem find_drop (h : find pat s = some i) (hj : j ≤ i) : find pat (s.drop j) = some (i - j) := by
  obtain ⟨h1, h2⟩ := find_eq_some_iff.1 h
  refine find_eq_some_iff.2 ⟨?_, fun k hk => ?_⟩
  · rwa [List.drop_drop, Nat.add_sub_cancel' hj]
  · rw [List.drop_drop]; exact h2 _ (by omega)

theorem find_drop_none (h : find pat s = none) : find pat (s.drop j) = none := by
  refine find_eq_none_iff.2 fun k => ?_
  rw [List.drop_drop]
  exact find_eq_none_iff.1 h _

theorem find_prefix_none (hst : s <+: t) (h : find pat t = none) : find pat s = none := by
  cases hs : find pat s with
  | none => rfl
  | some i => rw [find_mono hst hs] at h; cases h

/-- Symbols other than the first symbol of the pattern are skipped. -/
theorem find_append_of_not_mem (hc : c ∉ s) :
    find (c :: pat) (s ++ t) = (find (c :: pat) t).map (s.length + ·) := by
  induction s with
  | nil => simp
  | cons d s ih =>
    have hne : ¬ c :: pat <+: d :: (s ++ t) := by
      rintro ⟨u, hu⟩
      simp only [List.cons_append, List.cons.injEq] at hu
      exact hc (by simp [hu.1])
    rw [List.cons_append, find, if_neg hne, ih (fun h => hc (List.mem_cons_of_mem _ h))]
    cases find (c :: pat) t <;> simp; omega

/-! ## Closed patterns -/

section Closed
variable {w : List α}

omit [DecidableEq α] in
/-- Two words up to the same first end symbol. -/
theorem snoc_prefix_iff (hw : c ∉ w) (hs : c ∉ s) : w ++ [c] <+: s ++ c :: t ↔ w = s := by
  constructor
  · intro h
    induction w generalizing s with
    | nil =>
      cases s with
      | nil => rfl
      | cons d s => exact absurd (List.cons_prefix_cons.1 h).1 (fun hd => hs (by simp [hd]))
    | cons a w ih =>
      cases s with
      | nil => exact absurd (List.cons_prefix_cons.1 h).1 (fun ha => hw (by simp [ha]))
      | cons d s =>
        obtain ⟨rfl, ht⟩ := List.cons_prefix_cons.1 h
        rw [ih (fun h => hw (List.mem_cons_of_mem _ h)) (fun h => hs (List.mem_cons_of_mem _ h)) ht]
  · rintro rfl
    exact ⟨t, by simp⟩

/-- A pattern that its last symbol closes is found at the first such symbol or behind it. -/
theorem find_snoc (hw : c ∉ w) (hs : c ∉ s) : find (w ++ [c]) (s ++ c :: t) =
    if w <:+ s then some (s.length - w.length)
    else (find (w ++ [c]) t).map (s.length + 1 + ·) := by
  induction s with
  | nil =>
    rw [List.nil_append, find]
    cases w with
    | nil => simp
    | cons a w =>
      have hne : ¬ a :: w ++ [c] <+: c :: t := fun h =>
        hw (by simp [(List.cons_prefix_cons.1 h).1])
      rw [if_neg hne, if_neg (by simp)]
      simp [Nat.add_comm]
  | cons d s ih =>
    have hpre := snoc_prefix_iff (t := t) hw hs
    rw [List.cons_append] at hpre ⊢
    rw [find, ih fun h => hs (List.mem_cons_of_mem _ h)]
    by_cases hwd : w = d :: s
    · rw [if_pos (hpre.2 hwd), if_pos (hwd ▸ List.suffix_refl _), hwd]
      simp
    · rw [if_neg (mt hpre.1 hwd)]
      have hsuf : w <:+ d :: s ↔ w <:+ s := by
        rw [List.suffix_cons_iff]
        exact or_iff_right hwd
      by_cases h : w <:+ s
      · have := h.length_le
        rw [if_pos h, if_pos (hsuf.2 h)]
        simp; omega
      · rw [if_neg h, if_neg (mt hsuf.1 h), Option.map_map]
        congr 1
        funext k
        simp; omega

omit [DecidableEq α] in
/-- What a pattern finds in front of a symbol that it does not have is complete. -/
theorem prefix_left_of_notMem (hc : c ∉ pat) (h : pat <+: s ++ c :: t) : pat <+: s := by
  refine List.prefix_of_prefix_length_le h (List.prefix_append s (c :: t)) (Nat.le_of_not_lt fun hlt => ?_)
  have hp : s ++ [c] <+: pat := by
    refine List.prefix_of_prefix_length_le ⟨t, by rw [List.append_assoc]; rfl⟩ h ?_
    rw [List.length_append, List.length_singleton]
    exact hlt
  exact hc (hp.subset (List.mem_append_right s (List.mem_singleton_self c)))

theorem find_single (hs : c ∉ s) : find [c] (s ++ c :: t) = some s.length := by
  simpa using find_snoc (w := []) (t := t) (List.not_mem_nil) hs

end Closed

/-! ## Sharp patterns -/

/-- The first symbol of the pattern does not occur again in it. -/
def Sharp (c : α) (pat : List α) : Prop := ∃ tl, pat = c :: tl ∧ c ∉ tl

instance (c : α) (pat : List α) : Decidable (Sharp c pat) :=
  match pat with
  | [] => isFalse fun ⟨_, h, _⟩ => nomatch h
  | d :: tl => if h : d = c ∧ c ∉ tl then isTrue ⟨tl, by rw [h.1], h.2⟩
    else isFalse fun ⟨tl', h', hc⟩ => by
      simp only [List.cons.injEq] at h'
      exact h ⟨h'.1, h'.2 ▸ hc⟩

omit [DecidableEq α] in
theorem Sharp.ne_nil (h : Sharp c pat) : pat ≠ [] := by
  obtain ⟨_, rfl, _⟩ := h; simp

omit [DecidableEq α] in
/-- A sharp pattern that begins in `s` and runs into a text starting with its own first symbol
ends inside `s`. -/
theorem Sharp.prefix_left (h : Sharp c pat) (hs : s ≠ []) (hp : pat <+: s ++ c :: t) :
    pat <+: s := by
  obtain ⟨tl, rfl, hc⟩ := h
  rcases Nat.lt_or_ge s.length (c :: tl).length with hl | hl
  · exfalso
    obtain ⟨d, s, rfl⟩ := List.exists_cons_of_ne_nil hs
    obtain ⟨u, hu⟩ := hp
    simp only [List.cons_append, List.cons.injEq] at hu
    obtain ⟨k, hk⟩ : ∃ k, s.length + k + 1 = tl.length := by
      simp only [List.length_cons] at hl; exact ⟨tl.length - s.length - 1, by omega⟩
    have := congrArg (·[s.length]?) hu.2
    simp only [List.getElem?_append_right (Nat.le_refl _), Nat.sub_self, List.getElem?_cons_zero,
      List.getElem?_append_left (show s.length < tl.length by omega)] at this
    exact hc (List.mem_of_getElem? this)
  · exact List.prefix_of_prefix_length_le hp (List.prefix_append _ _) hl

/-- No occurrence of a sharp pattern crosses into a text starting with its first symbol. -/
theorem Sharp.find_append (h : Sharp c pat) (hn : find pat s = none) :
    find pat (s ++ c :: t) = (find pat (c :: t)).map (s.length + ·) := by
  induction s with
  | nil => simp
  | cons d s ih =>
    rw [find] at hn
    split at hn
    · cases hn
    · next hd =>
      rw [Option.map_eq_none_iff] at hn
      have hne : ¬ pat <+: d :: (s ++ c :: t) := fun hp => hd (h.prefix_left (by simp) hp)
      rw [List.cons_append, find, if_neg hne, ih hn]
      cases find pat (c :: t) <;> simp; omega

/-- The first occurrence after a text without one. -/
theorem Sharp.find_at (h : Sharp c pat) (hn : find pat s = none) :
    find pat (s ++ pat ++ t) = some s.length := by
  obtain ⟨tl, rfl, hc⟩ := id h
  rw [List.append_assoc, List.cons_append, h.find_append hn,
    find_prefix (by rw [← List.cons_append]; exact List.prefix_append _ _)]
  simp

omit [DecidableEq α] in
/-- A sharp pattern is not found before its first symbol is. -/
theorem Sharp.le_of_notMem (h : Sharp c pat) (hs : c ∉ s) (hp : pat <+: (s ++ t).drop i) :
    s.length ≤ i := by
  by_contra hlt
  obtain ⟨tl, rfl, -⟩ := h
  rw [List.drop_append_of_le_length (by omega)] at hp
  obtain ⟨u, hu⟩ := hp
  have hne : s.drop i ≠ [] := by
    rw [ne_eq, List.drop_eq_nil_iff]
    omega
  obtain ⟨d, r, hd⟩ := List.exists_cons_of_ne_nil hne
  rw [hd, List.cons_append, List.cons_append, List.cons.injEq] at hu
  apply hs
  apply List.mem_of_mem_drop (i := i)
  rw [hd, hu.1]
  exact List.mem_cons_self

omit [DecidableEq α] in
/-- Two occurrences of sharp patterns are at the same place or disjoint. -/
theorem Sharp.disjoint {v w : List α} (hv : Sharp c v) (hw : Sharp c w) (hi : v <+: s.drop i)
    (hj : w <+: s.drop j) : i = j ∨ i + v.length ≤ j ∨ j + w.length ≤ i := by
  have aux : ∀ {v w : List α} {i j}, Sharp c v → Sharp c w → v <+: s.drop i → w <+: s.drop j →
      i < j → i + v.length ≤ j := by
    intro v w i j ⟨tl, hv, hc⟩ ⟨tl', hw, _⟩ hi ⟨u, hj⟩ hij
    by_contra hlt
    have hd : s[j]? = some c := by
      have := congrArg List.head? hj
      rw [hw, List.head?_drop] at this
      exact this.symm
    obtain ⟨u', hi⟩ := hi
    have hg := congrArg (·[j - i]?) hi
    simp only [List.getElem?_drop, show i + (j - i) = j by omega, hd] at hg
    rw [List.getElem?_append_left (by omega), hv, show j - i = (j - i - 1) + 1 by omega,
      List.getElem?_cons_succ] at hg
    exact hc (List.mem_of_getElem? hg)
  rcases Nat.lt_trichotomy i j with h | h | h
  · exact .inr (.inl (aux hv hw hi hj h))
  · exact .inl h
  · exact .inr (.inr (aux hw hv hj hi h))

/-! ## Several patterns -/

section FindAny

variable {β : Type*} {key : β → List α} {l : List β} {x : β}

/-- The earlier of two occurrences, the first one on a tie. -/
def better : Option (Nat × β) → Option (Nat × β) → Option (Nat × β)
  | best, none => best
  | none, c => c
  | some b, some c => if c.1 < b.1 then some c else some b

/-- The earliest occurrence of a pattern of the list. -/
def findAny (key : β → List α) (l : List β) (s : List α) : Option (Nat × β) :=
  l.foldl (fun best x => better best ((find (key x) s).map (·, x))) none

theorem better_eq_none {a b : Option (Nat × β)} : better a b = none ↔ a = none ∧ b = none := by
  cases a <;> cases b <;> simp only [better, true_and, and_true, reduceCtorEq, and_self]
  split <;> simp

theorem better_eq_some {a b : Option (Nat × β)} {r : Nat × β} (h : better a b = some r) :
    (a = some r ∨ b = some r) ∧ (∀ x, a = some x → r.1 ≤ x.1) ∧ ∀ x, b = some x → r.1 ≤ x.1 := by
  cases a with
  | none =>
    cases b with
    | none => cases h
    | some b => cases h; exact ⟨.inr rfl, fun _ h => (nomatch h), fun _ h => by cases h; rfl⟩
  | some a =>
    cases b with
    | none => cases h; exact ⟨.inl rfl, fun _ h => by cases h; rfl, fun _ h => nomatch h⟩
    | some b =>
      rw [better] at h
      split at h
      · next hlt =>
        cases h
        exact ⟨.inr rfl, fun _ h => by cases h; omega, fun _ h => by cases h; rfl⟩
      · next hlt =>
        cases h
        exact ⟨.inl rfl, fun _ h => by cases h; rfl, fun _ h => by cases h; omega⟩

theorem foldl_better_none {f : β → Option (Nat × β)} {best : Option (Nat × β)} :
    l.foldl (fun best x => better best (f x)) best = none ↔ best = none ∧ ∀ x ∈ l, f x = none := by
  induction l generalizing best with
  | nil => simp
  | cons y l ih => simp only [List.foldl_cons, ih, better_eq_none, List.forall_mem_cons, and_assoc]

theorem foldl_better_some {f : β → Option (Nat × β)} {best : Option (Nat × β)} {r : Nat × β}
    (h : l.foldl (fun best x => better best (f x)) best = some r) :
    (best = some r ∨ ∃ x ∈ l, f x = some r) ∧ (∀ b, best = some b → r.1 ≤ b.1) ∧
      ∀ y ∈ l, ∀ b, f y = some b → r.1 ≤ b.1 := by
  induction l generalizing best with
  | nil => exact ⟨.inl h, fun _ hb => by rw [hb] at h; cases h; rfl, fun _ h => nomatch h⟩
  | cons y l ih =>
    obtain ⟨h1, h2, h3⟩ := ih h
    -- the accumulator after `y` is no later than what was there and what `y` adds
    have hy : ∀ x, best = some x ∨ f y = some x → r.1 ≤ x.1 := by
      intro x hx
      cases hc : better best (f y) with
      | none => rw [better_eq_none] at hc; simp [hc] at hx
      | some c =>
        have hcx : c.1 ≤ x.1 := hx.elim ((better_eq_some hc).2.1 x) ((better_eq_some hc).2.2 x)
        exact (h2 c hc).trans hcx
    refine ⟨?_, fun b hb => hy b (.inl hb), ?_⟩
    · rcases h1 with h1 | ⟨x, hx, h1⟩
      · exact (better_eq_some h1).1.imp_right fun h => ⟨y, List.mem_cons_self, h⟩
      · exact .inr ⟨x, List.mem_cons_of_mem _ hx, h1⟩
    · rintro z (_ | ⟨_, hz⟩) b hb
      · exact hy b (.inr hb)
      · exact h3 z hz b hb

theorem findAny_eq_none_iff : findAny key l s = none ↔ ∀ x ∈ l, find (key x) s = none := by
  simp [findAny, foldl_better_none]

theorem findAny_some (h : findAny key l s = some (i, x)) : x ∈ l ∧ find (key x) s = some i ∧
    ∀ y ∈ l, ∀ j, find (key y) s = some j → i ≤ j := by
  obtain ⟨h1, -, h2⟩ := foldl_better_some h
  refine ⟨?_, ?_, fun y hy j hj => h2 y hy (j, y) (by rw [hj]; rfl)⟩
  all_goals
    obtain ⟨y, hy, he⟩ := h1.resolve_left (fun h => nomatch h)
    obtain ⟨k, hk, he⟩ := Option.map_eq_some_iff.1 he
    cases he
  · exact hy
  · exact hk

/-- When no pattern is a prefix of another one, the earliest occurrence determines the pattern. -/
theorem findAny_eq_some_iff (hfree : ∀ x ∈ l, ∀ y ∈ l, key x <+: key y → x = y) :
    findAny key l s = some (i, x) ↔
      x ∈ l ∧ key x <+: s.drop i ∧ ∀ y ∈ l, ∀ j < i, ¬ key y <+: s.drop j := by
  constructor
  · intro h
    obtain ⟨hx, hi, hl⟩ := findAny_some h
    refine ⟨hx, (find_eq_some_iff.1 hi).1, fun y hy j hj hp => ?_⟩
    cases hf : find (key y) s with
    | none => exact find_eq_none_iff.1 hf j hp
    | some k =>
      have := hl y hy k hf
      exact (find_eq_some_iff.1 hf).2 j (by omega) hp
  · rintro ⟨hx, hp, hl⟩
    have hi : find (key x) s = some i := find_eq_some_iff.2 ⟨hp, fun j hj => hl x hx j hj⟩
    cases hr : findAny key l s with
    | none => rw [findAny_eq_none_iff.1 hr x hx] at hi; cases hi
    | some r =>
      obtain ⟨k, y⟩ := r
      obtain ⟨hy, hk, hmin⟩ := findAny_some hr
      have hki := hmin x hx i hi
      have hpk := (find_eq_some_iff.1 hk).1
      have : ¬ k < i := fun hlt => hl y hy k hlt hpk
      obtain rfl : k = i := by omega
      rcases List.prefix_or_prefix_of_prefix hp hpk with h | h
      · rw [hfree x hx y hy h]
      · rw [hfree y hy x hx h]

/-- Sharp patterns with one first symbol are found in a longer text where a prefix has them. -/
theorem findAny_mono (hsharp : ∀ x ∈ l, Sharp c (key x))
    (hfree : ∀ x ∈ l, ∀ y ∈ l, key x <+: key y → x = y) (hst : s <+: t)
    (h : findAny key l s = some (i, x)) : findAny key l t = some (i, x) := by
  have hle := find_le (findAny_some h).2.1
  rw [findAny_eq_some_iff hfree] at h ⊢
  obtain ⟨hx, hp, hl⟩ := h
  obtain ⟨u, rfl⟩ := hst
  have hd : ∀ j ≤ i, (s ++ u).drop j = s.drop j ++ u := fun j hj =>
    List.drop_append_of_le_length (by omega)
  refine ⟨hx, ?_, fun y hy j hj hy' => hl y hy j hj ?_⟩
  · rw [hd i le_rfl]
    exact hp.trans (List.prefix_append _ _)
  · -- the occurrence of `y` ends before the one of `x` begins, since both are sharp
    obtain ⟨tl, hxe, -⟩ := hsharp x hx
    obtain ⟨v, hv⟩ := hp
    have hsplit : (s ++ u).drop j = (s.drop j).take (i - j) ++ c :: (tl ++ v ++ u) := by
      have hdd : (s.drop j).drop (i - j) = s.drop i := by rw [List.drop_drop]; congr 1; omega
      conv_lhs => rw [hd j hj.le, ← List.take_append_drop (i - j) (s.drop j), hdd, ← hv, hxe]
      simp
    rw [hsplit] at hy'
    have hne : (s.drop j).take (i - j) ≠ [] := by
      intro h0
      have := congrArg List.length h0
      simp only [List.length_take, List.length_drop, List.length_nil] at this
      omega
    exact ((hsharp y hy).prefix_left hne hy').trans (List.take_prefix _ _)

/-- A search that starts no later than the earliest occurrence finds it. -/
theorem findAny_drop (h : findAny key l s = some (i, x)) (hj : j ≤ i)
    (hfree : ∀ x ∈ l, ∀ y ∈ l, key x <+: key y → x = y) :
    findAny key l (s.drop j) = some (i - j, x) := by
  rw [findAny_eq_some_iff hfree] at h ⊢
  obtain ⟨hx, hp, hl⟩ := h
  refine ⟨hx, ?_, fun y hy k hk => ?_⟩
  · rwa [List.drop_drop, Nat.add_sub_cancel' hj]
  · rw [List.drop_drop]
    exact hl y hy _ (by omega)

end FindAny

end Scan
