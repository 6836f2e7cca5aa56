import Ds4.Tokenizer.JoyaiStep

/-!
# The JoyAI pattern

The staged split that the comments of the DeepSeek pre-tokenizer describe: digits are isolated, then CJK and kana, and
what is left is cut by the pattern. Where a rule of the scan sees no CJK or kana character its piece is the next match.
-/

namespace Ds4.Tokenizer.Joyai
open C Regex

/-- `\p{N}{1,3}` -/
def digitRuns : Regex Char := .seq (.one digit) (upTo 2 (.one digit))

def cjkRuns : Regex Char := plus (.one cjk)

/-- `[P/S][A-Za-z]+` -/
def punctWord : Regex Char := .seq (.one punct) (plus (.one alpha))

/-- `[^\r\n\p{L}\p{P}\p{S}]?[\p{L}\p{M}]+` -/
def letterRun : Regex Char :=
  .seq (opt (.one fun c => !(newline c || letter c || punct c))) (plus (.one letter))

/-- ` ?[\p{P}\p{S}]+[\r\n]*` -/
def punctRun : Regex Char := .seq (opt (.one (· == ' '))) (.seq (plus (.one punct)) (.star (.one newline)))

/-- `\s*[\r\n]+` -/
def newlineEnd : Regex Char := .seq (.star (.one space)) (plus (.one newline))

/-- `\s+(?!\S)` -/
def spaceEnd : Regex Char := .seq (plus (.one space)) (.notAhead (.one fun c => !space c))

/-- `\s+` -/
def spaceRun : Regex Char := plus (.one space)

def pattern : Regex Char := alts [punctWord, letterRun, punctRun, newlineEnd, spaceEnd, spaceRun]

def split (cs : List Char) : List (List Char) := splitBy digitRuns (splitBy cjkRuns pattern.findAll) cs

/-- Neither a digit nor a CJK or kana character. -/
def plain (c : Char) : Bool := !digit c && !cjk c

section
variable {c : Char} {cs s t m x w : List Char}

/-! ## Stages -/

theorem plain_iff : plain c = true ↔ digit c = false ∧ cjk c = false := by
  rw [plain, Bool.and_eq_true, Bool.not_eq_true', Bool.not_eq_true']

theorem first_digitRuns_none (h : digit c = false) (s : List Char) : digitRuns.first (c :: s) = none := by
  rw [digitRuns, first_seq_one_cons, h, if_neg Bool.false_ne_true]

theorem first_cjkRuns_none (h : cjk c = false) (s : List Char) : cjkRuns.first (c :: s) = none := by
  rw [cjkRuns, first_plus_cons, h, if_neg Bool.false_ne_true]

/-- A run that ends where the class does. -/
theorem dropWhile_run {p : Char → Bool} (hm : ∀ c ∈ m, p c = true) (ht : ahead p t = false) :
    (m ++ t).takeWhile p = m ∧ (m ++ t).dropWhile p = t := by
  have hstop : t.takeWhile p = [] ∧ t.dropWhile p = t := by
    cases t with
    | nil => exact ⟨rfl, rfl⟩
    | cons c t =>
      have hc : ¬p c = true := Bool.eq_false_iff.mp ht
      exact ⟨List.takeWhile_cons_of_neg hc, List.dropWhile_cons_of_neg hc⟩
  rw [List.takeWhile_append_of_pos hm, List.dropWhile_append_of_pos hm, hstop.1, hstop.2, List.append_nil]
  exact ⟨rfl, rfl⟩

theorem first_plus_run {p : Char → Bool} (hne : m ≠ []) (hm : ∀ c ∈ m, p c = true) (ht : ahead p t = false) :
    (plus (.one p)).first (m ++ t) = some t := by
  obtain ⟨c, m, rfl⟩ := List.exists_cons_of_ne_nil hne
  have hdrop := (dropWhile_run hm ht).2
  have hc := hm c List.mem_cons_self
  rw [List.cons_append, List.dropWhile_cons_of_pos hc] at hdrop
  rw [List.cons_append, first_plus_cons, if_pos hc, hdrop]

theorem first_digitRuns (hne : m ≠ []) (hm : ∀ c ∈ m, digit c = true) (hlen : m.length ≤ 3)
    (ht : m.length = 3 ∨ ahead digit t = false) : digitRuns.first (m ++ t) = some t := by
  obtain ⟨c, m, rfl⟩ := List.exists_cons_of_ne_nil hne
  obtain ⟨hc, hm⟩ := List.forall_mem_cons.mp hm
  have hrun : ((m ++ t).take 2).takeWhile digit = m := by
    rw [List.length_cons] at hlen ht
    rw [List.take_append, List.take_of_length_le (by omega)]
    obtain hlen | ht := ht
    · rw [show 2 - m.length = 0 by omega, List.take_zero, List.append_nil]
      exact List.takeWhile_eq_self_iff.mpr hm
    · refine (dropWhile_run hm ?_).1
      cases t with
      | nil => rw [List.take_nil]; rfl
      | cons d t =>
        cases 2 - m.length with
        | zero => rfl
        | succ n => exact ht
  rw [digitRuns, List.cons_append, first_seq_one_cons, if_pos hc, first_upTo, hrun, List.drop_left]

theorem digit_cjk (h : cjk c = true) : digit c = false := wide_not (cjk_wide h)

/-- A text without digits goes to the second stage as a whole. -/
theorem split_gap {v : List Char} (hx : ∀ c ∈ x, digit c = false) (hv : v = [] ∨ ahead digit v = true) :
    split (x ++ v) = splitBy cjkRuns pattern.findAll x ++ split v := by
  refine splitBy_gap splitBy_nil (fun c hc => first_digitRuns_none (hx c hc)) (hv.imp_right fun h => ?_)
  have hcut := List.prefix_iff_eq_append.mp ((List.takeWhile_prefix digit).trans (List.take_prefix 3 v))
  have hne : (v.take 3).takeWhile digit ≠ [] := by
    cases v with
    | nil => exact absurd h Bool.false_ne_true
    | cons c v =>
      have hc : digit c = true := h
      rw [List.take_succ_cons, List.takeWhile_cons_of_pos hc]
      exact List.cons_ne_nil _ _
  refine ⟨(v.take 3).takeWhile digit, _, hcut.symm, hne, first_digitRuns hne (fun c hc => List.mem_takeWhile_imp hc)
    ((List.takeWhile_prefix digit).length_le.trans (List.length_take_le 3 _)) (takeWhile_take digit 3 v)⟩

theorem split_digits (hne : m ≠ []) (hm : ∀ c ∈ m, digit c = true) (hlen : m.length ≤ 3)
    (ht : m.length = 3 ∨ ahead digit t = false) : split (m ++ t) = m :: split t :=
  splitBy_match hne (first_digitRuns hne hm hlen ht)

theorem ahead_takeWhile (p q : Char → Bool) (t : List Char) : ahead q (t.takeWhile p) = (ahead p t && ahead q t) := by
  cases t with
  | nil => rfl
  | cons c t =>
    rw [ahead_cons, ahead_cons]
    by_cases hc : p c = true
    · rw [List.takeWhile_cons_of_pos hc, hc, Bool.true_and]
      rfl
    · rw [List.takeWhile_cons_of_neg hc, Bool.eq_false_iff.mpr hc, Bool.false_and]
      rfl

/-- A text up to the first character outside of a class. -/
theorem takeWhile_split (p : Char → Bool) (t : List Char) : ∃ y v, t = y ++ v ∧ y = t.takeWhile p ∧ (∀ c ∈ y, p c = true) ∧
    (v = [] ∨ ahead (fun c => !p c) v = true) := by
  refine ⟨t.takeWhile p, t.dropWhile p, List.takeWhile_append_dropWhile.symm, rfl,
    fun c hc => List.mem_takeWhile_imp hc, ?_⟩
  have hstop := ahead_dropWhile p t
  cases h : t.dropWhile p with
  | nil => exact .inl rfl
  | cons c v =>
    rw [h, ahead_cons] at hstop
    right
    rw [ahead_cons, hstop]
    rfl

theorem split_cjk (hne : m ≠ []) (hm : ∀ c ∈ m, cjk c = true) (ht : ahead cjk t = false) :
    split (m ++ t) = m :: split t := by
  obtain ⟨y, v, hyv, hy, hclass, hv⟩ := takeWhile_split (fun c => !digit c) t
  simp only [Bool.not_not, Bool.not_eq_true'] at hclass hv
  have hmy : ∀ c ∈ m ++ y, digit c = false :=
    List.forall_mem_append.mpr ⟨fun c hc => digit_cjk (hm c hc), hclass⟩
  have hstop : ahead cjk y = false := by rw [hy, ahead_takeWhile, ht, Bool.and_false]
  have hfirst : cjkRuns.first (m ++ y) = some y := first_plus_run hne hm hstop
  rw [hyv, ← List.append_assoc, split_gap hmy hv, splitBy_match hne hfirst, split_gap hclass hv]
  rfl

theorem split_plain (hx : ∀ c ∈ x, plain c = true) (hw : w = [] ∨ ahead (fun c => !plain c) w = true) :
    split (x ++ w) = pattern.findAll x ++ split w := by
  obtain ⟨y, v, hyv, hy, hclass, hv⟩ := takeWhile_split (fun c => !digit c) w
  simp only [Bool.not_not, Bool.not_eq_true'] at hclass hv
  have hxy : ∀ c ∈ x ++ y, digit c = false :=
    List.forall_mem_append.mpr ⟨fun c hc => (plain_iff.mp (hx c hc)).1, hclass⟩
  -- what comes behind the plain characters is cut off there by one of the stages
  have hcjk : y = [] ∨ ∃ m t, y = m ++ t ∧ m ≠ [] ∧ cjkRuns.first (m ++ t) = some t := by
    cases y with
    | nil => exact .inl rfl
    | cons c y =>
      have hc : cjk c = true := by
        rw [hyv] at hw
        obtain hw | hw := hw
        · cases hw
        · rw [List.cons_append, ahead_cons, plain, hclass c List.mem_cons_self] at hw
          simpa using hw
      refine .inr ⟨(c :: y).takeWhile cjk, (c :: y).dropWhile cjk, List.takeWhile_append_dropWhile.symm, takeWhile_ne_nil hc,
        first_plus_run (takeWhile_ne_nil hc) (fun c hc => List.mem_takeWhile_imp hc) (ahead_dropWhile _ _)⟩
  rw [hyv, ← List.append_assoc, split_gap hxy hv,
    splitBy_gap findAll_nil (fun c hc => first_cjkRuns_none (plain_iff.mp (hx c hc)).2) hcjk, split_gap hclass hv,
    List.append_assoc]

/-- A match in the plain characters is the next piece. -/
theorem split_first (hne : m ≠ []) (hm : ∀ c ∈ m, plain c = true)
    (h : pattern.first (m ++ t.takeWhile plain) = some (t.takeWhile plain)) : split (m ++ t) = m :: split t := by
  obtain ⟨x, w, hxw, hx, hclass, hw⟩ := takeWhile_split plain t
  rw [← hx] at h
  rw [hxw, ← List.append_assoc, split_plain (List.forall_mem_append.mpr ⟨hm, hclass⟩) hw, findAll_append hne h,
    split_plain hclass hw]
  rfl

/-! ## Matches of the alternatives -/

theorem pattern_first : pattern.first s = (punctWord.first s).or ((letterRun.first s).or ((punctRun.first s).or
    ((newlineEnd.first s).or ((spaceEnd.first s).or (spaceRun.first s))))) := by
  rw [pattern]
  simp only [first_alts_cons, first_alts_nil, Option.or_none]

theorem first_punctWord : punctWord.first (c :: s) =
    if punct c && ahead alpha s then some (s.dropWhile alpha) else none := by
  rw [punctWord, first_seq_one_cons, first_plus, ahead]
  cases punct c <;> rfl

theorem first_letterRun : letterRun.first (c :: s) =
    if !(newline c || letter c || punct c) && ahead letter s then some (s.dropWhile letter)
    else if letter c then some (s.dropWhile letter) else none := by
  rw [letterRun, first_seq_opt, first_seq_one_cons, first_plus, first_plus_cons, ← ahead]
  cases !(newline c || letter c || punct c) <;> cases ahead letter s <;> rfl

/-- Where the punctuation may start. -/
def punctText : List Char → List Char
  | [] => []
  | c :: s => if c = ' ' then s else c :: s

theorem first_punctRun : punctRun.first (c :: s) =
    if ahead punct (punctText (c :: s)) then some (((punctText (c :: s)).dropWhile punct).dropWhile newline) else none := by
  have hstar : ∀ s, (star (.one newline)).first s = some (s.dropWhile newline) := fun s => first_star
  have hrun : ∀ s, first (.seq (plus (.one punct)) (.star (.one newline))) s =
      if ahead punct s then some ((s.dropWhile punct).dropWhile newline) else none := by
    intro s
    rw [first_seq_total hstar, first_plus, ahead]
    split <;> rfl
  have hblank : punct ' ' = false := by decide
  rw [punctRun, first_seq_opt, first_seq_one_cons, hrun, hrun, punctText]
  by_cases hc : c = ' '
  · rw [if_pos (beq_iff_eq.mpr hc), if_pos hc, hc, ahead_cons, hblank, if_neg Bool.false_ne_true, Option.or_none]
  · rw [if_neg fun h => hc (beq_iff_eq.mp h), if_neg hc, Option.none_or]

theorem letter_letterLike (h : letter c = true) : letterLike c = true := (Bool.and_eq_true_iff.mp h).1

theorem alpha_letter (h : alpha c = true) : letter c = true :=
  Bool.and_eq_true_iff.mpr ⟨alpha_letterLike h, by rw [asciiClass_cjk h]; rfl⟩

theorem letter_false (h : letterLike c = false) : letter c = false := by rw [letter, h, Bool.false_and]

theorem space_letter (h : space c = true) : letter c = false := letter_false (space_not h).1

theorem punct_letter (h : punct c = true) : letter c = false := letter_false (punct_not h).1

/-- What starts with white space starts with nothing else. -/
theorem ahead_space (h : ahead space s = true) : ahead letter s = false ∧ ahead punct s = false := by
  cases s with
  | nil => exact ⟨rfl, rfl⟩
  | cons c s => exact ⟨space_letter h, (space_not h).2.2⟩

theorem pattern_word {p : Char} (hp : punct p = true) (hne : w ≠ []) (hw : ∀ c ∈ w, alpha c = true)
    (ht : ahead alpha t = false) : pattern.first (p :: w ++ t) = some t := by
  have hahead : ahead alpha (w ++ t) = true := by
    obtain ⟨c, w, rfl⟩ := List.exists_cons_of_ne_nil hne
    exact hw c List.mem_cons_self
  rw [pattern_first, List.cons_append, first_punctWord, hp, hahead, (dropWhile_run hw ht).2]
  rfl

theorem pattern_letters (hne : w ≠ []) (hw : ∀ c ∈ w, letter c = true) (ht : ahead letter t = false) :
    pattern.first (w ++ t) = some t := by
  obtain ⟨c, w, rfl⟩ := List.exists_cons_of_ne_nil hne
  obtain ⟨hc, hw⟩ := List.forall_mem_cons.mp hw
  have hp : punct c = false := (letterLike_not (letter_letterLike hc)).2.1
  rw [pattern_first, List.cons_append, first_punctWord, hp, Bool.false_and, if_neg Bool.false_ne_true, Option.none_or,
    first_letterRun, hc, Bool.or_true, Bool.true_or, Bool.not_true, Bool.false_and, if_neg Bool.false_ne_true, if_pos rfl,
    (dropWhile_run hw ht).2]
  rfl

/-- At white space that is not a newline the words come next. -/
theorem pattern_space {b : Char} (hb : space b = true) : pattern.first (b :: s) =
    (if !newline b && ahead letter s then some (s.dropWhile letter) else none).or ((punctRun.first (b :: s)).or
      ((newlineEnd.first (b :: s)).or ((spaceEnd.first (b :: s)).or (spaceRun.first (b :: s))))) := by
  rw [pattern_first, first_punctWord, first_letterRun, (space_not hb).2.2, space_letter hb, Bool.false_and, Bool.or_false,
    Bool.or_false, if_neg Bool.false_ne_true, if_neg Bool.false_ne_true, Option.none_or]

theorem pattern_blank {b : Char} (hb : space b = true) (hnl : newline b = false) (hne : w ≠ [])
    (hw : ∀ c ∈ w, letter c = true) (ht : ahead letter t = false) : pattern.first (b :: w ++ t) = some t := by
  have hahead : ahead letter (w ++ t) = true := by
    obtain ⟨c, w, rfl⟩ := List.exists_cons_of_ne_nil hne
    exact hw c List.mem_cons_self
  rw [List.cons_append, pattern_space hb, hnl, hahead, (dropWhile_run hw ht).2]
  rfl

theorem pattern_punct {a p n : List Char} (ha : a = [] ∨ a = [' ']) (hne : p ≠ []) (hp : ∀ c ∈ p, punct c = true)
    (hn : ∀ c ∈ n, newline c = true) (hpt : n = [] → ahead punct t = false) (ht : ahead newline t = false)
    (hword : a = [] → ahead alpha (p.tail ++ (n ++ t)) = false) : pattern.first (a ++ (p ++ n) ++ t) = some t := by
  have hstop : ahead punct (n ++ t) = false := by
    cases n with
    | nil => exact hpt rfl
    | cons c n => exact (space_not (newline_space (hn c List.mem_cons_self))).2.2
  obtain ⟨c, p, rfl⟩ := List.exists_cons_of_ne_nil hne
  have hc := hp c List.mem_cons_self
  have hrun : ((c :: p ++ (n ++ t)).dropWhile punct).dropWhile newline = t := by
    rw [(dropWhile_run hp hstop).2, (dropWhile_run hn ht).2]
  have hcb : c ≠ ' ' := fun h => absurd (h ▸ hc) (by decide)
  rw [List.append_assoc, List.append_assoc]
  have hpunct : ahead punct (c :: p ++ (n ++ t)) = true := hc
  obtain rfl | rfl := ha
  · have hword : ahead alpha (p ++ (n ++ t)) = false := hword rfl
    have htext : punctText (c :: (p ++ (n ++ t))) = c :: p ++ (n ++ t) := if_neg hcb
    rw [List.nil_append, List.cons_append, pattern_first, first_punctWord, first_letterRun, first_punctRun, htext, hrun,
      hpunct, hword, punct_letter hc, hc, Bool.or_true]
    rfl
  · have hblank : space ' ' = true := by decide
    have htext : punctText (' ' :: (c :: p ++ (n ++ t))) = c :: p ++ (n ++ t) := by rw [punctText, if_pos rfl]
    have hletter : ahead letter (c :: p ++ (n ++ t)) = false := punct_letter hc
    rw [List.singleton_append, pattern_space hblank, first_punctRun, htext, hrun, hpunct, hletter, Bool.and_false]
    rfl

/-- Without a newline the white space is left to the rules behind. -/
theorem newlineEnd_none (hm : ∀ c ∈ m, space c = true ∧ newline c = false) (ht : ahead space t = false) :
    newlineEnd.first (m ++ t) = none := by
  induction m with
  | nil =>
    cases t with
    | nil => rfl
    | cons c t =>
      have hc : ¬space c = true := Bool.eq_false_iff.mp ht
      rw [List.nil_append, newlineEnd, first_star_plus_cons newline_space, if_neg hc]
  | cons c m ih =>
    obtain ⟨hc, hm⟩ := List.forall_mem_cons.mp hm
    rw [List.cons_append, newlineEnd, first_star_plus_cons newline_space, if_pos hc.1, ← newlineEnd, ih hm, hc.2]
    rfl

theorem newlineEnd_last {u v : List Char} {x : Char} (hu : ∀ c ∈ u, space c = true) (hx : newline x = true)
    (hv : ∀ c ∈ v, space c = true ∧ newline c = false) (ht : ahead space t = false) :
    newlineEnd.first (u ++ [x] ++ (v ++ t)) = some (v ++ t) := by
  induction u with
  | nil =>
    have hstop : ahead newline (v ++ t) = false := by
      cases v with
      | nil =>
        cases t with
        | nil => rfl
        | cons c t => exact Bool.eq_false_iff.mpr fun h => absurd (newline_space h) (Bool.eq_false_iff.mp ht)
      | cons c v => exact (hv c List.mem_cons_self).2
    have hdrop : (v ++ t).dropWhile newline = v ++ t := (@dropWhile_run (v ++ t) [] newline (fun _ h => nomatch h) hstop).2
    rw [List.nil_append, List.singleton_append, newlineEnd, first_star_plus_cons newline_space, if_pos (newline_space hx),
      ← newlineEnd, newlineEnd_none hv ht, if_pos hx, hdrop]
    rfl
  | cons c u ih =>
    obtain ⟨hc, hu⟩ := List.forall_mem_cons.mp hu
    rw [List.cons_append, List.cons_append, newlineEnd, first_star_plus_cons newline_space, if_pos hc, ← newlineEnd, ih hu]
    rfl

/-- White space in front of white space or of the end of the text is neither a word nor punctuation. -/
theorem pattern_spaces {b : Char} (hb : space b = true) (hl : newline b = false → ahead letter s = false)
    (hp : b = ' ' → ahead punct s = false) : pattern.first (b :: s) =
    (newlineEnd.first (b :: s)).or ((spaceEnd.first (b :: s)).or (spaceRun.first (b :: s))) := by
  have hletter : (!newline b && ahead letter s) = false := by
    by_cases hn : newline b = false
    · rw [hl hn, Bool.and_false]
    · rw [Bool.not_eq_false] at hn
      rw [hn]
      rfl
  have hpunct : ahead punct (punctText (b :: s)) = false := by
    rw [punctText]
    split
    · next h => exact hp h
    · exact (space_not hb).2.2
  rw [pattern_space hb, hletter, first_punctRun, hpunct]
  rfl

theorem pattern_newline {u v : List Char} {x : Char} (hu : ∀ c ∈ u, space c = true) (hx : newline x = true)
    (hv : ∀ c ∈ v, space c = true ∧ newline c = false) (ht : ahead space t = false) :
    pattern.first (u ++ [x] ++ (v ++ t)) = some (v ++ t) := by
  have hlast := newlineEnd_last hu hx hv ht
  cases u with
  | nil =>
    rw [List.nil_append, List.singleton_append] at hlast ⊢
    rw [pattern_spaces (newline_space hx), hlast]
    · rfl
    · exact fun h => absurd (h.symm.trans hx) Bool.false_ne_true
    · exact fun h => absurd (h ▸ hx) (by decide)
  | cons c u =>
    have hnext : ahead space (u ++ [x] ++ (v ++ t)) = true := by
      cases u with
      | nil => exact newline_space hx
      | cons d u => exact hu d (List.mem_cons_of_mem _ List.mem_cons_self)
    obtain ⟨hletter, hpunct⟩ := ahead_space hnext
    rw [List.cons_append, List.cons_append] at hlast ⊢
    rw [pattern_spaces (hu c List.mem_cons_self) (fun _ => hletter) (fun _ => hpunct), hlast]
    rfl

/-! ## The end of white space -/

/-- What the white space leaves that is not in front of anything else. -/
def notJoined : Regex Char := .seq (.star (.one space)) (.notAhead (.one fun c => !space c))

theorem first_spaceEnd (hc : space c = true) : spaceEnd.first (c :: s) = notJoined.first s := by
  rw [spaceEnd, first_seq_plus_cons, if_pos hc]
  rfl

theorem notJoined_end (hm : ∀ c ∈ m, space c = true) : notJoined.first m = some [] := by
  induction m with
  | nil => rfl
  | cons c m ih =>
    obtain ⟨hc, hm⟩ := List.forall_mem_cons.mp hm
    rw [notJoined, first_star_notAhead_cons, if_pos hc, ← notJoined, ih hm]
    rfl

theorem notJoined_none (hne : t ≠ []) (ht : ahead space t = false) : notJoined.first t = none := by
  obtain ⟨c, t, rfl⟩ := List.exists_cons_of_ne_nil hne
  have hc : ¬space c = true := Bool.eq_false_iff.mp ht
  rw [notJoined, first_star_notAhead_cons, if_neg hc]

theorem notJoined_last {x : Char} (hm : ∀ c ∈ m, space c = true) (hx : space x = true) (hne : t ≠ [])
    (ht : ahead space t = false) : notJoined.first (m ++ x :: t) = some (x :: t) := by
  induction m with
  | nil =>
    rw [List.nil_append, notJoined, first_star_notAhead_cons, if_pos hx, ← notJoined, notJoined_none hne ht]
    rfl
  | cons c m ih =>
    obtain ⟨hc, hm⟩ := List.forall_mem_cons.mp hm
    rw [List.cons_append, notJoined, first_star_notAhead_cons, if_pos hc, ← notJoined, ih hm]
    rfl

/-- A run of white space that goes to the end, or a single one in front of punctuation that it does not join. -/
theorem pattern_run (hne : m ≠ []) (hm : ∀ c ∈ m, space c = true ∧ newline c = false)
    (ht : t = [] ∨ ahead space t = false ∧ ahead letter t = false ∧ ∃ b, m = [b] ∧ b ≠ ' ') :
    pattern.first (m ++ t) = some t := by
  obtain ⟨c, m, rfl⟩ := List.exists_cons_of_ne_nil hne
  obtain ⟨hc, hm'⟩ := List.forall_mem_cons.mp hm
  obtain rfl | ⟨hspace, hletter, b, hb, hblank⟩ := ht
  · have hrest : ahead letter (m ++ []) = false ∧ ahead punct (m ++ []) = false := by
      cases m with
      | nil => exact ⟨rfl, rfl⟩
      | cons d m => exact ahead_space (hm' d List.mem_cons_self).1
    have hnone : newlineEnd.first (c :: m ++ []) = none := newlineEnd_none hm rfl
    rw [List.cons_append] at hnone ⊢
    rw [pattern_spaces hc.1 (fun _ => hrest.1) (fun _ => hrest.2), hnone, first_spaceEnd hc.1, List.append_nil,
      notJoined_end fun d hd => (hm' d hd).1]
    rfl
  · obtain ⟨rfl, rfl⟩ := List.cons.inj hb
    have hnone : newlineEnd.first ([c] ++ t) = none := newlineEnd_none hm hspace
    have hdrop : t.dropWhile space = t := (@dropWhile_run t [] space (fun _ h => nomatch h) hspace).2
    rw [List.singleton_append] at hnone ⊢
    rw [pattern_spaces hc.1 (fun _ => hletter) (fun h => absurd h hblank), hnone, first_spaceEnd hc.1, spaceRun,
      first_plus_cons, if_pos hc.1, hdrop]
    cases t with
    | nil => rfl
    | cons d t => rw [notJoined_none (List.cons_ne_nil _ _) hspace]; rfl

theorem pattern_butLast {x : Char} (hne : m ≠ []) (hm : ∀ c ∈ m, space c = true ∧ newline c = false)
    (hx : space x = true ∧ newline x = false) (hnt : t ≠ []) (ht : ahead space t = false) :
    pattern.first (m ++ x :: t) = some (x :: t) := by
  have hnone : newlineEnd.first (m ++ x :: t) = none := by
    have h := @newlineEnd_none t (m ++ [x]) (List.forall_mem_append.mpr ⟨hm, List.forall_mem_singleton.mpr hx⟩) ht
    rwa [List.append_assoc, List.singleton_append] at h
  obtain ⟨c, m, rfl⟩ := List.exists_cons_of_ne_nil hne
  obtain ⟨hc, hm⟩ := List.forall_mem_cons.mp hm
  have hnext : ahead space (m ++ x :: t) = true := by
    cases m with
    | nil => exact hx.1
    | cons d m => exact (hm d List.mem_cons_self).1
  obtain ⟨hletter, hpunct⟩ := ahead_space hnext
  rw [List.cons_append] at hnone ⊢
  rw [pattern_spaces hc.1 (fun _ => hletter) (fun _ => hpunct), hnone, first_spaceEnd hc.1,
    notJoined_last (fun d hd => (hm d hd).1) hx.1 hnt ht]
  rfl

end
end Ds4.Tokenizer.Joyai
