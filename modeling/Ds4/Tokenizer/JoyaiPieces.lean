import Ds4.Tokenizer.JoyaiPattern

/-!
# Where the DeepSeek pieces are the JoyAI pieces

The scan takes CJK and kana characters for letters once it is inside a word, so a run of them is isolated only when the
piece in front of it ends by itself. `Closed` says of what comes in front of a character that it does.
-/

namespace Ds4.Tokenizer.Joyai
open C Regex

/-- CJK and kana characters only, or none. -/
def Unmixed (m : List Char) : Prop := (∀ c ∈ m, cjk c = true) ∨ ∀ c ∈ m, cjk c = false

/-- A text at whose end a piece ends, whatever letters follow: it is empty, or ends in a CJK or kana character, a digit,
punctuation or a newline, or in ASCII letters that punctuation opens which nothing else takes. -/
def Closed (a : List Char) : Prop :=
  a = [] ∨ (∃ x ∈ a.getLast?, cjk x = true ∨ digit x = true ∨ punct x = true ∨ newline x = true) ∨
    ∃ b p w, a = b ++ p :: w ∧ punct p = true ∧ w ≠ [] ∧ (∀ c ∈ w, alpha c = true) ∧
      ∀ x ∈ b.getLast?, punct x = false ∧ x ≠ ' '

/-- Every CJK or kana character starts a piece or continues one of its kind. -/
def Isolated (cs : List Char) : Prop := ∀ a c b, cs = a ++ c :: b → cjk c = true → Closed a

section
variable {c x : Char} {cs s t l m w : List Char} {ms : List (List Char)}

/-! ## The staged split does not mix -/

theorem unmixed_of_plain (h : ∀ c ∈ m, plain c = true) : Unmixed m := .inr fun c hc => (plain_iff.mp (h c hc)).2

theorem split_unmixed (cs : List Char) : ∀ m ∈ split cs, Unmixed m := by
  induction hn : cs.length using Nat.strongRecOn generalizing cs with
  | ind n ih =>
    have hrest : ∀ m t, cs = m ++ t → m ≠ [] → ∀ p ∈ split t, Unmixed p := by
      intro m t hs hm
      have hpos := List.length_pos_of_ne_nil hm
      refine ih t.length ?_ t rfl
      rw [← hn, hs, List.length_append]
      omega
    cases cs with
    | nil =>
      rw [split, splitBy_nil]
      exact fun _ h => nomatch h
    | cons c cs =>
      by_cases hd : digit c = true
      · have hcut := List.prefix_iff_eq_append.mp ((List.takeWhile_prefix digit).trans (List.take_prefix 3 (c :: cs)))
        have hne : ((c :: cs).take 3).takeWhile digit ≠ [] := by
          rw [List.take_succ_cons, List.takeWhile_cons_of_pos hd]
          exact List.cons_ne_nil _ _
        have hall : ∀ d ∈ ((c :: cs).take 3).takeWhile digit, digit d = true := fun d hd => List.mem_takeWhile_imp hd
        have hsplit := split_digits hne hall ((List.takeWhile_prefix digit).length_le.trans (List.length_take_le 3 _))
          (takeWhile_take digit 3 (c :: cs))
        rw [hcut] at hsplit
        rw [hsplit]
        exact List.forall_mem_cons.mpr ⟨.inr fun d hd => asciiClass_cjk (hall d hd), hrest _ _ hcut.symm hne⟩
      by_cases hk : cjk c = true
      · have hne : (c :: cs).takeWhile cjk ≠ [] := takeWhile_ne_nil hk
        have hall : ∀ d ∈ (c :: cs).takeWhile cjk, cjk d = true := fun d hd => List.mem_takeWhile_imp hd
        have hsplit := split_cjk hne hall (ahead_dropWhile cjk (c :: cs))
        rw [List.takeWhile_append_dropWhile] at hsplit
        rw [hsplit]
        exact List.forall_mem_cons.mpr ⟨.inl hall, hrest _ _ List.takeWhile_append_dropWhile.symm hne⟩
      · have hc : plain c = true := plain_iff.mpr ⟨Bool.eq_false_iff.mpr hd, Bool.eq_false_iff.mpr hk⟩
        obtain ⟨y, v, hyv, hy, hclass, hv⟩ := takeWhile_split plain (c :: cs)
        have hne : y ≠ [] := by
          rw [hy]
          exact takeWhile_ne_nil hc
        rw [hyv, split_plain hclass hv]
        refine List.forall_mem_append.mpr ⟨fun m hm => unmixed_of_plain fun d hd => hclass d ?_, hrest y v hyv hne⟩
        exact (findAll_sublist pattern y).subset (List.mem_flatten.mpr ⟨m, hm, hd⟩)

/-! ## Unmixed pieces are the matches -/

theorem ahead_false {p q : Char → Bool} (h : ∀ c, q c = true → p c = true) (ht : ahead p t = false) : ahead q t = false := by
  cases t with
  | nil => rfl
  | cons c t => exact Bool.eq_false_iff.mpr fun hc => absurd (h c hc) (Bool.eq_false_iff.mp ht)

theorem ahead_takeWhile_false {p q : Char → Bool} (ht : ahead q t = false) : ahead q (t.takeWhile p) = false := by
  rw [ahead_takeWhile, ht, Bool.and_false]

theorem space_plain (h : space c = true) : plain c = true := plain_iff.mpr ⟨(space_not h).2.1, asciiClass_cjk h⟩

theorem punct_plain (h : punct c = true) : plain c = true := plain_iff.mpr ⟨(punct_not h).2.1, asciiClass_cjk h⟩

theorem alpha_plain (h : alpha c = true) : plain c = true :=
  plain_iff.mpr ⟨(letterLike_not (alpha_letterLike h)).1, asciiClass_cjk h⟩

theorem letter_plain (h : letter c = true) : plain c = true :=
  plain_iff.mpr ⟨(letterLike_not (letter_letterLike h)).1, by simpa using (Bool.and_eq_true_iff.mp h).2⟩

/-- Letters of an unmixed piece. -/
theorem Unmixed.letters (h : Unmixed m) (hx : x ∈ m) (hk : cjk x = false) (hm : ∀ c ∈ w, letterLike c = true)
    (hw : w ⊆ m) : ∀ c ∈ w, letter c = true := by
  intro c hc
  obtain h | h := h
  · exact absurd ((h x hx).symm.trans hk) (by decide)
  · rw [letter, hm c hc, h c (hw hc)]
    rfl

theorem cons_of_append {m' : List Char} (hne : m ≠ []) (hs : x :: t = m ++ m') : ∃ r, m = x :: r ∧ t = r ++ m' := by
  obtain ⟨c, r, rfl⟩ := List.exists_cons_of_ne_nil hne
  obtain ⟨rfl, h⟩ := List.cons.inj hs
  exact ⟨r, rfl, h⟩

/-- White space in front of the rest of a text keeps CJK and kana away. -/
theorem not_ahead_cjk {p : UInt8 → Bool} {r : List Char} (ht : ahead cjk t = true) (hs : t = c :: r)
    (hc : asciiClass p c = true) : False := by
  rw [hs, ahead_cons, asciiClass_cjk hc] at ht
  exact Bool.false_ne_true ht

/-- A blank in front of CJK or kana is taken with it. -/
theorem Run.blank_mixed (h : Run (x :: t) ms) (hx : space x = true) (hnl : newline x = false) (ht : ahead cjk t = true) :
    ∃ m ∈ ms, ¬Unmixed m := by
  obtain ⟨hl, hd, hp⟩ := space_not hx
  generalize hs : x :: t = s at h
  cases h with
  | nil => cases hs
  | @cons m t' ms' hstep hrun =>
    obtain ⟨r, hm, hr⟩ := cons_of_append hstep.ne_nil hs
    have hxm : x ∈ m := by
      rw [hm]
      exact List.mem_cons_self
    refine ⟨m, List.mem_cons_self, ?_⟩
    cases hstep with
    | digits _ hall => exact absurd (hall x hxm) (Bool.eq_false_iff.mp hd)
    | cjk _ hall => exact absurd (cjk_letterLike (hall x hxm)) (Bool.eq_false_iff.mp hl)
    | word hpunct =>
      obtain ⟨rfl, -⟩ := List.cons.inj hm
      exact absurd hpunct (Bool.eq_false_iff.mp hp)
    | letters _ _ hall => exact absurd (hall x hxm) (Bool.eq_false_iff.mp hl)
    | blank hb _ hne hw =>
      obtain ⟨rfl, rfl⟩ := List.cons.inj hm
      obtain ⟨d, w, rfl⟩ := List.exists_cons_of_ne_nil hne
      rw [hr, List.cons_append, ahead_cons] at ht
      intro hmix
      obtain h | h := hmix
      · exact absurd ((h _ hxm).symm.trans (asciiClass_cjk hb)) (by decide)
      · exact absurd ((h d (List.mem_cons_of_mem _ List.mem_cons_self)).symm.trans ht) (by decide)
    | punct ha hne hall =>
      obtain ⟨d, p, rfl⟩ := List.exists_cons_of_ne_nil hne
      have hpd := hall d List.mem_cons_self
      obtain rfl | rfl := ha
      · obtain ⟨rfl, -⟩ := List.cons.inj hm
        exact absurd hpd (Bool.eq_false_iff.mp hp)
      · obtain ⟨-, rfl⟩ := List.cons.inj hm
        exact (not_ahead_cjk ht hr hpd).elim
    | @newline u v t x' hu hx' =>
      cases u with
      | nil =>
        obtain ⟨rfl, -⟩ := List.cons.inj hm
        exact absurd hx' (Bool.eq_false_iff.mp hnl)
      | cons d u =>
        obtain ⟨-, rfl⟩ := List.cons.inj hm
        cases u with
        | nil => exact (not_ahead_cjk ht hr hx').elim
        | cons e u => exact (not_ahead_cjk ht hr (hu e (List.mem_cons_of_mem _ List.mem_cons_self))).elim
    | spaces _ hall _ hletter =>
      cases r with
      | nil =>
        rw [hr, List.nil_append] at ht
        rw [ahead_false (fun _ h => cjk_letterLike h) hletter] at ht
        exact absurd ht Bool.false_ne_true
      | cons d r => exact (not_ahead_cjk ht hr (hall d (by rw [hm]; exact List.mem_cons_of_mem _ List.mem_cons_self)).1).elim
    | butLast _ hall hx0 =>
      cases r with
      | nil => exact (not_ahead_cjk ht hr hx0.1).elim
      | cons d r => exact (not_ahead_cjk ht hr (hall d (by rw [hm]; exact List.mem_cons_of_mem _ List.mem_cons_self)).1).elim

theorem split_of_unmixed (h : Run cs ms) (hcs : ∀ c ∈ cs, Ordinary c) (hms : ∀ m ∈ ms, Unmixed m) : split cs = ms := by
  induction h with
  | nil => exact splitBy_nil
  | @cons m t ms hstep hrun ih =>
    obtain ⟨hm, hms⟩ := List.forall_mem_cons.mp hms
    have hord := List.forall_mem_append.mp hcs
    have ih := ih hord.2 hms
    have hne' := hstep.ne_nil
    rw [← ih]
    cases hstep with
    | digits hne hall hlen ht => exact split_digits hne hall hlen ht
    | cjk hne hall ht => exact split_cjk hne hall ht
    | word hp hne hw ht =>
      refine split_first (List.cons_ne_nil _ _)
        (List.forall_mem_cons.mpr ⟨punct_plain hp, fun c hc => alpha_plain (hw c hc)⟩) ?_
      exact pattern_word hp hne hw (ahead_takeWhile_false ht)
    | letters hne hfirst hw ht =>
      obtain ⟨x, w, rfl⟩ := List.exists_cons_of_ne_nil hne
      have hl := hm.letters List.mem_cons_self hfirst hw (List.Subset.refl _)
      exact split_first hne (fun c hc => letter_plain (hl c hc))
        (pattern_letters hne hl (ahead_takeWhile_false (ahead_false (fun _ h => letter_letterLike h) ht)))
    | blank hb hnl hne hw ht =>
      have hl := hm.letters List.mem_cons_self (asciiClass_cjk hb) hw (List.subset_cons_self _ _)
      exact split_first (List.cons_ne_nil _ _)
        (List.forall_mem_cons.mpr ⟨space_plain hb, fun c hc => letter_plain (hl c hc)⟩)
        (pattern_blank hb hnl hne hl (ahead_takeWhile_false (ahead_false (fun _ h => letter_letterLike h) ht)))
    | @punct a p n t ha hne hp hn hpt ht hword =>
      have hplain : ∀ c ∈ a ++ (p ++ n), plain c = true := by
        refine List.forall_mem_append.mpr ⟨fun c hc => ?_, List.forall_mem_append.mpr
          ⟨fun c hc => punct_plain (hp c hc), fun c hc => space_plain (newline_space (hn c hc))⟩⟩
        obtain rfl | rfl := ha
        · cases hc
        · rw [List.mem_singleton.mp hc]
          decide
      refine split_first hne' hplain (pattern_punct ha hne hp hn (fun h => ahead_takeWhile_false (hpt h))
        (ahead_takeWhile_false ht) fun h => ?_)
      have hnext := hword h
      rw [← List.append_assoc] at hnext ⊢
      cases hr : p.tail ++ n with
      | nil =>
        rw [hr] at hnext
        exact ahead_takeWhile_false hnext
      | cons d r =>
        rw [hr] at hnext
        exact hnext
    | @newline u v t x hu hx hv ht =>
      have hcut : (v ++ t).takeWhile plain = v ++ t.takeWhile plain :=
        List.takeWhile_append_of_pos fun c hc => space_plain (hv c hc).1
      refine split_first hne' (List.forall_mem_append.mpr ⟨fun c hc => space_plain (hu c hc), fun c hc => ?_⟩) ?_
      · rw [List.mem_singleton.mp hc]
        exact space_plain (newline_space hx)
      · rw [hcut]
        exact pattern_newline hu hx hv (ahead_takeWhile_false ht)
    | spaces hne hall ht hl hp =>
      refine split_first hne (fun c hc => space_plain (hall c hc).1) (pattern_run hne hall ?_)
      cases t with
      | nil => exact .inl rfl
      | cons d t =>
        by_cases hd : plain d = true
        · -- only punctuation is left for what follows
          have hpunct : ∃ b, m = [b] ∧ b ≠ ' ' := by
            obtain h | h | h | h := (hord.2 d List.mem_cons_self).cases
            · exact absurd h (Bool.eq_false_iff.mp (plain_iff.mp hd).1)
            · exact absurd h (Bool.eq_false_iff.mp hl)
            · exact hp.resolve_left fun hn => absurd h (Bool.eq_false_iff.mp hn)
            · exact absurd h (Bool.eq_false_iff.mp ht)
          exact .inr ⟨ahead_takeWhile_false ht,
            ahead_takeWhile_false (ahead_false (fun _ h => letter_letterLike h) hl), hpunct⟩
        · exact .inl (List.takeWhile_cons_of_neg hd)
    | @butLast m t x hne hall hx ht =>
      have hcut : (x :: t).takeWhile plain = x :: t.takeWhile plain := List.takeWhile_cons_of_pos (space_plain hx.1)
      refine split_first hne (fun c hc => space_plain (hall c hc).1) ?_
      have hcjk : ahead cjk t = false := by
        rw [Bool.eq_false_iff]
        intro h
        obtain ⟨p, hp, hmix⟩ := hrun.blank_mixed hx.1 hx.2 h
        exact hmix (hms p hp)
      cases t with
      | nil => exact absurd ht (by rw [ahead_nil, ahead_nil]; decide)
      | cons d t =>
        have hd : plain d = true ∧ space d = false := by
          obtain h | h := ht
          · exact ⟨plain_iff.mpr ⟨(letterLike_not h).1, hcjk⟩, (letterLike_not h).2.2⟩
          · exact ⟨punct_plain h, (punct_not h).2.2⟩
        rw [hcut]
        refine pattern_butLast hne hall hx (takeWhile_ne_nil hd.1) (ahead_takeWhile_false hd.2)

/-! ## Where the pieces do not mix -/

/-- What holds between two pieces, with the text in front of them and the one behind. -/
structure Boundary (l s : List Char) : Prop where
  /-- Behind ASCII letters the text does not go on with one, behind punctuation only when that was taken as a run. -/
  alpha : ahead alpha s = true → ∀ x ∈ l.getLast?, Joyai.alpha x = false ∧
    (Joyai.punct x = true → ∃ y ∈ l.dropLast.getLast?, Joyai.punct y = true ∨ y = ' ')
  /-- Punctuation that opens a word is not behind punctuation or a blank. -/
  word : ∀ p r, s = p :: r → punct p = true → ahead Joyai.alpha r = true → ∀ x ∈ l.getLast?, punct x = false ∧ x ≠ ' '
  closed : ahead cjk s = true → Closed l

theorem Boundary.start (s : List Char) : Boundary [] s where
  alpha := fun _ _ h => nomatch h
  word := fun _ _ _ _ _ _ h => nomatch h
  closed := fun _ => .inl rfl

theorem mem_getLast?_append (hm : m ≠ []) : x ∈ (l ++ m).getLast? ↔ x ∈ m.getLast? := by
  rw [List.getLast?_append_of_ne_nil l hm]

/-- How a piece can end. -/
theorem Step.last (h : Step m t) : ∃ x ∈ m.getLast?,
    (digit x = true ∨ Joyai.cjk x = true ∨ Joyai.newline x = true) ∨
    letterLike x = true ∧ ahead letterLike t = false ∨
    (alpha x = true ∧ ahead alpha t = false ∧
      ∃ p w, m = p :: w ∧ Joyai.punct p = true ∧ w ≠ [] ∧ ∀ c ∈ w, alpha c = true) ∨
    (Joyai.punct x = true ∧ ahead Joyai.punct t = false ∧
      (ahead alpha t = false ∨ ∃ y ∈ m.dropLast.getLast?, Joyai.punct y = true ∨ y = ' ')) ∨
    (space x = true ∧ ahead letterLike t = false ∧ (ahead Joyai.punct t = false ∨ x ≠ ' ')) ∨
    ahead space t = true := by
  have hend : ∃ x, x ∈ m.getLast? := ⟨m.getLast h.ne_nil, List.getLast?_eq_some_getLast h.ne_nil⟩
  obtain ⟨x, hx⟩ := hend
  have hxm := List.mem_of_getLast? hx
  refine ⟨x, hx, ?_⟩
  cases h with
  | digits _ hall => exact .inl (.inl (hall x hxm))
  | cjk _ hall => exact .inl (.inr (.inl (hall x hxm)))
  | @word p w _ hp hne hw ht =>
    have hxw : x ∈ w := by
      rw [← List.singleton_append, mem_getLast?_append hne] at hx
      exact List.mem_of_getLast? hx
    exact .inr (.inr (.inl ⟨hw x hxw, ht, p, w, rfl, hp, hne, hw⟩))
  | letters _ _ hw ht => exact .inr (.inl ⟨hw x hxm, ht⟩)
  | @blank b w _ hb _ hne hw ht =>
    have hxw : x ∈ w := by
      rw [← List.singleton_append, mem_getLast?_append hne] at hx
      exact List.mem_of_getLast? hx
    exact .inr (.inl ⟨hw x hxw, ht⟩)
  | @punct a p n _ ha hne hp hn hpt ht hword =>
    by_cases hn0 : n = []
    · rw [hn0, List.append_nil] at hx ⊢
      rw [mem_getLast?_append hne] at hx
      refine .inr (.inr (.inr (.inl ⟨hp x (List.mem_of_getLast? hx), hpt hn0, ?_⟩)))
      rw [List.dropLast_append_of_ne_nil hne]
      obtain ⟨q, p, rfl⟩ := List.exists_cons_of_ne_nil hne
      cases p with
      | nil =>
        obtain rfl | rfl := ha
        · rw [hn0] at hword
          exact .inl (hword rfl)
        · exact .inr ⟨' ', rfl, .inr rfl⟩
      | cons r p =>
        have hdrop : (q :: r :: p).dropLast ≠ [] := List.cons_ne_nil _ _
        refine .inr ⟨(q :: r :: p).dropLast.getLast hdrop, ?_, .inl (hp _ (List.dropLast_subset _ (List.getLast_mem hdrop)))⟩
        exact (mem_getLast?_append hdrop).mpr (List.getLast?_eq_some_getLast hdrop)
    · rw [mem_getLast?_append (List.append_ne_nil_of_right_ne_nil _ hn0), mem_getLast?_append hn0] at hx
      exact .inl (.inr (.inr (hn x (List.mem_of_getLast? hx))))
  | newline hu hx' =>
    rw [List.getLast?_concat] at hx
    obtain rfl := Option.some.inj hx
    exact .inl (.inr (.inr hx'))
  | spaces hne hall ht hl hp =>
    refine .inr (.inr (.inr (.inr (.inl ⟨(hall x hxm).1, hl, hp.imp_right fun ⟨b, hm, hb⟩ => ?_⟩))))
    rw [hm, List.mem_singleton] at hxm
    rwa [hxm]
  | butLast _ _ hx0 => exact .inr (.inr (.inr (.inr (.inr hx0.1))))

theorem fresh_not (h : digit x = true ∨ cjk x = true ∨ newline x = true) :
    alpha x = false ∧ punct x = false ∧ x ≠ ' ' := by
  obtain h | h | h := h
  · obtain ⟨hl, hp, hs⟩ := digit_not h
    exact ⟨Bool.eq_false_iff.mpr fun ha => absurd (alpha_letterLike ha) (Bool.eq_false_iff.mp hl), hp,
      fun hb => absurd (hb ▸ h) (by decide)⟩
  · exact ⟨wide_not (cjk_wide h), wide_not (cjk_wide h), fun hb => absurd (cjk_wide h) (by rw [hb]; decide)⟩
  · obtain ⟨hl, -, hp⟩ := space_not (newline_space h)
    exact ⟨Bool.eq_false_iff.mpr fun ha => absurd (alpha_letterLike ha) (Bool.eq_false_iff.mp hl), hp,
      fun hb => absurd (hb ▸ h) (by decide)⟩

/-- Each rule keeps to the boundaries. -/
theorem Boundary.step (h : Boundary l (m ++ t)) (hstep : Step m t) : Boundary (l ++ m) t := by
  have hne := hstep.ne_nil
  obtain ⟨x, hx, hend⟩ := hstep.last
  have hlast : ∀ y ∈ (l ++ m).getLast?, y = x := by
    intro y hy
    rw [mem_getLast?_append hne, hx] at hy
    exact (Option.some.inj hy).symm
  have hclass : ∀ p q : Char → Bool, (∀ c, p c = true → q c = true) → ahead p t = true → ahead q t = false → False :=
    fun p q hpq hp hq => absurd hp (Bool.eq_false_iff.mp (ahead_false hpq hq))
  have hspace : ∀ p : Char → Bool, (∀ c, p c = true → space c = false) → ahead p t = true → ahead space t = true → False := by
    intro p hp h1 h2
    cases t with
    | nil => exact Bool.false_ne_true h1
    | cons c t => exact absurd h2 (Bool.eq_false_iff.mp (hp c h1))
  constructor
  · intro ht y hy
    rw [hlast y hy]
    obtain h1 | ⟨-, h1⟩ | ⟨-, h1, -⟩ | ⟨hp, -, h1⟩ | ⟨-, h1, -⟩ | h1 := hend
    · obtain ⟨ha, hp, -⟩ := fresh_not h1
      exact ⟨ha, fun h => absurd h (Bool.eq_false_iff.mp hp)⟩
    · exact (hclass _ _ (fun _ h => alpha_letterLike h) ht h1).elim
    · exact absurd ht (Bool.eq_false_iff.mp h1)
    · obtain h1 | ⟨z, hz, h1⟩ := h1
      · exact absurd ht (Bool.eq_false_iff.mp h1)
      · refine ⟨Bool.eq_false_iff.mpr fun ha => absurd (alpha_letterLike ha) (Bool.eq_false_iff.mp (punct_not hp).1),
          fun _ => ⟨z, ?_, h1⟩⟩
        have hdrop : m.dropLast ≠ [] := fun h => by rw [h] at hz; cases hz
        rw [List.dropLast_append_of_ne_nil hne]
        exact (mem_getLast?_append hdrop).mpr hz
    · exact (hclass _ _ (fun _ h => alpha_letterLike h) ht h1).elim
    · exact (hspace _ (fun _ h => (letterLike_not (alpha_letterLike h)).2.2) ht h1).elim
  · intro p r hpr hp hr y hy
    have ht : ahead punct t = true := by rw [hpr]; exact hp
    rw [hlast y hy]
    obtain h1 | ⟨h1, -⟩ | ⟨h1, -⟩ | ⟨-, h1, -⟩ | ⟨h1, -, h2⟩ | h1 := hend
    · exact (fresh_not h1).2
    · exact ⟨(letterLike_not h1).2.1, fun hb => absurd (hb ▸ h1) (by decide)⟩
    · exact ⟨(letterLike_not (alpha_letterLike h1)).2.1, fun hb => absurd (hb ▸ h1) (by decide)⟩
    · exact absurd ht (Bool.eq_false_iff.mp h1)
    · exact ⟨(space_not h1).2.2, h2.resolve_left fun h => absurd ht (Bool.eq_false_iff.mp h)⟩
    · exact (hspace _ (fun _ h => (punct_not h).2.2) ht h1).elim
  · intro ht
    have hxl : x ∈ (l ++ m).getLast? := (mem_getLast?_append hne).mpr hx
    obtain h1 | ⟨-, h1⟩ | ⟨-, -, p, w, rfl, hp, hw, hall⟩ | ⟨h1, -⟩ | ⟨-, h1, -⟩ | h1 := hend
    · exact .inr (.inl ⟨x, hxl, by tauto⟩)
    · exact (hclass _ _ (fun _ h => cjk_letterLike h) ht h1).elim
    · refine .inr (.inr ⟨l, p, w, rfl, hp, hw, hall, h.word p (w ++ t) rfl hp ?_⟩)
      obtain ⟨d, w, rfl⟩ := List.exists_cons_of_ne_nil hw
      exact hall d List.mem_cons_self
    · exact .inr (.inl ⟨x, hxl, .inr (.inr (.inl h1))⟩)
    · exact (hclass _ _ (fun _ h => cjk_letterLike h) ht h1).elim
    · exact (hspace _ (fun _ h => wide_not (cjk_wide h)) ht h1).elim

/-! ## The condition -/

theorem not_closed_of_last (hne : ¬l = []) (hl : ∀ x ∈ l.getLast?, cjk x = false ∧ digit x = false ∧ punct x = false ∧
    newline x = false ∧ alpha x = false) : ¬Closed l := by
  intro h
  obtain h | ⟨x, hx, h⟩ | ⟨b, p, w, rfl, -, hw, hall, -⟩ := h
  · exact hne h
  · obtain ⟨h1, h2, h3, h4, -⟩ := hl x hx
    simp [h1, h2, h3, h4] at h
  · have hx : w.getLast hw ∈ (b ++ p :: w).getLast? := by
      rw [List.append_cons, mem_getLast?_append hw]
      exact List.getLast?_eq_some_getLast hw
    exact absurd (hall _ (List.getLast_mem hw)) (Bool.eq_false_iff.mp (hl _ hx).2.2.2.2)

/-- A word in front of a CJK or kana character that it would go on with. -/
theorem not_closed_word (hl : ahead alpha w = true → ∀ x ∈ l.getLast?, alpha x = false ∧
      (punct x = true → ∃ y ∈ l.dropLast.getLast?, punct y = true ∨ y = ' '))
    (hne : w ≠ []) (hw : ∀ c ∈ w, letterLike c = true ∧ cjk c = false) : ¬Closed (l ++ w) := by
  intro h
  obtain h | ⟨x, hx, h⟩ | ⟨b, p, v, hs, hp, hv, hall, hb⟩ := h
  · exact hne (List.append_eq_nil_iff.mp h).2
  · rw [mem_getLast?_append hne] at hx
    obtain ⟨h1, h2⟩ := hw x (List.mem_of_getLast? hx)
    obtain ⟨h3, h4, h5⟩ := letterLike_not h1
    obtain h | h | h | h := h
    · exact absurd h (Bool.eq_false_iff.mp h2)
    · exact absurd h (Bool.eq_false_iff.mp h3)
    · exact absurd h (Bool.eq_false_iff.mp h4)
    · exact absurd (newline_space h) (Bool.eq_false_iff.mp h5)
  · -- the punctuation is in front of the word, so the letters are those of the word
    have hpw : p ∉ w := fun h => absurd hp (Bool.eq_false_iff.mp (letterLike_not (hw p h).1).2.1)
    obtain ⟨e, rfl, he⟩ | ⟨e, rfl, he⟩ := List.append_eq_append_iff.mp hs
    · exact hpw (by rw [he]; exact List.mem_append_right _ List.mem_cons_self)
    cases e with
    | nil => exact hpw (by rw [List.nil_append] at he; rw [← he]; exact List.mem_cons_self)
    | cons q e =>
      obtain ⟨rfl, rfl⟩ := List.cons.inj he
      have halpha : ahead alpha w = true := by
        obtain ⟨d, w, rfl⟩ := List.exists_cons_of_ne_nil hne
        exact hall d (List.mem_append_right _ List.mem_cons_self)
      by_cases hq : e = []
      · rw [hq] at hl
        obtain ⟨-, hl⟩ := hl halpha p List.getLast?_concat
        obtain ⟨y, hy, hl⟩ := hl hp
        rw [List.dropLast_concat] at hy
        obtain ⟨h1, h2⟩ := hb y hy
        exact hl.elim (fun h => absurd h (Bool.eq_false_iff.mp h1)) h2
      · have hx : e.getLast hq ∈ (b ++ p :: e).getLast? := by
          rw [List.append_cons, mem_getLast?_append hq]
          exact List.getLast?_eq_some_getLast hq
        exact absurd (hall _ (List.mem_append_left _ (List.getLast_mem hq))) (Bool.eq_false_iff.mp (hl halpha _ hx).1)

/-- The first CJK or kana character of a text. -/
theorem first_cjk (h : ¬∀ c ∈ w, cjk c = false) :
    ∃ a c b, w = a ++ c :: b ∧ cjk c = true ∧ ∀ d ∈ a, cjk d = false := by
  induction w with
  | nil => exact absurd (fun _ h => nomatch h) h
  | cons c w ih =>
    by_cases hc : cjk c = true
    · exact ⟨[], c, w, rfl, hc, fun _ h => nomatch h⟩
    · have hc := Bool.eq_false_iff.mpr hc
      obtain ⟨a, d, b, rfl, hd, ha⟩ := ih fun hw => h (List.forall_mem_cons.mpr ⟨hc, hw⟩)
      exact ⟨c :: a, d, b, rfl, hd, List.forall_mem_cons.mpr ⟨hc, ha⟩⟩

/-- A piece that starts where its characters are closed off does not mix. -/
theorem Step.unmixed (hstep : Step m t) (h : Boundary l (m ++ t))
    (hclosed : ∀ a c b, m = a ++ c :: b → Joyai.cjk c = true → Closed (l ++ a)) : Unmixed m := by
  cases hstep with
  | digits _ hall => exact .inr fun c hc => asciiClass_cjk (hall c hc)
  | cjk _ hall => exact .inl hall
  | word hp _ hw => exact .inr (List.forall_mem_cons.mpr ⟨asciiClass_cjk hp, fun c hc => asciiClass_cjk (hw c hc)⟩)
  | letters _ hfirst hw =>
    by_contra hmix
    obtain ⟨a, c, b, rfl, hc, ha⟩ := first_cjk fun h => hmix (.inr h)
    cases a with
    | nil => exact absurd hc (Bool.eq_false_iff.mp hfirst)
    | cons d a =>
      refine not_closed_word (w := d :: a) h.alpha (List.cons_ne_nil _ _) (fun e he => ⟨hw e ?_, ha e he⟩)
        (hclosed _ c b rfl hc)
      exact List.mem_append_left _ he
  | @blank d w _ hd hnl _ hw =>
    by_contra hmix
    obtain ⟨a, c, b, rfl, hc, ha⟩ := first_cjk fun h => hmix (.inr (List.forall_mem_cons.mpr ⟨asciiClass_cjk hd, h⟩))
    obtain ⟨hl, hdigit, hpunct⟩ := space_not hd
    have halpha : alpha d = false := Bool.eq_false_iff.mpr fun h => absurd (alpha_letterLike h) (Bool.eq_false_iff.mp hl)
    have hlast : ∀ x ∈ (l ++ [d]).getLast?, x = d := by
      intro x hx
      rw [List.getLast?_concat] at hx
      exact (Option.some.inj hx).symm
    have hcl := hclosed (d :: a) c b rfl hc
    rw [List.append_cons] at hcl
    by_cases hne : a = []
    · rw [hne, List.append_nil] at hcl
      refine not_closed_of_last (List.append_ne_nil_of_right_ne_nil _ (List.cons_ne_nil _ _)) (fun x hx => ?_) hcl
      rw [hlast x hx]
      exact ⟨asciiClass_cjk hd, hdigit, hpunct, hnl, halpha⟩
    · refine not_closed_word (fun _ x hx => ?_) hne (fun e he => ⟨hw e (List.mem_append_left _ he), ha e he⟩) hcl
      rw [hlast x hx]
      exact ⟨halpha, fun h => absurd h (Bool.eq_false_iff.mp hpunct)⟩
  | @punct a p n _ ha _ hp hn =>
    refine .inr (List.forall_mem_append.mpr ⟨fun c hc => ?_, List.forall_mem_append.mpr
      ⟨fun c hc => asciiClass_cjk (hp c hc), fun c hc => asciiClass_cjk (hn c hc)⟩⟩)
    obtain rfl | rfl := ha
    · cases hc
    · rw [List.mem_singleton.mp hc]
      decide
  | newline hu hx =>
    refine .inr (List.forall_mem_append.mpr ⟨fun c hc => asciiClass_cjk (hu c hc), fun c hc => ?_⟩)
    rw [List.mem_singleton.mp hc]
    exact asciiClass_cjk hx
  | spaces _ hall => exact .inr fun c hc => asciiClass_cjk (hall c hc).1
  | butLast _ hall => exact .inr fun c hc => asciiClass_cjk (hall c hc).1

/-- In an unmixed piece what comes in front of a CJK or kana character is closed. -/
theorem Unmixed.closed {a b : List Char} (hm : Unmixed m) (h : Boundary l (m ++ t)) (hs : m = a ++ c :: b)
    (hc : cjk c = true) : Closed (l ++ a) := by
  obtain hall | hnone := hm
  · by_cases ha : a = []
    · rw [ha, List.append_nil]
      refine h.closed ?_
      rw [hs, ha]
      exact hc
    · have hx := List.getLast_mem ha
      refine .inr (.inl ⟨a.getLast ha, (mem_getLast?_append ha).mpr (List.getLast?_eq_some_getLast ha), .inl (hall _ ?_)⟩)
      rw [hs]
      exact List.mem_append_left _ hx
  · exact absurd hc (Bool.eq_false_iff.mp (hnone c (by rw [hs]; exact List.mem_append_right _ List.mem_cons_self)))

theorem Run.unmixed_iff (h : Run cs ms) (hl : Boundary l cs) :
    (∀ m ∈ ms, Unmixed m) ↔ ∀ a c b, cs = a ++ c :: b → cjk c = true → Closed (l ++ a) := by
  induction h generalizing l with
  | nil =>
    refine ⟨fun _ a c b hs => ?_, fun _ _ h => nomatch h⟩
    exact absurd hs.symm (List.append_ne_nil_of_right_ne_nil _ (List.cons_ne_nil _ _))
  | @cons m t ms hstep hrun ih =>
    have ih := ih (hl.step hstep)
    constructor
    · intro hms a c b hs hc
      obtain ⟨hm, hrest⟩ := List.forall_mem_cons.mp hms
      obtain ⟨e, rfl, he⟩ | ⟨e, rfl, he⟩ := List.append_eq_append_iff.mp hs
      · -- behind the piece
        rw [← List.append_assoc]
        exact ih.mp hrest e c b he hc
      · cases e with
        | nil =>
          have h := ih.mp hrest [] c b he.symm hc
          rwa [List.append_nil, List.append_nil] at h
        | cons d e =>
          obtain ⟨rfl, rfl⟩ := List.cons.inj he
          exact hm.closed hl rfl hc
    · intro hclosed
      refine List.forall_mem_cons.mpr ⟨hstep.unmixed hl fun a c b hs hc => ?_, ih.mpr fun a c b hs hc => ?_⟩
      · exact hclosed a c (b ++ t) (by rw [hs, List.append_assoc, List.cons_append]) hc
      · rw [List.append_assoc]
        exact hclosed (m ++ a) c b (by rw [hs, List.append_assoc]) hc

end

/-! ## The pieces -/

theorem encodeText_inj {a b : List Char} (h : encodeText a = encodeText b) : a = b := by
  induction a generalizing b with
  | nil => exact (encodeText_eq_nil_iff.mp h.symm).symm
  | cons c a ih =>
    cases b with
    | nil => exact absurd h encodeText_ne_nil
    | cons d b =>
      have hcd := congrArg utf8PeekOne h
      rw [utf8PeekOne_encodeText, utf8PeekOne_encodeText] at hcd
      obtain rfl := Char.toNat_inj.mp hcd
      rw [encodeText_cons, encodeText_cons, List.append_cancel_left_eq] at h
      rw [ih h]

/-- On ordinary text the pieces are those of the staged split, with no piece that mixes CJK and kana with anything else,
exactly where every CJK or kana character is closed off. -/
theorem pieces_eq_split_iff (cs : List Char) (hcs : ∀ c ∈ cs, Ordinary c) :
    (Tokenizer.joyai.pieces (encodeText cs) = (split cs).map encodeText ∧
      ∀ m, encodeText m ∈ Tokenizer.joyai.pieces (encodeText cs) → Unmixed m) ↔ Isolated cs := by
  obtain ⟨ms, hrun, hms⟩ := pieces_run hcs
  have hiff := hrun.unmixed_iff (Boundary.start cs)
  simp only [List.nil_append] at hiff
  rw [hms, Isolated, ← hiff]
  constructor
  · intro h m hm
    exact h.2 m (List.mem_map.mpr ⟨m, hm, rfl⟩)
  · intro hunmixed
    refine ⟨by rw [split_of_unmixed hrun hcs hunmixed], fun m hm => ?_⟩
    obtain ⟨p, hp, hpm⟩ := List.mem_map.mp hm
    rw [← encodeText_inj hpm]
    exact hunmixed p hp

theorem pieces_eq_split_iff_blank :
    (Tokenizer.joyai.pieces (encodeText [' ', '中']) = (split [' ', '中']).map encodeText ∧
      ∀ m, encodeText m ∈ Tokenizer.joyai.pieces (encodeText [' ', '中']) → Unmixed m) ↔ Isolated [' ', '中'] :=
  pieces_eq_split_iff [' ', '中'] (List.forall_mem_cons.mpr
    ⟨fun _ => .inl (by decide), List.forall_mem_singleton.mpr fun h => absurd h (by decide)⟩)

/-- A blank in front of CJK joins it. -/
theorem pieces_blank_cjk : ¬(Tokenizer.joyai.pieces (encodeText [' ', '中']) = (split [' ', '中']).map encodeText) := by
  decide +kernel

end Ds4.Tokenizer.Joyai
