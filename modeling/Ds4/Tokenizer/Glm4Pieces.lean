import Ds4.Tokenizer.Glm4Pattern

/-!
# The GLM pieces are the matches

Alternative by alternative the scan takes what the pattern takes, so the pieces of a text are the matches of the pattern
one behind the other.
-/

namespace Ds4.Tokenizer
open C Regex

section
variable {c : Char} {cs s : List Char} {r : SpaceRun}

theorem first_glm4Pattern : glm4Pattern.first s = (contracted s).or ((letterRun.first s).or ((numberRun.first s).or
    ((punctRun.first s).or ((newlineEnd.first s).or ((spaceEnd.first s).or (spaceRun.first s)))))) := by
  rw [glm4Pattern, first_alts_append, first_alts, ← contracted]
  simp only [first_alts_cons, first_alts_nil, Option.or_none]

/-! ## Letters, digits, punctuation -/

theorem first_letterRun : letterRun.first (c :: cs) =
    if !(isNewline c || isNumber c) && (isLetter c || cs.head?.any isLetter) then some (cs.dropWhile isLetter)
    else none := by
  have hletter : isLetter c = true → isNewline c = false ∧ isNumber c = false := by
    intro h
    obtain ⟨hnumber, hspace⟩ := letter_not h
    exact ⟨Bool.eq_false_iff.mpr fun hn => absurd (newline_space hn) (by rw [hspace]; decide), hnumber⟩
  rw [letterRun, first_seq_opt, first_seq_one_cons, first_plus, first_plus_cons]
  grind

theorem first_numberRun : numberRun.first (c :: cs) =
    if isNumber c then some (cs.drop ((cs.take 2).takeWhile isNumber).length) else none := by
  rw [numberRun, first_seq_one_cons, first_upTo]

/-- Where the punctuation may start, as characters. -/
def punctText : List Char → List Char
  | [] => []
  | c :: cs => if c = ' ' then cs else c :: cs

theorem first_punctRun : punctRun.first (c :: cs) =
    if (punctText (c :: cs)).head?.any isPunct then
      some (((punctText (c :: cs)).dropWhile isPunct).dropWhile isNewline)
    else none := by
  have hstar : ∀ s, (star (.one isNewline)).first s = some (s.dropWhile isNewline) := fun s => first_star
  have hrun : ∀ s, first (.seq (plus (.one isPunct)) (.star (.one isNewline))) s =
      if s.head?.any isPunct then some ((s.dropWhile isPunct).dropWhile isNewline) else none := by
    intro s
    rw [first_seq_total hstar, first_plus]
    split <;> rfl
  have hblank : isPunct ' ' = false :=
    Bool.eq_false_iff.mpr fun h => absurd blank_space (Bool.eq_false_iff.mp (isPunct_iff.mp h).1)
  rw [punctRun, first_seq_opt, first_seq_one_cons, hrun, hrun, punctText]
  by_cases hc : c = ' '
  · rw [if_pos (beq_iff_eq.mpr hc), if_pos hc, hc, List.head?_cons, Option.any_some, hblank, if_neg Bool.false_ne_true,
      Option.or_none]
  · rw [if_neg fun h => hc (beq_iff_eq.mp h), if_neg hc, Option.none_or]

/-! ## White space -/

theorem glm4Spaces_nil : glm4Spaces r (encodeText []) = r := by
  rw [glm4Spaces]
  exact if_pos rfl

theorem glm4Spaces_cons : glm4Spaces r (encodeText (c :: cs)) =
    if isWhitespace c then glm4Spaces (r.push (charInfo c)) (encodeText cs) else r := by
  rw [glm4Spaces, if_neg encodeText_ne_nil, glm4CharAt_encodeText, charInfo_valid, Bool.true_and, drop_charInfo_next]
  rfl

theorem glm4Spaces_p (r : SpaceRun) (s : List Char) :
    (glm4Spaces r (encodeText s)).p = r.p + (encodeText (s.takeWhile isWhitespace)).length := by
  induction s generalizing r with
  | nil =>
    rw [glm4Spaces_nil]
    rfl
  | cons c s ih =>
    rw [glm4Spaces_cons, List.takeWhile_cons]
    split
    · rw [ih, length_charInfo_cons, ← Nat.add_assoc]
      rfl
    · rfl

theorem first_newlineEnd_nil : newlineEnd.first [] = none := rfl

theorem first_newlineEnd_cons : newlineEnd.first (c :: cs) =
    if isWhitespace c then (newlineEnd.first cs).or (if isNewline c then some (cs.dropWhile isNewline) else none)
    else none :=
  first_star_plus_cons newline_space

/-- The end of the last newline is where the pattern ends. -/
theorem newlineEnd_spec (r : SpaceRun) (s : List Char) :
    (∃ m t, s = m ++ t ∧ m ≠ [] ∧ newlineEnd.first s = some t ∧
      (glm4Spaces r (encodeText s)).lastNewlineEnd = r.p + (encodeText m).length) ∨
    newlineEnd.first s = none ∧ s.dropWhile isNewline = s ∧
      (glm4Spaces r (encodeText s)).lastNewlineEnd = r.lastNewlineEnd := by
  induction s generalizing r with
  | nil =>
    right
    rw [glm4Spaces_nil]
    exact ⟨rfl, rfl, rfl⟩
  | cons c s ih =>
    rw [first_newlineEnd_cons, glm4Spaces_cons]
    by_cases hc : isWhitespace c = true
    · rw [if_pos hc, if_pos hc]
      obtain ⟨m, t, hs, hm, hfirst, hend⟩ | ⟨hfirst, hdrop, hend⟩ := ih (r.push (charInfo c))
      · left
        refine ⟨c :: m, t, by rw [hs]; rfl, List.cons_ne_nil _ _, by rw [hfirst]; rfl, ?_⟩
        rw [hend, length_charInfo_cons, ← Nat.add_assoc]
        rfl
      · rw [hfirst, Option.none_or, hdrop, hend]
        by_cases hn : isNewline c = true
        · left
          have hend' : (r.push (charInfo c)).lastNewlineEnd = r.p + (charInfo c).next := by
            rw [SpaceRun.push, charInfo_cp]
            exact if_pos hn
          refine ⟨[c], s, rfl, List.cons_ne_nil _ _, if_pos hn, ?_⟩
          rw [hend', length_charInfo_cons]
          rfl
        · right
          rw [if_neg hn, List.dropWhile_cons_of_neg hn, SpaceRun.push, charInfo_cp]
          exact ⟨rfl, rfl, if_neg hn⟩
    · right
      rw [if_neg hc, if_neg hc, List.dropWhile_cons_of_neg fun hn => hc (newline_space hn)]
      exact ⟨rfl, rfl, rfl⟩

/-- What the white space leaves that is not in front of anything else. -/
def notJoined : Regex Char := .seq (.star (.one isWhitespace)) (.notAhead (.one fun c => !isWhitespace c))

theorem first_spaceEnd : spaceEnd.first (c :: cs) = if isWhitespace c then notJoined.first cs else none :=
  first_seq_plus_cons

theorem first_notJoined_cons : notJoined.first (c :: cs) =
    if isWhitespace c then (notJoined.first cs).or (some (c :: cs)) else none :=
  first_star_notAhead_cons

/-- A run of white space up to the end of the text, none, or one in front of other text, which leaves its last character. -/
theorem notJoined_spec (r : SpaceRun) (s : List Char) :
    s.dropWhile isWhitespace = [] ∧ notJoined.first s = some [] ∨
    s.dropWhile isWhitespace ≠ [] ∧ (
      s.takeWhile isWhitespace = [] ∧ notJoined.first s = none ∧ glm4Spaces r (encodeText s) = r ∨
      ∃ m t, s = m ++ t ∧ notJoined.first s = some t ∧
        (glm4Spaces r (encodeText s)).lastWsStart = r.p + (encodeText m).length ∧
        r.nspace < (glm4Spaces r (encodeText s)).nspace) := by
  induction s generalizing r with
  | nil => exact .inl ⟨rfl, rfl⟩
  | cons c s ih =>
    rw [first_notJoined_cons, glm4Spaces_cons]
    by_cases hc : isWhitespace c = true
    · rw [if_pos hc, if_pos hc, List.dropWhile_cons_of_pos hc, List.takeWhile_cons_of_pos hc]
      obtain ⟨hdrop, hfirst⟩ | ⟨hdrop, ⟨-, hfirst, hspaces⟩ | ⟨m, t, hs, hfirst, hstart, hn⟩⟩ := ih (r.push (charInfo c))
      · exact .inl ⟨hdrop, by rw [hfirst]; rfl⟩
      · refine .inr ⟨hdrop, .inr ⟨[], c :: s, rfl, by rw [hfirst]; rfl, ?_⟩⟩
        rw [hspaces]
        exact ⟨rfl, Nat.lt_succ_self _⟩
      · refine .inr ⟨hdrop, .inr ⟨c :: m, t, by rw [hs]; rfl, by rw [hfirst]; rfl, ?_, Nat.lt_of_succ_lt hn⟩⟩
        rw [hstart, length_charInfo_cons, ← Nat.add_assoc]
        rfl
    · rw [if_neg hc, if_neg hc, List.dropWhile_cons_of_neg hc, List.takeWhile_cons_of_neg hc]
      exact .inr ⟨List.cons_ne_nil _ _, .inl ⟨rfl, rfl, rfl⟩⟩

/-- The end that the scan of white space chooses. -/
theorem glm4SpaceEnd_encodeText (hc : isWhitespace c = true) : ∃ m t, c :: cs = m ++ t ∧ m ≠ [] ∧
    (newlineEnd.first (c :: cs)).or ((spaceEnd.first (c :: cs)).or (spaceRun.first (c :: cs))) = some t ∧
    glm4SpaceEnd (encodeText (c :: cs)) = (encodeText m).length := by
  have hp := glm4Spaces_p ⟨0, 0, 0, 0⟩ (c :: cs)
  rw [Nat.zero_add] at hp
  rw [glm4SpaceEnd]
  obtain ⟨m, t, hs, hm, hfirst, hend⟩ | ⟨hfirst, -, hend⟩ := newlineEnd_spec ⟨0, 0, 0, 0⟩ (c :: cs)
  · rw [Nat.zero_add] at hend
    have hpos : 0 < (encodeText m).length := List.length_pos_of_ne_nil (mt encodeText_eq_nil_iff.mp hm)
    refine ⟨m, t, hs, hm, by rw [hfirst]; rfl, ?_⟩
    rw [hend, if_pos hpos.ne']
  -- without a newline the choice is how much of the run is left to the text behind it
  rw [hfirst, hend, if_neg (fun h => h rfl), Option.none_or, first_spaceEnd, if_pos hc, hp, List.takeWhile_cons_of_pos hc]
  have hrun : c :: cs = (c :: cs.takeWhile isWhitespace) ++ cs.dropWhile isWhitespace := by
    rw [List.cons_append, List.takeWhile_append_dropWhile]
  have hspace : spaceRun.first (c :: cs) = some (cs.dropWhile isWhitespace) := by
    rw [spaceRun, first_plus_cons, if_pos hc]
  have hcons : glm4Spaces ⟨0, 0, 0, 0⟩ (encodeText (c :: cs)) =
      glm4Spaces (SpaceRun.push ⟨0, 0, 0, 0⟩ (charInfo c)) (encodeText cs) := by
    rw [glm4Spaces_cons, if_pos hc]
  obtain ⟨hdrop, hjoined⟩ | ⟨hdrop, ⟨htake, hjoined, hspaces⟩ | ⟨m, t, hs, hjoined, hstart, hn⟩⟩ :=
    notJoined_spec (SpaceRun.push ⟨0, 0, 0, 0⟩ (charInfo c)) cs
  · rw [hdrop, List.append_nil] at hrun
    refine ⟨c :: cs, [], (List.append_nil _).symm, List.cons_ne_nil _ _, by rw [hjoined]; rfl, ?_⟩
    rw [← hrun, if_neg fun h => Nat.lt_irrefl _ h.2]
  · refine ⟨[c], cs.dropWhile isWhitespace, by rw [htake] at hrun; exact hrun, List.cons_ne_nil _ _, ?_, ?_⟩
    · rw [hjoined, hspace]
      rfl
    · rw [hcons, hspaces, htake]
      exact if_neg fun h => Nat.lt_irrefl _ h.1
  · refine ⟨c :: m, t, by rw [hs]; rfl, List.cons_ne_nil _ _, by rw [hjoined]; rfl, ?_⟩
    have hlt : (encodeText (c :: cs.takeWhile isWhitespace)).length < (encodeText (c :: cs)).length := by
      have hpos := List.length_pos_of_ne_nil (mt encodeText_eq_nil_iff.mp hdrop)
      rw [congrArg encodeText hrun, encodeText_append, List.length_append]
      omega
    have hfirstEnd : (SpaceRun.push ⟨0, 0, 0, 0⟩ (charInfo c)).p = (charInfo c).next := Nat.zero_add _
    rw [hcons, if_pos ⟨hn, hlt⟩, hstart, length_charInfo_cons, hfirstEnd]

/-! ## Pieces -/

theorem glm4PunctEnd_encodeText (a b : List Char) : glm4PunctEnd (encodeText (a ++ b)) (encodeText a).length =
    (encodeText (a ++ (b.takeWhile isPunct ++ (b.dropWhile isPunct).takeWhile isNewline))).length := by
  have hdrop := drop_encodeText (a ++ b.takeWhile isPunct) (b.dropWhile isPunct)
  rw [List.append_assoc, List.takeWhile_append_dropWhile] at hdrop
  have hpunct : glm4Run glm4IsPunct (encodeText b) = (encodeText (b.takeWhile isPunct)).length := glm4Run_encodeText _ b
  have hnewline : glm4Run (fun scan => glm4Newline scan.cp) (encodeText (b.dropWhile isPunct)) =
      (encodeText ((b.dropWhile isPunct).takeWhile isNewline)).length := by
    rw [glm4Run_encodeText]
    simp only [charInfo_cp]
    rfl
  rw [glm4PunctEnd, drop_encodeText]
  rw [hpunct, ← List.length_append, ← encodeText_append, hdrop, hnewline, ← List.length_append, ← encodeText_append,
    List.append_assoc]

/-- The blank that may stand in front of the punctuation belongs to the piece. -/
theorem punctText_spec : ∃ a, c :: cs = a ++ punctText (c :: cs) ∧
    (encodeText (c :: cs)).drop (glm4PunctPos (encodeText (c :: cs))) = encodeText (punctText (c :: cs)) ∧
    glm4PunctEnd (encodeText (c :: cs)) (glm4PunctPos (encodeText (c :: cs))) =
      (encodeText (a ++ ((punctText (c :: cs)).takeWhile isPunct ++
        ((punctText (c :: cs)).dropWhile isPunct).takeWhile isNewline))).length := by
  have hblank : (ch ' ').toNat = ' '.toNat := by decide
  rw [glm4PunctPos, glm4CharAt_encodeText, charInfo_cp, punctText, hblank]
  by_cases hc : c = ' '
  · have hnext : (charInfo c).next = (encodeText [c]).length := by rw [length_charInfo_cons]; rfl
    rw [if_pos hc, if_pos (congrArg Char.toNat hc), hnext]
    exact ⟨[c], rfl, drop_encodeText [c] cs, glm4PunctEnd_encodeText [c] cs⟩
  · rw [if_neg hc, if_neg fun h => hc (Char.toNat_inj.mp h)]
    exact ⟨[], rfl, rfl, glm4PunctEnd_encodeText [] (c :: cs)⟩

theorem isPunct_charAt : ((glm4CharAt (encodeText s)).valid = true ∧ glm4IsPunct (glm4CharAt (encodeText s)) = true) ↔
    s.head?.any isPunct = true := by
  cases s with
  | nil => exact ⟨fun h => absurd h.1 Bool.false_ne_true, fun h => absurd h Bool.false_ne_true⟩
  | cons c s =>
    rw [glm4CharAt_encodeText, charInfo_valid]
    exact and_iff_right rfl

/-- What no other rule takes is white space. -/
theorem isWhitespace_of_not (hl : ¬(!(isNewline c || isNumber c) && (isLetter c || cs.head?.any isLetter)) = true)
    (hn : ¬isNumber c = true) (hp : ¬(punctText (c :: cs)).head?.any isPunct = true) : isWhitespace c = true := by
  rw [Bool.not_eq_true] at hn
  by_cases hnl : isNewline c = true
  · exact newline_space hnl
  by_cases hc : c = ' '
  · rw [hc]
    exact blank_space
  have hletter : isLetter c = false := by
    rw [Bool.eq_false_iff]
    intro h
    exact hl (by rw [h, hn, Bool.eq_false_iff.mpr hnl]; rfl)
  rw [punctText, if_neg hc, List.head?_cons, Option.any_some, isPunct_iff] at hp
  by_contra hw
  exact hp ⟨Bool.eq_false_iff.mpr hw, hletter, hn⟩

/-- The next piece is the match at the start of the text. -/
theorem glm4Piece_encodeText : ∃ m t, c :: cs = m ++ t ∧ m ≠ [] ∧ glm4Pattern.first (c :: cs) = some t ∧
    glm4Piece (encodeText (c :: cs)) = (encodeText m).length := by
  have hhead : (glm4CharAt (encodeText cs)).isLetter = cs.head?.any isLetter := by
    cases cs with
    | nil => rfl
    | cons d cs => rw [glm4CharAt_encodeText]; rfl
  rw [first_glm4Pattern, glm4Piece, glm4CharAt_encodeText, drop_charInfo_next, hhead, charInfo_cp]
  obtain ⟨m, t, hs, hm, hfirst, hpiece⟩ | ⟨hfirst, hpiece⟩ := glm4Contraction_encodeText (c :: cs)
  · rw [hpiece, hfirst]
    exact ⟨m, t, hs, hm, rfl, rfl⟩
  obtain ⟨a, ha, hdrop, hend⟩ := @punctText_spec c cs
  rw [hpiece, hfirst, Option.none_or, first_letterRun, first_numberRun, first_punctRun, hdrop, hend]
  dsimp only
  have hcond : (¬(glm4Newline c.toNat = true ∨ (charInfo c).isNumber = true) ∧
      ((charInfo c).isLetter = true ∨ cs.head?.any isLetter = true)) ↔
      (!(isNewline c || isNumber c) && (isLetter c || cs.head?.any isLetter)) = true := by
    rw [Bool.and_eq_true, Bool.not_eq_true', Bool.or_eq_true, Bool.or_eq_false_iff, not_or, Bool.not_eq_true, Bool.not_eq_true]
    rfl
  have hnumber : (charInfo c).isNumber = isNumber c := rfl
  by_cases hl : (!(isNewline c || isNumber c) && (isLetter c || cs.head?.any isLetter)) = true
  · rw [if_pos hl, if_pos (hcond.mpr hl), glm4Run_encodeText]
    refine ⟨c :: cs.takeWhile isLetter, cs.dropWhile isLetter, ?_, List.cons_ne_nil _ _, rfl, ?_⟩
    · rw [List.cons_append, List.takeWhile_append_dropWhile]
    · rw [length_charInfo_cons]
      rfl
  rw [if_neg hl, if_neg (mt hcond.mp hl), Option.none_or, hnumber]
  by_cases hn : isNumber c = true
  · rw [if_pos hn, if_pos hn]
    refine ⟨c :: (cs.take 2).takeWhile isNumber, _, ?_, List.cons_ne_nil _ _, rfl, ?_⟩
    · rw [List.cons_append,
        List.prefix_iff_eq_append.mp ((List.takeWhile_prefix isNumber).trans (List.take_prefix 2 cs))]
    · rw [glm4Digits_encodeText, List.take_succ_cons, List.takeWhile_cons_of_pos hn]
  rw [if_neg hn, if_neg hn, Option.none_or]
  by_cases hp : (punctText (c :: cs)).head?.any isPunct = true
  · rw [if_pos hp, if_pos (isPunct_charAt.mpr hp)]
    refine ⟨_, _, ?_, ?_, rfl, rfl⟩
    · rw [List.append_assoc, List.append_assoc, List.takeWhile_append_dropWhile, List.takeWhile_append_dropWhile]
      exact ha
    · intro hnil
      have htake := (List.append_eq_nil_iff.mp (List.append_eq_nil_iff.mp hnil).2).1
      cases htext : punctText (c :: cs) with
      | nil =>
        rw [htext] at hp
        exact Bool.false_ne_true hp
      | cons d ds =>
        rw [htext] at hp htake
        have hd : isPunct d = true := hp
        rw [List.takeWhile_cons_of_pos hd] at htake
        exact List.cons_ne_nil _ _ htake
  have hspace : (charInfo c).isWhitespace = true := isWhitespace_of_not hl hn hp
  rw [if_neg hp, if_neg (mt isPunct_charAt.mp hp), if_pos hspace, Option.none_or]
  exact glm4SpaceEnd_encodeText hspace

/-- The pieces of a text are the matches of the pattern. -/
theorem glm4_pieces (cs : List Char) : glm4.pieces (encodeText cs) = (glm4Pattern.findAll cs).map encodeText := by
  induction hn : cs.length using Nat.strongRecOn generalizing cs with
  | ind n ih =>
    rw [Splitter.pieces]
    cases cs with
    | nil =>
      rw [findAll_nil]
      exact if_pos rfl
    | cons c cs =>
      obtain ⟨m, t, hs, hm, hfirst, hpiece⟩ := @glm4Piece_encodeText c cs
      have hlen : (encodeText (c :: cs)).take (glm4.piece (encodeText (c :: cs))) = encodeText m ∧
          (encodeText (c :: cs)).drop (glm4.piece (encodeText (c :: cs))) = encodeText t := by
        have hp : glm4.piece (encodeText (c :: cs)) = (encodeText m).length := hpiece
        rw [hp, hs, encodeText_append]
        exact ⟨List.take_left, List.drop_left⟩
      have hlt : t.length < n := by
        have := List.length_pos_of_ne_nil hm
        have := congrArg List.length hs
        rw [List.length_append] at this
        omega
      rw [if_neg encodeText_ne_nil, hlen.1, hlen.2, ih _ hlt t rfl]
      rw [hs] at hfirst ⊢
      rw [findAll_append hm hfirst, List.map_cons]

end
end Ds4.Tokenizer
