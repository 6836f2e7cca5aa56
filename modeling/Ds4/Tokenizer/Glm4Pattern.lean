import Ds4.Lib.Regex
import Ds4.Tokenizer.Characters

/-!
# The pattern of the GLM pre-tokenizer

`bpe_tokenize_text_glm4` cuts a text by hand where a regular expression would. The classes of characters are those of
`glm4_char_at`; with them the pieces are the matches of the pattern, one behind the other.
-/

namespace Ds4.Tokenizer
open C Regex

/-- What `glm4_char_at` says of a character. -/
def charInfo (c : Char) : Glm4CharInfo := glm4CharAt (encodeText [c])

def isLetter (c : Char) : Bool := (charInfo c).isLetter
def isNumber (c : Char) : Bool := (charInfo c).isNumber
def isWhitespace (c : Char) : Bool := (charInfo c).isWhitespace
def isNewline (c : Char) : Bool := glm4Newline c.toNat
/-- `[^\s\p{L}\p{N}]` -/
def isPunct (c : Char) : Bool := glm4IsPunct (charInfo c)

/-- A character that is compared without its case. -/
def caseless (w : Char) : Regex Char := .one fun c => asciiTolowerCp c.toNat == w.toNat

def word (w : List Char) : Regex Char := w.foldr (fun c r => .seq (caseless c) r) .empty

def endings : List (List Char) := [['s'], ['t'], ['r', 'e'], ['v', 'e'], ['m'], ['l', 'l'], ['d']]

/-- `'s|'t|'re|'ve|'m|'ll|'d` -/
def contractions : List (List Char) := endings.map ('\'' :: ·)

/-- `[^\r\n\p{L}\p{N}]?\p{L}+` -/
def letterRun : Regex Char :=
  .seq (opt (.one fun c => !(isNewline c || isLetter c || isNumber c))) (plus (.one isLetter))

/-- `\p{N}{1,3}` -/
def numberRun : Regex Char := .seq (.one isNumber) (upTo 2 (.one isNumber))

/-- ` ?[^\s\p{L}\p{N}]+[\r\n]*` -/
def punctRun : Regex Char := .seq (opt (.one (· == ' '))) (.seq (plus (.one isPunct)) (.star (.one isNewline)))

/-- `\s*[\r\n]+` -/
def newlineEnd : Regex Char := .seq (.star (.one isWhitespace)) (plus (.one isNewline))

/-- `\s+(?!\S)` -/
def spaceEnd : Regex Char := .seq (plus (.one isWhitespace)) (.notAhead (.one fun c => !isWhitespace c))

/-- `\s+` -/
def spaceRun : Regex Char := plus (.one isWhitespace)

def glm4Pattern : Regex Char :=
  alts (contractions.map word ++ [letterRun, numberRun, punctRun, newlineEnd, spaceEnd, spaceRun])

/-! ## The scanners on characters -/

section
variable {c d : Char} {cs : List Char}

theorem glm4CharAt_encodeText : glm4CharAt (encodeText (c :: cs)) = charInfo c := by
  have hpeek : utf8PeekOne (encodeText (c :: cs)) = utf8PeekOne (encodeText [c]) := by
    rw [utf8PeekOne_encodeText, utf8PeekOne_encodeText]
  have hnext : nextUtf8Char (encodeText (c :: cs)) = nextUtf8Char (encodeText [c]) := by
    rw [nextUtf8Char_encodeText, nextUtf8Char_encodeText]
  rw [charInfo, glm4CharAt, glm4CharAt, if_neg encodeText_ne_nil, if_neg encodeText_ne_nil, hpeek, hnext]

theorem charInfo_cp : (charInfo c).cp = c.toNat := by
  rw [charInfo, glm4CharAt, if_neg encodeText_ne_nil]
  exact utf8PeekOne_encodeText

theorem charInfo_next : (charInfo c).next = (encode c.toNat).length := by
  rw [charInfo, (glm4CharAt_of_ne_nil encodeText_ne_nil).2, nextUtf8Char_encodeText]

theorem charInfo_valid : (charInfo c).valid = true := (glm4CharAt_of_ne_nil encodeText_ne_nil).1

theorem drop_charInfo_next : (encodeText (c :: cs)).drop (charInfo c).next = encodeText cs := by
  rw [charInfo_next, encodeText_cons, List.drop_left]

theorem glm4CharAt_nil : glm4CharAt (encodeText []) = ⟨0, 0, false, false, false, false⟩ := if_pos rfl

theorem length_charInfo_cons : (encodeText (c :: cs)).length = (charInfo c).next + (encodeText cs).length := by
  rw [length_encodeText_cons, charInfo_next]

theorem glm4Run_encodeText (cond : Glm4CharInfo → Bool) (cs : List Char) :
    glm4Run cond (encodeText cs) = (encodeText (cs.takeWhile fun c => cond (charInfo c))).length := by
  refine consumeWhile_encodeText (fun c cs => ?_) cs
  rw [glm4CharAt_encodeText, charInfo_valid, Bool.true_and]

theorem glm4Digits_encodeText (n : Nat) (cs : List Char) :
    glm4Digits n (encodeText cs) = (encodeText ((cs.take n).takeWhile isNumber)).length := by
  induction n generalizing cs with
  | zero => rw [List.take_zero]; rfl
  | succ n ih =>
    cases cs with
    | nil =>
      rw [glm4Digits, glm4CharAt_nil]
      rfl
    | cons c cs =>
      rw [glm4Digits, glm4CharAt_encodeText, drop_charInfo_next, charInfo_valid, Bool.true_and, ih, List.take_succ_cons, List.takeWhile_cons]
      have hnum : (charInfo c).isNumber = isNumber c := rfl
      rw [hnum]
      split
      · rw [length_charInfo_cons]
      · rfl

/-! ## Classes -/

theorem charInfo_classes : isWhitespace c = glm4UnicodeWhitespace c.toNat ∧ isNumber c = glm4UnicodeNumber c.toNat ∧
    isLetter c = if c.toNat < 128 then asciiAlpha (UInt8.ofNat c.toNat)
      else !glm4UnicodeWhitespace c.toNat && !glm4UnicodeNumber c.toNat && !glm4UnicodePunctSymbol c.toNat := by
  rw [isWhitespace, isNumber, isLetter, charInfo, glm4CharAt, if_neg encodeText_ne_nil]
  dsimp only
  rw [utf8PeekOne_encodeText]
  exact ⟨rfl, rfl, rfl⟩

/-- A letter is neither a number nor white space. -/
theorem letter_not (h : isLetter c = true) : isNumber c = false ∧ isWhitespace c = false := by
  obtain ⟨hw, hn, hl⟩ := charInfo_classes (c := c)
  rw [hl] at h
  rw [hw, hn]
  split at h
  · next hlt =>
    rw [glm4UnicodeNumber, glm4UnicodeWhitespace, if_pos hlt, if_pos hlt]
    obtain ⟨-, hdigit, -, hspace⟩ := byteClasses (UInt8.ofNat c.toNat)
    exact ⟨Bool.eq_false_iff.mpr fun hd => absurd h (Bool.eq_false_iff.mp (hdigit hd).1),
      Bool.eq_false_iff.mpr fun hs => absurd h (Bool.eq_false_iff.mp (hspace hs).1)⟩
  · rw [Bool.and_eq_true, Bool.and_eq_true, Bool.not_eq_true', Bool.not_eq_true'] at h
    exact ⟨h.1.2, h.1.1⟩

theorem newline_cases (h : isNewline c = true) : c = '\r' ∨ c = '\n' := by
  rw [isNewline, glm4Newline, Bool.or_eq_true, beq_iff_eq, beq_iff_eq] at h
  exact h.imp Char.toNat_inj.mp Char.toNat_inj.mp

theorem newline_space (h : isNewline c = true) : isWhitespace c = true := by
  rw [charInfo_classes.1]
  rcases newline_cases h with rfl | rfl <;> decide

theorem blank_space : isWhitespace ' ' = true := by
  rw [charInfo_classes.1]
  decide

theorem isPunct_iff : isPunct c = true ↔ isWhitespace c = false ∧ isLetter c = false ∧ isNumber c = false := by
  rw [isPunct, glm4IsPunct, Bool.not_eq_true', Bool.or_eq_false_iff, Bool.or_eq_false_iff, and_assoc]
  rfl

/-! ## Contractions -/

theorem first_word_nil {w : Char} {ws : List Char} : first (word (w :: ws)) [] = none := rfl

theorem first_word_cons {w : Char} {ws : List Char} :
    first (word (w :: ws)) (c :: cs) = if asciiTolowerCp c.toNat = w.toNat then first (word ws) cs else none := by
  rw [word, List.foldr_cons, caseless, first_seq_one_cons]
  simp only [beq_iff_eq]
  rfl

theorem first_letter (w : Char) : first (word [w]) (c :: cs) = if asciiTolowerCp c.toNat = w.toNat then some cs else none :=
  first_word_cons

theorem tolower_quote : asciiTolowerCp c.toNat = '\''.toNat ↔ c.toNat = '\''.toNat := by
  have hquote : '\''.toNat = 39 := rfl
  rw [asciiTolowerCp, hquote]
  split <;> omega

/-- The text behind a contraction. -/
def contracted (s : List Char) : Option (List Char) := (contractions.map word).findSome? fun r => r.first s

/-- The text behind the ending of a contraction. -/
def ended (s : List Char) : Option (List Char) := endings.findSome? fun w => (word w).first s

theorem contracted_cons : contracted (c :: cs) = if c.toNat = '\''.toNat then ended cs else none := by
  rw [contracted, contractions, List.findSome?_map, List.findSome?_map, ended]
  show endings.findSome? (fun w => (word ('\'' :: w)).first (c :: cs)) = _
  simp only [first_word_cons, tolower_quote]
  split
  · rfl
  · rfl

theorem ended_cons : ended (d :: cs) =
    let n1 := asciiTolowerCp d.toNat
    if n1 = 's'.toNat ∨ n1 = 't'.toNat ∨ n1 = 'm'.toNat ∨ n1 = 'd'.toNat then some cs
    else if n1 = 'r'.toNat ∨ n1 = 'v'.toNat then (word ['e']).first cs
    else if n1 = 'l'.toNat then (word ['l']).first cs
    else none := by
  rw [ended, endings]
  simp only [List.findSome?_cons, List.findSome?_nil, first_letter, @first_word_cons d cs _ [_]]
  generalize asciiTolowerCp d.toNat = n, (word ['e']).first cs = e, (word ['l']).first cs = l
  -- at most one of the endings starts with the character
  by_cases h : n ∈ ['s'.toNat, 't'.toNat, 'r'.toNat, 'v'.toNat, 'm'.toNat, 'l'.toNat, 'd'.toNat]
  · simp only [List.mem_cons, List.not_mem_nil, or_false] at h
    rcases h with rfl | rfl | rfl | rfl | rfl | rfl | rfl
    all_goals cases e <;> cases l <;> rfl
  · simp only [List.mem_cons, List.not_mem_nil, or_false, not_or] at h
    simp only [h, or_self, if_false]

theorem drop_two : (encodeText (c :: d :: cs)).drop ((charInfo c).next + (charInfo d).next) = encodeText cs := by
  rw [← List.drop_drop, drop_charInfo_next, drop_charInfo_next]

/-- The bytes that are compared with, as characters. -/
theorem ch_letters : (ch '\'').toNat = '\''.toNat ∧ (ch 's').toNat = 's'.toNat ∧ (ch 't').toNat = 't'.toNat ∧
    (ch 'm').toNat = 'm'.toNat ∧ (ch 'd').toNat = 'd'.toNat ∧ (ch 'r').toNat = 'r'.toNat ∧ (ch 'e').toNat = 'e'.toNat ∧
    (ch 'v').toNat = 'v'.toNat ∧ (ch 'l').toNat = 'l'.toNat := by decide

theorem glm4Contraction_encodeText (s : List Char) :
    (∃ m t, s = m ++ t ∧ m ≠ [] ∧ contracted s = some t ∧
      glm4Contraction (encodeText s) = some (encodeText m).length) ∨
    contracted s = none ∧ glm4Contraction (encodeText s) = none := by
  cases s with
  | nil => exact .inr ⟨rfl, rfl⟩
  | cons c s =>
    rw [contracted_cons, glm4Contraction, glm4CharAt_encodeText, charInfo_cp, drop_charInfo_next, length_charInfo_cons]
    simp only [ch_letters]
    by_cases hc : c.toNat = '\''.toNat
    · rw [if_pos hc]
      cases s with
      | nil =>
        right
        exact ⟨rfl, if_neg fun h => Nat.lt_irrefl _ h.2⟩
      | cons d s =>
        rw [if_pos ⟨hc, Nat.lt_add_of_pos_right (List.length_pos_of_ne_nil encodeText_ne_nil)⟩, ended_cons,
          glm4CharAt_encodeText, drop_two, charInfo_cp, charInfo_valid, length_charInfo_cons]
        dsimp only
        by_cases h1 : asciiTolowerCp d.toNat = 's'.toNat ∨ asciiTolowerCp d.toNat = 't'.toNat ∨
            asciiTolowerCp d.toNat = 'm'.toNat ∨ asciiTolowerCp d.toNat = 'd'.toNat
        · rw [if_pos h1, if_pos h1]
          left
          refine ⟨[c, d], s, rfl, List.cons_ne_nil _ _, rfl, ?_⟩
          rw [length_charInfo_cons, length_charInfo_cons]
          rfl
        rw [if_neg h1, if_neg h1]
        cases s with
        | nil =>
          right
          refine ⟨?_, if_neg fun h => Nat.lt_irrefl _ h.2⟩
          split <;> [skip; split] <;> rfl
        | cons e s =>
          have hlt : (charInfo c).next + (charInfo d).next <
              (charInfo c).next + ((charInfo d).next + (encodeText (e :: s)).length) := by
            have := List.length_pos_of_ne_nil (@encodeText_ne_nil e s)
            omega
          rw [if_pos (@And.intro (true = true) _ rfl hlt), first_letter 'e', first_letter 'l', glm4CharAt_encodeText, charInfo_cp]
          by_cases h2 : asciiTolowerCp d.toNat = 'r'.toNat ∧ asciiTolowerCp e.toNat = 'e'.toNat ∨
              asciiTolowerCp d.toNat = 'v'.toNat ∧ asciiTolowerCp e.toNat = 'e'.toNat ∨
              asciiTolowerCp d.toNat = 'l'.toNat ∧ asciiTolowerCp e.toNat = 'l'.toNat
          · left
            refine ⟨[c, d, e], s, rfl, List.cons_ne_nil _ _, ?_, ?_⟩
            · rcases h2 with ⟨hd, he⟩ | ⟨hd, he⟩ | ⟨hd, he⟩
              · rw [hd, he]
                rfl
              · rw [hd, he]
                rfl
              · rw [hd, he]
                rfl
            · rw [length_charInfo_cons, length_charInfo_cons, length_charInfo_cons, ← Nat.add_assoc, ← Nat.add_assoc]
              exact if_pos h2
          · right
            refine ⟨?_, if_neg h2⟩
            split
            · next hd => exact if_neg fun he => h2 (hd.elim (fun hd => .inl ⟨hd, he⟩) fun hd => .inr (.inl ⟨hd, he⟩))
            split
            · next hd => exact if_neg fun he => h2 (.inr (.inr ⟨hd, he⟩))
            · rfl
    · right
      exact ⟨if_neg hc, if_neg fun h => hc h.1⟩

end
end Ds4.Tokenizer
