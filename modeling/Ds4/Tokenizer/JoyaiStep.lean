import Ds4.Lib.Regex
import Ds4.Tokenizer.Characters

/-!
# The DeepSeek scan, character by character

What `bpe_tokenize_text` takes for the next piece, in classes of characters: the bytes it tests are the ASCII characters,
every other character counts as a letter.
-/

namespace Ds4.Tokenizer.Joyai
open C

/-- A class of ASCII characters. -/
def asciiClass (p : UInt8 → Bool) (c : Char) : Bool := decide (c.toNat < 128) && p (UInt8.ofNat c.toNat)

def digit : Char → Bool := asciiClass asciiDigit
def alpha : Char → Bool := asciiClass asciiAlpha
def punct : Char → Bool := asciiClass joyaiAsciiPunctSymbol
def space : Char → Bool := asciiClass asciiSpace
def newline : Char → Bool := asciiClass asciiNewline

/-- A CJK or kana character. -/
def cjk (c : Char) : Bool := utf8IsCjkHiraKata c.toNat

/-- What the scan takes for a part of a word. -/
def letterLike (c : Char) : Bool := alpha c || decide (128 ≤ c.toNat)

/-- A letter that is not a CJK or kana character. -/
def letter (c : Char) : Bool := letterLike c && !cjk c

/-- Not a control character, white space apart. -/
def Ordinary (c : Char) : Prop := c.toNat < 128 → 32 ≤ c.toNat ∧ c.toNat < 127 ∨ space c = true

/-- Whether the text starts with a character of the class. -/
def ahead (p : Char → Bool) (t : List Char) : Bool := t.head?.any p

section
variable {c : Char} {cs s t : List Char} {p q : UInt8 → Bool}

@[simp] theorem ahead_nil (p : Char → Bool) : ahead p [] = false := rfl

@[simp] theorem ahead_cons (p : Char → Bool) : ahead p (c :: cs) = p c := rfl

/-! ## Classes -/

theorem asciiClass_iff : asciiClass p c = true ↔ c.toNat < 128 ∧ p (UInt8.ofNat c.toNat) = true := by
  rw [asciiClass, Bool.and_eq_true, decide_eq_true_iff]

/-- What holds of the bytes holds of the classes. -/
theorem asciiClass_imp (h : ∀ b, p b = true → q b = true) (hc : asciiClass p c = true) : asciiClass q c = true := by
  obtain ⟨hlt, hp⟩ := asciiClass_iff.mp hc
  exact asciiClass_iff.mpr ⟨hlt, h _ hp⟩

theorem asciiClass_not (h : ∀ b, p b = true → q b = false) (hc : asciiClass p c = true) : asciiClass q c = false := by
  obtain ⟨-, hp⟩ := asciiClass_iff.mp hc
  rw [asciiClass, h _ hp, Bool.and_false]

theorem newline_space (h : newline c = true) : space c = true := asciiClass_imp (fun b => (byteClasses b).1) h

theorem asciiClass_letterLike (hc : asciiClass p c = true) : letterLike c = alpha c := by
  have hlt := (asciiClass_iff.mp hc).1
  rw [letterLike, decide_eq_false (Nat.not_le_of_lt hlt), Bool.or_false]

theorem cjk_wide (h : cjk c = true) : 128 ≤ c.toNat := by
  rw [cjk, utf8IsCjkHiraKata, inRanges] at h
  simp only [List.any_cons, List.any_nil, Bool.or_false, Bool.or_eq_true, Bool.and_eq_true, decide_eq_true_iff] at h
  omega

theorem asciiClass_cjk (hc : asciiClass p c = true) : cjk c = false := by
  have hlt := (asciiClass_iff.mp hc).1
  exact Bool.eq_false_iff.mpr fun h => absurd (cjk_wide h) (Nat.not_le_of_lt hlt)

theorem cjk_letterLike (h : cjk c = true) : letterLike c = true := by
  rw [letterLike, decide_eq_true (cjk_wide h), Bool.or_true]

theorem alpha_letterLike (h : alpha c = true) : letterLike c = true := by
  rw [letterLike, h, Bool.true_or]

theorem wide_not (h : 128 ≤ c.toNat) : asciiClass p c = false := by
  rw [asciiClass, decide_eq_false (Nat.not_lt_of_le h), Bool.false_and]

theorem digit_not (h : digit c = true) : letterLike c = false ∧ punct c = false ∧ space c = false := by
  have hb := fun b => (byteClasses b).2.1
  refine ⟨?_, asciiClass_not (fun b hd => (hb b hd).2.1) h, asciiClass_not (fun b hd => (hb b hd).2.2) h⟩
  rw [asciiClass_letterLike h]
  exact asciiClass_not (fun b hd => (hb b hd).1) h

theorem punct_not (h : punct c = true) : letterLike c = false ∧ digit c = false ∧ space c = false := by
  have hb := fun b => (byteClasses b).2.2.1
  refine ⟨?_, asciiClass_not (fun b hp => (hb b hp).2.1) h, asciiClass_not (fun b hp => (hb b hp).2.2) h⟩
  rw [asciiClass_letterLike h]
  exact asciiClass_not (fun b hp => (hb b hp).1) h

theorem space_not (h : space c = true) : letterLike c = false ∧ digit c = false ∧ punct c = false := by
  have hb := fun b => (byteClasses b).2.2.2
  refine ⟨?_, asciiClass_not (fun b hs => (hb b hs).2.1) h, asciiClass_not (fun b hs => (hb b hs).2.2) h⟩
  rw [asciiClass_letterLike h]
  exact asciiClass_not (fun b hs => (hb b hs).1) h

theorem letterLike_not (h : letterLike c = true) : digit c = false ∧ punct c = false ∧ space c = false := by
  refine ⟨Bool.eq_false_iff.mpr fun hc => ?_, Bool.eq_false_iff.mpr fun hc => ?_, Bool.eq_false_iff.mpr fun hc => ?_⟩
  · exact absurd h (by rw [(digit_not hc).1]; exact Bool.false_ne_true)
  · exact absurd h (by rw [(punct_not hc).1]; exact Bool.false_ne_true)
  · exact absurd h (by rw [(space_not hc).1]; exact Bool.false_ne_true)

/-- Every ordinary character has a class. -/
theorem Ordinary.cases (h : Ordinary c) : digit c = true ∨ letterLike c = true ∨ punct c = true ∨ space c = true := by
  by_cases hlt : c.toNat < 128
  · obtain hgraph | hspace := h hlt
    · have hbyte : (UInt8.ofNat c.toNat).toNat = c.toNat := UInt8.toNat_ofNat_of_lt' (Nat.lt_trans hlt (by decide))
      obtain h | h | h | h := (byteClasses_ascii (UInt8.ofNat c.toNat)).1 (by rwa [hbyte])
      · exact .inl (asciiClass_iff.mpr ⟨hlt, h⟩)
      · exact .inr (.inl (alpha_letterLike (asciiClass_iff.mpr ⟨hlt, h⟩)))
      · exact .inr (.inr (.inl (asciiClass_iff.mpr ⟨hlt, h⟩)))
      · exact .inr (.inr (.inr (asciiClass_iff.mpr ⟨hlt, h⟩)))
    · exact .inr (.inr (.inr hspace))
  · right
    left
    rw [letterLike, decide_eq_true (Nat.le_of_not_lt hlt), Bool.or_true]

/-! ## Bytes -/

/-- A class of bytes without those of the characters outside ASCII. -/
def Ascii (p : UInt8 → Bool) : Prop := ∀ b, p b = true → b < 128 ∧ b ≠ 0

theorem ascii_classes : Ascii asciiDigit ∧ Ascii asciiAlpha ∧ Ascii joyaiAsciiPunctSymbol ∧ Ascii asciiSpace ∧
    Ascii asciiNewline := by
  have h := fun b => (byteClasses_ascii b).2
  exact ⟨fun b hd => h b (.inl hd), fun b ha => h b (.inr (.inl ha)), fun b hp => h b (.inr (.inr (.inl hp))),
    fun b hs => h b (.inr (.inr (.inr hs))), fun b hn => h b (.inr (.inr (.inr ((byteClasses b).1 hn))))⟩

theorem encodeText_ascii (h : c.toNat < 128) : encodeText (c :: cs) = UInt8.ofNat c.toNat :: encodeText cs := by
  rw [encodeText_cons, encode, if_pos h]
  rfl

theorem encodeText_wide (h : 128 ≤ c.toNat) : 128 ≤ (encodeText (c :: cs)).getD 0 0 := by
  have hlead : ∀ n, 128 ≤ n → n < 256 → 128 ≤ UInt8.ofNat n := by
    intro n hle hlt
    rw [UInt8.le_iff_toNat_le, UInt8.toNat_ofNat_of_lt' hlt]
    exact hle
  rw [encodeText_cons, encode, if_neg (Nat.not_lt_of_le h)]
  split
  · exact hlead _ (by omega) (by omega)
  split
  · exact hlead _ (by omega) (by omega)
  · exact hlead _ (by omega) (by omega)

/-- A test of the first byte is one of the first character. -/
theorem ascii_first (hp : Ascii p) (cs : List Char) : p ((encodeText cs).getD 0 0) = ahead (asciiClass p) cs := by
  cases cs with
  | nil => exact Bool.eq_false_iff.mpr fun h => (hp _ h).2 rfl
  | cons c cs =>
    rw [ahead_cons]
    by_cases hlt : c.toNat < 128
    · rw [encodeText_ascii hlt, asciiClass, decide_eq_true hlt, Bool.true_and]
      rfl
    · have hwide := @encodeText_wide c cs (Nat.le_of_not_lt hlt)
      rw [wide_not (Nat.le_of_not_lt hlt)]
      exact Bool.eq_false_iff.mpr fun h => absurd (hp _ h).1 (by rw [UInt8.not_lt]; exact hwide)

theorem runLength_encodeText (hp : Ascii p) (n : Nat) (cs : List Char) :
    runLength p ((encodeText cs).take n) = ((cs.take n).takeWhile (asciiClass p)).length := by
  induction cs generalizing n with
  | nil => rw [List.take_nil]; exact congrArg (runLength p) List.take_nil
  | cons c cs ih =>
    cases n with
    | zero => rfl
    | succ n =>
      have hfirst := ascii_first hp (c :: cs)
      rw [ahead_cons] at hfirst
      rw [List.take_succ_cons, List.takeWhile_cons]
      by_cases hc : asciiClass p c = true
      · obtain ⟨hlt, hb⟩ := asciiClass_iff.mp hc
        rw [if_pos hc, encodeText_ascii hlt, List.take_succ_cons, runLength, List.takeWhile_cons_of_pos hb, List.length_cons,
          ← runLength, ih, List.length_cons]
      · rw [if_neg hc]
        obtain ⟨b, bs, hbs⟩ := List.exists_cons_of_ne_nil (@encodeText_ne_nil c cs)
        rw [hbs] at hfirst ⊢
        rw [List.take_succ_cons, runLength, List.takeWhile_cons_of_neg]
        · rfl
        · exact fun h => hc (hfirst.symm.trans h)

theorem length_encodeText_class {cs : List Char} (h : ∀ c ∈ cs, asciiClass p c = true) :
    (encodeText cs).length = cs.length := by
  induction cs with
  | nil => rfl
  | cons c cs ih =>
    obtain ⟨hc, hcs⟩ := List.forall_mem_cons.mp h
    rw [encodeText_ascii (asciiClass_iff.mp hc).1, List.length_cons, List.length_cons, ih hcs]

theorem length_le_encodeText (cs : List Char) : cs.length ≤ (encodeText cs).length := by
  induction cs with
  | nil => exact Nat.le_refl _
  | cons c cs ih =>
    have := List.length_pos_of_ne_nil (encode_length_pos c.toNat)
    rw [encodeText_cons, List.length_append, List.length_cons]
    omega

/-- A run of bytes is one of characters. -/
theorem runLength_take (hp : Ascii p) (n : Nat) (cs : List Char) :
    runLength p ((encodeText cs).take n) = (encodeText ((cs.take n).takeWhile (asciiClass p))).length := by
  rw [runLength_encodeText hp, length_encodeText_class fun c hc => List.mem_takeWhile_imp hc]

theorem runLength_all (hp : Ascii p) (cs : List Char) :
    runLength p (encodeText cs) = (encodeText (cs.takeWhile (asciiClass p))).length := by
  have h := runLength_take hp (encodeText cs).length cs
  rwa [List.take_length, List.take_of_length_le (length_le_encodeText cs)] at h

theorem joyaiCjkAt_encodeText (cs : List Char) : joyaiCjkAt (encodeText cs) = ahead cjk cs := by
  cases cs with
  | nil => rfl
  | cons c cs =>
    rw [joyaiCjkAt, utf8PeekOne_encodeText, ahead_cons]
    by_cases hlt : c.toNat < 128
    · have hb : UInt8.ofNat c.toNat < 128 := by
        rw [UInt8.lt_iff_toNat_lt, UInt8.toNat_ofNat_of_lt' (Nat.lt_trans hlt (by decide))]
        exact hlt
      have hcjk : cjk c = false := Bool.eq_false_iff.mpr fun h => absurd (cjk_wide h) (Nat.not_le_of_lt hlt)
      rw [encodeText_ascii hlt, hcjk]
      exact if_pos hb
    · have hwide := @encodeText_wide c cs (Nat.le_of_not_lt hlt)
      exact if_neg (UInt8.not_lt.mpr hwide)

theorem joyaiLetterLikeAt_encodeText (cs : List Char) : joyaiLetterLikeAt (encodeText cs) = ahead letterLike cs := by
  have hfirst := ascii_first ascii_classes.2.1 cs
  cases cs with
  | nil => rfl
  | cons c cs =>
    rw [ahead_cons] at hfirst ⊢
    rw [joyaiLetterLikeAt, hfirst, letterLike, alpha]
    by_cases hlt : c.toNat < 128
    · have hb : UInt8.ofNat c.toNat < 128 := by
        rw [UInt8.lt_iff_toNat_lt, UInt8.toNat_ofNat_of_lt' (Nat.lt_trans hlt (by decide))]
        exact hlt
      rw [decide_eq_false (Nat.not_le_of_lt hlt), Bool.or_false, encodeText_ascii hlt]
      exact if_pos hb
    · have hwide := @encodeText_wide c cs (Nat.le_of_not_lt hlt)
      rw [decide_eq_true (Nat.le_of_not_lt hlt), Bool.or_true]
      exact if_neg (UInt8.not_lt.mpr hwide)

theorem joyaiConsumeLetters_encodeText (cs : List Char) :
    joyaiConsumeLetters (encodeText cs) = (encodeText (cs.takeWhile letterLike)).length :=
  consumeWhile_encodeText (fun c cs => joyaiLetterLikeAt_encodeText (c :: cs)) cs

theorem consumeCjk_encodeText (cs : List Char) :
    consumeWhile joyaiCjkAt (encodeText cs) = (encodeText (cs.takeWhile cjk)).length :=
  consumeWhile_encodeText (fun c cs => joyaiCjkAt_encodeText (c :: cs)) cs

/-! ## White space -/

theorem joyaiSpaces_encodeText (pos last : Nat) (cs : List Char) : ∃ run t, cs = run ++ t ∧
    (∀ c ∈ run, space c = true) ∧ ahead space t = false ∧
    (joyaiSpaces pos last (encodeText cs)).1 = pos + run.length ∧
    ((∀ c ∈ run, newline c = false) ∧ (joyaiSpaces pos last (encodeText cs)).2 = last ∨
      ∃ u x v, run = u ++ x :: v ∧ newline x = true ∧ (∀ c ∈ v, newline c = false) ∧
        (joyaiSpaces pos last (encodeText cs)).2 = pos + (u.length + 1)) := by
  induction cs generalizing pos last with
  | nil => exact ⟨[], [], rfl, fun _ h => (nomatch h), rfl, rfl, .inl ⟨fun _ h => (nomatch h), rfl⟩⟩
  | cons c cs ih =>
    by_cases hc : space c = true
    · obtain ⟨hlt, hb⟩ := asciiClass_iff.mp hc
      have hn : asciiNewline (UInt8.ofNat c.toNat) = newline c := by
        rw [newline, asciiClass, decide_eq_true hlt, Bool.true_and]
      rw [encodeText_ascii hlt, joyaiSpaces, if_pos hb, hn]
      obtain ⟨run, t, hcs, hrun, ht, hend, hlast⟩ := ih (pos + 1) (if newline c = true then pos + 1 else last)
      refine ⟨c :: run, t, by rw [hcs]; rfl, List.forall_mem_cons.mpr ⟨hc, hrun⟩, ht, ?_, ?_⟩
      · rw [hend, List.length_cons]
        omega
      obtain ⟨hnone, hlast⟩ | ⟨u, x, v, hsplit, hx, hv, hlast⟩ := hlast
      · by_cases hnl : newline c = true
        · refine .inr ⟨[], c, run, rfl, hnl, hnone, ?_⟩
          rw [hlast, if_pos hnl]
          rfl
        · refine .inl ⟨List.forall_mem_cons.mpr ⟨Bool.eq_false_iff.mpr hnl, hnone⟩, ?_⟩
          rw [hlast, if_neg hnl]
      · refine .inr ⟨c :: u, x, v, by rw [hsplit]; rfl, hx, hv, ?_⟩
        rw [hlast, List.length_cons]
        omega
    · have hfirst := ascii_first ascii_classes.2.2.2.1 (c :: cs)
      obtain ⟨b, bs, hbs⟩ := List.exists_cons_of_ne_nil (@encodeText_ne_nil c cs)
      have hb : ¬asciiSpace b = true := by
        rw [hbs] at hfirst
        exact fun h => hc (hfirst.symm.trans h)
      rw [hbs, joyaiSpaces, if_neg hb]
      refine ⟨[], c :: cs, rfl, fun _ h => (nomatch h), Bool.eq_false_iff.mpr hc, rfl, .inl ⟨fun _ h => (nomatch h), rfl⟩⟩

/-! ## One piece -/

/-- What the scan takes from the text `m ++ t`, rule by rule. -/
inductive Step : List Char → List Char → Prop
  | digits {m t : List Char} (hne : m ≠ []) (hm : ∀ c ∈ m, digit c = true) (hlen : m.length ≤ 3)
      (ht : m.length = 3 ∨ ahead digit t = false) : Step m t
  | cjk {m t : List Char} (hne : m ≠ []) (hm : ∀ c ∈ m, cjk c = true) (ht : ahead cjk t = false) : Step m t
  | word {p : Char} {w t : List Char} (hp : punct p = true) (hne : w ≠ []) (hw : ∀ c ∈ w, alpha c = true)
      (ht : ahead alpha t = false) : Step (p :: w) t
  | letters {w t : List Char} (hne : w ≠ []) (hfirst : ahead Joyai.cjk w = false) (hw : ∀ c ∈ w, letterLike c = true)
      (ht : ahead letterLike t = false) : Step w t
  | blank {b : Char} {w t : List Char} (hb : space b = true) (hnl : newline b = false) (hne : w ≠ [])
      (hw : ∀ c ∈ w, letterLike c = true) (ht : ahead letterLike t = false) : Step (b :: w) t
  | punct {a p n t : List Char} (ha : a = [] ∨ a = [' ']) (hne : p ≠ []) (hp : ∀ c ∈ p, punct c = true)
      (hn : ∀ c ∈ n, newline c = true) (hpt : n = [] → ahead Joyai.punct t = false) (ht : ahead newline t = false)
      (hword : a = [] → ahead alpha (p.tail ++ (n ++ t)) = false) : Step (a ++ (p ++ n)) t
  | newline {u v t : List Char} {x : Char} (hu : ∀ c ∈ u, space c = true) (hx : newline x = true)
      (hv : ∀ c ∈ v, space c = true ∧ newline c = false) (ht : ahead space t = false) : Step (u ++ [x]) (v ++ t)
  | spaces {m t : List Char} (hne : m ≠ []) (hm : ∀ c ∈ m, space c = true ∧ Joyai.newline c = false)
      (ht : ahead space t = false) (hl : ahead letterLike t = false)
      (hp : ahead Joyai.punct t = false ∨ ∃ b, m = [b] ∧ b ≠ ' ') : Step m t
  | butLast {m t : List Char} {x : Char} (hne : m ≠ []) (hm : ∀ c ∈ m, space c = true ∧ Joyai.newline c = false)
      (hx : space x = true ∧ Joyai.newline x = false) (ht : ahead letterLike t = true ∨ ahead Joyai.punct t = true) :
      Step m (x :: t)

theorem ahead_dropWhile (p : Char → Bool) (cs : List Char) : ahead p (cs.dropWhile p) = false := by
  induction cs with
  | nil => rfl
  | cons c cs ih =>
    by_cases hc : p c = true
    · rw [List.dropWhile_cons_of_pos hc, ih]
    · rw [List.dropWhile_cons_of_neg hc]
      exact Bool.eq_false_iff.mpr hc

theorem takeWhile_ne_nil {p : Char → Bool} (h : ahead p cs = true) : cs.takeWhile p ≠ [] := by
  cases cs with
  | nil => exact absurd h Bool.false_ne_true
  | cons c cs =>
    have hc : p c = true := h
    rw [List.takeWhile_cons_of_pos hc]
    exact List.cons_ne_nil _ _

/-- Of at most `n` characters either all hold or one that does not comes next. -/
theorem takeWhile_take (p : Char → Bool) (n : Nat) (cs : List Char) :
    ((cs.take n).takeWhile p).length = n ∨ ahead p (cs.drop ((cs.take n).takeWhile p).length) = false := by
  induction cs generalizing n with
  | nil =>
    rw [List.take_nil]
    exact .inr rfl
  | cons c cs ih =>
    cases n with
    | zero => exact .inl rfl
    | succ n =>
      rw [List.take_succ_cons]
      by_cases hc : p c = true
      · rw [List.takeWhile_cons_of_pos hc, List.length_cons, List.drop_succ_cons]
        exact (ih n).imp_left (congrArg (· + 1))
      · rw [List.takeWhile_cons_of_neg hc]
        exact .inr (Bool.eq_false_iff.mpr hc)

/-- A test of the next byte behind an ASCII character. -/
theorem next_class (hp : Ascii p) (hc : c.toNat < 128) :
    (1 < (encodeText (c :: cs)).length ∧ p ((encodeText (c :: cs)).getD 1 0) = true) ↔
      ahead (asciiClass p) cs = true := by
  rw [encodeText_ascii hc, ← ascii_first hp cs]
  refine ⟨fun h => h.2, fun h => ⟨?_, h⟩⟩
  cases cs with
  | nil => exact absurd h (by rw [ascii_first hp]; exact Bool.false_ne_true)
  | cons d cs =>
    have := List.length_pos_of_ne_nil (@encodeText_ne_nil d cs)
    rw [List.length_cons]
    omega

theorem next_letterLike (hc : c.toNat < 128) :
    (1 < (encodeText (c :: cs)).length ∧ joyaiLetterLikeAt ((encodeText (c :: cs)).drop 1) = true) ↔
      ahead letterLike cs = true := by
  rw [encodeText_ascii hc, List.drop_succ_cons, List.drop_zero, joyaiLetterLikeAt_encodeText]
  refine ⟨fun h => h.2, fun h => ⟨?_, h⟩⟩
  cases cs with
  | nil => exact absurd h Bool.false_ne_true
  | cons d cs =>
    have := List.length_pos_of_ne_nil (@encodeText_ne_nil d cs)
    rw [List.length_cons]
    omega

/-- The newlines behind a run of punctuation. -/
theorem punctNewlines (cs : List Char) :
    runLength joyaiAsciiPunctSymbol (encodeText cs) +
        runLength asciiNewline ((encodeText cs).drop (runLength joyaiAsciiPunctSymbol (encodeText cs))) =
      (encodeText (cs.takeWhile punct ++ (cs.dropWhile punct).takeWhile newline)).length := by
  have hdrop := drop_encodeText (cs.takeWhile punct) (cs.dropWhile punct)
  rw [List.takeWhile_append_dropWhile] at hdrop
  have hrun : runLength joyaiAsciiPunctSymbol (encodeText cs) = (encodeText (cs.takeWhile punct)).length :=
    runLength_all ascii_classes.2.2.1 cs
  rw [hrun, hdrop, runLength_all ascii_classes.2.2.2.2, encodeText_append, List.length_append]
  rfl

theorem punct_split (cs : List Char) : cs = cs.takeWhile punct ++ (cs.dropWhile punct).takeWhile newline ++
    (cs.dropWhile punct).dropWhile newline := by
  rw [List.append_assoc, List.takeWhile_append_dropWhile, List.takeWhile_append_dropWhile]

/-- A run of punctuation behind `a` and the newlines behind it. -/
theorem Step.ofPunct {a : List Char} (ha : a = [] ∨ a = [' ']) (h : ahead Joyai.punct cs = true)
    (hword : a = [] → ahead alpha cs.tail = false) :
    Step (a ++ (cs.takeWhile Joyai.punct ++ (cs.dropWhile Joyai.punct).takeWhile Joyai.newline))
      ((cs.dropWhile Joyai.punct).dropWhile Joyai.newline) := by
  refine .punct ha (takeWhile_ne_nil h) (fun c hc => List.mem_takeWhile_imp hc) (fun c hc => List.mem_takeWhile_imp hc)
    (fun hn => ?_) (ahead_dropWhile _ _) fun h0 => ?_
  · have hdrop : (cs.dropWhile Joyai.punct).dropWhile Joyai.newline = cs.dropWhile Joyai.punct := by
      have := List.takeWhile_append_dropWhile (p := Joyai.newline) (l := cs.dropWhile Joyai.punct)
      rwa [hn, List.nil_append] at this
    rw [hdrop]
    exact ahead_dropWhile _ _
  · rw [List.takeWhile_append_dropWhile]
    have hcs := hword h0
    cases cs with
    | nil => exact absurd h Bool.false_ne_true
    | cons c cs =>
      have hc : Joyai.punct c = true := h
      rw [List.takeWhile_cons_of_pos hc, List.dropWhile_cons_of_pos hc, List.tail_cons, List.takeWhile_append_dropWhile]
      exact hcs

/-- White space that no other rule takes. -/
theorem joyaiSpaces_step (hs : space c = true) (hword : ¬(newline c = false ∧ ahead letterLike cs = true))
    (hblank : ¬(c = ' ' ∧ ahead punct cs = true)) : ∃ m t, c :: cs = m ++ t ∧ Step m t ∧
    (match joyaiSpaces 0 0 (encodeText (c :: cs)) with
      | (p, lastNewlineEnd) =>
        if lastNewlineEnd ≠ 0 then lastNewlineEnd
        else if p < (encodeText (c :: cs)).length ∧ 1 < p ∧ (joyaiLetterLikeAt ((encodeText (c :: cs)).drop p) = true ∨
          joyaiAsciiPunctSymbol ((encodeText (c :: cs)).getD p 0) = true) then p - 1
        else p) = (encodeText m).length := by
  obtain ⟨run, t, hcs, hrun, ht, hend, hlast⟩ := joyaiSpaces_encodeText 0 0 (c :: cs)
  generalize joyaiSpaces 0 0 (encodeText (c :: cs)) = r at hend hlast ⊢
  obtain ⟨p, last⟩ := r
  dsimp only at hend hlast ⊢
  rw [Nat.zero_add] at hend
  -- the run is as long in bytes as in characters
  have hlen : ∀ l ⊆ run, (encodeText l).length = l.length := fun l hl => length_encodeText_class fun c hc => hrun c (hl hc)
  obtain ⟨hnone, hlast⟩ | ⟨u, x, v, hsplit, hx, hv, hlast⟩ := hlast
  · have hdrop : (encodeText (c :: cs)).drop run.length = encodeText t := by
      rw [hcs, ← hlen run (List.Subset.refl _), drop_encodeText]
    have hget : (encodeText (c :: cs)).getD run.length 0 = (encodeText t).getD 0 0 := by
      rw [← hdrop, List.getD_eq_getElem?_getD, List.getD_eq_getElem?_getD, List.getElem?_drop, Nat.add_zero]
    have hnext : (run.length < (encodeText (c :: cs)).length ∧ 1 < run.length ∧
        (joyaiLetterLikeAt ((encodeText (c :: cs)).drop run.length) = true ∨
          joyaiAsciiPunctSymbol ((encodeText (c :: cs)).getD run.length 0) = true)) ↔
        1 < run.length ∧ (ahead letterLike t = true ∨ ahead punct t = true) := by
      rw [hdrop, hget, joyaiLetterLikeAt_encodeText, ascii_first ascii_classes.2.2.1]
      refine ⟨fun h => h.2, fun h => ⟨?_, h⟩⟩
      cases t with
      | nil => exact absurd h.2 (by rw [ahead_nil, ahead_nil]; decide)
      | cons d t =>
        have := List.length_pos_of_ne_nil (@encodeText_ne_nil d t)
        rw [hcs, encodeText_append, List.length_append, hlen run (List.Subset.refl _)]
        omega
    have hfirst : ∃ r, run = c :: r := by
      cases run with
      | nil =>
        rw [List.nil_append] at hcs
        rw [← hcs, ahead_cons, hs] at ht
        exact absurd ht (by decide)
      | cons d r => exact ⟨r, by rw [(List.cons.inj hcs).1]⟩
    rw [hend, hlast, if_neg fun h => h rfl]
    by_cases hgive : 1 < run.length ∧ (ahead letterLike t = true ∨ ahead punct t = true)
    · rw [if_pos (hnext.mpr hgive)]
      have hne : run ≠ [] := List.ne_nil_of_length_pos (Nat.zero_lt_of_lt hgive.1)
      have hlast := List.dropLast_append_getLast hne
      refine ⟨run.dropLast, run.getLast hne :: t, ?_, .butLast ?_ ?_ ⟨hrun _ (List.getLast_mem hne), hnone _ (List.getLast_mem hne)⟩
        hgive.2, ?_⟩
      · rw [hcs, List.append_cons, hlast]
      · exact List.ne_nil_of_length_pos (by rw [List.length_dropLast]; omega)
      · exact fun d hd => ⟨hrun d (List.dropLast_subset run hd), hnone d (List.dropLast_subset run hd)⟩
      · rw [hlen _ (List.dropLast_subset run), List.length_dropLast]
    · rw [if_neg (mt hnext.mp hgive)]
      obtain ⟨r, hr⟩ := hfirst
      -- what comes behind the run is seen by the rules for a single blank
      have hsingle : (ahead letterLike t = true ∨ ahead punct t = true) → r = [] ∧ t = cs := by
        intro h
        have hr0 : r = [] := by
          by_contra hne
          have := List.length_pos_of_ne_nil hne
          exact hgive ⟨by rw [hr, List.length_cons]; omega, h⟩
        rw [hr, hr0] at hcs
        exact ⟨hr0, (List.cons.inj hcs).2.symm⟩
      have hn : newline c = false := hnone c (by rw [hr]; exact List.mem_cons_self)
      refine ⟨run, t, hcs, .spaces (by rw [hr]; exact List.cons_ne_nil _ _) (fun d hd => ⟨hrun d hd, hnone d hd⟩) ht ?_ ?_,
        (hlen run (List.Subset.refl _)).symm⟩
      · rw [Bool.eq_false_iff]
        intro h
        rw [(hsingle (.inl h)).2] at h
        exact hword ⟨hn, h⟩
      · by_cases h : ahead punct t = true
        · obtain ⟨hr0, htcs⟩ := hsingle (.inr h)
          rw [htcs] at h
          exact .inr ⟨c, by rw [hr, hr0], fun hb => hblank ⟨hb, h⟩⟩
        · exact .inl (Bool.eq_false_iff.mpr h)
  · rw [hsplit] at hcs hrun hlen
    rw [Nat.zero_add] at hlast
    refine ⟨u ++ [x], v ++ t, ?_, .newline (fun d hd => hrun d (List.mem_append_left _ hd)) hx
      (fun d hd => ⟨hrun d (List.mem_append_right _ (List.mem_cons_of_mem _ hd)), hv d hd⟩) ht, ?_⟩
    · rw [hcs, List.append_assoc, List.append_assoc]
      rfl
    · have hsub : u ++ [x] ⊆ u ++ x :: v := by
        have h := List.subset_append_left (u ++ [x]) v
        rwa [List.append_assoc, List.singleton_append] at h
      rw [hlast, hlen _ hsub, List.length_append]
      exact if_pos (Nat.succ_ne_zero _)

/-- The length of the next piece, rule by rule. -/
theorem joyaiRule_step (hc : Ordinary c) : ∃ m t, c :: cs = m ++ t ∧ Step m t ∧
    joyaiRule (encodeText (c :: cs)) = (encodeText m).length := by
  obtain ⟨hdigit, halpha, hpunct, hspace, hnewline⟩ := ascii_classes
  have h1 : asciiDigit ((encodeText (c :: cs)).getD 0 0) = digit c := ascii_first hdigit _
  have h2 : joyaiAsciiPunctSymbol ((encodeText (c :: cs)).getD 0 0) = punct c := ascii_first hpunct _
  have h3 : asciiSpace ((encodeText (c :: cs)).getD 0 0) = space c := ascii_first hspace _
  have h4 : asciiNewline ((encodeText (c :: cs)).getD 0 0) = newline c := ascii_first hnewline _
  rw [joyaiRule, h1, h2, h3, h4, joyaiCjkAt_encodeText, joyaiLetterLikeAt_encodeText, ahead_cons, ahead_cons]
  by_cases hd : digit c = true
  · rw [if_pos hd, runLength_take hdigit]
    refine ⟨((c :: cs).take 3).takeWhile digit, (c :: cs).drop (((c :: cs).take 3).takeWhile digit).length,
      ?_, .digits ?_ (fun c hc => List.mem_takeWhile_imp hc) ?_ (takeWhile_take digit 3 (c :: cs)), rfl⟩
    · exact (List.prefix_iff_eq_append.mp ((List.takeWhile_prefix digit).trans (List.take_prefix 3 _))).symm
    · rw [List.take_succ_cons, List.takeWhile_cons_of_pos hd]
      exact List.cons_ne_nil _ _
    · exact (List.takeWhile_prefix digit).length_le.trans (List.length_take_le 3 _)
  rw [if_neg hd]
  by_cases hk : cjk c = true
  · rw [if_pos hk, drop_next_encodeText, nextUtf8Char_encodeText, consumeCjk_encodeText]
    refine ⟨c :: cs.takeWhile cjk, cs.dropWhile cjk, ?_,
      .cjk (List.cons_ne_nil _ _) (List.forall_mem_cons.mpr ⟨hk, fun c hc => List.mem_takeWhile_imp hc⟩) (ahead_dropWhile _ _), ?_⟩
    · rw [List.cons_append, List.takeWhile_append_dropWhile]
    · rw [length_encodeText_cons]
  rw [if_neg hk]
  by_cases hp : punct c = true
  · obtain ⟨hl, -, hs⟩ := punct_not hp
    have hlt := (asciiClass_iff.mp hp).1
    have hblank : (encodeText (c :: cs)).getD 0 0 ≠ ch ' ' := by
      intro hb
      rw [hb] at h2
      exact absurd (h2.trans hp) (by decide)
    by_cases hw : ahead alpha cs = true
    · have hrun : runLength asciiAlpha ((encodeText (c :: cs)).drop 1) = (encodeText (cs.takeWhile alpha)).length := by
        rw [encodeText_ascii hlt]
        exact runLength_all halpha cs
      rw [if_pos ⟨hp, (next_class halpha hlt).mpr hw⟩, hrun]
      refine ⟨c :: cs.takeWhile alpha, cs.dropWhile alpha, ?_,
        .word hp (takeWhile_ne_nil hw) (fun c hc => List.mem_takeWhile_imp hc) (ahead_dropWhile _ _), ?_⟩
      · rw [List.cons_append, List.takeWhile_append_dropWhile]
      · rw [encodeText_ascii hlt, List.length_cons, Nat.add_comm]
    · rw [if_neg fun h => hw ((next_class halpha hlt).mp h.2), if_neg (by rw [hl]; exact Bool.false_ne_true),
        if_neg fun h => h.2.1 hp, if_neg fun h => hblank h.1, if_pos hp]
      exact ⟨_, _, punct_split (c :: cs), .ofPunct (.inl rfl) hp fun _ => Bool.eq_false_iff.mpr hw, punctNewlines _⟩
  rw [if_neg fun h => hp h.1]
  by_cases hl : letterLike c = true
  · rw [if_pos hl, joyaiConsumeLetters_encodeText]
    refine ⟨(c :: cs).takeWhile letterLike, _, List.takeWhile_append_dropWhile.symm, ?_, rfl⟩
    refine .letters (takeWhile_ne_nil hl) ?_ (fun c hc => List.mem_takeWhile_imp hc) (ahead_dropWhile _ _)
    rw [List.takeWhile_cons_of_pos hl]
    exact Bool.eq_false_iff.mpr hk
  rw [if_neg hl]
  have hs : space c = true := by
    rcases hc.cases with h | h | h | h
    · exact absurd h hd
    · exact absurd h hl
    · exact absurd h hp
    · exact h
  have hlt := (asciiClass_iff.mp hs).1
  by_cases hword : newline c = false ∧ ahead letterLike cs = true
  · rw [if_pos ⟨Bool.eq_false_iff.mp hword.1, hp, (next_letterLike hlt).mpr hword.2⟩]
    refine ⟨c :: cs.takeWhile letterLike, cs.dropWhile letterLike, ?_, .blank hs hword.1 (takeWhile_ne_nil hword.2)
      (fun c hc => List.mem_takeWhile_imp hc) (ahead_dropWhile _ _), ?_⟩
    · rw [List.cons_append, List.takeWhile_append_dropWhile]
    · rw [encodeText_ascii hlt, encodeText_ascii hlt, List.drop_succ_cons, List.drop_zero, joyaiConsumeLetters_encodeText,
        List.length_cons, Nat.add_comm]
  rw [if_neg fun h => hword ⟨Bool.eq_false_iff.mpr h.1, (next_letterLike hlt).mp h.2.2⟩]
  by_cases hblank : c = ' ' ∧ ahead punct cs = true
  · have hfirst : (encodeText (c :: cs)).getD 0 0 = ch ' ' := by
      rw [encodeText_ascii hlt, hblank.1]
      rfl
    rw [if_pos ⟨hfirst, (next_class hpunct hlt).mpr hblank.2⟩]
    have hstep := @Step.ofPunct cs [' '] (.inr rfl) hblank.2 fun h => by cases h
    refine ⟨_, _, ?_, hstep, ?_⟩
    · rw [List.append_assoc, ← punct_split, hblank.1]
      rfl
    · have hends := punctNewlines cs
      rw [hblank.1] at hlt ⊢
      rw [encodeText_ascii hlt, List.drop_succ_cons, List.drop_zero, List.singleton_append, encodeText_ascii hlt,
        List.length_cons, ← hends, Nat.add_comm 1]
      dsimp only
      rw [List.drop_succ_cons]
      omega
  have hblank' : ¬((encodeText (c :: cs)).getD 0 0 = ch ' ' ∧ 1 < (encodeText (c :: cs)).length ∧
      joyaiAsciiPunctSymbol ((encodeText (c :: cs)).getD 1 0) = true) := by
    intro h
    refine hblank ⟨?_, (next_class hpunct hlt).mp h.2⟩
    have hb := h.1
    rw [encodeText_ascii hlt] at hb
    have hn := congrArg UInt8.toNat hb
    rw [List.getD_cons_zero, UInt8.toNat_ofNat_of_lt' (Nat.lt_trans hlt (by decide))] at hn
    exact Char.toNat_inj.mp hn
  rw [if_neg hblank', if_neg hp, if_pos hs]
  exact joyaiSpaces_step hs hword hblank

theorem Step.ne_nil {m t : List Char} (h : Step m t) : m ≠ [] := by
  cases h with
  | digits hne => exact hne
  | cjk hne => exact hne
  | word => exact List.cons_ne_nil _ _
  | letters hne => exact hne
  | blank => exact List.cons_ne_nil _ _
  | punct _ hne => exact fun h => hne (List.append_eq_nil_iff.mp (List.append_eq_nil_iff.mp h).2).1
  | newline => exact List.append_ne_nil_of_right_ne_nil _ (List.cons_ne_nil _ _)
  | spaces hne => exact hne
  | butLast hne => exact hne

/-- A text and the pieces that the scan takes from it. -/
inductive Run : List Char → List (List Char) → Prop
  | nil : Run [] []
  | cons {m t : List Char} {ms : List (List Char)} (h : Step m t) (ht : Run t ms) : Run (m ++ t) (m :: ms)

/-- The pieces of an ordinary text come from the rules. -/
theorem pieces_run (hcs : ∀ c ∈ cs, Ordinary c) :
    ∃ ms, Run cs ms ∧ Tokenizer.joyai.pieces (encodeText cs) = ms.map encodeText := by
  induction hn : cs.length using Nat.strongRecOn generalizing cs with
  | ind n ih =>
    rw [Splitter.pieces]
    cases cs with
    | nil => exact ⟨[], .nil, if_pos rfl⟩
    | cons c cs =>
      obtain ⟨m, t, hs, hstep, hrule⟩ := @joyaiRule_step c cs (hcs c List.mem_cons_self)
      have hpos := List.length_pos_of_ne_nil (mt encodeText_eq_nil_iff.mp hstep.ne_nil)
      have hpiece : Tokenizer.joyai.piece (encodeText (c :: cs)) = (encodeText m).length := by
        show joyaiPiece _ = _
        rw [joyaiPiece, hrule, if_neg hpos.ne']
      have hcut : (encodeText (c :: cs)).take (Tokenizer.joyai.piece (encodeText (c :: cs))) = encodeText m ∧
          (encodeText (c :: cs)).drop (Tokenizer.joyai.piece (encodeText (c :: cs))) = encodeText t := by
        rw [hpiece, hs, encodeText_append]
        exact ⟨List.take_left, List.drop_left⟩
      have hlt : t.length < n := by
        have := List.length_pos_of_ne_nil hstep.ne_nil
        have := congrArg List.length hs
        rw [List.length_append] at this
        omega
      rw [if_neg encodeText_ne_nil, hcut.1, hcut.2]
      rw [hs] at hcs ⊢
      obtain ⟨ms, hrun, hms⟩ := ih _ hlt (fun d hd => hcs d (List.mem_append_right _ hd)) rfl
      exact ⟨m :: ms, .cons hstep hrun, by rw [hms]; rfl⟩

end
end Ds4.Tokenizer.Joyai
