import Ds4.Lib.CString

/-!
# The subject sequence of `strtod`

`strtod` converts the longest initial part of its input that has the form of a numeral: an optional
sign, then `inf`, `infinity`, `nan`, `nan(chars)`, a decimal or a hexadecimal constant. Only the
length of that part is modelled. Numerals are made of a small set of bytes (`numChar`), so where
the subject sequence ends is decided by the first byte outside the set.
-/

namespace C

def isalpha (c : UInt8) : Bool := 97 ≤ tolower c && tolower c ≤ 122

/-- An optional exponent part introduced by `e` (in lower case). -/
def isExponent (e : UInt8) : Bytes → Bool
  | [] => true
  | [_] => false
  | c :: d :: w => tolower c == e &&
      if d == ch '+' || d == ch '-' then w != [] && w.all isdigit else (d :: w).all isdigit

/-- Digits with an optional radix character, at least one digit, and an optional exponent. -/
def isMantissa (digit : UInt8 → Bool) (e : UInt8) (w : Bytes) : Bool :=
  match w.dropWhile digit with
  | [] => w != []
  | c :: r =>
    if c = ch '.' then
      (w.takeWhile digit != [] || r.takeWhile digit != []) && isExponent e (r.dropWhile digit)
    else w.takeWhile digit != [] && isExponent e (c :: r)

def isNanSuffix (w : Bytes) : Bool :=
  w == [] || (w.head? == some (ch '(') && w.getLast? == some (ch ')') &&
    (w.drop 1).dropLast.all fun c => isalpha c || isdigit c || c == ch '_')

def isUnsignedNumeral (w : Bytes) : Bool :=
  w.map tolower == lit "inf" || w.map tolower == lit "infinity" ||
  ((w.take 3).map tolower == lit "nan" && isNanSuffix (w.drop 3)) ||
  isMantissa isdigit (ch 'e') w ||
  ((w.take 2).map tolower == lit "0x" && isMantissa isxdigit (ch 'p') (w.drop 2))

def isNumeral : Bytes → Bool
  | [] => false
  | c :: w => if c == ch '+' || c == ch '-' then isUnsignedNumeral w else isUnsignedNumeral (c :: w)

/-- Length of the subject sequence, 0 when no conversion is performed. -/
def strtod (s : Bytes) : Nat :=
  ((List.range (s.length + 1)).reverse.find? fun n => isNumeral (s.take n)).getD 0

/-- The bytes numerals are made of. -/
def numChar (c : UInt8) : Bool :=
  isalpha c || isdigit c || c == ch '+' || c == ch '-' || c == ch '.' || c == ch '_' ||
    c == ch '(' || c == ch ')'

theorem numChar_of_tolower : numChar (tolower c) = true → numChar c = true :=
  forall_byte (p := fun c => numChar (tolower c) = true → numChar c = true) (by decide +kernel) c

theorem numChar_of_isdigit (h : isdigit c = true) : numChar c = true := by
  simp [numChar, h]

theorem numChar_of_isxdigit : isxdigit c = true → numChar c = true :=
  forall_byte (p := fun c => isxdigit c = true → numChar c = true) (by decide +kernel) c

theorem numChar_of_map {w v : Bytes} (hv : v.all numChar = true) (h : w.map tolower = v) :
    w.all numChar = true := by
  subst h
  rw [List.all_eq_true] at hv ⊢
  exact fun c hc => numChar_of_tolower (hv _ (List.mem_map_of_mem hc))

theorem isExponent_numChar (he : numChar e = true) (h : isExponent e w = true) :
    w.all numChar = true := by
  match w with
  | [] => rfl
  | [_] => cases h
  | c :: d :: w =>
    simp only [isExponent, Bool.and_eq_true, beq_iff_eq] at h
    obtain ⟨hc, h⟩ := h
    have hc : numChar c = true := numChar_of_tolower (hc ▸ he)
    have hall : ∀ {l : Bytes}, l.all isdigit = true → l.all numChar = true := fun hl => by
      rw [List.all_eq_true] at hl ⊢
      exact fun c hc => numChar_of_isdigit (hl c hc)
    split at h
    · next hd =>
      simp only [Bool.and_eq_true] at h
      have hd : numChar d = true := by
        simp only [Bool.or_eq_true, beq_iff_eq] at hd
        rcases hd with rfl | rfl <;> decide
      simp only [List.all_cons, hc, hd, hall h.2, Bool.and_self]
    · rw [List.all_cons, hc, hall h, Bool.and_self]

theorem takeWhile_numChar {digit : UInt8 → Bool} (hd : ∀ c, digit c = true → numChar c = true)
    (w : Bytes) : (w.takeWhile digit).all numChar = true := by
  rw [List.all_eq_true]
  exact fun c hc => hd c (List.mem_takeWhile_imp hc)

theorem isMantissa_numChar {digit : UInt8 → Bool} (hd : ∀ c, digit c = true → numChar c = true)
    (he : numChar e = true) (h : isMantissa digit e w = true) : w.all numChar = true := by
  rw [← List.takeWhile_append_dropWhile (p := digit) (l := w), List.all_append,
    takeWhile_numChar hd w, Bool.true_and]
  rw [isMantissa] at h
  split at h
  · next hw => rw [hw]; rfl
  · next c r hw =>
    rw [hw]
    split at h
    · next hc =>
      subst hc
      simp only [Bool.and_eq_true] at h
      rw [List.all_cons, ← List.takeWhile_append_dropWhile (p := digit) (l := r), List.all_append,
        takeWhile_numChar hd r, isExponent_numChar he h.2]
      rfl
    · simp only [Bool.and_eq_true] at h
      exact isExponent_numChar he h.2

theorem isNanSuffix_numChar (h : isNanSuffix w = true) : w.all numChar = true := by
  simp only [isNanSuffix, Bool.or_eq_true, Bool.and_eq_true, beq_iff_eq] at h
  rcases h with rfl | ⟨⟨h1, h2⟩, h3⟩
  · rfl
  · cases w with
    | nil => rfl
    | cons c w =>
      simp only [List.head?_cons, Option.some.injEq] at h1
      subst h1
      have hw : w.all numChar = true := by
        cases w using List.reverseRecOn with
        | nil => rfl
        | append_singleton w d _ =>
          rw [← List.cons_append, List.getLast?_concat, Option.some.injEq] at h2
          subst h2
          rw [List.drop_succ_cons, List.drop_zero, List.dropLast_concat] at h3
          rw [List.all_append, Bool.and_eq_true]
          refine ⟨List.all_eq_true.2 fun c hc => ?_, by decide⟩
          have := List.all_eq_true.1 h3 c hc
          simp only [Bool.or_eq_true] at this
          simp only [numChar, Bool.or_eq_true]
          tauto
      rw [List.all_cons, hw]; decide

theorem isNumeral_numChar (h : isNumeral w = true) : w.all numChar = true := by
  have body : ∀ {w}, isUnsignedNumeral w = true → w.all numChar = true := by
    intro w h
    simp only [isUnsignedNumeral, Bool.or_eq_true, Bool.and_eq_true, beq_iff_eq] at h
    rcases h with (((h | h) | ⟨h, h'⟩) | h) | ⟨h, h'⟩
    · exact numChar_of_map (by decide) h
    · exact numChar_of_map (by decide) h
    · rw [← List.take_append_drop 3 w, List.all_append, numChar_of_map (by decide) h,
        isNanSuffix_numChar h']
      rfl
    · exact isMantissa_numChar (fun _ => numChar_of_isdigit) (by decide) h
    · rw [← List.take_append_drop 2 w, List.all_append, numChar_of_map (by decide) h,
        isMantissa_numChar (fun _ => numChar_of_isxdigit) (by decide) h']
      rfl
  cases w with
  | nil => rfl
  | cons c w =>
    rw [isNumeral] at h
    split at h
    · next hc =>
      rw [List.all_cons, body h, Bool.and_true]
      simp only [Bool.or_eq_true, beq_iff_eq] at hc
      rcases hc with rfl | rfl <;> decide
    · exact body h

theorem isNumeral_ne_nil (h : isNumeral w = true) : w ≠ [] := by
  rintro rfl; cases h

theorem isMantissa_head (h : isMantissa digit e (c :: w) = true) : digit c = true ∨ c = ch '.' := by
  by_contra hc
  rw [not_or, Bool.not_eq_true] at hc
  simp [isMantissa, hc.1, hc.2] at h

/-- How a numeral starts. -/
theorem isNumeral_start (h : isNumeral (c :: w) = true) :
    c = ch '+' ∨ c = ch '-' ∨ isdigit c = true ∨ c = ch '.' ∨ tolower c = ch 'i' ∨
      (tolower c = ch 'n' ∧ ∃ d ∈ w.head?, tolower d = ch 'a') := by
  rw [isNumeral] at h
  split at h
  · next hc =>
    simp only [Bool.or_eq_true, beq_iff_eq] at hc
    tauto
  · simp only [isUnsignedNumeral, Bool.or_eq_true, Bool.and_eq_true, beq_iff_eq] at h
    rcases h with (((h | h) | ⟨h, -⟩) | h) | ⟨h, -⟩
    · have := (List.cons.inj h).1
      tauto
    · have := (List.cons.inj h).1
      tauto
    · cases w with
      | nil => cases (List.cons.inj h).2
      | cons d w =>
        have h1 := (List.cons.inj h).1
        have h2 := (List.cons.inj (List.cons.inj h).2).1
        exact .inr (.inr (.inr (.inr (.inr ⟨h1, d, rfl, h2⟩))))
    · have := isMantissa_head h
      tauto
    · have h0 : tolower c = ch '0' := (List.cons.inj h).1
      have : isdigit c = true := by
        revert h0
        exact forall_byte (p := fun c => tolower c = ch '0' → isdigit c = true) (by decide +kernel) c
      tauto

/-! ## The longest numeral -/

private theorem find?_range_reverse {p : Nat → Bool} {n k : Nat} :
    (List.range n).reverse.find? p = some k ↔ k < n ∧ p k = true ∧ ∀ j, k < j → j < n → p j = false := by
  induction n with
  | zero => simp
  | succ n ih =>
    rw [List.range_succ, List.reverse_append, List.reverse_singleton, List.singleton_append,
      List.find?_cons]
    split
    · next hp =>
      simp only [Option.some.injEq]
      constructor
      · rintro rfl
        exact ⟨by omega, hp, fun j _ _ => by omega⟩
      · rintro ⟨hk, _, h⟩
        rcases Nat.lt_or_ge k n with hkn | hkn
        · rw [h n hkn (by omega)] at hp; cases hp
        · omega
    · next hp =>
      rw [ih]
      constructor
      · rintro ⟨h1, h2, h3⟩
        refine ⟨by omega, h2, fun j hj hjn => ?_⟩
        rcases Nat.lt_succ_iff_lt_or_eq.1 hjn with h | rfl
        · exact h3 j hj h
        · simpa using hp
      · rintro ⟨h1, h2, h3⟩
        refine ⟨?_, h2, fun j hj hjn => h3 j hj (by omega)⟩
        rcases Nat.lt_succ_iff_lt_or_eq.1 h1 with h | rfl
        · exact h
        · rw [h2] at hp; cases hp

/-- What a conversion consumes. -/
theorem strtod_pos_iff (hk : 0 < k) : strtod s = k ↔
    k ≤ s.length ∧ isNumeral (s.take k) = true ∧
      ∀ j, k < j → j ≤ s.length → isNumeral (s.take j) = false := by
  rw [strtod, Option.getD_eq_iff]
  simp only [find?_range_reverse, Nat.lt_succ_iff]
  constructor
  · rintro (⟨h1, h2, h3⟩ | ⟨-, rfl⟩)
    · exact ⟨h1, h2, h3⟩
    · omega
  · exact fun h => .inl h

/-- The text after `s` cannot extend a numeral at the end of `s`. -/
def Stops (s : Bytes) : Prop := ∀ c ∈ s.head?, numChar c = false

theorem strtod_append (hw : isNumeral w = true) (hr : Stops r) : strtod (w ++ r) = w.length := by
  have hne := isNumeral_ne_nil hw
  refine (strtod_pos_iff (List.length_pos_of_ne_nil hne)).2
    ⟨by simp, by simpa using hw, fun j hj _ => ?_⟩
  by_contra h
  have hall := isNumeral_numChar (Bool.not_eq_false _ ▸ h)
  cases r with
  | nil => simp at *; omega
  | cons c r =>
    have hc := hr c rfl
    rw [List.all_eq_true] at hall
    have : c ∈ (w ++ c :: r).take j := by
      rw [List.take_append, List.mem_append]
      refine .inr ?_
      obtain ⟨k, hk⟩ : ∃ k, j - w.length = k + 1 := ⟨j - w.length - 1, by omega⟩
      simp [hk]
    rw [hall c this] at hc
    cases hc

theorem strtod_split (h : 0 < strtod s) :
    isNumeral (s.take (strtod s)) = true ∧ strtod s ≤ s.length :=
  let ⟨h1, h2, _⟩ := (strtod_pos_iff h).1 rfl; ⟨h2, h1⟩

end C
