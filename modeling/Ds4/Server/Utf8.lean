import Mathlib.Data.List.GetD
import Ds4.Lib.CString

/-!
# Character boundaries

`utf8_stream_safe_len` moves the end of a delta back so that it does not cut a character. A text is
`Whole` when it is the encoding of a list of characters; a boundary of a whole text is an offset at
which both sides are whole, which is one where no continuation byte stands.
-/

namespace Ds4
open C

def utf8ExpectedLen (c : UInt8) : Nat :=
  if c < 0x80 then 1
  else if 0xc2 ≤ c && c ≤ 0xdf then 2
  else if 0xe0 ≤ c && c ≤ 0xef then 3
  else if 0xf0 ≤ c && c ≤ 0xf4 then 4
  else 1

/-- A continuation byte: `(c & 0xc0) == 0x80`. -/
def isCont (c : UInt8) : Bool := c &&& 0xc0 == 0x80

/-- The scan back over at most `n` continuation bytes before `p`. -/
def utf8ScanBack (s : Bytes) (start : Nat) : Nat → Nat → Nat
  | 0, p => p
  | n + 1, p => if start < p && isCont (s.getD (p - 1) 0) then utf8ScanBack s start n (p - 1) else p

def utf8StreamSafeLen (s : Bytes) (start limit : Nat) (final : Bool) : Nat :=
  if final || limit ≤ start then limit
  else
    let p := utf8ScanBack s start 4 limit
    if p = limit then
      if 1 < utf8ExpectedLen (s.getD (limit - 1) 0) then limit - 1 else limit
    else if p = start && isCont (s.getD p 0) then start
    else
      let lead := p - 1
      if limit - lead < utf8ExpectedLen (s.getD lead 0) then lead else limit

/-! ## Whole texts -/

/-- A whole number of characters. -/
def Whole (s : Bytes) : Prop := ∃ cs : List Char, s = cs.flatMap String.utf8EncodeChar

/-- The encoding of one character: a lead byte that tells the length, then continuation bytes. -/
structure IsUnit (l : UInt8) (tl : Bytes) : Prop where
  lead : isCont l = false
  tail : ∀ b ∈ tl, isCont b = true
  len : utf8ExpectedLen l = tl.length + 1

/-- The continuation byte for six bits of a code point. -/
def contByte (n : Nat) : UInt8 := UInt8.ofNat (n % 64 + 128)

theorem isCont_contByte (n : Nat) : isCont (contByte n) = true := by
  have h : ∀ m < 64, isCont (UInt8.ofNat (m + 128)) = true := by decide
  exact h _ (Nat.mod_lt _ (by decide))

theorem isCont_iff (c : UInt8) : isCont c = true ↔ 128 ≤ c.toNat ∧ c.toNat < 192 := by
  revert c
  exact forall_byte (by decide +kernel)

/-- A continuation byte is no byte of ASCII and no lead byte. -/
theorem isCont_spec (b : UInt8) (h : isCont b = true) : 0x80 ≤ b ∧ utf8ExpectedLen b = 1 := by
  obtain ⟨hle, hlt⟩ := (isCont_iff b).mp h
  have hlead : ∀ c : UInt8, 192 ≤ c.toNat → ¬c ≤ b := fun c hc hcb =>
    Nat.not_lt_of_le (hc.trans (UInt8.le_iff_toNat_le.mp hcb)) hlt
  refine ⟨UInt8.le_iff_toNat_le.mpr hle, ?_⟩
  simp only [utf8ExpectedLen, decide_eq_false (hlead 0xc2 (by decide)), decide_eq_false (hlead 0xe0 (by decide)),
    decide_eq_false (hlead 0xf0 (by decide)), Bool.false_and, Bool.false_eq_true, ↓reduceIte, ite_self]

theorem isUnit_mk (ns : List Nat) (h : isCont l = false ∧ utf8ExpectedLen l = ns.length + 1) :
    IsUnit l (ns.map contByte) where
  lead := h.1
  tail b hb := by
    obtain ⟨n, -, rfl⟩ := List.mem_map.1 hb
    exact isCont_contByte n
  len := by rw [h.2, List.length_map]

/-- The lead bytes of characters of one, two, three and four bytes. -/
theorem leadByte_spec :
    (∀ n < 128, isCont (UInt8.ofNat n) = false ∧ utf8ExpectedLen (UInt8.ofNat n) = 1) ∧
    (∀ n < 32, 2 ≤ n → isCont (UInt8.ofNat (n + 192)) = false ∧
      utf8ExpectedLen (UInt8.ofNat (n + 192)) = 2) ∧
    (∀ n < 16, isCont (UInt8.ofNat (n + 224)) = false ∧
      utf8ExpectedLen (UInt8.ofNat (n + 224)) = 3) ∧
    ∀ n < 5, isCont (UInt8.ofNat (n + 240)) = false ∧
      utf8ExpectedLen (UInt8.ofNat (n + 240)) = 4 := by decide

theorem utf8EncodeChar_isUnit (c : Char) :
    ∃ l tl, String.utf8EncodeChar c = l :: tl ∧ IsUnit l tl := by
  have hv : c.val.toNat < 0x110000 := by
    rcases c.valid with h | h
    · exact Nat.lt_trans h (by decide)
    · exact h.2
  obtain ⟨h1, h2, h3, h4⟩ := leadByte_spec
  fun_cases String.utf8EncodeChar c with
  | case1 v h => exact ⟨_, [], rfl, isUnit_mk [] (h1 _ (by omega))⟩
  | case2 v h h' => exact ⟨_, _, rfl, isUnit_mk [v] (h2 _ (by omega) (by omega))⟩
  | case3 v h h' h'' => exact ⟨_, _, rfl, isUnit_mk [v / 64, v] (h3 _ (by omega))⟩
  | case4 v h h' h'' =>
    have h5 : v / 262144 % 8 < 5 := by simp only [v]; omega
    exact ⟨_, _, rfl, isUnit_mk [v / 4096, v / 64, v] (h4 _ h5)⟩

theorem exists_char {v : Nat} (h : v < 0x110000) (hs : ¬(0xd800 ≤ v ∧ v ≤ 0xdfff)) :
    ∃ c : Char, c.val.toNat = v := by
  have hvalid : v.isValidChar := by
    rcases Nat.lt_or_ge v 0xd800 with hlt | hge
    · exact .inl hlt
    · exact .inr ⟨by omega, h⟩
  exact ⟨Char.ofNatAux v hvalid, rfl⟩

/-- The encoding of a code point. -/
def encode (v : Nat) : Bytes :=
  if v < 0x80 then [UInt8.ofNat v]
  else if v < 0x800 then [UInt8.ofNat (v / 64 % 32 + 192), contByte v]
  else if v < 0x10000 then [UInt8.ofNat (v / 4096 % 16 + 224), contByte (v / 64), contByte v]
  else [UInt8.ofNat (v / 262144 % 8 + 240), contByte (v / 4096), contByte (v / 64), contByte v]

theorem utf8EncodeChar_eq (c : Char) : String.utf8EncodeChar c = encode c.val.toNat := by
  rw [encode]
  fun_cases String.utf8EncodeChar c with
  | case1 v h => rw [if_pos (by omega)]
  | case2 v h h' =>
    rw [if_neg (by omega), if_pos (by omega)]
    rfl
  | case3 v h h' h'' =>
    rw [if_neg (by omega), if_neg (by omega), if_pos (by omega)]
    rfl
  | case4 v h h' h'' =>
    rw [if_neg (by omega), if_neg (by omega), if_neg (by omega)]
    rfl

theorem Whole.nil : Whole [] := ⟨[], rfl⟩

theorem Whole.append (ha : Whole a) (hb : Whole b) : Whole (a ++ b) := by
  obtain ⟨cs, rfl⟩ := ha
  obtain ⟨ds, rfl⟩ := hb
  exact ⟨cs ++ ds, List.flatMap_append.symm⟩

theorem whole_lit (s : String) : Whole (lit s) := ⟨s.toList, rfl⟩

/-- A whole text is empty or starts with the encoding of a character. -/
theorem Whole.cases (h : Whole s) :
    s = [] ∨ ∃ l tl r, s = l :: (tl ++ r) ∧ IsUnit l tl ∧ Whole (l :: tl) ∧ Whole r := by
  obtain ⟨cs, rfl⟩ := h
  cases cs with
  | nil => exact .inl rfl
  | cons c cs =>
    obtain ⟨l, tl, he, hu⟩ := utf8EncodeChar_isUnit c
    exact .inr ⟨l, tl, cs.flatMap String.utf8EncodeChar, by simp [he], hu, ⟨[c], by simp [he]⟩,
      cs, rfl⟩

/-- What follows a whole prefix of a whole text is whole. -/
theorem Whole.of_append (hab : Whole (a ++ b)) (ha : Whole a) : Whole b := by
  obtain ⟨cs, rfl⟩ := ha
  induction cs with
  | nil => exact hab
  | cons c cs ih =>
    apply ih
    obtain ⟨l, tl, he, hu⟩ := utf8EncodeChar_isUnit c
    simp only [List.flatMap_cons, he, List.cons_append, List.append_assoc] at hab
    -- both characters have the same lead byte, so they have the same length
    rcases hab.cases with h | ⟨l', tl', r, h, hu', -, hr⟩
    · cases h
    · obtain ⟨rfl, h'⟩ := List.cons.inj h
      have hl : tl.length = tl'.length := by have h1 := hu.len; have h2 := hu'.len; omega
      rw [(List.append_inj h' hl).2]
      exact hr

theorem Whole.drop (h : Whole s) (hp : Whole (s.take p)) : Whole (s.drop p) := by
  rw [← List.take_append_drop p s] at h
  exact h.of_append hp

/-- No continuation byte stands at a boundary. -/
theorem Whole.not_isCont (h : Whole s) (hp : Whole (s.take p)) (hlt : p < s.length) :
    isCont (s.getD p 0) = false := by
  have hg : s.getD p 0 = (s.drop p).headD 0 := by simp [List.getD_eq_getElem?_getD, List.head?_drop]
  rcases (h.drop hp).cases with hd | ⟨l, tl, r, hd, hu, -, -⟩
  · rw [List.drop_eq_nil_iff] at hd
    omega
  · rw [hg, hd]
    exact hu.lead

/-- An offset without a continuation byte is a boundary. -/
theorem Whole.take_of_not_isCont (h : Whole s) (hp : isCont (s.getD p 0) = false) :
    Whole (s.take p) := by
  obtain ⟨cs, rfl⟩ := h
  induction cs generalizing p with
  | nil => simpa using Whole.nil
  | cons c cs ih =>
    obtain ⟨l, tl, he, hu⟩ := utf8EncodeChar_isUnit c
    simp only [List.flatMap_cons] at hp ⊢
    rcases Nat.lt_or_ge p (String.utf8EncodeChar c).length with hlt | hge
    · cases p with
      | zero => exact Whole.nil
      | succ p =>
        -- inside the character every byte is a continuation byte
        rw [he, List.length_cons, Nat.add_lt_add_iff_right] at hlt
        rw [he, List.cons_append, List.getD_cons_succ, List.getD_append _ _ _ _ hlt,
          List.getD_eq_getElem _ _ hlt, hu.tail _ (List.getElem_mem hlt)] at hp
        cases hp
    · rw [List.getD_append_right _ _ _ _ hge] at hp
      rw [List.take_append, List.take_of_length_le hge]
      exact Whole.append ⟨[c], by simp⟩ (ih hp)

/-- An occurrence of a literal whose first byte starts a character lies between boundaries. -/
theorem Whole.occurrence (h : Whole s) (hp : c :: w <+: s.drop p) (hc : isCont c = false)
    (hw : Whole (c :: w)) : Whole (s.take p) ∧ Whole (s.take (p + (c :: w).length)) := by
  have h1 : Whole (s.take p) := by
    apply h.take_of_not_isCont
    obtain ⟨u, hu⟩ := hp
    have hg : s.getD p 0 = (s.drop p).headD 0 := by
      simp [List.getD_eq_getElem?_getD, List.head?_drop]
    rw [hg, ← hu]
    exact hc
  refine ⟨h1, ?_⟩
  rw [List.take_add, ← List.prefix_iff_eq_take.1 hp]
  exact h1.append hw

/-- A character has one to four bytes. -/
theorem utf8ExpectedLen_bound (c : UInt8) : 0 < utf8ExpectedLen c ∧ utf8ExpectedLen c ≤ 4 := by
  simp only [utf8ExpectedLen]
  repeat' split
  all_goals decide

/-- The character at a boundary ends at a boundary. -/
theorem Whole.next (h : Whole s) (hp : Whole (s.take p)) (hlt : p < s.length) :
    Whole (s.take (p + utf8ExpectedLen (s.getD p 0))) := by
  have hg : s.getD p 0 = (s.drop p).headD 0 := by simp [List.getD_eq_getElem?_getD, List.head?_drop]
  rcases (h.drop hp).cases with hd | ⟨l, tl, r, hd, hu, hw, -⟩
  · rw [List.drop_eq_nil_iff] at hd
    omega
  · have hk : utf8ExpectedLen (s.getD p 0) = (l :: tl).length := by rw [hg, hd]; exact hu.len
    rw [hk, List.take_add, hd, ← List.cons_append, List.take_left]
    exact hp.append hw

/-- One of any four bytes in a row starts a character. -/
theorem Whole.exists_lead (h : Whole s) (hlt : p < s.length) :
    ∃ q ≤ p, p < q + 4 ∧ isCont (s.getD q 0) = false := by
  obtain ⟨cs, rfl⟩ := h
  induction cs generalizing p with
  | nil => simp at hlt
  | cons c cs ih =>
    obtain ⟨l, tl, he, hu⟩ := utf8EncodeChar_isUnit c
    simp only [List.flatMap_cons, List.length_append] at hlt ⊢
    rcases Nat.lt_or_ge p (String.utf8EncodeChar c).length with hin | hge
    · refine ⟨0, Nat.zero_le _, ?_, by rw [he]; exact hu.lead⟩
      have h1 := (utf8ExpectedLen_bound l).2
      rw [hu.len] at h1
      rw [he, List.length_cons] at hin
      omega
    · obtain ⟨q, h1, h2, h3⟩ := ih (p := p - (String.utf8EncodeChar c).length) (by omega)
      refine ⟨q + (String.utf8EncodeChar c).length, by omega, by omega, ?_⟩
      rw [List.getD_append_right _ _ _ _ (by omega), Nat.add_sub_cancel]
      exact h3

/-! ## The safe length -/

/-- The scan stops after `n` bytes, at the start, or behind a byte that starts a character. -/
theorem utf8ScanBack_spec (h : start ≤ p) :
    start ≤ utf8ScanBack s start n p ∧ utf8ScanBack s start n p ≤ p ∧
    p ≤ utf8ScanBack s start n p + n ∧
    (∀ i < p, utf8ScanBack s start n p ≤ i → isCont (s.getD i 0) = true) ∧
    (utf8ScanBack s start n p + n = p ∨ utf8ScanBack s start n p = start ∨
      isCont (s.getD (utf8ScanBack s start n p - 1) 0) = false) := by
  induction n generalizing p with
  | zero =>
    simp only [utf8ScanBack]
    exact ⟨h, Nat.le_refl _, Nat.le_refl _, fun i h1 h2 => by omega, .inl rfl⟩
  | succ n ih =>
    rw [utf8ScanBack]
    split
    · next hc =>
      simp only [Bool.and_eq_true, decide_eq_true_eq] at hc
      obtain ⟨h1, h2, h3, h4, h5⟩ := ih (p := p - 1) (by omega)
      refine ⟨h1, by omega, by omega, fun i hi hle => ?_, ?_⟩
      · rcases Nat.lt_or_ge i (p - 1) with hlt | hge
        · exact h4 i hlt hle
        · rw [show i = p - 1 by omega]
          exact hc.2
      · exact h5.imp_left (fun h => by omega)
    · next hc =>
      refine ⟨h, Nat.le_refl _, by omega, fun i h1 h2 => by omega, .inr ?_⟩
      simp only [Bool.and_eq_true, decide_eq_true_eq, not_and, Bool.not_eq_true] at hc
      rcases Nat.lt_or_ge start p with hlt | hge
      · exact .inr (hc hlt)
      · exact .inl (by omega)

theorem utf8StreamSafeLen_le (s : Bytes) (start limit : Nat) (final : Bool) :
    utf8StreamSafeLen s start limit final ≤ limit := by
  rw [utf8StreamSafeLen]
  split
  · exact Nat.le_refl _
  · next h =>
    simp only [Bool.or_eq_true, decide_eq_true_eq, not_or, Nat.not_le] at h
    have := (utf8ScanBack_spec (s := s) (n := 4) h.2.le).2.1
    dsimp only
    repeat' split
    all_goals omega

/-- Between a boundary and the end of what has been received, the safe length is a boundary of the
whole text. -/
theorem utf8StreamSafeLen_spec (ht : Whole t) (hs : s <+: t) (hb : Whole (t.take start))
    (hle : start ≤ limit) (hlim : limit ≤ s.length) :
    start ≤ utf8StreamSafeLen s start limit false ∧
    utf8StreamSafeLen s start limit false ≤ limit ∧
    Whole (t.take (utf8StreamSafeLen s start limit false)) := by
  have hlt := hs.length_le
  have hget : ∀ i < limit, s.getD i 0 = t.getD i 0 := by
    intro i hi
    obtain ⟨u, rfl⟩ := hs
    rw [List.getD_append _ _ _ _ (by omega)]
  obtain ⟨h1, h2, h3, h4, h5⟩ := utf8ScanBack_spec (s := s) (n := 4) hle
  simp only [utf8StreamSafeLen, Bool.false_or, decide_eq_true_eq]
  generalize utf8ScanBack s start 4 limit = p at *
  split
  · next h =>
    rw [show limit = start by omega]
    exact ⟨Nat.le_refl _, Nat.le_refl _, hb⟩
  next hsl =>
  split
  · next hp =>
    -- the last byte starts a character
    have hc : isCont (t.getD (limit - 1) 0) = false := by
      rw [← hget _ (by omega), ← hp]
      rcases h5 with h | h | h
      · omega
      · omega
      · exact h
    have hw := ht.take_of_not_isCont hc
    rw [hget _ (by omega)]
    split
    · exact ⟨by omega, by omega, hw⟩
    · next he =>
      have hn := ht.next hw (by omega)
      have h0 := (utf8ExpectedLen_bound (t.getD (limit - 1) 0)).1
      rw [show limit - 1 + utf8ExpectedLen (t.getD (limit - 1) 0) = limit by omega] at hn
      exact ⟨hle, Nat.le_refl _, hn⟩
  next hp =>
  split
  · exact ⟨Nat.le_refl _, hle, hb⟩
  next hps =>
  -- the scan did not run through four bytes
  have hne : p + 4 ≠ limit := by
    intro he
    obtain ⟨q, hq1, hq2, hq3⟩ := ht.exists_lead (p := p + 3) (by omega)
    rw [← hget q (by omega), h4 q (by omega) (by omega)] at hq3
    cases hq3
  have hpc : isCont (s.getD p 0) = true := h4 p (by omega) (Nat.le_refl _)
  have hpos : start < p := by
    simp only [hpc, Bool.and_true, decide_eq_true_eq] at hps
    omega
  have hc : isCont (t.getD (p - 1) 0) = false := by
    rw [← hget _ (by omega)]
    rcases h5 with h | h | h
    · omega
    · omega
    · exact h
  have hw := ht.take_of_not_isCont hc
  rw [hget (p - 1) (by omega)]
  split
  · exact ⟨by omega, by omega, hw⟩
  · next hn =>
    have hnext := ht.next hw (by omega)
    refine ⟨hle, Nat.le_refl _, ?_⟩
    rcases Nat.lt_or_ge (p - 1 + utf8ExpectedLen (t.getD (p - 1) 0)) limit with hlt' | hge
    · -- the character ends before a continuation byte
      have hnc := ht.not_isCont hnext (by omega)
      have h0 := (utf8ExpectedLen_bound (t.getD (p - 1) 0)).1
      rw [← hget _ hlt', h4 _ hlt' (by omega)] at hnc
      cases hnc
    · rwa [show p - 1 + utf8ExpectedLen (t.getD (p - 1) 0) = limit by omega] at hnext

end Ds4
