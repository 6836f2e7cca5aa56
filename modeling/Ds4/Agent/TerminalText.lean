import Ds4.Server.Utf8
import Ds4.Server.Json

/-!
# Shell output for the terminal

`agent_terminal_safe_text` keeps the characters that are shown, three controls and the color sequences.
Other escape sequences are taken out, other bytes are written as `\xNN`.
-/

namespace Ds4.TerminalText
open C

/-! ## Decoding a character -/

def utf8ByteLen (c : UInt8) : Nat :=
  if c &&& 0x80 = 0 then 1
  else if c &&& 0xe0 = 0xc0 then 2
  else if c &&& 0xf0 = 0xe0 then 3
  else if c &&& 0xf8 = 0xf0 then 4
  else 1

def utf8DecodeChar (s : Bytes) : Nat :=
  let p := fun i => (s.getD i 0).toNat
  if s.getD 0 0 &&& 0x80 = 0 then p 0
  else if s.getD 0 0 &&& 0xe0 = 0xc0 then p 0 % 32 * 64 + p 1 % 64
  else if s.getD 0 0 &&& 0xf0 = 0xe0 then p 0 % 16 * 4096 + p 1 % 64 * 64 + p 2 % 64
  else if s.getD 0 0 &&& 0xf8 = 0xf0 then
    p 0 % 8 * 262144 + p 1 % 64 * 4096 + p 2 % 64 * 64 + p 3 % 64
  else p 0

/-- How many bytes the character takes, and its code point: 0 bytes when more are needed. -/
def linenoiseUtf8Decode : Bytes → Nat × Nat
  | [] => (0, 0)
  | lead :: s =>
    let n := utf8ByteLen lead
    if lead < 0x80 then (1, lead.toNat)
    else if lead < 0xc2 ∨ 0xf4 < lead then (1, 0xfffd)
    else if (s.take (n - 1)).any fun c => !isCont c then (1, 0xfffd)
    else if s.length + 1 < n then (0, 0xfffd)
    else
      let value := utf8DecodeChar (lead :: s)
      if 0x10ffff < value ∨ 0xd800 ≤ value ∧ value ≤ 0xdfff ∨ n = 3 ∧ value < 0x800 ∨
          n = 4 ∧ value < 0x10000 then (1, 0xfffd)
      else (n, value)

/-! ## The filter -/

def escapedByte (c : UInt8) : Bytes := [ch '\\', ch 'x', hexDigit (c.toNat / 16), hexDigit (c.toNat % 16)]

def isParam (c : UInt8) : Bool := isdigit c || c == ch ';' || c == ch ':'

/-- The rest of a sequence that begins with `ESC [`: what is kept, and the text behind it. -/
def csiSequence (s : Bytes) : Bytes × Bytes :=
  let params := s.takeWhile (· < 0x40)
  match s.dropWhile (· < 0x40) with
  | [] => ([], [])
  | c :: rest =>
    if c = ch 'm' ∧ params.all isParam ∧ params.length + 2 < 96 then
      (0x1b :: ch '[' :: (params ++ [c]), rest)
    else ([], rest)

/-- The text behind a string sequence, where `last` is the byte read last. -/
def skipString (kind last : UInt8) : Bytes → Bytes
  | [] => []
  | c :: s =>
    if c = 7 ∧ kind = ch ']' then s
    else if last = 0x1b ∧ c = ch '\\' then s
    else skipString kind c s

/-- The text behind the intermediate bytes of a sequence and its last byte. -/
def skipIntermediate (kind : UInt8) : Bytes → Bytes
  | [] => []
  | c :: s => if 0x20 ≤ kind ∧ kind ≤ 0x2f then skipIntermediate c s else c :: s

/-- What is behind an `ESC`. -/
def escapeSequence : Bytes → Bytes × Bytes
  | [] => ([], [])
  | kind :: s =>
    if kind = ch '[' then csiSequence s
    else if kind = ch ']' ∨ kind = ch 'P' ∨ kind = ch '_' ∨ kind = ch '^' ∨ kind = ch 'X' then
      ([], skipString kind kind s)
    else ([], skipIntermediate kind s)

/-- One round of the loop: what is written for the next byte, and the text that is left. -/
def safeStep (c : UInt8) (s : Bytes) : Bytes × Bytes :=
  if 0x80 ≤ c then
    let d := linenoiseUtf8Decode (c :: s)
    if 1 < d.1 ∧ ¬(0x80 ≤ d.2 ∧ d.2 ≤ 0x9f) then ((c :: s).take d.1, s.drop (d.1 - 1))
    else (escapedByte c, s)
  else if c = 0x1b then escapeSequence s
  else if c < 32 ∧ c ≠ ch '\n' ∧ c ≠ ch '\r' ∧ c ≠ ch '\t' ∨ c = 127 then (escapedByte c, s)
  else ([c], s)

theorem skipString_suffix (kind last : UInt8) (s : Bytes) : skipString kind last s <:+ s := by
  induction s generalizing last with
  | nil => exact List.suffix_refl _
  | cons c s ih =>
    rw [skipString]
    split
    · exact List.suffix_cons c s
    split
    · exact List.suffix_cons c s
    · exact (ih c).trans (List.suffix_cons c s)

theorem skipIntermediate_suffix (kind : UInt8) (s : Bytes) : skipIntermediate kind s <:+ s := by
  induction s generalizing kind with
  | nil => exact List.suffix_refl _
  | cons c s ih =>
    rw [skipIntermediate]
    split
    · exact (ih c).trans (List.suffix_cons c s)
    · exact List.suffix_refl _

theorem csiSequence_suffix (s : Bytes) : (csiSequence s).2 <:+ s := by
  have h := List.dropWhile_suffix (l := s) fun c => c < (0x40 : UInt8)
  rw [csiSequence]
  cases hrest : s.dropWhile fun c => c < (0x40 : UInt8) with
  | nil => exact List.nil_suffix
  | cons c rest =>
    rw [hrest] at h
    have hs := (List.suffix_cons c rest).trans h
    dsimp only
    split
    · exact hs
    · exact hs

theorem escapeSequence_suffix (s : Bytes) : (escapeSequence s).2 <:+ s := by
  cases s with
  | nil => exact List.suffix_refl _
  | cons kind s =>
    rw [escapeSequence]
    split
    · exact (csiSequence_suffix s).trans (List.suffix_cons kind s)
    split
    · exact (skipString_suffix kind kind s).trans (List.suffix_cons kind s)
    · exact (skipIntermediate_suffix kind s).trans (List.suffix_cons kind s)

theorem safeStep_suffix (c : UInt8) (s : Bytes) : (safeStep c s).2 <:+ s := by
  rw [safeStep]
  split
  · dsimp only
    split
    · exact List.drop_suffix _ s
    · exact List.suffix_refl s
  split
  · exact escapeSequence_suffix s
  split
  · exact List.suffix_refl s
  · exact List.suffix_refl s

def agentTerminalSafeText : Bytes → Bytes
  | [] => []
  | c :: s => (safeStep c s).1 ++ agentTerminalSafeText (safeStep c s).2
termination_by s => s.length
decreasing_by exact Nat.lt_succ_of_le (safeStep_suffix c s).length_le

/-! ## Characters -/

theorem ofNat_eq_of_toNat {c : UInt8} {n : Nat} (h : c.toNat = n) : UInt8.ofNat n = c := by
  rw [← h, UInt8.ofNat_toNat]

theorem contByte_eq {c : UInt8} {n : Nat} (h : isCont c = true) (hn : n % 64 = c.toNat % 64) :
    contByte n = c := by
  have hc := (isCont_iff c).mp h
  exact ofNat_eq_of_toNat (by omega)

/-- The patterns of a lead byte. -/
theorem lead_iff (c : UInt8) :
    (c &&& 0x80 = 0 ↔ c.toNat < 128) ∧ (c &&& 0xe0 = 0xc0 ↔ 192 ≤ c.toNat ∧ c.toNat < 224) ∧
    (c &&& 0xf0 = 0xe0 ↔ 224 ≤ c.toNat ∧ c.toNat < 240) ∧
    (c &&& 0xf8 = 0xf0 ↔ 240 ≤ c.toNat ∧ c.toNat < 248) :=
  forall_byte (p := fun c => (c &&& 0x80 = 0 ↔ c.toNat < 128) ∧
    (c &&& 0xe0 = 0xc0 ↔ 192 ≤ c.toNat ∧ c.toNat < 224) ∧
    (c &&& 0xf0 = 0xe0 ↔ 224 ≤ c.toNat ∧ c.toNat < 240) ∧
    (c &&& 0xf8 = 0xf0 ↔ 240 ≤ c.toNat ∧ c.toNat < 248)) (by decide +kernel) c

/-! ## Texts that are safe to show -/

/-- A character that is shown, or one of the three controls. -/
def Printable (c : Char) : Prop :=
  c = '\n' ∨ c = '\r' ∨ c = '\t' ∨
    (0x20 ≤ c.val.toNat ∧ c.val.toNat ≠ 0x7f ∧ ¬(0x80 ≤ c.val.toNat ∧ c.val.toNat ≤ 0x9f))

/-- The text of a color sequence. -/
def sgr (params : Bytes) : Bytes := 0x1b :: ch '[' :: (params ++ [ch 'm'])

/-- Printable characters and color sequences below the length cap. -/
inductive Safe : Bytes → Prop
  | nil : Safe []
  | char {c : Char} {s : Bytes} : Printable c → Safe s → Safe (String.utf8EncodeChar c ++ s)
  | sgr {params s : Bytes} : params.all isParam = true → params.length + 2 < 96 → Safe s →
      Safe (sgr params ++ s)

theorem Safe.append {s t : Bytes} (hs : Safe s) (ht : Safe t) : Safe (s ++ t) := by
  induction hs with
  | nil => exact ht
  | char hc _ ih =>
    rw [List.append_assoc]
    exact .char hc ih
  | sgr hparams hlen _ ih =>
    rw [List.append_assoc]
    exact .sgr hparams hlen ih

/-- The character of a byte that is written as it is. -/
theorem printable_ascii {c : UInt8}
    (hc : c = ch '\n' ∨ c = ch '\r' ∨ c = ch '\t' ∨ (0x20 ≤ c ∧ c < 0x7f)) :
    ∃ d : Char, Printable d ∧ String.utf8EncodeChar d = [c] := by
  rcases hc with rfl | rfl | rfl | hc
  · exact ⟨'\n', .inl rfl, rfl⟩
  · exact ⟨'\r', .inr (.inl rfl), rfl⟩
  · exact ⟨'\t', .inr (.inr (.inl rfl)), rfl⟩
  · have hlt : c.toNat < 0x7f := UInt8.lt_iff_toNat_lt.mp hc.2
    have hge : 0x20 ≤ c.toNat := UInt8.le_iff_toNat_le.mp hc.1
    obtain ⟨d, hd⟩ := exists_char (v := c.toNat) (by omega) (by omega)
    refine ⟨d, .inr (.inr (.inr ⟨by omega, by omega, by omega⟩)), ?_⟩
    rw [utf8EncodeChar_eq, hd, encode, if_pos (by omega), UInt8.ofNat_toNat]

theorem Safe.ascii {c : UInt8} (hc : c = ch '\n' ∨ c = ch '\r' ∨ c = ch '\t' ∨ (0x20 ≤ c ∧ c < 0x7f)) :
    Safe [c] := by
  obtain ⟨d, hd, he⟩ := printable_ascii hc
  exact he ▸ List.append_nil (String.utf8EncodeChar d) ▸ Safe.char hd .nil

theorem safe_escapedByte (c : UInt8) : Safe (escapedByte c) := by
  have h : ∀ n < 16, 0x20 ≤ hexDigit n ∧ hexDigit n < 0x7f := by decide
  have hdigit : ∀ n < 16, Safe [hexDigit n] := fun n hn => .ascii (.inr (.inr (.inr (h n hn))))
  have hc := c.toNat_lt
  exact (Safe.ascii (c := ch '\\') (by decide)).append ((Safe.ascii (c := ch 'x') (by decide)).append
    ((hdigit _ (by omega)).append (hdigit _ (by omega))))

/-! ## The decoder -/

section Lead
variable {lead b c d : UInt8} {s : Bytes}

theorem lead_two (b : UInt8) (s : Bytes) (h : 192 ≤ lead.toNat ∧ lead.toNat < 224) : utf8ByteLen lead = 2 ∧
    utf8DecodeChar (lead :: b :: s) = lead.toNat % 32 * 64 + b.toNat % 64 := by
  obtain ⟨h1, h2, -, -⟩ := lead_iff lead
  have hnot : ¬lead &&& 0x80 = 0 := fun h' => by have := h1.mp h'; omega
  exact ⟨(if_neg hnot).trans (if_pos (h2.mpr h)), (if_neg hnot).trans (if_pos (h2.mpr h))⟩

theorem lead_three (b c : UInt8) (s : Bytes) (h : 224 ≤ lead.toNat ∧ lead.toNat < 240) : utf8ByteLen lead = 3 ∧
    utf8DecodeChar (lead :: b :: c :: s) =
      lead.toNat % 16 * 4096 + b.toNat % 64 * 64 + c.toNat % 64 := by
  obtain ⟨h1, h2, h3, -⟩ := lead_iff lead
  have hnot : ¬lead &&& 0x80 = 0 := fun h' => by have := h1.mp h'; omega
  have hnot' : ¬lead &&& 0xe0 = 0xc0 := fun h' => by have := h2.mp h'; omega
  exact ⟨(if_neg hnot).trans ((if_neg hnot').trans (if_pos (h3.mpr h))),
    (if_neg hnot).trans ((if_neg hnot').trans (if_pos (h3.mpr h)))⟩

theorem lead_four (b c d : UInt8) (s : Bytes) (h : 240 ≤ lead.toNat ∧ lead.toNat < 248) : utf8ByteLen lead = 4 ∧
    utf8DecodeChar (lead :: b :: c :: d :: s) =
      lead.toNat % 8 * 262144 + b.toNat % 64 * 4096 + c.toNat % 64 * 64 + d.toNat % 64 := by
  obtain ⟨h1, h2, h3, h4⟩ := lead_iff lead
  have hnot : ¬lead &&& 0x80 = 0 := fun h' => by have := h1.mp h'; omega
  have hnot' : ¬lead &&& 0xe0 = 0xc0 := fun h' => by have := h2.mp h'; omega
  have hnot'' : ¬lead &&& 0xf0 = 0xe0 := fun h' => by have := h3.mp h'; omega
  exact ⟨(if_neg hnot).trans ((if_neg hnot').trans ((if_neg hnot'').trans (if_pos (h4.mpr h)))),
    (if_neg hnot).trans ((if_neg hnot').trans ((if_neg hnot'').trans (if_pos (h4.mpr h))))⟩

end Lead

/-- A character of more than one byte that is decoded is the encoding of its code point. -/
theorem linenoiseUtf8Decode_sound {lead : UInt8} {s : Bytes} {n v : Nat}
    (h : linenoiseUtf8Decode (lead :: s) = (n, v)) (hn : 1 < n) :
    (lead :: s).take n = encode v ∧ v < 0x110000 ∧ ¬(0xd800 ≤ v ∧ v ≤ 0xdfff) := by
  have hone : ∀ {w}, (1, w) ≠ (n, v) := fun h => by cases h; omega
  rw [linenoiseUtf8Decode] at h
  split at h
  · exact absurd h hone
  split at h
  · exact absurd h hone
  next hrange =>
  split at h
  · exact absurd h hone
  next hcont =>
  split at h
  · cases h
    omega
  next hlen =>
  dsimp only at h
  split at h
  · exact absurd h hone
  next hvalue =>
  obtain ⟨rfl, rfl⟩ := Prod.mk.inj h
  refine ⟨?_, by omega, by omega⟩
  have hge : 0xc2 ≤ lead.toNat := Nat.le_of_not_lt fun hlt => hrange (.inl (UInt8.lt_iff_toNat_lt.mpr hlt))
  have hle : lead.toNat ≤ 0xf4 := Nat.le_of_not_lt fun hlt => hrange (.inr (UInt8.lt_iff_toNat_lt.mpr hlt))
  rcases Nat.lt_or_ge lead.toNat 224 with h2 | h2
  · obtain ⟨hn', -⟩ := lead_two (b := 0) (s := []) ⟨by omega, h2⟩
    rw [hn'] at hlen hcont
    cases s with
    | nil => exact absurd (Nat.lt_succ_self 1) hlen
    | cons b s =>
      have hvalue' := (lead_two (b := b) (s := s) ⟨by omega, h2⟩).2
      rw [hn'] at hvalue ⊢
      rw [hvalue'] at hvalue ⊢
      have hb : isCont b = true := by simpa using hcont
      have hb' := (isCont_iff b).mp hb
      rw [encode, if_neg (by omega), if_pos (by omega), ofNat_eq_of_toNat (c := lead) (by omega),
        contByte_eq hb (by omega)]
      rfl
  rcases Nat.lt_or_ge lead.toNat 240 with h3 | h3
  · obtain ⟨hn', -⟩ := lead_three (b := 0) (c := 0) (s := []) ⟨h2, h3⟩
    rw [hn'] at hlen hcont
    rcases s with _ | ⟨b, _ | ⟨c, s⟩⟩
    · exact absurd (show 0 + 1 < 3 by decide) hlen
    · exact absurd (show 1 + 1 < 3 by decide) hlen
    · have hvalue' := (lead_three (b := b) (c := c) (s := s) ⟨h2, h3⟩).2
      rw [hn'] at hvalue ⊢
      rw [hvalue'] at hvalue ⊢
      have hbc : isCont b = true ∧ isCont c = true := by simpa using hcont
      have hb' := (isCont_iff b).mp hbc.1
      have hc' := (isCont_iff c).mp hbc.2
      rw [encode, if_neg (by omega), if_neg (by omega), if_pos (by omega),
        ofNat_eq_of_toNat (c := lead) (by omega), contByte_eq hbc.1 (by omega), contByte_eq hbc.2 (by omega)]
      rfl
  · obtain ⟨hn', -⟩ := lead_four (b := 0) (c := 0) (d := 0) (s := []) ⟨h3, by omega⟩
    rw [hn'] at hlen hcont
    rcases s with _ | ⟨b, _ | ⟨c, _ | ⟨d, s⟩⟩⟩
    · exact absurd (show 0 + 1 < 4 by decide) hlen
    · exact absurd (show 1 + 1 < 4 by decide) hlen
    · exact absurd (show 2 + 1 < 4 by decide) hlen
    · have hvalue' := (lead_four (b := b) (c := c) (d := d) (s := s) ⟨h3, by omega⟩).2
      rw [hn'] at hvalue ⊢
      rw [hvalue'] at hvalue ⊢
      have hbcd : isCont b = true ∧ isCont c = true ∧ isCont d = true := by simpa using hcont
      have hb' := (isCont_iff b).mp hbcd.1
      have hc' := (isCont_iff c).mp hbcd.2.1
      have hd' := (isCont_iff d).mp hbcd.2.2
      rw [encode, if_neg (by omega), if_neg (by omega), if_neg (by omega),
        ofNat_eq_of_toNat (c := lead) (by omega), contByte_eq hbcd.1 (by omega),
        contByte_eq hbcd.2.1 (by omega), contByte_eq hbcd.2.2 (by omega)]
      rfl

theorem toNat_ofNat_of_lt {n : Nat} (h : n < 256) : (UInt8.ofNat n).toNat = n := UInt8.toNat_ofNat_of_lt h

theorem toNat_contByte (n : Nat) : (contByte n).toNat = n % 64 + 128 := toNat_ofNat_of_lt (by omega)

/-- The first byte tells whether there are more. -/
theorem encode_head {v : Nat} {b : UInt8} {t : Bytes} (h : encode v = b :: t) : 0x80 ≤ b ↔ 0x80 ≤ v := by
  rw [UInt8.le_iff_toNat_le]
  change 128 ≤ b.toNat ↔ _
  rw [encode] at h
  split at h
  · next hv =>
    rw [← (List.cons.inj h).1, toNat_ofNat_of_lt (by omega)]
  split at h
  · rw [← (List.cons.inj h).1, toNat_ofNat_of_lt (by omega)]
    omega
  split at h
  · rw [← (List.cons.inj h).1, toNat_ofNat_of_lt (by omega)]
    omega
  · rw [← (List.cons.inj h).1, toNat_ofNat_of_lt (by omega)]
    omega

/-- What the decoder does where the lead byte is in its range and the bytes behind it fit. -/
theorem linenoiseUtf8Decode_of {lead : UInt8} {s : Bytes} {n v : Nat} (hge : 0xc2 ≤ lead.toNat)
    (hle : lead.toNat ≤ 0xf4) (hn : utf8ByteLen lead = n) (hcont : ∀ c ∈ s.take (n - 1), isCont c = true)
    (hlen : n ≤ s.length + 1) (hv : utf8DecodeChar (lead :: s) = v) (hmax : v < 0x110000)
    (hs : ¬(0xd800 ≤ v ∧ v ≤ 0xdfff)) (hthree : n = 3 → 0x800 ≤ v) (hfour : n = 4 → 0x10000 ≤ v) :
    linenoiseUtf8Decode (lead :: s) = (n, v) := by
  have hcont' : ¬((s.take (n - 1)).any fun c => !isCont c) = true := by
    rw [List.any_eq_true]
    rintro ⟨c, hc, h⟩
    rw [hcont c hc] at h
    exact absurd h Bool.false_ne_true
  have hrange : ¬(lead < 0xc2 ∨ 0xf4 < lead) := fun h => h.elim
    (fun h => Nat.not_lt_of_le hge (UInt8.lt_iff_toNat_lt.mp h))
    fun h => Nat.not_lt_of_le hle (UInt8.lt_iff_toNat_lt.mp h)
  have hascii : ¬lead < 0x80 := fun h => by
    have := UInt8.lt_iff_toNat_lt.mp h
    change lead.toNat < 128 at this
    omega
  rw [linenoiseUtf8Decode]
  dsimp only
  rw [hn, hv, if_neg hascii, if_neg hrange, if_neg hcont', if_neg (by omega), if_neg (by omega)]

/-- The encoding of a code point from `0x80` on is decoded. -/
theorem linenoiseUtf8Decode_encode {v : Nat} (hv : v < 0x110000) (hs : ¬(0xd800 ≤ v ∧ v ≤ 0xdfff))
    (hge : 0x80 ≤ v) (s : Bytes) :
    linenoiseUtf8Decode (encode v ++ s) = ((encode v).length, v) ∧ 1 < (encode v).length := by
  rw [encode, if_neg (by omega)]
  split
  · next h =>
    have hlead : (UInt8.ofNat (v / 64 % 32 + 192)).toNat = v / 64 % 32 + 192 :=
      toNat_ofNat_of_lt (by omega)
    obtain ⟨hn, hvalue⟩ := lead_two (contByte v) s
      (show 192 ≤ (UInt8.ofNat (v / 64 % 32 + 192)).toNat ∧ _ by omega)
    refine ⟨linenoiseUtf8Decode_of (by omega) (by omega) hn ?_ ?_ ?_ hv hs (by rintro ⟨⟩) (by rintro ⟨⟩),
      Nat.lt_succ_self 1⟩
    · simpa using isCont_contByte v
    · exact Nat.succ_le_succ (Nat.succ_pos _)
    · refine hvalue.trans ?_
      rw [toNat_contByte, hlead]
      omega
  split
  · next h h' =>
    have hlead : (UInt8.ofNat (v / 4096 % 16 + 224)).toNat = v / 4096 % 16 + 224 :=
      toNat_ofNat_of_lt (by omega)
    obtain ⟨hn, hvalue⟩ := lead_three (contByte (v / 64)) (contByte v) s
      (show 224 ≤ (UInt8.ofNat (v / 4096 % 16 + 224)).toNat ∧ _ by omega)
    refine ⟨linenoiseUtf8Decode_of (by omega) (by omega) hn ?_ ?_ ?_ hv hs (fun _ => by omega) (by rintro ⟨⟩),
      Nat.succ_lt_succ (Nat.succ_pos 1)⟩
    · simpa using ⟨isCont_contByte (v / 64), isCont_contByte v⟩
    · exact Nat.succ_le_succ (Nat.succ_le_succ (Nat.succ_pos _))
    · refine hvalue.trans ?_
      rw [toNat_contByte, toNat_contByte, hlead]
      omega
  · next h h' =>
    have hlead : (UInt8.ofNat (v / 262144 % 8 + 240)).toNat = v / 262144 % 8 + 240 :=
      toNat_ofNat_of_lt (by omega)
    obtain ⟨hn, hvalue⟩ := lead_four (contByte (v / 4096)) (contByte (v / 64)) (contByte v) s
      (show 240 ≤ (UInt8.ofNat (v / 262144 % 8 + 240)).toNat ∧ _ by omega)
    refine ⟨linenoiseUtf8Decode_of (by omega) (by omega) hn ?_ ?_ ?_ hv hs (by rintro ⟨⟩) (fun _ => by omega),
      Nat.succ_lt_succ (Nat.succ_pos 2)⟩
    · simpa using ⟨isCont_contByte (v / 4096), isCont_contByte (v / 64), isCont_contByte v⟩
    · exact Nat.succ_le_succ (Nat.succ_le_succ (Nat.succ_le_succ (Nat.succ_pos _)))
    · refine hvalue.trans ?_
      rw [toNat_contByte, toNat_contByte, toNat_contByte, hlead]
      omega

/-! ## What is written -/

theorem safe_csiSequence (s : Bytes) : Safe (csiSequence s).1 := by
  rw [csiSequence]
  cases s.dropWhile fun c => c < (0x40 : UInt8) with
  | nil => exact .nil
  | cons c rest =>
    dsimp only
    split
    · next h =>
      have hsafe := Safe.sgr h.2.1 h.2.2 .nil
      rw [List.append_nil, sgr, ← h.1] at hsafe
      exact hsafe
    · exact .nil

theorem safe_escapeSequence (s : Bytes) : Safe (escapeSequence s).1 := by
  cases s with
  | nil => exact .nil
  | cons kind s =>
    rw [escapeSequence]
    split
    · exact safe_csiSequence s
    split
    · exact .nil
    · exact .nil

/-- A byte below `0x80` that is written as it is. -/
theorem shown_iff {c : UInt8} (hascii : ¬0x80 ≤ c) :
    c ≠ 0x1b ∧ ¬(c < 32 ∧ c ≠ ch '\n' ∧ c ≠ ch '\r' ∧ c ≠ ch '\t' ∨ c = 127) ↔
      c = ch '\n' ∨ c = ch '\r' ∨ c = ch '\t' ∨ (0x20 ≤ c ∧ c < 0x7f) := by
  refine forall_byte (p := fun c => ¬0x80 ≤ c → (c ≠ 0x1b ∧
    ¬(c < 32 ∧ c ≠ ch '\n' ∧ c ≠ ch '\r' ∧ c ≠ ch '\t' ∨ c = 127) ↔
      c = ch '\n' ∨ c = ch '\r' ∨ c = ch '\t' ∨ (0x20 ≤ c ∧ c < 0x7f))) (by decide +kernel) c hascii

theorem safe_safeStep (c : UInt8) (s : Bytes) : Safe (safeStep c s).1 := by
  rw [safeStep]
  split
  · dsimp only
    split
    · next hc hn =>
      obtain ⟨n, v, hdecode⟩ : ∃ n v, linenoiseUtf8Decode (c :: s) = (n, v) := ⟨_, _, rfl⟩
      rw [hdecode] at hn ⊢
      obtain ⟨htake, hv, hs⟩ := linenoiseUtf8Decode_sound hdecode hn.1
      obtain ⟨d, rfl⟩ := exists_char hv hs
      have hge : 0x80 ≤ d.val.toNat := by
        obtain ⟨m, rfl⟩ := Nat.exists_eq_add_of_lt hn.1
        exact (encode_head htake.symm).mp hc
      dsimp only
      rw [htake, ← utf8EncodeChar_eq, ← List.append_nil (String.utf8EncodeChar d)]
      exact .char (.inr (.inr (.inr ⟨by omega, by omega, hn.2⟩))) .nil
    · exact safe_escapedByte c
  next hascii =>
  split
  · exact safe_escapeSequence s
  next hesc =>
  split
  · exact safe_escapedByte c
  next hshown => exact .ascii ((shown_iff hascii).mp ⟨hesc, hshown⟩)

/-- One round reads a character that is shown. -/
theorem safeStep_char {c : Char} (hc : Printable c) (s : Bytes) :
    ∃ b t, String.utf8EncodeChar c ++ s = b :: t ∧ safeStep b t = (String.utf8EncodeChar c, s) := by
  have hv : c.val.toNat < 0x110000 ∧ ¬(0xd800 ≤ c.val.toNat ∧ c.val.toNat ≤ 0xdfff) := by
    rcases c.valid with h | h
    · change c.val.toNat < 0xd800 at h
      omega
    · change 0xdfff < c.val.toNat ∧ c.val.toNat < 0x110000 at h
      omega
  rw [utf8EncodeChar_eq]
  rcases Nat.lt_or_ge c.val.toNat 0x80 with hlt | hge
  · have htoNat : (UInt8.ofNat c.val.toNat).toNat = c.val.toNat := toNat_ofNat_of_lt (by omega)
    have hascii : ¬(0x80 : UInt8) ≤ UInt8.ofNat c.val.toNat := fun h => by
      have := UInt8.le_iff_toNat_le.mp h
      change 128 ≤ (UInt8.ofNat c.val.toNat).toNat at this
      omega
    refine ⟨UInt8.ofNat c.val.toNat, s, by rw [encode, if_pos hlt]; rfl, ?_⟩
    have hshown : UInt8.ofNat c.val.toNat = ch '\n' ∨ UInt8.ofNat c.val.toNat = ch '\r' ∨
        UInt8.ofNat c.val.toNat = ch '\t' ∨
        (0x20 ≤ UInt8.ofNat c.val.toNat ∧ UInt8.ofNat c.val.toNat < 0x7f) := by
      rcases hc with rfl | rfl | rfl | hc
      · exact .inl rfl
      · exact .inr (.inl rfl)
      · exact .inr (.inr (.inl rfl))
      · refine .inr (.inr (.inr ⟨UInt8.le_iff_toNat_le.mpr ?_, UInt8.lt_iff_toNat_lt.mpr ?_⟩))
        · rw [htoNat]
          exact hc.1
        · rw [htoNat]
          change c.val.toNat < 127
          omega
    obtain ⟨hesc, hnot⟩ := (shown_iff hascii).mpr hshown
    rw [safeStep, if_neg hascii, if_neg hesc, if_neg hnot, encode, if_pos hlt]
  · obtain ⟨hdecode, hlen⟩ := linenoiseUtf8Decode_encode hv.1 hv.2 hge s
    obtain ⟨b, t, hbt⟩ : ∃ b t, encode c.val.toNat = b :: t :=
      List.exists_cons_of_length_pos (Nat.zero_lt_of_lt hlen)
    have hnot : ¬(0x80 ≤ c.val.toNat ∧ c.val.toNat ≤ 0x9f) := by
      rcases hc with rfl | rfl | rfl | hc
      · decide
      · decide
      · decide
      · exact hc.2.2
    refine ⟨b, t ++ s, by rw [hbt]; rfl, ?_⟩
    rw [safeStep, if_pos ((encode_head hbt).mpr hge), ← List.cons_append, ← hbt, hdecode]
    dsimp only
    rw [if_pos ⟨hlen, hnot⟩, List.take_left, hbt, List.length_cons, Nat.add_sub_cancel, List.drop_left]

theorem isParam_range {c : UInt8} (h : isParam c = true) : 0x20 ≤ c ∧ c < 0x40 :=
  forall_byte (p := fun c => isParam c = true → 0x20 ≤ c ∧ c < 0x40) (by decide +kernel) c h

theorem safeStep_sgr {params : Bytes} (hparams : params.all isParam = true) (hlen : params.length + 2 < 96)
    (s : Bytes) :
    safeStep 0x1b (ch '[' :: (params ++ [ch 'm']) ++ s) = (sgr params, s) := by
  have hlow : ∀ c ∈ params, decide (c < (0x40 : UInt8)) = true := fun c hc =>
    decide_eq_true (isParam_range (List.all_eq_true.mp hparams c hc)).2
  have hstop : (ch 'm' :: s).takeWhile (fun c => c < (0x40 : UInt8)) = [] ∧
      (ch 'm' :: s).dropWhile (fun c => c < (0x40 : UInt8)) = ch 'm' :: s := ⟨rfl, rfl⟩
  have htake : (params ++ [ch 'm'] ++ s).takeWhile (fun c => c < (0x40 : UInt8)) = params := by
    rw [List.append_assoc, List.takeWhile_append_of_pos hlow, List.singleton_append,
      hstop.1, List.append_nil]
  have hdrop : (params ++ [ch 'm'] ++ s).dropWhile (fun c => c < (0x40 : UInt8)) = ch 'm' :: s := by
    rw [List.append_assoc, List.dropWhile_append_of_pos hlow, List.singleton_append,
      hstop.2]
  have hcsi : csiSequence (params ++ [ch 'm'] ++ s) = (sgr params, s) := by
    rw [csiSequence, hdrop, htake]
    exact if_pos ⟨rfl, hparams, hlen⟩
  rw [← hcsi]
  rfl

theorem agentTerminalSafeText_safe (text : Bytes) : Safe (agentTerminalSafeText text) := by
  induction text using agentTerminalSafeText.induct with
  | case1 =>
    rw [agentTerminalSafeText]
    exact .nil
  | case2 c s ih =>
    rw [agentTerminalSafeText]
    exact (safe_safeStep c s).append ih

theorem agentTerminalSafeText_of_safe {text : Bytes} (h : Safe text) : agentTerminalSafeText text = text := by
  induction h with
  | nil => rw [agentTerminalSafeText]
  | @char c s hc _ ih =>
    obtain ⟨b, t, htext, hstep⟩ := safeStep_char hc s
    rw [htext, agentTerminalSafeText, hstep, ih, htext]
  | @sgr params s hparams hlen _ ih =>
    rw [sgr, List.cons_append, agentTerminalSafeText, safeStep_sgr hparams hlen, ih]
    rfl

/-! ## What safe texts are -/

/-- Bytes that are written as they are are the text of as many characters. -/
theorem printable_bytes {s : Bytes}
    (h : ∀ c ∈ s, c = ch '\n' ∨ c = ch '\r' ∨ c = ch '\t' ∨ (0x20 ≤ c ∧ c < 0x7f)) :
    ∃ cs : List Char, s = cs.flatMap String.utf8EncodeChar ∧ ∀ c ∈ cs, Printable c := by
  induction s with
  | nil => exact ⟨[], rfl, fun _ hc => nomatch hc⟩
  | cons c s ih =>
    obtain ⟨hc, hs⟩ := List.forall_mem_cons.mp h
    obtain ⟨cs, hcs, hprint⟩ := ih hs
    obtain ⟨d, hd, he⟩ := printable_ascii hc
    refine ⟨d :: cs, ?_, List.forall_mem_cons.mpr ⟨hd, hprint⟩⟩
    rw [List.flatMap_cons, he, ← hcs]
    rfl

/-- Behind its `ESC` a color sequence has printable bytes only. -/
theorem sgr_tail {params : Bytes} (hparams : params.all isParam = true) :
    ∀ c ∈ ch '[' :: (params ++ [ch 'm']), 0x20 ≤ c ∧ c < 0x7f := by
  have hparam : ∀ c ∈ params, 0x20 ≤ c ∧ c < 0x7f := by
    intro c hc
    obtain ⟨hle, hlt⟩ := isParam_range (List.all_eq_true.mp hparams c hc)
    exact ⟨hle, UInt8.lt_trans hlt (by decide)⟩
  rw [List.forall_mem_cons, List.forall_mem_append, List.forall_mem_singleton]
  exact ⟨by decide, hparam, by decide⟩

theorem Safe.chars {s : Bytes} (h : Safe s) : ∃ cs : List Char, s = cs.flatMap String.utf8EncodeChar ∧
    ∀ c ∈ cs, c = '\x1b' ∨ Printable c := by
  induction h with
  | nil => exact ⟨[], rfl, fun _ hc => nomatch hc⟩
  | @char c s hc _ ih =>
    obtain ⟨cs, rfl, hcs⟩ := ih
    exact ⟨c :: cs, rfl, List.forall_mem_cons.mpr ⟨.inr hc, hcs⟩⟩
  | @sgr params s hparams _ _ ih =>
    obtain ⟨cs, rfl, hcs⟩ := ih
    obtain ⟨ds, hds, hprint⟩ := printable_bytes fun c hc => .inr (.inr (.inr (sgr_tail hparams c hc)))
    refine ⟨'\x1b' :: (ds ++ cs), ?_, List.forall_mem_cons.mpr
      ⟨.inl rfl, List.forall_mem_append.mpr ⟨fun c hc => .inr (hprint c hc), hcs⟩⟩⟩
    rw [TerminalText.sgr, hds, List.flatMap_cons, List.flatMap_append]
    rfl

theorem esc_notMem_encode {c : Char} (hc : Printable c) : 0x1b ∉ String.utf8EncodeChar c := by
  have hne : c.val.toNat ≠ 0x1b := by
    rcases hc with rfl | rfl | rfl | hc
    · decide
    · decide
    · decide
    · omega
  have hbyte : ∀ {n}, n < 256 → n ≠ 0x1b → 0x1b ≠ UInt8.ofNat n := fun hn hne h => hne <| by
    rw [← toNat_ofNat_of_lt hn, ← h]
    rfl
  have hcont : ∀ n, 0x1b ≠ contByte n := fun n => hbyte (by omega) (by omega)
  rw [utf8EncodeChar_eq, encode]
  split
  · exact fun h => hbyte (by omega) hne (List.mem_singleton.mp h)
  have hnil : ∀ n, 0x1b ∉ [contByte n] := fun n h => hcont n (List.mem_singleton.mp h)
  split
  · exact List.not_mem_cons_of_ne_of_not_mem (hbyte (by omega) (by omega)) (hnil _)
  split
  · exact List.not_mem_cons_of_ne_of_not_mem (hbyte (by omega) (by omega))
      (List.not_mem_cons_of_ne_of_not_mem (hcont _) (hnil _))
  · exact List.not_mem_cons_of_ne_of_not_mem (hbyte (by omega) (by omega))
      (List.not_mem_cons_of_ne_of_not_mem (hcont _) (List.not_mem_cons_of_ne_of_not_mem (hcont _) (hnil _)))

/-- An element that is not in the first part is in the second. -/
theorem split_right {α : Type*} {x : α} {a s before after : List α} (hx : x ∉ a)
    (h : a ++ s = before ++ x :: after) : ∃ before', s = before' ++ x :: after := by
  rcases List.append_eq_append_iff.mp h with ⟨b, rfl, hs⟩ | ⟨b, rfl, hs⟩
  · exact ⟨b, hs⟩
  · cases b with
    | nil => exact ⟨[], hs.symm⟩
    | cons y b =>
      cases (List.cons.inj hs).1
      exact absurd (List.mem_append_right _ (List.mem_cons_self ..)) hx

theorem Safe.escape {s : Bytes} (h : Safe s) {before after : Bytes} (hs : s = before ++ 0x1b :: after) :
    ∃ params rest, after = ch '[' :: (params ++ ch 'm' :: rest) ∧ params.all isParam = true := by
  induction h generalizing before with
  | nil => cases before <;> exact nomatch hs
  | char hc _ ih =>
    obtain ⟨before', hs'⟩ := split_right (esc_notMem_encode hc) hs
    exact ih hs'
  | @sgr params s hparams _ _ ih =>
    cases before with
    | nil =>
      refine ⟨params, s, (List.cons.inj hs).2.symm.trans ?_, hparams⟩
      exact congrArg (ch '[' :: ·) (List.append_assoc ..)
    | cons b before =>
      have hnot : 0x1b ∉ ch '[' :: (params ++ [ch 'm']) := fun hmem =>
        absurd (sgr_tail hparams _ hmem).1 (by decide)
      obtain ⟨before', hs'⟩ := split_right hnot (List.cons.inj hs).2
      exact ih hs'

/-- The output is valid UTF-8 of printable characters, three controls and escapes that begin color
sequences; a text that is such already stays as it is. -/
theorem agentTerminalSafeText_spec (text : Bytes) :
    (∃ cs : List Char, agentTerminalSafeText text = cs.flatMap String.utf8EncodeChar ∧
      ∀ c ∈ cs, c = '\x1b' ∨ Printable c) ∧
    (∀ before after, agentTerminalSafeText text = before ++ 0x1b :: after → ∃ params rest,
      after = ch '[' :: (params ++ ch 'm' :: rest) ∧ params.all isParam = true) ∧
    (Safe text → agentTerminalSafeText text = text) :=
  ⟨(agentTerminalSafeText_safe text).chars, fun _ _ => (agentTerminalSafeText_safe text).escape,
    agentTerminalSafeText_of_safe⟩

theorem agentTerminalSafeText_spec_color :
    agentTerminalSafeText (lit "\x1b[31mred\x1b[0m\n") = lit "\x1b[31mred\x1b[0m\n" := by
  have hred : Safe (lit "red") := (Safe.ascii (c := ch 'r') (by decide)).append
    ((Safe.ascii (c := ch 'e') (by decide)).append (Safe.ascii (c := ch 'd') (by decide)))
  have hplain : Safe (sgr (lit "0") ++ [ch '\n']) := .sgr (by decide) (by decide) (.ascii (by decide))
  have hcolor : Safe (sgr (lit "31") ++ (lit "red" ++ (sgr (lit "0") ++ [ch '\n']))) :=
    .sgr (by decide) (by decide) (hred.append hplain)
  exact (agentTerminalSafeText_spec _).2.2 hcolor

end Ds4.TerminalText
