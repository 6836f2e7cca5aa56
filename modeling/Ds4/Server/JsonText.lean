import Ds4.Server.JsonArgs
import Ds4.Server.Utf8

/-!
# The text of a string literal

A literal in UTF-8 is a row of characters, short escapes and `\u` escapes. The row says which characters
`json_string` has to return: a surrogate pair is one of them, and a surrogate that is not in a pair is replaced.
-/

namespace Ds4
open C

/-- What stands in a literal: a character, as it is or as a short escape, or the code unit of a `\u` escape. -/
inductive StrItem
  | char (c : Char)
  | unit (n : Nat)

/-- The spellings of an item. -/
inductive StrItem.Spells : StrItem → Bytes → Prop
  | char {c : Char} : c ≠ '"' → c ≠ '\\' → c ≠ '\x00' → Spells (.char c) (String.utf8EncodeChar c)
  | short {c : Char} {e d : UInt8} : jsonShortEscape e = some d → String.utf8EncodeChar c = [d] →
      Spells (.char c) [ch '\\', e]
  | unit {a b c d : UInt8} {n : Nat} : jsonU16 [ch '\\', ch 'u', a, b, c, d] = some n →
      Spells (.unit n) [ch '\\', ch 'u', a, b, c, d]

/-- The texts of a row of items. -/
inductive SpellsRow : List StrItem → Bytes → Prop
  | nil : SpellsRow [] []
  | cons {item : StrItem} {items : List StrItem} {v w : Bytes} : item.Spells v → SpellsRow items w →
      SpellsRow (item :: items) (v ++ w)

/-- The character of a code point, or the replacement character. -/
def scalar (n : Nat) : Char := if h : n.isValidChar then Char.ofNatAux n h else '\ufffd'

/-- A high and a low surrogate. -/
def SurrogatePair (n m : Nat) : Prop := (0xd800 ≤ n ∧ n ≤ 0xdbff) ∧ 0xdc00 ≤ m ∧ m ≤ 0xdfff

instance (n m : Nat) : Decidable (SurrogatePair n m) := instDecidableAnd

/-- The characters of a literal. -/
def decodeItems : List StrItem → List Char
  | [] => []
  | .char c :: items => c :: decodeItems items
  | .unit n :: .unit m :: items =>
    if SurrogatePair n m then scalar (0x10000 + (n - 0xd800) * 1024 + (m - 0xdc00)) :: decodeItems items
    else scalar n :: decodeItems (.unit m :: items)
  | .unit n :: items => scalar n :: decodeItems items

/-! ## Code points -/

theorem scalar_val {n : Nat} (h : n.isValidChar) : (scalar n).val.toNat = n := by
  rw [scalar, dif_pos h]
  rfl

/-- What the reader puts for a code point is the encoding of its character. -/
theorem utf8Put_eq (n : Nat) : utf8Put n = String.utf8EncodeChar (scalar n) := by
  by_cases h : n.isValidChar
  · have hlt : n < 0x110000 := by
      rcases h with h | h
      · omega
      · exact h.2
    have hrange : ¬(0x10ffff < n ∨ 0xd800 ≤ n ∧ n ≤ 0xdfff) := by
      rcases h with h | h
      · omega
      · omega
    rw [utf8EncodeChar_eq, scalar_val h, utf8Put, if_neg hrange, encode]
    split
    · next h1 => rw [if_pos (by omega)]
    split
    · next h1 h2 =>
      rw [if_neg (by omega), if_pos (by omega), contByte, Nat.mod_eq_of_lt (a := n / 64) (by omega),
        Nat.add_comm, Nat.add_comm 128]
    split
    · next h1 h2 h3 =>
      rw [if_neg (by omega), if_neg (by omega), if_pos (by omega), contByte, contByte,
        Nat.mod_eq_of_lt (a := n / 4096) (by omega), Nat.add_comm, Nat.add_comm 128, Nat.add_comm 128]
    · next h1 h2 h3 =>
      rw [if_neg (by omega), if_neg (by omega), if_neg (by omega), contByte, contByte, contByte,
        Nat.mod_eq_of_lt (a := n / 262144) (by omega), Nat.add_comm, Nat.add_comm 128, Nat.add_comm 128,
        Nat.add_comm 128]
  · have hrange : 0x10ffff < n ∨ 0xd800 ≤ n ∧ n ≤ 0xdfff := by
      by_contra hr
      exact h (by rw [Nat.isValidChar]; omega)
    rw [utf8Put, if_pos hrange, scalar, dif_neg h]
    decide

/-! ## Reading -/

/-- A byte of ASCII in the encoding of a character is the character. -/
theorem val_of_ascii {c : Char} {b : UInt8} (hb : b ∈ String.utf8EncodeChar c) (h : b < 0x80) :
    String.utf8EncodeChar c = [b] ∧ c.val.toNat = b.toNat := by
  obtain ⟨l, tl, he, hu⟩ := utf8EncodeChar_isUnit c
  have hlead : utf8ExpectedLen b = 1 := by rw [utf8ExpectedLen, if_pos h]
  have hbl : b = l := by
    rw [he, List.mem_cons] at hb
    refine hb.resolve_right fun htl => ?_
    exact absurd (isCont_spec b (hu.tail b htl)).1 (UInt8.not_le.mpr h)
  obtain rfl : tl = [] := by
    have hlen := hu.len
    rw [← hbl, hlead] at hlen
    exact List.eq_nil_of_length_eq_zero (by omega)
  rw [← hbl] at he
  refine ⟨he, ?_⟩
  rw [utf8EncodeChar_eq, encode] at he
  split at he
  · next hv =>
    rw [← (List.cons.inj he).1, UInt8.toNat_ofNat']
    exact (Nat.mod_eq_of_lt (by omega)).symm
  split at he
  · cases he
  split at he
  · cases he
  · cases he

theorem char_eq_of_val {c d : Char} (h : c.val.toNat = d.val.toNat) : c = d :=
  Char.ext (UInt32.toNat_inj.mp h)

/-- The encoding of a character that neither closes the literal nor opens an escape. -/
theorem jsonStringLoop_char {c : Char} {p : Bytes} (h1 : c ≠ '"') (h2 : c ≠ '\\') :
    jsonStringLoop (String.utf8EncodeChar c ++ p) =
      (jsonStringLoop p).map fun x => (String.utf8EncodeChar c ++ x.1, x.2) := by
  have hplain : ∀ w : Bytes, (∀ b ∈ w, b ≠ ch '"' ∧ b ≠ ch '\\') → jsonStringLoop (w ++ p) =
      (jsonStringLoop p).map fun x => (w ++ x.1, x.2) := fun w hw => by
    induction w with
    | nil => exact Option.map_id'.symm
    | cons b w ih =>
      rw [List.forall_mem_cons] at hw
      rw [List.cons_append, jsonStringLoop_plain hw.1.1 hw.1.2, ih hw.2, Option.map_map]
      rfl
  refine hplain _ fun b hb => ⟨?_, ?_⟩
  · rintro rfl
    exact h1 (char_eq_of_val (val_of_ascii hb (by decide)).2)
  · rintro rfl
    exact h2 (char_eq_of_val (val_of_ascii hb (by decide)).2)

/-- The escape of a code unit, when no low surrogate that belongs to it follows. -/
theorem jsonCodePoint_single {p : Bytes} {n : Nat} (h : jsonU16 p = some n)
    (hnext : ∀ m, jsonU16 (p.drop 6) = some m → ¬SurrogatePair n m) :
    ∃ cp, jsonCodePoint p = some (cp, 6) ∧ utf8Put cp = String.utf8EncodeChar (scalar n) := by
  rw [jsonCodePoint, h, Option.bind_eq_bind, Option.bind_some]
  split
  · next hhigh =>
    have hput : utf8Put 0xfffd = String.utf8EncodeChar (scalar n) := by
      have hn : ¬n.isValidChar := by
        rw [Nat.isValidChar]
        omega
      rw [scalar, dif_neg hn]
      decide
    cases hm : jsonU16 (p.drop 6) with
    | none => exact ⟨_, rfl, hput⟩
    | some m =>
      dsimp only
      rw [if_neg fun hlow => hnext m hm ⟨hhigh, hlow⟩]
      exact ⟨_, rfl, hput⟩
  · exact ⟨_, rfl, utf8Put_eq n⟩

/-- The code unit of an escape behind which a row of items stands belongs to the first of them. -/
theorem SpellsRow.jsonU16_head {items : List StrItem} {w r : Bytes} {m : Nat} (h : SpellsRow items w)
    (hm : jsonU16 (w ++ ch '"' :: r) = some m) : ∃ rest, items = .unit m :: rest := by
  obtain ⟨a, b, c, d, r', hr, hu⟩ := jsonU16_isSome hm
  cases h with
  | nil => exact absurd (List.cons.inj hr).1 (by decide)
  | @cons item items v w hv hw =>
    cases hv with
    | @char c h1 h2 h3 =>
      obtain ⟨l, tl, he, -⟩ := utf8EncodeChar_isUnit c
      rw [he] at hr
      obtain rfl := (List.cons.inj hr).1
      have hmem : ch '\\' ∈ String.utf8EncodeChar c := he ▸ List.mem_cons_self ..
      exact absurd (char_eq_of_val (val_of_ascii hmem (by decide)).2) h2
    | short he hd =>
      obtain rfl := (List.cons.inj (List.cons.inj hr).2).1
      cases he
    | unit hn =>
      have hnm := Option.some.inj ((jsonU16_append hn).symm.trans hm)
      exact ⟨items, by rw [hnm]⟩

/-- An escape that is not the first half of a pair. -/
theorem SpellsRow.read_unit {items : List StrItem} {a b c d : UInt8} {w r s : Bytes} {n : Nat}
    (hn : jsonU16 [ch '\\', ch 'u', a, b, c, d] = some n) (h : SpellsRow items w)
    (hnext : ∀ m rest, items = .unit m :: rest → ¬SurrogatePair n m)
    (hread : jsonStringLoop (w ++ ch '"' :: r) = some (s, r)) :
    jsonStringLoop ([ch '\\', ch 'u', a, b, c, d] ++ w ++ ch '"' :: r) =
      some (String.utf8EncodeChar (scalar n) ++ s, r) := by
  obtain ⟨cp, hcp, hput⟩ := jsonCodePoint_single (jsonU16_append (r := w ++ ch '"' :: r) hn) fun m hm => by
    obtain ⟨rest, hrest⟩ := h.jsonU16_head hm
    exact hnext m rest hrest
  rw [← hput]
  refine (jsonStringLoop_unicode hcp).trans ?_
  rw [show (a :: b :: c :: d :: (w ++ ch '"' :: r)).drop (6 - 2) = w ++ ch '"' :: r from rfl, hread]
  rfl

/-- The reader returns the characters of the literal. -/
theorem SpellsRow.read {items : List StrItem} {w : Bytes} (h : SpellsRow items w) (r : Bytes) :
    jsonStringLoop (w ++ ch '"' :: r) = some ((decodeItems items).flatMap String.utf8EncodeChar, r) := by
  induction items using decodeItems.induct generalizing w with
  | case1 =>
    cases h
    rw [List.nil_append, jsonStringLoop.eq_def]
    rfl
  | case2 c items ih =>
    cases h with
    | cons hv hw =>
      rw [decodeItems, List.flatMap_cons]
      cases hv with
      | char h1 h2 h3 =>
        rw [List.append_assoc, jsonStringLoop_char h1 h2, ih hw]
        rfl
      | @short c e d he hd =>
        have hu : e ≠ ch 'u' := fun hu => by
          rw [hu] at he
          cases he
        rw [hd]
        exact (jsonStringLoop_short hu he).trans (congrArg (Option.map fun x => (d :: x.1, x.2)) (ih hw))
  | case3 n m items hpair ih =>
    cases h with
    | cons hv hw =>
      cases hw with
      | cons hv' hw =>
        cases hv with
        | @unit a b c d n hn =>
          rename_i w
          cases hv' with
          | @unit a' b' c' d' m hm =>
            have hcp : jsonCodePoint (ch '\\' :: ch 'u' :: a :: b :: c :: d :: ch '\\' :: ch 'u' :: a' :: b' ::
                c' :: d' :: (w ++ ch '"' :: r)) = some (0x10000 + (n - 0xd800) * 1024 + (m - 0xdc00), 12) := by
              rw [jsonCodePoint, jsonU16_append hn, Option.bind_eq_bind, Option.bind_some, if_pos hpair.1,
                List.drop_succ_cons, List.drop_succ_cons, List.drop_succ_cons, List.drop_succ_cons,
                List.drop_succ_cons, List.drop_succ_cons, List.drop_zero, jsonU16_append hm]
              exact if_pos hpair.2
            rw [decodeItems, if_pos hpair, List.flatMap_cons, ← utf8Put_eq]
            refine (jsonStringLoop_unicode hcp).trans ?_
            rw [show ∀ s : Bytes, (a :: b :: c :: d :: ch '\\' :: ch 'u' :: a' :: b' :: c' :: d' :: s).drop
              (12 - 2) = s from fun _ => rfl, ih hw]
            rfl
  | case4 n m items hpair ih =>
    cases h with
    | cons hv hw =>
      rw [decodeItems, if_neg hpair, List.flatMap_cons]
      cases hv with
      | unit hn =>
        refine SpellsRow.read_unit hn hw (fun m' rest he => ?_) (ih hw)
        cases he
        exact hpair
  | case5 n items hne ih =>
    cases h with
    | cons hv hw =>
      rw [decodeItems, List.flatMap_cons]
      · cases hv with
        | unit hn => exact SpellsRow.read_unit hn hw (fun m' rest he => absurd he (hne m' rest)) (ih hw)
      · exact hne

/-! ## Literals in UTF-8 -/

/-- Behind a byte of ASCII a text in UTF-8 goes on with a character. -/
theorem Whole.tail {b : UInt8} {w : Bytes} (h : Whole (b :: w)) (hb : b < 0x80) : Whole w := by
  rcases h.cases with hnil | ⟨l, tl, r, hcons, hu, -, hr⟩
  · cases hnil
  obtain ⟨rfl, hw⟩ := List.cons.inj hcons
  have hlen := hu.len
  rw [utf8ExpectedLen, if_pos hb] at hlen
  obtain rfl : tl = [] := List.eq_nil_of_length_eq_zero (by omega)
  rwa [hw]

theorem StrBody.of_append {w v : Bytes} (hv : ∀ b ∈ v, isCont b = true) (h : StrBody (v ++ w)) : StrBody w := by
  induction v with
  | nil => exact h
  | cons b v ih =>
    rw [List.forall_mem_cons] at hv
    generalize hs : b :: v ++ w = s at h
    have hne : b ≠ ch '\\' := by
      rintro rfl
      exact absurd hv.1 (by decide)
    cases h with
    | nil => cases hs
    | plain _ _ h =>
      obtain ⟨-, rfl⟩ := List.cons.inj hs
      exact ih hv.2 h
    | short => exact absurd (List.cons.inj hs).1 hne
    | unicode => exact absurd (List.cons.inj hs).1 hne

theorem jsonHex_ascii {b : UInt8} (h : (jsonHex b).isSome) : b < 0x80 :=
  forall_byte (p := fun b => (jsonHex b).isSome → b < 0x80) (by decide +kernel) b h

/-- The characters of the short escapes. -/
theorem jsonShortEscape_spec {e d : UInt8} (h : jsonShortEscape e = some d) :
    e < 0x80 ∧ 0 < d.toNat ∧ d.toNat < 0x80 := by
  have key : ∀ e, (jsonShortEscape e).all (fun d => e < 0x80 ∧ 0 < d.toNat ∧ d.toNat < 0x80) = true :=
    forall_byte (p := fun e => (jsonShortEscape e).all (fun d => e < 0x80 ∧ 0 < d.toNat ∧ d.toNat < 0x80) = true)
      (by decide +kernel)
  have hall := key e
  rw [h, Option.all_some, decide_eq_true_eq] at hall
  exact hall

/-- Every accepted literal in UTF-8 is a row of items. -/
theorem StrBody.exists_row {w : Bytes} (h : StrBody w) (hw : Whole w) (h0 : 0 ∉ w) :
    ∃ items, SpellsRow items w := by
  induction hn : w.length using Nat.strongRecOn generalizing w with
  | ind n ih =>
  subst hn
  cases h with
  | nil => exact ⟨[], .nil⟩
  | @plain b w h1 h2 h =>
    obtain ⟨cs, hcs⟩ := hw
    cases cs with
    | nil => cases hcs
    | cons c cs =>
      obtain ⟨l, tl, he, hu⟩ := utf8EncodeChar_isUnit c
      rw [List.flatMap_cons, he, List.cons_append] at hcs
      obtain ⟨rfl, hrest⟩ := List.cons.inj hcs
      have hr : StrBody (cs.flatMap String.utf8EncodeChar) := StrBody.of_append hu.tail (hrest ▸ h)
      have hlen := congrArg List.length hrest
      rw [List.length_append] at hlen
      rw [List.mem_cons, not_or, hrest, List.mem_append, not_or] at h0
      obtain ⟨items, hitems⟩ := ih _ (by rw [List.length_cons]; omega) hr ⟨cs, rfl⟩ h0.2.2 rfl
      have hchar : ∀ (d : Char) (x : UInt8), String.utf8EncodeChar d = [x] → b ≠ x → c ≠ d :=
        fun d x hd hx hcd => hx (List.cons.inj ((hcd ▸ he).symm.trans hd)).1
      refine ⟨.char c :: items, ?_⟩
      rw [hrest, ← List.cons_append, ← he]
      exact .cons (.char (hchar _ _ (by decide) h1) (hchar _ _ (by decide) h2)
        (hchar _ 0 (by decide) (Ne.symm h0.1))) hitems
  | @short e d w he hd h =>
    obtain ⟨hea, hdp, hda⟩ := jsonShortEscape_spec hd
    have hw' := (hw.tail (by decide)).tail hea
    obtain ⟨items, hitems⟩ := ih _ (by rw [List.length_cons, List.length_cons]; omega) h hw'
      (fun hm => h0 (List.mem_cons_of_mem _ (List.mem_cons_of_mem _ hm))) rfl
    obtain ⟨c, hc⟩ := exists_char (v := d.toNat) (by omega) (by omega)
    refine ⟨.char c :: items, .cons (v := [ch '\\', e]) (.short hd ?_) hitems⟩
    rw [utf8EncodeChar_eq, hc, encode, if_pos hda, UInt8.ofNat_toNat]
  | @unicode a b c d w hu h =>
    obtain ⟨n, hn⟩ := Option.isSome_iff_exists.mp hu
    have hex : ∀ x ∈ [a, b, c, d], x < 0x80 := by
      simp only [jsonU16, and_self, ↓reduceIte, Option.bind_eq_bind, Option.bind_eq_some_iff] at hn
      obtain ⟨na, ha, nb, hb, nc, hc, nd, hd, -⟩ := hn
      rw [List.forall_mem_cons, List.forall_mem_cons, List.forall_mem_cons, List.forall_mem_singleton]
      exact ⟨jsonHex_ascii (Option.isSome_of_eq_some ha), jsonHex_ascii (Option.isSome_of_eq_some hb),
        jsonHex_ascii (Option.isSome_of_eq_some hc), jsonHex_ascii (Option.isSome_of_eq_some hd)⟩
    rw [List.forall_mem_cons, List.forall_mem_cons, List.forall_mem_cons, List.forall_mem_singleton] at hex
    have hw' := (((((hw.tail (by decide)).tail (by decide)).tail hex.1).tail hex.2.1).tail hex.2.2.1).tail hex.2.2.2
    obtain ⟨items, hitems⟩ := ih _ (by simp only [List.length_cons]; omega) h hw'
      (fun hm => h0 (List.mem_append_right [ch '\\', ch 'u', a, b, c, d] hm)) rfl
    exact ⟨.unit n :: items, .cons (v := [ch '\\', ch 'u', a, b, c, d]) (.unit hn) hitems⟩

theorem scalar_ne_nul {n : Nat} (h : n ≠ 0) : scalar n ≠ '\x00' := fun hn => by
  by_cases hv : n.isValidChar
  · exact h ((scalar_val hv).symm.trans (congrArg (fun c : Char => c.val.toNat) hn))
  · rw [scalar, dif_neg hv] at hn
    exact absurd hn (by decide)

theorem SpellsRow.char_ne_nul {items : List StrItem} {w : Bytes} (h : SpellsRow items w) :
    ∀ c, .char c ∈ items → c ≠ '\x00' := by
  induction h with
  | nil => exact fun c hc => absurd hc List.not_mem_nil
  | cons hv _ ih =>
    intro c hc
    rcases List.mem_cons.mp hc with rfl | hc
    · cases hv with
      | char _ _ h3 => exact h3
      | @short c e d he hd =>
        rintro rfl
        obtain rfl : (0 : UInt8) = d := (List.cons.inj hd).1
        exact absurd (jsonShortEscape_spec he).2.1 (by decide)
    · exact ih c hc

/-- Without an escape of U+0000 no character is U+0000. -/
theorem decodeItems_ne_nul {items : List StrItem} (hc : ∀ c, .char c ∈ items → c ≠ '\x00')
    (h0 : .unit 0 ∉ items) : ∀ c ∈ decodeItems items, c ≠ '\x00' := by
  induction items using decodeItems.induct with
  | case1 => exact fun c hmem => absurd hmem List.not_mem_nil
  | case2 c items ih =>
    rw [decodeItems, List.forall_mem_cons]
    exact ⟨hc c (List.mem_cons_self ..),
      ih (fun d hd => hc d (List.mem_cons_of_mem _ hd)) fun hm => h0 (List.mem_cons_of_mem _ hm)⟩
  | case3 n m items hpair ih =>
    rw [decodeItems, if_pos hpair, List.forall_mem_cons]
    exact ⟨scalar_ne_nul (by omega),
      ih (fun d hd => hc d (List.mem_cons_of_mem _ (List.mem_cons_of_mem _ hd)))
        fun hm => h0 (List.mem_cons_of_mem _ (List.mem_cons_of_mem _ hm))⟩
  | case4 n m items hpair ih =>
    rw [decodeItems, if_neg hpair, List.forall_mem_cons]
    exact ⟨scalar_ne_nul fun hn => h0 (by rw [hn]; exact List.mem_cons_self ..),
      ih (fun d hd => hc d (List.mem_cons_of_mem _ hd)) fun hm => h0 (List.mem_cons_of_mem _ hm)⟩
  | case5 n items hne ih =>
    rw [decodeItems, List.forall_mem_cons]
    · exact ⟨scalar_ne_nul fun hn => h0 (by rw [hn]; exact List.mem_cons_self ..),
        ih (fun d hd => hc d (List.mem_cons_of_mem _ hd)) fun hm => h0 (List.mem_cons_of_mem _ hm)⟩
    · exact hne

/-- A literal in UTF-8 reads as its characters. -/
theorem jsonString_row {items : List StrItem} {w : Bytes} (h : SpellsRow items w) (h0 : .unit 0 ∉ items)
    (r : Bytes) :
    jsonString (ch '"' :: (w ++ ch '"' :: r)) = some ((decodeItems items).flatMap String.utf8EncodeChar, r) := by
  have hnul : 0 ∉ (decodeItems items).flatMap String.utf8EncodeChar := fun hm => by
    obtain ⟨c, hc, hb⟩ := List.mem_flatMap.mp hm
    exact decodeItems_ne_nul h.char_ne_nul h0 c hc (char_eq_of_val (val_of_ascii hb (by decide)).2)
  rw [jsonString, skipSpace_cons_of_not (by decide)]
  dsimp only
  rw [if_pos rfl, h.read r, Option.map_some, cstr_of_notMem hnul]

end Ds4
