import Ds4.Server.JsonArgs
import Ds4.Server.StreamHold

/-!
# The fragments of a string parameter

While a string parameter arrives, the stream unescapes and sends what it is sure of. The part that is sent
ends neither inside an escape nor inside a character, so that the fragments decode to the parameter.
-/

namespace Ds4
open C Scan

/-! ## Cuts through an escape -/

/-- The escape of a closing tag whose first byte is escaped `k + 1` times. -/
def escapeWord (k : Nat) (tl : Bytes) : Bytes := ch '&' :: closeWord k tl

/-- A word of the text goes over the offset. -/
def Cuts (P : Bytes → Prop) (s : Bytes) (n : Nat) : Prop :=
  ∃ i w, P w ∧ i < n ∧ w <+: s.drop i ∧ n < i + w.length

theorem Cuts.of_append {P : Bytes → Prop} {a s : Bytes} {n : Nat} (h : Cuts P s n) :
    Cuts P (a ++ s) (a.length + n) := by
  obtain ⟨i, w, hw, hi, hp, hn⟩ := h
  refine ⟨a.length + i, w, hw, by omega, ?_, by omega⟩
  rwa [← List.drop_drop, List.drop_left]

/-- A word of the first part of a text stands in the whole. -/
theorem Cuts.mono {P : Bytes → Prop} {s t : Bytes} {n : Nat} (hs : s <+: t) (h : Cuts P s n) : Cuts P t n := by
  obtain ⟨i, w, hw, hi, hp, hn⟩ := h
  exact ⟨i, w, hw, hi, hp.trans (isPrefix_drop hs i), hn⟩

/-- The escapes of a closing tag. -/
def IsEscape (fin w : Bytes) : Prop := ∃ k, w = escapeWord k (fin.drop 1)

/-- The encoding of a character. -/
def IsChar (w : Bytes) : Prop := ∃ c : Char, w = String.utf8EncodeChar c

/-- Both sides of a cut that no escape goes over are unescaped apart. -/
theorem unescape_append {c : UInt8} {tl a b : Bytes} (h : ¬Cuts (IsEscape (c :: tl)) (a ++ b) a.length) :
    ds4ToolTextUnescape (a ++ b) (c :: tl) =
      ds4ToolTextUnescape a (c :: tl) ++ ds4ToolTextUnescape b (c :: tl) := by
  obtain ⟨n, hn⟩ : ∃ n, n = a.length := ⟨_, rfl⟩
  induction n using Nat.strongRecOn generalizing a with
  | ind n ih =>
    have hskip : ∀ x y, a = x ++ y → x ≠ [] → ds4ToolTextUnescape (y ++ b) (c :: tl) =
        ds4ToolTextUnescape y (c :: tl) ++ ds4ToolTextUnescape b (c :: tl) := fun x y hxy hx => by
      have hpos := List.length_pos_of_ne_nil hx
      have hlen : a.length = x.length + y.length := by rw [hxy, List.length_append]
      refine ih y.length (by omega) (fun hcut => h ?_) rfl
      rw [hxy, List.append_assoc, List.length_append]
      exact hcut.of_append
    cases a with
    | nil => rw [List.nil_append, ds4ToolTextUnescape, List.nil_append]
    | cons d a =>
      rw [List.cons_append]
      by_cases hclose : ds4ToolTextEscapedClose (d :: (a ++ b)) (c :: tl) = true
      · obtain ⟨k, s, hs, hk⟩ := escapedClose_iff.mp hclose
        obtain ⟨rfl, rfl⟩ := List.cons.inj hs
        have hfit : closeWord k tl <+: a := by
          refine List.prefix_of_prefix_length_le hk (List.prefix_append a b) (Nat.le_of_not_lt fun hlt => h ?_)
          refine ⟨0, _, ⟨k, rfl⟩, Nat.succ_pos _, List.cons_prefix_cons.mpr ⟨rfl, hk⟩, ?_⟩
          rw [escapeWord, List.drop_succ_cons, List.drop_zero, List.length_cons, List.length_cons]
          omega
        have hclose' : ds4ToolTextEscapedClose (ch '&' :: a) (c :: tl) = true :=
          escapedClose_iff.mpr ⟨k, a, rfl, hfit⟩
        cases k with
        | zero =>
          obtain ⟨r, rfl⟩ := (List.prefix_append (lit "lt;") tl).trans hfit
          rw [List.append_assoc] at hclose ⊢
          have hlt : ds4ToolTextUnescape (lit "&lt;" ++ (r ++ b)) (c :: tl) = _ := unescape_lt hclose
          have hlt' : ds4ToolTextUnescape (lit "&lt;" ++ r) (c :: tl) = _ := unescape_lt hclose'
          refine hlt.trans ((congrArg (ch '<' :: ·) (hskip (lit "&lt;") r rfl (by decide))).trans ?_)
          exact (congrArg (· ++ ds4ToolTextUnescape b (c :: tl)) hlt').symm
        | succ k =>
          rw [closeWord_succ] at hfit
          obtain ⟨r, rfl⟩ := (List.prefix_append (lit "amp;") _).trans hfit
          rw [List.append_assoc] at hclose ⊢
          have hamp : ds4ToolTextUnescape (lit "&amp;" ++ (r ++ b)) (c :: tl) = _ := unescape_amp hclose
          have hamp' : ds4ToolTextUnescape (lit "&amp;" ++ r) (c :: tl) = _ := unescape_amp hclose'
          refine hamp.trans ((congrArg (ch '&' :: ·) (hskip (lit "&amp;") r rfl (by decide))).trans ?_)
          exact (congrArg (· ++ ds4ToolTextUnescape b (c :: tl)) hamp').symm
      · have hclose' : ¬ds4ToolTextEscapedClose (d :: a) (c :: tl) = true := fun hc => hclose <| by
          obtain ⟨k, s, hs, hk⟩ := escapedClose_iff.mp hc
          obtain ⟨rfl, rfl⟩ := List.cons.inj hs
          exact escapedClose_iff.mpr ⟨k, a ++ b, rfl, hk.trans (List.prefix_append a b)⟩
        rw [ds4ToolTextUnescape, if_neg hclose, ds4ToolTextUnescape, if_neg hclose', List.cons_append,
          hskip [d] a rfl (List.cons_ne_nil _ _)]

/-! ## What the stream holds back -/

/-- The beginning of an escape is recognized as one. -/
theorem partialEscape_of_isPrefix {tl r : Bytes} {k : Nat} (hr : r <+: closeWord k tl)
    (hlt : r.length < (closeWord k tl).length) (c : UInt8) :
    ds4ToolTextPartialEscape (ch '&' :: r) (c :: tl) = true := by
  induction k generalizing r with
  | zero =>
    rw [closeWord, List.replicate_zero, List.flatten_nil, List.nil_append] at hr hlt
    have hskip : skipAmp r = r := by
      rw [skipAmp, dif_neg]
      intro hamp
      cases r with
      | nil => exact absurd (List.prefix_nil.mp hamp) (by decide)
      | cons d r =>
        obtain rfl := (List.cons_prefix_cons.mp hr).1
        exact absurd (List.cons_prefix_cons.mp hamp).1 (by decide)
    rw [ds4ToolTextPartialEscape, hskip]
    simp only [BEq.rfl, Bool.true_and]
    split
    · rfl
    split
    · next hshort =>
      exact decide_eq_true (List.prefix_of_prefix_length_le hr (List.prefix_append (lit "lt;") tl)
        (Nat.le_of_lt hshort))
    · next hlong =>
      have hlt3 : lit "lt;" <+: r :=
        List.prefix_of_prefix_length_le (List.prefix_append (lit "lt;") tl) hr (Nat.le_of_not_lt hlong)
      obtain ⟨u, rfl⟩ := hlt3
      have hdrop : (lit "lt;" ++ u).drop 3 = u := rfl
      rw [if_pos (List.prefix_append _ _), hdrop, List.drop_succ_cons, List.drop_zero]
      rw [List.length_append, List.length_append] at hlt
      have hu : u <+: tl := (List.prefix_append_right_inj (lit "lt;")).mp hr
      exact Bool.and_eq_true_iff.mpr ⟨decide_eq_true (by omega), decide_eq_true hu⟩
  | succ k ih =>
    rw [closeWord_succ] at hr hlt
    rcases Nat.lt_or_ge r.length 4 with hshort | hlong
    · have hamp : r <+: lit "amp;" :=
        List.prefix_of_prefix_length_le hr (List.prefix_append _ _) (Nat.le_of_lt hshort)
      have hskip : skipAmp r = r := by
        rw [skipAmp, dif_neg]
        exact fun h => absurd h.length_le (Nat.not_le.mpr hshort)
      rw [ds4ToolTextPartialEscape, hskip]
      simp only [BEq.rfl, Bool.true_and]
      rw [if_pos ⟨hshort, hamp⟩]
    · obtain ⟨u, rfl⟩ : lit "amp;" <+: r :=
        List.prefix_of_prefix_length_le (List.prefix_append _ _) hr hlong
      have hu : u <+: closeWord k tl := (List.prefix_append_right_inj (lit "amp;")).mp hr
      rw [List.length_append, List.length_append] at hlt
      have hrec := ih hu (by omega)
      rw [ds4ToolTextPartialEscape] at hrec ⊢
      rwa [skipAmp_append]

/-- The last occurrence of an element splits a list. -/
theorem exists_last {c : UInt8} {s : Bytes} (h : c ∈ s) : ∃ a b, s = a ++ c :: b ∧ c ∉ b := by
  obtain ⟨a, b, hab, ha⟩ := List.eq_append_cons_of_mem (List.mem_reverse.mpr h)
  refine ⟨b.reverse, a.reverse, ?_, fun hc => ha (List.mem_reverse.mp hc)⟩
  rw [← List.reverse_reverse s, hab, List.reverse_append, List.reverse_cons, List.append_assoc,
    List.singleton_append]

theorem findLastSubstr_of_notMem {c : UInt8} {s : Bytes} (h : c ∉ s) : findLastSubstr [c] s = none := by
  cases hf : findLastSubstr [c] s with
  | none => rfl
  | some i =>
    obtain ⟨u, hu⟩ := findLastSubstr_isPrefix hf
    have hmem : c ∈ s.drop i := hu ▸ List.mem_cons_self ..
    exact absurd (List.mem_of_mem_drop hmem) h

/-- Behind its first byte an escape has no further `&`. -/
theorem escapeWord_getElem {tl : Bytes} (htl : Plain tl) {k i : Nat} (hi : 0 < i) :
    (escapeWord k tl)[i]? ≠ some (ch '&') := by
  obtain ⟨j, rfl⟩ := Nat.exists_eq_succ_of_ne_zero hi.ne'
  rw [escapeWord, List.getElem?_cons_succ]
  exact fun h => (closeWord_plain htl).2 (List.mem_of_getElem? h)

theorem escapeWord_concat (k : Nat) (tl : Bytes) (c : UInt8) :
    escapeWord k (tl ++ [c]) = escapeWord k tl ++ [c] := by
  rw [escapeWord, escapeWord, closeWord, closeWord, List.cons_append, List.append_assoc, List.append_assoc]

/-- A text that has an escape at an offset has its bytes from there. -/
theorem getElem?_of_prefix_drop {w t : Bytes} {i j : Nat} (h : w <+: t.drop i) (hj : j < w.length) :
    t[i + j]? = w[j]? := by
  obtain ⟨u, hu⟩ := h
  rw [← List.getElem?_drop, ← hu, List.getElem?_append_left hj]

/-- The limit for entities is not inside an escape. -/
theorem toolEntityLimit_spec {s t tl : Bytes} {c : UInt8} {start limit : Nat} (htl : Plain tl) (hs : s <+: t)
    (hstart : start ≤ limit) (hlimit : limit ≤ s.length) :
    start ≤ toolEntityLimit s start limit (c :: tl) ∧
      ∀ i k, start ≤ i → escapeWord k tl <+: t.drop i → i < toolEntityLimit s start limit (c :: tl) →
        i + (escapeWord k tl).length ≤ toolEntityLimit s start limit (c :: tl) := by
  obtain ⟨u, hu⟩ : ∃ u, u = (s.take limit).drop start := ⟨_, rfl⟩
  have hulen : u.length = limit - start := by
    rw [hu, List.length_drop, List.length_take, Nat.min_eq_left hlimit]
  -- what is visible is the text
  have hget : ∀ m, start + m < limit → u[m]? = t[start + m]? := fun m hm => by
    rw [hu, List.getElem?_drop, List.getElem?_take, if_pos hm]
    obtain ⟨v, rfl⟩ := hs
    exact (List.getElem?_append_left (by omega)).symm
  have hamp : ∀ {i k}, escapeWord k tl <+: t.drop i → t[i]? = some (ch '&') := fun hp =>
    getElem?_of_prefix_drop (j := 0) hp (Nat.succ_pos _)
  by_cases hmem : ch '&' ∈ u
  · obtain ⟨a, b, hab, hb⟩ := exists_last hmem
    have hfind : findLastSubstr [ch '&'] u = some a.length := hab ▸ findLastSubstr_single hb
    have halen : a.length + 1 + b.length = limit - start := by
      rw [← hulen, hab, List.length_append, List.length_cons]
      omega
    have hdrop : (s.take limit).drop (start + a.length) = ch '&' :: b := by
      rw [← List.drop_drop, ← hu, hab, List.drop_left]
    have hlast : t[start + a.length]? = some (ch '&') := by
      rw [← hget _ (by omega), hab, List.getElem?_append_right (Nat.le_refl _), Nat.sub_self]
      rfl
    -- an escape that begins before the last `&` ends before it
    have hbefore : ∀ i k, escapeWord k tl <+: t.drop i → i < start + a.length →
        i + (escapeWord k tl).length ≤ start + a.length := fun i k hp hi => Nat.le_of_not_lt fun hlt => by
      have heq := getElem?_of_prefix_drop (j := start + a.length - i) hp (by omega)
      rw [Nat.add_sub_cancel' hi.le, hlast] at heq
      exact escapeWord_getElem htl (Nat.sub_pos_of_lt hi) heq.symm
    rw [toolEntityLimit, ← hu, hfind]
    dsimp only
    rw [hdrop]
    split
    · exact ⟨Nat.le_add_right _ _, fun i k _ hp hi => hbefore i k hp hi⟩
    · next hpartial =>
      refine ⟨hstart, fun i k hi hp hlt => ?_⟩
      rcases Nat.lt_trichotomy i (start + a.length) with hlt' | rfl | hgt
      · have := hbefore i k hp hlt'
        omega
      · by_contra hcut
        have hr : b <+: closeWord k tl := by
          have hp' : escapeWord k tl <+: ch '&' :: t.drop (start + a.length + 1) := by
            obtain ⟨v, hv⟩ := hp
            have := congrArg (List.drop 1) hv
            rw [List.drop_drop] at this
            refine ⟨v, ?_⟩
            rw [← this]
            rfl
          have hb' : b <+: t.drop (start + a.length + 1) := by
            have hvis : (s.take limit).drop (start + a.length + 1) = b := by
              rw [← List.drop_drop, hdrop]
              rfl
            exact hvis ▸ isPrefix_drop ((List.take_prefix _ _).trans hs) _
          rw [escapeWord, List.length_cons] at hcut
          exact List.prefix_of_prefix_length_le hb' (List.cons_prefix_cons.mp hp').2 (by omega)
        rw [escapeWord, List.length_cons] at hcut
        exact hpartial (partialEscape_of_isPrefix hr (by omega) c)
      · have heq : u[i - start]? = some (ch '&') := by
          rw [hget _ (by omega), Nat.add_sub_cancel' hi]
          exact hamp hp
        rw [hab, List.getElem?_append_right (by omega)] at heq
        obtain ⟨j, hj⟩ : ∃ j, i - start - a.length = j + 1 := Nat.exists_eq_succ_of_ne_zero (by omega)
        rw [hj, List.getElem?_cons_succ] at heq
        exact absurd (List.mem_of_getElem? heq) hb
  · rw [toolEntityLimit, ← hu, findLastSubstr_of_notMem hmem]
    dsimp only
    refine ⟨hstart, fun i k hi hp hlt => ?_⟩
    have heq : u[i - start]? = some (ch '&') := by
      rw [hget _ (by omega), Nat.add_sub_cancel' hi]
      exact hamp hp
    exact absurd (List.mem_of_getElem? heq) hmem

/-! ## Cuts through a character -/

/-- Where the safe length ends: at the limit if no character goes over it, else before the lead byte of the
character that does. -/
theorem utf8StreamSafeLen_shape {s : Bytes} {start limit n : Nat} (hle : start ≤ limit)
    (hn : utf8StreamSafeLen s start limit false = n) :
    start ≤ n ∧
      ((n = limit ∧ ∀ i, start ≤ i → i < limit → limit ≤ i + 3 → isCont (s.getD i 0) = false →
          (∀ j, i < j → j < limit → isCont (s.getD j 0) = true) → i + utf8ExpectedLen (s.getD i 0) ≤ limit) ∨
        (n < limit ∧ (n = start ∧ isCont (s.getD n 0) = true ∨ 1 < utf8ExpectedLen (s.getD n 0)) ∧
          ∀ i, n < i → i < limit → isCont (s.getD i 0) = true)) := by
  obtain ⟨h1, h2, h3, h4, h5⟩ := utf8ScanBack_spec (s := s) (n := 4) hle
  simp only [utf8StreamSafeLen, Bool.false_or, decide_eq_true_eq] at hn
  generalize utf8ScanBack s start 4 limit = p at *
  -- the lead byte of a short character before the limit is where the scan stops
  have hlead : ∀ i, start ≤ i → i < limit → limit ≤ i + 3 → isCont (s.getD i 0) = false →
      (∀ j, i < j → j < limit → isCont (s.getD j 0) = true) → p = i + 1 := fun i hi hlt h3 hl hc => by
    have hp : i < p := Nat.lt_of_not_le fun hpi => by
      rw [h4 i hlt hpi] at hl
      cases hl
    rcases h5 with h | h | h
    · omega
    · omega
    · by_contra hne
      rw [hc (p - 1) (by omega) (by omega)] at h
      cases h
  split at hn
  · next hl =>
    exact ⟨by omega, .inl ⟨by omega, fun i hi hlt => by omega⟩⟩
  next hsl =>
  split at hn
  · next hp =>
    split at hn
    · next he =>
      subst hn
      exact ⟨by omega, .inr ⟨by omega, .inr he, fun i h1 h2 => by omega⟩⟩
    · next he =>
      refine ⟨by omega, .inl ⟨hn.symm, fun i hi hlt h3 hl hc => ?_⟩⟩
      obtain rfl : i = limit - 1 := by
        have := hlead i hi hlt h3 hl hc
        omega
      omega
  next hp =>
  split at hn
  · next hps =>
    rw [Bool.and_eq_true_iff, decide_eq_true_eq] at hps
    obtain ⟨rfl, hc⟩ := hps
    exact ⟨by omega, .inr ⟨by omega, .inl ⟨hn.symm, hn ▸ hc⟩, fun i h1 h2 => h4 i h2 (by omega)⟩⟩
  next hps =>
  have hpos : start < p := by
    have hpc : isCont (s.getD p 0) = true := h4 p (by omega) (Nat.le_refl _)
    rw [hpc, Bool.and_true, decide_eq_true_eq] at hps
    omega
  split at hn
  · next he =>
    subst hn
    exact ⟨by omega, .inr ⟨by omega, .inr (by omega), fun i h1 h2 => h4 i h2 (by omega)⟩⟩
  · next he =>
    refine ⟨by omega, .inl ⟨hn.symm, fun i hi hlt h3 hl hc => ?_⟩⟩
    have hpi := hlead i hi hlt h3 hl hc
    obtain rfl : i = p - 1 := by omega
    omega

theorem le_of_lead {b : UInt8} (h : 1 < utf8ExpectedLen b) : 0x80 ≤ b := by
  rw [utf8ExpectedLen] at h
  split at h
  · exact absurd h (by decide)
  · next hb => exact UInt8.not_lt.mp hb

/-- What the safe length leaves out has no byte of ASCII. -/
theorem utf8StreamSafeLen_gap {s : Bytes} {start limit i : Nat} (hle : start ≤ limit)
    (hi : utf8StreamSafeLen s start limit false ≤ i) (hlt : i < limit) : 0x80 ≤ s.getD i 0 := by
  obtain ⟨-, ⟨hn, -⟩ | ⟨-, hn, hc⟩⟩ := utf8StreamSafeLen_shape (s := s) hle rfl
  · omega
  rcases Nat.eq_or_lt_of_le hi with rfl | hgt
  · rcases hn with ⟨-, hn⟩ | hn
    · exact (isCont_spec _ hn).1
    · exact le_of_lead hn
  · exact (isCont_spec _ (hc i hgt hlt)).1

/-- The bytes of a character that stands at an offset. -/
theorem getD_of_isUnit {l : UInt8} {tl t : Bytes} {i : Nat} (hu : IsUnit l tl) (hp : l :: tl <+: t.drop i) :
    t.getD i 0 = l ∧ ∀ j, i < j → j < i + (l :: tl).length → isCont (t.getD j 0) = true := by
  constructor
  · rw [List.getD_eq_getElem?_getD]
    have := getElem?_of_prefix_drop (j := 0) hp (Nat.succ_pos _)
    rw [Nat.add_zero] at this
    rw [this]
    rfl
  · intro j hij hj
    obtain ⟨m, rfl⟩ : ∃ m, j = i + (m + 1) := ⟨j - i - 1, by omega⟩
    have hm : m < tl.length := by
      rw [List.length_cons] at hj
      omega
    rw [List.getD_eq_getElem?_getD, getElem?_of_prefix_drop hp (by rw [List.length_cons]; omega),
      List.getElem?_cons_succ, List.getElem?_eq_getElem hm]
    exact hu.tail _ (List.getElem_mem hm)

/-- The safe length ends inside no character of the text. -/
theorem utf8StreamSafeLen_char {s t w : Bytes} {start limit i : Nat} (hs : s <+: t) (hle : start ≤ limit)
    (hlimit : limit ≤ s.length) (hi : start ≤ i) (hw : IsChar w) (hp : w <+: t.drop i)
    (hlt : i < utf8StreamSafeLen s start limit false) :
    i + w.length ≤ utf8StreamSafeLen s start limit false := by
  obtain ⟨c, rfl⟩ := hw
  obtain ⟨l, tl, he, hu⟩ := utf8EncodeChar_isUnit c
  rw [he] at hp ⊢
  obtain ⟨hl, hc⟩ := getD_of_isUnit hu hp
  have hget : ∀ j < limit, s.getD j 0 = t.getD j 0 := fun j hj => by
    obtain ⟨u, rfl⟩ := hs
    rw [List.getD_append _ _ _ _ (by omega)]
  have hlen := hu.len
  have hbound := (utf8ExpectedLen_bound l).2
  obtain ⟨-, ⟨hn, hfit⟩ | ⟨hn, hlead, -⟩⟩ := utf8StreamSafeLen_shape (s := s) hle rfl
  · rw [hn] at hlt ⊢
    by_contra hcut
    rw [List.length_cons] at hc hcut
    have hsi : s.getD i 0 = l := (hget i hlt).trans hl
    have hend := hfit i hi hlt (by omega) (by rw [hsi]; exact hu.lead)
      fun j hij hj => by rw [hget j hj]; exact hc j hij (by omega)
    rw [hsi] at hend
    omega
  · -- the byte at the end starts a character, or nothing of the character has been sent
    by_contra hcut
    rcases hlead with ⟨hst, -⟩ | hlead
    · omega
    · have hcont := hc _ hlt (by omega)
      rw [← hget _ hn] at hcont
      have := (isCont_spec _ hcont).2
      omega

/-! ## The limit of an update -/

/-- A closing tag. -/
def IsTag (fin : Bytes) : Prop := ∃ tl, fin = ch '<' :: (tl ++ [ch '>']) ∧ Plain (tl ++ [ch '>'])

theorem dsmlSyntaxes_paramEnd : ∀ syn ∈ dsmlSyntaxes, IsTag syn.paramEnd := fun syn hsyn => by
  have h : ∀ syn ∈ dsmlSyntaxes, syn.paramEnd = ch '<' :: (syn.paramEnd.tail.dropLast ++ [ch '>']) ∧
      ch '<' ∉ syn.paramEnd.tail.dropLast ++ [ch '>'] ∧ ch '&' ∉ syn.paramEnd.tail.dropLast ++ [ch '>'] := by
    decide
  exact ⟨_, h syn hsyn⟩

theorem IsTag.sharp {fin : Bytes} (h : IsTag fin) : Sharp (ch '<') fin := by
  obtain ⟨tl, rfl, hp⟩ := h
  exact ⟨_, rfl, hp.1⟩

/-- What must arrive whole: an escape or a character. -/
def Uncut (fin w : Bytes) : Prop := IsEscape fin w ∨ IsChar w

theorem toolMarkerLimit_mem {s : Bytes} (fin : Bytes) {start : Nat} (hstart : start ≤ s.length) :
    start ≤ toolMarkerLimit s start fin ∧ toolMarkerLimit s start fin ≤ s.length := by
  rw [toolMarkerLimit]
  generalize hscan : (if start + fin.length < s.length then s.length - fin.length else start) = scan
  have hsc : start ≤ scan := by split at hscan <;> omega
  split
  · next i hi =>
    have := findLastSubstr_lt hi
    rw [List.length_drop] at this
    split <;> omega
  · exact ⟨hstart, Nat.le_refl _⟩

/-- The part of a value that an update sends ends before the closing tag, and inside no escape and no
character. -/
theorem toolParamValueStreamSafeLen_spec {s t fin : Bytes} {start k : Nat} (htag : IsTag fin) (hs : s <+: t)
    (hstart : start ≤ s.length) (hn : find fin (s.drop start) = none) (hk : find fin (t.drop start) = some k) :
    start ≤ toolParamValueStreamSafeLen s start fin true ∧
      toolParamValueStreamSafeLen s start fin true ≤ s.length ∧
      toolParamValueStreamSafeLen s start fin true ≤ start + k ∧
      ∀ i w, start ≤ i → Uncut fin w → w <+: t.drop i → i < toolParamValueStreamSafeLen s start fin true →
        i + w.length ≤ toolParamValueStreamSafeLen s start fin true := by
  have hle := toolParamValueStreamSafeLen_le true htag.sharp hs hn hk
  obtain ⟨tl, rfl, hplain⟩ := htag
  have hmarker := toolMarkerLimit_mem (ch '<' :: (tl ++ [ch '>'])) hstart
  have hentity := toolEntityLimit_spec (c := ch '<') hplain hs hmarker.1 hmarker.2
  have hlimit : toolEntityLimit s start (toolMarkerLimit s start (ch '<' :: (tl ++ [ch '>']))) (ch '<' :: (tl ++ [ch '>'])) ≤
      s.length := toolEntityLimit_le.trans hmarker.2
  rw [toolParamValueStreamSafeLen, if_pos rfl] at hle ⊢
  generalize toolEntityLimit s start _ _ = limit at hentity hlimit hle ⊢
  have hshape := utf8StreamSafeLen_shape (s := s) hentity.1 rfl
  refine ⟨hshape.1, (utf8StreamSafeLen_le ..).trans hlimit, hle, fun i w hi hw hp hlt => ?_⟩
  rcases hw with ⟨k, rfl⟩ | hw
  · -- an escape ends in `>`, which is not among the bytes that are held back
    have hend := hentity.2 i k hi hp (Nat.lt_of_lt_of_le hlt (utf8StreamSafeLen_le ..))
    by_contra hcut
    have hlast := escapeWord_concat k tl (ch '>')
    rw [List.drop_succ_cons, List.drop_zero, hlast] at hp hcut
    rw [hlast] at hend
    rw [List.length_append, List.length_singleton] at hcut hend
    have hgap := utf8StreamSafeLen_gap (s := s) (i := i + (escapeWord k tl).length) hentity.1 (by omega) (by omega)
    have hget : s[i + (escapeWord k tl).length]? = some (ch '>') := by
      obtain ⟨v, rfl⟩ := hs
      rw [← List.getElem?_append_left (by omega : _ < s.length), getElem?_of_prefix_drop hp (by simp),
        List.getElem?_concat_length]
    rw [List.getD_eq_getElem?_getD, hget] at hgap
    exact absurd hgap (by decide)
  · exact utf8StreamSafeLen_char hs hentity.1 hlimit hi hw hp hlt

/-! ## Fragments -/

/-- The fragment for a part of a value. -/
def paramFragment (fin part : Bytes) : Bytes := jsonEscapeFragment (ds4ToolTextUnescape part fin)

theorem jsonEscapeByte_spec (c : UInt8) : jsonEscapeByte c ≠ [] ∧ 0 ∉ jsonEscapeByte c :=
  forall_byte (p := fun c => jsonEscapeByte c ≠ [] ∧ 0 ∉ jsonEscapeByte c) (by decide +kernel) c

theorem jsonEscapeFragment_notMem (s : Bytes) : 0 ∉ jsonEscapeFragment s := fun h => by
  obtain ⟨c, -, hc⟩ := List.mem_flatMap.mp h
  exact (jsonEscapeByte_spec c).2 hc

theorem jsonEscape_notMem (s : Bytes) : 0 ∉ jsonEscape s := by
  rw [jsonEscape, List.mem_cons, List.mem_append, List.mem_singleton]
  exact fun h => by
    rcases h with h | h | h
    · exact absurd h (by decide)
    · exact jsonEscapeFragment_notMem s h
    · exact absurd h (by decide)

theorem paramFragment_ne_nil (fin : Bytes) {part : Bytes} (h : part ≠ []) : paramFragment fin part ≠ [] := by
  have hcons : ∀ c s, jsonEscapeFragment (c :: s) ≠ [] := fun c s hnil =>
    (jsonEscapeByte_spec c).1 (List.append_eq_nil_iff.mp (List.flatMap_cons.symm.trans hnil)).1
  cases part with
  | nil => exact absurd rfl h
  | cons c s =>
    rw [paramFragment, ds4ToolTextUnescape]
    split
    · split
      · exact hcons _ _
      · exact hcons _ _
    · exact hcons _ _

theorem unescape_notMem {s fin : Bytes} (h : 0 ∉ s) : 0 ∉ ds4ToolTextUnescape s fin := by
  induction s using ds4ToolTextUnescape.induct fin with
  | case1 => rwa [ds4ToolTextUnescape]
  | case2 c s hclose hamp ih =>
    rw [ds4ToolTextUnescape, if_pos hclose, if_pos hamp, List.mem_cons, not_or]
    exact ⟨by decide, ih fun hm => h (List.mem_cons_of_mem _ (List.mem_of_mem_drop hm))⟩
  | case3 c s hclose hamp ih =>
    rw [ds4ToolTextUnescape, if_pos hclose, if_neg hamp, List.mem_cons, not_or]
    exact ⟨by decide, ih fun hm => h (List.mem_cons_of_mem _ (List.mem_of_mem_drop hm))⟩
  | case4 c s hclose ih =>
    rw [ds4ToolTextUnescape, if_neg hclose, List.mem_cons, not_or]
    rw [List.mem_cons, not_or] at h
    exact ⟨h.1, ih h.2⟩

/-- Parts of a value that end inside no escape are unescaped apart. -/
theorem paramFragment_flatten {c : UInt8} {tl : Bytes} {parts : List Bytes}
    (h : ∀ n, ¬Cuts (IsEscape (c :: tl)) parts.flatten (parts.take n).flatten.length) :
    (parts.map (paramFragment (c :: tl))).flatten = paramFragment (c :: tl) parts.flatten := by
  induction parts with
  | nil => rw [List.map_nil, List.flatten_nil, paramFragment, ds4ToolTextUnescape, jsonEscapeFragment, List.flatMap_nil]
  | cons part parts ih =>
    have hcut := h 1
    rw [List.take_succ_cons, List.take_zero, List.flatten_cons, List.flatten_cons, List.flatten_nil,
      List.append_nil] at hcut
    rw [List.map_cons, List.flatten_cons, List.flatten_cons, paramFragment, paramFragment, unescape_append hcut,
      jsonEscapeFragment, jsonEscapeFragment, List.flatMap_append]
    refine congrArg _ (ih fun n hn => h (n + 1) ?_)
    rw [List.take_succ_cons, List.flatten_cons, List.flatten_cons, List.length_append]
    exact hn.of_append

/-! ## What has been sent -/

/-- The client has received a first part of the value, in parts that end inside no escape and no character. -/
structure ValueSent (fin body : Bytes) (index : Nat) (out out' : List OpenaiEvent) (parts : List Bytes) :
    Prop where
  events : out' = out ++ parts.map fun part => .toolCallArgs index (paramFragment fin part)
  isPrefix : parts.flatten <+: body
  cuts : ∀ n, ¬Cuts (Uncut fin) body (parts.take n).flatten.length

variable {fin body pre : Bytes} {index : Nat} {out out' : List OpenaiEvent} {parts : List Bytes}

theorem ValueSent.zero : ValueSent fin body index out out [] where
  events := (List.append_nil out).symm
  isPrefix := List.nil_prefix
  cuts n := fun ⟨_, _, _, h, _⟩ => by
    rw [List.take_nil, List.flatten_nil] at h
    exact absurd h (Nat.not_lt_zero _)

/-- A further part is sent. -/
theorem ValueSent.emit {ts : ToolStream} {n : Nat} (h : ValueSent ts.syn.paramEnd body ts.index out out' parts)
    (h0 : 0 ∉ body) (hstr : ts.paramIsString = true) (hle : parts.flatten.length ≤ n) (hn : n ≤ body.length)
    (hsafe : ∀ i w, parts.flatten.length ≤ i → Uncut ts.syn.paramEnd w → w <+: body.drop i → i < n →
      i + w.length ≤ n) :
    ∃ parts', parts'.flatten = body.take n ∧ ValueSent ts.syn.paramEnd body ts.index out
      (toolEmitValue openaiSink ts out' ((body.take n).drop parts.flatten.length)) parts' := by
  obtain ⟨text, htext⟩ : ∃ text, text = (body.take n).drop parts.flatten.length := ⟨_, rfl⟩
  have hflat : parts.flatten ++ text = body.take n := by
    have htake : parts.flatten = (body.take n).take parts.flatten.length := by
      rw [List.take_take, Nat.min_eq_left hle]
      exact List.prefix_iff_eq_take.mp h.isPrefix
    rw [htext, htake, List.length_take, List.length_take, Nat.min_eq_left hn, Nat.min_eq_left hle,
      List.take_append_drop]
  rw [← htext, toolEmitValue]
  split
  · next hnil =>
    rw [hnil, List.append_nil] at hflat
    exact ⟨parts, hflat, h⟩
  next hne =>
  have hnul : 0 ∉ text := fun hm => h0 (List.mem_of_mem_take (List.mem_of_mem_drop (htext ▸ hm)))
  have hflat' : (parts ++ [text]).flatten = body.take n := by
    rw [List.flatten_append, List.flatten_singleton, hflat]
  refine ⟨parts ++ [text], hflat', ⟨?_, ?_, fun m => ?_⟩⟩
  · have hfrag := paramFragment_ne_nil ts.syn.paramEnd hne
    rw [paramFragment] at hfrag
    rw [cstr_of_notMem hnul]
    dsimp only [openaiSink]
    rw [if_neg hfrag, cstr_of_notMem (jsonEscapeFragment_notMem _), h.events, List.map_append,
      List.append_assoc]
    rfl
  · exact hflat' ▸ List.take_prefix n body
  · rcases Nat.lt_or_ge parts.length m with hm | hm
    · rw [List.take_of_length_le (by rw [List.length_append, List.length_singleton]; omega), hflat',
        List.length_take, Nat.min_eq_left hn]
      rintro ⟨i, w, hw, hi, hp, hcut⟩
      rcases Nat.lt_or_ge i parts.flatten.length with hlt | hge
      · have hold := h.cuts parts.length
        rw [List.take_length] at hold
        exact hold ⟨i, w, hw, hlt, hp, by omega⟩
      · have := hsafe i w hge hw hp hi
        omega
    · rw [List.take_append_of_le_length hm]
      exact h.cuts m

/-! ## The updates -/

/-- A tool stream is called with one text after another. -/
def toolStreamUpdates {σ : Type} (sink : Sink σ) (st : ToolStream × σ) (raws : List Bytes) :
    Except σ (ToolStream × σ) :=
  raws.foldlM (fun st raw => toolStreamUpdate sink raw st.1 st.2) st

theorem toolStreamUpdate_ret {σ : Type} {sink : Sink σ} {raw : Bytes} {ts ts' : ToolStream} {out out' : σ}
    (hgo : ts.active = true ∧ ts.parsePos < raw.length)
    (h : toolStreamStep sink raw ts out = .ok (.ret ts' out')) :
    toolStreamUpdate sink raw ts out = .ok (ts', out') := by
  rw [toolStreamUpdate, if_pos hgo]
  split <;> simp_all

theorem toolStreamUpdate_next {σ : Type} {sink : Sink σ} {raw : Bytes} {ts ts' : ToolStream} {out out' : σ}
    (hgo : ts.active = true ∧ ts.parsePos < raw.length)
    (h : toolStreamStep sink raw ts out = .ok (.next ts' out')) :
    toolStreamUpdate sink raw ts out = toolStreamUpdate sink raw ts' out' := by
  rw [toolStreamUpdate, if_pos hgo]
  split <;> simp_all

/-- At the end of the text an update does nothing. -/
theorem toolStreamUpdate_end {σ : Type} {sink : Sink σ} {raw : Bytes} {ts : ToolStream} {out : σ}
    (h : raw.length ≤ ts.parsePos) : toolStreamUpdate sink raw ts out = .ok (ts, out) := by
  rw [toolStreamUpdate, if_neg fun hc => Nat.not_lt.mpr h hc.2]

section Run

variable {ts : ToolStream} {s t : Bytes}

/-- A state in which the value of a string parameter is awaited. -/
structure AwaitsString (ts : ToolStream) : Prop where
  tag : IsTag ts.syn.paramEnd
  active : ts.active = true
  state : ts.state = .paramValue
  isString : ts.paramIsString = true

/-- The closing tag that follows the body is the first one behind what has been sent. -/
theorem find_close (htag : IsTag fin) (hend : find fin body = none) {n : Nat} (hn : n ≤ body.length) :
    find fin ((pre ++ (body ++ fin)).drop (pre.length + n)) = some (body.length - n) := by
  rw [← List.drop_drop, List.drop_left, List.drop_append_of_le_length hn]
  have := htag.sharp.find_at (t := []) (find_drop_none (j := n) hend)
  rwa [List.append_nil, List.length_drop] at this

theorem toolParamValue_found {k : Nat} (hstr : ts.paramIsString = true)
    (h : find ts.syn.paramEnd (s.drop ts.parsePos) = some k) :
    toolParamValue openaiSink s ts out =
      .next { ts with parsePos := ts.parsePos + k + ts.syn.paramEnd.length, state := .betweenParams }
        (toolEmitValue openaiSink ts out ((s.take (ts.parsePos + k)).drop ts.parsePos) ++
          [.toolCallArgs ts.index (lit "\"")]) := by
  rw [toolParamValue, h]
  dsimp only
  rw [toolFinishParam, if_pos hstr]
  rfl

theorem toolParamValue_wait (hstr : ts.paramIsString = true)
    (h : find ts.syn.paramEnd (s.drop ts.parsePos) = none) {limit : Nat}
    (hlimit : toolParamValueStreamSafeLen s ts.parsePos ts.syn.paramEnd true = limit)
    (hle : ts.parsePos ≤ limit) :
    toolParamValue openaiSink s ts out =
      .ret { ts with parsePos := limit } (toolEmitValue openaiSink ts out ((s.take limit).drop ts.parsePos)) := by
  rw [← hstr] at hlimit
  rw [toolParamValue, h]
  dsimp only
  rw [hlimit]
  split
  · rfl
  · next hge =>
    obtain rfl : limit = ts.parsePos := by omega
    rw [List.drop_eq_nil_iff.mpr (List.length_take_le ..), toolEmitValue, if_pos rfl]

/-- One update sends a further part of the value, or with the closing tag all that is left. -/
theorem toolStreamUpdate_value (hts : AwaitsString ts) (h0 : 0 ∉ body) (hend : find ts.syn.paramEnd body = none)
    (ht : t = pre ++ (body ++ ts.syn.paramEnd)) (hs : s <+: t)
    (h : ValueSent ts.syn.paramEnd body ts.index out out' parts)
    (hpos : ts.parsePos = pre.length + parts.flatten.length) :
    ∃ parts' out₁, ValueSent ts.syn.paramEnd body ts.index out out₁ parts' ∧
      ((s ≠ t ∧ toolStreamUpdate openaiSink s ts out' =
          .ok ({ ts with parsePos := pre.length + parts'.flatten.length }, out₁)) ∨
        (s = t ∧ parts'.flatten = body ∧ toolStreamUpdate openaiSink s ts out' =
          .ok ({ ts with parsePos := t.length, state := .betweenParams },
            out₁ ++ [.toolCallArgs ts.index (lit "\"")]))) := by
  have hsent := h.isPrefix.length_le
  have hfin := List.length_pos_of_ne_nil hts.tag.sharp.ne_nil
  have hlen : t.length = pre.length + body.length + ts.syn.paramEnd.length := by
    rw [ht, List.length_append, List.length_append, Nat.add_assoc]
  have hclose : find ts.syn.paramEnd (t.drop ts.parsePos) = some (body.length - parts.flatten.length) := by
    rw [ht, hpos]
    exact find_close hts.tag hend hsent
  -- what lies between two offsets of the body is a part of the body
  have hslice : ∀ m, m ≤ body.length → pre.length + m ≤ s.length →
      (s.take (pre.length + m)).drop ts.parsePos = (body.take m).drop parts.flatten.length := fun m hm hms => by
    have htake : s.take (pre.length + m) = t.take (pre.length + m) := by
      obtain ⟨u, rfl⟩ := hs
      rw [List.take_append_of_le_length hms]
    rw [htake, ht, hpos, List.take_length_add_append, List.take_append_of_le_length hm, ← List.drop_drop,
      List.drop_left]
  have hstep : toolStreamStep openaiSink s ts out' = .ok (toolParamValue openaiSink s ts out') := by
    rw [toolStreamStep, hts.state]
  rcases Nat.lt_or_ge ts.parsePos s.length with hlt | hge
  · cases hfind : find ts.syn.paramEnd (s.drop ts.parsePos) with
    | some k =>
      obtain rfl : k = body.length - parts.flatten.length :=
        Option.some.inj ((find_mono (isPrefix_drop hs _) hfind).symm.trans hclose)
      have hle := find_le hfind
      rw [List.length_drop] at hle
      obtain rfl : s = t := hs.eq_of_length_le (by omega)
      obtain ⟨parts', hflat, hsent'⟩ := h.emit h0 hts.isString hsent (Nat.le_refl _) fun i w _ _ hp hi => by
        have := hp.length_le
        rw [List.length_drop] at this
        omega
      rw [List.take_length] at hflat
      refine ⟨parts', _, hsent', .inr ⟨rfl, hflat, ?_⟩⟩
      rw [toolParamValue_found hts.isString hfind] at hstep
      rw [toolStreamUpdate_next ⟨hts.active, hlt⟩ hstep, toolStreamUpdate_end (by dsimp only; omega),
        show ts.parsePos + (body.length - parts.flatten.length) = pre.length + body.length by omega,
        hslice _ (Nat.le_refl _) (by omega), ← hlen, List.take_length]
    | none =>
      obtain ⟨hmin, hmax, hle, hsafe⟩ := toolParamValueStreamSafeLen_spec hts.tag hs hlt.le hfind hclose
      rw [toolParamValue_wait hts.isString hfind rfl hmin] at hstep
      obtain ⟨m, hm⟩ : ∃ m, toolParamValueStreamSafeLen s ts.parsePos ts.syn.paramEnd true = pre.length + m :=
        Nat.exists_eq_add_of_le (by omega)
      rw [hm] at hmin hmax hle hsafe hstep
      obtain ⟨parts', hflat, hsent'⟩ := h.emit (n := m) h0 hts.isString (by omega) (by omega)
        fun i w hi hw hp hlt => by
          have := hsafe (pre.length + i) w (by omega) hw (by
            rw [ht, ← List.drop_drop, List.drop_left]
            exact hp.trans (isPrefix_drop (List.prefix_append _ _) i)) (by omega)
          omega
      refine ⟨parts', _, hsent', .inl ⟨fun hst => ?_, ?_⟩⟩
      · rw [hst, hclose] at hfind
        cases hfind
      · rw [toolStreamUpdate_ret ⟨hts.active, hlt⟩ hstep, hslice m (by omega) hmax, hflat, List.length_take,
          Nat.min_eq_left (by omega)]
  · refine ⟨parts, out', h, .inl ⟨fun hst => ?_, ?_⟩⟩
    · rw [hst, hlen] at hge
      omega
    · rw [toolStreamUpdate_end hge, ← hpos]

/-- Behind the end of every further text the stream stays as it is. -/
theorem toolStreamUpdates_idle {σ : Type} {sink : Sink σ} {ts : ToolStream} {out : σ} {raws : List Bytes}
    (h : ∀ raw ∈ raws, raw.length ≤ ts.parsePos) : toolStreamUpdates sink (ts, out) raws = .ok (ts, out) := by
  induction raws with
  | nil => rfl
  | cons raw raws ih =>
    rw [List.forall_mem_cons] at h
    rw [toolStreamUpdates, List.foldlM_cons, toolStreamUpdate_end h.1]
    exact ih h.2

/-- The updates up to the one with the closing tag send the value in parts and then the closing quote. -/
theorem toolStreamUpdates_value {raws : List Bytes} (hts : AwaitsString ts) (h0 : 0 ∉ body)
    (hend : find ts.syn.paramEnd body = none) (ht : t = pre ++ (body ++ ts.syn.paramEnd))
    (hraws : ∀ raw ∈ raws ++ [t], raw <+: t) (h : ValueSent ts.syn.paramEnd body ts.index out out' parts)
    (hpos : ts.parsePos = pre.length + parts.flatten.length) :
    ∃ parts' out₁, ValueSent ts.syn.paramEnd body ts.index out out₁ parts' ∧ parts'.flatten = body ∧
      toolStreamUpdates openaiSink (ts, out') (raws ++ [t]) =
        .ok ({ ts with parsePos := t.length, state := .betweenParams },
          out₁ ++ [.toolCallArgs ts.index (lit "\"")]) := by
  induction raws generalizing ts out' parts with
  | nil =>
    obtain ⟨parts', out₁, h', ⟨hne, -⟩ | ⟨-, hflat, hrun⟩⟩ :=
      toolStreamUpdate_value hts h0 hend ht (List.prefix_refl t) h hpos
    · exact absurd rfl hne
    · refine ⟨parts', out₁, h', hflat, ?_⟩
      rw [toolStreamUpdates, List.nil_append, List.foldlM_cons, hrun]
      rfl
  | cons raw raws ih =>
    rw [List.cons_append, List.forall_mem_cons] at hraws
    obtain ⟨parts', out₁, h', ⟨-, hrun⟩ | ⟨-, hflat, hrun⟩⟩ :=
      toolStreamUpdate_value hts h0 hend ht hraws.1 h hpos
    · have hawait : AwaitsString { ts with parsePos := pre.length + parts'.flatten.length } :=
        ⟨hts.tag, hts.active, hts.state, hts.isString⟩
      obtain ⟨parts₂, out₂, h₂, hflat, hrun'⟩ :=
        ih hawait hend ht hraws.2 h' rfl
      refine ⟨parts₂, out₂, h₂, hflat, ?_⟩
      rw [toolStreamUpdates, List.cons_append, List.foldlM_cons, hrun]
      exact hrun'
    · refine ⟨parts', out₁, h', hflat, ?_⟩
      rw [toolStreamUpdates, List.cons_append, List.foldlM_cons, hrun]
      exact toolStreamUpdates_idle fun raw hraw => (hraws.2 raw hraw).length_le

/-- The round that begins a value has read the opening tag and sent the name. -/
theorem toolStreamStep_startParam {ts₀ : ToolStream} {raw : Bytes}
    (h : toolStreamStep openaiSink raw ts₀ out = .ok (.next ts out')) (hstate : ts.state = .paramValue) :
    ts.active = ts₀.active ∧ ts.syn = ts₀.syn ∧ ts.index = ts₀.index ∧
      ∃ name, out' = openaiSink.toolArgs out ts₀.index (toolParamPrefix ts₀ name ts.paramIsString) := by
  rw [toolStreamStep] at h
  split at h
  · rw [toolBetweenInvokes] at h
    repeat' split at h
    · cases h
    · cases h
    · cases h
    · rw [toolStartInvoke] at h
      repeat' split at h
      · cases h
      · cases h
      · cases h
        cases hstate
    · cases h
  · rw [toolBetweenParams] at h
    repeat' split at h
    · cases h
    · cases h
      cases hstate
    · cases h
    · rw [toolStartParam] at h
      repeat' split at h
      · cases h
      · cases h
        exact ⟨rfl, rfl, rfl, _, rfl⟩
      · cases h
    · cases h
  · rw [toolParamValue] at h
    repeat' split at h
    · cases h
      cases hstate
    · dsimp only at h
      split at h
      · cases h
      · cases h
  · cases h
  · cases h

theorem openaiSink_toolParamPrefix (ts : ToolStream) (out : List OpenaiEvent) (name : Bytes) :
    openaiSink.toolArgs out ts.index (toolParamPrefix ts name true) =
      out ++ [.toolCallArgs ts.index (toolParamPrefix ts name true)] := by
  have hnul : 0 ∉ toolParamPrefix ts name true := by
    rw [toolParamPrefix]
    simp only [List.mem_append, not_or]
    refine ⟨⟨⟨?_, jsonEscape_notMem name⟩, by decide⟩, by decide⟩
    split
    · exact List.not_mem_nil
    · decide
  have hne : toolParamPrefix ts name true ≠ [] := List.append_ne_nil_of_right_ne_nil _ (by decide)
  dsimp only [openaiSink]
  rw [if_neg hne, cstr_of_notMem hnul]

/-- A string parameter of a tool call, from the round that reads its opening tag to the update that brings its
closing tag: the name with the opening quote, the parts of the body, and the closing quote. -/
theorem stringParam_fragments {ts₀ : ToolStream} {raw : Bytes} {raws : List Bytes}
    (hsyn : ts₀.syn ∈ dsmlSyntaxes) (hgo : ts₀.active = true ∧ ts₀.parsePos < raw.length)
    (hstart : toolStreamStep openaiSink raw ts₀ out = .ok (.next ts out'))
    (hts : ts.state = .paramValue ∧ ts.paramIsString = true) (h0 : 0 ∉ body)
    (hend : find ts.syn.paramEnd body = none) (ht : t = raw.take ts.parsePos ++ (body ++ ts.syn.paramEnd))
    (hfirst : (raws ++ [t]).head? = some raw) (hgrow : Growing (raws ++ [t])) :
    ∃ (name : Bytes) (parts : List Bytes),
      toolStreamUpdates openaiSink (ts₀, out) (raws ++ [t]) =
        .ok ({ ts with parsePos := t.length, state := .betweenParams },
          out ++ .toolCallArgs ts.index (toolParamPrefix ts₀ name true) ::
            (parts.map (fun part => .toolCallArgs ts.index (paramFragment ts.syn.paramEnd part)) ++
              [.toolCallArgs ts.index (lit "\"")])) ∧
      parts.flatten = body ∧
      jsonString (lit "\"" ++ ((parts.map (paramFragment ts.syn.paramEnd)).flatten ++ lit "\"")) =
        some (ds4ToolTextUnescape body ts.syn.paramEnd, []) ∧
      ∀ n, ¬Cuts (Uncut ts.syn.paramEnd) body (parts.take n).flatten.length := by
  obtain ⟨hact, hs, hindex, name, hout⟩ := toolStreamStep_startParam hstart hts.1
  have hawait : AwaitsString ts :=
    ⟨dsmlSyntaxes_paramEnd _ (hs ▸ hsyn), hact.trans hgo.1, hts.1, hts.2⟩
  have hpos : ts.parsePos = (raw.take ts.parsePos).length + ([] : List Bytes).flatten.length := by
    rw [List.length_take, Nat.min_eq_left (toolStreamStep_next hstart).2]
    rfl
  rw [hts.2, openaiSink_toolParamPrefix] at hout
  -- the first update goes on with the value in the same call
  have hrun : toolStreamUpdates openaiSink (ts₀, out) (raws ++ [t]) =
      toolStreamUpdates openaiSink (ts, out') (raws ++ [t]) := by
    obtain ⟨rest, hrest⟩ : ∃ rest, raws ++ [t] = raw :: rest := by
      rw [List.head?_eq_some_iff] at hfirst
      exact hfirst
    rw [hrest, toolStreamUpdates, toolStreamUpdates, List.foldlM_cons, List.foldlM_cons,
      toolStreamUpdate_next hgo hstart]
  have hraws : ∀ s ∈ raws ++ [t], s <+: t := fun s hmem => by
    rcases List.mem_append.mp hmem with hmem | hmem
    · exact (List.pairwise_append.mp (List.isChain_iff_pairwise.mp hgrow)).2.2 s hmem t (List.mem_singleton_self t)
    · rw [List.mem_singleton.mp hmem]
  have hzero : ValueSent ts.syn.paramEnd body ts.index out' out' [] := ValueSent.zero
  obtain ⟨parts, out₁, hsent, hflat, hrun'⟩ := toolStreamUpdates_value hawait h0 hend ht hraws hzero hpos
  refine ⟨name, parts, ?_, hflat, ?_, hsent.cuts⟩
  · rw [hrun, hrun', hsent.events, hout, hindex, List.append_assoc, List.append_assoc, List.singleton_append]
  · obtain ⟨tl, hfin, -⟩ := hawait.tag
    have hcuts : ∀ n, ¬Cuts (IsEscape ts.syn.paramEnd) parts.flatten (parts.take n).flatten.length :=
      fun n ⟨i, w, hw, h⟩ => hsent.cuts n ⟨i, w, .inl hw, hflat ▸ h⟩
    rw [hfin] at hcuts ⊢
    have hlit : lit "\"" ++ (paramFragment (ch '<' :: (tl ++ [ch '>'])) body ++ lit "\"") =
        jsonEscape (ds4ToolTextUnescape body (ch '<' :: (tl ++ [ch '>']))) ++ [] := by
      rw [List.append_nil]
      rfl
    rw [paramFragment_flatten hcuts, hflat, hlit]
    exact jsonString_jsonEscape (unescape_notMem h0)

/-- An escaped closing tag and a character of two bytes, both cut by the updates. -/
theorem stringParam_fragments_cut :
    ∃ (name : Bytes) (parts : List Bytes) (ts : ToolStream),
      toolStreamUpdates openaiSink
          ({ ToolStream.zero with state := .betweenParams, syn := dsmlSyntaxPlain, active := true }, [])
          [lit "<parameter name=\"a\" string=\"true\">x&l",
            (lit "<parameter name=\"a\" string=\"true\">x&lt;/parameter>é").dropLast,
            lit "<parameter name=\"a\" string=\"true\">x&lt;/parameter>é</parameter>"] =
        .ok (ts, .toolCallArgs 0 (lit "," ++ jsonEscape name ++ lit ":" ++ lit "\"") ::
          (parts.map (fun part => .toolCallArgs 0 (paramFragment (lit "</parameter>") part)) ++
            [.toolCallArgs 0 (lit "\"")])) ∧
      parts.flatten = lit "x&lt;/parameter>é" ∧
      jsonString (lit "\"" ++ ((parts.map (paramFragment (lit "</parameter>"))).flatten ++ lit "\"")) =
        some (lit "x</parameter>é", []) := by
  have hstart : toolStreamStep openaiSink (lit "<parameter name=\"a\" string=\"true\">x&l")
      { ToolStream.zero with state := .betweenParams, syn := dsmlSyntaxPlain, active := true } [] =
      .ok (.next { ToolStream.zero with
          state := .paramValue, syn := dsmlSyntaxPlain, parsePos := 34, active := true, paramIsString := true }
        [.toolCallArgs 0 (lit ",\"a\":\"")]) := by with_unfolding_all rfl
  have hgrow : Growing ([lit "<parameter name=\"a\" string=\"true\">x&l",
      (lit "<parameter name=\"a\" string=\"true\">x&lt;/parameter>é").dropLast] ++
      [lit "<parameter name=\"a\" string=\"true\">x&lt;/parameter>é</parameter>"]) := by decide
  have hend : find (lit "</parameter>") (lit "x&lt;/parameter>é") = none := by decide
  obtain ⟨name, parts, hrun, hflat, hjson, -⟩ := stringParam_fragments (by decide) ⟨rfl, by decide⟩ hstart
    ⟨rfl, rfl⟩ (by decide) hend (by decide) rfl hgrow
  have hvalue : ds4ToolTextUnescape (lit "x&lt;/parameter>é") (lit "</parameter>") = lit "x</parameter>é" := by
    with_unfolding_all rfl
  exact ⟨name, parts, _, hrun, hflat, hjson.trans (congrArg (fun s => some (s, [])) hvalue)⟩

end Run

end Ds4
