import Mathlib.Data.Nat.Log
import Ds4.Lib.ProbeTable
import Ds4.Tokenizer.Alphabet

/-!
# Byte pair merges

The vocabulary with its two hash tables and `bpe_emit_piece`: a piece is spelled, neighbouring symbols are merged by
rank as long as a pair has one, and each symbol that is left is looked up.
-/

namespace Ds4.Tokenizer
open C

def hashBytes (key : Bytes) : Nat :=
  (key.foldl (fun h c => (h ^^^ c.toUInt64) * 1099511628211) (1469598103934665603 : UInt64)).toNat

/-- The smallest power of two from `n` on. A hash is taken modulo it by a mask. -/
def nextPow2 (n : Nat) : Nat := 2 ^ Nat.clog 2 n

/-- A table with room for the expected keys, filled in their order with their numbers. -/
def tableOf (number : Nat → Int) (keys : List Bytes) : ProbeTable Bytes Int :=
  .fill hashBytes (nextPow2 (keys.length * 2 + 16)) (keys.zipIdx.map fun x => (x.1, number x.2))

/-- A vocabulary. The id of a control token is -1 when there is none. -/
structure Vocab where
  token : List Bytes
  merges : List Bytes
  bosId : Int
  eosId : Int
  systemId : Int
  userId : Int
  assistantId : Int
  observationId : Int
  sopId : Int
  thinkStartId : Int
  thinkEndId : Int
  toolCallStartId : Int
  toolCallEndId : Int
  toolResponseStartId : Int
  toolResponseEndId : Int
  argKeyStartId : Int
  argKeyEndId : Int
  argValueStartId : Int
  argValueEndId : Int
  dsmlId : Int

def Vocab.tokenToId (v : Vocab) : ProbeTable Bytes Int := tableOf Int.ofNat v.token

/-- The rank of a merge is its place cut to 32 bits. -/
def Vocab.mergeRank (v : Vocab) : ProbeTable Bytes Int := tableOf (fun i => (i : Int).bmod (2 ^ 32)) v.merges

def bpeRank (v : Vocab) (a b : Bytes) : Int := (v.mergeRank.get hashBytes (a ++ ch ' ' :: b)).getD (-1)

/-- The characters of a spelled piece. -/
def splitSymbols (s : Bytes) : List Bytes :=
  if s = [] then []
  else
    let n := utf8LenFromFirstByte (s.getD 0 0)
    let n := if s.length < n then 1 else n
    s.take n :: splitSymbols (s.drop n)
termination_by s.length
decreasing_by
  have := List.length_pos_of_ne_nil ‹_›
  have := utf8LenFromFirstByte_pos (s.getD 0 0)
  rw [List.length_drop]
  split <;> omega

/-- The first pair of the lowest rank from place `i` on, and that rank. -/
def bestPair (v : Vocab) (i : Nat) (best : Option Nat × Int) : List Bytes → Option Nat × Int
  | a :: b :: sym =>
    let rank := bpeRank v a b
    bestPair v (i + 1) (if 0 ≤ rank ∧ rank < best.2 then (some i, rank) else best) (b :: sym)
  | _ => best

def mergeAt : Nat → List Bytes → List Bytes
  | 0, a :: b :: sym => (a ++ b) :: sym
  | i + 1, a :: sym => a :: mergeAt i sym
  | _, sym => sym

/-- A pair of symbols that may be merged. -/
def Mergeable (v : Vocab) (sym : List Bytes) (i : Nat) : Prop :=
  ∃ l a b r, sym = l ++ a :: b :: r ∧ l.length = i ∧ 0 ≤ bpeRank v a b

theorem bestPair_some {v : Vocab} {sym : List Bytes} {i j : Nat} {best : Option Nat × Int}
    (h : (bestPair v i best sym).1 = some j) : best.1 = some j ∨ i ≤ j ∧ Mergeable v sym (j - i) := by
  fun_induction bestPair v i best sym with
  | case1 i best a b sym rank ih =>
    rcases ih h with hj | ⟨hle, l, x, y, r, hsym, hl, hrank⟩
    · split at hj
      · next hr =>
        cases hj
        exact .inr ⟨Nat.le_refl _, [], a, b, sym, rfl, (Nat.sub_self _).symm, hr.1⟩
      · exact .inl hj
    · refine .inr ⟨Nat.le_of_succ_le hle, a :: l, x, y, r, ?_, ?_, hrank⟩
      · rw [hsym]
        rfl
      · rw [List.length_cons, hl]
        omega
  | case2 i best sym => exact .inl h

theorem mergeAt_append {l r : List Bytes} {a b : Bytes} :
    mergeAt l.length (l ++ a :: b :: r) = l ++ (a ++ b) :: r := by
  induction l with
  | nil => rfl
  | cons x l ih => exact congrArg (x :: ·) ih

/-- The merge loop. -/
def mergeSymbols (v : Vocab) (sym : List Bytes) : List Bytes :=
  match _h : (bestPair v 0 (none, 2 ^ 31 - 1) sym).1 with
  | none => sym
  | some i => mergeSymbols v (mergeAt i sym)
termination_by sym.length
decreasing_by
  obtain ⟨l, a, b, r, rfl, rfl, -⟩ := ((bestPair_some _h).resolve_left (fun h => nomatch h)).2
  rw [mergeAt_append]
  simp only [List.length_append, List.length_cons]
  omega

/-- A symbol without a token falls back to those of its bytes that have one. -/
def emitSymbol (v : Vocab) (sym : Bytes) : List Int :=
  match v.tokenToId.get hashBytes sym with
  | some token => [token]
  | none => sym.filterMap fun c => v.tokenToId.get hashBytes [c]

def bpeEmitPiece (v : Vocab) (piece : Bytes) : List Int :=
  (mergeSymbols v (splitSymbols (byteEncode piece))).flatMap (emitSymbol v)

/-- The fullwidth bar marks a token that stands for its own text. -/
def vocabTokenIsLiteralSpecial (s : Bytes) : Bool := decide ([0xef, 0xbd, 0x9c] <:+: s)

def ds4TokenText (v : Vocab) (token : Int) : Bytes :=
  if token < 0 then []
  else
    match v.token[token.toNat]? with
    | none => []
    | some s => if vocabTokenIsLiteralSpecial s then s else decodeSymbols s

theorem ds4TokenText_of_getElem {v : Vocab} {i : Nat} {s : Bytes} (h : v.token[i]? = some s) :
    ds4TokenText v i = if vocabTokenIsLiteralSpecial s then s else decodeSymbols s := by
  rw [ds4TokenText, if_neg (Int.not_lt.mpr (Int.natCast_nonneg i)), Int.toNat_natCast, h]

/-! ## The tables -/

theorem length_lt_nextPow2 (n : Nat) : n < nextPow2 (n * 2 + 16) := by
  have := Nat.le_pow_clog Nat.one_lt_two (n * 2 + 16)
  rw [nextPow2]
  omega

section
variable {number : Nat → Int} {keys : List Bytes} {k : Bytes}

theorem length_numbered :
    (keys.zipIdx.map fun x => (x.1, number x.2)).length < nextPow2 (keys.length * 2 + 16) := by
  rw [List.length_map, List.length_zipIdx]
  exact length_lt_nextPow2 _

theorem get_tableOf : (tableOf number keys).get hashBytes k =
    ((keys.zipIdx.map fun x => (x.1, number x.2)).reverse.find? fun x => x.1 = k).map (·.2) := by
  rw [tableOf, ProbeTable.get_fill length_numbered]

/-- No search in a table goes on for ever. -/
theorem locate_tableOf : ((tableOf number keys).locate hashBytes k).isSome := by
  rw [tableOf]
  exact ProbeTable.locate_fill length_numbered k

theorem get_tableOf_some {x : Int} (h : (tableOf number keys).get hashBytes k = some x) :
    ∃ i, keys[i]? = some k ∧ x = number i := by
  rw [get_tableOf] at h
  obtain ⟨y, hy, rfl⟩ := Option.map_eq_some_iff.mp h
  have hk := List.find?_some hy
  obtain ⟨⟨k', i⟩, hi, rfl⟩ := List.mem_map.mp (List.mem_reverse.mp (List.mem_of_find?_eq_some hy))
  obtain rfl := of_decide_eq_true hk
  exact ⟨i, List.mem_zipIdx_iff_getElem?.mp hi, rfl⟩

theorem get_tableOf_isSome (h : k ∈ keys) : ((tableOf number keys).get hashBytes k).isSome := by
  obtain ⟨i, hi⟩ := List.mem_iff_getElem?.mp h
  rw [get_tableOf, Option.isSome_map, List.find?_isSome]
  exact ⟨(k, number i), List.mem_reverse.mpr (List.mem_map.mpr ⟨(k, i), List.mem_zipIdx_iff_getElem?.mpr hi, rfl⟩),
    decide_eq_true rfl⟩

end

/-! ## A piece is read back -/

/-- The vocabulary has a token for every byte symbol and for what a merge makes. A merge is two symbols with a blank
between them. -/
structure Vocab.Complete (v : Vocab) : Prop where
  bytes : ∀ b, byteSymbol b ∈ v.token
  merges : ∀ x y, ch ' ' ∉ x → ch ' ' ∉ y → x ++ ch ' ' :: y ∈ v.merges → x ++ y ∈ v.token

/-- The symbols spell consecutive parts of the piece and are tokens. -/
def Spelling (v : Vocab) (piece : Bytes) (sym : List Bytes) : Prop :=
  ∃ parts : List Bytes, sym = parts.map byteEncode ∧ parts.flatten = piece ∧ ∀ s ∈ sym, s ∈ v.token

theorem utf8Len_byteSymbol (b : UInt8) :
    utf8LenFromFirstByte ((byteSymbol b).getD 0 0) = (byteSymbol b).length := by
  have h := spells_byteSymbol b
  generalize byteSymbol b = sym at h
  match sym, h with
  | [c], h =>
    rw [spells, Bool.and_eq_true] at h
    exact if_pos (of_decide_eq_true h.1)
  | [c, d], h =>
    rw [spells, Bool.and_eq_true, Bool.and_eq_true, beq_iff_eq, Bool.not_eq_true', decide_eq_false_iff_not] at h
    exact (if_neg h.1.1).trans (if_pos h.1.2)

theorem splitSymbols_byteEncode (s : Bytes) : splitSymbols (byteEncode s) = s.map byteSymbol := by
  induction s with
  | nil => rw [byteEncode, List.flatMap_nil, splitSymbols, if_pos rfl, List.map_nil]
  | cons b s ih =>
    have hne : byteSymbol b ++ byteEncode s ≠ [] := fun h => byteSymbol_ne_nil b (List.append_eq_nil_iff.mp h).1
    have hhead : (byteSymbol b ++ byteEncode s).getD 0 0 = (byteSymbol b).getD 0 0 := by
      obtain ⟨c, t, hc⟩ := List.exists_cons_of_ne_nil (byteSymbol_ne_nil b)
      rw [hc]
      rfl
    rw [byteEncode, List.flatMap_cons, ← byteEncode, splitSymbols, if_neg hne, hhead, utf8Len_byteSymbol]
    dsimp only
    rw [if_neg, List.take_left, List.drop_left, ih, List.map_cons]
    rw [List.length_append]
    omega

section
variable {v : Vocab} (hv : v.Complete) {piece : Bytes}
include hv

theorem Spelling.init : Spelling v piece (splitSymbols (byteEncode piece)) := by
  have hsymbols : (piece.map ([·])).map byteEncode = piece.map byteSymbol := by
    rw [List.map_map]
    exact List.map_congr_left fun b _ => List.append_nil _
  rw [splitSymbols_byteEncode]
  refine ⟨piece.map ([·]), hsymbols.symm, List.flatMap_singleton' piece, fun s hs => ?_⟩
  obtain ⟨b, -, rfl⟩ := List.mem_map.mp hs
  exact hv.bytes b

/-- A merge of two spelled parts spells them together. -/
theorem Spelling.mergeAt {sym : List Bytes} {i : Nat} (h : Spelling v piece sym) (hm : Mergeable v sym i) :
    Spelling v piece (mergeAt i sym) := by
  obtain ⟨l, a, b, r, rfl, rfl, hrank⟩ := hm
  obtain ⟨parts, hparts, rfl, htoken⟩ := h
  obtain ⟨lp, rest, rfl, rfl, hrest⟩ := List.map_eq_append_iff.mp hparts.symm
  obtain ⟨x, rest', rfl, rfl, hrest'⟩ := List.map_eq_cons_iff.mp hrest
  obtain ⟨y, rp, rfl, rfl, rfl⟩ := List.map_eq_cons_iff.mp hrest'
  rw [mergeAt_append]
  refine ⟨lp ++ (x ++ y) :: rp, ?_, ?_, ?_⟩
  · rw [List.map_append, List.map_cons, byteEncode_append]
  · simp only [List.flatten_append, List.flatten_cons, List.append_assoc]
  · intro s hs
    rcases List.mem_append.mp hs with hs | hs
    · exact htoken s (List.mem_append_left _ hs)
    rcases List.mem_cons.mp hs with rfl | hs
    · -- the pair has a rank, so it is a merge
      cases hget : v.mergeRank.get hashBytes (byteEncode x ++ ch ' ' :: byteEncode y) with
      | none =>
        rw [bpeRank, hget] at hrank
        exact absurd hrank (by decide)
      | some rank =>
        obtain ⟨i, hi, -⟩ := get_tableOf_some hget
        exact hv.merges _ _ (byteEncode_plain x).2 (byteEncode_plain y).2 (List.mem_of_getElem? hi)
    · exact htoken s (List.mem_append_right _ (List.mem_cons_of_mem _ (List.mem_cons_of_mem _ hs)))

theorem Spelling.mergeSymbols {sym : List Bytes} (h : Spelling v piece sym) :
    Spelling v piece (mergeSymbols v sym) := by
  fun_induction Tokenizer.mergeSymbols v sym with
  | case1 sym => exact h
  | case2 sym i hi ih =>
    have hm := ((bestPair_some hi).resolve_left (fun h => nomatch h)).2
    exact ih (h.mergeAt hv hm)

omit hv in
theorem ds4TokenText_emitSymbol {part : Bytes} (h : byteEncode part ∈ v.token) :
    (emitSymbol v (byteEncode part)).flatMap (ds4TokenText v) = part := by
  obtain ⟨token, htoken⟩ := Option.isSome_iff_exists.mp (get_tableOf_isSome h : (v.tokenToId.get _ _).isSome)
  obtain ⟨i, hi, rfl⟩ := get_tableOf_some htoken
  have htoken : v.tokenToId.get hashBytes (byteEncode part) = some (Int.ofNat i) := htoken
  have hplain : vocabTokenIsLiteralSpecial (byteEncode part) = false :=
    decide_eq_false fun h => (byteEncode_plain part).1 (h.subset List.mem_cons_self)
  rw [emitSymbol, htoken]
  dsimp only
  rw [List.flatMap_singleton, Int.ofNat_eq_natCast, ds4TokenText_of_getElem hi, hplain, decodeSymbols_byteEncode]
  rfl

/-- The tokens of a piece spell it. -/
theorem ds4TokenText_bpeEmitPiece : (bpeEmitPiece v piece).flatMap (ds4TokenText v) = piece := by
  obtain ⟨parts, hparts, rfl, htoken⟩ := (Spelling.init hv : Spelling v piece _).mergeSymbols hv
  rw [hparts] at htoken
  rw [bpeEmitPiece, hparts, List.flatMap_assoc, List.flatMap_map]
  have htext : ∀ part ∈ parts, (emitSymbol v (byteEncode part)).flatMap (ds4TokenText v) = part := fun part hpart =>
    ds4TokenText_emitSymbol (htoken _ (List.mem_map_of_mem hpart))
  rw [List.flatMap_congr htext, List.flatMap_id']

end

end Ds4.Tokenizer
