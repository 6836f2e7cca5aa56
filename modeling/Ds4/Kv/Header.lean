import Ds4.Kv.Sha1
import Ds4.Lib.LittleEndian

/-!
# Cache file headers

A cache file is a fixed header of 48 bytes, the length of the text in four bytes, the text, the
payload, and whatever a trailer hook wrote behind it. A file is the list of its bytes; `uint32_t` and
`uint64_t` fields are natural numbers that are cut to their width when they are written.
-/

namespace Ds4.Kv
open C

/-- The fields of the fixed header. -/
structure KvHeader where
  modelId : Nat
  quantBits : Nat
  reason : Nat
  extFlags : Nat
  tokens : Nat
  hits : Nat
  ctxSize : Nat
  createdAt : Nat
  lastUsed : Nat
  payloadBytes : Nat
  deriving DecidableEq, Repr

def fixedHeader : Nat := 48

def kvCachePayloadAbi : UInt8 := 2

def reasonAgentSession : Nat := 6

def ds4KvstoreReasonCode (reason : Option String) : Nat :=
  match reason with
  | some "cold" => 1
  | some "continued" => 2
  | some "evict" => 3
  | some "shutdown" => 4
  | some "agent-system" => 5
  | some "agent-session" => 6
  | _ => 0

def kvMagic : Bytes := lit "KVC" ++ [1]

def ds4KvstoreFillHeader (h : KvHeader) : Bytes :=
  kvMagic ++ lePut 1 h.quantBits ++ lePut 1 h.reason ++ lePut 1 h.extFlags ++ lePut 1 h.modelId ++
    lePut 4 h.tokens ++ lePut 4 h.hits ++ lePut 4 h.ctxSize ++ [kvCachePayloadAbi, 0, 0, 0] ++
    lePut 8 h.createdAt ++ lePut 8 h.lastUsed ++ lePut 8 h.payloadBytes

/-- `n` bytes at an offset. -/
def field (f : Bytes) (i n : Nat) : Nat := leGet ((f.drop i).take n)

/-- The header at the start of a file and the length of its text. -/
def ds4KvstoreReadHeader (f : Bytes) : Option (KvHeader × Nat) :=
  if f.length < fixedHeader + 4 ∨ f.take 4 ≠ kvMagic ∨ field f 20 1 ≠ kvCachePayloadAbi.toNat then none
  else
    let h : KvHeader :=
      { quantBits := field f 4 1
        reason := if field f 5 1 ≤ reasonAgentSession then field f 5 1 else 0
        extFlags := field f 6 1
        modelId := field f 7 1
        tokens := field f 8 4
        hits := field f 12 4
        ctxSize := field f 16 4
        createdAt := field f 24 8
        lastUsed := field f 32 8
        payloadBytes := field f 40 8 }
    if h.tokens ≠ 0 ∧ (h.quantBits = 2 ∨ h.quantBits = 4) then some (h, field f 48 4) else none

structure KvEntry extends KvHeader where
  sha : Bytes
  path : Bytes
  textBytes : Nat
  fileSize : Nat
  deriving DecidableEq, Repr

def uint32Max : Nat := 2 ^ 32 - 1

def uint64Max : Nat := 2 ^ 64 - 1

/-- The entry of a file that holds at least what its header announces. -/
def ds4KvstoreReadEntryFile (path sha f : Bytes) : Option KvEntry :=
  match ds4KvstoreReadHeader f with
  | none => none
  | some (h, textBytes) =>
    let fixed := fixedHeader + 4
    if uint64Max - fixed < textBytes ∨ uint64Max - fixed - textBytes < h.payloadBytes then none
    else if f.length < fixed + textBytes + h.payloadBytes then none
    else some { h with sha, path, textBytes, fileSize := f.length }

/-! ## Written headers are read back -/

/-- The fields fit into the bytes of the header. -/
structure KvHeader.Fits (h : KvHeader) : Prop where
  modelId : h.modelId < 256 ^ 1
  quantBits : h.quantBits < 256 ^ 1
  reason : h.reason ≤ reasonAgentSession
  extFlags : h.extFlags < 256 ^ 1
  tokens : h.tokens < 256 ^ 4
  hits : h.hits < 256 ^ 4
  ctxSize : h.ctxSize < 256 ^ 4
  createdAt : h.createdAt < 256 ^ 8
  lastUsed : h.lastUsed < 256 ^ 8
  payloadBytes : h.payloadBytes < 256 ^ 8

/-- The fields that change after a file was written. -/
theorem KvHeader.Fits.update {h : KvHeader} (hf : h.Fits) (hx : x < 256 ^ 1) (hh : n < 256 ^ 4)
    (hl : l < 256 ^ 8) : { h with extFlags := x, hits := n, lastUsed := l : KvHeader }.Fits :=
  { hf with extFlags := hx, hits := hh, lastUsed := hl }

/-- The fields are those of a file that can be read as an entry. -/
def KvHeader.Live (h : KvHeader) : Prop := h.tokens ≠ 0 ∧ (h.quantBits = 2 ∨ h.quantBits = 4)

instance (h : KvHeader) : Decidable h.Live := inferInstanceAs (Decidable (_ ∧ _))

theorem length_fillHeader (h : KvHeader) : (ds4KvstoreFillHeader h).length = fixedHeader := by
  have : kvMagic.length = 4 := by decide
  simp [ds4KvstoreFillHeader, fixedHeader, this]

theorem field_skip (ha : a.length = k) (hk : k ≤ i) (s : Bytes) (n : Nat) :
    field (a ++ s) i n = field s (i - k) n := by
  rw [field, field, List.drop_append, List.drop_eq_nil_of_le (ha ▸ hk), ha, List.nil_append]

theorem field_skip_put (hk : k ≤ i) (v : Nat) (s : Bytes) (n : Nat) :
    field (lePut k v ++ s) i n = field s (i - k) n := field_skip (length_lePut k v) hk s n

theorem field_put (hv : v < 256 ^ k) (s : Bytes) : field (lePut k v ++ s) 0 k = v := by
  rw [field, List.drop_zero, List.take_left' (length_lePut k v), leGet_lePut hv]

/-- A header in front of the length of a text. -/
theorem readHeader_fillHeader_append {h : KvHeader} (hf : h.Fits) (t : Bytes) (ht : 4 ≤ t.length) :
    ds4KvstoreReadHeader (ds4KvstoreFillHeader h ++ t) =
      if h.Live then some (h, field t 0 4) else none := by
  have hlen : ¬ (ds4KvstoreFillHeader h ++ t).length < fixedHeader + 4 := by
    rw [List.length_append, length_fillHeader]
    omega
  have hmagic : kvMagic.length = 4 := by decide
  have hreason : h.reason < 256 ^ 1 := Nat.lt_of_le_of_lt hf.reason (by decide)
  have hskip (s : Bytes) (i n : Nat) (hi : 4 ≤ i) : field (kvMagic ++ s) i n = field s (i - 4) n :=
    field_skip hmagic hi s n
  have habi (s : Bytes) (i n : Nat) (hi : 4 ≤ i) :
      field (kvCachePayloadAbi :: 0 :: 0 :: 0 :: s) i n = field s (i - 4) n :=
    field_skip (a := [kvCachePayloadAbi, 0, 0, 0]) rfl hi s n
  have habi0 (s : Bytes) : field (kvCachePayloadAbi :: s) 0 1 = kvCachePayloadAbi.toNat := rfl
  rw [ds4KvstoreReadHeader, if_neg]
  · simp (disch := omega) only [ds4KvstoreFillHeader, List.append_assoc, List.cons_append,
      List.nil_append, hskip, habi, field_skip_put, Nat.reduceSub, field_put hf.modelId,
      field_put hf.quantBits, field_put hreason, field_put hf.extFlags, field_put hf.tokens,
      field_put hf.hits, field_put hf.ctxSize, field_put hf.createdAt, field_put hf.lastUsed,
      field_put hf.payloadBytes, if_pos hf.reason]
    rfl
  · rintro (h1 | h1 | h1)
    · exact hlen h1
    · exact h1 (List.take_left' hmagic)
    · refine h1 ?_
      simp (disch := omega) only [ds4KvstoreFillHeader, List.append_assoc, List.cons_append,
        List.nil_append, hskip, field_skip_put, Nat.reduceSub, habi0]

theorem readHeader_fillHeader {h : KvHeader} (hf : h.Fits) (hn : n < 256 ^ 4) (rest : Bytes) :
    ds4KvstoreReadHeader (ds4KvstoreFillHeader h ++ (lePut 4 n ++ rest)) =
      if h.Live then some (h, n) else none := by
  rw [readHeader_fillHeader_append hf _ (by rw [List.length_append, length_lePut]; omega),
    field_put hn]

theorem field_lt (f : Bytes) (i n : Nat) : field f i n < 256 ^ n := by
  have hlt := leGet_lt ((f.drop i).take n)
  have hlen : ((f.drop i).take n).length ≤ n := List.length_take_le n _
  exact Nat.lt_of_lt_of_le hlt (Nat.pow_le_pow_right (by decide) hlen)

/-- The header is read from the first bytes. -/
theorem readHeader_take (f : Bytes) :
    ds4KvstoreReadHeader (f.take (fixedHeader + 4)) = ds4KvstoreReadHeader f := by
  have hfield (i n : Nat) (h : i + n ≤ fixedHeader + 4) :
      field (f.take (fixedHeader + 4)) i n = field f i n := by
    rw [field, field, List.drop_take, List.take_take, Nat.min_eq_left (by omega)]
  have hmagic : (f.take (fixedHeader + 4)).take 4 = f.take 4 := by
    rw [List.take_take, Nat.min_eq_left (by decide)]
  have hlen : (f.take (fixedHeader + 4)).length < fixedHeader + 4 ↔ f.length < fixedHeader + 4 := by
    rw [List.length_take]
    omega
  have hfixed : fixedHeader = 48 := rfl
  simp (disch := omega) only [ds4KvstoreReadHeader, hfield, hmagic, hlen]

/-- A header that is read fits and is live, and the file begins with it. -/
theorem readHeader_some (hread : ds4KvstoreReadHeader f = some (h, n)) :
    h.Fits ∧ h.Live ∧ fixedHeader + 4 ≤ f.length ∧ n = field (f.drop fixedHeader) 0 4 := by
  rw [ds4KvstoreReadHeader] at hread
  split at hread
  · cases hread
  · next hok =>
    rw [not_or] at hok
    simp only at hread
    split at hread
    · next hlive =>
      cases hread
      refine ⟨⟨field_lt f 7 1, field_lt f 4 1, ?_, field_lt f 6 1, field_lt f 8 4, field_lt f 12 4,
        field_lt f 16 4, field_lt f 24 8, field_lt f 32 8, field_lt f 40 8⟩, hlive,
        Nat.le_of_not_lt hok.1, ?_⟩
      · simp only
        split
        · assumption
        · exact Nat.zero_le _
      · rw [field, field, List.drop_drop]
        rfl
    · cases hread

end Ds4.Kv
