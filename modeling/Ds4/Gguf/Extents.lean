import Mathlib.Algebra.Order.Floor.Div
import Ds4.Gguf.Accepts

/-!
# Where the tensors lie

The blocks of a tensor of an accepted file lie in the file. The number of blocks is the number of elements divided by the block
size and rounded up, except where the rounding runs over 64 bits: there no byte is counted.
-/

namespace Ds4.Gguf
open C

/-- The bytes that the blocks of a tensor take. -/
def TypeInfo.blockSize (info : TypeInfo) (elements : Nat) : Nat := (elements ⌈/⌉ info.blockElems) * info.blockBytes

/-- The size and the sum that it is computed from are below 2^64. -/
def TypeInfo.Counted (info : TypeInfo) (elements : Nat) : Prop :=
  elements + info.blockElems ≤ 2 ^ 64 ∧ info.blockSize elements ≤ maxU64

instance (info : TypeInfo) (elements : Nat) : Decidable (info.Counted elements) := inferInstanceAs (Decidable (_ ∧ _))

theorem tensorType_pos {type : Nat} {info : TypeInfo} (h : tensorType type = some info) :
    0 < info.blockElems ∧ info.blockElems ≤ 256 ∧ 0 < info.blockBytes := by
  unfold tensorType at h
  split at h <;> first | (cases h; decide) | cases h

theorem tensorNbytes_eq {type : Nat} {info : TypeInfo} (h : tensorType type = some info) {elements : Nat}
    (hlt : elements ≤ maxU64) :
    (tensorNbytes type elements).getD 0 = if info.Counted elements then info.blockSize elements else 0 := by
  obtain ⟨hpos, hle, hbytes⟩ := tensorType_pos h
  simp only [tensorNbytes, h]
  rw [maxU64] at hlt
  by_cases hsum : elements + info.blockElems ≤ 2 ^ 64
  · have hblocks : (elements + info.blockElems - 1) % 2 ^ 64 / info.blockElems = elements ⌈/⌉ info.blockElems := by
      rw [Nat.mod_eq_of_lt (by omega), Nat.ceilDiv_eq_add_pred_div]
    have hfits : elements ⌈/⌉ info.blockElems > maxU64 / info.blockBytes ↔ ¬info.blockSize elements ≤ maxU64 := by
      rw [TypeInfo.blockSize, ← Nat.le_div_iff_mul_le hbytes, not_le]
    rw [hblocks]
    by_cases hsize : info.blockSize elements ≤ maxU64
    · rw [if_neg (mt hfits.mp (not_not.mpr hsize)), if_pos ⟨hsum, hsize⟩]
      rfl
    · rw [if_pos (hfits.mpr hsize), if_neg fun hc => hsize hc.2]
      rfl
  · -- the sum is cut to less than one block
    have hblocks : (elements + info.blockElems - 1) % 2 ^ 64 / info.blockElems = 0 := by
      rw [Nat.mod_eq_sub_mod (by omega), Nat.mod_eq_of_lt (by omega)]
      exact Nat.div_eq_of_lt (by omega)
    rw [hblocks, if_neg (Nat.not_lt_zero _), if_neg fun hc => hsum hc.1, Option.getD_some, Nat.zero_mul]

theorem alignUp_mod {value alignment : Nat} (h : 0 < alignment) : alignUp value alignment % alignment = 0 := by
  rw [alignUp]
  split
  · next hrem => exact hrem
  · have hlt := Nat.mod_lt value h
    have hdiv := Nat.div_add_mod value alignment
    have hsum : value + alignment - value % alignment = alignment * (value / alignment) + alignment := by omega
    rw [hsum, ← Nat.mul_succ, Nat.mul_mod_right]

theorem Doc.alignment_pos (d : Doc) : 0 < d.alignment := by
  have hfold : ∀ (es : List Entry) (a : Nat), 0 < a → 0 < es.foldl noteEntry a := by
    intro es
    induction es with
    | nil => exact fun _ ha => ha
    | cons e es ih =>
      intro a ha
      refine ih _ ?_
      rw [noteEntry]
      split
      · next hnote => exact Nat.pos_of_ne_zero hnote.2.2
      · exact ha
  exact hfold d.entries 32 (by decide)

theorem le_foldl_max (ts : List Tensor) (n : Nat) : n ≤ ts.foldl (fun n t => max n t.bytes) n ∧
    ∀ t ∈ ts, t.bytes ≤ ts.foldl (fun n t => max n t.bytes) n := by
  induction ts generalizing n with
  | nil => exact ⟨Nat.le_refl n, nofun⟩
  | cons t ts ih =>
    obtain ⟨hle, hall⟩ := ih (max n t.bytes)
    exact ⟨(Nat.le_max_left ..).trans hle, List.forall_mem_cons.mpr ⟨(Nat.le_max_right ..).trans hle, hall⟩⟩

/-- The tensors of an accepted file. The data start at a multiple of the alignment, each tensor stands at its offset behind
it, and what is counted of its blocks lies in the file. -/
theorem tensors_inside {file : Bytes} (hfile : file.length < 2 ^ 63) {m : Model} (hopen : modelOpen file = .ok m) :
    m.tensorDataPos % m.alignment = 0 ∧ ∀ t ∈ m.tensors, t.absOffset = m.tensorDataPos + t.relOffset ∧
      t.elements = t.dims.prod ∧
      t.elements ≤ maxU64 ∧ t.bytes ≤ m.maxTensorBytes ∧ (t.bytes ≠ 0 → t.absOffset + t.bytes ≤ file.length) ∧
      ∀ info, tensorType t.type = some info → t.bytes = if info.Counted t.elements then info.blockSize t.elements else 0 := by
  obtain ⟨-, d, hwf, -, hfits, rfl⟩ := (modelOpen_iff file hfile m).mp hopen
  refine ⟨alignUp_mod d.alignment_pos, fun t ht => ?_⟩
  have hmax := (le_foldl_max d.placed 0).2 t ht
  obtain ⟨t, hmem, rfl⟩ := List.mem_map.mp ht
  have hle : t.elements ≤ maxU64 := by
    have hfit := (hwf.tensors t hmem).fits t.dims.length
    rwa [List.take_length] at hfit
  exact ⟨rfl, rfl, hle, hmax, (hfits t hmem).2, fun info hinfo => tensorNbytes_eq hinfo hle⟩

/-- A tensor whose blocks are not counted is accepted wherever it stands. -/
example : tensorNbytes 12 (2 ^ 64 - 1) = some 0 := by decide

theorem tensors_inside_weight : (weightDoc.model weightFile).tensorDataPos % (weightDoc.model weightFile).alignment = 0 ∧
    ∀ t ∈ (weightDoc.model weightFile).tensors, t.bytes ≠ 0 → t.absOffset + t.bytes ≤ weightFile.length := by
  have h := tensors_inside weightFile_open.2 weightFile_open.1
  refine ⟨h.1, fun t ht => ?_⟩
  obtain ⟨-, -, -, -, hin, -⟩ := h.2 t ht
  exact hin

end Ds4.Gguf
