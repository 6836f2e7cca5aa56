import Ds4.Gguf.Format

/-!
# What the loader accepts

A document is the metadata entries and the tensor descriptors of a file with their bytes. The loader accepts a file exactly when
it starts with the encoding of a well-formed document whose tensors lie in the file, and what it keeps are the positions of the
document's parts.
-/

namespace Ds4.Gguf
open C Cursor

/-! ## Values -/

/-- The bytes of a value of a type, with at most so many levels of arrays around numbers and strings. -/
inductive Encoded : Nat → Nat → Bytes → Prop
  | scalar : scalarValueSize type ≠ 0 → b.length = scalarValueSize type → Encoded (levels + 1) type b
  | string {s : Bytes} : s.length < 256 ^ 8 → Encoded (levels + 1) typeString (lePut 8 s.length ++ s)
  | scalars : itemType < 256 ^ 4 → scalarValueSize itemType ≠ 0 → len < 256 ^ 8 → len ≤ maxU64 / scalarValueSize itemType →
    b.length = len * scalarValueSize itemType → Encoded (levels + 1) typeArray (lePut 4 itemType ++ (lePut 8 len ++ b))
  | array {items : List Bytes} : itemType < 256 ^ 4 → scalarValueSize itemType = 0 → items.length < 256 ^ 8 →
    (∀ b ∈ items, Encoded levels itemType b) →
    Encoded (levels + 1) typeArray (lePut 4 itemType ++ (lePut 8 items.length ++ items.flatten))

theorem exact_cursorSkip (n : Nat) : Exact (cursorSkip n) fun _ _ _ b => b.length = n := by
  refine ((exact_bytes truncated n).bind fun _ => exact_pure ()).congr fun file pos _ b => ?_
  constructor
  · rintro ⟨a, b₁, b₂, ⟨rfl, hlen⟩, ⟨-, rfl⟩, rfl⟩
    rwa [List.append_nil]
  · exact fun hlen => ⟨b, b, [], ⟨rfl, hlen⟩, ⟨rfl, rfl⟩, (List.append_nil b).symm⟩

theorem exact_cursorString : Exact cursorString fun _ _ s b => s.length < 256 ^ 8 ∧ b = lePut 8 s.length ++ s := by
  refine ((exact_uint truncated 8).bind fun n => exact_bytes truncated n).congr fun file pos s b => ?_
  constructor
  · rintro ⟨n, b₁, b₂, ⟨hn, rfl⟩, ⟨rfl, rfl⟩, rfl⟩
    exact ⟨hn, rfl⟩
  · rintro ⟨hs, rfl⟩
    exact ⟨_, _, _, ⟨hs, rfl⟩, ⟨rfl, rfl⟩, rfl⟩

theorem scalarValueSize_string : scalarValueSize typeString = 0 := rfl

theorem scalarValueSize_array : scalarValueSize typeArray = 0 := rfl

/-- Items of one type. -/
theorem exact_items {r : Reader Unit} {E : Bytes → Prop} (hr : Exact r fun _ _ _ b => E b) (n : Nat) :
    Exact (do let _ ← times r n; return ()) fun _ _ _ b =>
      ∃ items : List Bytes, items.length = n ∧ (∀ b ∈ items, E b) ∧ b = items.flatten := by
  have hr' : Exact r fun _ pos a b => ∃ e : Bytes, E e ∧ b = id e ∧ a = (fun _ _ => ()) pos e :=
    hr.congr fun _ _ _ b => ⟨fun h => ⟨b, h, rfl, rfl⟩, fun ⟨_, he, hb, _⟩ => hb ▸ he⟩
  refine ((hr'.times n).bind fun _ => exact_pure ()).congr fun file pos _ b => ?_
  constructor
  · rintro ⟨us, b₁, b₂, ⟨hlen, hrow⟩, ⟨-, rfl⟩, rfl⟩
    obtain ⟨items, hitems, rfl, rfl⟩ := row_iff.mp hrow
    rw [length_place] at hlen
    exact ⟨items, hlen, hitems, by rw [List.append_nil, List.flatMap_id]⟩
  · rintro ⟨items, hlen, hitems, rfl⟩
    refine ⟨_, items.flatMap id, [], ⟨?_, row_iff.mpr ⟨items, hitems, rfl, rfl⟩⟩, ⟨rfl, rfl⟩, ?_⟩
    · rw [length_place, hlen]
    · rw [List.append_nil, List.flatMap_id]

/-- The loader goes over exactly the encodings. -/
theorem exact_skipValue (levels type : Nat) : Exact (skipValue levels type) fun _ _ _ b => Encoded levels type b := by
  induction levels generalizing type with
  | zero => exact (exact_fail _).congr fun _ _ _ b => ⟨False.elim, nofun⟩
  | succ levels ih =>
    rw [skipValue]
    dsimp only
    by_cases hscalar : scalarValueSize type ≠ 0
    · rw [if_pos hscalar]
      refine (exact_cursorSkip _).congr fun _ _ _ b => ⟨fun h => .scalar hscalar h, fun h => ?_⟩
      cases h with
      | scalar _ h => exact h
      | string _ => exact absurd scalarValueSize_string hscalar
      | scalars => exact absurd scalarValueSize_array hscalar
      | array => exact absurd scalarValueSize_array hscalar
    · rw [if_neg hscalar]
      by_cases hstring : type = typeString
      · subst hstring
        rw [if_pos rfl]
        refine (exact_cursorString.bind fun _ => exact_pure ()).congr fun _ _ _ b => ?_
        constructor
        · rintro ⟨s, b₁, b₂, ⟨hs, rfl⟩, ⟨-, rfl⟩, rfl⟩
          rw [List.append_nil]
          exact .string hs
        · intro h
          cases h with
          | scalar h _ => exact absurd h hscalar
          | string hs => exact ⟨_, _, [], ⟨hs, rfl⟩, ⟨rfl, rfl⟩, (List.append_nil _).symm⟩
      · rw [if_neg hstring]
        by_cases harray : type = typeArray
        · subst harray
          rw [if_pos rfl]
          refine ((exact_uint truncated 4).bind fun itemType => (exact_uint truncated 8).bind fun len =>
            (((exact_fail _).ite (exact_cursorSkip (len * scalarValueSize itemType))).ite
              (exact_items (ih itemType) len))).congr fun _ _ _ b => ?_
          constructor
          · rintro ⟨itemType, b₁, b₂, ⟨hi, rfl⟩, ⟨len, b₃, b₄, ⟨hlen, rfl⟩, hitems, rfl⟩, rfl⟩
            by_cases hs : scalarValueSize itemType ≠ 0
            · rw [if_pos hs] at hitems
              by_cases hmax : len > maxU64 / scalarValueSize itemType
              · rw [if_pos hmax] at hitems
                exact hitems.elim
              · rw [if_neg hmax] at hitems
                exact .scalars hi hs hlen (Nat.le_of_not_lt hmax) hitems
            · rw [if_neg hs] at hitems
              obtain ⟨items, rfl, hitems, rfl⟩ := hitems
              exact .array hi (not_not.mp hs) hlen hitems
          · intro h
            cases h with
            | scalar h _ => exact absurd h hscalar
            | scalars hi hs hlen hmax hb =>
              refine ⟨_, _, _, ⟨hi, rfl⟩, ⟨_, _, _, ⟨hlen, rfl⟩, ?_, rfl⟩, rfl⟩
              rw [if_pos hs, if_neg (Nat.not_lt.mpr hmax)]
              exact hb
            | array hi hs hlen hitems =>
              refine ⟨_, _, _, ⟨hi, rfl⟩, ⟨_, _, _, ⟨hlen, rfl⟩, ?_, rfl⟩, rfl⟩
              rw [if_neg (not_not.mpr hs)]
              exact ⟨_, rfl, hitems, rfl⟩
        · rw [if_neg harray]
          refine (exact_fail _).congr fun _ _ _ b => ⟨False.elim, fun h => ?_⟩
          cases h with
          | scalar h _ => exact hscalar h
          | string _ => exact hstring rfl
          | scalars => exact harray rfl
          | array => exact harray rfl

/-! ## Entries -/

/-- A metadata entry with its value. -/
structure Entry where
  key : Bytes
  type : Nat
  value : Bytes

namespace Entry

structure WF (e : Entry) : Prop where
  key : e.key.length < 256 ^ 8
  type : e.type < 256 ^ 4
  value : Encoded 9 e.type e.value

def encode (e : Entry) : Bytes := lePut 8 e.key.length ++ e.key ++ (lePut 4 e.type ++ e.value)

/-- What is kept of an entry at a position. -/
def toKv (pos : Nat) (e : Entry) : Kv := ⟨e.key, e.type, pos + (lePut 8 e.key.length ++ e.key).length + (lePut 4 e.type).length⟩

end Entry

theorem exact_parseKv : Exact parseKv fun _ pos kv b => ∃ e : Entry, e.WF ∧ b = e.encode ∧ kv = e.toKv pos := by
  refine (exact_cursorString.bind fun key => (exact_uint truncated 4).bind fun type => exact_position.bind fun valuePos =>
    (exact_skipValue 9 type).bind fun _ => exact_pure (⟨key, type, valuePos⟩ : Kv)).congr fun file pos kv b => ?_
  constructor
  · rintro ⟨key, b₁, b₂, ⟨hkey, rfl⟩, ⟨type, b₃, b₄, ⟨htype, rfl⟩, ⟨valuePos, b₅, b₆, ⟨rfl, rfl⟩,
      ⟨_, value, b₈, hvalue, ⟨rfl, rfl⟩, rfl⟩, rfl⟩, rfl⟩, rfl⟩
    refine ⟨⟨key, type, value⟩, ⟨hkey, htype, hvalue⟩, ?_, rfl⟩
    rw [List.append_nil, List.nil_append]
    rfl
  · rintro ⟨⟨key, type, value⟩, ⟨hkey, htype, hvalue⟩, rfl, rfl⟩
    refine ⟨key, _, _, ⟨hkey, rfl⟩, ⟨type, _, _, ⟨htype, rfl⟩, ⟨_, [], value, ⟨rfl, rfl⟩,
      ⟨(), value, [], hvalue, ⟨rfl, rfl⟩, (List.append_nil value).symm⟩, rfl⟩, rfl⟩, rfl⟩

/-- A tensor descriptor. -/
structure TensorEntry where
  name : Bytes
  dims : List Nat
  type : Nat
  offset : Nat

namespace TensorEntry

/-- No product of leading dimensions is larger than 64 bits hold. -/
structure WF (t : TensorEntry) : Prop where
  name : t.name.length < 256 ^ 8
  ndim : 0 < t.dims.length ∧ t.dims.length ≤ ds4MaxDims
  dims : ∀ d ∈ t.dims, d < 256 ^ 8
  fits : ∀ k, (t.dims.take k).prod ≤ maxU64
  type : t.type < 256 ^ 4
  offset : t.offset < 256 ^ 8

def encode (t : TensorEntry) : Bytes :=
  lePut 8 t.name.length ++ t.name ++ (lePut 4 t.dims.length ++ (lePuts 8 t.dims ++ (lePut 4 t.type ++ lePut 8 t.offset)))

def elements (t : TensorEntry) : Nat := t.dims.prod

/-- The number of bytes, which is zero where the type is not known. -/
def bytes (t : TensorEntry) : Nat := (tensorNbytes t.type t.elements).getD 0

/-- The tensor when the tensor data stand at `base`. -/
def toTensor (base : Nat) (t : TensorEntry) : Tensor := ⟨t.name, t.dims, t.type, t.offset, base + t.offset, t.elements, t.bytes⟩

/-- The tensor before its position is known. -/
def unplaced (t : TensorEntry) : Tensor := ⟨t.name, t.dims, t.type, t.offset, 0, t.elements, t.bytes⟩

end TensorEntry

theorem le_div_iff {e d : Nat} : ¬(d ≠ 0 ∧ e > maxU64 / d) ↔ e * d ≤ maxU64 := by
  cases d with
  | zero => exact iff_of_true (fun h => h.1 rfl) (Nat.zero_le _)
  | succ d =>
    rw [← Nat.le_div_iff_mul_le (Nat.succ_pos d)]
    constructor
    · exact fun h => Nat.le_of_not_lt fun hlt => h ⟨Nat.succ_ne_zero d, hlt⟩
    · exact fun h hlt => Nat.not_lt.mpr h hlt.2

theorem exact_parseDims (n elements : Nat) : Exact (parseDims n elements) fun _ _ a b =>
    ∃ ds : List Nat, ds.length = n ∧ (∀ d ∈ ds, d < 256 ^ 8) ∧ (∀ k, elements * (ds.take (k + 1)).prod ≤ maxU64 ∨ ds = []) ∧
      b = lePuts 8 ds ∧ a = (ds, elements * ds.prod) := by
  induction n generalizing elements with
  | zero =>
    refine (exact_pure _).congr fun file pos a b => ?_
    constructor
    · rintro ⟨rfl, rfl⟩
      exact ⟨[], rfl, nofun, fun _ => .inr rfl, rfl, by rw [List.prod_nil, Nat.mul_one]⟩
    · rintro ⟨ds, hlen, -, -, rfl, rfl⟩
      rw [List.length_eq_zero_iff] at hlen
      subst hlen
      rw [List.prod_nil, Nat.mul_one]
      exact ⟨rfl, rfl⟩
  | succ n ih =>
    refine ((exact_uint truncated 8).bind fun d => ((exact_fail _).ite ((ih (elements * d)).bind fun a =>
      exact_pure (d :: a.1, a.2)))).congr fun file pos a b => ?_
    constructor
    · rintro ⟨d, b₁, b₂, ⟨hd, rfl⟩, hrest, rfl⟩
      split at hrest
      · exact hrest.elim
      · next hfit =>
        rw [le_div_iff] at hfit
        obtain ⟨_, b₃, b₄, ⟨ds, rfl, hds, hprods, rfl, rfl⟩, ⟨rfl, rfl⟩, rfl⟩ := hrest
        refine ⟨d :: ds, rfl, fun x hx => ?_, fun k => .inl ?_, ?_, ?_⟩
        · cases List.mem_cons.mp hx with
          | inl hx => exact hx ▸ hd
          | inr hx => exact hds x hx
        · rw [List.take_succ_cons, List.prod_cons, ← Nat.mul_assoc]
          cases k with
          | zero => rwa [List.take_zero, List.prod_nil, Nat.mul_one]
          | succ k =>
            cases hprods k with
            | inl h => exact h
            | inr h => rwa [h, List.take_nil, List.prod_nil, Nat.mul_one]
        · rw [List.append_nil, lePuts_cons]
        · rw [List.prod_cons, ← Nat.mul_assoc]
    · rintro ⟨ds, hlen, hds, hprods, rfl, rfl⟩
      cases ds with
      | nil => exact absurd hlen nofun
      | cons d ds =>
        have hfirst : elements * d ≤ maxU64 := by
          cases hprods 0 with
          | inl h => simpa using h
          | inr h => exact absurd h nofun
        refine ⟨d, _, _, ⟨hds d List.mem_cons_self, rfl⟩, ?_, lePuts_cons 8 d ds⟩
        rw [if_neg (le_div_iff.mpr hfirst)]
        refine ⟨_, _, [], ⟨ds, Nat.succ.inj hlen, fun x hx => hds x (List.mem_cons_of_mem d hx), fun k => ?_, rfl, rfl⟩,
          ⟨?_, rfl⟩,
          (List.append_nil _).symm⟩
        · cases hprods (k + 1) with
          | inl h =>
            rw [List.take_succ_cons, List.prod_cons, ← Nat.mul_assoc] at h
            exact .inl h
          | inr h => exact absurd h nofun
        · rw [List.prod_cons, Nat.mul_assoc]

theorem exact_parseTensor : Exact parseTensor fun _ _ a b => ∃ t : TensorEntry, t.WF ∧ b = t.encode ∧ a = t.unplaced := by
  refine (exact_cursorString.bind fun name => (exact_uint truncated 4).bind fun ndim => ((exact_fail _).ite
    ((exact_parseDims ndim 1).bind fun a => (exact_uint truncated 4).bind fun type =>
      (exact_uint truncated 8).bind fun offset =>
        exact_pure (⟨name, a.1, type, offset, 0, a.2, (tensorNbytes type a.2).getD 0⟩ : Tensor)))).congr
    fun file pos a b => ?_
  constructor
  · rintro ⟨name, b₁, b₂, ⟨hname, rfl⟩, ⟨ndim, b₃, b₄, ⟨hn, rfl⟩, hrest, rfl⟩, rfl⟩
    split at hrest
    · exact hrest.elim
    · next hndim =>
      obtain ⟨_, b₅, b₆, ⟨ds, rfl, hds, hprods, rfl, rfl⟩, ⟨type, b₇, b₈, ⟨htype, rfl⟩, ⟨offset, b₉, b₁₀, ⟨hoffset, rfl⟩,
        ⟨rfl, rfl⟩, rfl⟩, rfl⟩, rfl⟩ := hrest
      rw [not_or] at hndim
      refine ⟨⟨name, ds, type, offset⟩, ⟨hname, ⟨Nat.pos_of_ne_zero hndim.1, Nat.le_of_not_lt hndim.2⟩, hds, fun k => ?_,
        htype, hoffset⟩,
        ?_, ?_⟩
      · cases k with
        | zero => exact Nat.le_of_ble_eq_true rfl
        | succ k =>
          cases hprods k with
          | inl h => rwa [Nat.one_mul] at h
          | inr h => exact absurd (congrArg List.length h) hndim.1
      · rw [List.append_nil]
        rfl
      · rw [Nat.one_mul]
        rfl
  · rintro ⟨⟨name, ds, type, offset⟩, ⟨hname, hndim, hds, hfits, htype, hoffset⟩, rfl, rfl⟩
    have hn : ds.length < 256 ^ 4 := Nat.lt_of_le_of_lt hndim.2 (by decide)
    refine ⟨name, _, _, ⟨hname, rfl⟩, ⟨ds.length, _, _, ⟨hn, rfl⟩, ?_, rfl⟩, rfl⟩
    have hndim' : ¬(ds.length = 0 ∨ ds.length > ds4MaxDims) := not_or.mpr ⟨Nat.ne_of_gt hndim.1, Nat.not_lt.mpr hndim.2⟩
    rw [if_neg hndim']
    refine ⟨_, _, _, ⟨ds, rfl, hds, fun k => .inl ?_, rfl, rfl⟩, ⟨type, _, _, ⟨htype, rfl⟩, ⟨offset, _, [], ⟨hoffset, rfl⟩,
      ⟨?_, rfl⟩, (List.append_nil _).symm⟩, rfl⟩, rfl⟩
    · rw [Nat.one_mul]
      exact hfits (k + 1)
    · rw [Nat.one_mul]
      rfl

end Ds4.Gguf
