import Mathlib.Data.List.Forall2
import Ds4.Gguf.Accepts

/-!
# Metadata of an accepted file

What the accessors answer, in terms of the document the file starts with. Of the entries with one key the first counts, and no
accessor runs into the end of the file.
-/

namespace Ds4.Gguf
open C Cursor

/-! ## Values of a document -/

namespace Entry

variable (e : Entry)

def text : Option Bytes := if e.type = typeString then some (e.value.drop 8) else none

def uint32 : Option Nat := if e.type = typeUint32 then some (leGet e.value) else none

def natural : Option Nat := if e.type = typeUint64 ∨ e.type = typeUint32 then some (leGet e.value) else none

def boolean : Option Bool := if e.type = typeBool then some (leGet e.value ≠ 0) else none

/-- The value when its type is one of the four that a token id may have. -/
def integer : Option Int :=
  if e.type = typeUint32 ∨ e.type = typeUint64 then some (leGet e.value)
  else if e.type = typeInt32 then some (Model.signedOf 4 (leGet e.value))
  else if e.type = typeInt64 then some (Model.signedOf 8 (leGet e.value))
  else none

end Entry

namespace Doc

def find (d : Doc) (key : Bytes) : Option Entry := d.entries.find? fun e => e.key = key

/-- The entry is an array of these items. -/
def Array (d : Doc) (key : Bytes) (type : Nat) (items : List Bytes) : Prop :=
  ∃ e, d.find key = some e ∧ e.type = typeArray ∧ e.value = lePut 4 type ++ (lePut 8 items.length ++ items.flatten) ∧
    type < 256 ^ 4 ∧ items.length < 256 ^ 8 ∧ ∀ b ∈ items, Encoded 8 type b

/-- The document is at the start of a file. -/
structure At (d : Doc) (file : Bytes) : Prop where
  wf : d.WF
  encode : d.encode <+: file

end Doc

/-! ## Accessors -/

theorem find_stands {file : Bytes} {es : List Entry} {kvs : List Kv} (h : List.Forall₂ (Stands file) es kvs) (key : Bytes) :
    Option.Rel (Stands file) (es.find? fun e => e.key = key) (kvs.find? fun kv => kv.key = key) := by
  induction h with
  | nil => exact .none
  | cons hstands _ ih =>
    rw [List.find?_cons, List.find?_cons, hstands.1]
    split
    · exact .some hstands
    · exact ih

theorem Encoded.text {levels : Nat} {b : Bytes} (hb : Encoded levels typeString b) :
    (b.drop 8).length < 256 ^ 8 ∧ b = lePut 8 (b.drop 8).length ++ b.drop 8 := by
  cases hb with
  | scalar hs _ => exact absurd scalarValueSize_string hs
  | string hs =>
    rw [List.drop_left' (length_lePut ..)]
    exact ⟨hs, rfl⟩

/-- Bytes of a length that is a multiple of `k` are that many pieces of `k` bytes. -/
theorem exists_pieces (k n : Nat) (b : Bytes) (hlen : b.length = n * k) :
    ∃ items : List Bytes, items.length = n ∧ (∀ i ∈ items, i.length = k) ∧ b = items.flatten := by
  induction n generalizing b with
  | zero =>
    rw [Nat.zero_mul, List.length_eq_zero_iff] at hlen
    exact ⟨[], rfl, nofun, hlen⟩
  | succ n ih =>
    rw [Nat.succ_mul] at hlen
    obtain ⟨items, hn, hitems, heq⟩ := ih (b.drop k) (by rw [List.length_drop]; omega)
    refine ⟨b.take k :: items, congrArg Nat.succ hn, List.forall_mem_cons.mpr ⟨List.length_take_of_le (by omega), hitems⟩, ?_⟩
    rw [List.flatten_cons, ← heq, List.take_append_drop]

/-- Arrays of numbers and other arrays have items alike. -/
theorem Encoded.items {levels : Nat} {b : Bytes} (hb : Encoded (levels + 2) typeArray b) :
    ∃ (itemType : Nat) (items : List Bytes), itemType < 256 ^ 4 ∧ items.length < 256 ^ 8 ∧
      b = lePut 4 itemType ++ (lePut 8 items.length ++ items.flatten) ∧ ∀ i ∈ items, Encoded (levels + 1) itemType i := by
  cases hb with
  | scalar hs _ => exact absurd scalarValueSize_array hs
  | scalars hi hs hlen _ hb =>
    obtain ⟨items, rfl, hitems, rfl⟩ := exists_pieces _ _ _ hb
    exact ⟨_, items, hi, hlen, rfl, fun i hmem => .scalar hs (hitems i hmem)⟩
  | array hi _ hlen hitems => exact ⟨_, _, hi, hlen, rfl, hitems⟩

theorem exact_readArray : Exact Model.readArray fun _ pos ref b =>
    ref.type < 256 ^ 4 ∧ ref.len < 256 ^ 8 ∧ b = lePut 4 ref.type ++ lePut 8 ref.len ∧ ref.dataPos = pos + b.length := by
  refine ((exact_uint truncated 4).bind fun type => (exact_uint truncated 8).bind fun len => exact_position.bind fun dataPos =>
    exact_pure (⟨type, len, dataPos⟩ : Model.ArrayRef)).congr fun file pos ref b => ?_
  constructor
  · rintro ⟨type, b₁, b₂, ⟨ht, rfl⟩, ⟨len, b₃, b₄, ⟨hl, rfl⟩, ⟨dataPos, b₅, b₆, ⟨rfl, rfl⟩, ⟨rfl, rfl⟩, rfl⟩, rfl⟩, rfl⟩
    refine ⟨ht, hl, ?_, ?_⟩
    · simp only [List.append_nil]
    · simp only [List.append_nil, List.length_append, Nat.add_assoc]
  · rintro ⟨ht, hl, rfl, hpos⟩
    obtain ⟨type, len, dataPos⟩ := ref
    refine ⟨type, _, _, ⟨ht, rfl⟩, ⟨len, _, [], ⟨hl, rfl⟩, ⟨_, [], [], ⟨rfl, rfl⟩, ⟨?_, rfl⟩, rfl⟩, (List.append_nil _).symm⟩,
      rfl⟩
    rw [show dataPos = _ from hpos, List.length_append, Nat.add_assoc]

theorem Doc.Array.unique {d : Doc} {key : Bytes} {type type' : Nat} {items items' : List Bytes} (h : d.Array key type items)
    (h' : d.Array key type' items') : type = type' ∧ items.length = items'.length ∧ items.flatten = items'.flatten := by
  obtain ⟨e, hfind, -, hvalue, htlt, hlt, -⟩ := h
  obtain ⟨e', hfind', -, hvalue', htlt', hlt', -⟩ := h'
  obtain rfl : e = e' := Option.some.inj (hfind.symm.trans hfind')
  rw [hvalue] at hvalue'
  obtain ⟨htype, hrest⟩ := List.append_inj hvalue' (by rw [length_lePut, length_lePut])
  obtain ⟨hlen, hflat⟩ := List.append_inj hrest (by rw [length_lePut, length_lePut])
  exact ⟨by rw [← leGet_lePut htlt, htype, leGet_lePut htlt'], by rw [← leGet_lePut hlt, hlen, leGet_lePut hlt'], hflat⟩

/-- A filter on naturals agrees with one on the integers they stand for. -/
theorem filter_toNat {n : Nat} {z : Int} {p : Nat → Prop} {q : Int → Prop} [DecidablePred p] [DecidablePred q] (hpq : p n ↔ q z)
    (hz : q z → z.toNat = n) : (some n).filter (fun n => p n) = ((some z).filter fun z => q z).map Int.toNat := by
  by_cases hq : q z
  · rw [Option.filter_some, Option.filter_some, if_pos (decide_eq_true (hpq.mpr hq)), if_pos (decide_eq_true hq),
      Option.map_some, hz hq]
  · rw [Option.filter_some, Option.filter_some, if_neg fun h => hq (hpq.mp (of_decide_eq_true h)),
      if_neg fun h => hq (of_decide_eq_true h)]
    rfl

theorem signedOf_nonneg {k n : Nat} (hn : n < 256 ^ k) (h : 0 ≤ Model.signedOf k n) : (Model.signedOf k n).toNat = n := by
  rw [Model.signedOf] at h ⊢
  split
  · exact Int.toNat_natCast n
  · next hs =>
    rw [if_neg hs] at h
    have hlt : (n : Int) < (256 : Int) ^ k := by
      rw [show (256 : Int) ^ k = ((256 ^ k : Nat) : Int) from (Int.natCast_pow 256 k).symm]
      exact Int.ofNat_lt.mpr hn
    omega

theorem read_array {d : Doc} {file : Bytes} {e : Entry} {kv : Kv} (hstands : Stands file e kv) (he : e.WF)
    (htype : e.type = typeArray) :
    ∃ (ref : Model.ArrayRef) (items : List Bytes), (d.model file).read kv Model.readArray = some ref ∧
      e.value = lePut 4 ref.type ++ (lePut 8 items.length ++ items.flatten) ∧ ref.len = items.length ∧
      ref.type < 256 ^ 4 ∧ items.length < 256 ^ 8 ∧ (∀ b ∈ items, Encoded 8 ref.type b) ∧ ref.dataPos ≤ file.length ∧
        items.flatten <+: file.drop ref.dataPos := by
  obtain ⟨itemType, items, hi, hlen, heq, hitems⟩ := (htype ▸ he.value).items
  have hpre := hstands.2.2.2
  have hle := hpre.length_le
  rw [heq, ← List.append_assoc] at hpre hle
  rw [List.length_append, List.length_drop] at hle
  have hpos := hstands.2.2.1
  refine ⟨⟨itemType, items.length, kv.valuePos + (lePut 4 itemType ++ lePut 8 items.length).length⟩, items, ?_, heq, rfl, hi,
    hlen, hitems, ?_, ?_⟩
  · exact (readAt_iff exact_readArray hpos _).mpr ⟨_, ⟨hi, hlen, rfl, rfl⟩, (List.prefix_append ..).trans hpre⟩
  · show kv.valuePos + _ ≤ _
    omega
  · obtain ⟨u, hu⟩ := hpre
    rw [← List.drop_drop, ← hu, List.append_assoc, List.drop_left]
    exact List.prefix_append ..

section
variable {d : Doc} {file : Bytes} (h : d.At file)
include h

theorem findKv_stands (key : Bytes) : Option.Rel (Stands file) (d.find key) ((d.model file).findKv key) := by
  refine find_stands (stands_place ?_ ?_) key
  · have hle := h.encode.length_le
    have hlen := d.length_encode
    omega
  · obtain ⟨u, hu⟩ := h.encode
    rw [← hu, Doc.encode, List.append_assoc, List.drop_left, List.append_assoc]
    exact List.prefix_append ..

theorem find_wf {key : Bytes} {e : Entry} (hfind : d.find key = some e) : e.WF :=
  h.wf.entries e (List.mem_of_find?_eq_some hfind)

/-- An accessor answers what an entry says when it does so at the entry's position. -/
theorem bind_findKv {β : Type} {g : Kv → Option β} {g' : Entry → Option β}
    (hg : ∀ e kv, Stands file e kv → e.WF → g kv = g' e) (key : Bytes) :
    ((d.model file).findKv key).bind g = (d.find key).bind g' := by
  have hrel := findKv_stands h key
  cases hfind : d.find key with
  | none =>
    rw [hfind] at hrel
    cases hkv : (d.model file).findKv key with
    | none => rfl
    | some kv => rw [hkv] at hrel; cases hrel
  | some e =>
    rw [hfind] at hrel
    cases hkv : (d.model file).findKv key with
    | none => rw [hkv] at hrel; cases hrel
    | some kv =>
      rw [hkv] at hrel
      cases hrel with
      | some hstands => exact hg e kv hstands (h.wf.entries e (List.mem_of_find?_eq_some hfind))

theorem getU32_eq (key : Bytes) : (d.model file).getU32 key = (d.find key).bind Entry.uint32 := by
  refine bind_findKv h (fun e kv hstands he => ?_) key
  rw [Entry.uint32, hstands.2.1]
  split
  · next htype => exact readAt_uint hstands he (by decide) (by rw [htype]; rfl)
  · rfl

theorem getString_eq (key : Bytes) : (d.model file).getString key = (d.find key).bind Entry.text := by
  refine bind_findKv h (fun e kv hstands he => ?_) key
  rw [Entry.text, hstands.2.1]
  split
  · next htype =>
    obtain ⟨hlen, heq⟩ := (htype ▸ he.value).text
    exact (readAt_iff exact_cursorString hstands.2.2.1 _).mpr ⟨e.value, ⟨hlen, heq⟩, hstands.2.2.2⟩
  · rfl

theorem getBool_eq (key : Bytes) : (d.model file).getBool key = (d.find key).bind Entry.boolean := by
  refine bind_findKv h (fun e kv hstands he => ?_) key
  rw [Entry.boolean, hstands.2.1]
  split
  · next htype =>
    rw [Model.read, Doc.model, readAt_uint hstands he (by decide) (by rw [htype]; rfl)]
    rfl
  · rfl

theorem getU64Compat_eq (key : Bytes) : (d.model file).getU64Compat key = (d.find key).bind Entry.natural := by
  refine bind_findKv h (fun e kv hstands he => ?_) key
  rw [Entry.natural, hstands.2.1]
  by_cases h64 : e.type = typeUint64
  · rw [if_pos h64, if_pos (.inl h64)]
    exact readAt_uint hstands he (by decide) (by rw [h64]; rfl)
  · by_cases h32 : e.type = typeUint32
    · rw [if_neg h64, if_pos h32, if_pos (.inr h32)]
      exact readAt_uint hstands he (by decide) (by rw [h32]; rfl)
    · rw [if_neg h64, if_neg h32, if_neg (not_or.mpr ⟨h64, h32⟩)]

/-- A token id is the integer of the entry when it is from zero to the largest `int`. -/
theorem getTokenId_eq (key : Bytes) : (d.model file).getTokenId key =
    (d.find key).bind fun e => (e.integer.filter fun n : Int => 0 ≤ n ∧ n ≤ Model.intMax).map Int.toNat := by
  refine bind_findKv h (fun e kv hstands he => ?_) key
  have hread : ∀ k ≠ 0, scalarValueSize e.type = k →
      (d.model file).read kv (uint truncated k) = some (leGet e.value) := fun k hk htype => readAt_uint hstands he hk htype
  have hlt : ∀ k ≠ 0, scalarValueSize e.type = k → leGet e.value < 256 ^ k := by
    intro k hk htype
    have hlen := he.value.length_of_scalar (htype ▸ hk)
    rw [htype] at hlen
    exact hlen ▸ leGet_lt e.value
  rw [hstands.2.1, Entry.integer]
  by_cases hu32 : e.type = typeUint32
  · rw [if_pos hu32, cursorU32, hread 4 (by decide) (by rw [hu32]; rfl), if_pos (.inl hu32)]
    exact filter_toNat (by omega) fun _ => rfl
  · rw [if_neg hu32]
    by_cases hi32 : e.type = typeInt32
    · have hn := hlt 4 (by decide) (by rw [hi32]; rfl)
      rw [if_pos hi32, cursorU32, hread 4 (by decide) (by rw [hi32]; rfl), if_neg (by rw [hi32]; decide), if_pos hi32]
      refine filter_toNat ⟨fun h => ⟨h, ?_⟩, And.left⟩ fun h => signedOf_nonneg hn h.1
      have := signedOf_nonneg hn h
      rw [Model.signedOf] at h ⊢
      split
      · next hs =>
        rw [Model.intMax]
        omega
      · next hs =>
        rw [if_neg hs] at h
        omega
    · rw [if_neg hi32]
      by_cases hu64 : e.type = typeUint64
      · rw [if_pos hu64, cursorU64, hread 8 (by decide) (by rw [hu64]; rfl), if_pos (.inr hu64)]
        exact filter_toNat (by omega) fun _ => rfl
      · rw [if_neg hu64, if_neg (not_or.mpr ⟨hu32, hu64⟩), if_neg hi32]
        by_cases hi64 : e.type = typeInt64
        · have hn := hlt 8 (by decide) (by rw [hi64]; rfl)
          rw [if_pos hi64, cursorU64, hread 8 (by decide) (by rw [hi64]; rfl), if_pos hi64]
          exact filter_toNat Iff.rfl fun h => signedOf_nonneg hn h.1
        · rw [if_neg hi64, if_neg hi64]
          rfl

/-- The array that is found is the entry's, and its items stand at the position that is kept. -/
theorem getArray_some {key : Bytes} {ref : Model.ArrayRef} (hget : (d.model file).getArray key = some ref) :
    ∃ items, d.Array key ref.type items ∧ ref.len = items.length ∧ ref.dataPos ≤ file.length ∧
      items.flatten <+: file.drop ref.dataPos := by
  have hrel := findKv_stands h key
  rw [Model.getArray] at hget
  cases hkv : (d.model file).findKv key with
  | none =>
    rw [hkv] at hget
    cases hget
  | some kv =>
    rw [hkv] at hget hrel
    change (if kv.type = typeArray then _ else _) = _ at hget
    cases hfind : d.find key with
    | none =>
      rw [hfind] at hrel
      cases hrel
    | some e =>
      rw [hfind] at hrel
      cases hrel with
      | some hstands =>
        by_cases htype : kv.type = typeArray
        · have htype' := hstands.2.1 ▸ htype
          rw [if_pos htype] at hget
          obtain ⟨ref', items, hread, heq, hlen, htlt, hlt, hitems, hpos, hpre⟩ := read_array hstands
            (h.wf.entries e (List.mem_of_find?_eq_some hfind)) htype'
          obtain rfl : ref' = ref := Option.some.inj (hread.symm.trans hget)
          exact ⟨items, ⟨e, hfind, htype', heq, htlt, hlt, hitems⟩, hlen, hpos, hpre⟩
        · rw [if_neg htype] at hget
          cases hget

theorem getArray_isSome {key : Bytes} {e : Entry} (hfind : d.find key = some e) (htype : e.type = typeArray) :
    ((d.model file).getArray key).isSome := by
  have hrel := findKv_stands h key
  rw [hfind] at hrel
  cases hkv : (d.model file).findKv key with
  | none =>
    rw [hkv] at hrel
    cases hrel
  | some kv =>
    rw [hkv] at hrel
    cases hrel with
    | some hstands =>
      obtain ⟨ref, _, hread, -⟩ := read_array (d := d) hstands (h.wf.entries e (List.mem_of_find?_eq_some hfind)) htype
      rw [Model.getArray, hkv]
      change (if kv.type = typeArray then _ else _ : Option Model.ArrayRef).isSome
      rw [if_pos (hstands.2.1.trans htype), hread]
      rfl

end

/-- What the accessors answer on an accepted file. Each decodes the first entry with the key when that has a type it takes,
and says that there is none otherwise; the items of an array stand where the accessor says. -/
theorem metadata_decoded {file : Bytes} (hfile : file.length < 2 ^ 63) {m : Model} (hopen : modelOpen file = .ok m) :
    ∃ d : Doc, d.At file ∧ ∀ key, m.getString key = (d.find key).bind Entry.text ∧
      m.getU32 key = (d.find key).bind Entry.uint32 ∧
      m.getU64Compat key = (d.find key).bind Entry.natural ∧ m.getBool key = (d.find key).bind Entry.boolean ∧
      (m.getTokenId key = (d.find key).bind fun e => (e.integer.filter fun n : Int => 0 ≤ n ∧ n ≤ Model.intMax).map Int.toNat) ∧
      (∀ ref, m.getArray key = some ref → ∃ items, d.Array key ref.type items ∧ ref.len = items.length ∧
        items.flatten <+: file.drop ref.dataPos) ∧
      (m.getArray key = none → ∀ e, d.find key = some e → e.type ≠ typeArray) := by
  obtain ⟨-, d, hwf, hpre, -, rfl⟩ := (modelOpen_iff file hfile m).mp hopen
  have h : d.At file := ⟨hwf, hpre⟩
  refine ⟨d, h, fun key => ⟨getString_eq h key, getU32_eq h key, getU64Compat_eq h key, getBool_eq h key, getTokenId_eq h key,
    ?_, ?_⟩⟩
  · intro ref hget
    obtain ⟨items, harray, hlen, -, hstands⟩ := getArray_some h hget
    exact ⟨items, harray, hlen, hstands⟩
  · intro hnone e hfind htype
    have hsome := getArray_isSome h hfind htype
    rw [hnone] at hsome
    cases hsome

theorem metadata_decoded_weight : ∃ d : Doc, d.At weightFile ∧
    (weightDoc.model weightFile).getU32 (lit "general.alignment") = (d.find (lit "general.alignment")).bind Entry.uint32 := by
  obtain ⟨d, h, hall⟩ := metadata_decoded weightFile_open.2 weightFile_open.1
  exact ⟨d, h, (hall _).2.1⟩

end Ds4.Gguf
