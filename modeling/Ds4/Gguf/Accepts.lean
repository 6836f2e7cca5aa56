import Ds4.Gguf.Directory

/-!
# Accepted files

`modelOpen_iff` says which files the loader accepts and what it keeps of them; the accessors and the extents of the tensors are
consequences.
-/

namespace Ds4.Gguf
open C Cursor

structure Doc where
  entries : List Entry
  tensors : List TensorEntry

namespace Doc

structure WF (d : Doc) : Prop where
  entries : ∀ e ∈ d.entries, e.WF
  tensors : ∀ t ∈ d.tensors, t.WF
  nEntries : d.entries.length < 256 ^ 8
  nTensors : d.tensors.length < 256 ^ 8

def header (d : Doc) : Bytes :=
  lePut 4 ggufMagic ++ (lePut 4 3 ++ (lePut 8 d.tensors.length ++ lePut 8 d.entries.length))

def encode (d : Doc) : Bytes := d.header ++ (d.entries.flatMap Entry.encode ++ d.tensors.flatMap TensorEntry.encode)

/-- The alignment behind an entry. -/
def noteEntry (alignment : Nat) (e : Entry) : Nat :=
  if e.key = lit "general.alignment" ∧ e.type = typeUint32 ∧ leGet e.value ≠ 0 then leGet e.value else alignment

/-- The last alignment that is a `uint32` other than zero, or 32. -/
def alignment (d : Doc) : Nat := d.entries.foldl noteEntry 32

/-- Where the tensor data start. -/
def dataPos (d : Doc) : Nat := alignUp d.encode.length d.alignment

def kvs (d : Doc) : List Kv := place Entry.toKv Entry.encode d.header.length d.entries

def placed (d : Doc) : List Tensor := d.tensors.map (TensorEntry.toTensor d.dataPos)

/-- The tensors with data lie in a file of this size. -/
def Fits (d : Doc) (size : Nat) : Prop :=
  ∀ t ∈ d.tensors, d.dataPos + t.offset ≤ maxU64 ∧ (t.bytes ≠ 0 → d.dataPos + t.offset + t.bytes ≤ size)

def model (d : Doc) (map : Bytes) : Model :=
  ⟨map, d.alignment, d.dataPos, d.placed.foldl (fun n t => max n t.bytes) 0, d.kvs, d.placed⟩

end Doc

/-! ## The directory -/

theorem exact_checkCount (n : Nat) (msg : String) :
    Exact (checkCount n msg) fun file pos _ b => n ≤ file.length - pos ∧ b = [] := by
  intro file pos _ a pos'
  rw [checkCount]
  split
  · next h =>
    refine ⟨nofun, ?_⟩
    rintro ⟨b, ⟨hn, -⟩, -⟩
    exact absurd h (Nat.not_lt.mpr hn)
  · next h =>
    constructor
    · intro heq
      cases heq
      exact ⟨[], ⟨Nat.le_of_not_lt h, rfl⟩, List.nil_prefix, rfl⟩
    · rintro ⟨b, ⟨-, rfl⟩, -, rfl⟩
      rfl

theorem exact_parseMetadata (n : Nat) : Exact (parseMetadata n) fun file pos kvs b =>
    ∃ es : List Entry, es.length = n ∧ (∀ e ∈ es, e.WF) ∧ n ≤ file.length - pos ∧ b = es.flatMap Entry.encode ∧
      kvs = place Entry.toKv Entry.encode pos es := by
  refine ((exact_checkCount n _).bind fun _ => exact_parseKv.times n).congr fun file pos kvs b => ?_
  constructor
  · rintro ⟨_, b₁, b₂, ⟨hn, rfl⟩, ⟨hlen, hrow⟩, rfl⟩
    obtain ⟨es, hes, rfl, rfl⟩ := row_iff.mp hrow
    rw [length_place] at hlen
    exact ⟨es, hlen, hes, hn, rfl, rfl⟩
  · rintro ⟨es, rfl, hes, hn, rfl, rfl⟩
    exact ⟨(), [], _, ⟨hn, rfl⟩, ⟨length_place .., row_iff.mpr ⟨es, hes, rfl, rfl⟩⟩, rfl⟩

theorem place_const {f : TensorEntry → Tensor} (pos : Nat) (ts : List TensorEntry) :
    place (fun _ => f) TensorEntry.encode pos ts = ts.map f := by
  induction ts generalizing pos with
  | nil => rfl
  | cons t ts ih => exact congrArg _ (ih _)

theorem exact_parseTensors (n alignment : Nat) : Exact (parseTensors n alignment) fun file pos a b =>
    ∃ ts : List TensorEntry, ts.length = n ∧ (∀ t ∈ ts, t.WF) ∧ n ≤ file.length - pos ∧ b = ts.flatMap TensorEntry.encode ∧
      a = (ts.map TensorEntry.unplaced, alignUp (pos + b.length) alignment) := by
  refine ((exact_checkCount n _).bind fun _ => (exact_parseTensor.times n).bind fun ts => exact_position.bind fun pos =>
    exact_pure (ts, alignUp pos alignment)).congr fun file pos a b => ?_
  constructor
  · rintro ⟨_, b₁, b₂, ⟨hn, rfl⟩, ⟨_, b₃, b₄, ⟨hlen, hrow⟩, ⟨_, b₅, b₆, ⟨rfl, rfl⟩, ⟨rfl, rfl⟩, rfl⟩, rfl⟩, rfl⟩
    obtain ⟨ts, hts, rfl, rfl⟩ := row_iff.mp hrow
    rw [length_place] at hlen
    refine ⟨ts, hlen, hts, hn, by simp only [List.nil_append, List.append_nil], ?_⟩
    rw [place_const]
    simp only [List.nil_append, List.append_nil, List.length_nil, Nat.add_zero]
  · rintro ⟨ts, rfl, hts, hn, rfl, rfl⟩
    refine ⟨(), [], _, ⟨hn, rfl⟩, ⟨_, _, [], ⟨length_place .., row_iff.mpr ⟨ts, hts, rfl, rfl⟩⟩, ⟨_, [], [], ⟨rfl, rfl⟩,
      ⟨?_, rfl⟩, rfl⟩, (List.append_nil _).symm⟩, rfl⟩
    rw [place_const]
    rfl

/-- The alignment when the metadata is as read. -/
def alignmentOf (file : Bytes) (kvs : List Kv) : Nat := kvs.foldl (fun alignment kv => noteAlignment file kv alignment) 32

theorem exact_readEntries (nTensors nKv : Nat) : Exact (readEntries nTensors nKv) fun file pos a b =>
    ∃ (es : List Entry) (ts : List TensorEntry), es.length = nKv ∧ ts.length = nTensors ∧ (∀ e ∈ es, e.WF) ∧ (∀ t ∈ ts, t.WF) ∧
      nKv ≤ file.length - pos ∧
      nTensors ≤ file.length - (pos + (es.flatMap Entry.encode).length) ∧
      b = es.flatMap Entry.encode ++ ts.flatMap TensorEntry.encode ∧
      a = (place Entry.toKv Entry.encode pos es, ts.map TensorEntry.unplaced,
        alignmentOf file (place Entry.toKv Entry.encode pos es),
        alignUp (pos + b.length) (alignmentOf file (place Entry.toKv Entry.encode pos es))) := by
  refine ((exact_parseMetadata nKv).bind fun kv => exact_file.bind fun map =>
    (exact_parseTensors nTensors (alignmentOf map kv)).bind fun x =>
      exact_pure (kv, x.1, alignmentOf map kv, x.2)).congr fun file pos a b => ?_
  constructor
  · rintro ⟨_, b₁, b₂, ⟨es, rfl, hes, hne, rfl, rfl⟩, ⟨_, b₃, b₄, ⟨rfl, rfl⟩, ⟨_, b₅, b₆, ⟨ts, rfl, hts, hnt, rfl, rfl⟩,
      ⟨rfl, rfl⟩, rfl⟩, rfl⟩, rfl⟩
    refine ⟨es, ts, rfl, rfl, hes, hts, hne, hnt, ?_, ?_⟩
    · rw [List.append_nil, List.nil_append]
    · simp only [List.append_nil, List.nil_append, List.length_append, List.length_nil, Nat.add_zero, Nat.add_assoc]
  · rintro ⟨es, ts, rfl, rfl, hes, hts, hne, hnt, rfl, rfl⟩
    refine ⟨_, _, _, ⟨es, rfl, hes, hne, rfl, rfl⟩, ⟨_, [], _, ⟨rfl, rfl⟩, ⟨_, _, [], ⟨ts, rfl, hts, hnt, rfl, rfl⟩,
      ⟨?_, rfl⟩, (List.append_nil _).symm⟩, rfl⟩, rfl⟩
    simp only [List.length_append, List.length_nil, Nat.add_zero, Nat.add_assoc]

theorem exact_readDirectory : Exact readDirectory fun file pos a b =>
    ∃ d : Doc, d.WF ∧ b = d.encode ∧ d.entries.length ≤ file.length - (pos + d.header.length) ∧
      d.tensors.length ≤ file.length - (pos + d.header.length + (d.entries.flatMap Entry.encode).length) ∧
      a = (place Entry.toKv Entry.encode (pos + d.header.length) d.entries, d.tensors.map TensorEntry.unplaced,
        alignmentOf file (place Entry.toKv Entry.encode (pos + d.header.length) d.entries),
        alignUp (pos + b.length) (alignmentOf file (place Entry.toKv Entry.encode (pos + d.header.length) d.entries))) := by
  refine ((exact_uint truncated 4).bind fun magic => (exact_fail _).ite ((exact_uint truncated 4).bind fun version =>
    (exact_uint truncated 8).bind fun nTensors => (exact_uint truncated 8).bind fun nKv => (exact_fail _).ite
      (exact_readEntries nTensors nKv))).congr fun file pos a b => ?_
  have hhead : ∀ d : Doc, pos + (lePut 4 ggufMagic).length + (lePut 4 3).length + (lePut 8 d.tensors.length).length +
      (lePut 8 d.entries.length).length = pos + d.header.length :=
    fun d => by simp only [Doc.header, List.length_append, Nat.add_assoc]
  constructor
  · rintro ⟨magic, b₁, b₂, ⟨-, rfl⟩, hrest, rfl⟩
    split at hrest
    · exact hrest.elim
    · next hmagic =>
      obtain ⟨version, b₃, b₄, ⟨-, rfl⟩, ⟨_, b₅, b₆, ⟨hnt, rfl⟩, ⟨_, b₇, b₈, ⟨hne, rfl⟩, hrest, rfl⟩, rfl⟩, rfl⟩ := hrest
      split at hrest
      · exact hrest.elim
      · next hversion =>
        obtain ⟨es, ts, rfl, rfl, hes, hts, hke, hkt, rfl, rfl⟩ := hrest
        rw [not_not] at hmagic hversion
        subst hmagic hversion
        rw [hhead ⟨es, ts⟩] at hke hkt
        refine ⟨⟨es, ts⟩, ⟨hes, hts, hne, hnt⟩, ?_, hke, hkt, ?_⟩
        · simp only [Doc.encode, Doc.header, List.append_assoc]
        · rw [hhead ⟨es, ts⟩, ← hhead ⟨es, ts⟩]
          simp only [List.length_append, Nat.add_assoc]
  · rintro ⟨⟨es, ts⟩, ⟨hes, hts, hne, hnt⟩, rfl, hke, hkt, rfl⟩
    rw [← hhead ⟨es, ts⟩] at hke hkt
    have hrest : (Doc.encode ⟨es, ts⟩) = lePut 4 ggufMagic ++ (lePut 4 3 ++ (lePut 8 ts.length ++ (lePut 8 es.length ++
        (es.flatMap Entry.encode ++ ts.flatMap TensorEntry.encode)))) := by
      simp only [Doc.encode, Doc.header, List.append_assoc]
    refine ⟨ggufMagic, _, _, ⟨by decide, rfl⟩, ?_, hrest⟩
    rw [if_neg (not_not.mpr rfl)]
    refine ⟨3, _, _, ⟨by decide, rfl⟩, ⟨ts.length, _, _, ⟨hnt, rfl⟩, ⟨es.length, _, _, ⟨hne, rfl⟩, ?_, rfl⟩, rfl⟩, rfl⟩
    rw [if_neg (not_not.mpr rfl)]
    refine ⟨es, ts, rfl, rfl, hes, hts, hke, hkt, rfl, ?_⟩
    rw [hrest, hhead ⟨es, ts⟩, ← hhead ⟨es, ts⟩]
    simp only [List.length_append, Nat.add_assoc]

/-! ## The values -/

/-- A reader at a position inside the file. -/
theorem readAt_iff {r : Reader α} {E : Bytes → Nat → α → Bytes → Prop} (hr : Exact r E) {file : Bytes} {p : Nat}
    (hp : p ≤ file.length) (a : α) : readAt p file r = some a ↔ ∃ b, E file p a b ∧ b <+: file.drop p := by
  have hiff := hr file p hp a
  rw [readAt]
  split
  · next a' pos' heq =>
    constructor
    · intro h
      cases h
      obtain ⟨b, hE, hpre, -⟩ := (hiff pos').mp heq
      exact ⟨b, hE, hpre⟩
    · rintro ⟨b, hE, hpre⟩
      have h := (hiff _).mpr ⟨b, hE, hpre, rfl⟩
      rw [heq] at h
      cases h
      rfl
  · next e heq =>
    refine ⟨nofun, ?_⟩
    rintro ⟨b, hE, hpre⟩
    have h := (hiff _).mpr ⟨b, hE, hpre, rfl⟩
    rw [heq] at h
    exact absurd h nofun

/-- The value of the entry stands at the position that is kept of it. -/
def Stands (file : Bytes) (e : Entry) (kv : Kv) : Prop :=
  kv.key = e.key ∧ kv.type = e.type ∧ kv.valuePos ≤ file.length ∧ e.value <+: file.drop kv.valuePos

theorem stands_toKv {file : Bytes} {pos : Nat} {e : Entry} (hpos : pos ≤ file.length) (h : e.encode <+: file.drop pos) :
    Stands file e (e.toKv pos) := by
  have hle := h.length_le
  have hlen : e.encode.length =
      (lePut 8 e.key.length ++ e.key).length + ((lePut 4 e.type).length + e.value.length) := by
    simp only [Entry.encode, List.length_append]
  rw [List.length_drop] at hle
  refine ⟨rfl, rfl, ?_, ?_⟩
  · show pos + _ + _ ≤ _
    omega
  · obtain ⟨u, hu⟩ := h
    show e.value <+: file.drop (pos + _ + _)
    rw [← List.drop_drop, ← List.drop_drop, ← hu, Entry.encode, List.append_assoc, List.drop_left, List.append_assoc,
      List.drop_left]
    exact List.prefix_append ..

/-- The entries of a document and what is kept of them go side by side. -/
theorem stands_place {file : Bytes} {pos : Nat} {es : List Entry} (hpos : pos ≤ file.length)
    (h : es.flatMap Entry.encode <+: file.drop pos) :
    List.Forall₂ (Stands file) es (place Entry.toKv Entry.encode pos es) := by
  induction es generalizing pos with
  | nil => exact .nil
  | cons e es ih =>
    rw [List.flatMap_cons] at h
    have hpre := (List.prefix_append _ _).trans h
    have hle := hpre.length_le
    rw [List.length_drop] at hle
    refine .cons (stands_toKv hpos hpre) (ih (by omega) ?_)
    obtain ⟨u, hu⟩ := hpre
    rw [← List.drop_drop, ← hu, List.drop_left]
    rw [← hu] at h
    exact (List.prefix_append_right_inj _).mp h

theorem Encoded.length_of_scalar {type : Nat} {b : Bytes} (h : Encoded levels type b) (hs : scalarValueSize type ≠ 0) :
    b.length = scalarValueSize type := by
  cases h with
  | scalar _ h => exact h
  | string _ => exact absurd scalarValueSize_string hs
  | scalars => exact absurd scalarValueSize_array hs
  | array => exact absurd scalarValueSize_array hs

/-- A number of the type that is asked for is read back. -/
theorem readAt_uint {file : Bytes} {e : Entry} {kv : Kv} (hstands : Stands file e kv) (he : e.WF) {k : Nat} (hk : k ≠ 0)
    (htype : scalarValueSize e.type = k) : readAt kv.valuePos file (uint truncated k) = some (leGet e.value) := by
  have hlen : e.value.length = k := htype ▸ he.value.length_of_scalar (htype ▸ hk)
  refine (readAt_iff (exact_uint truncated k) hstands.2.2.1 _).mpr ⟨e.value, ⟨?_, ?_⟩, hstands.2.2.2⟩
  · exact hlen ▸ leGet_lt e.value
  · rw [← hlen, lePut_leGet]

theorem noteAlignment_eq {file : Bytes} {e : Entry} {kv : Kv} (hstands : Stands file e kv) (he : e.WF) (alignment : Nat) :
    noteAlignment file kv alignment = Doc.noteEntry alignment e := by
  rw [noteAlignment, Doc.noteEntry, hstands.1, hstands.2.1]
  by_cases hkey : e.key = lit "general.alignment" ∧ e.type = typeUint32
  · have hread : readAt kv.valuePos file cursorU32 = some (leGet e.value) :=
      readAt_uint hstands he (by decide) (by rw [hkey.2]; rfl)
    rw [if_pos hkey, hread]
    simp only [hkey.1, hkey.2, true_and]
  · rw [if_neg hkey, if_neg fun h => hkey ⟨h.1, h.2.1⟩]

theorem alignmentOf_eq {file : Bytes} {es : List Entry} {kvs : List Kv} (hstands : List.Forall₂ (Stands file) es kvs)
    (hes : ∀ e ∈ es, e.WF) (alignment : Nat) :
    kvs.foldl (fun alignment kv => noteAlignment file kv alignment) alignment = es.foldl Doc.noteEntry alignment := by
  induction hstands generalizing alignment with
  | nil => rfl
  | cons h _ ih =>
    rw [List.foldl_cons, List.foldl_cons, noteAlignment_eq h (hes _ List.mem_cons_self),
      ih fun e he => hes e (List.mem_cons_of_mem _ he)]

/-! ## The tensors -/

theorem placeTensor_iff {dataPos size : Nat} (hdata : dataPos ≤ maxU64) (t : TensorEntry) (u : Tensor) :
    placeTensor dataPos size t.unplaced = .ok u ↔
      (dataPos + t.offset ≤ maxU64 ∧ (t.bytes ≠ 0 → dataPos + t.offset + t.bytes ≤ size)) ∧ u = t.toTensor dataPos := by
  rw [placeTensor]
  by_cases hover : t.unplaced.relOffset > maxU64 - dataPos
  · rw [if_pos hover]
    refine ⟨nofun, fun h => ?_⟩
    have : t.unplaced.relOffset = t.offset := rfl
    omega
  · rw [if_neg hover]
    have hover' : dataPos + t.offset ≤ maxU64 := by
      have : t.unplaced.relOffset = t.offset := rfl
      omega
    show (if t.bytes ≠ 0 ∧ (dataPos + t.offset > size ∨ t.bytes > size - (dataPos + t.offset)) then _ else _) = _ ↔ _
    split
    · next hout =>
      refine ⟨nofun, fun h => ?_⟩
      have := h.1.2 hout.1
      omega
    · next hin =>
      constructor
      · intro h
        cases h
        refine ⟨⟨hover', fun hb => ?_⟩, rfl⟩
        by_contra hle
        exact hin ⟨hb, by omega⟩
      · rintro ⟨-, rfl⟩
        rfl

theorem placeTensors_iff {dataPos size : Nat} (hdata : dataPos ≤ maxU64) (ts : List TensorEntry) (us : List Tensor) :
    placeTensors dataPos size (ts.map TensorEntry.unplaced) = .ok us ↔
      (∀ t ∈ ts, dataPos + t.offset ≤ maxU64 ∧ (t.bytes ≠ 0 → dataPos + t.offset + t.bytes ≤ size)) ∧
        us = ts.map (TensorEntry.toTensor dataPos) := by
  induction ts generalizing us with
  | nil =>
    constructor
    · intro h
      cases h
      exact ⟨nofun, rfl⟩
    · rintro ⟨-, rfl⟩
      rfl
  | cons t ts ih =>
    rw [List.map_cons, placeTensors, List.forall_mem_cons]
    constructor
    · intro h
      cases hfirst : placeTensor dataPos size t.unplaced with
      | error e =>
        rw [hfirst] at h
        exact absurd h nofun
      | ok u =>
        rw [hfirst] at h
        cases hrest : placeTensors dataPos size (ts.map TensorEntry.unplaced) with
        | error e =>
          simp only [hrest] at h
          exact absurd h nofun
        | ok us' =>
          simp only [hrest] at h
          cases h
          obtain ⟨ht, rfl⟩ := (placeTensor_iff hdata t u).mp hfirst
          obtain ⟨hts, rfl⟩ := (ih us').mp hrest
          exact ⟨⟨ht, hts⟩, rfl⟩
    · rintro ⟨⟨ht, hts⟩, rfl⟩
      rw [(placeTensor_iff hdata t _).mpr ⟨ht, rfl⟩]
      have hrest := (ih _).mpr ⟨hts, rfl⟩
      show (do let ts' ← placeTensors dataPos size (ts.map TensorEntry.unplaced)
               return t.toTensor dataPos :: ts') = _
      rw [hrest]
      rfl

theorem Entry.encode_pos (e : Entry) : 0 < e.encode.length := by
  rw [Entry.encode, List.append_assoc, List.length_append, length_lePut]
  omega

theorem TensorEntry.encode_pos (t : TensorEntry) : 0 < t.encode.length := by
  rw [TensorEntry.encode, List.append_assoc, List.length_append, length_lePut]
  omega

namespace Doc

variable {d : Doc}

theorem alignment_lt (h : d.WF) : d.alignment < 2 ^ 32 := by
  have hfold : ∀ es : List Entry, (∀ e ∈ es, e.WF) → ∀ a < 2 ^ 32, es.foldl noteEntry a < 2 ^ 32 := by
    intro es
    induction es with
    | nil => exact fun _ _ ha => ha
    | cons e es ih =>
      intro hes a ha
      refine ih (fun x hx => hes x (List.mem_cons_of_mem _ hx)) _ ?_
      rw [noteEntry]
      split
      · next hnote =>
        have hlen := (hes e List.mem_cons_self).value.length_of_scalar (by rw [hnote.2.1]; decide)
        rw [hnote.2.1] at hlen
        have := leGet_lt e.value
        rw [hlen] at this
        exact this
      · exact ha
  exact hfold d.entries h.entries 32 (by decide)

theorem alignUp_le (value alignment : Nat) : alignUp value alignment ≤ value + alignment := by
  rw [alignUp]
  split
  · exact Nat.le_add_right ..
  · exact Nat.sub_le ..

theorem dataPos_le (h : d.WF) (hlen : d.encode.length < 2 ^ 63) : d.dataPos ≤ maxU64 := by
  have halign := alignment_lt h
  have hle := alignUp_le d.encode.length d.alignment
  rw [dataPos, maxU64]
  omega

theorem length_le_flatMap {γ : Type} {enc : γ → Bytes} (henc : ∀ e, 0 < (enc e).length) (es : List γ) :
    es.length ≤ (es.flatMap enc).length := by
  induction es with
  | nil => exact Nat.le_refl 0
  | cons e es ih =>
    rw [List.flatMap_cons, List.length_append, List.length_cons]
    have := henc e
    omega

theorem length_encode (d : Doc) : d.encode.length =
    d.header.length + ((d.entries.flatMap Entry.encode).length + (d.tensors.flatMap TensorEntry.encode).length) := by
  rw [encode, List.length_append, List.length_append]

end Doc

/-- What is read of the directory of a document. -/
theorem readDirectory_iff {file : Bytes} (x : List Kv × List Tensor × Nat × Nat) (pos' : Nat) :
    readDirectory file 0 = .ok (x, pos') ↔ ∃ d : Doc, d.WF ∧ d.encode <+: file ∧
      x = (d.kvs, d.tensors.map TensorEntry.unplaced, d.alignment, d.dataPos) ∧ pos' = d.encode.length := by
  have hstart : ∀ d : Doc, d.WF → d.encode <+: file → alignmentOf file d.kvs = d.alignment := by
    intro d hwf hpre
    have hle := hpre.length_le
    have hlen := d.length_encode
    refine alignmentOf_eq (stands_place (by omega) ?_) hwf.entries 32
    obtain ⟨u, hu⟩ := hpre
    rw [← hu, Doc.encode, List.append_assoc, List.drop_left, List.append_assoc]
    exact List.prefix_append ..
  have hkvs : ∀ d : Doc, place Entry.toKv Entry.encode (0 + d.header.length) d.entries = d.kvs :=
    fun d => by rw [Nat.zero_add, Doc.kvs]
  rw [exact_readDirectory file 0 (Nat.zero_le _) x pos']
  constructor
  · rintro ⟨_, ⟨d, hwf, rfl, -, -, rfl⟩, hpre, rfl⟩
    refine ⟨d, hwf, hpre, ?_, Nat.zero_add _⟩
    rw [hkvs, hstart d hwf hpre, Nat.zero_add, Doc.dataPos]
  · rintro ⟨d, hwf, hpre, rfl, rfl⟩
    have hle := hpre.length_le
    have hlen := d.length_encode
    have hentries := Doc.length_le_flatMap Entry.encode_pos d.entries
    have htensors := Doc.length_le_flatMap TensorEntry.encode_pos d.tensors
    refine ⟨_, ⟨d, hwf, rfl, by omega, by omega, ?_⟩, hpre, (Nat.zero_add _).symm⟩
    rw [hkvs, hstart d hwf hpre, Nat.zero_add, Doc.dataPos]

/-- The loader accepts the files that start with a well-formed document whose tensors lie in the file, and what it keeps is the
document's. -/
theorem modelOpen_iff (file : Bytes) (hfile : file.length < 2 ^ 63) (m : Model) : modelOpen file = .ok m ↔
    32 ≤ file.length ∧ ∃ d : Doc, d.WF ∧ d.encode <+: file ∧ d.Fits file.length ∧ m = d.model file := by
  have hplace : ∀ d : Doc, d.dataPos ≤ maxU64 → ((do
      let tensors ← placeTensors d.dataPos file.length (d.tensors.map TensorEntry.unplaced)
      return ⟨file, d.alignment, d.dataPos, tensors.foldl (fun n t => max n t.bytes) 0, d.kvs, tensors⟩ : Except String Model) =
        .ok m ↔ d.Fits file.length ∧ m = d.model file) := by
    intro d hdata
    constructor
    · intro h
      cases htensors : placeTensors d.dataPos file.length (d.tensors.map TensorEntry.unplaced) with
      | error e =>
        rw [htensors] at h
        exact absurd h nofun
      | ok us =>
        rw [htensors] at h
        cases h
        obtain ⟨hfits, rfl⟩ := (placeTensors_iff hdata d.tensors us).mp htensors
        exact ⟨hfits, rfl⟩
    · rintro ⟨hfits, rfl⟩
      rw [(placeTensors_iff hdata d.tensors _).mpr ⟨hfits, rfl⟩]
      rfl
  rw [modelOpen]
  constructor
  · intro h
    split at h
    · exact absurd h nofun
    · next hsize =>
      refine ⟨Nat.le_of_not_lt hsize, ?_⟩
      cases hdir : readDirectory file 0 with
      | error e =>
        rw [hdir] at h
        exact absurd h nofun
      | ok a =>
        obtain ⟨a, pos'⟩ := a
        obtain ⟨d, hwf, hpre, rfl, rfl⟩ := (readDirectory_iff a pos').mp hdir
        rw [hdir] at h
        exact ⟨d, hwf, hpre, (hplace d (Doc.dataPos_le hwf (Nat.lt_of_le_of_lt hpre.length_le hfile))).mp h⟩
  · rintro ⟨hsize, d, hwf, hpre, hfits, rfl⟩
    rw [if_neg (Nat.not_lt.mpr hsize), (readDirectory_iff _ _).mpr ⟨d, hwf, hpre, rfl, rfl⟩]
    exact (hplace d (Doc.dataPos_le hwf (Nat.lt_of_le_of_lt hpre.length_le hfile))).mpr ⟨hfits, rfl⟩

/-! ## One document -/

theorem prefix_unique {a b s : Bytes} (ha : a <+: s) (hb : b <+: s) (hlen : a.length = b.length) : a = b := by
  rw [List.prefix_iff_eq_take.mp ha, List.prefix_iff_eq_take.mp hb, hlen]

/-- No entry's encoding starts with another's. -/
theorem Entry.unique {s : Bytes} {e e' : Entry} (he : e.WF) (he' : e'.WF) (h : e.encode <+: s) (h' : e'.encode <+: s) :
    e = e' := by
  have hread := (exact_parseKv s 0 (Nat.zero_le _) _ _).mpr ⟨_, ⟨e, he, rfl, rfl⟩, h, rfl⟩
  have hread' := (exact_parseKv s 0 (Nat.zero_le _) _ _).mpr ⟨_, ⟨e', he', rfl, rfl⟩, h', rfl⟩
  have heq := Except.ok.inj (hread.symm.trans hread')
  obtain ⟨hkv, hpos⟩ := Prod.mk.inj heq
  have henc := prefix_unique h h' (by omega)
  obtain ⟨key, type, value⟩ := e
  obtain ⟨key', type', value'⟩ := e'
  obtain ⟨rfl, rfl, -⟩ := Kv.mk.inj hkv
  obtain rfl : value = value' := List.append_cancel_left (List.append_cancel_left henc)
  rfl

theorem TensorEntry.unique {s : Bytes} {t t' : TensorEntry} (ht : t.WF) (ht' : t'.WF) (h : t.encode <+: s)
    (h' : t'.encode <+: s) : t = t' := by
  have hread := (exact_parseTensor s 0 (Nat.zero_le _) _ _).mpr ⟨_, ⟨t, ht, rfl, rfl⟩, h, rfl⟩
  have hread' := (exact_parseTensor s 0 (Nat.zero_le _) _ _).mpr ⟨_, ⟨t', ht', rfl, rfl⟩, h', rfl⟩
  have heq := Except.ok.inj (hread.symm.trans hread')
  obtain ⟨name, dims, type, offset⟩ := t
  obtain ⟨name', dims', type', offset'⟩ := t'
  obtain ⟨rfl, rfl, rfl, rfl, -⟩ := Tensor.mk.inj (Prod.mk.inj heq).1
  rfl

/-- Encodings of as many values, none of which starts with another, are those of the same values. -/
theorem flatMap_unique {γ : Type} {P : γ → Prop} {enc : γ → Bytes}
    (hunique : ∀ {s e e'}, P e → P e' → enc e <+: s → enc e' <+: s → e = e') {s : Bytes} {es es' : List γ} (hes : ∀ e ∈ es, P e)
    (hes' : ∀ e ∈ es', P e) (hlen : es.length = es'.length) (h : es.flatMap enc <+: s) (h' : es'.flatMap enc <+: s) :
    es = es' := by
  induction es generalizing es' s with
  | nil => exact (List.eq_nil_of_length_eq_zero hlen.symm).symm
  | cons e es ih =>
    cases es' with
    | nil => exact absurd hlen nofun
    | cons e' es' =>
      rw [List.flatMap_cons] at h h'
      obtain rfl := hunique (hes e List.mem_cons_self) (hes' e' List.mem_cons_self) ((List.prefix_append ..).trans h)
        ((List.prefix_append ..).trans h')
      obtain ⟨u, rfl⟩ := (List.prefix_append ..).trans h
      rw [List.prefix_append_right_inj] at h h'
      rw [ih (fun x hx => hes x (List.mem_cons_of_mem e hx)) (fun x hx => hes' x (List.mem_cons_of_mem e hx))
        (Nat.succ.inj hlen) h h']

theorem Doc.unique {d d' : Doc} {file : Bytes} (hd : d.WF) (hd' : d'.WF) (h : d.encode <+: file) (h' : d'.encode <+: file) :
    d = d' := by
  rw [encode] at h h'
  have hlen : d.header.length = d'.header.length := by simp only [header, List.length_append, length_lePut]
  have hheader := prefix_unique ((List.prefix_append ..).trans h) ((List.prefix_append ..).trans h') hlen
  rw [← hheader] at h'
  rw [header, header] at hheader
  obtain ⟨ht, he⟩ := List.append_inj (List.append_cancel_left (List.append_cancel_left hheader))
    (by rw [length_lePut, length_lePut])
  have ht : d.tensors.length = d'.tensors.length := by rw [← leGet_lePut hd.nTensors, ht, leGet_lePut hd'.nTensors]
  have he : d.entries.length = d'.entries.length := by rw [← leGet_lePut hd.nEntries, he, leGet_lePut hd'.nEntries]
  obtain ⟨u, rfl⟩ := (List.prefix_append ..).trans h
  rw [List.prefix_append_right_inj] at h h'
  have hentries := flatMap_unique (fun {_ _ _} => Entry.unique) hd.entries hd'.entries he ((List.prefix_append ..).trans h)
    ((List.prefix_append ..).trans h')
  rw [← hentries] at h'
  obtain ⟨u, rfl⟩ := (List.prefix_append ..).trans h
  rw [List.prefix_append_right_inj] at h h'
  have htensors := flatMap_unique (fun {_ _ _} => TensorEntry.unique) hd.tensors hd'.tensors ht h h'
  obtain ⟨entries, tensors⟩ := d
  obtain ⟨entries', tensors'⟩ := d'
  exact congrArg₂ _ hentries htensors

/-- The loader accepts the files that start with a well-formed document whose tensors lie in the file. The document is the only
one, and what the loader keeps is the document's. -/
theorem loader_accepts_iff (file : Bytes) (hfile : file.length < 2 ^ 63) (m : Model) : modelOpen file = .ok m ↔
    32 ≤ file.length ∧ ∃ d : Doc, d.WF ∧ d.encode <+: file ∧ d.Fits file.length ∧ m = d.model file ∧
      ∀ d' : Doc, d'.WF → d'.encode <+: file → d' = d := by
  rw [modelOpen_iff file hfile m]
  constructor
  · rintro ⟨hlen, d, hwf, hpre, hfits, hm⟩
    exact ⟨hlen, d, hwf, hpre, hfits, hm, fun d' hwf' hpre' => Doc.unique hwf' hwf hpre' hpre⟩
  · rintro ⟨hlen, d, hwf, hpre, hfits, hm, -⟩
    exact ⟨hlen, d, hwf, hpre, hfits, hm⟩

/-- One `f32` tensor of two elements, aligned to 64 bytes. -/
def weightDoc : Doc := ⟨[⟨lit "general.alignment", typeUint32, lePut 4 64⟩], [⟨lit "weight", [2], 0, 64⟩]⟩

def weightFile : Bytes := weightDoc.encode ++ List.replicate 200 0

theorem weightFile_open : modelOpen weightFile = .ok (weightDoc.model weightFile) ∧ weightFile.length < 2 ^ 63 := by
  decide +kernel

theorem loader_accepts_weight : ∃ d : Doc, d.WF ∧ d.encode <+: weightFile ∧ d.Fits weightFile.length ∧
    weightDoc.model weightFile = d.model weightFile ∧ ∀ d' : Doc, d'.WF → d'.encode <+: weightFile → d' = d :=
  ((loader_accepts_iff weightFile weightFile_open.2 _).mp weightFile_open.1).2

end Ds4.Gguf
