import Ds4.Payload.LoadSafe

/-!
# Loading a payload on the CPU

The loader of the CPU bounds the row counts of all layers by the capacity of one of them, and reads
rows directly into the arrays. Where the rows of every layer stand in a payload follows from the counts,
so it can be said from the file which layers are written beyond their arrays.
-/

namespace Ds4.Payload
open C ErrorState Io

/-- A session of the CPU has the layers of its model with the capacities that they were allocated
with. -/
structure AllocatedCpu (sh : Shape) where
  session : CpuSession
  ratio : ∀ il < sh.nLayer, (session.caches.info il).compressRatio = sh.layerCompressRatio il
  compCap : ∀ il < sh.nLayer, (session.caches.info il).compCap =
    (kvCacheLayer sh session.ctxSize (sh.layerCompressRatio il)).compCap

variable {sh : Shape} {f : Bytes} {p : Nat}

/-- The capacity that the counts are compared with is that of the layers with the ratio 4. -/
theorem AllocatedCpu.sessionCpuCompCap (x : AllocatedCpu sh) {il : Nat} (hil : il < sh.nLayer)
    (h4 : sh.layerCompressRatio il = 4) :
    Payload.sessionCpuCompCap sh x.session = x.session.ctxSize / 4 + 2 := by
  have hratio : ((x.session.caches.info il).compressRatio == 4) = true := by
    rw [x.ratio il hil, h4]
    rfl
  rw [Payload.sessionCpuCompCap]
  cases hfind : (List.range sh.nLayer).find? fun il =>
      (x.session.caches.info il).compressRatio == 4 with
  | none =>
    rw [List.find?_eq_none] at hfind
    exact absurd hratio (hfind il (List.mem_range.mpr hil))
  | some j =>
    have hj : j < sh.nLayer := List.mem_range.mp (List.mem_of_find?_eq_some hfind)
    have hj4 : sh.layerCompressRatio j = 4 := by
      rw [← x.ratio j hj]
      have hfound := List.find?_some (p := fun il => (x.session.caches.info il).compressRatio == 4)
        hfind
      exact eq_of_beq hfound
    dsimp only
    rw [x.compCap j hj, hj4]
    rfl

/-- The bytes of some spans in the payload. -/
def spansBytes {ι : Type} (sps : List (Span ι)) : Nat := (sps.map (·.count)).sum

section Positions
variable (sh f)

/-- The counts of a layer as they stand in a payload. -/
def nCompIn (il : Nat) : Nat := (leGets 4 sh.nLayer (f.drop (countsAt sh f))).getD il 0

def nIndexCompIn (il : Nat) : Nat :=
  (leGets 4 sh.nLayer ((f.drop (countsAt sh f)).drop (4 * sh.nLayer))).getD il 0

def cpuSpansIn (il : Nat) : List (Span GraphTensor) :=
  cpuLayerSpans sh (sh.layerCompressRatio il) 0 (layoutOf f).rawLive (nCompIn sh f il)
    (nIndexCompIn sh f il) il

/-- Where a layer begins in a payload, and where its compressed rows do. -/
def cpuLayerAt (il : Nat) : Nat :=
  countsAt sh f + (4 * sh.nLayer + 4 * sh.nLayer) +
    ((List.range il).map fun j => spansBytes (cpuSpansIn sh f j)).sum

def cpuRowsAt (il : Nat) : Nat := cpuLayerAt sh f il + (layoutOf f).rawLive * sh.nHeadDim * 4

/-- The payload has the rows that a layer is said to have, and the file has more of them than the
array of the layer holds. -/
structure RowsBeyond (ctx p il : Nat) : Prop where
  compresses : sh.layerCompressRatio il ≠ 0
  payload : cpuRowsAt sh f il + nCompIn sh f il * sh.nHeadDim * 4 ≤ p
  file : (ctx / sh.layerCompressRatio il + 2) * sh.nHeadDim * 4 <
    min (nCompIn sh f il * sh.nHeadDim * 4) (f.length - cpuRowsAt sh f il)

end Positions

theorem cpuLayerAt_succ (sh : Shape) (f : Bytes) (il : Nat) :
    cpuLayerAt sh f (il + 1) = cpuLayerAt sh f il + spansBytes (cpuSpansIn sh f il) := by
  rw [cpuLayerAt, List.range_succ, List.map_append, List.sum_append, List.map_singleton,
    List.sum_singleton, cpuLayerAt, Nat.add_assoc _ (List.sum _)]

theorem cpuLayerAt_mono {i j : Nat} (h : i ≤ j) : cpuLayerAt sh f i ≤ cpuLayerAt sh f j := by
  induction h with
  | refl => exact Nat.le_refl _
  | step _ ih =>
    rw [cpuLayerAt_succ]
    omega

/-- A layer that begins behind the end is not written to. -/
theorem RowsBeyond.inside {ctx il : Nat} (h : RowsBeyond sh f ctx p il) :
    cpuRowsAt sh f il ≤ p ∧ cpuRowsAt sh f il < f.length := by
  have hp := h.payload
  have hf := h.file
  omega

/-- What the arrays of the CPU are when the loader has allocated them again. -/
def cpuRoom (sh : Shape) (ctx : Nat) (key : GraphTensor) (il : Nat) : Option Nat :=
  ((kvCacheInit sh ctx).array key il).map List.length

/-- The loader has read the payload up to a position; `past` says whether a layer was written beyond
its array on the way. -/
structure CpuAt (sh : Shape) (ctx : Nat) (f : Bytes) (p pos : Nat) (past : Prop)
    (t : Io GraphTensor (Nat → CpuLayer)) : Prop where
  invalid : t.session.checkpointValid = false
  remaining : t.remaining = p - pos
  inPayload : pos ≤ p
  inFile : pos ≤ f.length
  file : t.file = f.drop pos
  past : t.overrun = true ↔ past
  room : ∀ key il, (t.session.caches.array key il).map List.length = cpuRoom sh ctx key il
  ratio : ∀ il, (t.session.caches.info il).compressRatio =
    ((kvCacheInit sh ctx).info il).compressRatio

/-- The loader has failed since the payload or the file ends in front of a position. -/
structure CpuFailed (f : Bytes) (p stop : Nat) (past : Prop)
    (t : Io GraphTensor (Nat → CpuLayer)) : Prop where
  invalid : t.session.checkpointValid = false
  past : t.overrun = true ↔ past
  short : p < stop ∨ f.length < stop

section Spans
variable {ctx pos room n : Nat} {past : Prop} {t : Io GraphTensor (Nat → CpuLayer)} {key : GraphTensor}
  {il : Nat}

theorem Io.file_copyTo (t : Io GraphTensor (Nat → CpuLayer)) (key : GraphTensor) (il off : Nat)
    (b : Bytes) : (t.copyTo key il off b).file = t.file := by
  rw [copyTo]
  split
  · rfl
  · rfl

theorem Io.remaining_copyTo (t : Io GraphTensor (Nat → CpuLayer)) (key : GraphTensor) (il off : Nat)
    (b : Bytes) : (t.copyTo key il off b).remaining = t.remaining := by
  rw [copyTo]
  split
  · rfl
  · rfl

/-- A copy to the start of an array changes neither its length nor what is known about the layers. -/
theorem Io.copyTo_start {b : Bytes}
    (hroom : (t.session.caches.array key il).map List.length = some room) :
    ((t.copyTo key il 0 b).overrun = true ↔ t.overrun = true ∨ room < b.length) ∧
    (∀ k i, ((t.copyTo key il 0 b).session.caches.array k i).map List.length =
      (t.session.caches.array k i).map List.length) ∧
    (t.copyTo key il 0 b).session.checkpointValid = t.session.checkpointValid ∧
    (t.copyTo key il 0 b).session.caches.info = t.session.caches.info := by
  cases ha : t.session.caches.array key il with
  | none =>
    rw [ha] at hroom
    exact nomatch hroom
  | some a =>
    rw [ha, Option.map_some, Option.some.injEq] at hroom
    rw [copyTo, ha]
    refine ⟨?_, fun k i => ?_, rfl, rfl⟩
    · rw [Bool.or_eq_true, decide_eq_true_iff, Nat.zero_add, hroom]
    · change Option.map List.length (if k = key ∧ i = il then
        some (overwrite a 0 (b.take (a.length - 0))) else t.session.caches.array k i) = _
      split
      · next h =>
        have hlen : 0 + (b.take (a.length - 0)).length ≤ a.length := by
          rw [List.length_take]
          omega
        rw [h.1, h.2, ha, Option.map_some, Option.map_some, length_overwrite hlen]
      · rfl

theorem ends_readCpuSpan (kind : SpanKind) (h : CpuAt sh ctx f p pos past t)
    (hroom : cpuRoom sh ctx key il = some room) :
    Ends (readCpuSpan ⟨kind, key, il, 0, n⟩) t
      (fun _ u => CpuAt sh ctx f p (pos + n)
        (past ∨ pos + n ≤ p ∧ room < min n (f.length - pos)) u)
      (CpuFailed f p (pos + n) (past ∨ pos + n ≤ p ∧ room < min n (f.length - pos))) := by
  have hp := h.inPayload
  have hf := h.inFile
  have hlen : t.file.length = f.length - pos := by rw [h.file, List.length_drop]
  have hroom' := (h.room key il).trans hroom
  have hgot : (t.file.take n).length = min n (f.length - pos) := by rw [List.length_take, hlen]
  refine ((ends_readInto n _ t).mono (fun _ _ h => h) ?_).bind ?_
  · rintro _ (⟨hr, rfl⟩ | ⟨hr, hshort, rfl⟩)
    · rw [h.remaining] at hr
      refine ⟨h.invalid, h.past.trans ⟨.inl, fun h' => h'.elim id fun h' => ?_⟩, .inl (by omega)⟩
      exact absurd h'.1 (by omega)
    · rw [h.remaining] at hr
      obtain ⟨hover, -, hvalid, -⟩ := Io.copyTo_start (t := t.advance n) (b := t.file.take n) hroom'
      rw [hgot] at hover
      refine ⟨hvalid.trans h.invalid, hover.trans (or_congr h.past ?_), .inr (by omega)⟩
      exact ⟨fun h' => ⟨by omega, h'⟩, fun h' => h'.2⟩
  · rintro _ _ ⟨⟨hr, hthere⟩, rfl, rfl⟩
    rw [h.remaining] at hr
    obtain ⟨hover, hrooms, hvalid, hinfo⟩ :=
      Io.copyTo_start (t := t.consume n) (b := t.file.take n) hroom'
    rw [hgot] at hover
    refine .pure ⟨hvalid.trans h.invalid, ?_, by omega, by omega, ?_,
      hover.trans (or_congr h.past ⟨fun h' => ⟨by omega, h'⟩, fun h' => h'.2⟩),
      fun k i => (hrooms k i).trans (h.room k i), fun i => ?_⟩
    · rw [Io.remaining_copyTo, remaining_consume, h.remaining, Nat.sub_add_eq]
    · rw [Io.file_copyTo, file_consume, h.file, List.drop_drop]
    · rw [hinfo]
      exact h.ratio i

theorem CpuFailed.of_le {stop stop' : Nat} (h : CpuFailed f p stop past t) (hle : stop ≤ stop') :
    CpuFailed f p stop' past t := ⟨h.invalid, h.past, by
  have := h.short
  omega⟩

/-- A span that lies at the start of an array and fits into it. -/
def Span.Fits (sh : Shape) (ctx : Nat) (sp : Span GraphTensor) : Prop :=
  sp.offset = 0 ∧ ∃ room, cpuRoom sh ctx sp.key sp.layer = some room ∧ sp.count ≤ room

theorem ends_fittingSpan {sp : Span GraphTensor} (h : CpuAt sh ctx f p pos past t)
    (hfits : sp.Fits sh ctx) :
    Ends (readCpuSpan sp) t (fun _ u => CpuAt sh ctx f p (pos + sp.count) past u)
      (CpuFailed f p (pos + sp.count) past) := by
  obtain ⟨hoff, room, hroom, hcount⟩ := hfits
  obtain ⟨kind, key, il, off, n⟩ := sp
  dsimp only at hoff hroom hcount ⊢
  subst hoff
  have hnot : (past ∨ pos + n ≤ p ∧ room < min n (f.length - pos)) ↔ past :=
    ⟨fun h' => h'.elim id fun h' => absurd h'.2 (by omega), .inl⟩
  have hread := ends_readCpuSpan kind h hroom (n := n)
  rwa [hnot] at hread

theorem ends_fittingSpans (sps : List (Span GraphTensor)) (h : CpuAt sh ctx f p pos past t)
    (hfits : ∀ sp ∈ sps, sp.Fits sh ctx) :
    Ends (sps.forM readCpuSpan) t (fun _ u => CpuAt sh ctx f p (pos + spansBytes sps) past u)
      (CpuFailed f p (pos + spansBytes sps) past) := by
  induction sps generalizing t pos with
  | nil => exact h
  | cons sp sps ih =>
    have hsum : spansBytes (sp :: sps) = sp.count + spansBytes sps := by
      rw [spansBytes, List.map_cons, List.sum_cons, spansBytes]
    rw [hsum, ← Nat.add_assoc]
    refine ((ends_fittingSpan h (hfits sp List.mem_cons_self)).mono (fun _ _ h => h) fun u hu =>
      hu.of_le (Nat.le_add_right _ _)).bind ?_
    exact fun _ u hu => ih hu fun sp hsp => hfits sp (List.mem_cons_of_mem _ hsp)

theorem CpuAt.updateLayer {g : CpuLayer → CpuLayer} (h : CpuAt sh ctx f p pos past t) (il : Nat)
    (hg : ∀ c, (g c).compressRatio = c.compressRatio) :
    CpuAt sh ctx f p pos past (Payload.updateLayer il g t) where
  invalid := h.invalid
  remaining := h.remaining
  inPayload := h.inPayload
  inFile := h.inFile
  file := h.file
  past := h.past
  room := h.room
  ratio i := by
    refine Eq.trans ?_ (h.ratio i)
    change (if i = il then g (t.session.caches.info i) else t.session.caches.info i).compressRatio = _
    split
    · exact hg _
    · rfl

end Spans

section Rooms
variable {ctx il : Nat} (hil : il < sh.nLayer)

theorem length_negInfs (n : Nat) : (negInfs (4 * n)).length = 4 * n := by
  rw [negInfs, Nat.mul_div_cancel_left n (by decide), List.length_flatten, List.map_replicate,
    List.sum_replicate_nat, Nat.mul_comm]
  rfl

include hil

theorem cpuRoom_raw : cpuRoom sh ctx .raw il = some (sh.defaultRawCap ctx * sh.nHeadDim * 4) := by
  rw [cpuRoom, kvCacheInit]
  dsimp only
  rw [if_pos hil, kvCacheArray, Option.map_some, zeros, List.length_replicate]

variable (ctx) in
theorem cpuRoom_compressed (hr : sh.layerCompressRatio il ≠ 0) :
    cpuRoom sh ctx .attnComp il = some ((ctx / sh.layerCompressRatio il + 2) * sh.nHeadDim * 4) ∧
    cpuRoom sh ctx .attnStateKv il = some (sh.layerAttnStateBytes (sh.layerCompressRatio il)) ∧
    cpuRoom sh ctx .attnStateScore il = some (sh.layerAttnStateBytes (sh.layerCompressRatio il)) := by
  refine ⟨?_, ?_, ?_⟩
  · rw [cpuRoom, kvCacheInit]
    dsimp only
    rw [if_pos hil, kvCacheArray, if_pos hr, Option.map_some, zeros, List.length_replicate]
  · rw [cpuRoom, kvCacheInit]
    dsimp only
    rw [if_pos hil, kvCacheArray, if_pos hr, Option.map_some, zeros, List.length_replicate]
  · rw [cpuRoom, kvCacheInit]
    dsimp only
    rw [if_pos hil, kvCacheArray, if_pos hr, Option.map_some, Shape.layerAttnStateBytes, Nat.mul_comm _ 4,
      length_negInfs]

variable (ctx) in
theorem cpuRoom_indexer (hr : sh.layerCompressRatio il = 4) :
    cpuRoom sh ctx .indexComp il = some ((ctx / 4 + 2) * sh.nIndexerHeadDim * 4) ∧
    cpuRoom sh ctx .indexStateKv il = some (sh.layerIndexStateBytes (sh.layerCompressRatio il)) ∧
    cpuRoom sh ctx .indexStateScore il = some (sh.layerIndexStateBytes (sh.layerCompressRatio il)) := by
  refine ⟨?_, ?_, ?_⟩
  · rw [cpuRoom, kvCacheInit]
    dsimp only
    rw [if_pos hil, kvCacheArray, if_pos hr, Option.map_some, zeros, List.length_replicate, hr]
  · rw [cpuRoom, kvCacheInit]
    dsimp only
    rw [if_pos hil, kvCacheArray, if_pos hr, Option.map_some, zeros, List.length_replicate]
  · rw [cpuRoom, kvCacheInit]
    dsimp only
    rw [if_pos hil, kvCacheArray, if_pos hr, Option.map_some, Shape.layerIndexStateBytes, Nat.mul_comm _ 4,
      length_negInfs]

end Rooms

section Layers
variable {ctx il : Nat} {t : Io GraphTensor (Nat → CpuLayer)}

theorem not_rowsBeyond_of_short {stop : Nat} (h : p < stop ∨ f.length < stop)
    (hle : stop ≤ cpuRowsAt sh f il) : ¬RowsBeyond sh f ctx p il := fun hb => by
  have hin := hb.inside
  omega

/-- The layers behind a failure are not written to. -/
theorem exists_rowsBeyond_iff {stop k : Nat} (hk : k ≤ sh.nLayer) (h : p < stop ∨ f.length < stop)
    (hle : ∀ j, k ≤ j → stop ≤ cpuRowsAt sh f j) :
    (∃ j < sh.nLayer, RowsBeyond sh f ctx p j) ↔ ∃ j < k, RowsBeyond sh f ctx p j := by
  constructor
  · rintro ⟨j, -, hb⟩
    refine ⟨j, Nat.lt_of_not_le fun hj => ?_, hb⟩
    exact not_rowsBeyond_of_short h (hle j hj) hb
  · rintro ⟨j, hj, hb⟩
    exact ⟨j, Nat.lt_of_lt_of_le hj hk, hb⟩

theorem exists_lt_succ_iff {P : Nat → Prop} : (∃ j < il + 1, P j) ↔ (∃ j < il, P j) ∨ P il := by
  constructor
  · rintro ⟨j, hj, h⟩
    rcases Nat.lt_succ_iff_lt_or_eq.mp hj with hj | rfl
    · exact .inl ⟨j, hj, h⟩
    · exact .inr h
  · rintro (⟨j, hj, h⟩ | h)
    · exact ⟨j, Nat.lt_succ_of_lt hj, h⟩
    · exact ⟨il, Nat.lt_succ_self il, h⟩

/-- What the load of a layer comes to when it fails. -/
abbrev FailedLayers (sh : Shape) (f : Bytes) (p ctx : Nat) (u : Io GraphTensor (Nat → CpuLayer)) : Prop :=
  u.session.checkpointValid = false ∧
    (u.overrun = true ↔ ∃ j < sh.nLayer, RowsBeyond sh f ctx p j)

theorem CpuFailed.layers {stop k : Nat} {past : Prop} {u : Io GraphTensor (Nat → CpuLayer)}
    (h : CpuFailed f p stop past u) (hk : k ≤ sh.nLayer)
    (hover : past ↔ ∃ j < k, RowsBeyond sh f ctx p j)
    (hle : ∀ j, k ≤ j → stop ≤ cpuRowsAt sh f j) : FailedLayers sh f p ctx u :=
  ⟨h.invalid, h.past.trans (hover.trans (exists_rowsBeyond_iff hk h.short hle).symm)⟩

section Fits
variable (hil : il < sh.nLayer)
include hil

theorem cpuRawSpan_fits (hraw : (layoutOf f).rawLive ≤ sh.defaultRawCap ctx) :
    (cpuRawSpan sh 0 (layoutOf f).rawLive il).Fits sh ctx :=
  ⟨by rw [cpuRawSpan, Nat.zero_mul, Nat.zero_mul], _, cpuRoom_raw hil,
    Nat.mul_le_mul_right 4 (Nat.mul_le_mul_right _ hraw)⟩

theorem stateSpans_fit {n : Nat} (hr : sh.layerCompressRatio il ≠ 0)
    (hindex : sh.layerCompressRatio il = 4 → n ≤ ctx / 4 + 2) :
    ∀ sp ∈ stateSpans sh (sh.layerCompressRatio il) n il, sp.Fits sh ctx := by
  intro sp hsp
  obtain ⟨-, hkv, hscore⟩ := cpuRoom_compressed ctx hil hr
  rw [stateSpans, List.mem_append, List.mem_cons, List.mem_singleton] at hsp
  rcases hsp with (rfl | rfl) | hsp
  · exact ⟨rfl, _, hkv, Nat.le_refl _⟩
  · exact ⟨rfl, _, hscore, Nat.le_refl _⟩
  split at hsp
  · next h4 =>
    obtain ⟨hrows, hikv, hiscore⟩ := cpuRoom_indexer ctx hil h4
    rw [List.mem_cons, List.mem_cons, List.mem_singleton] at hsp
    rcases hsp with rfl | rfl | rfl
    · exact ⟨rfl, _, hrows, Nat.mul_le_mul_right 4 (Nat.mul_le_mul_right _ (hindex h4))⟩
    · exact ⟨rfl, _, hikv, Nat.le_refl _⟩
    · exact ⟨rfl, _, hiscore, Nat.le_refl _⟩
  · exact nomatch hsp

end Fits

theorem cpuRowsAt_le_succ (sh : Shape) (f : Bytes) (il : Nat) :
    cpuRowsAt sh f il ≤ cpuLayerAt sh f (il + 1) := by
  rw [cpuLayerAt_succ, cpuRowsAt, cpuSpansIn, cpuLayerSpans, spansBytes, List.map_cons,
    List.sum_cons]
  exact Nat.add_le_add_left (Nat.le_add_right _ _) _

theorem cpuLayerAt_le_rowsAt {i j : Nat} (h : i ≤ j) : cpuLayerAt sh f i ≤ cpuRowsAt sh f j :=
  (cpuLayerAt_mono h).trans (Nat.le_add_right _ _)

theorem cpuRowsAt_mono {i j : Nat} (h : i ≤ j) : cpuRowsAt sh f i ≤ cpuRowsAt sh f j := by
  rcases Nat.eq_or_lt_of_le h with rfl | h
  · exact Nat.le_refl _
  · exact (cpuRowsAt_le_succ sh f i).trans (cpuLayerAt_le_rowsAt h)

/-- Where the next layer begins. -/
theorem cpuLayerAt_next (sh : Shape) (f : Bytes) (il : Nat) : cpuLayerAt sh f (il + 1) =
    if sh.layerCompressRatio il = 0 then cpuRowsAt sh f il
    else cpuRowsAt sh f il + nCompIn sh f il * sh.nHeadDim * 4 +
      spansBytes (stateSpans sh (sh.layerCompressRatio il) (nIndexCompIn sh f il) il) := by
  rw [cpuLayerAt_succ, cpuRowsAt, cpuSpansIn, cpuLayerSpans, spansBytes, List.map_cons,
    List.sum_cons]
  split
  · rfl
  · rw [List.map_cons, List.sum_cons, ← Nat.add_assoc, ← Nat.add_assoc]
    rfl

theorem ends_restoreCpuLayer (hraw : (layoutOf f).rawLive ≤ sh.defaultRawCap ctx)
    (hindex : sh.layerCompressRatio il = 4 → nIndexCompIn sh f il ≤ ctx / 4 + 2)
    (hil : il < sh.nLayer) {nComp nIndexComp : Nat → Nat} (hn : nComp il = nCompIn sh f il)
    (hi : nIndexComp il = nIndexCompIn sh f il)
    (h : CpuAt sh ctx f p (cpuLayerAt sh f il) (∃ j < il, RowsBeyond sh f ctx p j) t) :
    Ends (restoreCpuLayer sh (layoutOf f) nComp nIndexComp il) t
      (fun _ u => CpuAt sh ctx f p (cpuLayerAt sh f (il + 1))
        (∃ j < il + 1, RowsBeyond sh f ctx p j) u)
      (FailedLayers sh f p ctx) := by
  have hratio : (t.session.caches.info il).compressRatio = sh.layerCompressRatio il := by
    rw [h.ratio, kvCacheInit]
    dsimp only
    rw [if_pos hil, kvCacheLayer]
  refine .get_bind ?_
  dsimp only
  rw [hratio, hn, hi]
  refine ((ends_fittingSpan h (cpuRawSpan_fits hil hraw)).mono (fun _ _ h => h) fun u hu =>
    hu.layers (Nat.le_of_lt hil) Iff.rfl fun j hj => cpuRowsAt_mono hj).bind fun _ u hu => ?_
  have hu' : CpuAt sh ctx f p (cpuRowsAt sh f il) (∃ j < il, RowsBeyond sh f ctx p j) u := hu
  refine .modify_bind ?_
  rw [cpuLayerAt_next]
  by_cases hr : sh.layerCompressRatio il = 0
  · have hnot : (∃ j < il + 1, RowsBeyond sh f ctx p j) ↔ ∃ j < il, RowsBeyond sh f ctx p j := by
      rw [exists_lt_succ_iff]
      exact ⟨fun h => h.elim id fun h => absurd hr h.compresses, .inl⟩
    rw [if_pos hr, if_pos hr, hnot]
    refine .pure (CpuAt.updateLayer hu' il ?_)
    exact fun _ => rfl
  · rw [if_neg hr, if_neg hr]
    refine .modify_bind ?_
    have hbeyond : (∃ j < il, RowsBeyond sh f ctx p j) ∨
        cpuRowsAt sh f il + nCompIn sh f il * sh.nHeadDim * 4 ≤ p ∧
          (ctx / sh.layerCompressRatio il + 2) * sh.nHeadDim * 4 <
            min (nCompIn sh f il * sh.nHeadDim * 4) (f.length - cpuRowsAt sh f il) ↔
        ∃ j < il + 1, RowsBeyond sh f ctx p j := by
      rw [exists_lt_succ_iff]
      exact or_congr Iff.rfl ⟨fun h => ⟨hr, h.1, h.2⟩, fun h => ⟨h.payload, h.file⟩⟩
    have hstop : cpuRowsAt sh f il + nCompIn sh f il * sh.nHeadDim * 4 ≤ cpuLayerAt sh f (il + 1) := by
      rw [cpuLayerAt_next, if_neg hr]
      exact Nat.le_add_right _ _
    have hspan : attnCompSpan false sh (nCompIn sh f il) il =
        ⟨.floats, .attnComp, il, 0, nCompIn sh f il * sh.nHeadDim * 4⟩ := rfl
    obtain ⟨v, hv⟩ : ∃ v, v = updateLayer il (fun x => { x with
        nComp := nCompIn sh f il, nIndexComp := nIndexCompIn sh f il })
      (updateLayer il (fun x => { x with nRaw := (layoutOf f).rawLive }) u) := ⟨_, rfl⟩
    have hv' : CpuAt sh ctx f p (cpuRowsAt sh f il) (∃ j < il, RowsBeyond sh f ctx p j) v := by
      rw [hv]
      refine CpuAt.updateLayer (CpuAt.updateLayer hu' il ?_) il ?_
      · exact fun _ => rfl
      · exact fun _ => rfl
    have hrows := ends_readCpuSpan .floats hv' (cpuRoom_compressed _ hil hr).1
      (n := nCompIn sh f il * sh.nHeadDim * 4)
    rw [hbeyond] at hrows
    rw [hspan, ← hv]
    refine (hrows.mono (fun _ _ h => h) fun v hv => hv.layers hil Iff.rfl fun j hj =>
      hstop.trans (cpuLayerAt_le_rowsAt hj)).bind fun _ v hv => ?_
    refine (ends_fittingSpans _ hv (stateSpans_fit hil hr hindex)).mono (fun _ _ h => h) fun w hw =>
      hw.layers hil Iff.rfl fun j hj => ?_
    refine Nat.le_trans (Nat.le_of_eq ?_) (cpuLayerAt_le_rowsAt hj)
    rw [cpuLayerAt_next, if_neg hr]

end Layers

theorem ends_restoreCpuLayers {ctx k m : Nat} {t : Io GraphTensor (Nat → CpuLayer)}
    {nComp nIndexComp : Nat → Nat} (hraw : (layoutOf f).rawLive ≤ sh.defaultRawCap ctx)
    (hindex : ∀ il < sh.nLayer, sh.layerCompressRatio il = 4 → nIndexCompIn sh f il ≤ ctx / 4 + 2)
    (hn : ∀ il, nComp il = nCompIn sh f il) (hi : ∀ il, nIndexComp il = nIndexCompIn sh f il)
    (hkm : k + m = sh.nLayer)
    (h : CpuAt sh ctx f p (cpuLayerAt sh f k) (∃ j < k, RowsBeyond sh f ctx p j) t) :
    Ends ((List.range' k m).forM (restoreCpuLayer sh (layoutOf f) nComp nIndexComp)) t
      (fun _ u => CpuAt sh ctx f p (cpuLayerAt sh f sh.nLayer)
        (∃ j < sh.nLayer, RowsBeyond sh f ctx p j) u)
      (FailedLayers sh f p ctx) := by
  induction m generalizing k t with
  | zero =>
    rw [Nat.add_zero] at hkm
    subst hkm
    exact h
  | succ m ih =>
    have hk : k < sh.nLayer := by omega
    refine (ends_restoreCpuLayer hraw (hindex k hk) hk (hn k) (hi k) h).bind fun _ u hu => ?_
    exact ih (by omega) hu

/-- The raw rows that the checks of the header let through fit into the window. -/
theorem checkCpu_raw {x : CpuSession} {l : KvLayout} (h : checkCpu sh x l = .ok ()) :
    l.rawLive ≤ sh.defaultRawCap x.ctxSize := by
  rw [checkCpu, orError_bind_ok, orError_bind_ok] at h
  obtain ⟨-, -, h⟩ := h
  rw [checkRing, orError_bind_ok, orError_bind_ok] at h
  obtain ⟨-, hring, -⟩ := h
  rw [Bool.and_eq_true, decide_eq_true_iff] at hring
  exact hring.2

section Iff
variable (x : AllocatedCpu sh) {d : List Bool}

theorem AllocatedCpu.indexRows_le {s : Io GraphTensor (Nat → CpuLayer)}
    (h : (cpuRestore sh).CountsFine x.session (layoutOf f) s)
    (hfile : s.file = f.drop (countsAt sh f)) {il : Nat} (hil : il < sh.nLayer)
    (h4 : sh.layerCompressRatio il = 4) : nIndexCompIn sh f il ≤ x.session.ctxSize / 4 + 2 := by
  have hok := h.index.getD (length_leGets _ _ _) hil
  rw [hfile] at hok
  change (_ && decide (nIndexCompIn sh f il ≤ Payload.sessionCpuCompCap sh x.session)) = true at hok
  rw [Bool.and_eq_true, x.sessionCpuCompCap hil h4] at hok
  exact of_decide_eq_true hok.2

/-- How a load ends that has got to the rows. -/
theorem AllocatedCpu.restoreRows_ends (hl : GetsToLogits sh (cpuRestore sh) x.session f p)
    (hrows : GetsToRows sh (cpuRestore sh) x.session f p d) {t : Io GraphTensor (Nat → CpuLayer)}
    (hsession : t.session = withLogits sh x.session f) (hover : t.overrun = false)
    (hfile : t.file = f.drop (countsAt sh f + (4 * sh.nLayer + 4 * sh.nLayer)))
    (hrem : t.remaining = p - (countsAt sh f + (4 * sh.nLayer + 4 * sh.nLayer)))
    (tokens : List UInt32) :
    Ends ((cpuRestore sh).restoreRows (layoutOf f) tokens (nCompIn sh f) (nIndexCompIn sh f)) t
      (fun _ u => (p ≤ f.length ∧ u.file = f.drop p) ∧
        (u.overrun = true ↔ ∃ j < sh.nLayer, RowsBeyond sh f x.session.ctxSize p j))
      (FailedLayers sh f p x.session.ctxSize) := by
  have hlp := hl.logits
  have hlf := hrows.logits
  obtain ⟨hp, hf⟩ := hrows.counts.there
  dsimp only [cpuRestore] at hp hf
  rw [List.length_drop] at hf
  have hzero : cpuLayerAt sh f 0 = countsAt sh f + (4 * sh.nLayer + 4 * sh.nLayer) := rfl
  refine .modify_bind ?_
  have hstart : CpuAt sh x.session.ctxSize f p (cpuLayerAt sh f 0)
      (∃ j < 0, RowsBeyond sh f x.session.ctxSize p j)
      (t.mapSession fun y => (cpuRestore sh).reset (invalidate y)) := by
    refine ⟨rfl, hrem, by omega, by omega, hfile, ?_, fun key il => ?_, fun il => ?_⟩
    · refine ⟨fun h => absurd (h.symm.trans hover) (by decide), ?_⟩
      rintro ⟨j, hj, -⟩
      exact absurd hj (Nat.not_lt_zero j)
    · change ((kvCacheInit sh t.session.ctxSize).array key il).map List.length = _
      rw [hsession]
      rfl
    · change ((kvCacheInit sh t.session.ctxSize).info il).compressRatio = _
      rw [hsession]
      rfl
  refine (ends_restoreCpuLayers (checkCpu_raw hl.accepted)
    (fun il hil h4 => x.indexRows_le hrows.counts rfl hil h4) (fun _ => rfl) (fun _ => rfl)
    (Nat.zero_add _) hstart).bind fun _ u hu => ?_
  refine .get_bind (.orThrow_bind (fun hdone => ?_) fun _ => ⟨hu.invalid, hu.past⟩)
  have hend : p = cpuLayerAt sh f sh.nLayer := by
    have hle := hu.inPayload
    have hrem := hu.remaining
    rw [eq_of_beq hdone] at hrem
    omega
  refine .bind (R := fun _ v => v = u) rfl ?_
  rintro _ _ rfl
  refine .modify ⟨?_, hu.past⟩
  rw [hend]
  exact ⟨hu.inFile, hu.file⟩

/-- On the CPU a load is unsafe through the logits or through a layer whose rows go beyond its array. -/
theorem loadPayloadCpu_safe_iff :
    SafeLoad (ds4SessionLoadPayloadCpu sh) x.session f p d ↔
      KeepsLogits sh (cpuRestore sh) x.session f p d ∧
        (GetsToLogits sh (cpuRestore sh) x.session f p →
          GetsToRows sh (cpuRestore sh) x.session f p d →
          ∀ il < sh.nLayer, ¬RowsBeyond sh f x.session.ctxSize p il) := by
  rw [ds4SessionLoadPayloadCpu, loadPayload_safe_iff_of
    (∃ j < sh.nLayer, RowsBeyond sh f x.session.ctxSize p j)
    fun hl hrows t hsession hover hfile hrem =>
      x.restoreRows_ends hl hrows hsession hover hfile hrem _]
  refine and_congr_right fun _ => ⟨fun h hl hg il hil hb => h hl hg ⟨il, hil, hb⟩, ?_⟩
  rintro h hl hg ⟨il, hil, hb⟩
  exact h hl hg il hil hb

end Iff

/-- When the loaders are safe. The layer payloads always load safely; the payload of a session does
unless the logits are lost to a later failure or, on the CPU, rows are read beyond an array. -/
theorem ds4SessionLoadPayload_safe_iff (pf : Platform) (sh : Shape) :
    (∀ x f p d, SafeLoad (ds4SessionLoadPayloadGraph pf sh) x f p d ↔
      KeepsLogits sh (sessionGraphRestore pf sh) x f p d) ∧
    (∀ x f p d, SafeLoad (ds4SessionLoadPayloadGlm pf sh) x f p d ↔
      KeepsLogits sh (sessionGlmRestore pf sh) x f p d) ∧
    (∀ (x : AllocatedCpu sh) f p d, SafeLoad (ds4SessionLoadPayloadCpu sh) x.session f p d ↔
      KeepsLogits sh (cpuRestore sh) x.session f p d ∧
        (GetsToLogits sh (cpuRestore sh) x.session f p →
          GetsToRows sh (cpuRestore sh) x.session f p d →
          ∀ il < sh.nLayer, ¬RowsBeyond sh f x.session.ctxSize p il)) ∧
    (∀ tokens layerStart layerEnd x f p d,
      SafeLoad (ds4SessionLoadLayerPayloadGraph pf sh tokens layerStart layerEnd) x f p d) ∧
    ∀ tokens layerStart layerEnd x f p d,
      SafeLoad (ds4SessionLoadLayerPayloadGlm pf sh tokens layerStart layerEnd) x f p d :=
  ⟨fun _ _ _ _ => loadPayload_safe_iff (sessionGraphRestore_bounded pf sh),
    fun _ _ _ _ => loadPayload_safe_iff (sessionGlmRestore_bounded pf sh),
    fun x _ _ _ => loadPayloadCpu_safe_iff x,
    fun _ _ _ _ _ _ _ => loadLayerPayload_safe (graphRestore_bounded pf sh ..) _ _ _,
    fun _ _ _ _ _ _ _ => loadLayerPayload_safe (glmRestore_bounded pf sh ..) _ _ _⟩

/-- The header that both payloads below begin with: no tokens in a context of 1024. -/
def shortHeader : List Nat :=
  [sessionPayloadMagic, sessionPayloadVersion, 1024, 1024, 128, 128, 258, 0, 43, 512, 128, 129280, 0]

/-- A payload that ends behind its logits. -/
def cutPayload : Bytes := lePuts 4 shortHeader ++ zeros (129280 * 4)

/-- The third layer has a ratio of 128 and is said to have as many rows as a layer with the ratio 4. -/
def wideCounts : List Nat := (List.range 86).map fun i => if i = 3 then 258 else 0

def widePayload : Bytes :=
  lePuts 4 shortHeader ++ (zeros (129280 * 4) ++ (lePuts 4 wideCounts ++ zeros (2 ^ 20)))

theorem wideCounts_le : ∀ n ∈ wideCounts, n ≤ 258 := by
  intro n hn
  obtain ⟨i, -, rfl⟩ := List.mem_map.mp hn
  split
  · exact Nat.le_refl _
  · exact Nat.zero_le _

theorem headerOf_short (rest : Bytes) : headerOf (lePuts 4 shortHeader ++ rest) = shortHeader :=
  leGets_lePuts_append 4 shortHeader (by decide) rest

theorem logitsAt_short (rest : Bytes) : logitsAt (lePuts 4 shortHeader ++ rest) = 52 := by
  rw [logitsAt, layoutOf, headerOf_short]
  rfl

theorem countsAt_short (rest : Bytes) :
    countsAt flash (lePuts 4 shortHeader ++ rest) = 52 + 129280 * 4 := by
  rw [countsAt, logitsAt_short]
  rfl

/-- A session of the graph with logits. -/
def someGraphSession : GraphSession where
  ctxSize := 1024
  prefillCap := 1024
  checkpoint := [1, 2, 3]
  checkpointValid := true
  logits := List.replicate (129280 * 4) 1
  mtpDraftValid := false
  caches :=
    { array := fun _ _ => none
      info :=
        { rawCap := 128, rawWindow := 128, compCap := 258,
          layerCompCap := fun il =>
            let ratio := flash.layerCompressRatio il
            if ratio = 0 then 0 else 1024 / ratio + 2
          layerNComp := fun _ => 0, layerNIndexComp := fun _ => 0 } }

theorem cutPayload_not_safe (pf : Platform) :
    ¬SafeLoad (ds4SessionLoadPayloadGraph pf flash) someGraphSession cutPayload cutPayload.length [] := by
  have hlen : cutPayload.length = 52 + 129280 * 4 := by
    rw [cutPayload, List.length_append, length_lePuts, zeros, List.length_replicate]
    rfl
  have hat : countsAt flash cutPayload = cutPayload.length := by
    rw [cutPayload, countsAt_short, ← cutPayload, hlen]
  rw [ds4SessionLoadPayloadGraph, loadPayload_safe_iff (sessionGraphRestore_bounded pf flash)]
  rintro (h | h | h | h)
  · exact Bool.noConfusion h
  · refine h ⟨?_, ?_, ?_, ?_, Nat.le_of_eq hat⟩
    · rw [hlen]
      decide
    · rw [cutPayload, headerOf_short]
      rfl
    · rw [layoutOf, cutPayload, headerOf_short]
      rfl
    · rw [hlen, cutPayload, logitsAt_short]
      decide
  · have hspan : span cutPayload (logitsAt cutPayload) (flash.nVocab * 4) = zeros (129280 * 4) := by
      rw [cutPayload, logitsAt_short, span, List.drop_left' (by rw [length_lePuts]; rfl)]
      exact List.take_of_length_le (by rw [zeros, List.length_replicate]; exact Nat.le_refl _)
    have hlogits := congrArg Session.logits h
    rw [withLogits, hspan] at hlogits
    dsimp only [someGraphSession] at hlogits
    rw [overwrite_all (by rw [zeros, List.length_replicate, List.length_replicate]), zeros,
      List.replicate_inj] at hlogits
    exact absurd hlogits.2 (by decide)
  · have hp := h.counts.there.1
    rw [hat, Nat.sub_self] at hp
    have hnone : 4 * 43 + 4 * 43 ≤ 0 := hp
    exact absurd hnone (by decide)

/-- A session of the CPU as it was created. -/
def newCpuSession : AllocatedCpu flash where
  session :=
    { ctxSize := 1024
      prefillCap := 1024
      checkpoint := []
      checkpointValid := false
      logits := List.replicate (129280 * 4) 0
      mtpDraftValid := false
      caches := kvCacheInit flash 1024 }
  ratio il hil := by
    dsimp only [kvCacheInit]
    rw [if_pos hil, kvCacheLayer]
  compCap il hil := by
    dsimp only [kvCacheInit]
    rw [if_pos hil]

theorem wideCounts_read :
    leGets 4 (cpuRestore flash).count (widePayload.drop (countsAt flash widePayload)) = wideCounts.take 43 ∧
      leGets 4 (cpuRestore flash).count ((widePayload.drop (countsAt flash widePayload)).drop
        (4 * (cpuRestore flash).count)) = wideCounts.drop 43 := by
  have hhead : (lePuts 4 shortHeader ++ zeros (129280 * 4)).length = 52 + 129280 * 4 := by
    rw [List.length_append, length_lePuts, zeros, List.length_replicate]
    rfl
  have hdrop : widePayload.drop (countsAt flash widePayload) =
      lePuts 4 (wideCounts.take 43) ++ (lePuts 4 (wideCounts.drop 43) ++ zeros (2 ^ 20)) := by
    rw [widePayload, countsAt_short, ← List.append_assoc (lePuts 4 shortHeader), List.drop_left' hhead,
      ← List.append_assoc (lePuts 4 (wideCounts.take 43)), lePuts, lePuts, lePuts,
      ← List.flatMap_append, List.take_append_drop]
  have hlayers : (cpuRestore flash).count = 43 := rfl
  rw [hdrop, hlayers]
  refine ⟨leGets_lePuts_append 4 (wideCounts.take 43) (by decide) _, ?_⟩
  rw [List.drop_left' (by rw [length_lePuts]; rfl)]
  exact leGets_lePuts_append 4 (wideCounts.drop 43) (by decide) _

theorem widePayload_not_safe :
    ¬SafeLoad (ds4SessionLoadPayloadCpu flash) newCpuSession.session widePayload widePayload.length
      [] := by
  obtain ⟨hcomp, hindex⟩ := wideCounts_read
  have hlen : widePayload.length = 52 + 129280 * 4 + 4 * 86 + 2 ^ 20 := by
    rw [widePayload, List.length_append, List.length_append, List.length_append, length_lePuts,
      length_lePuts, zeros, zeros, List.length_replicate, List.length_replicate]
    rfl
  have hcounts : countsAt flash widePayload = 52 + 129280 * 4 := by rw [widePayload, countsAt_short]
  have hcap : sessionCpuCompCap flash newCpuSession.session = 258 :=
    newCpuSession.sessionCpuCompCap (show 2 < flash.nLayer by decide) (by decide)
  have hlayout : layoutOf widePayload = .ofSessionWords shortHeader := by
    rw [layoutOf, widePayload, headerOf_short]
  have hn : ∀ il, nCompIn flash widePayload il = (wideCounts.take 43).getD il 0 := fun il =>
    congrArg (·.getD il 0) hcomp
  have hi : ∀ il, nIndexCompIn flash widePayload il = (wideCounts.drop 43).getD il 0 := fun il =>
    congrArg (·.getD il 0) hindex
  have hpos : cpuRowsAt flash widePayload 3 = 52 + 129280 * 4 + 4 * 86 + 81920 := by
    rw [cpuRowsAt, cpuLayerAt, hcounts, hlayout]
    simp only [cpuSpansIn, hn, hi, hlayout]
    rfl
  have hall : ∀ ns : List Nat, (∀ n ∈ ns, n ∈ wideCounts) →
      AllOk ((cpuRestore flash).compOk newCpuSession.session (layoutOf widePayload))
        (cpuRestore flash).layers ns := by
    intro ns hns q hq
    change (decide (q.2 ≤ (layoutOf widePayload).compCap) &&
      decide (q.2 ≤ sessionCpuCompCap flash newCpuSession.session)) = true
    rw [hlayout, hcap]
    change (decide (q.2 ≤ 258) && decide (q.2 ≤ 258)) = true
    rw [Bool.and_self, decide_eq_true_iff]
    exact wideCounts_le _ (hns _ (List.of_mem_zip hq).2)
  have hcompOk := hall (leGets 4 (cpuRestore flash).count (widePayload.drop (countsAt flash widePayload)))
    fun n h => by
      rw [hcomp] at h
      exact List.mem_of_mem_take h
  have hindexOk := hall (leGets 4 (cpuRestore flash).count
    ((widePayload.drop (countsAt flash widePayload)).drop (4 * (cpuRestore flash).count))) fun n h => by
      rw [hindex] at h
      exact List.mem_of_mem_drop h
  rw [loadPayloadCpu_safe_iff]
  rintro ⟨-, h⟩
  have hfine : (cpuRestore flash).CountsFine newCpuSession.session (layoutOf widePayload)
      ⟨newCpuSession.session, widePayload.drop (countsAt flash widePayload),
        widePayload.length - countsAt flash widePayload, [], false⟩ := by
    refine ⟨?_, ?_, ?_, .inl rfl⟩
    · rw [There, List.length_drop, hlen, hcounts]
      decide
    · dsimp only
      exact hcompOk
    · dsimp only
      exact hindexOk
  refine h ⟨?_, ?_, ?_, ?_, ?_⟩ ⟨?_, hfine⟩ 3 (by decide) ⟨by decide, ?_, ?_⟩
  · rw [hlen]
    decide
  · rw [widePayload, headerOf_short]
    rfl
  · change checkCpu flash newCpuSession.session (layoutOf widePayload) = .ok ()
    rw [hlayout, checkCpu, hcap]
    rfl
  · rw [hlen, widePayload, logitsAt_short]
    decide
  · rw [hlen, hcounts]
    decide
  · rw [hlen, hcounts]
    decide
  · rw [hpos, hn, hlen]
    decide
  · rw [hpos, hn, hlen]
    decide

/-- What the build makes of halves does not matter here. -/
def somePlatform : Platform := ⟨false, true, fun _ => 0, fun _ => 0⟩

/-- The two defects: a payload that ends behind its logits leaves them in a session that is still valid,
and rows are read beyond the array of a layer. -/
theorem ds4SessionLoadPayload_unsafe :
    ¬SafeLoad (ds4SessionLoadPayloadGraph somePlatform flash) someGraphSession cutPayload
      cutPayload.length [] ∧
    ¬SafeLoad (ds4SessionLoadPayloadCpu flash) newCpuSession.session widePayload widePayload.length
      [] :=
  ⟨cutPayload_not_safe somePlatform, widePayload_not_safe⟩

end Ds4.Payload
