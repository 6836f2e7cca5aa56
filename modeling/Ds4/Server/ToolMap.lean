import Ds4.Lib.LittleEndian
import Ds4.Server.ToolMemory
import Ds4.Server.ToolParse

/-!
# The tool-id map of a cache file

A cache file carries, behind its payload, the remembered ids of the tool blocks that occur in its
text. The writer finds the blocks in the text by a search of its own, looks each up in the tool
memory and writes the ids of a block once; the reader puts them into the memory. A file is the list
of its bytes; file operations succeed. A text is a C string.
-/

namespace Ds4
open C Scan Linked

/-! ## Blocks in a text -/

def dsmlToolBlockForms : List (Bytes × Bytes) :=
  dsmlSyntaxes.flatMap fun syn =>
    [(lit "\n\n" ++ syn.toolCallsStart, syn.toolCallsEnd), (syn.toolCallsStart, syn.toolCallsEnd)]

/-- Start and end of the first tool block: the first start marker that some end marker of its form
follows. -/
def findNextDsmlToolBlock (p : Bytes) : Option (Nat × Nat) :=
  dsmlToolBlockForms.foldl (fun best form =>
    match find form.1 p with
    | none => best
    | some s =>
      if best.any (·.1 ≤ s) then best
      else
        match find form.2 (p.drop s) with
        | none => best
        | some e => some (s, s + e + form.2.length)) none

theorem findNextDsmlToolBlock_end (h : findNextDsmlToolBlock p = some (s, e)) :
    0 < e ∧ e ≤ p.length := by
  have hform : ∀ form ∈ dsmlToolBlockForms, 0 < form.2.length := by decide
  rw [findNextDsmlToolBlock] at h
  generalize hb : (none : Option (Nat × Nat)) = best at h
  have hbest : ∀ s e, best = some (s, e) → 0 < e ∧ e ≤ p.length := by
    rintro s e rfl
    cases hb
  clear hb
  generalize dsmlToolBlockForms = forms at h hform
  induction forms generalizing best with
  | nil => exact hbest s e h
  | cons form forms ih =>
    rw [List.foldl_cons] at h
    refine ih _ (fun s e hs => ?_) h fun form hf => hform form (List.mem_cons_of_mem _ hf)
    have hpos := hform form List.mem_cons_self
    split at hs
    · exact hbest s e hs
    · split at hs
      · exact hbest s e hs
      · split at hs
        · exact hbest s e hs
        · next i _ _ k hk =>
          cases hs
          have := find_le hk
          rw [List.length_drop] at this
          omega

/-- The blocks that the loops over a text visit. -/
def dsmlToolBlocks (p : Bytes) : List Bytes :=
  match _h : findNextDsmlToolBlock p with
  | none => []
  | some (s, e) => (p.take e).drop s :: dsmlToolBlocks (p.drop e)
termination_by p.length
decreasing_by
  have := findNextDsmlToolBlock_end ‹_›
  rw [List.length_drop]
  omega

/-! ## Writing -/

def kvToolMapHeader : Nat := 8

def uint32Max : Nat := 2 ^ 32 - 1

def uint64Max : Nat := 2 ^ 64 - 1

/-- The entries of a block, in the order of its list. -/
def toolBlockEntries (m : ToolMemory) (b : Nat) : List Nat :=
  walk m.blockNext m.nextAddr (m.block b).entries

def toolBlockMarkSeen (m : ToolMemory) (b scan : Nat) : ToolMemory :=
  { m with block := Function.update m.block b { m.block b with seen := scan } }

/-- The loop that the measuring and the writing pass share: `f` is called for each entry of each
block that the scan has not seen, and stops the loop with `none`. -/
def kvToolMapVisit {σ : Type} (f : σ → Bytes → Bytes → Option σ) (scan : Nat) :
    ToolMemory → σ → List Bytes → Option σ × ToolMemory
  | m, x, [] => (some x, m)
  | m, x, t :: ts =>
    match toolMemoryFindBlockLocked m t with
    | none => kvToolMapVisit f scan m x ts
    | some b =>
      if (m.block b).seen = scan then kvToolMapVisit f scan m x ts
      else
        let m := toolBlockMarkSeen m b scan
        match (toolBlockEntries m b).foldlM (fun x e => f x (m.entry e).id (m.block b).dsml) x with
        | none => (none, m)
        | some x => kvToolMapVisit f scan m x ts

def kvToolMapMeasureEntry (x : Nat × Nat) (id dsml : Bytes) : Option (Nat × Nat) :=
  let (count, bytes) := x
  if id.length > uint32Max ∨ dsml.length > uint32Max then some (count, bytes)
  else if count = uint32Max then none
  else if uint64Max - bytes < 8 ∨ uint64Max - bytes - 8 < id.length ∨
      uint64Max - bytes - 8 - id.length < dsml.length then none
  else some (count + 1, bytes + (8 + id.length + dsml.length))

/-- The number of entries and the bytes of the map, `none` for a failure. -/
def kvToolMapMeasureLocked (m : ToolMemory) (text : Bytes) : Option (Nat × Nat) × ToolMemory :=
  let scan := m.scanClock + 1
  let r := kvToolMapVisit kvToolMapMeasureEntry scan { m with scanClock := scan }
    (0, kvToolMapHeader) (dsmlToolBlocks text)
  (r.1.map fun x => (x.1, if x.1 = 0 then 0 else x.2), r.2)

def kvToolMapSerializedSize (disabled : Bool) (m : ToolMemory) (text : Bytes) :
    Option Nat × ToolMemory :=
  if disabled ∨ text = [] then (some 0, m)
  else
    let r := kvToolMapMeasureLocked m text
    (r.1.map Prod.snd, r.2)

def kvToolMapEntryBytes (id dsml : Bytes) : Bytes :=
  lePut 4 id.length ++ lePut 4 dsml.length ++ id ++ dsml

def kvToolMapWriteEntry (out id dsml : Bytes) : Option Bytes :=
  if id.length > uint32Max ∨ dsml.length > uint32Max then some out
  else some (out ++ kvToolMapEntryBytes id dsml)

def kvToolMapMagic : Bytes := lit "KTM" ++ [1]

/-- The bytes written, `none` for a failure. -/
def kvToolMapWrite (disabled : Bool) (m : ToolMemory) (text : Bytes) : Option Bytes × ToolMemory :=
  if disabled ∨ text = [] then (some [], m)
  else
    match kvToolMapMeasureLocked m text with
    | (none, m) => (none, m)
    | (some (count, _), m) =>
      if count = 0 then (some [], m)
      else
        let scan := m.scanClock + 1
        kvToolMapVisit kvToolMapWriteEntry scan { m with scanClock := scan }
          (kvToolMapMagic ++ lePut 4 count) (dsmlToolBlocks text)

/-! ## Loading -/

def idListContains (ids : List Bytes) (id : Bytes) : Bool := id ≠ [] && ids.contains id

def toolMemoryPutSource (disabled : Bool) (m : ToolMemory) (id dsml : Bytes)
    (source : ToolMemorySource) : ToolMemory :=
  if disabled ∨ id = [] ∨ dsml = [] then m else toolMemoryPutLocked m (some id) (some dsml) source

/-- The entries of the map; the result counts those that were put. -/
def kvToolMapLoadLoop (disabled : Bool) (wanted : Option (List Bytes)) :
    Nat → ToolMemory → Nat → Bytes → Nat × ToolMemory
  | 0, m, loaded, _ => (loaded, m)
  | n + 1, m, loaded, s =>
    if s.length < 8 then (loaded, m)
    else
      let idLen := leGet (s.take 4)
      let dsmlLen := leGet ((s.drop 4).take 4)
      if idLen = 0 ∨ idLen > 256 ∨ dsmlLen = 0 ∨ dsmlLen > ds4ToolMemoryMaxBytes then (loaded, m)
      else
        let s := s.drop 8
        if s.length < idLen + dsmlLen then (loaded, m)
        else
          let id := cstr (s.take idLen)
          let dsml := cstr ((s.drop idLen).take dsmlLen)
          let s := s.drop (idLen + dsmlLen)
          if wanted.all (idListContains · id) then
            kvToolMapLoadLoop disabled wanted n (toolMemoryPutSource disabled m id dsml .disk)
              (loaded + 1) s
          else kvToolMapLoadLoop disabled wanted n m loaded s

def kvToolMapLoadFromPos (disabled : Bool) (m : ToolMemory) (file : Bytes)
    (wanted : Option (List Bytes)) : Nat × ToolMemory :=
  if disabled then (0, m)
  else if file.length < kvToolMapHeader then (0, m)
  else if file.take 4 ≠ kvToolMapMagic then (0, m)
  else
    let count := leGet ((file.drop 4).take 4)
    if count > toolMemoryMaxEntries m * 4 then (0, m)
    else kvToolMapLoadLoop disabled wanted count m 0 (file.drop kvToolMapHeader)

/-! ## Remembering -/

/-- The ids of the calls of a generated message and their tool text. -/
structure RememberedCalls where
  ids : List Bytes
  rawToolText : Option Bytes
  deriving DecidableEq, Repr

def toolMemoryRemember (disabled : Bool) (m : ToolMemory) (calls : RememberedCalls) : ToolMemory :=
  if disabled ∨ orEmpty calls.rawToolText = [] then m
  else calls.ids.foldl (fun m id => toolMemoryPutLocked m (some id) calls.rawToolText .ram) m

/-- What happens to the memory of a server between two restarts. -/
inductive ToolMapOp
  | remember (calls : RememberedCalls)
  | size (text : Bytes)
  | write (text : Bytes)
  deriving DecidableEq, Repr

def toolMapStep (disabled : Bool) (m : ToolMemory) : ToolMapOp → ToolMemory
  | .remember calls => toolMemoryRemember disabled m calls
  | .size text => (kvToolMapSerializedSize disabled m text).2
  | .write text => (kvToolMapWrite disabled m text).2

def toolMapRun (disabled : Bool) (maxEntries : Int) (maxBytes : Nat) (ops : List ToolMapOp) :
    ToolMemory :=
  ops.foldl (toolMapStep disabled) (.init maxEntries maxBytes)

/-! ## What a scan visits -/

/-- The memory with other scan stamps. -/
def ToolMemory.rescan (m : ToolMemory) (seen : Nat → Nat) (clock : Nat) : ToolMemory :=
  { m with block := fun b => { m.block b with seen := seen b }, scanClock := clock }

namespace ToolMemory

theorem rescan_self (m : ToolMemory) (clock : Nat) :
    { m with scanClock := clock } = m.rescan (fun b => (m.block b).seen) clock := rfl

theorem rescan_rescan (m : ToolMemory) (f g : Nat → Nat) (c d : Nat) :
    (m.rescan f c).rescan g d = m.rescan g d := rfl

theorem rescan_markSeen (m : ToolMemory) (f : Nat → Nat) (c b scan : Nat) :
    toolBlockMarkSeen (m.rescan f c) b scan = m.rescan (Function.update f b scan) c := by
  simp only [toolBlockMarkSeen, rescan, ToolMemory.mk.injEq, true_and, and_true]
  funext x
  rw [Function.update_apply, Function.update_apply]
  split
  · next hx => rw [hx]
  · rfl

theorem Inv.rescan {m : ToolMemory} (h : m.Inv l) (f : Nat → Nat) (c : Nat) :
    (m.rescan f c).Inv l := by
  refine ⟨h.lru, h.byId, h.count, h.stamps, h.clock, h.byBlock, ?_, h.bytes, h.entryBytes,
    h.blockBytes, h.nonempty, h.fresh⟩
  intro b hb
  obtain ⟨le, h1, h2, h3, h4⟩ := h.blockList b hb
  exact ⟨le, h1, h2, h3, h4⟩

end ToolMemory

/-- The blocks that a scan of the texts visits, given those it has seen. -/
def visitBlocks (m : ToolMemory) (seen : Nat → Bool) : List Bytes → List Nat
  | [] => []
  | t :: ts =>
    match toolMemoryFindBlockLocked m t with
    | none => visitBlocks m seen ts
    | some b =>
      if seen b then visitBlocks m seen ts
      else b :: visitBlocks m (Function.update seen b true) ts

theorem mem_visitBlocks {m : ToolMemory} :
    b ∈ visitBlocks m seen ts ↔ seen b = false ∧ ∃ t ∈ ts, toolMemoryFindBlockLocked m t = some b := by
  induction ts generalizing seen with
  | nil => simp [visitBlocks]
  | cons t ts ih =>
    rw [visitBlocks]
    simp only [List.exists_mem_cons_iff]
    cases hf : toolMemoryFindBlockLocked m t with
    | none => simp [ih]
    | some x =>
      simp only [Option.some.injEq]
      by_cases hx : seen x = true
      · rw [if_pos hx, ih]
        refine and_congr_right fun hb => ?_
        have hne : x ≠ b := by
          rintro rfl
          rw [hx] at hb
          cases hb
        simp [hne]
      · rw [if_neg hx, List.mem_cons, ih, Function.update_apply]
        rw [Bool.not_eq_true] at hx
        by_cases hbx : b = x
        · simp [hbx, hx]
        · have hxb : x ≠ b := Ne.symm hbx
          simp [hbx, hxb]

theorem nodup_visitBlocks (m : ToolMemory) (seen : Nat → Bool) (ts : List Bytes) :
    (visitBlocks m seen ts).Nodup := by
  induction ts generalizing seen with
  | nil => exact List.nodup_nil
  | cons t ts ih =>
    rw [visitBlocks]
    split
    · exact ih seen
    · split
      · exact ih seen
      · refine List.nodup_cons.2 ⟨fun hb => ?_, ih _⟩
        have := (mem_visitBlocks.1 hb).1
        rw [Function.update_self] at this
        cases this

/-- The ids and texts of the blocks that a scan visits. -/
def visitPairs (m : ToolMemory) (seen : Nat → Bool) (ts : List Bytes) : List (Bytes × Bytes) :=
  (visitBlocks m seen ts).flatMap fun b =>
    (toolBlockEntries m b).map fun e => ((m.entry e).id, (m.block b).dsml)

/-- A pass runs its step over the visited pairs and changes nothing but the scan stamps. -/
theorem kvToolMapVisit_eq {σ : Type} (f : σ → Bytes → Bytes → Option σ) (m : ToolMemory)
    (scan : Nat) (g : Nat → Nat) (x : σ) (ts : List Bytes) (hg : ∀ b, g b ≤ scan) :
    ∃ g' : Nat → Nat, (∀ b, g' b ≤ scan) ∧
      kvToolMapVisit f scan (m.rescan g scan) x ts =
        ((visitPairs m (fun b => g b = scan) ts).foldlM (fun x p => f x p.1 p.2) x,
          m.rescan g' scan) := by
  induction ts generalizing g x with
  | nil => exact ⟨g, hg, rfl⟩
  | cons t ts ih =>
    rw [kvToolMapVisit, visitPairs, visitBlocks,
      show toolMemoryFindBlockLocked (m.rescan g scan) t = toolMemoryFindBlockLocked m t from rfl]
    cases hf : toolMemoryFindBlockLocked m t with
    | none => exact ih g x hg
    | some b =>
      simp only [decide_eq_true_eq]
      by_cases hb : g b = scan
      · rw [if_pos (show ((m.rescan g scan).block b).seen = scan from hb), if_pos hb]
        exact ih g x hg
      · rw [if_neg (show ((m.rescan g scan).block b).seen ≠ scan from hb), if_neg hb,
          ToolMemory.rescan_markSeen]
        have hg' : ∀ c, Function.update g b scan c ≤ scan := by
          intro c
          rw [Function.update_apply]
          split
          · exact le_rfl
          · exact hg c
        have hseen : Function.update (fun c => decide (g c = scan)) b true =
            fun c => decide (Function.update g b scan c = scan) := by
          funext c
          rw [Function.update_apply, Function.update_apply]
          split <;> simp
        rw [hseen, List.flatMap_cons, List.foldlM_append, List.foldlM_map]
        have hsame : (toolBlockEntries (m.rescan (Function.update g b scan) scan) b).foldlM
            (fun x e => f x ((m.rescan (Function.update g b scan) scan).entry e).id
              ((m.rescan (Function.update g b scan) scan).block b).dsml) x =
            (toolBlockEntries m b).foldlM (fun x e => f x (m.entry e).id (m.block b).dsml) x := rfl
        rw [hsame]
        cases (toolBlockEntries m b).foldlM (fun x e => f x (m.entry e).id (m.block b).dsml) x with
        | none => exact ⟨_, hg', rfl⟩
        | some y => exact ih _ y hg'

/-! ## The pairs of a text -/

/-- The ids and texts that the map of a text holds. -/
def kvToolMapPairs (m : ToolMemory) (text : Bytes) : List (Bytes × Bytes) :=
  visitPairs m (fun _ => false) (dsmlToolBlocks text)

/-- No block has been seen by a later scan. -/
def ToolMemory.Seen (m : ToolMemory) : Prop := ∀ b, (m.block b).seen ≤ m.scanClock

/-- A pass with a new scan stamp visits all pairs of the text. -/
theorem kvToolMapVisit_fresh {σ : Type} (f : σ → Bytes → Bytes → Option σ) (m : ToolMemory)
    (g : Nat → Nat) (c : Nat) (x : σ) (text : Bytes) (hg : ∀ b, g b ≤ c) :
    ∃ g' : Nat → Nat, (∀ b, g' b ≤ c + 1) ∧
      kvToolMapVisit f (c + 1) (m.rescan g (c + 1)) x (dsmlToolBlocks text) =
        ((kvToolMapPairs m text).foldlM (fun x p => f x p.1 p.2) x, m.rescan g' (c + 1)) := by
  have hnone : (fun b => decide (g b = c + 1)) = fun _ => false := by
    funext b
    have := hg b
    exact decide_eq_false (by omega)
  have := kvToolMapVisit_eq f m (c + 1) g x (dsmlToolBlocks text) fun b =>
    (hg b).trans (Nat.le_succ c)
  rwa [hnone] at this

theorem kvToolMapMeasureLocked_eq {m : ToolMemory} (hs : m.Seen) (text : Bytes) :
    ∃ g' : Nat → Nat, (∀ b, g' b ≤ m.scanClock + 1) ∧
      kvToolMapMeasureLocked m text =
        (((kvToolMapPairs m text).foldlM (fun x p => kvToolMapMeasureEntry x p.1 p.2)
          (0, kvToolMapHeader)).map fun x => (x.1, if x.1 = 0 then 0 else x.2),
        m.rescan g' (m.scanClock + 1)) := by
  obtain ⟨g', hg', heq⟩ := kvToolMapVisit_fresh kvToolMapMeasureEntry m (fun b => (m.block b).seen)
    m.scanClock (0, kvToolMapHeader) text hs
  refine ⟨g', hg', ?_⟩
  rw [kvToolMapMeasureLocked, ToolMemory.rescan_self]
  simp only [heq]

/-- The bytes of the entries of a map. -/
def pairBytes (ps : List (Bytes × Bytes)) : Nat :=
  (ps.map fun p => 8 + p.1.length + p.2.length).sum

theorem foldlM_measure {ps : List (Bytes × Bytes)} (count bytes : Nat)
    (hlen : ∀ p ∈ ps, p.1.length ≤ uint32Max ∧ p.2.length ≤ uint32Max)
    (hcount : count + ps.length ≤ uint32Max) (hbytes : bytes + pairBytes ps ≤ uint64Max) :
    ps.foldlM (fun x p => kvToolMapMeasureEntry x p.1 p.2) (count, bytes) =
      some (count + ps.length, bytes + pairBytes ps) := by
  induction ps generalizing count bytes with
  | nil => rfl
  | cons p ps ih =>
    obtain ⟨h1, h2⟩ := hlen p List.mem_cons_self
    simp only [pairBytes, List.map_cons, List.sum_cons, List.length_cons] at hcount hbytes ⊢
    rw [List.foldlM_cons, kvToolMapMeasureEntry, if_neg (by omega), if_neg (by omega),
      if_neg (by omega)]
    have := ih (count + 1) (bytes + (8 + p.1.length + p.2.length))
      (fun q hq => hlen q (List.mem_cons_of_mem _ hq)) (by omega) (by rw [pairBytes]; omega)
    simp only [Option.bind_eq_bind, Option.bind_some, this, pairBytes]
    rw [Nat.add_assoc, Nat.add_assoc, Nat.add_comm 1]

theorem foldlM_write {ps : List (Bytes × Bytes)}
    (hlen : ∀ p ∈ ps, p.1.length ≤ uint32Max ∧ p.2.length ≤ uint32Max) (out : Bytes) :
    ps.foldlM (fun x p => kvToolMapWriteEntry x p.1 p.2) out =
      some (out ++ ps.flatMap fun p => kvToolMapEntryBytes p.1 p.2) := by
  induction ps generalizing out with
  | nil => simp
  | cons p ps ih =>
    obtain ⟨h1, h2⟩ := hlen p List.mem_cons_self
    rw [List.foldlM_cons, kvToolMapWriteEntry, if_neg (by omega), List.flatMap_cons]
    simp only [Option.bind_eq_bind, Option.bind_some]
    rw [ih (fun q hq => hlen q (List.mem_cons_of_mem _ hq)), List.append_assoc]

theorem length_flatMap_entryBytes (ps : List (Bytes × Bytes)) :
    (ps.flatMap fun p => kvToolMapEntryBytes p.1 p.2).length = pairBytes ps := by
  induction ps with
  | nil => rfl
  | cons p ps ih =>
    rw [List.flatMap_cons, List.length_append, ih, pairBytes, pairBytes, List.map_cons,
      List.sum_cons, kvToolMapEntryBytes]
    simp only [List.length_append, length_lePut]

/-- The map as a file. -/
def pairsFile (ps : List (Bytes × Bytes)) : Bytes :=
  if ps = [] then []
  else kvToolMapMagic ++ lePut 4 ps.length ++ ps.flatMap fun p => kvToolMapEntryBytes p.1 p.2

/-- Both passes see the same pairs: the size is the length of what is written. -/
theorem kvToolMapWrite_eq {m : ToolMemory} (hs : m.Seen) (htext : text ≠ [])
    (hlen : ∀ p ∈ kvToolMapPairs m text, p.1.length ≤ uint32Max ∧ p.2.length ≤ uint32Max)
    (hcount : (kvToolMapPairs m text).length ≤ uint32Max)
    (hbytes : kvToolMapHeader + pairBytes (kvToolMapPairs m text) ≤ uint64Max) :
    (kvToolMapSerializedSize false m text).1 = some (pairsFile (kvToolMapPairs m text)).length ∧
      (kvToolMapWrite false m text).1 = some (pairsFile (kvToolMapPairs m text)) := by
  obtain ⟨g, hg, hmeas⟩ := kvToolMapMeasureLocked_eq hs text
  obtain ⟨g', -, hwrite⟩ := kvToolMapVisit_fresh kvToolMapWriteEntry m g (m.scanClock + 1)
    (kvToolMapMagic ++ lePut 4 (kvToolMapPairs m text).length) text hg
  rw [foldlM_measure _ _ hlen (by omega) hbytes] at hmeas
  simp only [Option.map_some, Nat.zero_add] at hmeas
  have hno : ¬ ((false : Bool) = true ∨ text = []) := by simp [htext]
  rw [kvToolMapSerializedSize, kvToolMapWrite, if_neg hno, if_neg hno, hmeas]
  simp only [Option.map_some]
  by_cases hnil : kvToolMapPairs m text = []
  · simp [hnil, pairsFile]
  · have hpos : (kvToolMapPairs m text).length ≠ 0 := fun h => hnil (List.length_eq_zero_iff.1 h)
    rw [if_neg hpos, if_neg hpos, pairsFile, if_neg hnil]
    constructor
    · rw [List.length_append, length_flatMap_entryBytes]
      simp [kvToolMapMagic, kvToolMapHeader]
      decide
    · rw [show (ToolMemory.rescan m g (m.scanClock + 1)).scanClock + 1 = m.scanClock + 1 + 1 from rfl,
        ToolMemory.rescan_self]
      rw [foldlM_write hlen] at hwrite
      exact congrArg Prod.fst hwrite

/-! ## The pairs are remembered texts -/

namespace ToolMemory.Inv

variable {m : ToolMemory} {l : List Nat}

theorem blockEntries (h : m.Inv l) (hb : b ∈ m.blocksOf l) :
    m.BlockList l b (toolBlockEntries m b) := by
  obtain ⟨le, hl⟩ := h.blockList b hb
  have hlen : le.length ≤ m.nextAddr :=
    (hl.nodup.length_le_of_subset fun e he => ((hl.mem e).1 he).1).trans h.length_le
  rw [toolBlockEntries, hl.chain.walk_eq hlen]
  exact hl

theorem findBlock (h : m.Inv l) :
    toolMemoryFindBlockLocked m t = some b ↔ b ∈ m.blocksOf l ∧ (m.block b).dsml = t := by
  rw [toolMemoryFindBlockLocked]
  split
  · next ht =>
    constructor
    · rintro ⟨⟩
    · rintro ⟨hb, hd⟩
      obtain ⟨e, he, rfl⟩ := ToolMemory.mem_blocksOf.1 hb
      exact absurd (hd.trans ht) (h.nonempty e he).2
  · exact h.byBlock t b

theorem visit_mem (h : m.Inv l) (hb : b ∈ visitBlocks m seen ts) : b ∈ m.blocksOf l := by
  obtain ⟨-, t, -, hf⟩ := mem_visitBlocks.1 hb
  exact (h.findBlock.1 hf).1

/-- The pairs of a text are the items of different entries. -/
theorem pairs_eq (h : m.Inv l) (text : Bytes) :
    ∃ es : List Nat, es.Nodup ∧ (∀ e ∈ es, e ∈ l) ∧ kvToolMapPairs m text = es.map m.item := by
  have hmem := fun b (hb : b ∈ visitBlocks m (fun _ => false) (dsmlToolBlocks text)) =>
    h.blockEntries (h.visit_mem hb)
  refine ⟨(visitBlocks m (fun _ => false) (dsmlToolBlocks text)).flatMap (toolBlockEntries m),
    ?_, ?_, ?_⟩
  · refine List.nodup_flatMap.2 ⟨fun b hb => (hmem b hb).nodup, ?_⟩
    refine List.Pairwise.imp_of_mem ?_ (nodup_visitBlocks m _ _)
    intro b c hb hc hne
    refine List.disjoint_left.2 fun e heb hec => hne ?_
    exact (((hmem b hb).mem e).1 heb).2.symm.trans (((hmem c hc).mem e).1 hec).2
  · intro e he
    obtain ⟨b, hb, heb⟩ := List.mem_flatMap.1 he
    exact (((hmem b hb).mem e).1 heb).1
  · rw [kvToolMapPairs, visitPairs, List.map_flatMap]
    refine List.flatMap_congr fun b hb => List.map_congr_left fun e he => ?_
    rw [ToolMemory.item, (((hmem b hb).mem e).1 he).2]

theorem pairs_subset (h : m.Inv l) (text : Bytes) (hp : p ∈ kvToolMapPairs m text) :
    p ∈ m.items l := by
  obtain ⟨es, -, hes, heq⟩ := h.pairs_eq text
  rw [heq] at hp
  obtain ⟨e, he, rfl⟩ := List.mem_map.1 hp
  exact ToolMemory.mem_items.2 ⟨e, hes e he, rfl⟩

theorem pairs_nodup (h : m.Inv l) (text : Bytes) :
    ((kvToolMapPairs m text).map Prod.fst).Nodup := by
  obtain ⟨es, hnd, hes, heq⟩ := h.pairs_eq text
  rw [heq, List.map_map]
  exact List.Nodup.map_on (fun x hx y hy hxy => h.id_inj (hes x hx) (hes y hy) hxy) hnd

theorem pairs_length (h : m.Inv l) (text : Bytes) : (kvToolMapPairs m text).length ≤ m.entries := by
  obtain ⟨es, hnd, hes, heq⟩ := h.pairs_eq text
  rw [heq, List.length_map, h.count]
  exact hnd.length_le_of_subset hes

/-- A remembered pair is written exactly when its text is one of the blocks of the cache text. -/
theorem mem_pairs (h : m.Inv l) (text : Bytes) (hp : (i, t) ∈ m.items l) :
    (i, t) ∈ kvToolMapPairs m text ↔ t ∈ dsmlToolBlocks text := by
  rw [kvToolMapPairs, visitPairs]
  simp only [List.mem_flatMap, List.mem_map]
  constructor
  · rintro ⟨b, hb, e, -, hpair⟩
    obtain ⟨-, t', ht', hf⟩ := mem_visitBlocks.1 hb
    obtain ⟨-, hd⟩ := h.findBlock.1 hf
    obtain ⟨-, rfl⟩ := Prod.mk.inj hpair
    rwa [hd]
  · intro ht
    obtain ⟨e, he, hitem⟩ := ToolMemory.mem_items.1 hp
    obtain ⟨rfl, rfl⟩ := Prod.mk.inj hitem
    have hb := h.block_mem he
    refine ⟨(m.entry e).block, mem_visitBlocks.2 ⟨rfl, _, ht, h.findBlock.2 ⟨hb, rfl⟩⟩, e, ?_, rfl⟩
    exact ((h.blockEntries hb).mem e).2 ⟨he, rfl⟩

end ToolMemory.Inv

/-! ## Loading what was written -/

/-- A pair that the reader accepts. -/
structure PairOk (p : Bytes × Bytes) : Prop where
  id_ne : p.1 ≠ []
  id_len : p.1.length ≤ 256
  id_nul : 0 ∉ p.1
  text_ne : p.2 ≠ []
  text_len : p.2.length ≤ ds4ToolMemoryMaxBytes
  text_nul : 0 ∉ p.2

/-- The reader puts one written entry and goes on behind it. -/
theorem kvToolMapLoadLoop_entry (h : PairOk (i, t)) (m : ToolMemory) (n k : Nat) (rest : Bytes) :
    kvToolMapLoadLoop false none (k + 1) m n (kvToolMapEntryBytes i t ++ rest) =
      kvToolMapLoadLoop false none k (toolMemoryPutLocked m (some i) (some t) .disk) (n + 1) rest := by
  obtain ⟨hine, hilen, hinul, htne, htlen, htnul⟩ := h
  have hid : 0 < i.length := List.length_pos_iff.2 hine
  have htx : 0 < t.length := List.length_pos_iff.2 htne
  have hmax : ds4ToolMemoryMaxBytes < 256 ^ 4 := by decide
  have hi4 : leGet (lePut 4 i.length) = i.length := leGet_lePut (by simp only at hilen; omega)
  have ht4 : leGet (lePut 4 t.length) = t.length := leGet_lePut (by simp only at htlen; omega)
  have hs : kvToolMapEntryBytes i t ++ rest =
      lePut 4 i.length ++ (lePut 4 t.length ++ (i ++ (t ++ rest))) := by
    simp [kvToolMapEntryBytes]
  have h1 : (kvToolMapEntryBytes i t ++ rest).take 4 = lePut 4 i.length := by
    rw [hs, List.take_left' (length_lePut _ _)]
  have h2 : ((kvToolMapEntryBytes i t ++ rest).drop 4).take 4 = lePut 4 t.length := by
    rw [hs, List.drop_left' (length_lePut _ _), List.take_left' (length_lePut _ _)]
  have h3 : (kvToolMapEntryBytes i t ++ rest).drop 8 = i ++ (t ++ rest) := by
    rw [hs, ← List.append_assoc, List.drop_left' (by simp)]
  have h4 : (i ++ (t ++ rest)).drop (i.length + t.length) = rest := by
    rw [← List.append_assoc, List.drop_left' (by simp)]
  have hlen : ¬ (kvToolMapEntryBytes i t ++ rest).length < 8 := by
    rw [hs]
    simp only [List.length_append, length_lePut]
    omega
  have hlen2 : ¬ (i ++ (t ++ rest)).length < i.length + t.length := by
    simp only [List.length_append]
    omega
  have hcheck : ¬ (i.length = 0 ∨ i.length > 256 ∨ t.length = 0 ∨
      t.length > ds4ToolMemoryMaxBytes) := by
    simp only at hilen htlen
    omega
  have hput : toolMemoryPutSource false m i t .disk =
      toolMemoryPutLocked m (some i) (some t) .disk := by
    rw [toolMemoryPutSource, if_neg]
    rintro (h | h | h)
    · cases h
    · exact hine h
    · exact htne h
  rw [kvToolMapLoadLoop, if_neg hlen]
  simp only [h1, h2, h3, hi4, ht4]
  rw [if_neg hcheck, if_neg hlen2, List.take_left, List.drop_left, List.take_left, h4,
    cstr_of_notMem hinul, cstr_of_notMem htnul, hput]
  rfl

theorem kvToolMapLoadLoop_pairs {ps : List (Bytes × Bytes)} (hok : ∀ p ∈ ps, PairOk p)
    (m : ToolMemory) (n : Nat) :
    kvToolMapLoadLoop false none ps.length m n
        (ps.flatMap fun p => kvToolMapEntryBytes p.1 p.2) =
      (n + ps.length, ps.foldl (fun m p => toolMemoryPutLocked m (some p.1) (some p.2) .disk) m) := by
  induction ps generalizing m n with
  | nil => rfl
  | cons p ps ih =>
    rw [List.flatMap_cons, List.length_cons,
      kvToolMapLoadLoop_entry (hok p List.mem_cons_self), List.foldl_cons,
      ih (fun q hq => hok q (List.mem_cons_of_mem _ hq))]
    rw [Nat.add_assoc, Nat.add_comm 1]

theorem kvToolMapLoadFromPos_pairs {ps : List (Bytes × Bytes)} (hok : ∀ p ∈ ps, PairOk p)
    (m : ToolMemory) (hcount : ps.length ≤ toolMemoryMaxEntries m * 4) (hu32 : ps.length ≤ uint32Max) :
    kvToolMapLoadFromPos false m (pairsFile ps) none =
      (ps.length, ps.foldl (fun m p => toolMemoryPutLocked m (some p.1) (some p.2) .disk) m) := by
  rw [kvToolMapLoadFromPos, if_neg Bool.false_ne_true, pairsFile]
  by_cases hnil : ps = []
  · subst hnil
    rfl
  · rw [if_neg hnil]
    have h4 : leGet (lePut 4 ps.length) = ps.length :=
      leGet_lePut (Nat.lt_of_le_of_lt hu32 (by decide))
    have hmagic : kvToolMapMagic.length = 4 := by decide
    have hlen : ¬ (kvToolMapMagic ++ lePut 4 ps.length ++
        ps.flatMap fun p => kvToolMapEntryBytes p.1 p.2).length < kvToolMapHeader := by
      simp only [List.length_append, hmagic, length_lePut, kvToolMapHeader]
      omega
    rw [if_neg hlen, List.append_assoc, List.take_left' hmagic, if_neg (not_not.2 rfl)]
    simp only [List.drop_left' hmagic, List.take_left' (length_lePut _ _), h4]
    rw [if_neg (Nat.not_lt.2 hcount), ← List.append_assoc, List.drop_left' (by simp [hmagic, kvToolMapHeader]),
      kvToolMapLoadLoop_pairs hok, Nat.zero_add]

/-- Putting pairs of a memory within its limits into an empty one drops none of them. -/
theorem ToolMemory.Inv.load_pairs {m : ToolMemory} (h : m.Inv l) (hfits : toolMemoryOver m = false)
    {ps : List (Bytes × Bytes)} (hnd : (ps.map Prod.fst).Nodup) (hok : ∀ p ∈ ps, PairOk p)
    (hsub : ∀ p ∈ ps, p ∈ m.items l) :
    let m' := ps.foldl (fun m p => toolMemoryPutLocked m (some p.1) (some p.2) .disk)
      (.init m.maxEntries m.maxBytes)
    ∃ l', m'.Inv l' ∧ m'.maxEntries = m.maxEntries ∧ m'.maxBytes = m.maxBytes ∧
      m'.items l' = ps.toFinset := by
  induction ps using List.reverseRecOn with
  | nil => exact ⟨[], .init _ _, rfl, rfl, rfl⟩
  | append_singleton ps p ih =>
    have hmem : ∀ q ∈ ps, q ∈ ps ++ [p] := fun q hq => List.mem_append_left _ hq
    have hp : p ∈ ps ++ [p] := by simp
    rw [List.map_append, List.nodup_append] at hnd
    obtain ⟨l', hinv, h1, h2, hitems⟩ := ih hnd.1 (fun q hq => hok q (hmem q hq))
      fun q hq => hsub q (hmem q hq)
    simp only [List.foldl_append, List.foldl_cons, List.foldl_nil]
    generalize ps.foldl (fun m p => toolMemoryPutLocked m (some p.1) (some p.2) .disk)
      (.init m.maxEntries m.maxBytes) = m₀ at hinv h1 h2 hitems ⊢
    have hpok := hok p hp
    obtain ⟨l'', hv⟩ := hinv.putUnpruned hpok.id_ne hpok.text_ne .disk
    have hother : (ps.toFinset).filter (·.1 ≠ p.1) = ps.toFinset := by
      refine Finset.filter_true_of_mem fun q hq => ?_
      exact hnd.2.2 q.1 (List.mem_map.2 ⟨q, List.mem_toFinset.1 hq, rfl⟩) p.1 (by simp)
    have hvitems := hv.items
    rw [hitems, hother] at hvitems
    have hsubset : (toolMemoryPutUnpruned m₀ p.1 p.2 .disk).items l'' ⊆ m.items l := by
      rw [hvitems]
      intro q hq
      rcases Finset.mem_insert.1 hq with rfl | hq
      · exact hsub _ hp
      · exact hsub q (hmem q (List.mem_toFinset.1 hq))
    have hkeep := hv.inv.prune_of_fits (h.fits_of_subset hv.inv hsubset
      (hv.maxEntries.trans h1) (hv.maxBytes.trans h2) hfits)
    rw [toolMemoryPutLocked_some hpok.id_ne hpok.text_ne, hkeep]
    refine ⟨l'', hv.inv, hv.maxEntries.trans h1, hv.maxBytes.trans h2, ?_⟩
    rw [hvitems]
    ext q
    simp

/-! ## Runs -/

/-- An id that the server can have given to a call. -/
def IdOk (id : Bytes) : Prop := id.length ≤ 256 ∧ 0 ∉ id

/-- The memory of a server that remembers calls and stores texts. -/
structure ToolMemory.Live (maxEntries : Int) (maxBytes : Nat) (m : ToolMemory) (l : List Nat) :
    Prop where
  inv : m.Inv l
  maxEntries : m.maxEntries = maxEntries
  maxBytes : m.maxBytes = maxBytes
  fits : toolMemoryOver m = false
  seen : m.Seen
  ids : ∀ p ∈ m.items l, IdOk p.1

namespace ToolMemory.Live

variable {maxEntries : Int} {maxBytes : Nat} {m : ToolMemory} {l : List Nat}

theorem init (maxEntries : Int) (maxBytes : Nat) :
    ToolMemory.Live maxEntries maxBytes (.init maxEntries maxBytes) [] :=
  ⟨.init _ _, rfl, rfl, (ToolMemory.Inv.init maxEntries maxBytes).over_nil, fun _ => le_rfl, nofun⟩

theorem rescan (h : ToolMemory.Live maxEntries maxBytes m l) {g : Nat → Nat} {c : Nat}
    (hg : ∀ b, g b ≤ c) : ToolMemory.Live maxEntries maxBytes (m.rescan g c) l :=
  ⟨h.inv.rescan g c, h.maxEntries, h.maxBytes, h.fits, hg, h.ids⟩

theorem put (h : ToolMemory.Live maxEntries maxBytes m l) {id dsml : Bytes} (hid : IdOk id)
    (hdsml : dsml ≠ []) (source : ToolMemorySource) :
    ∃ l', ToolMemory.Live maxEntries maxBytes (toolMemoryPutLocked m (some id) (some dsml) source) l' := by
  by_cases hne : id = []
  · rw [toolMemoryPutLocked, if_pos (.inl hne)]
    exact ⟨l, h⟩
  · obtain ⟨l', hv⟩ := h.inv.put hne hdsml source
    refine ⟨l', hv.inv, hv.maxEntries.trans h.maxEntries, hv.maxBytes.trans h.maxBytes, hv.fits,
      fun b => ?_, fun p hp => ?_⟩
    · rw [hv.scanClock]
      exact (hv.seen b).trans (h.seen b)
    · rcases Finset.mem_insert.1 (hv.items hp) with rfl | hp
      · exact hid
      · exact h.ids p (Finset.mem_filter.1 hp).1

theorem remember (h : ToolMemory.Live maxEntries maxBytes m l) (disabled : Bool)
    {calls : RememberedCalls} (hids : ∀ id ∈ calls.ids, IdOk id) :
    ∃ l', ToolMemory.Live maxEntries maxBytes (toolMemoryRemember disabled m calls) l' := by
  rw [toolMemoryRemember]
  split
  · exact ⟨l, h⟩
  · next hne =>
    rw [not_or] at hne
    obtain ⟨raw, hraw⟩ : ∃ raw, calls.rawToolText = some raw := by
      cases hr : calls.rawToolText with
      | none => rw [hr] at hne; exact absurd rfl hne.2
      | some raw => exact ⟨raw, rfl⟩
    rw [hraw] at hne ⊢
    generalize calls.ids = ids at hids
    induction ids generalizing m l with
    | nil => exact ⟨l, h⟩
    | cons id ids ih =>
      obtain ⟨l', h'⟩ := h.put (hids id List.mem_cons_self) hne.2 .ram
      exact ih h' fun i hi => hids i (List.mem_cons_of_mem _ hi)

theorem measure (h : ToolMemory.Live maxEntries maxBytes m l) (text : Bytes) :
    ToolMemory.Live maxEntries maxBytes (kvToolMapMeasureLocked m text).2 l := by
  obtain ⟨g, hg, heq⟩ := kvToolMapMeasureLocked_eq h.seen text
  rw [heq]
  exact h.rescan hg

theorem size (h : ToolMemory.Live maxEntries maxBytes m l) (disabled : Bool) (text : Bytes) :
    ToolMemory.Live maxEntries maxBytes (kvToolMapSerializedSize disabled m text).2 l := by
  rw [kvToolMapSerializedSize]
  split
  · exact h
  · exact h.measure text

theorem write (h : ToolMemory.Live maxEntries maxBytes m l) (disabled : Bool) (text : Bytes) :
    ToolMemory.Live maxEntries maxBytes (kvToolMapWrite disabled m text).2 l := by
  have hm := h.measure text
  rw [kvToolMapWrite]
  split
  · exact h
  · split
    · next heq => rw [heq] at hm; exact hm
    · next count _ m' heq =>
      rw [heq] at hm
      split
      · exact hm
      · obtain ⟨g, hg, hv⟩ := kvToolMapVisit_fresh kvToolMapWriteEntry m' (fun b => (m'.block b).seen)
          m'.scanClock (kvToolMapMagic ++ lePut 4 count) text hm.seen
        simp only [ToolMemory.rescan_self, hv]
        exact ToolMemory.Live.rescan hm hg

theorem run (disabled : Bool) (maxEntries : Int) (maxBytes : Nat) (ops : List ToolMapOp)
    (hids : ∀ calls, .remember calls ∈ ops → ∀ id ∈ calls.ids, IdOk id) :
    ∃ l, ToolMemory.Live maxEntries maxBytes (toolMapRun disabled maxEntries maxBytes ops) l := by
  induction ops using List.reverseRecOn with
  | nil => exact ⟨[], init maxEntries maxBytes⟩
  | append_singleton ops op ih =>
    obtain ⟨l, h⟩ := ih fun calls hc => hids calls (List.mem_append_left _ hc)
    rw [toolMapRun, List.foldl_append, List.foldl_cons, List.foldl_nil]
    cases op with
    | remember calls => exact h.remember disabled (hids calls (by simp))
    | size text => exact ⟨l, h.size disabled text⟩
    | write text => exact ⟨l, h.write disabled text⟩

end ToolMemory.Live

/-! ## The round trip -/

theorem toolMemoryMaxBytes_le {m : ToolMemory} (h : m.maxBytes ≤ ds4ToolMemoryMaxBytes) :
    toolMemoryMaxBytes m ≤ ds4ToolMemoryMaxBytes := by
  rw [toolMemoryMaxBytes]
  split
  · exact h
  · exact le_rfl

theorem toolMemoryMaxEntries_lt {m : ToolMemory} (h : m.maxEntries < 2 ^ 31) :
    toolMemoryMaxEntries m < 2 ^ 31 := by
  rw [toolMemoryMaxEntries]
  split
  · omega
  · decide

/-- The sizes of a remembered pair. -/
theorem ToolMemory.Inv.item_le {m : ToolMemory} (h : m.Inv l) (hp : p ∈ m.items l) :
    p.1.length ≤ m.bytes ∧ p.2.length ≤ m.bytes := by
  have h1 := Finset.single_le_sum (f := fun q : Bytes × Bytes => q.1.length + 1 + sizeofEntry)
    (fun _ _ => Nat.zero_le _) hp
  have h2 := Finset.single_le_sum (f := fun t : Bytes => t.length + 1 + sizeofBlock)
    (fun _ _ => Nat.zero_le _) (Finset.mem_image_of_mem Prod.snd hp)
  rw [h.bytes_eq, itemBytes]
  omega

theorem mem_dsmlToolBlocks (h : t ∈ dsmlToolBlocks p) : t <:+: p := by
  induction p using dsmlToolBlocks.induct with
  | case1 p hf =>
    rw [dsmlToolBlocks] at h
    split at h
    · cases h
    · next hf' => rw [hf] at hf'; cases hf'
  | case2 p s e hf ih =>
    rw [dsmlToolBlocks] at h
    split at h
    · cases h
    · next s' e' hf' =>
      rw [hf] at hf'
      cases hf'
      rcases List.mem_cons.1 h with rfl | h
      · exact (List.drop_suffix s _).isInfix.trans (List.take_prefix e p).isInfix
      · exact (ih h).trans (List.drop_suffix e p).isInfix

/-- What the pairs of a text are like. -/
theorem ToolMemory.Live.pairs_ok {maxEntries : Int} {maxBytes : Nat} {m : ToolMemory}
    (h : ToolMemory.Live maxEntries maxBytes m l) (hbytes : maxBytes ≤ ds4ToolMemoryMaxBytes) (htext : 0 ∉ text)
    (hp : p ∈ kvToolMapPairs m text) : PairOk p := by
  have hmem := h.inv.pairs_subset text hp
  have hblock := (h.inv.mem_pairs text (i := p.1) (t := p.2) hmem).1 hp
  obtain ⟨h1, h2⟩ := h.inv.item_le hmem
  have hle : m.bytes ≤ ds4ToolMemoryMaxBytes :=
    (toolMemoryOver_eq_false.1 h.fits).2.trans (toolMemoryMaxBytes_le (h.maxBytes ▸ hbytes))
  obtain ⟨e, he, rfl⟩ := ToolMemory.mem_items.1 hmem
  refine ⟨(h.inv.nonempty e he).1, (h.ids _ hmem).1, (h.ids _ hmem).2, (h.inv.nonempty e he).2,
    h2.trans hle, fun h0 => htext ?_⟩
  exact (mem_dsmlToolBlocks hblock).subset h0

theorem pairBytes_le {ps : List (Bytes × Bytes)} (h : ∀ p ∈ ps, p.1.length ≤ n ∧ p.2.length ≤ n) :
    pairBytes ps ≤ ps.length * (8 + n + n) := by
  have := List.sum_le_card_nsmul (ps.map fun p => 8 + p.1.length + p.2.length) (8 + n + n) (by
    intro x hx
    obtain ⟨p, hp, rfl⟩ := List.mem_map.1 hx
    have := h p hp
    omega)
  rw [List.length_map] at this
  exact this

/-- The text a lookup of `id` returns. -/
def lookupText (m : ToolMemory) (id : Bytes) : Option Bytes :=
  (toolMemoryLookupLocked m (some id)).1.map Prod.fst

/-- The size is that of the file, and the file loaded into an empty memory holds the pairs. -/
theorem ToolMemory.Live.store_load {maxEntries : Int} {maxBytes : Nat} {m : ToolMemory}
    (h : ToolMemory.Live maxEntries maxBytes m l) (hmax : maxEntries < 2 ^ 31)
    (hbytes : maxBytes ≤ ds4ToolMemoryMaxBytes) (htext : 0 ∉ text) :
    ∃ file, (kvToolMapWrite false m text).1 = some file ∧
      (kvToolMapSerializedSize false m text).1 = some file.length ∧
      ∀ id t, lookupText (kvToolMapLoadFromPos false (.init maxEntries maxBytes) file none).2 id =
        some t ↔ (id, t) ∈ kvToolMapPairs m text := by
  have hfits := toolMemoryOver_eq_false.1 h.fits
  have hle : m.bytes ≤ ds4ToolMemoryMaxBytes :=
    hfits.2.trans (toolMemoryMaxBytes_le (h.maxBytes ▸ hbytes))
  have hcount : (kvToolMapPairs m text).length ≤ toolMemoryMaxEntries m :=
    (h.inv.pairs_length text).trans hfits.1
  have hlt : toolMemoryMaxEntries m < 2 ^ 31 := toolMemoryMaxEntries_lt (h.maxEntries ▸ hmax)
  have hok : ∀ p ∈ kvToolMapPairs m text, PairOk p := fun p hp => h.pairs_ok hbytes htext hp
  have hlen : ∀ p ∈ kvToolMapPairs m text,
      p.1.length ≤ ds4ToolMemoryMaxBytes ∧ p.2.length ≤ ds4ToolMemoryMaxBytes := by
    intro p hp
    obtain ⟨h1, h2⟩ := h.inv.item_le (h.inv.pairs_subset text hp)
    exact ⟨h1.trans hle, h2.trans hle⟩
  have hu32 : ds4ToolMemoryMaxBytes ≤ uint32Max := by decide
  have hload := kvToolMapLoadFromPos_pairs hok (.init maxEntries maxBytes) (by
    rw [← h.maxEntries, ← h.maxBytes]
    exact hcount.trans (Nat.le_mul_of_pos_right _ (by decide))) (by
    have : 2 ^ 31 ≤ uint32Max := by decide
    omega)
  obtain ⟨l', hinv, -, -, hitems⟩ := h.inv.load_pairs h.fits (h.inv.pairs_nodup text) hok
    fun p hp => h.inv.pairs_subset text hp
  rw [h.maxEntries, h.maxBytes] at hinv hitems
  refine ⟨pairsFile (kvToolMapPairs m text), ?_⟩
  have hfinal : ∀ id t, lookupText (kvToolMapLoadFromPos false (.init maxEntries maxBytes)
      (pairsFile (kvToolMapPairs m text)) none).2 id = some t ↔
        (id, t) ∈ kvToolMapPairs m text := by
    intro id t
    rw [hload, lookupText, hinv.lookup_eq, hitems, List.mem_toFinset]
  by_cases hnil : text = []
  · subst hnil
    have hblocks : dsmlToolBlocks [] = [] := by
      rw [dsmlToolBlocks]
      rfl
    have hpairs : kvToolMapPairs m [] = [] := by
      rw [kvToolMapPairs, hblocks]
      rfl
    refine ⟨?_, ?_, hfinal⟩
    · rw [hpairs]
      rfl
    · rw [hpairs]
      rfl
  · obtain ⟨hsize, hwrite⟩ := kvToolMapWrite_eq h.seen hnil
      (fun p hp => ⟨(hlen p hp).1.trans hu32, (hlen p hp).2.trans hu32⟩)
      (by
        have : 2 ^ 31 ≤ uint32Max := by decide
        omega)
      (by
        have h1 := pairBytes_le hlen
        have h2 : (kvToolMapPairs m text).length * (8 + ds4ToolMemoryMaxBytes + ds4ToolMemoryMaxBytes) ≤
            2 ^ 31 * (8 + ds4ToolMemoryMaxBytes + ds4ToolMemoryMaxBytes) :=
          Nat.mul_le_mul_right _ (hcount.trans hlt.le)
        have h3 : kvToolMapHeader + 2 ^ 31 * (8 + ds4ToolMemoryMaxBytes + ds4ToolMemoryMaxBytes) ≤
            uint64Max := by decide
        omega)
    exact ⟨hwrite, hsize, hfinal⟩

/-- A disabled server remembers nothing. -/
theorem toolMapRun_disabled (maxEntries : Int) (maxBytes : Nat) (ops : List ToolMapOp) :
    toolMapRun true maxEntries maxBytes ops = .init maxEntries maxBytes := by
  rw [toolMapRun]
  induction ops with
  | nil => rfl
  | cons op ops ih =>
    rw [List.foldl_cons]
    cases op <;> exact ih

def plainCallText : Bytes := lit "<tool_calls><invoke name=\"f\"></invoke></tool_calls>"

def storedPlainCall : List ToolMapOp := [.remember ⟨[lit "call_1"], some plainCallText⟩]

/-- What a lookup of `id` yields after a block was remembered under it, stored as a text of its own
and loaded again. -/
def reloaded (id block : Bytes) : Option (Option Bytes) :=
  (kvToolMapWrite false (toolMapRun false 0 0 [.remember ⟨[id], some block⟩]) block).1.map fun file =>
    lookupText (kvToolMapLoadFromPos false (.init 0 0) file none).2 id

def glmCallText : Bytes := lit "<tool_call>f</tool_call>"

/-- The value of the parameter quotes the closing tag of the block. -/
def quotingCallText : Bytes :=
  lit "<tool_calls><invoke name=\"f\"><parameter name=\"a\" string=\"true\">" ++
    lit "</tool_calls></parameter></invoke></tool_calls>"

end Ds4
