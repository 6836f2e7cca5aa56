import Mathlib.Algebra.Order.BigOperators.Group.Finset
import Mathlib.Data.Finset.Image
import Ds4.Lib.CString
import Ds4.Lib.DoublyLinked

/-!
# Tool call text memory

For every generated tool call the server remembers the sampled block under the call's id. Entries
stand in a recency list and in the map `by_id`; the blocks they share are reference counted, stand
in the map `by_block` and hold a list of their entries. The radix trees are maps. Entries and blocks
are addresses, new ones are numbered in the order of their allocation; `blockNext` and the pointers
of `lru` are the link fields of the entries.
-/

namespace Ds4
open C Linked

inductive ToolMemorySource
  | ram
  | disk
  deriving DecidableEq, Repr

structure ToolMemoryEntry where
  id : Bytes
  block : Nat
  bytes : Nat
  stamp : Nat
  source : ToolMemorySource
  deriving DecidableEq, Repr

structure ToolMemoryBlock where
  dsml : Bytes
  bytes : Nat
  refs : Nat
  seen : Nat
  entries : Option Nat
  deriving DecidableEq, Repr

structure ToolMemory where
  byId : Bytes → Option Nat
  byBlock : Bytes → Option Nat
  lru : DList Nat
  blockNext : Nat → Option Nat
  entry : Nat → ToolMemoryEntry
  block : Nat → ToolMemoryBlock
  entries : Nat
  maxEntries : Int
  bytes : Nat
  maxBytes : Nat
  clock : Nat
  scanClock : Nat
  nextAddr : Nat

def ToolMemory.init (maxEntries : Int) (maxBytes : Nat) : ToolMemory where
  byId _ := none
  byBlock _ := none
  lru := .empty
  blockNext _ := none
  entry _ := ⟨[], 0, 0, 0, .ram⟩
  block _ := ⟨[], 0, 0, 0, none⟩
  entries := 0
  maxEntries := maxEntries
  bytes := 0
  maxBytes := maxBytes
  clock := 0
  scanClock := 0
  nextAddr := 0

def ds4ToolMemoryDefaultMaxIds : Nat := 100000

def ds4ToolMemoryMaxBytes : Nat := 512 * 1024 * 1024

/-- `sizeof(tool_memory_entry)` and `sizeof(tool_memory_block)` with 64-bit pointers. -/
def sizeofEntry : Nat := 64

def sizeofBlock : Nat := 48

def toolMemoryMaxEntries (m : ToolMemory) : Nat :=
  if 0 < m.maxEntries then m.maxEntries.toNat else ds4ToolMemoryDefaultMaxIds

def toolMemoryMaxBytes (m : ToolMemory) : Nat :=
  if 0 < m.maxBytes then m.maxBytes else ds4ToolMemoryMaxBytes

def toolMemoryTouch (m : ToolMemory) (e : Nat) : ToolMemory :=
  { m with
    clock := m.clock + 1
    entry := Function.update m.entry e { m.entry e with stamp := m.clock + 1 }
    lru := if m.lru.head = some e then m.lru else (m.lru.unlink e).linkHead e }

/-- The walk over the entries of a block visits each address once, so `nextAddr` bounds it. -/
def toolBlockUnlinkEntry (m : ToolMemory) (b e : Nat) : ToolMemory :=
  match Queue.scan m.blockNext (fun x => if x = e then some () else none) (m.nextAddr + 1) none
      (m.block b).entries with
  | none => m
  | some (_, none, _) => { m with
      block := Function.update m.block b { m.block b with entries := m.blockNext e }
      blockNext := Function.update m.blockNext e none }
  | some (_, some p, _) => { m with
      blockNext := Function.update (Function.update m.blockNext p (m.blockNext e)) e none }

def toolMemoryFindBlockLocked (m : ToolMemory) (dsml : Bytes) : Option Nat :=
  if dsml = [] then none else m.byBlock dsml

def toolMemoryGetBlockLocked (m : ToolMemory) (dsml : Bytes) : ToolMemory × Nat :=
  match toolMemoryFindBlockLocked m dsml with
  | some b => (m, b)
  | none =>
    let b : ToolMemoryBlock := ⟨dsml, dsml.length + 1 + sizeofBlock, 0, 0, none⟩
    ({ m with
      block := Function.update m.block m.nextAddr b
      byBlock := Function.update m.byBlock dsml (some m.nextAddr)
      bytes := m.bytes + b.bytes
      nextAddr := m.nextAddr + 1 }, m.nextAddr)

def toolMemoryReleaseBlockLocked (m : ToolMemory) (b : Nat) : ToolMemory :=
  let refs := (m.block b).refs - 1
  let m := { m with block := Function.update m.block b { m.block b with refs := refs } }
  if 0 < refs then m
  else { m with
    byBlock := Function.update m.byBlock (m.block b).dsml none
    bytes := if (m.block b).bytes ≤ m.bytes then m.bytes - (m.block b).bytes else 0 }

def toolMemoryRemoveEntryLocked (m : ToolMemory) (e : Nat) : ToolMemory :=
  let m := { m with byId := Function.update m.byId (m.entry e).id none, lru := m.lru.unlink e }
  let m := toolBlockUnlinkEntry m (m.entry e).block e
  let m := { m with
    bytes := if (m.entry e).bytes ≤ m.bytes then m.bytes - (m.entry e).bytes else 0
    entries := if 0 < m.entries then m.entries - 1 else m.entries }
  toolMemoryReleaseBlockLocked m (m.entry e).block

/-- A limit is exceeded. -/
def toolMemoryOver (m : ToolMemory) : Bool :=
  toolMemoryMaxEntries m < m.entries || toolMemoryMaxBytes m < m.bytes

def toolMemoryRemoveTail (m : ToolMemory) : ToolMemory :=
  match m.lru.tail with
  | some e => toolMemoryRemoveEntryLocked m e
  | none => m

/-- The loop of `tool_memory_prune_locked`, with a bound on its rounds. -/
def toolMemoryPruneLoop : Nat → ToolMemory → ToolMemory
  | 0, m => m
  | n + 1, m =>
    if toolMemoryOver m && m.lru.tail.isSome then toolMemoryPruneLoop n (toolMemoryRemoveTail m)
    else m

def toolMemoryPruneLocked (m : ToolMemory) : ToolMemory := toolMemoryPruneLoop m.nextAddr m

def toolMemoryFindEntryLocked (m : ToolMemory) (id : Bytes) : Option Nat :=
  if id = [] then none else m.byId id

/-- A new entry for the block `b`. -/
def toolMemoryLinkEntry (m : ToolMemory) (id : Bytes) (b : Nat) (source : ToolMemorySource) :
    ToolMemory :=
  let e := m.nextAddr
  let bytes := id.length + 1 + sizeofEntry
  { m with
    clock := m.clock + 1
    entry := Function.update m.entry e ⟨id, b, bytes, m.clock + 1, source⟩
    blockNext := Function.update m.blockNext e (m.block b).entries
    block := Function.update m.block b
      { m.block b with entries := some e, refs := (m.block b).refs + 1 }
    byId := Function.update m.byId id (some e)
    lru := m.lru.linkHead e
    entries := m.entries + 1
    bytes := m.bytes + bytes
    nextAddr := m.nextAddr + 1 }

/-- The new entry of `tool_memory_put_locked`, in a memory without one for its id. -/
def toolMemoryInsert (m : ToolMemory) (id dsml : Bytes) (source : ToolMemorySource) : ToolMemory :=
  let (m, b) := toolMemoryGetBlockLocked m dsml
  toolMemoryLinkEntry m id b source

/-- `tool_memory_put_locked` before it prunes. -/
def toolMemoryPutUnpruned (m : ToolMemory) (id dsml : Bytes) (source : ToolMemorySource) :
    ToolMemory :=
  match toolMemoryFindEntryLocked m id with
  | some old =>
    if (m.block (m.entry old).block).dsml = dsml then
      toolMemoryTouch { m with
        entry := Function.update m.entry old { m.entry old with
          source := if source = .ram then .ram else (m.entry old).source } } old
    else toolMemoryInsert (toolMemoryRemoveEntryLocked m old) id dsml source
  | none => toolMemoryInsert m id dsml source

def toolMemoryPutLocked (m : ToolMemory) (id dsml : Option Bytes) (source : ToolMemorySource) :
    ToolMemory :=
  if orEmpty id = [] ∨ orEmpty dsml = [] then m
  else toolMemoryPruneLocked (toolMemoryPutUnpruned m (orEmpty id) (orEmpty dsml) source)

/-- The text, its source and block, and the memory with the entry touched. -/
def toolMemoryLookupLocked (m : ToolMemory) (id : Option Bytes) :
    Option (Bytes × ToolMemorySource × Nat) × ToolMemory :=
  match toolMemoryFindEntryLocked m (orEmpty id) with
  | none => (none, m)
  | some e =>
    let b := (m.entry e).block
    (some ((m.block b).dsml, (m.entry e).source, b), toolMemoryTouch m e)

/-! ## The invariant -/

/-- The blocks that the entries `l` refer to. -/
def ToolMemory.blocksOf (m : ToolMemory) (l : List Nat) : Finset Nat :=
  (l.map fun e => (m.entry e).block).toFinset

/-- The entries of a block: its list and its count. -/
structure ToolMemory.BlockList (m : ToolMemory) (l : List Nat) (b : Nat) (le : List Nat) : Prop where
  chain : Chain m.blockNext (m.block b).entries le
  nodup : le.Nodup
  mem : ∀ e, e ∈ le ↔ e ∈ l ∧ (m.entry e).block = b
  refs : (m.block b).refs = le.length

/-- The structures of the memory agree with the recency list `l`. -/
structure ToolMemory.Inv (m : ToolMemory) (l : List Nat) : Prop where
  lru : m.lru.Repr l
  byId : ∀ id e, m.byId id = some e ↔ e ∈ l ∧ (m.entry e).id = id
  count : m.entries = l.length
  stamps : l.Pairwise fun a b => (m.entry b).stamp < (m.entry a).stamp
  clock : ∀ e ∈ l, (m.entry e).stamp ≤ m.clock
  byBlock : ∀ dsml b, m.byBlock dsml = some b ↔ b ∈ m.blocksOf l ∧ (m.block b).dsml = dsml
  blockList : ∀ b ∈ m.blocksOf l, ∃ le, m.BlockList l b le
  bytes : m.bytes = (l.map fun e => (m.entry e).bytes).sum + ∑ b ∈ m.blocksOf l, (m.block b).bytes
  entryBytes : ∀ e ∈ l, (m.entry e).bytes = (m.entry e).id.length + 1 + sizeofEntry
  blockBytes : ∀ b ∈ m.blocksOf l, (m.block b).bytes = (m.block b).dsml.length + 1 + sizeofBlock
  nonempty : ∀ e ∈ l, (m.entry e).id ≠ [] ∧ (m.block (m.entry e).block).dsml ≠ []
  fresh : ∀ e ∈ l, e < m.nextAddr ∧ (m.entry e).block < m.nextAddr

theorem ToolMemory.mem_blocksOf {m : ToolMemory} :
    b ∈ m.blocksOf l ↔ ∃ e ∈ l, (m.entry e).block = b := by
  simp [ToolMemory.blocksOf]

namespace ToolMemory.Inv

variable {m : ToolMemory} {l : List Nat}

theorem init (maxEntries : Int) (maxBytes : Nat) : (ToolMemory.init maxEntries maxBytes).Inv [] where
  lru := .empty
  byId := by simp [ToolMemory.init]
  count := rfl
  stamps := .nil
  clock := nofun
  byBlock := by simp [ToolMemory.init, ToolMemory.blocksOf]
  blockList := by simp [ToolMemory.blocksOf]
  bytes := rfl
  entryBytes := nofun
  blockBytes := by simp [ToolMemory.blocksOf]
  nonempty := nofun
  fresh := nofun

theorem length_le (h : m.Inv l) : l.length ≤ m.nextAddr := by
  have hsub : l.toFinset ⊆ Finset.range m.nextAddr := by
    intro e he
    exact Finset.mem_range.2 (h.fresh e (List.mem_toFinset.1 he)).1
  have := Finset.card_le_card hsub
  rwa [List.toFinset_card_of_nodup h.lru.nodup, Finset.card_range] at this

theorem block_mem (_h : m.Inv l) (he : e ∈ l) : (m.entry e).block ∈ m.blocksOf l :=
  ToolMemory.mem_blocksOf.2 ⟨e, he, rfl⟩

/-- Entries of two ids are different entries. -/
theorem id_inj (h : m.Inv l) (hx : x ∈ l) (hy : y ∈ l) (hid : (m.entry x).id = (m.entry y).id) :
    x = y := by
  have h1 := (h.byId _ x).2 ⟨hx, hid⟩
  have h2 := (h.byId _ y).2 ⟨hy, rfl⟩
  rw [h1] at h2
  exact Option.some.inj h2

end ToolMemory.Inv

/-! ## Touching -/

/-- What the recency order does not depend on. -/
structure ToolMemory.SameEntries (m m' : ToolMemory) : Prop where
  id : ∀ e, (m'.entry e).id = (m.entry e).id
  block : ∀ e, (m'.entry e).block = (m.entry e).block
  bytes : ∀ e, (m'.entry e).bytes = (m.entry e).bytes

theorem ToolMemory.SameEntries.blocksOf (h : ToolMemory.SameEntries m m') (l : List Nat) :
    m'.blocksOf l = m.blocksOf l := by
  simp only [ToolMemory.blocksOf, h.block]

/-- The invariant for another recency order and other stamps. -/
theorem ToolMemory.Inv.reorder {m m' : ToolMemory} (h : m.Inv l) (hp : l'.Perm l)
    (hs : ToolMemory.SameEntries m m') (hlru : m'.lru.Repr l') (hid : m'.byId = m.byId)
    (hbb : m'.byBlock = m.byBlock) (hnext : m'.blockNext = m.blockNext) (hblock : m'.block = m.block)
    (hcount : m'.entries = m.entries) (hbytes : m'.bytes = m.bytes) (hfresh : m'.nextAddr = m.nextAddr)
    (hstamps : l'.Pairwise fun a b => (m'.entry b).stamp < (m'.entry a).stamp)
    (hclock : ∀ e ∈ l', (m'.entry e).stamp ≤ m'.clock) : m'.Inv l' := by
  have hbo : m'.blocksOf l' = m.blocksOf l := by
    rw [hs.blocksOf]
    ext b
    simp [ToolMemory.mem_blocksOf, hp.mem_iff]
  refine ⟨hlru, ?_, ?_, hstamps, hclock, ?_, ?_, ?_, ?_, ?_, ?_, ?_⟩
  · intro id e
    rw [hid, hs.id, hp.mem_iff]
    exact h.byId id e
  · rw [hcount, hp.length_eq, h.count]
  · intro dsml b
    rw [hbb, hbo, hblock]
    exact h.byBlock dsml b
  · intro b hb
    rw [hbo] at hb
    obtain ⟨le, h1, h2, h3, h4⟩ := h.blockList b hb
    refine ⟨le, ?_, h2, ?_, ?_⟩
    · rw [hnext, hblock]; exact h1
    · intro e; rw [h3, hs.block, hp.mem_iff]
    · rw [hblock]; exact h4
  · rw [hbytes, h.bytes, hbo, hblock]
    simp only [hs.bytes]
    rw [(hp.map _).sum_eq]
  · intro e he
    rw [hs.bytes, hs.id]
    exact h.entryBytes e (hp.mem_iff.1 he)
  · rw [hbo, hblock]
    exact h.blockBytes
  · intro e he
    rw [hs.id, hs.block, hblock]
    exact h.nonempty e (hp.mem_iff.1 he)
  · intro e he
    rw [hs.block, hfresh]
    exact h.fresh e (hp.mem_iff.1 he)

theorem ToolMemory.Inv.touch {m : ToolMemory} (h : m.Inv (a ++ e :: b)) :
    (toolMemoryTouch m e).Inv (e :: (a ++ b)) := by
  have hnd := h.lru.nodup
  have he : e ∉ a ++ b := (List.nodup_cons.1 (List.nodup_middle.1 hnd)).1
  have hperm : (e :: (a ++ b)).Perm (a ++ e :: b) := List.perm_middle.symm
  refine h.reorder hperm ?_ ?_ rfl rfl rfl rfl rfl rfl rfl ?_ ?_
  · refine ⟨?_, ?_, ?_⟩ <;> intro x <;> simp only [toolMemoryTouch, Function.update_apply] <;>
      split <;> simp_all
  · simp only [toolMemoryTouch]
    split
    · next hhead =>
      have ha : a = [] := by
        rw [h.lru.head_eq] at hhead
        cases a with
        | nil => rfl
        | cons x a => cases hhead; simp at he
      subst ha
      exact h.lru
    · exact h.lru.unlink.linkHead he
  · have hst : ∀ x ∈ a ++ b, (m.entry x).stamp < m.clock + 1 := fun x hx =>
      Nat.lt_succ_of_le (h.clock x (hperm.mem_iff.1 (List.mem_cons_of_mem _ hx)))
    have hne : ∀ x ∈ a ++ b, x ≠ e := fun x hx hxe => he (hxe ▸ hx)
    refine List.pairwise_cons.2 ⟨fun x hx => ?_, ?_⟩
    · simp only [toolMemoryTouch, Function.update_self, Function.update_of_ne (hne x hx)]
      exact hst x hx
    · refine List.Pairwise.imp_of_mem ?_ (h.stamps.sublist
        (List.Sublist.append_left (List.sublist_cons_self e b) a))
      intro x y hx hy hxy
      simp only [toolMemoryTouch, Function.update_of_ne (hne x hx), Function.update_of_ne (hne y hy)]
      exact hxy
  · intro x hx
    simp only [toolMemoryTouch, Function.update_apply]
    split
    · exact le_rfl
    · exact (h.clock x (hperm.mem_iff.1 hx)).trans (Nat.le_succ _)

/-! ## Removing -/

theorem toolBlockUnlinkEntry_eq {m : ToolMemory}
    (hc : Chain m.blockNext (m.block b).entries (c ++ e :: d)) (hn : (c ++ e :: d).Nodup)
    (hlen : (c ++ e :: d).length ≤ m.nextAddr) :
    toolBlockUnlinkEntry m b e = { m with
      block := Function.update m.block b { m.block b with
        entries := if c = [] then m.blockNext e else (m.block b).entries }
      blockNext := Function.update (match c.getLast? with
        | some y => Function.update m.blockNext y (m.blockNext e)
        | none => m.blockNext) e none } := by
  have he : e ∉ c ++ d := (List.nodup_cons.1 (List.nodup_middle.1 hn)).1
  rcases hc.scan_eq (fun x => if x = e then some () else none) (Nat.lt_succ_of_le hlen) none with
    ⟨-, hnone⟩ | ⟨c', x, d', r, hsplit, hbefore, hx, hscan⟩
  · have := hnone e (by simp)
    simp at this
  · have hxe : x = e := by
      by_contra hne
      simp [hne] at hx
    subst hxe
    rw [List.mem_append, not_or] at he
    obtain ⟨rfl, -, rfl⟩ := (List.append_cons_inj_of_notMem he.1 he.2).1 hsplit
    rw [toolBlockUnlinkEntry, hscan]
    rcases List.eq_nil_or_concat c with rfl | ⟨c, y, rfl⟩
    · rfl
    · simp [Function.update_eq_self]

/-- The state before the block is released: the entry is out of all lists. -/
def ToolMemory.detach (m : ToolMemory) (e : Nat) (c : List Nat) : ToolMemory :=
  let b := (m.entry e).block
  { m with
    byId := Function.update m.byId (m.entry e).id none
    lru := m.lru.unlink e
    block := Function.update m.block b { m.block b with
      entries := if c = [] then m.blockNext e else (m.block b).entries }
    blockNext := Function.update (match c.getLast? with
      | some y => Function.update m.blockNext y (m.blockNext e)
      | none => m.blockNext) e none
    bytes := m.bytes - (m.entry e).bytes
    entries := m.entries - 1 }

theorem toolMemoryRemoveEntryLocked_eq {m : ToolMemory} (h : m.Inv (a ++ e :: b))
    (hl : m.BlockList (a ++ e :: b) (m.entry e).block (c ++ e :: d)) :
    toolMemoryRemoveEntryLocked m e =
      toolMemoryReleaseBlockLocked (m.detach e c) (m.entry e).block := by
  have hlen : (c ++ e :: d).length ≤ m.nextAddr := by
    have hsub : c ++ e :: d ⊆ a ++ e :: b := fun x hx => ((hl.mem x).1 hx).1
    exact (hl.nodup.length_le_of_subset hsub).trans h.length_le
  have hbytes : (m.entry e).bytes ≤ m.bytes := by
    rw [h.bytes, List.map_append, List.map_cons, List.sum_append, List.sum_cons]
    omega
  have hentries : 0 < m.entries := by
    rw [h.count, List.length_append, List.length_cons]
    omega
  rw [toolMemoryRemoveEntryLocked]
  simp only [toolBlockUnlinkEntry_eq (m := { m with
      byId := Function.update m.byId (m.entry e).id none, lru := m.lru.unlink e })
    hl.chain hl.nodup hlen, if_pos hbytes, if_pos hentries]
  rfl

/-- The entry lists of the blocks after an entry is out. -/
theorem ToolMemory.BlockList.detach {m : ToolMemory} (hnd : (a ++ e :: b).Nodup)
    (hl : m.BlockList (a ++ e :: b) (m.entry e).block (c ++ e :: d))
    (hx : m.BlockList (a ++ e :: b) x le) (hne : x ≠ (m.entry e).block) :
    Chain (m.detach e c).blockNext ((m.detach e c).block x).entries le ∧
      ∀ y, y ∈ le ↔ y ∈ a ++ b ∧ (m.entry y).block = x := by
  have hnot : ∀ y ∈ c ++ e :: d, y ∉ le := by
    intro y hy hyle
    exact hne (((hx.mem y).1 hyle).2.symm.trans ((hl.mem y).1 hy).2)
  have he : e ∉ le := hnot e (by simp)
  constructor
  · simp only [ToolMemory.detach, Function.update_of_ne hne]
    rcases List.eq_nil_or_concat c with rfl | ⟨c, y, rfl⟩
    · exact hx.chain.update he
    · have hy : y ∉ le := hnot y (by simp)
      simp only [List.concat_eq_append, List.getLast?_append, List.getLast?_singleton, Option.some_or]
      exact (hx.chain.update hy).update he
  · intro y
    rw [hx.mem]
    have hmem : y ∈ a ++ e :: b ↔ y = e ∨ y ∈ a ++ b := by
      simp only [List.mem_append, List.mem_cons]
      tauto
    rw [hmem]
    constructor
    · rintro ⟨rfl | h, hb⟩
      · exact absurd hb.symm hne
      · exact ⟨h, hb⟩
    · exact fun h => ⟨.inr h.1, h.2⟩

theorem ToolMemory.BlockList.detach_self {m : ToolMemory} (hnd : (a ++ e :: b).Nodup)
    (hl : m.BlockList (a ++ e :: b) (m.entry e).block (c ++ e :: d)) :
    Chain (m.detach e c).blockNext ((m.detach e c).block (m.entry e).block).entries (c ++ d) ∧
      ∀ y, y ∈ c ++ d ↔ y ∈ a ++ b ∧ (m.entry y).block = (m.entry e).block := by
  have hc := hl.chain.unlink hl.nodup
  constructor
  · simp only [ToolMemory.detach, Function.update_self]
    rcases List.eq_nil_or_concat c with rfl | ⟨c, y, rfl⟩
    · exact hc
    · simpa using hc
  · intro y
    have h1 := hl.mem y
    have he1 : e ∉ c ++ d := (List.nodup_cons.1 (List.nodup_middle.1 hl.nodup)).1
    have he2 : e ∉ a ++ b := (List.nodup_cons.1 (List.nodup_middle.1 hnd)).1
    have m1 : y ∈ c ++ e :: d ↔ y = e ∨ y ∈ c ++ d := by
      simp only [List.mem_append, List.mem_cons]
      tauto
    have m2 : y ∈ a ++ e :: b ↔ y = e ∨ y ∈ a ++ b := by
      simp only [List.mem_append, List.mem_cons]
      tauto
    rw [m1, m2] at h1
    constructor
    · intro hy
      obtain ⟨hy' | hy', hb⟩ := h1.1 (.inr hy)
      · exact absurd (hy' ▸ hy) he1
      · exact ⟨hy', hb⟩
    · rintro ⟨hy, hb⟩
      rcases h1.2 ⟨.inr hy, hb⟩ with hy' | hy'
      · exact absurd (hy' ▸ hy) he2
      · exact hy'

/-- What the release of a block leaves alone. -/
theorem toolMemoryReleaseBlockLocked_frame (m : ToolMemory) (b : Nat) :
    let m' := toolMemoryReleaseBlockLocked m b
    m'.entry = m.entry ∧ m'.byId = m.byId ∧ m'.lru = m.lru ∧ m'.blockNext = m.blockNext ∧
      m'.entries = m.entries ∧ m'.clock = m.clock ∧ m'.nextAddr = m.nextAddr ∧
      m'.maxEntries = m.maxEntries ∧ m'.maxBytes = m.maxBytes ∧ m'.scanClock = m.scanClock ∧
      m'.block = Function.update m.block b { m.block b with refs := (m.block b).refs - 1 } := by
  simp only [toolMemoryReleaseBlockLocked]
  split <;> exact ⟨rfl, rfl, rfl, rfl, rfl, rfl, rfl, rfl, rfl, rfl, rfl⟩

theorem toolMemoryReleaseBlockLocked_last {m : ToolMemory} (hrefs : (m.block b).refs = 1)
    (hbytes : (m.block b).bytes ≤ m.bytes) :
    (toolMemoryReleaseBlockLocked m b).byBlock = Function.update m.byBlock (m.block b).dsml none ∧
      (toolMemoryReleaseBlockLocked m b).bytes = m.bytes - (m.block b).bytes := by
  simp [toolMemoryReleaseBlockLocked, hrefs, hbytes]

theorem toolMemoryReleaseBlockLocked_shared {m : ToolMemory} (hrefs : 1 < (m.block b).refs) :
    (toolMemoryReleaseBlockLocked m b).byBlock = m.byBlock ∧
      (toolMemoryReleaseBlockLocked m b).bytes = m.bytes := by
  have hpos : 0 < (m.block b).refs - 1 := Nat.sub_pos_of_lt hrefs
  simp [toolMemoryReleaseBlockLocked, hpos]

theorem ToolMemory.blocksOf_middle (m : ToolMemory) (a : List Nat) (e : Nat) (b : List Nat) :
    m.blocksOf (a ++ e :: b) = insert (m.entry e).block (m.blocksOf (a ++ b)) := by
  ext x
  simp only [ToolMemory.blocksOf, List.map_append, List.map_cons, List.mem_toFinset,
    List.mem_append, List.mem_cons, Finset.mem_insert]
  tauto

theorem ToolMemory.blocksOf_congr {m m' : ToolMemory} (h : m'.entry = m.entry) (l : List Nat) :
    m'.blocksOf l = m.blocksOf l := by
  simp only [ToolMemory.blocksOf, h]

namespace ToolMemory.Inv

/-- The block of a removed entry remains as long as its list is not empty. -/
theorem block_mem_rest {m : ToolMemory} (h : m.Inv (a ++ e :: b))
    (hl : m.BlockList (a ++ e :: b) (m.entry e).block (c ++ e :: d)) :
    (m.entry e).block ∈ m.blocksOf (a ++ b) ↔ c ++ d ≠ [] := by
  have hmem := (hl.detach_self h.lru.nodup).2
  rw [ToolMemory.mem_blocksOf]
  constructor
  · rintro ⟨y, hy, hb⟩ hnil
    have := (hmem y).2 ⟨hy, hb⟩
    rw [hnil] at this
    cases this
  · intro hne
    obtain ⟨y, hy⟩ := List.exists_mem_of_ne_nil _ hne
    obtain ⟨h1, h2⟩ := (hmem y).1 hy
    exact ⟨y, h1, h2⟩

/-- The map of blocks and the byte count after an entry is removed. -/
theorem remove_blocks {m : ToolMemory} (h : m.Inv (a ++ e :: b))
    (hl : m.BlockList (a ++ e :: b) (m.entry e).block (c ++ e :: d)) :
    (∀ dsml x, (toolMemoryReleaseBlockLocked (m.detach e c) (m.entry e).block).byBlock dsml = some x ↔
      x ∈ m.blocksOf (a ++ b) ∧ (m.block x).dsml = dsml) ∧
    (toolMemoryReleaseBlockLocked (m.detach e c) (m.entry e).block).bytes =
      ((a ++ b).map fun e => (m.entry e).bytes).sum +
        ∑ x ∈ m.blocksOf (a ++ b), (m.block x).bytes := by
  have hrefs : ((m.detach e c).block (m.entry e).block).refs = (c ++ d).length + 1 := by
    simp only [ToolMemory.detach, Function.update_self, hl.refs, List.length_append, List.length_cons]
    omega
  have hbytes := h.bytes
  have hbb := h.byBlock
  rw [ToolMemory.blocksOf_middle] at hbytes hbb
  simp only [List.map_append, List.map_cons, List.sum_append, List.sum_cons] at hbytes ⊢
  by_cases hnil : c ++ d = []
  · -- the last entry of its block: the block goes too
    have hnot : (m.entry e).block ∉ m.blocksOf (a ++ b) := by
      rw [h.block_mem_rest hl]
      exact not_not.2 hnil
    rw [Finset.sum_insert hnot] at hbytes
    have hd : ((m.detach e c).block (m.entry e).block).bytes = (m.block (m.entry e).block).bytes := by
      simp [ToolMemory.detach]
    have hdd : ((m.detach e c).block (m.entry e).block).dsml = (m.block (m.entry e).block).dsml := by
      simp [ToolMemory.detach]
    have hdb : (m.detach e c).bytes = m.bytes - (m.entry e).bytes := rfl
    obtain ⟨h1, h2⟩ := toolMemoryReleaseBlockLocked_last (m := m.detach e c) (b := (m.entry e).block)
      (by rw [hrefs, hnil]; rfl) (by rw [hd, hdb]; omega)
    rw [h1, h2, hd, hdd, hdb]
    refine ⟨fun dsml x => ?_, by omega⟩
    rw [Function.update_apply]
    have hbb' := hbb dsml x
    rw [Finset.mem_insert] at hbb'
    split
    · next hdsml =>
      constructor
      · rintro ⟨⟩
      · rintro ⟨hx, hxd⟩
        have h1 := (hbb dsml x).2 ⟨Finset.mem_insert_of_mem hx, hxd⟩
        have h2 := (hbb dsml (m.entry e).block).2 ⟨Finset.mem_insert_self _ _, hdsml.symm⟩
        rw [h1] at h2
        cases h2
        exact absurd hx hnot
    · next hdsml =>
      rw [show (m.detach e c).byBlock = m.byBlock from rfl, hbb']
      constructor
      · rintro ⟨rfl | hx, hxd⟩
        · exact absurd hxd.symm hdsml
        · exact ⟨hx, hxd⟩
      · exact fun hx => ⟨.inr hx.1, hx.2⟩
  · have hin := (h.block_mem_rest hl).2 hnil
    have hpos : 0 < (c ++ d).length := List.length_pos_iff.2 hnil
    rw [Finset.insert_eq_of_mem hin] at hbytes hbb
    obtain ⟨h1, h2⟩ := toolMemoryReleaseBlockLocked_shared (m := m.detach e c)
      (b := (m.entry e).block) (by rw [hrefs]; omega)
    rw [h1, h2]
    refine ⟨hbb, ?_⟩
    rw [show (m.detach e c).bytes = m.bytes - (m.entry e).bytes from rfl]
    omega

theorem remove {m : ToolMemory} (h : m.Inv (a ++ e :: b)) :
    (toolMemoryRemoveEntryLocked m e).Inv (a ++ b) := by
  obtain ⟨le, hl⟩ := h.blockList _ (h.block_mem (e := e) (by simp))
  obtain ⟨c, d, rfl⟩ := List.append_of_mem ((hl.mem e).2 ⟨by simp, rfl⟩)
  have hnd := h.lru.nodup
  have he : e ∉ a ++ b := (List.nodup_cons.1 (List.nodup_middle.1 hnd)).1
  have hin : ∀ x ∈ a ++ b, x ∈ a ++ e :: b := by
    intro x hx
    simp only [List.mem_append, List.mem_cons] at hx ⊢
    tauto
  have hsub : (a ++ b).Sublist (a ++ e :: b) :=
    List.Sublist.append_left (List.sublist_cons_self e b) a
  obtain ⟨hbb, hbytes⟩ := h.remove_blocks hl
  obtain ⟨f1, f2, f3, f4, f5, f6, f7, -, -, -, f8⟩ :=
    toolMemoryReleaseBlockLocked_frame (m.detach e c) (m.entry e).block
  rw [toolMemoryRemoveEntryLocked_eq h hl]
  generalize toolMemoryReleaseBlockLocked (m.detach e c) (m.entry e).block = m' at *
  have f1 : m'.entry = m.entry := f1
  have hdsml : ∀ x, (m'.block x).dsml = (m.block x).dsml := by
    intro x
    rw [f8]
    simp only [ToolMemory.detach, Function.update_apply]
    split <;> simp_all
  have hbb' : ∀ x, (m'.block x).bytes = (m.block x).bytes := by
    intro x
    rw [f8]
    simp only [ToolMemory.detach, Function.update_apply]
    split <;> simp_all
  have hblocks : ∀ x ∈ m.blocksOf (a ++ b), x ∈ m.blocksOf (a ++ e :: b) := by
    intro x hx
    rw [ToolMemory.blocksOf_middle]
    exact Finset.mem_insert_of_mem hx
  refine ⟨?_, ?_, ?_, ?_, ?_, ?_, ?_, ?_, ?_, ?_, ?_, ?_⟩
  · rw [f3]
    exact h.lru.unlink
  · intro id x
    rw [f1, f2]
    simp only [ToolMemory.detach, Function.update_apply]
    split
    · next hid =>
      constructor
      · rintro ⟨⟩
      · rintro ⟨hx, hxid⟩
        have := h.id_inj (hin x hx) (by simp : e ∈ a ++ e :: b) (hxid.trans hid)
        exact absurd (this ▸ hx) he
    · next hid =>
      rw [h.byId]
      constructor
      · rintro ⟨hx, hxid⟩
        rw [List.mem_append, List.mem_cons] at hx
        refine ⟨?_, hxid⟩
        rcases hx with hx | rfl | hx
        · exact List.mem_append_left _ hx
        · exact absurd hxid.symm hid
        · exact List.mem_append_right _ hx
      · exact fun hx => ⟨hin x hx.1, hx.2⟩
  · rw [f5]
    simp only [ToolMemory.detach, h.count, List.length_append, List.length_cons]
    omega
  · rw [f1]
    exact h.stamps.sublist hsub
  · intro x hx
    rw [f1, f6]
    exact h.clock x (hin x hx)
  · intro dsml x
    rw [hbb, ToolMemory.blocksOf_congr f1, hdsml]
  · intro x hx
    rw [ToolMemory.blocksOf_congr f1] at hx
    by_cases hxe : x = (m.entry e).block
    · subst hxe
      obtain ⟨hchain, hmem⟩ := hl.detach_self hnd
      refine ⟨c ++ d, ?_, (List.nodup_cons.1 (List.nodup_middle.1 hl.nodup)).2, ?_, ?_⟩
      · rw [f4, f8]
        simpa using hchain
      · intro y
        rw [f1]
        exact hmem y
      · rw [f8]
        simp only [Function.update_self, ToolMemory.detach, hl.refs, List.length_append,
          List.length_cons]
        omega
    · obtain ⟨le, hx'⟩ := h.blockList x (hblocks x hx)
      obtain ⟨hchain, hmem⟩ := hl.detach hnd hx' hxe
      refine ⟨le, ?_, hx'.nodup, ?_, ?_⟩
      · rw [f4, f8, Function.update_of_ne hxe]
        exact hchain
      · intro y
        rw [f1]
        exact hmem y
      · rw [f8, Function.update_of_ne hxe]
        simp only [ToolMemory.detach, Function.update_of_ne hxe]
        exact hx'.refs
  · rw [hbytes, ToolMemory.blocksOf_congr f1, f1]
    simp only [hbb']
  · intro x hx
    rw [f1]
    exact h.entryBytes x (hin x hx)
  · intro x hx
    rw [ToolMemory.blocksOf_congr f1] at hx
    rw [hbb', hdsml]
    exact h.blockBytes x (hblocks x hx)
  · intro x hx
    rw [f1, hdsml]
    exact h.nonempty x (hin x hx)
  · intro x hx
    rw [f1, f7]
    exact h.fresh x (hin x hx)

end ToolMemory.Inv

/-! ## Inserting -/

/-- A memory in which the block `b` stands ready for a new entry. -/
structure ToolMemory.Ready (m : ToolMemory) (l : List Nat) (dsml : Bytes) (m' : ToolMemory)
    (b : Nat) : Prop where
  entry : m'.entry = m.entry
  byId : m'.byId = m.byId
  lru : m'.lru = m.lru
  entries : m'.entries = m.entries
  clock : m'.clock = m.clock
  limits : m'.maxEntries = m.maxEntries ∧ m'.maxBytes = m.maxBytes
  scanClock : m'.scanClock = m.scanClock
  seen : ∀ x, (m'.block x).seen ≤ (m.block x).seen
  next : m.nextAddr ≤ m'.nextAddr
  block : b < m'.nextAddr
  text : (m'.block b).dsml = dsml
  blockBytes : (m'.block b).bytes = dsml.length + 1 + sizeofBlock
  same : ∀ x ∈ m.blocksOf l, m'.block x = m.block x
  byBlock : ∀ t x, m'.byBlock t = some x ↔ x ∈ insert b (m.blocksOf l) ∧ (m'.block x).dsml = t
  blockList : ∀ x ∈ insert b (m.blocksOf l), ∃ le, m'.BlockList l x le
  bytes : m'.bytes = (l.map fun e => (m.entry e).bytes).sum +
    ∑ x ∈ insert b (m.blocksOf l), (m'.block x).bytes

theorem ToolMemory.Inv.getBlock {m : ToolMemory} (h : m.Inv l) (hdsml : dsml ≠ []) :
    m.Ready l dsml (toolMemoryGetBlockLocked m dsml).1 (toolMemoryGetBlockLocked m dsml).2 := by
  simp only [toolMemoryGetBlockLocked, toolMemoryFindBlockLocked, if_neg hdsml]
  cases hf : m.byBlock dsml with
  | some b =>
    obtain ⟨hb, hd⟩ := (h.byBlock dsml b).1 hf
    have hins : insert b (m.blocksOf l) = m.blocksOf l := Finset.insert_eq_of_mem hb
    have hlt : b < m.nextAddr := by
      obtain ⟨e, he, rfl⟩ := ToolMemory.mem_blocksOf.1 hb
      exact (h.fresh e he).2
    refine ⟨rfl, rfl, rfl, rfl, rfl, ⟨rfl, rfl⟩, rfl, fun _ => le_rfl, le_rfl, hlt, hd, ?_,
      fun _ _ => rfl, ?_, ?_, ?_⟩
    · rw [h.blockBytes b hb, hd]
    · rw [hins]; exact h.byBlock
    · rw [hins]; exact h.blockList
    · rw [hins]; exact h.bytes
  | none =>
    have hfresh : ∀ x ∈ m.blocksOf l, x ≠ m.nextAddr := by
      intro x hx hxn
      obtain ⟨e, he, rfl⟩ := ToolMemory.mem_blocksOf.1 hx
      exact absurd (h.fresh e he).2 (by omega)
    have hnot : m.nextAddr ∉ m.blocksOf l := fun hx => hfresh _ hx rfl
    have hsum : ∀ v, ∑ x ∈ m.blocksOf l, (Function.update m.block m.nextAddr v x).bytes =
        ∑ x ∈ m.blocksOf l, (m.block x).bytes := fun v =>
      Finset.sum_congr rfl fun x hx => by rw [Function.update_of_ne (hfresh x hx)]
    refine ⟨rfl, rfl, rfl, rfl, rfl, ⟨rfl, rfl⟩, rfl, fun x => ?_, Nat.le_succ _, Nat.lt_succ_self _,
      ?_, ?_, ?_, ?_, ?_, ?_⟩
    · simp only [Function.update_apply]
      split
      · exact Nat.zero_le _
      · exact le_rfl
    · simp
    · simp
    · intro x hx
      exact Function.update_of_ne (hfresh x hx) ..
    · intro t x
      simp only [Function.update_apply, Finset.mem_insert]
      by_cases hxn : x = m.nextAddr
      · subst hxn
        by_cases ht : t = dsml
        · simp [ht]
        · simp only [if_neg ht, true_or, if_true, true_and]
          constructor
          · intro hx
            exact absurd ((h.byBlock t _).1 hx).1 hnot
          · exact fun hx => absurd hx.symm ht
      · simp only [hxn, if_false, false_or]
        by_cases ht : t = dsml
        · subst ht
          simp only [if_true, Option.some.injEq]
          constructor
          · exact fun hx => absurd hx.symm hxn
          · intro hx
            have := (h.byBlock t x).2 hx
            rw [hf] at this
            cases this
        · rw [if_neg ht]
          exact h.byBlock t x
    · intro x hx
      rcases Finset.mem_insert.1 hx with rfl | hx
      · refine ⟨[], ?_, List.nodup_nil, ?_, ?_⟩
        · simp only [Function.update_self]
          exact .nil
        · intro e
          constructor
          · rintro ⟨⟩
          · rintro ⟨he, hb⟩
            exact absurd (ToolMemory.mem_blocksOf.2 ⟨e, he, hb⟩) hnot
        · simp
      · obtain ⟨le, h1, h2, h3, h4⟩ := h.blockList x hx
        refine ⟨le, ?_, h2, h3, ?_⟩
        · simpa only [Function.update_of_ne (hfresh x hx)] using h1
        · simpa only [Function.update_of_ne (hfresh x hx)] using h4
    · rw [Finset.sum_insert hnot, hsum]
      simp only [Function.update_self, h.bytes]
      omega

namespace ToolMemory.Ready

variable {m m' : ToolMemory} {l : List Nat} {dsml : Bytes} {b : Nat}

theorem next_ne (h : m.Inv l) (hr : m.Ready l dsml m' b) (hx : x ∈ l) : x ≠ m'.nextAddr := by
  have := (h.fresh x hx).1
  have := hr.next
  omega

theorem link_entry (h : m.Inv l) (hr : m.Ready l dsml m' b) (id : Bytes) (source : ToolMemorySource)
    (hx : x ∈ l) : (toolMemoryLinkEntry m' id b source).entry x = m.entry x := by
  simp only [toolMemoryLinkEntry, Function.update_of_ne (hr.next_ne h hx), hr.entry]

theorem link_blocksOf (h : m.Inv l) (hr : m.Ready l dsml m' b) (id : Bytes)
    (source : ToolMemorySource) :
    (toolMemoryLinkEntry m' id b source).blocksOf (m'.nextAddr :: l) = insert b (m.blocksOf l) := by
  ext x
  simp only [ToolMemory.mem_blocksOf, List.mem_cons, Finset.mem_insert, exists_eq_or_imp]
  refine or_congr ?_ ?_
  · simp [toolMemoryLinkEntry, eq_comm]
  · constructor
    · rintro ⟨e, he, rfl⟩
      exact ⟨e, he, by rw [hr.link_entry h id source he]⟩
    · rintro ⟨e, he, rfl⟩
      exact ⟨e, he, by rw [hr.link_entry h id source he]⟩

/-- Only the list and the count of the block `b` change. -/
theorem link_block (m' : ToolMemory) (id : Bytes) (b : Nat) (source : ToolMemorySource) (x : Nat) :
    ((toolMemoryLinkEntry m' id b source).block x).dsml = (m'.block x).dsml ∧
      ((toolMemoryLinkEntry m' id b source).block x).bytes = (m'.block x).bytes ∧
      ((toolMemoryLinkEntry m' id b source).block x).seen = (m'.block x).seen := by
  simp only [toolMemoryLinkEntry, Function.update_apply]
  split
  · next hx => rw [hx]; exact ⟨rfl, rfl, rfl⟩
  · exact ⟨rfl, rfl, rfl⟩

theorem link_blockList (h : m.Inv l) (hr : m.Ready l dsml m' b) (id : Bytes)
    (source : ToolMemorySource) (hx : x ∈ insert b (m.blocksOf l)) :
    ∃ le, (toolMemoryLinkEntry m' id b source).BlockList (m'.nextAddr :: l) x le := by
  obtain ⟨le, h1, h2, h3, h4⟩ := hr.blockList x hx
  have hle : m'.nextAddr ∉ le := fun hm => hr.next_ne h ((h3 _).1 hm).1 rfl
  have hrest : ∀ e ∈ l, ((toolMemoryLinkEntry m' id b source).entry e).block =
      (m'.entry e).block := fun e he => by rw [hr.link_entry h id source he, hr.entry]
  have hself : ((toolMemoryLinkEntry m' id b source).entry m'.nextAddr).block = b := by
    simp [toolMemoryLinkEntry]
  by_cases hxb : x = b
  · subst hxb
    refine ⟨m'.nextAddr :: le, ?_, List.nodup_cons.2 ⟨hle, h2⟩, ?_, ?_⟩
    · simp only [toolMemoryLinkEntry, Function.update_self]
      refine .cons ?_
      rw [Function.update_self]
      exact h1.update hle
    · intro e
      rw [List.mem_cons, List.mem_cons, h3]
      constructor
      · rintro (rfl | ⟨he, hb⟩)
        · exact ⟨.inl rfl, hself⟩
        · exact ⟨.inr he, (hrest e he).trans hb⟩
      · rintro ⟨rfl | he, hb⟩
        · exact .inl rfl
        · exact .inr ⟨he, (hrest e he).symm.trans hb⟩
    · simp only [toolMemoryLinkEntry, Function.update_self, h4, List.length_cons]
  · refine ⟨le, ?_, h2, ?_, ?_⟩
    · simp only [toolMemoryLinkEntry, Function.update_of_ne hxb]
      exact h1.update hle
    · intro e
      rw [List.mem_cons, h3]
      constructor
      · rintro ⟨he, hb⟩
        exact ⟨.inr he, (hrest e he).trans hb⟩
      · rintro ⟨rfl | he, hb⟩
        · exact absurd (hb.symm.trans hself) hxb
        · exact ⟨he, (hrest e he).symm.trans hb⟩
    · simp only [toolMemoryLinkEntry, Function.update_of_ne hxb, h4]

theorem link (h : m.Inv l) (hr : m.Ready l dsml m' b) {id : Bytes} (hid : id ≠ [])
    (hdsml : dsml ≠ []) (hnone : m.byId id = none) (source : ToolMemorySource) :
    (toolMemoryLinkEntry m' id b source).Inv (m'.nextAddr :: l) := by
  have he : m'.nextAddr ∉ l := fun hx => hr.next_ne h hx rfl
  have hrest := fun x (hx : x ∈ l) => hr.link_entry h id source hx
  have hself : (toolMemoryLinkEntry m' id b source).entry m'.nextAddr =
      ⟨id, b, id.length + 1 + sizeofEntry, m'.clock + 1, source⟩ := by
    simp [toolMemoryLinkEntry]
  have hblk := fun x => link_block m' id b source x
  have hold : ∀ e ∈ l, (m.entry e).id ≠ id := by
    intro e he heid
    have := (h.byId id e).2 ⟨he, heid⟩
    rw [hnone] at this
    cases this
  refine ⟨?_, ?_, ?_, ?_, ?_, ?_, ?_, ?_, ?_, ?_, ?_, ?_⟩
  · have := h.lru.linkHead he
    rwa [← hr.lru] at this
  · intro id' e
    simp only [List.mem_cons]
    rw [show (toolMemoryLinkEntry m' id b source).byId =
      Function.update m'.byId id (some m'.nextAddr) from rfl, Function.update_apply, hr.byId]
    split
    · next hi =>
      subst hi
      constructor
      · rintro ⟨⟩
        exact ⟨.inl rfl, by rw [hself]⟩
      · rintro ⟨rfl | hx, hxid⟩
        · rfl
        · rw [hrest e hx] at hxid
          exact absurd hxid (hold e hx)
    · next hi =>
      rw [h.byId]
      constructor
      · rintro ⟨hx, hxid⟩
        exact ⟨.inr hx, by rw [hrest e hx, hxid]⟩
      · rintro ⟨rfl | hx, hxid⟩
        · rw [hself] at hxid
          exact absurd hxid.symm hi
        · rw [hrest e hx] at hxid
          exact ⟨hx, hxid⟩
  · rw [List.length_cons, ← h.count, ← hr.entries]
    rfl
  · refine List.pairwise_cons.2 ⟨fun x hx => ?_, ?_⟩
    · rw [hself, hrest x hx, hr.clock]
      exact Nat.lt_succ_of_le (h.clock x hx)
    · refine List.Pairwise.imp_of_mem ?_ h.stamps
      intro x y hx hy hxy
      rw [hrest x hx, hrest y hy]
      exact hxy
  · intro x hx
    rcases List.mem_cons.1 hx with rfl | hx
    · rw [hself]
      exact le_rfl
    · rw [hrest x hx]
      refine (h.clock x hx).trans ?_
      rw [← hr.clock]
      exact Nat.le_succ _
  · intro t x
    rw [hr.link_blocksOf h, (hblk x).1]
    exact hr.byBlock t x
  · intro x hx
    rw [hr.link_blocksOf h] at hx
    exact hr.link_blockList h id source hx
  · have hsum : (l.map fun x => ((toolMemoryLinkEntry m' id b source).entry x).bytes) =
        l.map fun x => (m.entry x).bytes :=
      List.map_congr_left fun x hx => by rw [hrest x hx]
    rw [hr.link_blocksOf h, List.map_cons, List.sum_cons, hsum, hself]
    simp only [(hblk _).2.1]
    rw [show (toolMemoryLinkEntry m' id b source).bytes = m'.bytes + (id.length + 1 + sizeofEntry)
      from rfl, hr.bytes]
    omega
  · intro x hx
    rcases List.mem_cons.1 hx with rfl | hx
    · rw [hself]
    · rw [hrest x hx]
      exact h.entryBytes x hx
  · intro x hx
    rw [hr.link_blocksOf h] at hx
    rw [(hblk x).1, (hblk x).2.1]
    rcases Finset.mem_insert.1 hx with rfl | hx
    · rw [hr.blockBytes, hr.text]
    · rw [hr.same x hx]
      exact h.blockBytes x hx
  · intro x hx
    rw [(hblk _).1]
    rcases List.mem_cons.1 hx with rfl | hx
    · rw [hself, hr.text]
      exact ⟨hid, hdsml⟩
    · rw [hrest x hx, hr.same _ (h.block_mem hx)]
      exact h.nonempty x hx
  · intro x hx
    rw [show (toolMemoryLinkEntry m' id b source).nextAddr = m'.nextAddr + 1 from rfl]
    rcases List.mem_cons.1 hx with rfl | hx
    · rw [hself]
      exact ⟨Nat.lt_succ_self _, hr.block.trans (Nat.lt_succ_self _)⟩
    · rw [hrest x hx]
      have := h.fresh x hx
      have := hr.next
      omega

end ToolMemory.Ready

/-! ## What an entry holds -/

/-- The id and the text of an entry. -/
def ToolMemory.item (m : ToolMemory) (e : Nat) : Bytes × Bytes :=
  ((m.entry e).id, (m.block (m.entry e).block).dsml)

/-- The remembered ids with their texts. -/
def ToolMemory.items (m : ToolMemory) (l : List Nat) : Finset (Bytes × Bytes) :=
  (l.map m.item).toFinset

theorem ToolMemory.mem_items {m : ToolMemory} : p ∈ m.items l ↔ ∃ e ∈ l, m.item e = p := by
  simp [ToolMemory.items]

/-- The texts, the limits and the scan stamps stay. -/
structure ToolMemory.Keeps (m m' : ToolMemory) : Prop where
  item : ∀ e, m'.item e = m.item e
  maxEntries : m'.maxEntries = m.maxEntries
  maxBytes : m'.maxBytes = m.maxBytes
  scanClock : m'.scanClock = m.scanClock
  seen : ∀ b, (m'.block b).seen = (m.block b).seen

namespace ToolMemory.Keeps

theorem refl (m : ToolMemory) : m.Keeps m := ⟨fun _ => rfl, rfl, rfl, rfl, fun _ => rfl⟩

theorem trans {m₁ m₂ m₃ : ToolMemory} (h : m₁.Keeps m₂) (h' : m₂.Keeps m₃) : m₁.Keeps m₃ :=
  ⟨fun e => (h'.item e).trans (h.item e), h'.maxEntries.trans h.maxEntries,
    h'.maxBytes.trans h.maxBytes, h'.scanClock.trans h.scanClock,
    fun b => (h'.seen b).trans (h.seen b)⟩

theorem items {m m' : ToolMemory} (h : m.Keeps m') (l : List Nat) : m'.items l = m.items l := by
  simp only [ToolMemory.items, funext h.item]

theorem touch (m : ToolMemory) (e : Nat) : m.Keeps (toolMemoryTouch m e) := by
  refine ⟨fun x => ?_, rfl, rfl, rfl, fun _ => rfl⟩
  simp only [ToolMemory.item, toolMemoryTouch, Function.update_apply]
  split
  · next hx => rw [hx]
  · rfl

theorem setSource (m : ToolMemory) (e : Nat) (source : ToolMemorySource) :
    m.Keeps { m with entry := Function.update m.entry e { m.entry e with source } } := by
  refine ⟨fun x => ?_, rfl, rfl, rfl, fun _ => rfl⟩
  simp only [ToolMemory.item, Function.update_apply]
  split
  · next hx => rw [hx]
  · rfl

theorem unlinkEntry (m : ToolMemory) (b e : Nat) : m.Keeps (toolBlockUnlinkEntry m b e) := by
  rw [toolBlockUnlinkEntry]
  split
  · exact .refl m
  · refine ⟨fun x => ?_, rfl, rfl, rfl, fun x => ?_⟩
    all_goals
      simp only [ToolMemory.item, Function.update_apply]
      split
      · next hx => rw [hx]
      · rfl
  · exact ⟨fun _ => rfl, rfl, rfl, rfl, fun _ => rfl⟩

theorem releaseBlock (m : ToolMemory) (b : Nat) : m.Keeps (toolMemoryReleaseBlockLocked m b) := by
  obtain ⟨h1, -, -, -, -, -, -, h2, h3, h4, h5⟩ := toolMemoryReleaseBlockLocked_frame m b
  refine ⟨fun x => ?_, h2, h3, h4, fun x => ?_⟩
  all_goals
    simp only [ToolMemory.item, h1, h5, Function.update_apply]
    split
    · next hx => rw [hx]
    · rfl

theorem removeEntry (m : ToolMemory) (e : Nat) : m.Keeps (toolMemoryRemoveEntryLocked m e) := by
  rw [toolMemoryRemoveEntryLocked]
  refine trans ?_ (releaseBlock _ _)
  have := unlinkEntry { m with
    byId := Function.update m.byId (m.entry e).id none, lru := m.lru.unlink e } (m.entry e).block e
  exact ⟨this.item, this.maxEntries, this.maxBytes, this.scanClock, this.seen⟩

theorem removeTail (m : ToolMemory) : m.Keeps (toolMemoryRemoveTail m) := by
  rw [toolMemoryRemoveTail]
  split
  · exact removeEntry m _
  · exact refl m

theorem removeTail_iterate (m : ToolMemory) (k : Nat) : m.Keeps (toolMemoryRemoveTail^[k] m) := by
  induction k generalizing m with
  | zero => exact refl m
  | succ k ih =>
    rw [Function.iterate_succ_apply]
    exact (removeTail m).trans (ih _)

end ToolMemory.Keeps

/-! ## Pruning -/

/-- The entries go from the tail of the recency list. -/
theorem ToolMemory.Inv.removeTail_iterate {m : ToolMemory} (h : m.Inv l) (hk : k ≤ l.length) :
    (toolMemoryRemoveTail^[k] m).Inv (l.take (l.length - k)) := by
  induction k generalizing m l with
  | zero => simpa using h
  | succ k ih =>
    rcases List.eq_nil_or_concat l with rfl | ⟨l, e, rfl⟩
    · simp at hk
    · rw [List.concat_eq_append] at h hk ⊢
      have htail : m.lru.tail = some e := by rw [h.lru.tail_eq]; simp
      have hrem := h.remove
      rw [List.append_nil] at hrem
      have hlen : (l ++ [e]).length = l.length + 1 := by simp
      rw [Function.iterate_succ_apply, toolMemoryRemoveTail, htail, hlen, Nat.add_sub_add_right,
        List.take_append_of_le_length (Nat.sub_le _ _)]
      exact ih hrem (by omega)

theorem ToolMemory.Inv.over_nil {m : ToolMemory} (h : m.Inv []) : toolMemoryOver m = false := by
  have h1 := h.count
  have h2 := h.bytes
  simp only [List.length_nil, List.map_nil, List.sum_nil, ToolMemory.blocksOf, List.toFinset_nil,
    Finset.sum_empty] at h1 h2
  simp [toolMemoryOver, h1, h2]

/-- The loop removes from the tail while a limit is exceeded and ends within the limits. -/
theorem ToolMemory.Inv.pruneLoop {m : ToolMemory} (h : m.Inv l) (hn : l.length ≤ n) :
    ∃ k ≤ l.length, toolMemoryPruneLoop n m = toolMemoryRemoveTail^[k] m ∧
      toolMemoryOver (toolMemoryRemoveTail^[k] m) = false ∧
      ∀ j < k, toolMemoryOver (toolMemoryRemoveTail^[j] m) = true := by
  induction n generalizing m l with
  | zero =>
    obtain rfl := List.eq_nil_of_length_eq_zero (Nat.le_zero.1 hn)
    exact ⟨0, le_rfl, rfl, h.over_nil, nofun⟩
  | succ n ih =>
    rw [toolMemoryPruneLoop]
    cases hover : toolMemoryOver m with
    | false => exact ⟨0, Nat.zero_le _, rfl, hover, nofun⟩
    | true =>
      have hne : l ≠ [] := by
        rintro rfl
        rw [h.over_nil] at hover
        cases hover
      have hpos : 0 < l.length := List.length_pos_iff.2 hne
      have htail : m.lru.tail.isSome = true := by
        rw [h.lru.tail_eq, List.getLast?_eq_some_getLast hne]
        rfl
      have h1 := h.removeTail_iterate hpos
      obtain ⟨k, hk, heq, hend, hbefore⟩ := ih h1 (by
        rw [List.length_take]
        omega)
      rw [List.length_take] at hk
      simp only [htail, Bool.and_self, if_true]
      refine ⟨k + 1, by omega, heq, hend, fun j hj => ?_⟩
      cases j with
      | zero => exact hover
      | succ j => exact hbefore j (by omega)

/-- `tool_memory_prune_locked` from `m` to `m'`, in terms of the recency list `l`. -/
structure ToolMemory.Pruned (m : ToolMemory) (l : List Nat) (m' : ToolMemory) (k : Nat) : Prop where
  le : k ≤ l.length
  eq : m' = toolMemoryRemoveTail^[k] m
  inv : ∀ j ≤ k, (toolMemoryRemoveTail^[j] m).Inv (l.take (l.length - j))
  exceeds : ∀ j < k, toolMemoryOver (toolMemoryRemoveTail^[j] m) = true
  fits : toolMemoryOver m' = false

theorem ToolMemory.Inv.prune {m : ToolMemory} (h : m.Inv l) :
    ∃ k, m.Pruned l (toolMemoryPruneLocked m) k := by
  obtain ⟨k, hk, heq, hend, hbefore⟩ := h.pruneLoop h.length_le
  have heq : toolMemoryPruneLocked m = toolMemoryRemoveTail^[k] m := heq
  exact ⟨k, hk, heq, fun j hj => h.removeTail_iterate (hj.trans hk), hbefore, by rw [heq]; exact hend⟩

/-! ## Sizes in terms of what is remembered -/

theorem toolMemoryOver_eq_false {m : ToolMemory} :
    toolMemoryOver m = false ↔ m.entries ≤ toolMemoryMaxEntries m ∧ m.bytes ≤ toolMemoryMaxBytes m := by
  simp [toolMemoryOver]

/-- The bytes the memory counts for a set of remembered texts. -/
def itemBytes (s : Finset (Bytes × Bytes)) : Nat :=
  ∑ p ∈ s, (p.1.length + 1 + sizeofEntry) + ∑ t ∈ s.image Prod.snd, (t.length + 1 + sizeofBlock)

theorem itemBytes_mono (h : s ⊆ t) : itemBytes s ≤ itemBytes t :=
  Nat.add_le_add (Finset.sum_le_sum_of_subset h)
    (Finset.sum_le_sum_of_subset (Finset.image_subset_image h))

namespace ToolMemory.Inv

variable {m : ToolMemory} {l : List Nat}

theorem item_inj (h : m.Inv l) (hx : x ∈ l) (hy : y ∈ l) (hxy : m.item x = m.item y) : x = y :=
  h.id_inj hx hy (congrArg Prod.fst hxy)

theorem nodup_items (h : m.Inv l) : (l.map m.item).Nodup :=
  List.Nodup.map_on (fun _ hx _ hy hxy => h.item_inj hx hy hxy) h.lru.nodup

theorem entries_eq (h : m.Inv l) : m.entries = (m.items l).card := by
  rw [ToolMemory.items, List.toFinset_card_of_nodup h.nodup_items, List.length_map, h.count]

/-- Different blocks hold different texts. -/
theorem text_inj (h : m.Inv l) (hx : x ∈ m.blocksOf l) (hy : y ∈ m.blocksOf l)
    (hxy : (m.block x).dsml = (m.block y).dsml) : x = y := by
  have h1 := (h.byBlock _ x).2 ⟨hx, hxy⟩
  have h2 := (h.byBlock _ y).2 ⟨hy, rfl⟩
  rw [h1] at h2
  exact Option.some.inj h2

theorem image_items :
    (m.items l).image Prod.snd = (m.blocksOf l).image fun b => (m.block b).dsml := by
  ext t
  simp only [Finset.mem_image, ToolMemory.mem_items, ToolMemory.mem_blocksOf]
  constructor
  · rintro ⟨p, ⟨e, he, rfl⟩, rfl⟩
    exact ⟨_, ⟨e, he, rfl⟩, rfl⟩
  · rintro ⟨b, ⟨e, he, rfl⟩, rfl⟩
    exact ⟨_, ⟨e, he, rfl⟩, rfl⟩

theorem bytes_eq (h : m.Inv l) : m.bytes = itemBytes (m.items l) := by
  have hentries : (l.map fun e => (m.entry e).bytes).sum =
      ∑ p ∈ m.items l, (p.1.length + 1 + sizeofEntry) := by
    rw [ToolMemory.items, List.sum_toFinset _ h.nodup_items, List.map_map]
    refine congrArg List.sum (List.map_congr_left fun e he => ?_)
    rw [h.entryBytes e he]
    rfl
  have hblocks : ∑ b ∈ m.blocksOf l, (m.block b).bytes =
      ∑ t ∈ (m.items l).image Prod.snd, (t.length + 1 + sizeofBlock) := by
    rw [image_items, Finset.sum_image fun x hx y hy hxy => h.text_inj hx hy hxy]
    exact Finset.sum_congr rfl h.blockBytes
  rw [h.bytes, hentries, hblocks, itemBytes]

/-- A memory that holds less than one within the same limits is within them. -/
theorem fits_of_subset {m' : ToolMemory} (h : m.Inv l) (h' : m'.Inv l')
    (hsub : m'.items l' ⊆ m.items l) (hmax : m'.maxEntries = m.maxEntries)
    (hmaxb : m'.maxBytes = m.maxBytes) (hfits : toolMemoryOver m = false) :
    toolMemoryOver m' = false := by
  have he : m'.entries ≤ m.entries := by
    rw [h.entries_eq, h'.entries_eq]
    exact Finset.card_le_card hsub
  have hb : m'.bytes ≤ m.bytes := by
    rw [h.bytes_eq, h'.bytes_eq]
    exact itemBytes_mono hsub
  rw [toolMemoryOver_eq_false, toolMemoryMaxEntries, toolMemoryMaxBytes] at hfits ⊢
  rw [hmax, hmaxb]
  exact ⟨he.trans hfits.1, hb.trans hfits.2⟩

/-- A lookup finds what is remembered. -/
theorem lookup_eq (h : m.Inv l) (id t : Bytes) :
    (toolMemoryLookupLocked m (some id)).1.map Prod.fst = some t ↔ (id, t) ∈ m.items l := by
  simp only [toolMemoryLookupLocked, toolMemoryFindEntryLocked, orEmpty, Option.getD_some]
  rw [ToolMemory.mem_items]
  constructor
  · intro hl
    split at hl
    · cases hl
    · next e hf =>
      split at hf
      · cases hf
      · obtain ⟨he, hid⟩ := (h.byId id e).1 hf
        exact ⟨e, he, Prod.ext hid (Option.some.inj hl)⟩
  · rintro ⟨e, he, hitem⟩
    obtain ⟨rfl, rfl⟩ := Prod.mk.inj hitem
    rw [if_neg (h.nonempty e he).1, (h.byId _ e).2 ⟨he, rfl⟩]
    rfl

end ToolMemory.Inv

/-! ## Put and lookup -/

theorem ToolMemory.Inv.find {m : ToolMemory} {id : Bytes} (h : m.Inv l) (hid : id ≠ []) :
    (toolMemoryFindEntryLocked m id = none ∧ m.byId id = none) ∨
      ∃ a e b, toolMemoryFindEntryLocked m id = some e ∧ l = a ++ e :: b ∧ (m.entry e).id = id := by
  rw [toolMemoryFindEntryLocked, if_neg hid]
  cases hf : m.byId id with
  | none => exact .inl ⟨rfl, rfl⟩
  | some e =>
    obtain ⟨he, hide⟩ := (h.byId id e).1 hf
    obtain ⟨a, b, rfl⟩ := List.append_of_mem he
    exact .inr ⟨a, e, b, rfl, rfl, hide⟩

theorem ToolMemory.Inv.setSource {m : ToolMemory} (h : m.Inv l) (e : Nat)
    (source : ToolMemorySource) :
    ToolMemory.Inv { m with entry := Function.update m.entry e { m.entry e with source } } l := by
  have hstamp : ∀ x, (Function.update m.entry e { m.entry e with source } x).stamp =
      (m.entry x).stamp := by
    intro x
    rw [Function.update_apply]
    split
    · next hx => rw [hx]
    · rfl
  refine h.reorder (.refl l) ⟨?_, ?_, ?_⟩ h.lru rfl rfl rfl rfl rfl rfl rfl ?_ ?_
  · intro x
    simp only [Function.update_apply]
    split
    · next hx => rw [hx]
    · rfl
  · intro x
    simp only [Function.update_apply]
    split
    · next hx => rw [hx]
    · rfl
  · intro x
    simp only [Function.update_apply]
    split
    · next hx => rw [hx]
    · rfl
  · simp only [hstamp]
    exact h.stamps
  · simp only [hstamp]
    exact h.clock

/-- What a put leaves before it prunes: the new text under its id, and the other entries. -/
structure ToolMemory.PutView (m : ToolMemory) (l : List Nat) (id dsml : Bytes) (m' : ToolMemory)
    (l' : List Nat) : Prop where
  inv : m'.Inv l'
  maxEntries : m'.maxEntries = m.maxEntries
  maxBytes : m'.maxBytes = m.maxBytes
  scanClock : m'.scanClock = m.scanClock
  seen : ∀ b, (m'.block b).seen ≤ (m.block b).seen
  items : m'.items l' = insert (id, dsml) ((m.items l).filter (·.1 ≠ id))

theorem ToolMemory.Inv.filter_items {m : ToolMemory} {l : List Nat} {id : Bytes} (h : m.Inv l)
    (hnone : m.byId id = none) : (m.items l).filter (·.1 ≠ id) = m.items l := by
  refine Finset.filter_true_of_mem fun p hp hid => ?_
  obtain ⟨e, he, rfl⟩ := ToolMemory.mem_items.1 hp
  have := (h.byId id e).2 ⟨he, hid⟩
  rw [hnone] at this
  cases this

/-- The other entries are those not found under the id. -/
theorem ToolMemory.Inv.items_erase {m : ToolMemory} {a b : List Nat} (h : m.Inv (a ++ e :: b)) :
    (m.items (a ++ e :: b)).filter (·.1 ≠ (m.item e).1) = m.items (a ++ b) := by
  have he : e ∉ a ++ b := (List.nodup_cons.1 (List.nodup_middle.1 h.lru.nodup)).1
  have hmem : ∀ x, x ∈ a ++ e :: b ↔ x = e ∨ x ∈ a ++ b := by
    intro x
    simp only [List.mem_append, List.mem_cons]
    tauto
  ext p
  simp only [Finset.mem_filter, ToolMemory.mem_items]
  constructor
  · rintro ⟨⟨x, hx, rfl⟩, hne⟩
    rcases (hmem x).1 hx with rfl | hx
    · exact absurd rfl hne
    · exact ⟨x, hx, rfl⟩
  · rintro ⟨x, hx, rfl⟩
    refine ⟨⟨x, (hmem x).2 (.inr hx), rfl⟩, fun hid => ?_⟩
    have := h.id_inj ((hmem x).2 (.inr hx)) ((hmem e).2 (.inl rfl)) hid
    exact he (this ▸ hx)

theorem ToolMemory.Inv.putNew {m : ToolMemory} {l : List Nat} {id dsml : Bytes} (h : m.Inv l)
    (hid : id ≠ []) (hdsml : dsml ≠ []) (hnone : m.byId id = none) (source : ToolMemorySource) :
    ∃ l', m.PutView l id dsml (toolMemoryInsert m id dsml source) l' := by
  have hr := h.getBlock hdsml
  simp only [toolMemoryInsert]
  generalize toolMemoryGetBlockLocked m dsml = r at hr
  obtain ⟨m', b⟩ := r
  have hr : m.Ready l dsml m' b := hr
  refine ⟨m'.nextAddr :: l, hr.link h hid hdsml hnone source, hr.limits.1, hr.limits.2,
    hr.scanClock, fun x => ?_, ?_⟩
  · rw [(ToolMemory.Ready.link_block m' id b source x).2.2]
    exact hr.seen x
  rw [h.filter_items hnone]
  have hself : (toolMemoryLinkEntry m' id b source).item m'.nextAddr = (id, dsml) := by
    rw [ToolMemory.item, (ToolMemory.Ready.link_block m' id b source _).1]
    simp only [toolMemoryLinkEntry, Function.update_self, hr.text]
  have hrest : l.map (toolMemoryLinkEntry m' id b source).item = l.map m.item := by
    refine List.map_congr_left fun x hx => ?_
    rw [ToolMemory.item, (ToolMemory.Ready.link_block m' id b source _).1,
      hr.link_entry h id source hx, hr.same _ (h.block_mem hx), ToolMemory.item]
  rw [ToolMemory.items, List.map_cons, List.toFinset_cons, hself, hrest, ToolMemory.items]

theorem ToolMemory.Inv.putUnpruned {m : ToolMemory} {l : List Nat} {id dsml : Bytes} (h : m.Inv l)
    (hid : id ≠ []) (hdsml : dsml ≠ []) (source : ToolMemorySource) :
    ∃ l', m.PutView l id dsml (toolMemoryPutUnpruned m id dsml source) l' := by
  rw [toolMemoryPutUnpruned]
  rcases h.find hid with ⟨hf, hnone⟩ | ⟨a, e, b, hf, rfl, rfl⟩
  · rw [hf]
    exact h.putNew hid hdsml hnone source
  · have herase := h.items_erase
    rw [show (m.item e).1 = (m.entry e).id from rfl] at herase
    simp only [hf]
    split
    · next htext =>
      -- the same text again: the entry is only touched
      have hk := (ToolMemory.Keeps.setSource m e
        (if source = .ram then .ram else (m.entry e).source)).trans (.touch _ e)
      refine ⟨e :: (a ++ b), (h.setSource e _).touch, hk.maxEntries, hk.maxBytes, hk.scanClock,
        fun x => (hk.seen x).le, ?_⟩
      rw [hk.items, herase, ToolMemory.items, List.map_cons, List.toFinset_cons,
        show m.item e = ((m.entry e).id, dsml) from Prod.ext rfl htext, ToolMemory.items]
    · have hrem := h.remove
      have hk := ToolMemory.Keeps.removeEntry m e
      have hnone : (toolMemoryRemoveEntryLocked m e).byId (m.entry e).id = none := by
        cases hb : (toolMemoryRemoveEntryLocked m e).byId (m.entry e).id with
        | none => rfl
        | some x =>
          obtain ⟨hx, hxid⟩ := (hrem.byId _ x).1 hb
          have hp : m.item x ∈ m.items (a ++ b) := ToolMemory.mem_items.2 ⟨x, hx, rfl⟩
          rw [← herase, Finset.mem_filter] at hp
          refine absurd ?_ hp.2
          rw [← hk.item]
          exact hxid
      obtain ⟨l', hv⟩ := hrem.putNew hid hdsml hnone source
      refine ⟨l', hv.inv, hv.maxEntries.trans hk.maxEntries, hv.maxBytes.trans hk.maxBytes,
        hv.scanClock.trans hk.scanClock, fun x => (hv.seen x).trans (hk.seen x).le, ?_⟩
      rw [hv.items, hrem.filter_items hnone, hk.items, herase]

/-- A put that leaves the memory within its limits removes nothing. -/
theorem ToolMemory.Inv.prune_of_fits {m : ToolMemory} (h : m.Inv l)
    (hfits : toolMemoryOver m = false) : toolMemoryPruneLocked m = m := by
  obtain ⟨k, hp⟩ := h.prune
  cases k with
  | zero => exact hp.eq
  | succ k =>
    have := hp.exceeds 0 (Nat.succ_pos k)
    rw [show toolMemoryRemoveTail^[0] m = m from rfl, hfits] at this
    cases this

theorem toolMemoryPutLocked_some {id dsml : Bytes} (hid : id ≠ []) (hdsml : dsml ≠ [])
    (m : ToolMemory) (source : ToolMemorySource) :
    toolMemoryPutLocked m (some id) (some dsml) source =
      toolMemoryPruneLocked (toolMemoryPutUnpruned m id dsml source) := by
  rw [toolMemoryPutLocked, if_neg]
  · rfl
  · rintro (h | h)
    · exact hid h
    · exact hdsml h

/-- What a put leaves: no text that is not its own or an older one. -/
structure ToolMemory.PutStep (m : ToolMemory) (l : List Nat) (id dsml : Bytes) (m' : ToolMemory)
    (l' : List Nat) : Prop where
  inv : m'.Inv l'
  maxEntries : m'.maxEntries = m.maxEntries
  maxBytes : m'.maxBytes = m.maxBytes
  scanClock : m'.scanClock = m.scanClock
  seen : ∀ b, (m'.block b).seen ≤ (m.block b).seen
  fits : toolMemoryOver m' = false
  items : m'.items l' ⊆ insert (id, dsml) ((m.items l).filter (·.1 ≠ id))

theorem ToolMemory.Inv.put {m : ToolMemory} {l : List Nat} {id dsml : Bytes} (h : m.Inv l)
    (hid : id ≠ []) (hdsml : dsml ≠ []) (source : ToolMemorySource) :
    ∃ l', m.PutStep l id dsml (toolMemoryPutLocked m (some id) (some dsml) source) l' := by
  obtain ⟨l', hv⟩ := h.putUnpruned hid hdsml source
  obtain ⟨k, hp⟩ := hv.inv.prune
  have hk := ToolMemory.Keeps.removeTail_iterate (toolMemoryPutUnpruned m id dsml source) k
  have hinv := hp.inv k le_rfl
  have hfits := hp.fits
  rw [toolMemoryPutLocked_some hid hdsml]
  rw [hp.eq] at hfits ⊢
  refine ⟨l'.take (l'.length - k), hinv, hk.maxEntries.trans hv.maxEntries,
    hk.maxBytes.trans hv.maxBytes, hk.scanClock.trans hv.scanClock,
    fun x => (hk.seen x).le.trans (hv.seen x), hfits, ?_⟩
  rw [hk.items, ← hv.items]
  intro p hx
  obtain ⟨e, he, rfl⟩ := ToolMemory.mem_items.1 hx
  exact ToolMemory.mem_items.2 ⟨e, List.mem_of_mem_take he, rfl⟩

/-! ## Runs -/

/-- An operation on the memory; an entry is removed through the id it is found under. -/
inductive ToolMemoryOp
  | put (id dsml : Option Bytes) (source : ToolMemorySource)
  | lookup (id : Option Bytes)
  | remove (id : Bytes)
  deriving DecidableEq, Repr

def toolMemoryStep (m : ToolMemory) : ToolMemoryOp → ToolMemory
  | .put id dsml source => toolMemoryPutLocked m id dsml source
  | .lookup id => (toolMemoryLookupLocked m id).2
  | .remove id =>
    match toolMemoryFindEntryLocked m id with
    | some e => toolMemoryRemoveEntryLocked m e
    | none => m

def toolMemoryRun (maxEntries : Int) (maxBytes : Nat) (ops : List ToolMemoryOp) : ToolMemory :=
  ops.foldl toolMemoryStep (.init maxEntries maxBytes)

/-- The text an operation puts under `id`. -/
def ToolMemoryOp.text (id : Bytes) : ToolMemoryOp → Option Bytes
  | .put i dsml _ => if orEmpty i = id ∧ id ≠ [] ∧ orEmpty dsml ≠ [] then some (orEmpty dsml) else none
  | _ => none

/-- The text of the last put for `id`. -/
def lastPut (ops : List ToolMemoryOp) (id : Bytes) : Option Bytes :=
  (ops.filterMap (ToolMemoryOp.text id)).getLast?

theorem lastPut_snoc (ops : List ToolMemoryOp) (op : ToolMemoryOp) (id : Bytes) :
    lastPut (ops ++ [op]) id = (op.text id <|> lastPut ops id) := by
  rw [lastPut, List.filterMap_append, List.getLast?_append]
  cases h : op.text id <;> simp [h, lastPut]

/-- The memory after the operations `ops`, with the recency list `l`. -/
structure ToolMemory.Reached (maxEntries : Int) (maxBytes : Nat) (ops : List ToolMemoryOp)
    (m : ToolMemory) (l : List Nat) : Prop where
  inv : m.Inv l
  maxEntries : m.maxEntries = maxEntries
  maxBytes : m.maxBytes = maxBytes
  fits : toolMemoryOver m = false
  last : ∀ p ∈ m.items l, lastPut ops p.1 = some p.2

/-- With fewer entries and bytes the limits still hold. -/
theorem ToolMemory.Keeps.over_mono {m m' : ToolMemory} (h : m.Keeps m') (he : m'.entries ≤ m.entries)
    (hb : m'.bytes ≤ m.bytes) (hm : toolMemoryOver m = false) : toolMemoryOver m' = false := by
  rw [toolMemoryOver_eq_false] at hm ⊢
  have h1 : toolMemoryMaxEntries m' = toolMemoryMaxEntries m := by
    simp only [toolMemoryMaxEntries, h.maxEntries]
  have h2 : toolMemoryMaxBytes m' = toolMemoryMaxBytes m := by
    simp only [toolMemoryMaxBytes, h.maxBytes]
  rw [h1, h2]
  exact ⟨he.trans hm.1, hb.trans hm.2⟩

theorem toolMemoryReleaseBlockLocked_bytes_le (m : ToolMemory) (b : Nat) :
    (toolMemoryReleaseBlockLocked m b).bytes ≤ m.bytes := by
  simp only [toolMemoryReleaseBlockLocked]
  split
  · exact le_rfl
  · split
    · exact Nat.sub_le _ _
    · exact Nat.zero_le _

theorem ToolMemory.Inv.remove_le {m : ToolMemory} (h : m.Inv (a ++ e :: b)) :
    (toolMemoryRemoveEntryLocked m e).entries ≤ m.entries ∧
      (toolMemoryRemoveEntryLocked m e).bytes ≤ m.bytes := by
  constructor
  · rw [h.remove.count, h.count]
    simp
  · obtain ⟨le, hl⟩ := h.blockList _ (h.block_mem (e := e) (by simp))
    obtain ⟨c, d, rfl⟩ := List.append_of_mem ((hl.mem e).2 ⟨by simp, rfl⟩)
    rw [toolMemoryRemoveEntryLocked_eq h hl]
    exact (toolMemoryReleaseBlockLocked_bytes_le _ _).trans (Nat.sub_le _ _)

namespace ToolMemory.Reached

variable {maxEntries : Int} {maxBytes : Nat} {ops : List ToolMemoryOp} {m m' : ToolMemory}
  {l l' : List Nat}

theorem init (maxEntries : Int) (maxBytes : Nat) :
    ToolMemory.Reached maxEntries maxBytes [] (.init maxEntries maxBytes) [] :=
  ⟨.init maxEntries maxBytes, rfl, rfl, (ToolMemory.Inv.init maxEntries maxBytes).over_nil, nofun⟩

/-- An operation that only reorders or removes entries and puts no text. -/
theorem keeps (h : ToolMemory.Reached maxEntries maxBytes ops m l) (hk : m.Keeps m')
    (hinv : m'.Inv l') (hsub : ∀ e ∈ l', e ∈ l) (he : m'.entries ≤ m.entries)
    (hb : m'.bytes ≤ m.bytes) (hop : ∀ id, op.text id = none) :
    ToolMemory.Reached maxEntries maxBytes (ops ++ [op]) m' l' := by
  refine ⟨hinv, hk.maxEntries.trans h.maxEntries, hk.maxBytes.trans h.maxBytes,
    hk.over_mono he hb h.fits, fun p hp => ?_⟩
  rw [hk.items] at hp
  obtain ⟨e, he, rfl⟩ := ToolMemory.mem_items.1 hp
  rw [lastPut_snoc, hop]
  exact h.last _ (ToolMemory.mem_items.2 ⟨e, hsub e he, rfl⟩)

theorem put (h : ToolMemory.Reached maxEntries maxBytes ops m l) (id dsml : Option Bytes)
    (source : ToolMemorySource) :
    ∃ l', ToolMemory.Reached maxEntries maxBytes (ops ++ [.put id dsml source])
      (toolMemoryPutLocked m id dsml source) l' := by
  by_cases hempty : orEmpty id = [] ∨ orEmpty dsml = []
  · rw [toolMemoryPutLocked, if_pos hempty]
    refine ⟨l, h.keeps (.refl m) h.inv (fun _ he => he) le_rfl le_rfl fun i => ?_⟩
    rw [ToolMemoryOp.text, if_neg]
    rintro ⟨rfl, h1, h2⟩
    exact hempty.elim h1 h2
  · rw [not_or] at hempty
    obtain ⟨hid, hdsml⟩ := hempty
    obtain ⟨l', hv⟩ := h.inv.put hid hdsml source
    refine ⟨l', hv.inv, hv.maxEntries.trans h.maxEntries, hv.maxBytes.trans h.maxBytes, hv.fits,
      fun p hp => ?_⟩
    rw [lastPut_snoc, ToolMemoryOp.text]
    rcases Finset.mem_insert.1 (hv.items hp) with rfl | hp
    · rw [if_pos ⟨rfl, hid, hdsml⟩]
      rfl
    · obtain ⟨hp, hne⟩ := Finset.mem_filter.1 hp
      rw [if_neg fun hi => hne hi.1.symm]
      exact h.last p hp

theorem lookup (h : ToolMemory.Reached maxEntries maxBytes ops m l) (id : Option Bytes) :
    ∃ l', ToolMemory.Reached maxEntries maxBytes (ops ++ [.lookup id])
      (toolMemoryLookupLocked m id).2 l' := by
  have hsame : ∃ l', ToolMemory.Reached maxEntries maxBytes (ops ++ [.lookup id]) m l' :=
    ⟨l, h.keeps (.refl m) h.inv (fun _ he => he) le_rfl le_rfl fun _ => rfl⟩
  rw [toolMemoryLookupLocked]
  by_cases hid : orEmpty id = []
  · rw [toolMemoryFindEntryLocked, if_pos hid]
    exact hsame
  · rcases h.inv.find hid with ⟨hf, -⟩ | ⟨a, e, b, hf, rfl, -⟩
    · rw [hf]
      exact hsame
    · rw [hf]
      refine ⟨e :: (a ++ b), h.keeps (.touch m e) h.inv.touch (fun x hx => ?_) le_rfl le_rfl
        fun _ => rfl⟩
      simp only [List.mem_append, List.mem_cons] at hx ⊢
      tauto

theorem remove (h : ToolMemory.Reached maxEntries maxBytes ops m l) (id : Bytes) :
    ∃ l', ToolMemory.Reached maxEntries maxBytes (ops ++ [.remove id])
      (toolMemoryStep m (.remove id)) l' := by
  have hsame : ∃ l', ToolMemory.Reached maxEntries maxBytes (ops ++ [.remove id]) m l' :=
    ⟨l, h.keeps (.refl m) h.inv (fun _ he => he) le_rfl le_rfl fun _ => rfl⟩
  rw [toolMemoryStep]
  by_cases hid : id = []
  · rw [toolMemoryFindEntryLocked, if_pos hid]
    exact hsame
  · rcases h.inv.find hid with ⟨hf, -⟩ | ⟨a, e, b, hf, rfl, -⟩
    · rw [hf]
      exact hsame
    · rw [hf]
      obtain ⟨h1, h2⟩ := h.inv.remove_le
      refine ⟨a ++ b, h.keeps (.removeEntry m e) h.inv.remove (fun x hx => ?_) h1 h2 fun _ => rfl⟩
      simp only [List.mem_append, List.mem_cons] at hx ⊢
      tauto

theorem run (maxEntries : Int) (maxBytes : Nat) (ops : List ToolMemoryOp) :
    ∃ l, ToolMemory.Reached maxEntries maxBytes ops (toolMemoryRun maxEntries maxBytes ops) l := by
  induction ops using List.reverseRecOn with
  | nil => exact ⟨[], init maxEntries maxBytes⟩
  | append_singleton ops op ih =>
    obtain ⟨l, h⟩ := ih
    rw [toolMemoryRun, List.foldl_append, List.foldl_cons, List.foldl_nil]
    cases op with
    | put id dsml source => exact h.put id dsml source
    | lookup id => exact h.lookup id
    | remove id => exact h.remove id

end ToolMemory.Reached

/-- After any operations the maps, the lists, the counts and the byte total of the memory agree, it
stays within its limits, a present id yields the text of its last put, and a put prunes from the tail
of the recency list only while a limit is exceeded. -/
theorem toolMemoryRun_inv (maxEntries : Int) (maxBytes : Nat) (ops : List ToolMemoryOp) :
    let m := toolMemoryRun maxEntries maxBytes ops
    (∃ l, m.Inv l) ∧
    m.entries ≤ toolMemoryMaxEntries (.init maxEntries maxBytes) ∧
    m.bytes ≤ toolMemoryMaxBytes (.init maxEntries maxBytes) ∧
    (∀ id, (m.byId id).isSome →
      ∃ dsml source b, (toolMemoryLookupLocked m (some id)).1 = some (dsml, source, b) ∧
        lastPut ops id = some dsml) ∧
    ∀ id dsml source, id ≠ [] → dsml ≠ [] →
      ∃ l k, (toolMemoryPutUnpruned m id dsml source).Pruned l
        (toolMemoryPutLocked m (some id) (some dsml) source) k := by
  intro m
  obtain ⟨l, h⟩ := ToolMemory.Reached.run maxEntries maxBytes ops
  have hfits := toolMemoryOver_eq_false.1 h.fits
  rw [toolMemoryMaxEntries, toolMemoryMaxBytes, h.maxEntries, h.maxBytes] at hfits
  refine ⟨⟨l, h.inv⟩, hfits.1, hfits.2, fun id hid => ?_, fun id dsml source hid hdsml => ?_⟩
  · obtain ⟨e, hf⟩ := Option.isSome_iff_exists.1 hid
    obtain ⟨he, hide⟩ := (h.inv.byId id e).1 hf
    have hne : id ≠ [] := hide ▸ (h.inv.nonempty e he).1
    have hlast := h.last _ (ToolMemory.mem_items.2 ⟨e, he, rfl⟩)
    rw [show (ToolMemory.item _ e).1 = id from hide] at hlast
    refine ⟨_, (m.entry e).source, (m.entry e).block, ?_, hlast⟩
    simp only [toolMemoryLookupLocked, toolMemoryFindEntryLocked, orEmpty, Option.getD_some,
      if_neg hne]
    rw [hf]
    rfl
  · obtain ⟨l', hv⟩ := h.inv.putUnpruned hid hdsml source
    obtain ⟨k, hp⟩ := hv.inv.prune
    refine ⟨l', k, ?_⟩
    rw [toolMemoryPutLocked_some hid hdsml]
    exact hp

end Ds4
