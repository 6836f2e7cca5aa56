import Mathlib.Algebra.Order.BigOperators.Group.Finset
import Mathlib.Data.List.FinRange
import Mathlib.Data.Nat.Cast.WithTop
import Ds4.Lib.CString
import Ds4.Lib.SlotSum

/-!
# The cache of image embeddings

`server_image_cache` has a fixed number of entries under a budget of bytes. An entry that is not in use
has the stamp 0, an entry in use the value of the clock at its last use. Allocation succeeds, and the
clock does not reach `2 ^ 64`.
-/

namespace Ds4.ImageCache
open C

structure VisionEmbedding where
  data : Option Bytes := none
  tokenCount : Nat := 0
  layout : Nat := 0
  gridWidth : Nat := 0
  gridHeight : Nat := 0
  width : Nat := 0
  height : Nat := 0
  contentWidth : Nat := 0
  contentHeight : Nat := 0
  fingerprint : Bytes := List.replicate 32 0
  deriving DecidableEq

/-- A copy that has a buffer of its own for the data. -/
def VisionEmbedding.copied (e : VisionEmbedding) (bytes : Nat) : VisionEmbedding :=
  { e with data := e.data.map (·.take bytes) }

theorem VisionEmbedding.copied_copied (e : VisionEmbedding) (bytes : Nat) :
    (e.copied bytes).copied bytes = e.copied bytes := by
  simp only [copied, Option.map_map, Function.comp_def, List.take_take, Nat.min_self]

structure ServerImageCacheEntry where
  encoded : Option Bytes := none
  embedding : VisionEmbedding := {}
  dataBytes : Nat := 0
  used : Nat := 0
  deriving DecidableEq

namespace ServerImageCacheEntry

def encodedLen (entry : ServerImageCacheEntry) : Nat := (entry.encoded.getD []).length

def size (entry : ServerImageCacheEntry) : Nat := entry.encodedLen + entry.dataBytes

end ServerImageCacheEntry

abbrev serverImageCacheEntries : Nat := 32

structure ServerImageCache where
  entries : Fin serverImageCacheEntries → ServerImageCacheEntry := fun _ => {}
  bytes : Nat := 0
  clock : Nat := 0

/-- A difference of sizes, `none` where it would fall below zero. -/
def sizeSub (a b : Nat) : Option Nat := if b ≤ a then some (a - b) else none

theorem sizeSub_of_le {a b : Nat} (h : b ≤ a) : sizeSub a b = some (a - b) := if_pos h

def serverImageCacheRemove (cache : ServerImageCache) (i : Fin serverImageCacheEntries) :
    Option ServerImageCache := do
  let bytes ← sizeSub cache.bytes (cache.entries i).size
  some { cache with entries := Function.update cache.entries i {}, bytes := bytes }

def serverImageCacheClear (cache : ServerImageCache) : Option ServerImageCache := do
  let cache ← (List.finRange serverImageCacheEntries).foldlM serverImageCacheRemove cache
  some { cache with clock := 0 }

def serverImageCacheGet (cache : ServerImageCache) (encoded : Bytes) :
    ServerImageCache × Option VisionEmbedding :=
  match (List.finRange serverImageCacheEntries).find? fun i =>
      (cache.entries i).encoded = some encoded with
  | none => (cache, none)
  | some i =>
    let entry := cache.entries i
    ({ cache with
        entries := Function.update cache.entries i { entry with used := cache.clock + 1 }
        clock := cache.clock + 1 },
      some (entry.embedding.copied entry.dataBytes))

/-- The first entry with the least stamp. -/
def leastUsed (cache : ServerImageCache) : Fin serverImageCacheEntries :=
  (List.finRange serverImageCacheEntries).tail.foldl
    (fun dest i => if (cache.entries i).used < (cache.entries dest).used then i else dest) 0

/-- The first entry in use with the least stamp, if one is in use. -/
def leastUsedInUse (cache : ServerImageCache) (dest : Fin serverImageCacheEntries) :
    Fin serverImageCacheEntries :=
  (List.finRange serverImageCacheEntries).foldl
    (fun dest i =>
      if (cache.entries i).encoded.isSome ∧ ((cache.entries dest).encoded = none ∨
          (cache.entries i).used < (cache.entries dest).used) then i else dest) dest

/-- The loop of `server_image_cache_put`: `none` also where it does not come to an end. -/
def makeRoom (budget total : Nat) :
    Nat → ServerImageCache → Option (ServerImageCache × Fin serverImageCacheEntries)
  | 0, _ => none
  | fuel + 1, cache => do
    let dest := leastUsed cache
    let room ← sizeSub budget total
    if (cache.entries dest).encoded = none ∧ cache.bytes ≤ room then some (cache, dest)
    else
      let dest := if (cache.entries dest).encoded = none then leastUsedInUse cache dest else dest
      let cache ← serverImageCacheRemove cache dest
      makeRoom budget total fuel cache

/-- An embedding is written to a free entry. -/
def ServerImageCache.store (cache : ServerImageCache) (dest : Fin serverImageCacheEntries)
    (encoded : Bytes) (embedding : VisionEmbedding) (bytes : Nat) : ServerImageCache where
  entries := Function.update cache.entries dest
    { encoded := some encoded, embedding := embedding.copied bytes, dataBytes := bytes
      used := cache.clock + 1 }
  bytes := cache.bytes + (encoded.length + bytes)
  clock := cache.clock + 1

def serverImageCachePut (fuel : Nat) (cache : ServerImageCache) (encoded : Bytes)
    (embedding : VisionEmbedding) (dim budget : Nat) : Option ServerImageCache :=
  if embedding.data = none ∨ dim = 0 ∨ embedding.tokenCount = 0 ∨ encoded.length = 0 ∨
      embedding.tokenCount > budget / 4 / dim then some cache
  else do
    let bytes := embedding.tokenCount * dim * 4
    let left ← sizeSub budget bytes
    if encoded.length > left then some cache
    else
      let (cache, dest) ← makeRoom budget (encoded.length + bytes) fuel cache
      some (cache.store dest encoded embedding bytes)

/-! ## Histories -/

inductive Op
  | get (encoded : Bytes)
  | put (encoded : Bytes) (embedding : VisionEmbedding) (dim : Nat)
  | clear

/-- The image that an operation is about. -/
def Op.encoded : Op → Option Bytes
  | .get encoded | .put encoded _ _ => some encoded
  | .clear => none

/-- The caches that a sequence of operations leads to, the last operation first. An image is put only
where it is missing. -/
inductive Reached (budget fuel : Nat) : List Op → ServerImageCache → Prop
  | start : Reached budget fuel [] {}
  | get {ops cache encoded} : Reached budget fuel ops cache →
      Reached budget fuel (.get encoded :: ops) (serverImageCacheGet cache encoded).1
  | put {ops cache encoded embedding dim cache'} : Reached budget fuel ops cache →
      (serverImageCacheGet cache encoded).2 = none →
      serverImageCachePut fuel cache encoded embedding dim budget = some cache' →
      Reached budget fuel (.put encoded embedding dim :: ops) cache'
  | clear {ops cache cache'} : Reached budget fuel ops cache →
      serverImageCacheClear cache = some cache' → Reached budget fuel (.clear :: ops) cache'

/-- The number of the last operation on an image. -/
def lastUse : List Op → Bytes → Nat
  | [], _ => 0
  | op :: ops, encoded => if op.encoded = some encoded then ops.length + 1 else lastUse ops encoded

/-- What was put last for an image, with the width of its rows. -/
def lastPut : List Op → Bytes → Option (VisionEmbedding × Nat)
  | [], _ => none
  | .put encoded' embedding dim :: ops, encoded =>
    if encoded' = encoded then some (embedding, dim) else lastPut ops encoded
  | _ :: ops, encoded => lastPut ops encoded

theorem lastUse_le (ops : List Op) (encoded : Bytes) : lastUse ops encoded ≤ ops.length := by
  induction ops with
  | nil => exact Nat.le_refl 0
  | cons op ops ih =>
    rw [lastUse]
    split
    · exact Nat.le_refl _
    · exact Nat.le_succ_of_le ih

/-- `i` is in use for the image. -/
def ServerImageCache.Holds (cache : ServerImageCache) (i : Fin serverImageCacheEntries)
    (encoded : Bytes) : Prop :=
  (cache.entries i).encoded = some encoded

structure Inv (budget : Nat) (ops : List Op) (cache : ServerImageCache) : Prop where
  bytes_eq : cache.bytes = ∑ i, (cache.entries i).size
  bytes_le : cache.bytes ≤ budget
  distinct : ∀ i j encoded, cache.Holds i encoded → cache.Holds j encoded → i = j
  free : ∀ i, (cache.entries i).encoded = none → cache.entries i = {}
  used_pos : ∀ i encoded, cache.Holds i encoded → 0 < (cache.entries i).used
  used_le : ∀ i, (cache.entries i).used ≤ cache.clock
  used_lt : ∀ i j encoded encoded', cache.Holds i encoded → cache.Holds j encoded' →
    ((cache.entries i).used < (cache.entries j).used ↔ lastUse ops encoded < lastUse ops encoded')
  last_put : ∀ i encoded, cache.Holds i encoded → ∃ embedding dim,
    lastPut ops encoded = some (embedding, dim) ∧
      (cache.entries i).dataBytes = embedding.tokenCount * dim * 4 ∧
      (cache.entries i).embedding = embedding.copied (cache.entries i).dataBytes

/-- Entries are removed one after the other: each is in use, none of those in use was used before it,
and there is no free entry or not enough of the budget. -/
inductive Evicts (budget total : Nat) (ops : List Op) : ServerImageCache → ServerImageCache → Prop
  | none {cache} : Evicts budget total ops cache cache
  | evict {cache i encoded cache' cache''} : cache.Holds i encoded →
      (∀ j encoded', cache.Holds j encoded' → lastUse ops encoded ≤ lastUse ops encoded') →
      (∀ j, (cache.entries j).encoded ≠ none) ∨ budget < cache.bytes + total →
      serverImageCacheRemove cache i = some cache' →
      Evicts budget total ops cache' cache'' → Evicts budget total ops cache cache''

/-! ### The steps -/

section Steps
variable {budget : Nat} {ops : List Op} {op : Op} {cache cache' : ServerImageCache}
  {i j : Fin serverImageCacheEntries} {encoded encoded' : Bytes}

theorem lastUse_of_ne (h : op.encoded ≠ some encoded) :
    lastUse (op :: ops) encoded = lastUse ops encoded :=
  if_neg h

theorem lastPut_of_ne (h : op.encoded ≠ some encoded) :
    lastPut (op :: ops) encoded = lastPut ops encoded := by
  cases op with
  | get | clear => rfl
  | put => exact if_neg fun he => h (congrArg some he)

theorem inv_start (budget : Nat) : Inv budget [] {} where
  bytes_eq := (Finset.sum_eq_zero fun _ _ => rfl).symm
  bytes_le := Nat.zero_le _
  distinct := fun _ _ _ h => nomatch h
  free := fun _ _ => rfl
  used_pos := fun _ _ h => nomatch h
  used_le := fun _ => Nat.le_refl 0
  used_lt := fun _ _ _ _ h => nomatch h
  last_put := fun _ _ h => nomatch h

/-- An operation on an image that is not there. -/
theorem Inv.skip (h : Inv budget ops cache)
    (hop : ∀ i encoded, cache.Holds i encoded → op.encoded ≠ some encoded) :
    Inv budget (op :: ops) cache where
  bytes_eq := h.bytes_eq
  bytes_le := h.bytes_le
  distinct := h.distinct
  free := h.free
  used_pos := h.used_pos
  used_le := h.used_le
  used_lt i j encoded encoded' hi hj := by
    rw [lastUse_of_ne (hop i encoded hi), lastUse_of_ne (hop j encoded' hj)]
    exact h.used_lt i j encoded encoded' hi hj
  last_put i encoded hi := by
    rw [lastPut_of_ne (hop i encoded hi)]
    exact h.last_put i encoded hi

theorem Inv.size_le (h : Inv budget ops cache) (i : Fin serverImageCacheEntries) :
    (cache.entries i).size ≤ cache.bytes := by
  have hsum := Slots.sum_update ServerImageCacheEntry.size cache.entries i {}
  have hempty : ({} : ServerImageCacheEntry).size = 0 := rfl
  have hbytes := h.bytes_eq
  omega

/-- The cache without an entry. -/
def ServerImageCache.without (cache : ServerImageCache) (i : Fin serverImageCacheEntries) :
    ServerImageCache :=
  { cache with entries := Function.update cache.entries i {}, bytes := cache.bytes - (cache.entries i).size }

theorem Inv.remove (h : Inv budget ops cache) (i : Fin serverImageCacheEntries) :
    serverImageCacheRemove cache i = some (cache.without i) := by
  rw [serverImageCacheRemove, sizeSub_of_le (h.size_le i)]
  rfl

theorem entries_without_self : (cache.without i).entries i = {} := Function.update_self ..

theorem entries_without_of_ne (h : j ≠ i) : (cache.without i).entries j = cache.entries j :=
  Function.update_of_ne h ..

theorem holds_without : (cache.without i).Holds j encoded ↔ j ≠ i ∧ cache.Holds j encoded := by
  rw [ServerImageCache.Holds]
  by_cases hji : j = i
  · subst hji
    rw [entries_without_self]
    exact ⟨fun h => (nomatch h), fun h => absurd rfl h.1⟩
  · rw [entries_without_of_ne hji]
    exact ⟨fun h => ⟨hji, h⟩, fun h => h.2⟩

theorem Inv.without (h : Inv budget ops cache) (i : Fin serverImageCacheEntries) :
    Inv budget ops (cache.without i) where
  bytes_eq := by
    have hsum := Slots.sum_update ServerImageCacheEntry.size cache.entries i {}
    have hempty : ({} : ServerImageCacheEntry).size = 0 := rfl
    have hbytes := h.bytes_eq
    have hle := h.size_le i
    change cache.bytes - _ = ∑ k, (Function.update cache.entries i {} k).size
    omega
  bytes_le := (Nat.sub_le _ _).trans h.bytes_le
  distinct j k encoded hj hk := h.distinct j k encoded (holds_without.mp hj).2 (holds_without.mp hk).2
  free j hj := by
    by_cases hji : j = i
    · subst hji
      exact entries_without_self
    · rw [entries_without_of_ne hji] at hj ⊢
      exact h.free j hj
  used_pos j encoded hj := by
    rw [entries_without_of_ne (holds_without.mp hj).1]
    exact h.used_pos j encoded (holds_without.mp hj).2
  used_le j := by
    by_cases hji : j = i
    · subst hji
      rw [entries_without_self]
      exact Nat.zero_le _
    · rw [entries_without_of_ne hji]
      exact h.used_le j
  used_lt j k encoded encoded' hj hk := by
    rw [entries_without_of_ne (holds_without.mp hj).1, entries_without_of_ne (holds_without.mp hk).1]
    exact h.used_lt j k encoded encoded' (holds_without.mp hj).2 (holds_without.mp hk).2
  last_put j encoded hj := by
    rw [entries_without_of_ne (holds_without.mp hj).1]
    exact h.last_put j encoded (holds_without.mp hj).2

/-- Entries are removed one after the other. -/
theorem Inv.foldlM_remove (h : Inv budget ops cache) (slots : List (Fin serverImageCacheEntries)) :
    ∃ cache', slots.foldlM serverImageCacheRemove cache = some cache' ∧ Inv budget ops cache' ∧
      ∀ i encoded, cache'.Holds i encoded → i ∉ slots ∧ cache.Holds i encoded := by
  induction slots generalizing cache with
  | nil => exact ⟨cache, rfl, h, fun _ _ hi => ⟨List.not_mem_nil, hi⟩⟩
  | cons i slots ih =>
    obtain ⟨cache', hrun, hinv, hheld⟩ := ih (h.without i)
    refine ⟨cache', ?_, hinv, fun j encoded hj => ?_⟩
    · rw [List.foldlM_cons, h.remove i]
      exact hrun
    · obtain ⟨hslots, hj⟩ := hheld j encoded hj
      obtain ⟨hne, hj⟩ := holds_without.mp hj
      exact ⟨List.not_mem_cons_of_ne_of_not_mem hne hslots, hj⟩

/-- A cache that holds nothing. -/
theorem Inv.clear (h : Inv budget ops cache) :
    ∃ cache', serverImageCacheClear cache = some cache' ∧ Inv budget (.clear :: ops) cache' := by
  obtain ⟨cache', hrun, hinv, hheld⟩ := h.foldlM_remove (List.finRange serverImageCacheEntries)
  have hnone : ∀ i encoded, ¬cache'.Holds i encoded := fun i encoded hi =>
    (hheld i encoded hi).1 (List.mem_finRange i)
  have hfree : ∀ i, cache'.entries i = {} := fun i =>
    hinv.free i (Option.eq_none_iff_forall_ne_some.mpr fun encoded => hnone i encoded)
  refine ⟨{ cache' with clock := 0 }, ?_, ?_⟩
  · rw [serverImageCacheClear, hrun]
    rfl
  · exact {
      bytes_eq := hinv.bytes_eq
      bytes_le := hinv.bytes_le
      distinct := fun i _ encoded hi => absurd hi (hnone i encoded)
      free := hinv.free
      used_pos := fun i encoded hi => absurd hi (hnone i encoded)
      used_le := fun i => (congrArg ServerImageCacheEntry.used (hfree i)).le
      used_lt := fun i _ encoded _ hi => absurd hi (hnone i encoded)
      last_put := fun i encoded hi => absurd hi (hnone i encoded) }

/-! ### The use of an entry -/

/-- The cache after an entry has been written with the stamp of this use. -/
def ServerImageCache.use (cache : ServerImageCache) (i : Fin serverImageCacheEntries)
    (entry : ServerImageCacheEntry) (bytes : Nat) : ServerImageCache where
  entries := Function.update cache.entries i { entry with used := cache.clock + 1 }
  bytes := bytes
  clock := cache.clock + 1

variable {entry : ServerImageCacheEntry} {bytes : Nat}

theorem entries_use_self :
    (cache.use i entry bytes).entries i = { entry with used := cache.clock + 1 } :=
  Function.update_self ..

theorem entries_use_of_ne (h : j ≠ i) : (cache.use i entry bytes).entries j = cache.entries j :=
  Function.update_of_ne h ..

theorem holds_use_self : (cache.use i entry bytes).Holds i encoded ↔ entry.encoded = some encoded := by
  rw [ServerImageCache.Holds, entries_use_self]

theorem holds_use_of_ne (h : j ≠ i) :
    (cache.use i entry bytes).Holds j encoded ↔ cache.Holds j encoded := by
  rw [ServerImageCache.Holds, entries_use_of_ne h]
  exact Iff.rfl

/-- An operation that ends with an entry for its image, the only one, keeps the invariant. -/
theorem Inv.use (h : Inv budget ops cache) (hop : op.encoded = some encoded)
    (hentry : entry.encoded = some encoded) (honly : ∀ j, cache.Holds j encoded → j = i)
    (hbytes : bytes + (cache.entries i).size = cache.bytes + entry.size) (hle : bytes ≤ budget)
    (hlast : ∃ embedding dim, lastPut (op :: ops) encoded = some (embedding, dim) ∧
      entry.dataBytes = embedding.tokenCount * dim * 4 ∧
      entry.embedding = embedding.copied entry.dataBytes) :
    Inv budget (op :: ops) (cache.use i entry bytes) := by
  have hself : ∀ encoded', (cache.use i entry bytes).Holds i encoded' → encoded' = encoded :=
    fun encoded' hi => Option.some.inj ((holds_use_self.mp hi).symm.trans hentry)
  have hother : ∀ j encoded', j ≠ i → (cache.use i entry bytes).Holds j encoded' →
      cache.Holds j encoded' ∧ op.encoded ≠ some encoded' := fun j encoded' hji hj => by
    have hj' := (holds_use_of_ne hji).mp hj
    refine ⟨hj', fun he => hji (honly j ?_)⟩
    rwa [Option.some.inj (hop.symm.trans he)]
  have hnow : lastUse (op :: ops) encoded = ops.length + 1 := if_pos hop
  refine ⟨?_, hle, fun j k encoded' hj hk => ?_, fun j hj => ?_, fun j encoded' hj => ?_, fun j => ?_,
    fun j k encoded' encoded'' hj hk => ?_, fun j encoded' hj => ?_⟩
  · have hsum := Slots.sum_update ServerImageCacheEntry.size cache.entries i
      { entry with used := cache.clock + 1 }
    have hsize : ({ entry with used := cache.clock + 1 } : ServerImageCacheEntry).size = entry.size := rfl
    have hold := h.bytes_eq
    change bytes = ∑ k, (Function.update cache.entries i { entry with used := cache.clock + 1 } k).size
    omega
  · by_cases hji : j = i <;> by_cases hki : k = i
    · exact hji.trans hki.symm
    · subst hji
      exact absurd (hop.trans (congrArg some (hself encoded' hj).symm)) (hother k encoded' hki hk).2
    · subst hki
      exact absurd (hop.trans (congrArg some (hself encoded' hk).symm)) (hother j encoded' hji hj).2
    · exact h.distinct j k encoded' (hother j encoded' hji hj).1 (hother k encoded' hki hk).1
  · by_cases hji : j = i
    · subst hji
      rw [entries_use_self] at hj
      exact nomatch hentry.symm.trans hj
    · rw [entries_use_of_ne hji] at hj ⊢
      exact h.free j hj
  · by_cases hji : j = i
    · subst hji
      rw [entries_use_self]
      exact Nat.succ_pos _
    · rw [entries_use_of_ne hji]
      exact h.used_pos j encoded' (hother j encoded' hji hj).1
  · by_cases hji : j = i
    · subst hji
      rw [entries_use_self]
      exact Nat.le_refl _
    · rw [entries_use_of_ne hji]
      exact Nat.le_succ_of_le (h.used_le j)
  · by_cases hji : j = i <;> by_cases hki : k = i
    · subst hji
      subst hki
      rw [hself encoded' hj, hself encoded'' hk]
      exact ⟨fun hlt => absurd hlt (Nat.lt_irrefl _), fun hlt => absurd hlt (Nat.lt_irrefl _)⟩
    · subst hji
      rw [hself encoded' hj, hnow, lastUse_of_ne (hother k encoded'' hki hk).2, entries_use_self,
        entries_use_of_ne hki]
      have hused := h.used_le k
      have hlast := lastUse_le ops encoded''
      dsimp only
      omega
    · subst hki
      rw [hself encoded'' hk, hnow, lastUse_of_ne (hother j encoded' hji hj).2, entries_use_self,
        entries_use_of_ne hji]
      have hused := h.used_le j
      have hlast := lastUse_le ops encoded'
      dsimp only
      omega
    · rw [lastUse_of_ne (hother j encoded' hji hj).2, lastUse_of_ne (hother k encoded'' hki hk).2,
        entries_use_of_ne hji, entries_use_of_ne hki]
      exact h.used_lt j k encoded' encoded'' (hother j encoded' hji hj).1 (hother k encoded'' hki hk).1
  · by_cases hji : j = i
    · subst hji
      rw [hself encoded' hj, entries_use_self]
      exact hlast
    · rw [lastPut_of_ne (hother j encoded' hji hj).2, entries_use_of_ne hji]
      exact h.last_put j encoded' (hother j encoded' hji hj).1

/-! ### Getting an image -/

theorem get_of_missing (h : ∀ i, ¬cache.Holds i encoded) :
    serverImageCacheGet cache encoded = (cache, none) := by
  have hfind : ((List.finRange serverImageCacheEntries).find? fun i =>
      (cache.entries i).encoded = some encoded) = none :=
    List.find?_eq_none.mpr fun i _ hi => h i (of_decide_eq_true hi : (cache.entries i).encoded = some encoded)
  rw [serverImageCacheGet, hfind]

theorem Inv.get_eq (h : Inv budget ops cache) (hi : cache.Holds i encoded) :
    serverImageCacheGet cache encoded = (cache.use i (cache.entries i) cache.bytes,
      some ((cache.entries i).embedding.copied (cache.entries i).dataBytes)) := by
  have hfind : ((List.finRange serverImageCacheEntries).find? fun i =>
      (cache.entries i).encoded = some encoded) = some i := by
    cases hj : (List.finRange serverImageCacheEntries).find? fun i =>
        (cache.entries i).encoded = some encoded with
    | none =>
      exact absurd (decide_eq_true (show (cache.entries i).encoded = some encoded from hi))
        (List.find?_eq_none.mp hj i (List.mem_finRange i))
    | some j =>
      have hjh : (cache.entries j).encoded = some encoded := by simpa using List.find?_some hj
      exact congrArg some (h.distinct j i encoded hjh hi)
  rw [serverImageCacheGet, hfind]
  rfl

theorem Inv.missing_of_get (h : Inv budget ops cache) (hget : (serverImageCacheGet cache encoded).2 = none) :
    ∀ i, ¬cache.Holds i encoded := fun i hi => by
  rw [h.get_eq hi] at hget
  exact nomatch hget

theorem Inv.get (h : Inv budget ops cache) (encoded : Bytes) :
    Inv budget (.get encoded :: ops) (serverImageCacheGet cache encoded).1 := by
  by_cases hi : ∃ i, cache.Holds i encoded
  · obtain ⟨i, hi⟩ := hi
    rw [h.get_eq hi]
    exact h.use rfl hi (fun j hj => h.distinct j i encoded hj hi) rfl h.bytes_le (h.last_put i encoded hi)
  · have hnone : ∀ i, ¬cache.Holds i encoded := not_exists.mp hi
    rw [get_of_missing hnone]
    exact h.skip fun i encoded' hi he => hnone i (Option.some.inj he ▸ hi)

/-! ### Making room -/

theorem leastUsed_le (cache : ServerImageCache) (i : Fin serverImageCacheEntries) :
    (cache.entries (leastUsed cache)).used ≤ (cache.entries i).used := by
  obtain ⟨hdest, hl⟩ := Slots.foldl_least_le (fun i => (cache.entries i).used)
    (List.finRange serverImageCacheEntries).tail 0
  have hi : i = 0 ∨ i ∈ (List.finRange serverImageCacheEntries).tail :=
    List.mem_cons.mp (List.mem_finRange i)
  rcases hi with rfl | hi
  · exact hdest
  · exact hl i hi

/-- The stamp of an entry in use, and something larger for the others. -/
def useStamp (cache : ServerImageCache) (i : Fin serverImageCacheEntries) : WithTop Nat :=
  if (cache.entries i).encoded = none then ⊤ else (cache.entries i).used

theorem leastUsedInUse_le (cache : ServerImageCache) (dest i : Fin serverImageCacheEntries) :
    useStamp cache (leastUsedInUse cache dest) ≤ useStamp cache i := by
  have hstep : (fun dest i => if (cache.entries i).encoded.isSome ∧ ((cache.entries dest).encoded = none ∨
      (cache.entries i).used < (cache.entries dest).used) then i else dest) =
      fun dest i => if useStamp cache i < useStamp cache dest then i else dest := by
    funext dest i
    refine if_congr ?_ rfl rfl
    rw [useStamp, useStamp]
    cases (cache.entries i).encoded with
    | none => simp
    | some =>
      cases (cache.entries dest).encoded with
      | none => simp
      | some =>
        simp only [Option.isSome_some, reduceCtorEq, false_or, true_and, ↓reduceIte]
        exact WithTop.coe_lt_coe.symm
  rw [leastUsedInUse, hstep]
  exact (Slots.foldl_least_le (useStamp cache) _ dest).2 i (List.mem_finRange i)

/-- How many entries are in use. -/
def ServerImageCache.count (cache : ServerImageCache) : Nat :=
  ∑ i, if (cache.entries i).encoded.isSome then 1 else 0

theorem count_le (cache : ServerImageCache) : cache.count ≤ serverImageCacheEntries := by
  refine (Finset.sum_le_card_nsmul Finset.univ _ 1 fun i _ => ?_).trans (by simp)
  split
  · exact Nat.le_refl 1
  · exact Nat.zero_le 1

theorem count_without (hi : cache.Holds i encoded) : (cache.without i).count < cache.count := by
  have hsum := Slots.sum_update (fun entry => if entry.encoded.isSome then 1 else 0) cache.entries i {}
  have hone : (if (cache.entries i).encoded.isSome then 1 else 0) = 1 := by rw [hi]; rfl
  have hzero : (if ({} : ServerImageCacheEntry).encoded.isSome then 1 else 0) = 0 := rfl
  change (∑ k, if (Function.update cache.entries i {} k).encoded.isSome then 1 else 0) <
    ∑ k, if (cache.entries k).encoded.isSome then 1 else 0
  omega

/-- The entry that the loop removes. -/
def victim (cache : ServerImageCache) : Fin serverImageCacheEntries :=
  let dest := leastUsed cache
  if (cache.entries dest).encoded = none then leastUsedInUse cache dest else dest

/-- A cache with some bytes has an entry in use. -/
theorem Inv.exists_holds (h : Inv budget ops cache) (hpos : 0 < cache.bytes) :
    ∃ i encoded, cache.Holds i encoded := by
  rw [h.bytes_eq] at hpos
  obtain ⟨i, -, hi⟩ := Finset.exists_ne_zero_of_sum_ne_zero hpos.ne'
  refine ⟨i, Option.ne_none_iff_exists'.mp fun hnone => hi ?_⟩
  rw [h.free i hnone]
  rfl

/-- Where the loop goes on, its victim is in use, and was so before any other entry in use. -/
theorem Inv.victim_spec (h : Inv budget ops cache) {total : Nat} (htotal : total ≤ budget)
    (hgo : ¬((cache.entries (leastUsed cache)).encoded = none ∧ cache.bytes ≤ budget - total)) :
    (∃ encoded, cache.Holds (victim cache) encoded ∧
      ∀ j encoded', cache.Holds j encoded' → lastUse ops encoded ≤ lastUse ops encoded') ∧
    ((∀ j, (cache.entries j).encoded ≠ none) ∨ budget < cache.bytes + total) := by
  have hleast : ∀ i encoded, cache.Holds i encoded →
      (∀ j encoded', cache.Holds j encoded' → (cache.entries i).used ≤ (cache.entries j).used) →
      ∀ j encoded', cache.Holds j encoded' → lastUse ops encoded ≤ lastUse ops encoded' :=
    fun i encoded hi hmin j encoded' hj => Nat.le_of_not_lt fun hlt =>
      Nat.not_lt_of_le (hmin j encoded' hj) ((h.used_lt j i encoded' encoded hj hi).mpr hlt)
  rw [victim]
  cases hdest : (cache.entries (leastUsed cache)).encoded with
  | none =>
    have hshort : budget - total < cache.bytes := Nat.lt_of_not_le fun hle => hgo ⟨hdest, hle⟩
    obtain ⟨k, encodedk, hk⟩ := h.exists_holds (Nat.zero_lt_of_lt hshort)
    have hstamp : ∀ {i encoded}, cache.Holds i encoded → useStamp cache i = (cache.entries i).used :=
      fun hi => if_neg fun hnone => nomatch hnone.symm.trans hi
    have hmin := leastUsedInUse_le cache (leastUsed cache)
    obtain ⟨encoded, hi⟩ : ∃ encoded, cache.Holds (leastUsedInUse cache (leastUsed cache)) encoded := by
      refine Option.ne_none_iff_exists'.mp fun hnone => ?_
      have htop : useStamp cache (leastUsedInUse cache (leastUsed cache)) = ⊤ := if_pos hnone
      have hle := hmin k
      rw [htop, hstamp hk] at hle
      exact absurd hle (WithTop.coe_lt_top _).not_ge
    refine ⟨⟨encoded, hi, hleast _ encoded hi fun j encoded' hj => ?_⟩, .inr (by omega)⟩
    have hle := hmin j
    rw [hstamp hi, hstamp hj] at hle
    exact WithTop.coe_le_coe.mp hle
  | some encoded =>
    refine ⟨⟨encoded, hdest, hleast _ encoded hdest fun j _ _ => leastUsed_le cache j⟩, .inl fun j hj => ?_⟩
    have hpos := h.used_pos _ encoded hdest
    have hle := leastUsed_le cache j
    rw [h.free j hj] at hle
    exact absurd (Nat.lt_of_lt_of_le hpos hle) (Nat.lt_irrefl 0)

/-- The loop ends at a free entry, with enough of the budget left. -/
theorem Inv.makeRoom (h : Inv budget ops cache) {total fuel : Nat} (htotal : total ≤ budget)
    (hfuel : cache.count < fuel) :
    ∃ cache' dest, makeRoom budget total fuel cache = some (cache', dest) ∧
      Evicts budget total ops cache cache' ∧ Inv budget ops cache' ∧
      (cache'.entries dest).encoded = none ∧ cache'.bytes + total ≤ budget ∧
      ∀ i encoded, cache'.Holds i encoded → cache.Holds i encoded := by
  induction fuel generalizing cache with
  | zero => exact absurd hfuel (Nat.not_lt_zero _)
  | succ fuel ih =>
    rw [ImageCache.makeRoom, sizeSub_of_le htotal]
    by_cases hstop : (cache.entries (leastUsed cache)).encoded = none ∧ cache.bytes ≤ budget - total
    · refine ⟨cache, leastUsed cache, if_pos hstop, .none, h, hstop.1, ?_, fun _ _ hi => hi⟩
      have hroom := hstop.2
      omega
    · obtain ⟨⟨encoded, hi, hold⟩, hneed⟩ := h.victim_spec htotal hstop
      have hcount := count_without hi
      obtain ⟨cache', dest, hrun, hevicts, hinv, hfree, hroom, hheld⟩ :=
        ih (h.without (victim cache)) (by omega)
      refine ⟨cache', dest, (if_neg hstop).trans ?_, .evict hi hold hneed (h.remove _) hevicts, hinv, hfree,
        hroom, fun j encoded' hj => (holds_without.mp (hheld j encoded' hj)).2⟩
      change (serverImageCacheRemove cache (victim cache)).bind _ = _
      rw [h.remove]
      exact hrun

/-- A put of an image that is missing comes to an end. -/
theorem Inv.put (h : Inv budget ops cache) {fuel : Nat} (hfuel : serverImageCacheEntries < fuel)
    (hnone : ∀ i, ¬cache.Holds i encoded) (embedding : VisionEmbedding) (dim : Nat) :
    ∃ cache', serverImageCachePut fuel cache encoded embedding dim budget = some cache' ∧
      Inv budget (.put encoded embedding dim :: ops) cache' ∧
      (cache' = cache ∨ ∃ room dest,
        Evicts budget (encoded.length + embedding.tokenCount * dim * 4) ops cache room ∧
        (room.entries dest).encoded = none ∧
        room.bytes + (encoded.length + embedding.tokenCount * dim * 4) ≤ budget ∧
        cache' = room.store dest encoded embedding (embedding.tokenCount * dim * 4)) := by
  have hskip : Inv budget (.put encoded embedding dim :: ops) cache :=
    h.skip fun i encoded' hi he => hnone i (Option.some.inj he ▸ hi)
  rw [serverImageCachePut]
  split
  · exact ⟨cache, rfl, hskip, .inl rfl⟩
  next hok =>
  have hbytes : embedding.tokenCount * dim * 4 ≤ budget := by
    have hcount : embedding.tokenCount ≤ budget / 4 / dim := Nat.le_of_not_lt fun h => hok (by tauto)
    have hrows := (Nat.mul_le_mul_right dim hcount).trans (Nat.div_mul_le_self _ _)
    exact (Nat.mul_le_mul_right 4 hrows).trans (Nat.div_mul_le_self _ _)
  dsimp only
  rw [sizeSub_of_le hbytes, Option.bind_eq_bind, Option.bind_some]
  split
  · exact ⟨cache, rfl, hskip, .inl rfl⟩
  next hlen =>
  have htotal : encoded.length + embedding.tokenCount * dim * 4 ≤ budget := by omega
  obtain ⟨room, dest, hrun, hevicts, hinv, hfree, hroom, hheld⟩ :=
    h.makeRoom htotal ((count_le cache).trans_lt hfuel)
  rw [hrun]
  refine ⟨_, rfl, ?_, .inr ⟨room, dest, hevicts, hfree, hroom, rfl⟩⟩
  have hentry : (⟨some encoded, embedding.copied (embedding.tokenCount * dim * 4),
      embedding.tokenCount * dim * 4, 0⟩ : ServerImageCacheEntry).encoded = some encoded := rfl
  refine Inv.use hinv rfl hentry (fun j hj => absurd (hheld j encoded hj) (hnone j)) ?_ hroom
    ⟨embedding, dim, if_pos rfl, rfl, rfl⟩
  rw [hinv.free dest hfree]
  rfl

end Steps

theorem Reached.inv {budget fuel : Nat} (hfuel : serverImageCacheEntries < fuel) {ops : List Op}
    {cache : ServerImageCache} (h : Reached budget fuel ops cache) : Inv budget ops cache := by
  induction h with
  | start => exact inv_start budget
  | get _ ih => exact ih.get _
  | @put ops cache encoded embedding dim cache' _ hget hput ih =>
    obtain ⟨cache'', hrun, hinv, -⟩ := ih.put hfuel (ih.missing_of_get hget) embedding dim
    rw [hput] at hrun
    exact Option.some.inj hrun ▸ hinv
  | clear _ hclear ih =>
    obtain ⟨cache'', hrun, hinv⟩ := ih.clear
    rw [hclear] at hrun
    exact Option.some.inj hrun ▸ hinv

/-- In every cache that is reached the bytes are those of the entries and within the budget, an image has
one entry, and that entry gives what was put last for the image; no operation takes a size below zero, and
a put ends after it has removed only what it had to, the least recently used first. -/
theorem serverImageCache_reached {budget fuel : Nat} (hfuel : serverImageCacheEntries < fuel)
    {ops : List Op} {cache : ServerImageCache} (h : Reached budget fuel ops cache) :
    cache.bytes = ∑ i, (cache.entries i).size ∧ cache.bytes ≤ budget ∧
    (∀ i j encoded, cache.Holds i encoded → cache.Holds j encoded → i = j) ∧
    (∀ i encoded, cache.Holds i encoded → ∃ embedding dim,
      lastPut ops encoded = some (embedding, dim) ∧
      (serverImageCacheGet cache encoded).2 = some (embedding.copied (embedding.tokenCount * dim * 4))) ∧
    (∃ cache', serverImageCacheClear cache = some cache') ∧
    ∀ encoded embedding dim, (serverImageCacheGet cache encoded).2 = none →
      ∃ cache', serverImageCachePut fuel cache encoded embedding dim budget = some cache' ∧
        (cache' = cache ∨ ∃ room dest,
          Evicts budget (encoded.length + embedding.tokenCount * dim * 4) ops cache room ∧
          (room.entries dest).encoded = none ∧
          room.bytes + (encoded.length + embedding.tokenCount * dim * 4) ≤ budget ∧
          cache' = room.store dest encoded embedding (embedding.tokenCount * dim * 4)) := by
  have hinv := h.inv hfuel
  refine ⟨hinv.bytes_eq, hinv.bytes_le, hinv.distinct, fun i encoded hi => ?_,
    hinv.clear.imp fun _ h => h.1, fun encoded embedding dim hget => ?_⟩
  · obtain ⟨embedding, dim, hlast, hbytes, hdata⟩ := hinv.last_put i encoded hi
    refine ⟨embedding, dim, hlast, ?_⟩
    rw [hinv.get_eq hi, hdata, VisionEmbedding.copied_copied, hbytes]
  · obtain ⟨cache', hrun, -, hspec⟩ := hinv.put hfuel (hinv.missing_of_get hget) embedding dim
    exact ⟨cache', hrun, hspec⟩

/-- One row of two floats. -/
def smallEmbedding : VisionEmbedding := { data := some [0, 0, 128, 63, 0, 0, 0, 64], tokenCount := 1 }

theorem serverImageCache_reached_small :
    ∃ cache, serverImageCachePut 33 {} [1] smallEmbedding 2 9 = some cache ∧ cache.bytes ≤ 9 ∧
      (serverImageCacheGet cache [1]).2 = some smallEmbedding := by
  have hput : serverImageCachePut 33 {} [1] smallEmbedding 2 9 =
      some (({} : ServerImageCache).store 0 [1] smallEmbedding 8) := rfl
  have hfuel : serverImageCacheEntries < 33 := by decide
  have h := serverImageCache_reached hfuel (.put .start rfl hput)
  obtain ⟨embedding, dim, hlast, hget⟩ := h.2.2.2.1 0 [1] rfl
  cases Option.some.inj hlast
  exact ⟨_, hput, h.2.1, hget⟩

end Ds4.ImageCache
