import Ds4.Kv.Find

/-!
# The byte budget of the cache

The sizes of the entries of a cache directory stay within the budget, over every run of opening,
storing and loading in which file operations succeed, as long as no kept file outgrows the budget
when its trailer is rewritten.
-/

namespace Ds4.Kv
open C Files

variable {σ : Type} [LinearOrder σ]

/-- The bytes of all entries. -/
def total (d : CacheDir) : Nat := totalBytes (entries d)

theorem total_eq (d : CacheDir) : total d = d.sum entrySize := totalBytes_entries d

theorem total_erase_le (d : CacheDir) (n : Bytes) : total (d.erase n) ≤ total d := by
  rw [total_eq, total_eq]
  cases h : d.get n with
  | none =>
    rw [Dir.sum, Dir.sum, Dir.erase_of_get_none h]
  | some f =>
    have := d.sum_erase entrySize h
    omega

theorem total_put_le (d : CacheDir) (n f : Bytes) :
    total (d.put n f) ≤ total (d.erase n) + f.length := by
  rw [total_eq, total_eq, Dir.sum_put]
  have := entrySize_le (n, f)
  simp only at this
  omega

theorem total_erase_entry {d : CacheDir} (h : d.get n = some f) (he : entryOf (n, f) = some e) :
    total (d.erase n) + f.length = total d := by
  have hsum := d.sum_erase entrySize h
  rw [total_eq, total_eq, ← hsum, entrySize, he]
  have := entryOf_fileSize he
  simp only [Option.map_some, Option.getD_some] at this ⊢
  omega

/-- A file of the same length in the place of an entry. -/
theorem total_replace_le {d : CacheDir} (h : d.get n = some f) (he : entryOf (n, f) = some e)
    (hlen : f'.length ≤ f.length) : total (d.put n f') ≤ total d := by
  have h1 := total_put_le d n f'
  have h2 := total_erase_entry h he
  omega

theorem total_dropIncompatible_le (kc : KvStore) (r : StoreRequest) (d : CacheDir) :
    total (dropIncompatible kc r d) ≤ total d := by
  rw [dropIncompatible]
  split
  · exact total_erase_le d r.path
  · exact le_rfl

/-! ## Steps -/

/-- A kept file has room for its new trailer: with the new trailer in the place of the old one the
entries are within the budget. -/
def RewriteFits (kc : KvStore) (d : CacheDir) (r : StoreRequest) : Prop :=
  ∀ f e, kept kc r d = true → d.get r.path = some f →
    ds4KvstoreReadEntryFile r.path r.sha f = some e → Trailer.bytes r.trailer ≠ [] →
    total d + (Trailer.bytes r.trailer).length ≤
      kc.budgetBytes + (f.length - (fixedHeader + 4 + e.textBytes + e.payloadBytes))

/-- A store that is too large finds no entry of its text that it cannot keep. -/
def SkipKeeps (kc : KvStore) (d : CacheDir) (r : StoreRequest) : Prop :=
  r.fits kc = none → kept kc r d = false →
    (d.get r.path).bind (ds4KvstoreReadEntryFile r.path r.sha) = none

theorem le_budgetRequired (h : kvCacheBudgetRequired n = some required) : n ≤ required := by
  rw [kvCacheBudgetRequired] at h
  generalize (if n % 100 ≠ 0 then n / 100 + 1 else n / 100) = slack at h
  split at h
  · cases h
  · cases h
    exact Nat.le_add_right n slack

theorem fits_le {kc : KvStore} {r : StoreRequest} (h : r.fits kc = some n) (hb : kc.budgetBytes ≠ 0) :
    n = r.file.length ∧ n ≤ kc.budgetBytes := by
  rw [StoreRequest.fits, ds4KvstoreFileSizeFits] at h
  split at h
  · cases h
  · next m hsize =>
    rw [if_neg hb] at h
    split at h
    · cases h
    · next required hreq =>
      split at h
      · next hle =>
        cases h
        constructor
        · rw [kvCacheFileSizeBytes] at hsize
          split at hsize
          · cases hsize
          · cases hsize
            rw [StoreRequest.length_file]
        · exact (le_budgetRequired hreq).trans hle
      · cases h

theorem total_rewrite {kc : KvStore} {r : StoreRequest} {d : CacheDir} (hk : kept kc r d = true) (hfit : RewriteFits kc d r)
    (htotal : total d ≤ kc.budgetBytes) :
    total ((kvCacheRewriteTrailer r.path r.trailer r.now).run d).2 ≤ kc.budgetBytes := by
  obtain ⟨f, e, hget, he, -, -⟩ := kept_entry hk
  obtain ⟨-, -, -, hh, hlen, -⟩ := readEntryFile_some he
  cases ht : r.trailer with
  | none => exact htotal
  | some t =>
    rw [run_kvCacheRewriteTrailer hget hh hlen]
    split
    · exact htotal
    · next hwrite =>
      rw [not_or] at hwrite
      have hbytes : Trailer.bytes r.trailer = t.writes.flatten := by rw [ht]; rfl
      have hroom := hfit f e hk hget he (hbytes ▸ hwrite.1)
      rw [hbytes] at hroom
      have hput := total_put_le d r.path (retrailed f e.toKvHeader
        (fixedHeader + 4 + e.textBytes + e.payloadBytes) t r.now)
      rw [length_retrailed f e.toKvHeader t r.now hlen (by omega)] at hput
      have herase := total_erase_entry hget ((entryOf_path_eq r f).trans he)
      refine hput.trans ?_
      omega

theorem total_write {kc : KvStore} {r : StoreRequest} (hen : kc.enabled = true) (hb : kc.budgetBytes ≠ 0)
    (hfits : r.fits kc = some n) (score : KvEntry → σ) (d : CacheDir) :
    total ((((ds4KvstoreEvict kc r.listing score n).run (dropIncompatible kc r d)).2.erase r.tmp).put
      r.path r.file) ≤ kc.budgetBytes := by
  obtain ⟨hn, hle⟩ := fits_le hfits hb
  obtain ⟨es, es', d', hrun, -, hev, hperm, hgo⟩ := run_ds4KvstoreEvict hen hb hle r.listing score
    (dropIncompatible kc r d)
  rw [hrun]
  have htotal : total d' ≤ kc.budgetBytes - n := by
    rw [total, ← totalBytes_perm hperm]
    exact hev.total_le
  have h1 := total_put_le (d'.erase r.tmp) r.path r.file
  have h2 := total_erase_le (d'.erase r.tmp) r.path
  have h3 := total_erase_le d' r.tmp
  change total ((d'.erase r.tmp).put r.path r.file) ≤ kc.budgetBytes
  omega

/-- A kept file gets its trailer, whatever the budget. -/
theorem le_total_rewrite {kc : KvStore} {r : StoreRequest} {d : CacheDir} (hk : kept kc r d = true)
    (ht : r.trailer = some t) (hsmall : ∀ f ∈ d.files, f.2.length ≤ int64Max)
    (hne : t.writes.flatten ≠ []) : fixedHeader + t.writes.flatten.length ≤
      total ((kvCacheRewriteTrailer r.path r.trailer r.now).run d).2 := by
  obtain ⟨f, e, hget, he, -, -⟩ := kept_entry hk
  obtain ⟨-, -, -, hh, hlen, -⟩ := readEntryFile_some he
  have hf : f.length ≤ int64Max := hsmall _ (Dir.get_eq_some.1 hget)
  have hnew := readEntryFile_retrailed he t r.now
  rw [← entryOf_path_eq] at hnew
  rw [ht, run_kvCacheRewriteTrailer hget hh hlen, if_neg, total_eq, Dir.sum_put, entrySize, hnew]
  · simp only [Option.map_some, Option.getD_some]
    omega
  · rintro (h | h)
    · exact hne h
    · omega

theorem run_ds4KvstoreTouchFile {d : CacheDir} (hget : d.get path = some f)
    (hh : ds4KvstoreReadHeader f = some (h, textBytes)) (hits now : Nat) :
    (ds4KvstoreTouchFile path hits now).run d = (true, d.put path (ds4KvstoreFillHeader
      { h with hits := hits % 2 ^ 32, lastUsed := now % 2 ^ 64 } ++ f.drop fixedHeader)) := by
  have hopen : (FileOp.opened path : FileOp Bytes UInt8).can d = true := by
    rw [FileOp.can, hget]
    rfl
  have hover (b : Bytes) : (FileOp.overwrite path b : FileOp Bytes UInt8).can d = true := by
    rw [FileOp.can, hget]
    rfl
  have hread : (d.get path >>= ds4KvstoreReadHeader) = some (h, textBytes) := by
    rw [hget]
    exact hh
  rw [ds4KvstoreTouchFile, Prog.run_bind, Prog.run_op, if_pos hopen, Prog.run_bind, FileOp.effect,
    Prog.run_dir, hread]
  simp only [if_true, Prog.run_op, if_pos (hover _), FileOp.effect, hget, Option.getD_some,
    length_fillHeader]

theorem total_load {kc : KvStore} (hen : kc.enabled = true) (r : LoadRequest) (d : CacheDir) :
    total ((ds4KvstoreTryLoadText kc r).run d).2 ≤ total d := by
  rw [ds4KvstoreTryLoadText]
  split
  · exact le_rfl
  · obtain ⟨best, hfind, hbest⟩ := run_find hen r.listing r.toLookup d
    rw [Prog.run_bind, hfind]
    cases best with
    | none => exact le_rfl
    | some e =>
      obtain ⟨f, hget, he⟩ := get_of_mem_entries (hbest.mem e rfl).1
      obtain ⟨-, -, -, hh, hlen, -⟩ := readEntryFile_some (entryOf_some he).2
      have hopen : (FileOp.opened e.path : FileOp Bytes UInt8).can d = true := by
        rw [FileOp.can, hget]
        rfl
      have hunlink : (FileOp.unlink e.path : FileOp Bytes UInt8).can d = true := by
        rw [FileOp.can, hget]
        rfl
      simp only [Prog.run_bind, Prog.run_op, if_pos hopen, FileOp.effect, Prog.run_dir, hget, hh,
        Bool.true_eq_false, if_false]
      split
      · split
        · simp only [Prog.run_bind, run_ds4KvstoreTouchFile hget hh, Prog.run_pure]
          refine total_replace_le hget he ?_
          have hlen : fixedHeader + 4 + e.textBytes + e.payloadBytes ≤ f.length := hlen
          simp only [List.length_append, length_fillHeader, List.length_drop]
          omega
        · simp only [Prog.run_bind, Prog.run_op, if_pos hunlink, FileOp.effect, Prog.run_pure]
          exact total_erase_le d e.path
      · exact le_rfl

/-! ## Steps of an eviction -/

/-- A file is looked at, or a minimal entry goes while the entries exceed the target. -/
def EvictStep (score : KvEntry → σ) (target : Nat) (s : FileOp Bytes UInt8 × CacheDir) : Prop :=
  (∃ n, s.1 = .opened n) ∨
    ∃ v ∈ entries s.2, s.1 = .unlink v.path ∧ (∀ e ∈ entries s.2, ¬ evictsBefore score e v) ∧
      target < total s.2

theorem steps_readEntryFile (path sha : Bytes) (d : CacheDir) :
    ∀ s ∈ (readEntryFile path sha).steps d, s.1 = .opened path := by
  intro s hs
  rw [readEntryFile, Prog.steps_bind, Prog.run_dir, Prog.steps_dir, List.nil_append] at hs
  cases h : d.get path with
  | none => simp [h] at hs
  | some f =>
    simp only [h, Prog.steps_bind, Prog.steps_pure, List.append_nil, Prog.steps_op] at hs
    split at hs
    · rw [List.mem_singleton.1 hs]
    · cases hs

theorem steps_kvCacheRefreshLoop (fs : List (Bytes × Bytes)) (d : CacheDir) :
    ∀ s ∈ (kvCacheRefreshLoop fs).steps d, ∃ n, s.1 = .opened n := by
  induction fs generalizing d with
  | nil => nofun
  | cons f fs ih =>
    intro s hs
    rw [kvCacheRefreshLoop] at hs
    split at hs
    · exact ih d s hs
    · simp only [Prog.steps_bind, Prog.steps_pure, List.append_nil] at hs
      rcases List.mem_append.1 hs with hs | hs
      · exact ⟨_, steps_readEntryFile _ _ _ s hs⟩
      · exact ih _ s hs

theorem steps_evictLoop (score : KvEntry → σ) {d : CacheDir} (target n : Nat)
    (hes : es.Perm (entries d)) :
    ∀ s ∈ (evictLoop score target n (totalBytes es) es).steps d, EvictStep score target s := by
  induction n generalizing es d with
  | zero => nofun
  | succ n ih =>
    intro s hs
    rw [evictLoop] at hs
    split at hs
    · next hover =>
      have hne : es ≠ [] := by
        rintro rfl
        exact absurd hover (Nat.not_lt_zero _)
      obtain ⟨a, v, b, rfl, hmin, hvictim⟩ := evictVictim_spec score hne
      have hv : v ∈ entries d := hes.mem_iff.1 (by simp)
      obtain ⟨f, hget, hf⟩ := get_of_mem_entries hv
      have hcan : (FileOp.unlink v.path : FileOp Bytes UInt8).can d = true := by
        rw [FileOp.can, hget]
        rfl
      simp only [hvictim, Prog.steps_bind, Prog.steps_op, if_pos hcan, Prog.run_op, if_true,
        FileOp.effect, eraseIdx_middle] at hs
      rw [if_pos (by rw [totalBytes_middle]; omega), totalBytes_middle, Nat.add_sub_cancel_left] at hs
      rcases List.mem_append.1 hs with hs | hs
      · rw [List.mem_singleton.1 hs]
        refine .inr ⟨v, hv, rfl, fun e he => hmin e (hes.mem_iff.2 he), ?_⟩
        rwa [total, ← totalBytes_perm hes]
      · exact ih (entries_erase_perm hes) s hs
    · cases hs

theorem steps_ds4KvstoreEvict {kc : KvStore} (ls : Listing) (score : KvEntry → σ) (extra : Nat)
    (d : CacheDir) : ∀ s ∈ (ds4KvstoreEvict kc ls score extra).steps d,
      EvictStep score (kc.budgetBytes - extra) s := by
  intro s hs
  rw [ds4KvstoreEvict] at hs
  split at hs
  · cases hs
  · next hon =>
    split at hs
    · cases hs
    · have hen : kc.enabled = true := by
        simp only [not_or, Bool.not_eq_false] at hon
        exact hon.1
      rw [Prog.steps_bind, run_kvCacheRefresh hen] at hs
      rcases List.mem_append.1 hs with hs | hs
      · rw [kvCacheRefresh, Prog.steps_bind, Prog.run_dir, Prog.steps_dir, List.nil_append,
          if_pos hen] at hs
        exact .inl (steps_kvCacheRefreshLoop _ d s hs)
      · exact steps_evictLoop score _ _ (refresh_perm ls d) s hs

/-! ## Runs -/

inductive KvOp (σ : Type)
  | openCache (budgetMb : Nat) (rejectDifferentQuant : Bool) (minTokens : Int) (ls : Listing)
      (score : KvEntry → σ)
  | store (r : StoreRequest) (score : KvEntry → σ)
  | load (r : LoadRequest)

def kvStep (s : KvStore × CacheDir) : KvOp σ → KvStore × CacheDir
  | .openCache mb reject minTokens ls score => (ds4KvstoreOpen mb reject minTokens ls score).run s.2
  | .store r score => (s.1, ((ds4KvstoreStoreLivePrefixText s.1 r score).run s.2).2)
  | .load r => (s.1, ((ds4KvstoreTryLoadText s.1 r).run s.2).2)

/-- The budget does not wrap around to zero, which stands for no budget; a kept file has room for its
new trailer, and a store that is too large does not replace a file. -/
def StepOk (s : KvStore × CacheDir) : KvOp σ → Prop
  | .openCache mb _ _ _ _ => mb = 0 ∨ mb * 1024 * 1024 % 2 ^ 64 ≠ 0
  | .store r _ => RewriteFits s.1 s.2 r ∧ SkipKeeps s.1 s.2 r
  | .load _ => True

/-- The states of runs from an open cache over any directory. -/
inductive KvReached (σ : Type) [LinearOrder σ] : KvStore × CacheDir → Prop
  | opened (d : CacheDir) (kc : KvStore) (hok : StepOk (σ := σ) (kc, d) (.openCache mb reject minTokens ls score)) :
    KvReached σ (kvStep (kc, d) (.openCache mb reject minTokens ls score))
  | step (h : KvReached σ s) (op : KvOp σ) (hok : StepOk s op) : KvReached σ (kvStep s op)

/-- The cache is on and within its budget. -/
structure WithinBudget (s : KvStore × CacheDir) : Prop where
  enabled : s.1.enabled = true
  budget : s.1.budgetBytes ≠ 0
  total : total s.2 ≤ s.1.budgetBytes

theorem total_evict {kc : KvStore} (hen : kc.enabled = true) (hb : kc.budgetBytes ≠ 0)
    (hextra : extra ≤ kc.budgetBytes) (ls : Listing) (score : KvEntry → σ) (d : CacheDir) :
    total ((ds4KvstoreEvict kc ls score extra).run d).2 ≤ kc.budgetBytes - extra := by
  obtain ⟨es, es', d', hrun, -, hev, hperm, -⟩ := run_ds4KvstoreEvict hen hb hextra ls score d
  rw [hrun, total, ← totalBytes_perm hperm]
  exact hev.total_le

theorem withinBudget_open (s : KvStore × CacheDir)
    (hok : StepOk s (.openCache mb reject minTokens ls score)) :
    WithinBudget (kvStep s (KvOp.openCache (σ := σ) mb reject minTokens ls score)) := by
  have hb : (if mb = 0 then ds4KvstoreDefaultMb else mb) * 1024 * 1024 % 2 ^ 64 ≠ 0 := by
    rcases hok with rfl | hok
    · decide
    · split
      · decide
      · exact hok
  rw [kvStep, ds4KvstoreOpen, Prog.run_bind, Prog.run_pure]
  refine ⟨rfl, hb, ?_⟩
  apply total_evict
  · rfl
  · exact hb
  · exact Nat.zero_le _

theorem withinBudget_store (h : WithinBudget s) (r : StoreRequest) (score : KvEntry → σ)
    (hok : StepOk s (.store r score)) : WithinBudget (kvStep s (.store r score)) := by
  refine ⟨h.enabled, h.budget, ?_⟩
  have hdrop := (total_dropIncompatible_le s.1 r s.2).trans h.total
  rw [kvStep, run_store]
  split
  · exact h.total
  · split
    · next hk => exact total_rewrite hk hok.1 h.total
    · split
      · next hfits => exact total_write h.enabled h.budget hfits score s.2
      · exact hdrop

theorem withinBudget_load (h : WithinBudget s) (r : LoadRequest) :
    WithinBudget (kvStep s (.load r : KvOp σ)) :=
  ⟨h.enabled, h.budget, (total_load h.enabled r s.2).trans h.total⟩

theorem KvReached.withinBudget (h : KvReached σ s) : WithinBudget s := by
  induction h with
  | opened d kc hok => exact withinBudget_open _ hok
  | step _ op hok ih =>
    cases op with
    | openCache mb reject minTokens ls score => exact withinBudget_open _ hok
    | store r score => exact withinBudget_store ih r score hok
    | load r => exact withinBudget_load ih r

/-- A store that does not fit leaves every entry in its place. -/
theorem store_too_large {s : KvStore × CacheDir} {r : StoreRequest} (hfits : r.fits s.1 = none)
    (hskip : SkipKeeps s.1 s.2 r) (score : KvEntry → σ) :
    ∀ e ∈ entries s.2, ∃ e' ∈ entries (kvStep s (.store r score)).2, e'.path = e.path := by
  intro e he
  obtain ⟨kc, d⟩ := s
  rw [kvStep, run_store]
  split
  · exact ⟨e, he, rfl⟩
  · split
    · next hk =>
      obtain ⟨f, e0, hget, he0, -, -⟩ := kept_entry hk
      obtain ⟨-, hpath, -, hh, hlen, -⟩ := readEntryFile_some he0
      cases ht : r.trailer with
      | none => exact ⟨e, he, rfl⟩
      | some t =>
        rw [run_kvCacheRewriteTrailer hget hh hlen]
        split
        · exact ⟨e, he, rfl⟩
        · have hnew := readEntryFile_retrailed he0 t r.now
          rw [← entryOf_path_eq] at hnew
          by_cases hp : e.path = r.path
          · refine ⟨_, mem_entries.2 ⟨_, Dir.mem_put.2 (.inr rfl), hnew⟩, ?_⟩
            rw [hp]
            exact hpath
          · obtain ⟨f', hget', hf'⟩ := get_of_mem_entries he
            exact ⟨e, mem_entries.2 ⟨_, Dir.mem_put.2 (.inl ⟨Dir.get_eq_some.1 hget', hp⟩), hf'⟩, rfl⟩
    · next hk =>
      have hno := hskip hfits (Bool.not_eq_true _ ▸ hk)
      have hd : dropIncompatible kc r d = d := by
        rw [dropIncompatible, hno]
        simp
      rw [hfits, hd]
      split
      · next h => cases h
      · exact ⟨e, he, rfl⟩

theorem kvReached_withinBudget {s : KvStore × CacheDir} (h : KvReached σ s) :
    total s.2 ≤ s.1.budgetBytes ∧
    (∀ (d : CacheDir) (ls : Listing) (score : KvEntry → σ) (extra : Nat),
      (extra ≤ s.1.budgetBytes →
        total ((ds4KvstoreEvict s.1 ls score extra).run d).2 ≤ s.1.budgetBytes - extra) ∧
      ∀ step ∈ (ds4KvstoreEvict s.1 ls score extra).steps d,
        EvictStep score (s.1.budgetBytes - extra) step) ∧
    ∀ (r : StoreRequest) (score : KvEntry → σ), r.fits s.1 = none → SkipKeeps s.1 s.2 r →
      ∀ e ∈ entries s.2, ∃ e' ∈ entries (kvStep s (.store r score)).2, e'.path = e.path := by
  obtain ⟨hen, hb, htotal⟩ := h.withinBudget
  refine ⟨htotal, fun d ls score extra => ⟨?_, ?_⟩, ?_⟩
  · intro hextra
    exact total_evict hen hb hextra ls score d
  · exact steps_ds4KvstoreEvict ls score extra d
  · intro r score hfits hskip
    exact store_too_large hfits hskip score

/-- An empty cache with a budget of one megabyte. -/
def smallCache : KvStore × CacheDir :=
  kvStep (⟨false, 0, false, 0⟩, .empty) (.openCache (σ := Nat) 1 false 0 .asIs fun _ => 0)

def smallRun : KvStore × CacheDir := kvStep smallCache (.store smallStore fun _ : KvEntry => 0)

theorem smallRun_withinBudget : KvReached Nat smallRun ∧ total smallRun.2 ≤ smallRun.1.budgetBytes := by
  have hcache : KvReached Nat smallCache := .opened _ _ (.inr (by decide))
  have hrun : KvReached Nat smallRun := by
    refine .step hcache _ ⟨?_, ?_⟩
    · intro f e hk
      exact absurd hk (by decide)
    · intro hfits
      exact absurd hfits (by decide)
  exact ⟨hrun, (kvReached_withinBudget hrun).1⟩

def megabyte : Bytes := List.replicate (2 ^ 20) 0

def megabyteTrailer : Trailer := ⟨1, [megabyte]⟩

/-- The text once more, with a trailer of a megabyte. -/
def trailerStore : StoreRequest := { smallStore with trailer := some megabyteTrailer }

/-- The text for another model, with a payload of a megabyte. -/
def otherModelStore : StoreRequest := { smallStore with modelId := 1, payload := some [megabyte] }

theorem smallRun_exceeds_and_removes :
    smallRun.1.budgetBytes < total (kvStep smallRun (.store trailerStore fun _ : KvEntry => 0)).2 ∧
    otherModelStore.fits smallRun.1 = none ∧ entries smallRun.2 ≠ [] ∧
      entries (kvStep smallRun (.store otherModelStore fun _ : KvEntry => 0)).2 = [] := by
  have hbudget : smallRun.1.budgetBytes = 2 ^ 20 := by decide
  have hlen : megabyte.length = 2 ^ 20 := List.length_replicate
  have hfits : otherModelStore.fits smallRun.1 = none := by
    have hpayload : otherModelStore.payloadBytes = megabyte := List.append_nil _
    rw [StoreRequest.fits, hpayload, hlen]
    decide +kernel
  refine ⟨?_, hfits, by decide +kernel, ?_⟩
  · have hk : kept smallRun.1 trailerStore smallRun.2 = true := by decide +kernel
    have hbytes : megabyteTrailer.writes.flatten = megabyte := List.append_nil _
    have hne : megabyte ≠ [] := by
      intro h
      rw [h] at hlen
      cases hlen
    have hgrow := le_total_rewrite (t := megabyteTrailer) hk rfl (by decide +kernel) (by rwa [hbytes])
    rw [hbytes, hlen] at hgrow
    rw [kvStep, run_store, if_neg (by decide +kernel), if_pos hk, hbudget]
    have hfixed : fixedHeader = 48 := rfl
    simp only
    omega
  · have hk : kept smallRun.1 otherModelStore smallRun.2 = false := by decide +kernel
    rw [kvStep, run_store, if_neg (by decide +kernel), hk, hfits]
    decide +kernel

end Ds4.Kv
