import Mathlib.Data.List.Perm.Basic
import Ds4.Kv.Store

/-!
# Runs without failures

What the programs of the cache compute when every file operation succeeds: the entries of a
directory, the eviction pass and the three ways a store can end.
-/

namespace Ds4.Kv
open C Files

/-! ## Entries -/

/-- The entry of a file of the directory. -/
def entryOf (f : Bytes × Bytes) : Option KvEntry :=
  (ds4KvstoreShaHexName f.1).bind fun sha => ds4KvstoreReadEntryFile f.1 sha f.2

def entries (d : CacheDir) : List KvEntry := d.files.filterMap entryOf

theorem readEntryFile_some (h : ds4KvstoreReadEntryFile path sha f = some e) :
    e.sha = sha ∧ e.path = path ∧ e.fileSize = f.length ∧
      ds4KvstoreReadHeader f = some (e.toKvHeader, e.textBytes) ∧
      fixedHeader + 4 + e.textBytes + e.payloadBytes ≤ f.length ∧
      fixedHeader + 4 + e.textBytes + e.payloadBytes ≤ uint64Max := by
  rw [ds4KvstoreReadEntryFile] at h
  split at h
  · cases h
  · next hd n hh =>
    simp only at h
    split at h
    · cases h
    · next hover =>
      split at h
      · cases h
      · next hlen =>
        cases h
        have hfixed : fixedHeader + 4 ≤ uint64Max := by decide
        refine ⟨rfl, rfl, rfl, hh, ?_, ?_⟩
        · simp only
          omega
        · simp only
          omega

theorem entryOf_some (h : entryOf f = some e) :
    ds4KvstoreShaHexName f.1 = some e.sha ∧ ds4KvstoreReadEntryFile f.1 e.sha f.2 = some e := by
  rw [entryOf, Option.bind_eq_some_iff] at h
  obtain ⟨sha, hsha, he⟩ := h
  obtain ⟨rfl, -⟩ := readEntryFile_some he
  exact ⟨hsha, he⟩

theorem entryOf_path (h : entryOf f = some e) : e.path = f.1 :=
  (readEntryFile_some (entryOf_some h).2).2.1

theorem entryOf_fileSize (h : entryOf f = some e) : e.fileSize = f.2.length :=
  (readEntryFile_some (entryOf_some h).2).2.2.1

/-- The size of a file that counts. -/
def entrySize (f : Bytes × Bytes) : Nat := ((entryOf f).map (·.fileSize)).getD 0

theorem entrySize_le (f : Bytes × Bytes) : entrySize f ≤ f.2.length := by
  rw [entrySize]
  cases h : entryOf f with
  | none => exact Nat.zero_le _
  | some e => exact (entryOf_fileSize h).le

theorem totalBytes_entries (d : CacheDir) : totalBytes (entries d) = d.sum entrySize := by
  rw [totalBytes, entries, Dir.sum]
  induction d.files with
  | nil => rfl
  | cons f fs ih =>
    rw [List.filterMap_cons, List.map_cons, List.sum_cons, ← ih, entrySize]
    cases entryOf f with
    | none => simp
    | some e => simp

theorem totalBytes_perm (h : es.Perm es') : totalBytes es = totalBytes es' :=
  (h.map _).sum_eq

theorem mem_entries : e ∈ entries d ↔ ∃ f ∈ d.files, entryOf f = some e := List.mem_filterMap

/-- The file of an entry. -/
theorem get_of_mem_entries (h : e ∈ entries d) : ∃ f, d.get e.path = some f ∧ entryOf (e.path, f) = some e := by
  obtain ⟨f, hf, he⟩ := mem_entries.1 h
  have := entryOf_path he
  refine ⟨f.2, Dir.get_eq_some.2 ?_, ?_⟩
  · rw [this]
    exact hf
  · rw [this]
    exact he

theorem nodup_paths (d : CacheDir) : ((entries d).map (·.path)).Nodup := by
  have hsub : ((entries d).map (·.path)).Sublist (d.files.map Prod.fst) := by
    rw [entries]
    generalize d.files = fs
    induction fs with
    | nil => exact .slnil
    | cons f fs ih =>
      rw [List.filterMap_cons]
      cases h : entryOf f with
      | none => exact ih.cons _
      | some e =>
        rw [List.map_cons, List.map_cons, entryOf_path h]
        exact ih.cons_cons _
  exact d.nodup.sublist hsub

theorem entries_erase (d : CacheDir) (n : Bytes) :
    entries (d.erase n) = (entries d).filter (·.path ≠ n) := by
  change (d.files.filter (·.1 ≠ n)).filterMap entryOf = (d.files.filterMap entryOf).filter (·.path ≠ n)
  induction d.files with
  | nil => rfl
  | cons f fs ih =>
    rw [List.filter_cons, List.filterMap_cons]
    cases h : entryOf f with
    | none =>
      simp only
      split
      · rw [List.filterMap_cons_none h, ih]
      · exact ih
    | some e =>
      simp only [List.filter_cons, entryOf_path h]
      split
      · rw [List.filterMap_cons_some h, ih]
      · exact ih

/-! ## Refreshing -/

theorem run_readEntryFile (path sha : Bytes) (d : CacheDir) :
    (readEntryFile path sha).run d = ((d.get path).bind (ds4KvstoreReadEntryFile path sha), d) := by
  rw [readEntryFile, Prog.run_bind, Prog.run_dir]
  cases h : d.get path with
  | none => rfl
  | some f =>
    have hcan : (FileOp.opened path : FileOp Bytes UInt8).can d = true := by
      rw [FileOp.can, h]
      rfl
    simp only [Prog.run_bind, Prog.run_op, if_pos hcan]
    rfl

theorem run_kvCacheRefreshLoop {d : CacheDir} (h : ∀ f ∈ fs, f ∈ d.files) :
    (kvCacheRefreshLoop fs).run d = (fs.filterMap entryOf, d) := by
  induction fs with
  | nil => rfl
  | cons f fs ih =>
    have hf : d.get f.1 = some f.2 := Dir.get_eq_some.2 (h f List.mem_cons_self)
    have ih := ih fun g hg => h g (List.mem_cons_of_mem _ hg)
    rw [kvCacheRefreshLoop, List.filterMap_cons, entryOf]
    cases hsha : ds4KvstoreShaHexName f.1 with
    | none => exact ih
    | some sha =>
      simp only [Prog.run_bind, run_readEntryFile, hf, ih, Prog.run_pure, Option.bind_some]
      cases ds4KvstoreReadEntryFile f.1 sha f.2 <;> rfl

theorem run_kvCacheRefresh {kc : KvStore} (hen : kc.enabled = true) (ls : Listing) (d : CacheDir) :
    (kvCacheRefresh kc ls).run d = ((ls.order d.files).filterMap entryOf, d) := by
  rw [kvCacheRefresh, Prog.run_bind, Prog.run_dir, if_pos hen]
  exact run_kvCacheRefreshLoop fun f hf => (ls.perm _).mem_iff.1 hf

theorem refresh_perm (ls : Listing) (d : CacheDir) :
    ((ls.order d.files).filterMap entryOf).Perm (entries d) := (ls.perm _).filterMap _

/-! ## Evicting -/

section Evict

variable {σ : Type} [LinearOrder σ] {score : KvEntry → σ}

/-- A pass over the remaining entries: while they exceed the target, a minimal one is removed. -/
inductive Evicts (score : KvEntry → σ) (target : Nat) : List KvEntry → List KvEntry → Prop
  | done (h : totalBytes es ≤ target) : Evicts score target es es
  | step (h : target < totalBytes (a ++ v :: b)) (hmin : ∀ e ∈ a ++ v :: b, ¬ evictsBefore score e v)
      (rest : Evicts score target (a ++ b) es') : Evicts score target (a ++ v :: b) es'

theorem Evicts.total_le (h : Evicts score target es es') : totalBytes es' ≤ target := by
  induction h with
  | done h => exact h
  | step _ _ _ ih => exact ih

theorem Evicts.subset (h : Evicts score target es es') : ∀ e ∈ es', e ∈ es := by
  induction h with
  | done _ => exact fun _ he => he
  | step _ _ _ ih =>
    intro e he
    have := ih e he
    simp only [List.mem_append, List.mem_cons] at this ⊢
    tauto

theorem evictsBefore.trans {a b c : KvEntry} (h : evictsBefore score a b)
    (h' : ¬ evictsBefore score c b) : ¬ evictsBefore score c a := by
  rw [evictsBefore, not_or, not_and] at h' ⊢
  rcases h with h | ⟨h1, h2⟩
  · have : score b ≤ score c := not_lt.1 h'.1
    exact ⟨not_lt.2 (h.le.trans this), fun heq => absurd (h.trans_le this) (heq ▸ lt_irrefl _)⟩
  · rw [h1]
    refine ⟨h'.1, fun heq => ?_⟩
    have := h'.2 heq
    omega

theorem evictsBefore_irrefl (a : KvEntry) : ¬ evictsBefore score a a := by
  rintro (h | ⟨-, h⟩)
  · exact lt_irrefl _ h
  · exact lt_irrefl _ h

/-- The scan for the victim, from a minimal entry `v` of the part `a ++ v :: b` already seen. -/
theorem foldl_victim (score : KvEntry → σ) (a b es : List KvEntry) (v : KvEntry)
    (hmin : ∀ e ∈ a ++ v :: b, ¬ evictsBefore score e v) :
    ∃ a' v' b', a ++ v :: b ++ es = a' ++ v' :: b' ∧
      (∀ e ∈ a' ++ v' :: b', ¬ evictsBefore score e v') ∧
      (es.zipIdx (a ++ v :: b).length).foldl
        (fun v x => if evictsBefore score x.1 v.2 then (x.2, x.1) else v) (a.length, v) =
          (a'.length, v') := by
  induction es generalizing a b v with
  | nil => exact ⟨a, v, b, by simp, hmin, rfl⟩
  | cons e es ih =>
    rw [List.zipIdx_cons, List.foldl_cons]
    by_cases he : evictsBefore score e v
    · have hmin' : ∀ x ∈ (a ++ v :: b) ++ e :: [], ¬ evictsBefore score x e := by
        intro x hx
        rcases List.mem_append.1 hx with hx | hx
        · exact he.trans (hmin x hx)
        · rw [List.mem_singleton.1 hx]
          exact evictsBefore_irrefl e
      obtain ⟨a', v', b', heq, hmin'', hfold⟩ := ih (a ++ v :: b) [] e hmin'
      refine ⟨a', v', b', ?_, hmin'', ?_⟩
      · rw [← heq]
        simp
      · rw [if_pos he, ← hfold]
        simp [Nat.add_assoc]
    · have hmin' : ∀ x ∈ a ++ v :: (b ++ [e]), ¬ evictsBefore score x v := by
        intro x hx
        have : x ∈ a ++ v :: b ∨ x = e := by
          simp only [List.mem_append, List.mem_cons, List.not_mem_nil, or_false] at hx ⊢
          tauto
        rcases this with hx | rfl
        · exact hmin x hx
        · exact he
      obtain ⟨a', v', b', heq, hmin'', hfold⟩ := ih a (b ++ [e]) v hmin'
      refine ⟨a', v', b', ?_, hmin'', ?_⟩
      · rw [← heq]
        simp
      · rw [if_neg he, ← hfold]
        simp [Nat.add_assoc]

theorem evictVictim_spec (score : KvEntry → σ) (hne : es ≠ []) :
    ∃ a v b, es = a ++ v :: b ∧ (∀ e ∈ es, ¬ evictsBefore score e v) ∧
      evictVictim score es = some (a.length, v) := by
  cases es with
  | nil => exact absurd rfl hne
  | cons e es =>
    obtain ⟨a, v, b, heq, hmin, hfold⟩ := foldl_victim score [] [] es e (by
      intro x hx
      rw [List.mem_singleton.1 hx]
      exact evictsBefore_irrefl e)
    refine ⟨a, v, b, heq, ?_, ?_⟩
    · rw [← heq] at hmin
      exact hmin
    · exact congrArg some hfold

/-- Files that are not entries stay, and no file changes. -/
structure OnlyEntriesGo (d d' : CacheDir) : Prop where
  subset : ∀ f ∈ d'.files, f ∈ d.files
  stay : ∀ f ∈ d.files, entryOf f = none → f ∈ d'.files

theorem OnlyEntriesGo.refl (d : CacheDir) : OnlyEntriesGo d d := ⟨fun _ h => h, fun _ h _ => h⟩

theorem OnlyEntriesGo.trans {d d' d'' : CacheDir} (h : OnlyEntriesGo d d') (h' : OnlyEntriesGo d' d'') :
    OnlyEntriesGo d d'' :=
  ⟨fun f hf => h.subset f (h'.subset f hf), fun f hf he => h'.stay f (h.stay f hf he) he⟩

theorem OnlyEntriesGo.erase {d : CacheDir} (h : d.get n = some c) (he : (entryOf (n, c)).isSome) :
    OnlyEntriesGo d (d.erase n) := by
  refine ⟨fun f hf => (Dir.mem_erase.1 hf).1, fun f hf hnone => Dir.mem_erase.2 ⟨hf, ?_⟩⟩
  rintro rfl
  have := Dir.get_eq_some.2 hf
  rw [h] at this
  cases this
  rw [hnone] at he
  cases he

theorem eraseIdx_middle (a : List KvEntry) (v : KvEntry) (b : List KvEntry) :
    (a ++ v :: b).eraseIdx a.length = a ++ b := by
  rw [List.eraseIdx_append_of_length_le le_rfl, Nat.sub_self]
  rfl

theorem totalBytes_middle (a : List KvEntry) (v : KvEntry) (b : List KvEntry) :
    totalBytes (a ++ v :: b) = v.fileSize + totalBytes (a ++ b) := by
  simp only [totalBytes, List.map_append, List.map_cons, List.sum_append, List.sum_cons]
  omega

/-- The remaining entries are those of the directory without the victim. -/
theorem entries_erase_perm {d : CacheDir} (h : (a ++ v :: b).Perm (entries d)) :
    (a ++ b).Perm (entries (d.erase v.path)) := by
  have hnd : ((a ++ v :: b).map (·.path)).Nodup := (h.map _).nodup_iff.2 (nodup_paths d)
  rw [List.map_append, List.map_cons, List.nodup_middle, List.nodup_cons, ← List.map_append] at hnd
  have hfilter : (a ++ v :: b).filter (·.path ≠ v.path) = a ++ b := by
    rw [List.filter_append, List.filter_cons_of_neg (by simp), ← List.filter_append,
      List.filter_eq_self]
    intro e he
    have : e.path ≠ v.path := fun hp => hnd.1 (List.mem_map.2 ⟨e, he, hp⟩)
    simp [this]
  have := h.filter (·.path ≠ v.path)
  rwa [hfilter, ← entries_erase] at this

theorem run_evictLoop (score : KvEntry → σ) {d : CacheDir} (target : Nat) (hes : es.Perm (entries d)) (hn : es.length ≤ n) :
    ∃ es' d', (evictLoop score target n (totalBytes es) es).run d = ((), d') ∧
      Evicts score target es es' ∧ es'.Perm (entries d') ∧ OnlyEntriesGo d d' := by
  induction n generalizing es d with
  | zero =>
    obtain rfl := List.eq_nil_of_length_eq_zero (Nat.le_zero.1 hn)
    exact ⟨[], d, rfl, .done (Nat.zero_le _), hes, .refl d⟩
  | succ n ih =>
    rw [evictLoop]
    by_cases hover : target < totalBytes es
    · have hne : es ≠ [] := by
        rintro rfl
        exact absurd hover (Nat.not_lt_zero _)
      obtain ⟨a, v, b, rfl, hmin, hvictim⟩ := evictVictim_spec score hne
      obtain ⟨f, hget, hf⟩ := get_of_mem_entries (hes.mem_iff.1 (by simp : v ∈ a ++ v :: b))
      have hcan : (FileOp.unlink v.path : FileOp Bytes UInt8).can d = true := by
        rw [FileOp.can, hget]
        rfl
      have hlen : (a ++ b).length ≤ n := by
        simp only [List.length_append, List.length_cons] at hn ⊢
        omega
      obtain ⟨es', d', hrun, hev, hperm, hgo⟩ := ih (entries_erase_perm hes) hlen
      refine ⟨es', d', ?_, .step hover hmin hev, hperm,
        (OnlyEntriesGo.erase hget (by rw [hf]; rfl)).trans hgo⟩
      rw [if_pos hover, hvictim]
      simp only [Prog.run_bind, Prog.run_op, if_pos hcan, if_true, FileOp.effect, eraseIdx_middle]
      rw [if_pos (by rw [totalBytes_middle]; omega), totalBytes_middle, Nat.add_sub_cancel_left]
      exact hrun
    · exact ⟨es, d, by rw [if_neg hover]; rfl, .done (Nat.not_lt.1 hover), hes, .refl d⟩

/-- A pass of the eviction. -/
theorem run_ds4KvstoreEvict {kc : KvStore} (hen : kc.enabled = true) (hb : kc.budgetBytes ≠ 0)
    (hextra : extra ≤ kc.budgetBytes) (ls : Listing) (score : KvEntry → σ) (d : CacheDir) :
    ∃ es es' d', (ds4KvstoreEvict kc ls score extra).run d = ((), d') ∧ es.Perm (entries d) ∧
      Evicts score (kc.budgetBytes - extra) es es' ∧ es'.Perm (entries d') ∧ OnlyEntriesGo d d' := by
  have hperm := refresh_perm ls d
  obtain ⟨es', d', hrun, hev, hp, hgo⟩ := run_evictLoop score (kc.budgetBytes - extra) hperm le_rfl
  refine ⟨_, es', d', ?_, hperm, hev, hp, hgo⟩
  rw [ds4KvstoreEvict, if_neg (by simp [hen, hb]), if_neg (Nat.not_lt.2 hextra), Prog.run_bind,
    run_kvCacheRefresh hen]
  exact hrun

end Evict

/-! ## Writing -/

theorem run_writeAll (d : CacheDir) (n : Bytes) (c : Bytes) (bs : List Bytes) :
    (writeAll n bs).run (d.put n c) = (true, d.put n (c ++ bs.flatten)) := by
  induction bs generalizing c with
  | nil => simp [writeAll]
  | cons b bs ih =>
    have hcan : (FileOp.append n b : FileOp Bytes UInt8).can (d.put n c) = true := by
      simp [FileOp.can]
    rw [writeAll, Prog.run_bind, Prog.run_op, if_pos hcan]
    simp only [FileOp.effect, Dir.get_put_self, Option.getD_some, Dir.put_put, if_true]
    rw [ih, List.append_assoc, List.flatten_cons]

/-- The file that a store writes. -/
def StoreRequest.file (r : StoreRequest) : Bytes :=
  ds4KvstoreFillHeader r.header ++ (lePut 4 r.text.length ++
    (r.text ++ (r.payloadBytes ++ Trailer.bytes r.trailer)))

theorem StoreRequest.length_file (r : StoreRequest) : r.file.length =
    fixedHeader + 4 + r.text.length + r.payloadBytes.length + (Trailer.bytes r.trailer).length := by
  simp only [StoreRequest.file, List.length_append, length_fillHeader, length_lePut]
  omega

theorem Trailer.flatten_writes (t : Option Trailer) :
    ((t.map (·.writes)).getD []).flatten = Trailer.bytes t := by
  cases t <;> rfl

theorem run_kvCacheWriteFile {kc : KvStore} {r : StoreRequest} (hp : r.payload = some chunks)
    (hfits : (r.fits kc).isSome) (d : CacheDir) :
    (kvCacheWriteFile kc r chunks).run d = (true, (d.erase r.tmp).put r.path r.file) := by
  have hpay : r.payloadBytes = chunks.flatten := by rw [StoreRequest.payloadBytes, hp]; rfl
  have hopen (c : Bytes) : (FileOp.opened r.tmp : FileOp Bytes UInt8).can (d.put r.tmp c) = true := by
    simp [FileOp.can]
  have hren (c : Bytes) :
      (FileOp.rename r.tmp r.path : FileOp Bytes UInt8).can (d.put r.tmp c) = true := by
    simp [FileOp.can]
  have hcreate : (FileOp.create r.tmp : FileOp Bytes UInt8).can d = true := rfl
  rw [kvCacheWriteFile, Prog.run_bind, Prog.run_op, if_pos hcreate]
  simp only [if_true, FileOp.effect, Prog.run_bind, run_writeAll, Prog.run_op, if_pos (hopen _), hfits,
    Bool.and_self, if_pos (hren _), Prog.run_pure, Dir.get_put_self, Option.getD_some,
    Dir.erase_put_self]
  simp only [StoreRequest.file, hpay, ← Trailer.flatten_writes, List.nil_append, List.flatten_append,
    List.flatten_cons, List.flatten_nil, List.append_nil, List.append_assoc]

/-- The file after its trailer was replaced. -/
def retrailed (f : Bytes) (h : KvHeader) (fileEnd : Nat) (t : Trailer) (now : Nat) : Bytes :=
  ds4KvstoreFillHeader
      { h with extFlags := (h.extFlags ||| t.extFlag) % 256, lastUsed := now % 2 ^ 64 } ++
    (f.take fileEnd ++ t.writes.flatten).drop fixedHeader

theorem length_retrailed (f : Bytes) (h : KvHeader) (t : Trailer) (now : Nat)
    (hend : fileEnd ≤ f.length) (hfixed : fixedHeader ≤ fileEnd) :
    (retrailed f h fileEnd t now).length = fileEnd + t.writes.flatten.length := by
  simp only [retrailed, List.length_append, length_fillHeader, List.length_drop, List.length_take]
  omega

theorem field_take (f w : Bytes) (h : i + n ≤ k) (hk : k ≤ f.length) :
    field ((f.take k ++ w).drop i) 0 n = field (f.drop i) 0 n := by
  have htake : ((f.take k ++ w).drop i).take n = (f.drop i).take n := by
    rw [List.drop_append_of_le_length (by rw [List.length_take]; omega),
      List.take_append_of_le_length (by rw [List.length_drop, List.length_take]; omega),
      List.drop_take, List.take_take, Nat.min_eq_left (by omega)]
  rw [field, field, List.drop_zero, List.drop_zero, htake]

/-- A file with a new trailer is the entry it was. -/
theorem readEntryFile_retrailed (he : ds4KvstoreReadEntryFile path sha f = some e) (t : Trailer)
    (now : Nat) :
    ds4KvstoreReadEntryFile path sha (retrailed f e.toKvHeader
        (fixedHeader + 4 + e.textBytes + e.payloadBytes) t now) =
      some { e with
        extFlags := (e.extFlags ||| t.extFlag) % 256
        lastUsed := now % 2 ^ 64
        fileSize := fixedHeader + 4 + e.textBytes + e.payloadBytes + t.writes.flatten.length } := by
  obtain ⟨hsha, hpath, -, hread, hlen, hmax⟩ := readEntryFile_some he
  obtain ⟨hfits, hlive, hfixed, htext⟩ := readHeader_some hread
  have hread' : ds4KvstoreReadHeader (retrailed f e.toKvHeader
      (fixedHeader + 4 + e.textBytes + e.payloadBytes) t now) =
      some ({ e.toKvHeader with
        extFlags := (e.extFlags ||| t.extFlag) % 256, lastUsed := now % 2 ^ 64 }, e.textBytes) := by
    have hfits' := hfits.update (x := (e.extFlags ||| t.extFlag) % 256) (n := e.hits)
      (l := now % 2 ^ 64) (Nat.mod_lt _ (by decide)) hfits.hits (Nat.mod_lt _ (by decide))
    have hrest : 4 ≤ ((f.take (fixedHeader + 4 + e.textBytes + e.payloadBytes) ++
        t.writes.flatten).drop fixedHeader).length := by
      simp only [List.length_drop, List.length_append, List.length_take]
      omega
    rw [retrailed, readHeader_fillHeader_append hfits' _ hrest, field_take f _ (by omega) hlen,
      ← htext]
    exact if_pos hlive
  have hlength := length_retrailed f e.toKvHeader t now hlen (by omega)
  rw [ds4KvstoreReadEntryFile, hread']
  simp only [hlength]
  rw [if_neg (by omega), if_neg (by omega), hsha, hpath]

theorem run_kvCacheRewriteTrailer {d : CacheDir} (hget : d.get path = some f)
    (hh : ds4KvstoreReadHeader f = some (h, textBytes))
    (hlen : fixedHeader + 4 + textBytes + h.payloadBytes ≤ f.length) (t : Trailer) (now : Nat) :
    (kvCacheRewriteTrailer path (some t) now).run d =
      if t.writes.flatten = [] ∨ int64Max < fixedHeader + 4 + textBytes + h.payloadBytes then ((), d)
      else ((), d.put path (retrailed f h (fixedHeader + 4 + textBytes + h.payloadBytes) t now)) := by
  rw [kvCacheRewriteTrailer]
  by_cases hnil : t.writes.flatten = []
  · rw [if_pos hnil, if_pos (.inl hnil)]
    rfl
  · have hopen : (FileOp.opened path : FileOp Bytes UInt8).can d = true := by
      rw [FileOp.can, hget]
      rfl
    have hread : (d.get path >>= ds4KvstoreReadHeader) = some (h, textBytes) := by
      rw [hget]
      exact hh
    rw [if_neg hnil, Prog.run_bind, Prog.run_op, if_pos hopen, Prog.run_bind, FileOp.effect,
      Prog.run_dir, hread]
    by_cases hbig : int64Max < fixedHeader + 4 + textBytes + h.payloadBytes
    · simp only [hbig, or_true, if_true]
      rfl
    · have hcut : (FileOp.truncate path (fixedHeader + 4 + textBytes + h.payloadBytes) 0 :
          FileOp Bytes UInt8).can d = true := by
        rw [FileOp.can, hget]
        rfl
      have hopen' (c : Bytes) : (FileOp.opened path : FileOp Bytes UInt8).can (d.put path c) = true := by
        simp [FileOp.can]
      have hover (c b : Bytes) :
          (FileOp.overwrite path b : FileOp Bytes UInt8).can (d.put path c) = true := by
        simp [FileOp.can]
      simp only [hbig, hnil, or_self, if_false, Bool.true_eq_false, Prog.run_bind, Prog.run_op,
        if_pos hcut, if_true, FileOp.effect, hget, Option.getD_some, run_writeAll, if_pos (hopen' _),
        Bool.and_self, if_pos (hover _ _), Dir.get_put_self, Dir.put_put, Prog.run_pure, retrailed,
        length_fillHeader, Nat.sub_eq_zero_of_le hlen, List.replicate_zero, List.append_nil]

/-! ## Storing -/

/-- The file of the text is kept. -/
def kept (kc : KvStore) (r : StoreRequest) (d : CacheDir) : Bool :=
  match d.get r.path with
  | none => false
  | some f =>
    match ds4KvstoreReadEntryFile r.path r.sha f with
    | none => false
    | some e => kvCacheSameKind kc r e && kvCacheFileTextMatches f r.sha r.text

/-- The directory without a file of the text that cannot be kept. -/
def dropIncompatible (kc : KvStore) (r : StoreRequest) (d : CacheDir) : CacheDir :=
  if !kept kc r d && ((d.get r.path).bind (ds4KvstoreReadEntryFile r.path r.sha)).isSome then
    d.erase r.path
  else d

theorem run_kvCacheTextMatches {d : CacheDir} (hget : d.get r.path = some f) (kc : KvStore)
    (e : KvEntry) : (kvCacheTextMatches kc r f e).run d =
      (kvCacheSameKind kc r e && kvCacheFileTextMatches f r.sha r.text, d) := by
  have hopen : (FileOp.opened r.path : FileOp Bytes UInt8).can d = true := by
    rw [FileOp.can, hget]
    rfl
  rw [kvCacheTextMatches]
  cases kvCacheSameKind kc r e with
  | true =>
    rw [if_pos rfl, Prog.run_bind, Prog.run_op, if_pos hopen]
    rfl
  | false => rfl

theorem run_kvCacheExistingCompatible (kc : KvStore) (r : StoreRequest) (d : CacheDir) :
    (kvCacheExistingCompatible kc r).run d = (kept kc r d, dropIncompatible kc r d) := by
  rw [dropIncompatible, kvCacheExistingCompatible, Prog.run_bind, Prog.run_dir]
  cases hget : d.get r.path with
  | none =>
    have hk : kept kc r d = false := by rw [kept, hget]
    rw [hk]
    rfl
  | some f =>
    have hunlink : (FileOp.unlink r.path : FileOp Bytes UInt8).can d = true := by
      rw [FileOp.can, hget]
      rfl
    cases he : ds4KvstoreReadEntryFile r.path r.sha f with
    | none =>
      have hk : kept kc r d = false := by rw [kept, hget]; simp only [he]
      simp only [Prog.run_bind, run_readEntryFile, hget, Option.bind_some, he, hk]
      rfl
    | some e =>
      have hk : kept kc r d = (kvCacheSameKind kc r e && kvCacheFileTextMatches f r.sha r.text) := by
        rw [kept, hget]
        simp only [he]
      simp only [Prog.run_bind, run_readEntryFile, hget, Option.bind_some, he, hk,
        run_kvCacheTextMatches hget]
      cases kvCacheSameKind kc r e && kvCacheFileTextMatches f r.sha r.text with
      | true => rfl
      | false =>
        simp only [Bool.false_eq_true, if_false, Prog.run_bind, Prog.run_op, if_pos hunlink,
          FileOp.effect, Prog.run_pure, Option.isSome_some, Bool.not_false, Bool.and_self, if_true]

theorem run_store {σ : Type} [LinearOrder σ] (kc : KvStore) (r : StoreRequest) (score : KvEntry → σ)
    (d : CacheDir) :
    (ds4KvstoreStoreLivePrefixText kc r score).run d =
      if refused kc r then (false, d)
      else if kept kc r d then (true, ((kvCacheRewriteTrailer r.path r.trailer r.now).run d).2)
      else
        match r.payload, r.fits kc with
        | some _, some n =>
          (true, (((ds4KvstoreEvict kc r.listing score n).run (dropIncompatible kc r d)).2.erase
            r.tmp).put r.path r.file)
        | _, _ => (false, dropIncompatible kc r d) := by
  rw [ds4KvstoreStoreLivePrefixText]
  by_cases hr : refused kc r
  · rw [if_pos hr, if_pos hr]
    rfl
  · rw [if_neg hr, if_neg hr, Prog.run_bind, run_kvCacheExistingCompatible]
    cases hk : kept kc r d with
    | true =>
      have hd : dropIncompatible kc r d = d := by
        rw [dropIncompatible, hk]
        rfl
      simp only [hd, if_true, Prog.run_bind, Prog.run_pure]
    | false =>
      simp only [Bool.false_eq_true, if_false]
      cases hp : r.payload with
      | none => rfl
      | some chunks =>
        cases hf : r.fits kc with
        | none => rfl
        | some n =>
          simp only [Prog.run_bind, run_kvCacheWriteFile hp (Option.isSome_of_eq_some hf)]

/-- A file of the text that is not kept is no entry, or is removed. -/
theorem dropIncompatible_path (hk : kept kc r d = false)
    (h : (dropIncompatible kc r d).get r.path = some f) :
    ds4KvstoreReadEntryFile r.path r.sha f = none := by
  rw [dropIncompatible, hk] at h
  split at h
  · rw [Dir.get_erase_self] at h
    cases h
  · next hno =>
    rw [h] at hno
    simpa using hno

theorem entryOf_path_eq (r : StoreRequest) (f : Bytes) :
    entryOf (r.path, f) = ds4KvstoreReadEntryFile r.path r.sha f := by
  rw [entryOf, StoreRequest.path, StoreRequest.sha, ds4KvstoreShaHexName_path]
  rfl

/-- A temporary name is not that of a cache file. -/
theorem shaHexName_tmp (r : StoreRequest) : ds4KvstoreShaHexName r.tmp = none := by
  have hlen : r.tmp.length ≠ 43 := by
    have h1 := length_sha1Hex r.text
    have h2 : (lit ".kv").length = 3 := by decide
    have h3 : (lit ".tmp.").length = 5 := by decide
    simp only [StoreRequest.tmp, StoreRequest.path, ds4KvstorePathForSha, StoreRequest.sha,
      List.length_append, h1, h2, h3]
    omega
  rw [ds4KvstoreShaHexName, if_pos (.inl hlen)]

end Ds4.Kv
