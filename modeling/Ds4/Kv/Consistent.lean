import Ds4.Kv.Budget

/-!
# Cache files are consistent at every step

Whatever file operations fail and wherever a process is stopped, a file under the name of a cache
file is the one that a store wrote, up to the fields and bytes that are changed in place.
-/

namespace Ds4.Kv
open C Files

/-! ## The shape of a file -/

/-- The sizes that a store checks before it writes. -/
structure StoreRequest.Storable (r : StoreRequest) : Prop where
  text : r.text.length < 256 ^ 4
  payload : r.payloadBytes.length < 2 ^ 64

/-- The header with the fields that are changed in place. -/
def KvHeader.updated (h : KvHeader) (extFlags hits lastUsed : Nat) : KvHeader :=
  { h with extFlags, hits, lastUsed }

/-- The file holds what the request stored, behind a header in which only the flags, the hits and the
time of the last use may differ, and in front of any trailer. -/
structure Shape (r : StoreRequest) (f : Bytes) : Prop where
  storable : r.Storable
  form : ∃ x n l trailer, (r.header.updated x n l).Fits ∧
    f = ds4KvstoreFillHeader (r.header.updated x n l) ++ (lePut 4 r.text.length ++
      (r.text ++ (r.payloadBytes ++ trailer)))

/-- A change that keeps what the file holds. -/
def SameCore (f f' : Bytes) : Prop := ∀ r, Shape r f → Shape r f'

theorem SameCore.refl (f : Bytes) : SameCore f f := fun _ h => h

theorem header_payloadBytes {r : StoreRequest} (h : r.Storable) :
    r.header.payloadBytes = r.payloadBytes.length := Nat.mod_eq_of_lt h.payload

theorem shape_file {r : StoreRequest} (h : r.Storable) : Shape r r.file :=
  ⟨h, r.header.extFlags, r.header.hits, r.header.lastUsed, Trailer.bytes r.trailer, r.header_fits, rfl⟩

/-- What is read from the header of a file of this shape. -/
theorem Shape.readHeader (h : Shape r f) (hread : ds4KvstoreReadHeader f = some (hd, n)) :
    n = r.text.length ∧ hd.payloadBytes = r.payloadBytes.length ∧
      ∃ trailer, hd.Fits ∧ hd = r.header.updated hd.extFlags hd.hits hd.lastUsed ∧
        f = ds4KvstoreFillHeader hd ++ (lePut 4 r.text.length ++
          (r.text ++ (r.payloadBytes ++ trailer))) := by
  obtain ⟨hs, x, m, l, trailer, hfits, rfl⟩ := h
  rw [readHeader_fillHeader hfits hs.text] at hread
  split at hread
  · cases hread
    exact ⟨rfl, header_payloadBytes hs, trailer, hfits, rfl, rfl⟩
  · cases hread

/-- New flags, hits and times. -/
theorem Shape.overwrite (h : Shape r f) (hread : ds4KvstoreReadHeader f = some (hd, n))
    (hx : x < 256 ^ 1) (hn : m < 256 ^ 4) (hl : l < 256 ^ 8) :
    Shape r (ds4KvstoreFillHeader (hd.updated x m l) ++ f.drop fixedHeader) := by
  obtain ⟨-, -, trailer, hfits, heq, hf⟩ := h.readHeader hread
  refine ⟨h.storable, x, m, l, trailer, ?_, ?_⟩
  · have := hfits.update hx hn hl
    rw [heq] at this
    exact this
  · rw [hf, List.drop_left' (length_fillHeader hd)]
    congr 2
    rw [heq]
    rfl

theorem cut_append (a t : Bytes) :
    (a ++ t).take a.length ++ List.replicate (a.length - (a ++ t).length) 0 = a := by
  simp

/-- Without the trailer. -/
theorem Shape.truncate (h : Shape r f) (hread : ds4KvstoreReadHeader f = some (hd, n)) :
    Shape r (f.take (fixedHeader + 4 + n + hd.payloadBytes) ++
      List.replicate (fixedHeader + 4 + n + hd.payloadBytes - f.length) 0) := by
  obtain ⟨rfl, hpay, trailer, hfits, heq, hf⟩ := h.readHeader hread
  have hlen : fixedHeader + 4 + r.text.length + hd.payloadBytes =
      (ds4KvstoreFillHeader hd ++ (lePut 4 r.text.length ++ (r.text ++ r.payloadBytes))).length := by
    simp only [List.length_append, length_fillHeader, length_lePut, hpay]
    omega
  have hf' : f = (ds4KvstoreFillHeader hd ++ (lePut 4 r.text.length ++ (r.text ++ r.payloadBytes))) ++
      trailer := by
    rw [hf]
    simp only [List.append_assoc]
  refine ⟨h.storable, hd.extFlags, hd.hits, hd.lastUsed, [], heq ▸ hfits, ?_⟩
  rw [hlen, hf', cut_append, ← heq, List.append_nil]

theorem Shape.append (h : Shape r f) (b : Bytes) : Shape r (f ++ b) := by
  obtain ⟨hs, x, m, l, trailer, hfits, rfl⟩ := h
  refine ⟨hs, x, m, l, trailer ++ b, hfits, ?_⟩
  simp only [List.append_assoc]

/-! ## Steps -/

/-- What a step does to the files under cache names while the request is served: a file keeps what it
holds, or is the new file of the request. -/
def Guarded (r : Option StoreRequest) (op : FileOp Bytes UInt8) (d : CacheDir) : Prop :=
  ∀ n f', (ds4KvstoreShaHexName n).isSome → (op.effect d).get n = some f' →
    (¬ op.replaces n ∧ ∃ f, d.get n = some f ∧ SameCore f f') ∨
    ∃ r' a, r = some r' ∧ op = .rename a n ∧ n = r'.path ∧ f' = r'.file ∧ r'.Storable

variable {r : Option StoreRequest} {d : CacheDir}

theorem guarded_opened (n : Bytes) : Guarded r (.opened n) d :=
  fun _ f' _ hf => .inl ⟨id, f', hf, .refl f'⟩

theorem guarded_unlink (n : Bytes) : Guarded r (.unlink n) d := by
  intro m f' _ hf
  have hne : m ≠ n := by
    rintro rfl
    rw [FileOp.effect, Dir.get_erase_self] at hf
    cases hf
  rw [FileOp.effect, Dir.get_erase_of_ne hne] at hf
  exact .inl ⟨Ne.symm hne, f', hf, .refl f'⟩

/-- A file is changed in place. -/
theorem guarded_put (hrep : ∀ n, ¬ op.replaces n) (heff : op.effect d = d.put p f')
    (h : (ds4KvstoreShaHexName p).isSome → ∃ f, d.get p = some f ∧ SameCore f f') :
    Guarded r op d := by
  intro m g hm hg
  rw [heff] at hg
  by_cases hne : m = p
  · subst hne
    rw [Dir.get_put_self] at hg
    cases hg
    exact .inl ⟨hrep m, h hm⟩
  · rw [Dir.get_put_of_ne hne] at hg
    exact .inl ⟨hrep m, g, hg, .refl g⟩

theorem guarded_create_tmp (q : StoreRequest) : Guarded r (.create q.tmp) d := by
  apply guarded_put (fun _ => id) rfl
  rw [shaHexName_tmp]
  nofun

theorem guarded_append (hget : d.get p = some f) (b : Bytes) : Guarded r (.append p b) d := by
  apply guarded_put (fun _ => id) rfl
  rw [hget]
  exact fun _ => ⟨f, rfl, fun _ h => h.append b⟩

theorem guarded_truncate (hget : d.get p = some f) (hread : ds4KvstoreReadHeader f = some (h, n)) :
    Guarded r (.truncate p (fixedHeader + 4 + n + h.payloadBytes) 0) d := by
  apply guarded_put (fun _ => id) rfl
  rw [hget]
  exact fun _ => ⟨f, rfl, fun _ hs => hs.truncate hread⟩

theorem guarded_overwrite (hget : d.get p = some f) (hread : ds4KvstoreReadHeader f = some (h, n))
    (hx : x < 256 ^ 1) (hm : m < 256 ^ 4) (hl : l < 256 ^ 8) :
    Guarded r (.overwrite p (ds4KvstoreFillHeader (h.updated x m l))) d := by
  apply guarded_put (fun _ => id) rfl
  rw [hget, length_fillHeader]
  exact fun _ => ⟨f, rfl, fun _ hs => hs.overwrite hread hx hm hl⟩

theorem guarded_rename {q : StoreRequest} (hget : d.get q.tmp = some q.file) (hq : q.Storable) :
    Guarded (some q) (.rename q.tmp q.path) d := by
  intro m g hm hg
  rw [FileOp.effect, hget] at hg
  by_cases hne : m = q.path
  · subst hne
    rw [Dir.get_put_self] at hg
    cases hg
    exact .inr ⟨q, q.tmp, rfl, rfl, rfl, rfl, hq⟩
  · have htmp : m ≠ q.tmp := by
      rintro rfl
      rw [shaHexName_tmp] at hm
      cases hm
    rw [Dir.get_put_of_ne hne, Dir.get_erase_of_ne htmp] at hg
    refine .inl ⟨?_, g, hg, .refl g⟩
    rintro (h | h)
    · exact htmp h.symm
    · exact hne h.symm

/-! ## Programs -/

theorem safe_opened (n : Bytes) : Prog.Safe (Guarded r) (Prog.op (.opened n)) (fun _ d' => d' = d) d :=
  .op (fun _ => ⟨guarded_opened n, rfl⟩) rfl

theorem safe_unlink (n : Bytes) : Prog.Safe (Guarded r) (Prog.op (.unlink n)) (fun _ _ => True) d :=
  .op (fun _ => ⟨guarded_unlink n, trivial⟩) trivial

theorem safe_readEntryFile (path sha : Bytes) :
    Prog.Safe (Guarded r) (readEntryFile path sha) (fun _ d' => d' = d) d := by
  apply Prog.Safe.bind_dir
  split
  · exact rfl
  · apply (safe_opened path).bind_same
    intro ok
    exact rfl

theorem safe_kvCacheRefreshLoop (fs : List (Bytes × Bytes)) :
    Prog.Safe (Guarded r) (kvCacheRefreshLoop fs) (fun _ d' => d' = d) d := by
  induction fs with
  | nil => exact rfl
  | cons f fs ih =>
    rw [kvCacheRefreshLoop]
    split
    · exact ih
    · apply (safe_readEntryFile _ _).bind_same
      intro e
      apply ih.bind_same
      intro es
      exact rfl

theorem safe_kvCacheRefresh (kc : KvStore) (ls : Listing) :
    Prog.Safe (Guarded r) (kvCacheRefresh kc ls) (fun _ d' => d' = d) d := by
  apply Prog.Safe.bind_dir
  split
  · exact safe_kvCacheRefreshLoop _
  · exact rfl

section Evict

variable {σ : Type} [LinearOrder σ]

theorem safe_evictLoop (score : KvEntry → σ) (target n total : Nat) (es : List KvEntry) :
    Prog.Safe (Guarded r) (evictLoop score target n total es) (fun _ _ => True) d := by
  induction n generalizing total es d with
  | zero => exact trivial
  | succ n ih =>
    rw [evictLoop]
    split
    · split
      · exact trivial
      · apply (safe_unlink _).bind
        intro ok d' _
        exact ih _ _
    · exact trivial

theorem safe_ds4KvstoreEvict (kc : KvStore) (ls : Listing) (score : KvEntry → σ) (extra : Nat) :
    Prog.Safe (Guarded r) (ds4KvstoreEvict kc ls score extra) (fun _ _ => True) d := by
  rw [ds4KvstoreEvict]
  split
  · exact trivial
  · split
    · exact trivial
    · apply (safe_kvCacheRefresh kc ls).bind_same
      intro es
      exact safe_evictLoop score _ _ _ _

end Evict

/-- The file grows by what was written. -/
theorem safe_writeAll (hget : d.get n = some f) (bs : List Bytes) :
    Prog.Safe (Guarded r) (writeAll n bs)
      (fun ok d' => ∃ w, d'.get n = some (f ++ w) ∧ (ok = true → w = bs.flatten)) d := by
  induction bs generalizing d f with
  | nil => exact ⟨[], by rw [List.append_nil, hget], fun _ => rfl⟩
  | cons b bs ih =>
    refine ⟨fun _ => ⟨guarded_append hget b, ?_⟩, ⟨[], by rw [List.append_nil, hget], nofun⟩⟩
    have hget' : ((FileOp.append n b).effect d).get n = some (f ++ b) := by
      rw [FileOp.effect, Dir.get_put_self, hget]
      rfl
    refine (ih hget').mono ?_
    rintro ok d' ⟨w, hw, hok⟩
    refine ⟨b ++ w, by rw [hw, List.append_assoc], fun h => ?_⟩
    rw [hok h, List.flatten_cons]

theorem safe_kvCacheRewriteTrailer (path : Bytes) (trailer : Option Trailer) (now : Nat) :
    Prog.Safe (Guarded r) (kvCacheRewriteTrailer path trailer now) (fun _ _ => True) d := by
  unfold kvCacheRewriteTrailer
  split
  · exact trivial
  · next t =>
    split
    · exact trivial
    · apply (safe_opened path).bind_same
      intro ok
      apply Prog.Safe.bind_dir
      split
      · exact trivial
      · next h n hread =>
        obtain ⟨f, hget, hread⟩ := Option.bind_eq_some_iff.1 hread
        obtain ⟨hfits, -, hlen, -⟩ := readHeader_some hread
        simp only
        split
        · exact trivial
        · refine ⟨fun _ => ⟨guarded_truncate hget hread, ?_⟩, trivial⟩
          have hget' : ((FileOp.truncate path (fixedHeader + 4 + n + h.payloadBytes) 0).effect d).get
              path = some (f.take (fixedHeader + 4 + n + h.payloadBytes) ++
                List.replicate (fixedHeader + 4 + n + h.payloadBytes - f.length) 0) := by
            rw [FileOp.effect, Dir.get_put_self, hget]
            rfl
          apply (safe_writeAll hget' t.writes).bind
          rintro written d1 ⟨w, hw, -⟩
          apply (safe_opened path).bind_same
          intro flushed
          split
          · -- the header is still the one that was read
            have hread' : ds4KvstoreReadHeader (f.take (fixedHeader + 4 + n + h.payloadBytes) ++
                List.replicate (fixedHeader + 4 + n + h.payloadBytes - f.length) 0 ++ w) =
                some (h, n) := by
              rw [← readHeader_take, List.append_assoc, List.take_append_of_le_length (by
                rw [List.length_take]; omega), List.take_take, Nat.min_eq_left (by omega),
                readHeader_take, hread]
            refine ⟨fun _ => ⟨?_, trivial⟩, trivial⟩
            exact guarded_overwrite hw hread' (Nat.mod_lt _ (by decide)) hfits.hits
              (Nat.mod_lt _ (by decide))
          · exact trivial

theorem safe_kvCacheExistingCompatible (kc : KvStore) (q : StoreRequest) :
    Prog.Safe (Guarded r) (kvCacheExistingCompatible kc q) (fun _ _ => True) d := by
  apply Prog.Safe.bind_dir
  split
  · exact trivial
  · next f _ =>
    apply (safe_readEntryFile _ _).bind_same
    intro e
    split
    · exact trivial
    · next e =>
      have hmatch : Prog.Safe (Guarded r) (kvCacheTextMatches kc q f e) (fun _ _ => True) d := by
        rw [kvCacheTextMatches]
        split
        · apply (safe_opened q.path).bind
          exact fun _ _ _ => trivial
        · exact trivial
      apply hmatch.bind
      intro ok d2 _
      split
      · exact trivial
      · apply (safe_unlink q.path).bind
        exact fun _ _ _ => trivial

theorem storable_of_fits {kc : KvStore} {q : StoreRequest} (hr : ¬ refused kc q)
    (hfits : q.fits kc = some n) : q.Storable := by
  have hsize : kvCacheFileSizeBytes q.text.length q.payloadBytes.length
      (Trailer.bytes q.trailer).length ≠ none := by
    intro h
    rw [StoreRequest.fits, ds4KvstoreFileSizeFits, h] at hfits
    cases hfits
  rw [kvCacheFileSizeBytes] at hsize
  simp only [ne_eq, ite_eq_left_iff, reduceCtorEq, imp_false, not_not, not_or, Nat.not_lt] at hsize
  rw [refused] at hr
  simp only [not_or, not_and, Nat.not_lt, ne_eq, not_not] at hr
  have h1 : uint32Max = 256 ^ 4 - 1 := by decide
  have h2 : uint64Max = 2 ^ 64 - 1 := rfl
  constructor <;> omega

theorem safe_kvCacheWriteFile {q : StoreRequest} (hq : q.Storable) (hp : q.payload = some chunks)
    (kc : KvStore) :
    Prog.Safe (Guarded (some q)) (kvCacheWriteFile kc q chunks) (fun _ _ => True) d := by
  refine ⟨fun _ => ⟨guarded_create_tmp q, ?_⟩, trivial⟩
  have hget : ((FileOp.create q.tmp).effect d).get q.tmp = some [] := Dir.get_put_self
  apply (safe_writeAll hget _).bind
  rintro written d1 ⟨w, hw, hfull⟩
  apply (safe_opened q.tmp).bind_same
  intro flushed
  apply (safe_opened q.tmp).bind_same
  intro closed
  split
  · next hok =>
    have hwritten : written = true := by
      simp only [Bool.and_eq_true] at hok
      exact hok.1.1.1
    have hfile : [] ++ w = q.file := by
      rw [hfull hwritten, StoreRequest.file, StoreRequest.payloadBytes, hp, ← Trailer.flatten_writes]
      simp only [List.nil_append, List.flatten_append, List.flatten_cons, List.flatten_nil,
        List.append_nil, List.append_assoc, Option.getD_some]
    rw [hfile] at hw
    refine ⟨fun _ => ⟨guarded_rename hw hq, trivial⟩, ?_⟩
    apply (safe_unlink q.tmp).bind
    exact fun _ _ _ => trivial
  · apply (safe_unlink q.tmp).bind
    exact fun _ _ _ => trivial

theorem safe_store {σ : Type} [LinearOrder σ] (kc : KvStore) (q : StoreRequest) (score : KvEntry → σ) :
    Prog.Safe (Guarded (some q)) (ds4KvstoreStoreLivePrefixText kc q score) (fun _ _ => True) d := by
  rw [ds4KvstoreStoreLivePrefixText]
  split
  · exact trivial
  · next hr =>
    apply (safe_kvCacheExistingCompatible kc q).bind
    intro ok d1 _
    split
    · apply (safe_kvCacheRewriteTrailer _ _ _).bind
      exact fun _ _ _ => trivial
    · split
      · exact trivial
      · next chunks hp =>
        split
        · exact trivial
        · next n hfits =>
          apply (safe_ds4KvstoreEvict kc _ score n).bind
          intro _ d2 _
          exact safe_kvCacheWriteFile (storable_of_fits hr hfits) hp kc

theorem safe_ds4KvstoreTouchFile (path : Bytes) (hits now : Nat) :
    Prog.Safe (Guarded r) (ds4KvstoreTouchFile path hits now) (fun _ _ => True) d := by
  apply (safe_opened path).bind_same
  intro ok
  apply Prog.Safe.bind_dir
  split
  · exact trivial
  · next h n hread =>
    obtain ⟨f, hget, hread⟩ := Option.bind_eq_some_iff.1 hread
    split
    · refine ⟨fun _ => ⟨?_, trivial⟩, trivial⟩
      exact guarded_overwrite hget hread (readHeader_some hread).1.extFlags (Nat.mod_lt _ (by decide))
        (Nat.mod_lt _ (by decide))
    · exact trivial

theorem safe_load (kc : KvStore) (q : LoadRequest) :
    Prog.Safe (Guarded r) (ds4KvstoreTryLoadText kc q) (fun _ _ => True) d := by
  rw [ds4KvstoreTryLoadText]
  split
  · exact trivial
  · have hfind : Prog.Safe (Guarded r) (ds4KvstoreFindTextPrefix kc q.listing q.toLookup)
        (fun _ _ => True) d := by
      apply (safe_kvCacheRefresh kc q.listing).bind
      exact fun _ _ _ => trivial
    apply hfind.bind
    intro best d1 _
    split
    · exact trivial
    · next e =>
      apply (safe_opened e.path).bind_same
      intro ok
      apply Prog.Safe.bind_dir
      split
      · exact trivial
      · split
        · exact trivial
        · split
          · exact trivial
          · split
            · split
              · apply (safe_ds4KvstoreTouchFile e.path _ q.now).bind
                exact fun _ _ _ => trivial
              · apply (safe_unlink e.path).bind
                exact fun _ _ _ => trivial
            · exact trivial

/-! ## Runs -/

/-- The request that created the file under each name. -/
abbrev Ledger := Bytes → Option StoreRequest

def Ledger.step (r : Option StoreRequest) (op : FileOp Bytes UInt8) (born : Ledger) : Ledger := fun n =>
  match op with
  | .unlink m => if m = n then none else born n
  | .rename a b => if b = n then r else if a = n then none else born n
  | _ => born n

theorem Ledger.step_of_not_replaces (h : ¬ op.replaces n) (born : Ledger) :
    Ledger.step r op born n = born n := by
  cases op with
  | unlink m => exact if_neg h
  | rename a b =>
    rw [FileOp.replaces, not_or] at h
    exact (if_neg h.2).trans (if_neg h.1)
  | _ => rfl

/-- Every file under a cache name is one that the ledger knows. -/
def Recorded (born : Ledger) (d : CacheDir) : Prop :=
  ∀ n f, (ds4KvstoreShaHexName n).isSome → d.get n = some f →
    ∃ q, born n = some q ∧ q.path = n ∧ Shape q f

theorem Recorded.step (h : Recorded born d) (hg : Guarded r op d) :
    Recorded (Ledger.step r op born) (op.effect d) := by
  intro n f' hn hf'
  rcases hg n f' hn hf' with ⟨hrep, f, hf, hsame⟩ | ⟨q, a, rfl, rfl, rfl, rfl, hq⟩
  · obtain ⟨q, hborn, hpath, hshape⟩ := h n f hn hf
    exact ⟨q, (Ledger.step_of_not_replaces hrep born).trans hborn, hpath, hsame q hshape⟩
  · exact ⟨q, if_pos rfl, rfl, shape_file hq⟩

section Run

variable {σ : Type} [LinearOrder σ]

def KvOp.prog (kc : KvStore) : KvOp σ → CacheProg KvStore
  | .openCache mb reject minTokens ls score => ds4KvstoreOpen mb reject minTokens ls score
  | .store r score => do
    let _ ← ds4KvstoreStoreLivePrefixText kc r score
    pure kc
  | .load r => do
    let _ ← ds4KvstoreTryLoadText kc r
    pure kc

def KvOp.request : KvOp σ → Option StoreRequest
  | .store r _ => some r
  | _ => none

theorem safe_prog (kc : KvStore) (op : KvOp σ) :
    Prog.Safe (Guarded op.request) (op.prog kc) (fun _ _ => True) d := by
  cases op with
  | openCache mb reject minTokens ls score =>
    apply (safe_ds4KvstoreEvict _ ls score 0).bind
    exact fun _ _ _ => trivial
  | store q score =>
    apply (safe_store kc q score).bind
    exact fun _ _ _ => trivial
  | load q =>
    apply (safe_load kc q).bind
    exact fun _ _ _ => trivial

/-- The file operations of a run, each with the request that is served. The outcomes of the file
operations are given for each operation of the cache; after a crash the next one starts over. -/
def kvHistory (kc : KvStore) (d : CacheDir) :
    List (KvOp σ × List Prog.Outcome) → List (Option StoreRequest × FileOp Bytes UInt8)
  | [] => []
  | (op, os) :: ops =>
    let x := (op.prog kc).exec os d
    x.steps.map (fun s => (op.request, s.1)) ++ kvHistory (x.result.getD kc) x.dir ops

/-- The directory and the ledger after some operations. -/
def replay (s : CacheDir × Ledger) (hs : List (Option StoreRequest × FileOp Bytes UInt8)) :
    CacheDir × Ledger :=
  hs.foldl (fun s h => (h.2.effect s.1, s.2.step h.1 h.2)) s

theorem replay_append (s : CacheDir × Ledger) (a b : List (Option StoreRequest × FileOp Bytes UInt8)) :
    replay s (a ++ b) = replay (replay s a) b := List.foldl_append

theorem replay_chain {steps : List (FileOp Bytes UInt8 × CacheDir)} (h : Prog.Chain d steps d')
    (born : Ledger) : (replay (d, born) (steps.map fun s => (r, s.1))).1 = d' := by
  induction steps generalizing d born with
  | nil => exact h
  | cons s steps ih => exact ih h.2 _

/-- Guarded steps keep the ledger right at every point. -/
theorem recorded_chain {steps : List (FileOp Bytes UInt8 × CacheDir)} (hc : Prog.Chain d steps d')
    (hg : ∀ s ∈ steps, Guarded r s.1 s.2) (hrec : Recorded born d)
    (hp : hs <+: steps.map fun s => (r, s.1)) :
    Recorded (replay (d, born) hs).2 (replay (d, born) hs).1 := by
  induction steps generalizing d born hs with
  | nil =>
    rw [List.map_nil, List.prefix_nil] at hp
    subst hp
    exact hrec
  | cons s steps ih =>
    rw [List.map_cons] at hp
    rcases List.prefix_cons_iff.1 hp with rfl | ⟨hs', rfl, hp'⟩
    · exact hrec
    · have hstep := hg s List.mem_cons_self
      rw [hc.1] at hstep
      have := ih hc.2 (fun s' hs => hg s' (List.mem_cons_of_mem _ hs)) (hrec.step hstep) hp'
      exact this

theorem recorded_history (ops : List (KvOp σ × List Prog.Outcome)) (hrec : Recorded born d)
    (hp : hs <+: kvHistory kc d ops) :
    Recorded (replay (d, born) hs).2 (replay (d, born) hs).1 := by
  induction ops generalizing kc d born hs with
  | nil =>
    rw [kvHistory, List.prefix_nil] at hp
    subst hp
    exact hrec
  | cons x ops ih =>
    obtain ⟨op, os⟩ := x
    rw [kvHistory] at hp
    have hguard := ((safe_prog (d := d) kc op).exec os).1
    have hchain := Prog.exec_chain (op.prog kc) os d
    rcases List.prefix_or_prefix_of_prefix hp (List.prefix_append _ _) with hp' | ⟨hs', rfl⟩
    · exact recorded_chain hchain hguard hrec hp'
    · rw [List.prefix_append_right_inj] at hp
      rw [replay_append]
      have hdir := replay_chain (r := op.request) hchain born
      have hmid := recorded_chain hchain hguard hrec (List.prefix_refl _)
      rw [hdir] at hmid
      have := ih hmid hp
      rwa [← hdir] at this

/-- The directory after a run. -/
def kvRunDir (kc : KvStore) (d : CacheDir) : List (KvOp σ × List Prog.Outcome) → CacheDir
  | [] => d
  | (op, os) :: ops =>
    let x := (op.prog kc).exec os d
    kvRunDir (x.result.getD kc) x.dir ops

theorem replay_kvHistory (kc : KvStore) (d : CacheDir) (born : Ledger)
    (ops : List (KvOp σ × List Prog.Outcome)) :
    (replay (d, born) (kvHistory kc d ops)).1 = kvRunDir kc d ops := by
  induction ops generalizing kc d born with
  | nil => rfl
  | cons x ops ih =>
    obtain ⟨op, os⟩ := x
    have hdir := replay_chain (r := op.request) (Prog.exec_chain (op.prog kc) os d) born
    rw [kvHistory, replay_append, kvRunDir, ← ih _ _ (replay (d, born) _).2, ← hdir]

end Run

/-! ## What a file holds -/

/-- The payload in a file. -/
def filePayload (f : Bytes) (e : KvEntry) : Bytes :=
  (f.drop (fixedHeader + 4 + e.textBytes)).take e.payloadBytes

/-- The file holds the text and the payload of the request, and its header describes them. -/
structure Holds (q : StoreRequest) (e : KvEntry) (f : Bytes) : Prop where
  text : fileText f e = q.text
  payload : filePayload f e = q.payloadBytes
  modelId : e.modelId = q.header.modelId
  quantBits : e.quantBits = q.header.quantBits
  reason : e.reason = q.header.reason
  tokens : e.tokens = q.header.tokens
  ctxSize : e.ctxSize = q.header.ctxSize
  createdAt : e.createdAt = q.header.createdAt

/-- Two readings of a file agree except for the flags, the hits, the time of the last use and the bytes
behind the payload. -/
structure Unchanged (e : KvEntry) (f : Bytes) (e' : KvEntry) (f' : Bytes) : Prop where
  text : fileText f' e' = fileText f e
  payload : filePayload f' e' = filePayload f e
  modelId : e'.modelId = e.modelId
  quantBits : e'.quantBits = e.quantBits
  reason : e'.reason = e.reason
  tokens : e'.tokens = e.tokens
  ctxSize : e'.ctxSize = e.ctxSize
  createdAt : e'.createdAt = e.createdAt

theorem Holds.unchanged {q : StoreRequest} (h : Holds q e f) (h' : Holds q e' f') :
    Unchanged e f e' f' where
  text := h'.text.trans h.text.symm
  payload := h'.payload.trans h.payload.symm
  modelId := h'.modelId.trans h.modelId.symm
  quantBits := h'.quantBits.trans h.quantBits.symm
  reason := h'.reason.trans h.reason.symm
  tokens := h'.tokens.trans h.tokens.symm
  ctxSize := h'.ctxSize.trans h.ctxSize.symm
  createdAt := h'.createdAt.trans h.createdAt.symm

theorem Shape.holds {q : StoreRequest} (h : Shape q f) (he : entryOf (q.path, f) = some e) :
    Holds q e f ∧ e.sha = ds4KvstoreSha1BytesHex q.text := by
  rw [entryOf_path_eq] at he
  obtain ⟨hsha, -, -, hread, -, -⟩ := readEntryFile_some he
  obtain ⟨htext, hpay, trailer, -, heq, hf⟩ := h.readHeader hread
  have hfront : (ds4KvstoreFillHeader e.toKvHeader ++ lePut 4 q.text.length).length = fixedHeader + 4 := by
    rw [List.length_append, length_fillHeader, length_lePut]
  have hfront' : (ds4KvstoreFillHeader e.toKvHeader ++ lePut 4 q.text.length ++ q.text).length =
      fixedHeader + 4 + q.text.length := by
    rw [List.length_append, hfront]
  refine ⟨⟨?_, ?_, (congrArg KvHeader.modelId heq :), (congrArg KvHeader.quantBits heq :),
    (congrArg KvHeader.reason heq :), (congrArg KvHeader.tokens heq :), (congrArg KvHeader.ctxSize heq :),
    (congrArg KvHeader.createdAt heq :)⟩, hsha⟩
  · rw [fileText, hf, htext, ← List.append_assoc, List.drop_left' hfront, List.take_left]
  · rw [filePayload, hpay, hf, htext, ← List.append_assoc, ← List.append_assoc, List.drop_left' hfront',
      List.take_left]

/-- A name that no step gives to another file keeps its request. -/
theorem replay_born (s : CacheDir × Ledger) {mid : List (Option StoreRequest × FileOp Bytes UInt8)}
    (h : ∀ x ∈ mid, ¬ x.2.replaces n) : (replay s mid).2 n = s.2 n := by
  induction mid generalizing s with
  | nil => rfl
  | cons x mid ih =>
    have hstep := ih (x.2.effect s.1, s.2.step x.1 x.2) fun y hy => h y (List.mem_cons_of_mem _ hy)
    exact hstep.trans (Ledger.step_of_not_replaces (h x List.mem_cons_self) s.2)

theorem kvFiles_consistent {σ : Type} [LinearOrder σ] (kc : KvStore)
    (ops : List (KvOp σ × List Prog.Outcome)) (hp : hs <+: kvHistory kc .empty ops)
    (hget : (replay (.empty, fun _ => none) hs).1.get n = some f) (he : entryOf (n, f) = some e) :
    ds4KvstoreSha1BytesHex (fileText f e) = e.sha ∧
    (∃ q, (replay (.empty, fun _ => none) hs).2 n = some q ∧ Holds q e f) ∧
    ∀ mid f' e', hs ++ mid <+: kvHistory kc .empty ops → (∀ x ∈ mid, ¬ x.2.replaces n) →
      (replay (.empty, fun _ => none) (hs ++ mid)).1.get n = some f' → entryOf (n, f') = some e' →
      Unchanged e f e' f' := by
  have hnone : Recorded (fun _ => none) .empty := nofun
  have hname : (ds4KvstoreShaHexName n).isSome := by
    rw [(entryOf_some he).1]
    rfl
  obtain ⟨q, hborn, rfl, hshape⟩ := recorded_history ops hnone hp n f hname hget
  obtain ⟨hholds, hsha⟩ := hshape.holds he
  refine ⟨by rw [hholds.text, hsha], ⟨q, hborn, hholds⟩, ?_⟩
  intro mid f' e' hp' hmid hget' he'
  obtain ⟨q', hborn', hpath, hshape'⟩ := recorded_history ops hnone hp' _ f' hname hget'
  rw [replay_append, replay_born _ hmid, hborn] at hborn'
  cases hborn'
  exact hholds.unchanged (hshape'.holds he').1

/-- A store, and a second one with a trailer that is stopped behind the truncation. -/
def tornRun : List (KvOp Nat × List Prog.Outcome) :=
  [(.store smallStore fun _ => 0, []),
    (.store { smallStore with trailer := some ⟨1, [lit "t"]⟩ } fun _ => 0, [.ok, .ok, .ok, .ok, .crash])]

theorem kvFiles_consistent_torn :
    ∃ f e, (kvRunDir ⟨true, 2 ^ 20, false, 0⟩ .empty tornRun).get smallStore.path = some f ∧
      entryOf (smallStore.path, f) = some e ∧ ds4KvstoreSha1BytesHex (fileText f e) = e.sha := by
  have hsome : (((kvRunDir ⟨true, 2 ^ 20, false, 0⟩ .empty tornRun).get smallStore.path).bind
      fun f => entryOf (smallStore.path, f)).isSome = true := by decide +kernel
  obtain ⟨e, he⟩ := Option.isSome_iff_exists.1 hsome
  obtain ⟨f, hget, he⟩ := Option.bind_eq_some_iff.1 he
  refine ⟨f, e, hget, he, ?_⟩
  rw [← replay_kvHistory _ _ fun _ => none] at hget
  exact (kvFiles_consistent _ tornRun (List.prefix_refl _) hget he).1

end Ds4.Kv
