import Mathlib.Order.Defs.LinearOrder
import Mathlib.Order.Lattice
import Ds4.Kv.Header
import Ds4.Lib.Files

/-!
# The disk cache of checkpoints

Storing, finding, loading and evicting cache files, as programs over the cache directory. A path is
the name of the file in the directory. What the engine supplies (the text of the tokens, the staged
payload, whether a payload loads) is part of a request, and so are the clock, the order in which the
directory is listed and the scores of the eviction, which the source computes in floating point.
Opening a file to read it, `fflush` and `fclose` are `opened` steps: they can fail and change nothing.
-/

namespace Ds4.Kv
open C Files

abbrev CacheDir := Dir Bytes UInt8

abbrev CacheProg := Prog Bytes UInt8

/-- The options of a cache that the modelled functions read. -/
structure KvStore where
  enabled : Bool
  budgetBytes : Nat
  rejectDifferentQuant : Bool
  minTokens : Int
  deriving DecidableEq, Repr

/-- An order in which a directory can be listed. -/
structure Listing where
  order : List (Bytes × Bytes) → List (Bytes × Bytes)
  perm : ∀ l, (order l).Perm l

def Listing.asIs : Listing := ⟨id, fun _ => .refl _⟩

/-! ## Reading -/

/-- `ds4_kvstore_read_entry_file` as a program: the file may be gone or fail to open. -/
def readEntryFile (path sha : Bytes) : CacheProg (Option KvEntry) := do
  let d ← Prog.dir
  match d.get path with
  | none => pure none
  | some f =>
    let ok ← Prog.op (.opened path)
    pure (if ok then ds4KvstoreReadEntryFile path sha f else none)

/-- The entries among the listed files. -/
def kvCacheRefreshLoop : List (Bytes × Bytes) → CacheProg (List KvEntry)
  | [] => pure []
  | f :: fs =>
    match ds4KvstoreShaHexName f.1 with
    | none => kvCacheRefreshLoop fs
    | some sha => do
      let e ← readEntryFile f.1 sha
      let es ← kvCacheRefreshLoop fs
      pure (e.toList ++ es)

def kvCacheRefresh (kc : KvStore) (ls : Listing) : CacheProg (List KvEntry) := do
  let d ← Prog.dir
  if kc.enabled then kvCacheRefreshLoop (ls.order d.files) else pure []

/-! ## Eviction -/

section Evict

variable {σ : Type} [LinearOrder σ]

/-- `a` is evicted rather than `b`. -/
def evictsBefore (score : KvEntry → σ) (a b : KvEntry) : Prop :=
  score a < score b ∨ (score a = score b ∧ a.lastUsed < b.lastUsed)

instance (score : KvEntry → σ) (a b : KvEntry) : Decidable (evictsBefore score a b) :=
  inferInstanceAs (Decidable (_ ∨ _))

/-- The position of the victim and the victim: the first entry of the lowest score, the least
recently used one among equal scores. -/
def evictVictim (score : KvEntry → σ) : List KvEntry → Option (Nat × KvEntry)
  | [] => none
  | e :: es => some ((es.zipIdx 1).foldl
      (fun v x => if evictsBefore score x.1 v.2 then (x.2, x.1) else v) (0, e))

/-- The loop of `ds4_kvstore_evict`; every round drops an entry, so their number bounds it. -/
def evictLoop (score : KvEntry → σ) (target : Nat) : Nat → Nat → List KvEntry → CacheProg Unit
  | 0, _, _ => pure ()
  | n + 1, total, es =>
    if target < total then
      match evictVictim score es with
      | none => pure ()
      | some (i, e) => do
        let ok ← Prog.op (.unlink e.path)
        let total := if ok then (if e.fileSize ≤ total then total - e.fileSize else 0) else 0
        evictLoop score target n total (es.eraseIdx i)
    else pure ()

def totalBytes (es : List KvEntry) : Nat := (es.map (·.fileSize)).sum

def ds4KvstoreEvict (kc : KvStore) (ls : Listing) (score : KvEntry → σ) (extraBytes : Nat) :
    CacheProg Unit :=
  if kc.enabled = false ∨ kc.budgetBytes = 0 then pure ()
  else if kc.budgetBytes < extraBytes then pure ()
  else do
    let es ← kvCacheRefresh kc ls
    evictLoop score (kc.budgetBytes - extraBytes) es.length (totalBytes es) es

def ds4KvstoreDefaultMb : Nat := 4096

/-- A new cache over the directory; `budget_mb` is an `uint64_t` and so is the product. -/
def ds4KvstoreOpen (budgetMb : Nat) (rejectDifferentQuant : Bool) (minTokens : Int) (ls : Listing)
    (score : KvEntry → σ) : CacheProg KvStore := do
  let mb := if budgetMb = 0 then ds4KvstoreDefaultMb else budgetMb
  let kc : KvStore := ⟨true, mb * 1024 * 1024 % 2 ^ 64, rejectDifferentQuant, minTokens⟩
  ds4KvstoreEvict kc ls score 0
  pure kc

end Evict

/-! ## Sizes -/

def kvCacheFileSizeBytes (textBytes payloadBytes trailerBytes : Nat) : Option Nat :=
  let fixed := fixedHeader + 4
  if uint64Max - fixed < textBytes ∨ uint64Max - fixed - textBytes < payloadBytes ∨
      uint64Max - fixed - textBytes - payloadBytes < trailerBytes then none
  else some (fixed + textBytes + payloadBytes + trailerBytes)

def kvCacheBudgetRequired (fileBytes : Nat) : Option Nat :=
  let slack := if fileBytes % 100 ≠ 0 then fileBytes / 100 + 1 else fileBytes / 100
  if uint64Max - fileBytes < slack then none else some (fileBytes + slack)

/-- The size of the file when the budget has room for it and the safety margin. -/
def ds4KvstoreFileSizeFits (kc : KvStore) (textBytes payloadBytes trailerBytes : Nat) : Option Nat :=
  match kvCacheFileSizeBytes textBytes payloadBytes trailerBytes with
  | none => none
  | some fileBytes =>
    if kc.budgetBytes = 0 then some fileBytes
    else
      match kvCacheBudgetRequired fileBytes with
      | none => none
      | some required => if required ≤ kc.budgetBytes then some fileBytes else none

/-! ## Storing -/

/-- What the trailer hooks write, write by write, and the flag they set. `serialized_size` announces
what `write` writes. -/
structure Trailer where
  extFlag : Nat
  writes : List Bytes
  deriving DecidableEq, Repr

def Trailer.bytes (t : Option Trailer) : Bytes := (t.map (·.writes.flatten)).getD []

/-- A call of `ds4_kvstore_store_live_prefix_text`, with what the engine and the session supply. -/
structure StoreRequest where
  tokens : Nat
  storeLen : Int
  /-- The live checkpoint consists of the tokens to store. -/
  live : Bool
  modelId : Nat
  quantBits : Nat
  ctxSize : Nat
  reason : Option String
  text : Bytes
  /-- The extension flags that come with a text override. -/
  override : Option Nat
  trailer : Option Trailer
  /-- The staged payload, in the pieces in which it is copied; `none` when staging fails. -/
  payload : Option (List Bytes)
  now : Nat
  pid : Bytes
  listing : Listing

namespace StoreRequest

/-- The number of tokens stored. -/
def storeTokens (r : StoreRequest) : Nat := (min r.storeLen r.tokens).toNat

def sha (r : StoreRequest) : Bytes := ds4KvstoreSha1BytesHex r.text

def path (r : StoreRequest) : Bytes := ds4KvstorePathForSha r.sha

def tmp (r : StoreRequest) : Bytes := r.path ++ lit ".tmp." ++ r.pid

def payloadBytes (r : StoreRequest) : Bytes := (r.payload.getD []).flatten

def header (r : StoreRequest) : KvHeader where
  modelId := r.modelId % 256
  quantBits := r.quantBits % 256
  reason := ds4KvstoreReasonCode r.reason
  extFlags :=
    (match r.trailer with
      | some t => if t.writes.flatten ≠ [] then t.extFlag % 256 else 0
      | none => 0) ||| (r.override.getD 0) % 256
  tokens := r.storeTokens % 2 ^ 32
  hits := 0
  ctxSize := r.ctxSize % 2 ^ 32
  createdAt := r.now % 2 ^ 64
  lastUsed := r.now % 2 ^ 64
  payloadBytes := r.payloadBytes.length % 2 ^ 64

end StoreRequest

def kvCacheFileTextMatches (f sha text : Bytes) : Bool :=
  match ds4KvstoreReadHeader f with
  | none => false
  | some (_, textBytes) =>
    let stored := (f.drop (fixedHeader + 4)).take textBytes
    text.length ≤ uint32Max && textBytes == text.length && stored.length == textBytes &&
      ds4KvstoreSha1BytesHex stored == sha && stored == text

/-- The tests of `kv_cache_existing_compatible` on the header. -/
def kvCacheSameKind (kc : KvStore) (r : StoreRequest) (e : KvEntry) : Bool :=
  e.modelId == r.modelId % 256 &&
    (!kc.rejectDifferentQuant || e.quantBits == r.quantBits % 256) && e.ctxSize ≤ r.ctxSize % 2 ^ 32

/-- The header passes and the file, opened again, holds the text. -/
def kvCacheTextMatches (kc : KvStore) (r : StoreRequest) (f : Bytes) (e : KvEntry) :
    CacheProg Bool :=
  if kvCacheSameKind kc r e then do
    let ok ← Prog.op (.opened r.path)
    pure (ok && kvCacheFileTextMatches f r.sha r.text)
  else pure false

/-- The file of the text can be kept; a file that cannot is removed. -/
def kvCacheExistingCompatible (kc : KvStore) (r : StoreRequest) : CacheProg Bool := do
  let d ← Prog.dir
  match d.get r.path with
  | none => pure false
  | some f =>
    match ← readEntryFile r.path r.sha with
    | none => pure false
    | some e =>
      let compatible ← kvCacheTextMatches kc r f e
      if compatible then pure true
      else do
        let _ ← Prog.op (.unlink r.path)
        pure false

/-- Writes up to the first that fails. -/
def writeAll (name : Bytes) : List Bytes → CacheProg Bool
  | [] => pure true
  | b :: bs => do
    let ok ← Prog.op (.append name b)
    if ok then writeAll name bs else pure false

def int64Max : Nat := 2 ^ 63 - 1

def kvCacheRewriteTrailer (path : Bytes) (trailer : Option Trailer) (now : Nat) : CacheProg Unit :=
  match trailer with
  | none => pure ()
  | some t =>
    if t.writes.flatten = [] then pure ()
    else do
      let ok ← Prog.op (.opened path)
      let d ← Prog.dir
      match d.get path >>= ds4KvstoreReadHeader with
      | none => pure ()
      | some (h, textBytes) =>
        let fileEnd := fixedHeader + 4 + textBytes + h.payloadBytes
        if ok = false ∨ int64Max < fileEnd then pure ()
        else do
          let cut ← Prog.op (.truncate path fileEnd 0)
          if cut then do
            let written ← writeAll path t.writes
            let flushed ← Prog.op (.opened path)
            if written && flushed then do
              let _ ← Prog.op (.overwrite path (ds4KvstoreFillHeader
                { h with extFlags := (h.extFlags ||| t.extFlag) % 256, lastUsed := now % 2 ^ 64 }))
              pure ()
            else pure ()
          else pure ()

/-- The size of the file that a store would write, when it fits. -/
def StoreRequest.fits (kc : KvStore) (r : StoreRequest) : Option Nat :=
  ds4KvstoreFileSizeFits kc r.text.length r.payloadBytes.length (Trailer.bytes r.trailer).length

/-- A new file under the temporary name, renamed when it is complete. -/
def kvCacheWriteFile (kc : KvStore) (r : StoreRequest) (chunks : List Bytes) : CacheProg Bool := do
  let created ← Prog.op (.create r.tmp)
  if created then do
    let written ← writeAll r.tmp ([ds4KvstoreFillHeader r.header, lePut 4 r.text.length, r.text] ++
      chunks ++ ((r.trailer.map (·.writes)).getD []))
    let flushed ← Prog.op (.opened r.tmp)
    let closed ← Prog.op (.opened r.tmp)
    if written && flushed && closed && (r.fits kc).isSome then do
      let renamed ← Prog.op (.rename r.tmp r.path)
      if renamed then pure true
      else do
        let _ ← Prog.op (.unlink r.tmp)
        pure false
    else do
      let _ ← Prog.op (.unlink r.tmp)
      pure false
  else pure false

/-- The store is refused before it looks at the directory. -/
def refused (kc : KvStore) (r : StoreRequest) : Prop :=
  kc.enabled = false ∨ r.storeLen < kc.minTokens ∨ (r.quantBits ≠ 2 ∧ r.quantBits ≠ 4) ∨
    r.live = false ∨ uint32Max < r.text.length

instance (kc : KvStore) (r : StoreRequest) : Decidable (refused kc r) :=
  inferInstanceAs (Decidable (_ ∨ _))

def ds4KvstoreStoreLivePrefixText {σ : Type} [LinearOrder σ] (kc : KvStore) (r : StoreRequest)
    (score : KvEntry → σ) : CacheProg Bool :=
  if refused kc r then pure false
  else do
    if ← kvCacheExistingCompatible kc r then do
      kvCacheRewriteTrailer r.path r.trailer r.now
      pure true
    else
      match r.payload with
      | none => pure false
      | some chunks =>
        match r.fits kc with
        | none => pure false
        | some fileBytes => do
          ds4KvstoreEvict kc r.listing score fileBytes
          kvCacheWriteFile kc r chunks

/-! ## Finding -/

/-- `(int)` of a `uint32_t`. -/
def toInt32 (n : Nat) : Int := if n < 2 ^ 31 then n else n - 2 ^ 32

/-- What a lookup asks for. -/
structure Lookup where
  prompt : Bytes
  modelId : Nat
  quantBits : Nat
  ctxSize : Nat
  deriving DecidableEq, Repr

/-- The tests of `ds4_kvstore_find_text_prefix` that do not depend on the best entry so far. -/
def kvCacheUsable (kc : KvStore) (q : Lookup) (e : KvEntry) : Bool :=
  kc.minTokens ≤ toInt32 e.tokens && e.modelId == q.modelId % 256 &&
    e.ctxSize ≤ q.ctxSize % 2 ^ 32 &&
    (!kc.rejectDifferentQuant || e.quantBits == q.quantBits % 256)

def kvCacheBetter (kc : KvStore) (q : Lookup) (best : Option KvEntry) (e : KvEntry) : Option KvEntry :=
  if q.prompt.length < e.textBytes ∨ kvCacheUsable kc q e = false then best
  else if best.any fun b => e.textBytes < b.textBytes ∨
      (e.textBytes = b.textBytes ∧ e.tokens ≤ b.tokens) then best
  else if ds4KvstoreSha1BytesHex (q.prompt.take e.textBytes) = e.sha then some e else best

def ds4KvstoreFindTextPrefix (kc : KvStore) (ls : Listing) (q : Lookup) :
    CacheProg (Option KvEntry) := do
  let es ← kvCacheRefresh kc ls
  pure (es.foldl (kvCacheBetter kc q) none)

/-! ## Loading -/

def ds4KvstoreTouchFile (path : Bytes) (hits now : Nat) : CacheProg Bool := do
  let ok ← Prog.op (.opened path)
  let d ← Prog.dir
  match d.get path >>= ds4KvstoreReadHeader with
  | none => pure false
  | some (h, _) =>
    if ok then
      Prog.op (.overwrite path (ds4KvstoreFillHeader
        { h with hits := hits % 2 ^ 32, lastUsed := now % 2 ^ 64 }))
    else pure false

/-- A call of `ds4_kvstore_try_load_text`, with what the session makes of the payload: whether it
loads, and whether it then holds the number of tokens of the header. -/
structure LoadRequest extends Lookup where
  payloadLoads : Bool
  tokensMatch : Bool
  now : Nat
  listing : Listing

/-- The text of the file is a prefix of the prompt and hashes to the name of the file. -/
def kvCacheHeaderOk (r : LoadRequest) (sha f : Bytes) (h : KvHeader) (textBytes : Nat) : Bool :=
  let text := (f.drop (fixedHeader + 4)).take textBytes
  h.modelId == r.modelId % 256 && textBytes ≤ r.prompt.length && text.length == textBytes &&
    ds4KvstoreSha1BytesHex text == sha && r.prompt.take textBytes == text

def ds4KvstoreTryLoadText (kc : KvStore) (r : LoadRequest) : CacheProg Bool :=
  if kc.enabled = false ∨ (r.quantBits ≠ 2 ∧ r.quantBits ≠ 4) then pure false
  else do
    match ← ds4KvstoreFindTextPrefix kc r.listing r.toLookup with
    | none => pure false
    | some e => do
      let ok ← Prog.op (.opened e.path)
      let d ← Prog.dir
      match d.get e.path with
      | none => pure false
      | some f =>
        if ok = false then pure false
        else
          match ds4KvstoreReadHeader f with
          | none => pure false
          | some (h, textBytes) =>
            if kvCacheHeaderOk r e.sha f h textBytes && r.payloadLoads then
              if r.tokensMatch then do
                let _ ← ds4KvstoreTouchFile e.path (h.hits + 1) r.now
                pure true
              else do
                let _ ← Prog.op (.unlink e.path)
                pure false
            else pure false

end Ds4.Kv
