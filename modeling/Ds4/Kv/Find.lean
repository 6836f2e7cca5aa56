import Ds4.Kv.StoreRun

/-!
# Finding what was stored

The lookup returns an entry of the longest text among those that pass its tests, and after a store
the text of the store is found, unless the file that stands for it has too few tokens.
-/

namespace Ds4.Kv
open C Files

/-! ## The best entry -/

/-- The entry passes the tests and is named by the hash of the prefix of the prompt of its length. -/
def Matches (kc : KvStore) (q : Lookup) (e : KvEntry) : Prop :=
  kvCacheUsable kc q e = true ∧ e.textBytes ≤ q.prompt.length ∧
    ds4KvstoreSha1BytesHex (q.prompt.take e.textBytes) = e.sha

/-- The best entry among those seen. -/
structure Best (kc : KvStore) (q : Lookup) (seen : List KvEntry) (best : Option KvEntry) : Prop where
  mem : ∀ b, best = some b → b ∈ seen ∧ Matches kc q b
  max : ∀ e ∈ seen, Matches kc q e → ∃ b, best = some b ∧ e.textBytes ≤ b.textBytes

/-- An entry that is passed over does not match or is no longer than the best one. -/
theorem Best.skip (h : Best kc q seen best)
    (he : Matches kc q e → ∃ b, best = some b ∧ e.textBytes ≤ b.textBytes) :
    Best kc q (seen ++ [e]) best := by
  refine ⟨fun b hb => ⟨List.mem_append_left _ (h.mem b hb).1, (h.mem b hb).2⟩, ?_⟩
  intro x hx hm
  rcases List.mem_append.1 hx with hx | hx
  · exact h.max x hx hm
  · rw [List.mem_singleton.1 hx] at hm ⊢
    exact he hm

theorem Best.step (h : Best kc q seen best) (e : KvEntry) :
    Best kc q (seen ++ [e]) (kvCacheBetter kc q best e) := by
  rw [kvCacheBetter]
  split
  · next hno =>
    refine h.skip fun hm => ?_
    rcases hno with hlong | huse
    · exact absurd hm.2.1 (Nat.not_le.2 hlong)
    · rw [hm.1] at huse
      cases huse
  · next hok =>
    rw [not_or, Bool.not_eq_false, Nat.not_lt] at hok
    split
    · next hany =>
      refine h.skip fun _ => ?_
      cases best with
      | none => cases hany
      | some b =>
        simp only [Option.any_some, decide_eq_true_eq] at hany
        exact ⟨b, rfl, by omega⟩
    · next hany =>
      split
      · next hsha =>
        refine ⟨?_, ?_⟩
        · rintro _ ⟨⟩
          exact ⟨List.mem_append_right _ List.mem_cons_self, hok.2, hok.1, hsha⟩
        · intro x hx hm
          refine ⟨e, rfl, ?_⟩
          rcases List.mem_append.1 hx with hx | hx
          · obtain ⟨b, rfl, hb⟩ := h.max x hx hm
            simp only [Option.any_some, decide_eq_true_eq, not_or] at hany
            omega
          · rw [List.mem_singleton.1 hx]
      · next hsha => exact h.skip fun hm => absurd hm.2.2 hsha

theorem Best.foldl (h : Best kc q seen best) (es : List KvEntry) :
    Best kc q (seen ++ es) (es.foldl (kvCacheBetter kc q) best) := by
  induction es generalizing seen best with
  | nil =>
    rw [List.append_nil]
    exact h
  | cons e es ih =>
    rw [List.foldl_cons, List.append_cons]
    exact ih (h.step e)

theorem Best.perm (h : Best kc q seen best) (hp : seen.Perm seen') : Best kc q seen' best :=
  ⟨fun b hb => ⟨hp.mem_iff.1 (h.mem b hb).1, (h.mem b hb).2⟩, fun e he => h.max e (hp.mem_iff.2 he)⟩

/-- A lookup. -/
theorem run_find {kc : KvStore} (hen : kc.enabled = true) (ls : Listing) (q : Lookup) (d : CacheDir) :
    ∃ best, (ds4KvstoreFindTextPrefix kc ls q).run d = (best, d) ∧ Best kc q (entries d) best := by
  refine ⟨_, by rw [ds4KvstoreFindTextPrefix, Prog.run_bind, run_kvCacheRefresh hen]; rfl, ?_⟩
  have hnil : Best kc q [] none := ⟨nofun, nofun⟩
  exact (hnil.foldl _).perm (refresh_perm ls d)

/-! ## The entry of a store -/

/-- The lookup of a prompt by whom stored. -/
def StoreRequest.lookup (r : StoreRequest) (prompt : Bytes) : Lookup :=
  ⟨prompt, r.modelId, r.quantBits, r.ctxSize⟩

/-- The number of tokens in the file that stands for the text after the store: of the file that is
kept, or of the new one. -/
def storedTokens (kc : KvStore) (r : StoreRequest) (d : CacheDir) : Nat :=
  if kept kc r d then
    (((d.get r.path).bind (ds4KvstoreReadEntryFile r.path r.sha)).map (·.tokens)).getD 0
  else r.storeTokens % 2 ^ 32

/-- The file has as many tokens as a lookup asks for. A file without tokens cannot be read. -/
def EnoughTokens (kc : KvStore) (r : StoreRequest) (d : CacheDir) : Prop :=
  storedTokens kc r d ≠ 0 ∧ kc.minTokens ≤ toInt32 (storedTokens kc r d)

theorem kvCacheUsable_lookup (kc : KvStore) (r : StoreRequest) (prompt : Bytes) (e : KvEntry) :
    kvCacheUsable kc (r.lookup prompt) e = true ↔
      kc.minTokens ≤ toInt32 e.tokens ∧ kvCacheSameKind kc r e = true := by
  simp only [kvCacheUsable, kvCacheSameKind, StoreRequest.lookup, Bool.and_eq_true, decide_eq_true_eq]
  constructor
  · rintro ⟨⟨⟨htokens, hmodel⟩, hctx⟩, hquant⟩
    exact ⟨htokens, ⟨hmodel, hquant⟩, of_decide_eq_true hctx⟩
  · rintro ⟨htokens, ⟨hmodel, hquant⟩, hctx⟩
    exact ⟨⟨⟨htokens, hmodel⟩, decide_eq_true hctx⟩, hquant⟩

theorem kept_entry {kc : KvStore} {r : StoreRequest} {d : CacheDir} (h : kept kc r d = true) :
    ∃ f e, d.get r.path = some f ∧ ds4KvstoreReadEntryFile r.path r.sha f = some e ∧
      kvCacheSameKind kc r e = true ∧ kvCacheFileTextMatches f r.sha r.text = true := by
  rw [kept] at h
  split at h
  · cases h
  · next f hget =>
    split at h
    · cases h
    · next e he =>
      obtain ⟨h1, h2⟩ := Bool.and_eq_true_iff.1 h
      exact ⟨f, e, hget, he, h1, h2⟩

theorem textMatches_textBytes (he : ds4KvstoreReadEntryFile path sha f = some e)
    (hm : kvCacheFileTextMatches f sha' text = true) : e.textBytes = text.length := by
  obtain ⟨-, -, -, hread, -, -⟩ := readEntryFile_some he
  simp only [kvCacheFileTextMatches, hread, Bool.and_eq_true, beq_iff_eq] at hm
  exact hm.1.1.1.2

theorem reasonCode_le (reason : Option String) :
    ds4KvstoreReasonCode reason ≤ reasonAgentSession := by
  unfold ds4KvstoreReasonCode
  split <;> decide

theorem StoreRequest.header_fits (r : StoreRequest) : r.header.Fits where
  modelId := Nat.mod_lt _ (by decide)
  quantBits := Nat.mod_lt _ (by decide)
  reason := reasonCode_le r.reason
  extFlags := by
    have hor (a b : Nat) (ha : a < 2 ^ 8) (hb : b < 2 ^ 8) : a ||| b < 256 ^ 1 := Nat.or_lt_two_pow ha hb
    refine hor _ _ ?_ (Nat.mod_lt _ (by decide))
    split
    · split
      · exact Nat.mod_lt _ (by decide)
      · decide
    · decide
  tokens := Nat.mod_lt _ (by decide)
  hits := Nat.pow_pos (by decide)
  ctxSize := Nat.mod_lt _ (by decide)
  createdAt := Nat.mod_lt _ (by decide)
  lastUsed := Nat.mod_lt _ (by decide)
  payloadBytes := Nat.mod_lt _ (by decide)

/-- The file that a store writes is an entry when it has tokens. -/
theorem readEntryFile_file {kc : KvStore} {r : StoreRequest} (hr : ¬ refused kc r)
    (hfits : r.fits kc = some n) :
    ds4KvstoreReadEntryFile r.path r.sha r.file =
      if r.storeTokens % 2 ^ 32 = 0 then none
      else some { r.header with
        sha := r.sha, path := r.path, textBytes := r.text.length, fileSize := r.file.length } := by
  have hsize : kvCacheFileSizeBytes r.text.length r.payloadBytes.length
      (Trailer.bytes r.trailer).length ≠ none := by
    intro h
    rw [StoreRequest.fits, ds4KvstoreFileSizeFits, h] at hfits
    cases hfits
  rw [kvCacheFileSizeBytes] at hsize
  simp only [ne_eq, ite_eq_left_iff, reduceCtorEq, imp_false, not_not, not_or, Nat.not_lt] at hsize
  have hpay : r.header.payloadBytes = r.payloadBytes.length := by
    apply Nat.mod_eq_of_lt
    have : uint64Max = 2 ^ 64 - 1 := rfl
    omega
  rw [refused] at hr
  simp only [not_or, not_and, Nat.not_lt, ne_eq, not_not] at hr
  have hmax : uint32Max = 256 ^ 4 - 1 := by decide
  have hquant : r.header.quantBits = 2 ∨ r.header.quantBits = 4 := by
    by_cases h2 : r.quantBits = 2
    · left
      rw [StoreRequest.header, h2]
    · right
      rw [StoreRequest.header, hr.2.2.1 h2]
  have hread : ds4KvstoreReadHeader r.file =
      if r.storeTokens % 2 ^ 32 = 0 then none else some (r.header, r.text.length) := by
    rw [StoreRequest.file, readHeader_fillHeader r.header_fits (by omega)]
    by_cases h0 : r.storeTokens % 2 ^ 32 = 0
    · rw [if_pos h0, if_neg]
      exact fun hlive => hlive.1 h0
    · rw [if_neg h0, if_pos]
      exact ⟨h0, hquant⟩
  rw [ds4KvstoreReadEntryFile, hread]
  by_cases h0 : r.storeTokens % 2 ^ 32 = 0
  · rw [if_pos h0, if_pos h0]
  · rw [if_neg h0, if_neg h0]
    simp only [hpay, r.length_file]
    rw [if_neg (by omega), if_neg (by omega)]

/-- The file of the text after a rewrite of its trailer. -/
theorem rewrite_entry {r : StoreRequest} {d : CacheDir} (hget : d.get r.path = some f)
    (he : ds4KvstoreReadEntryFile r.path r.sha f = some e) :
    ∃ f' e', ((kvCacheRewriteTrailer r.path r.trailer r.now).run d).2.get r.path = some f' ∧
      ds4KvstoreReadEntryFile r.path r.sha f' = some e' ∧ e'.textBytes = e.textBytes ∧
      e'.tokens = e.tokens ∧ e'.modelId = e.modelId ∧ e'.quantBits = e.quantBits ∧
      e'.ctxSize = e.ctxSize := by
  obtain ⟨-, -, -, hh, hlen, -⟩ := readEntryFile_some he
  cases ht : r.trailer with
  | none => exact ⟨f, e, hget, he, rfl, rfl, rfl, rfl, rfl⟩
  | some t =>
    rw [run_kvCacheRewriteTrailer hget hh hlen]
    split
    · exact ⟨f, e, hget, he, rfl, rfl, rfl, rfl, rfl⟩
    · exact ⟨_, _, Dir.get_put_self, readEntryFile_retrailed he t r.now, rfl, rfl, rfl, rfl, rfl⟩

section Store

variable {σ : Type} [LinearOrder σ] {kc : KvStore} {r : StoreRequest} {score : KvEntry → σ}
  {d : CacheDir}

/-- After a store that returns true, the file of the text is there, and it is an entry if and only if
it has tokens. -/
theorem stored_spec (h : ((ds4KvstoreStoreLivePrefixText kc r score).run d).1 = true) :
    kc.enabled = true ∧
    ∃ f, ((ds4KvstoreStoreLivePrefixText kc r score).run d).2.get r.path = some f ∧
      if storedTokens kc r d = 0 then ds4KvstoreReadEntryFile r.path r.sha f = none
      else ∃ e, ds4KvstoreReadEntryFile r.path r.sha f = some e ∧ e.textBytes = r.text.length ∧
        e.tokens = storedTokens kc r d ∧ kvCacheSameKind kc r e = true := by
  rw [run_store] at h ⊢
  split at h
  · cases h
  · next hr =>
    have hen : kc.enabled = true := by
      rw [refused, not_or, Bool.not_eq_false] at hr
      exact hr.1
    refine ⟨hen, ?_⟩
    rw [if_neg hr]
    cases hk : kept kc r d with
    | true =>
      obtain ⟨f, e, hget, he, hkind, htext⟩ := kept_entry hk
      have htokens : storedTokens kc r d = e.tokens := by
        rw [storedTokens, if_pos hk, hget, Option.bind_some, he]
        rfl
      obtain ⟨-, -, -, hread, -, -⟩ := readEntryFile_some he
      have hlive := (readHeader_some hread).2.1
      obtain ⟨f', e', hget', he', h1, h2, h3, h4, h5⟩ := rewrite_entry hget he
      refine ⟨f', hget', ?_⟩
      rw [htokens, if_neg hlive.1]
      refine ⟨e', he', h1.trans (textMatches_textBytes he htext), h2, ?_⟩
      rw [kvCacheSameKind, h3, h4, h5]
      exact hkind
    | false =>
      rw [hk] at h
      simp only [Bool.false_eq_true, if_false] at h ⊢
      split at h
      · next hp hfits =>
        refine ⟨r.file, Dir.get_put_self, ?_⟩
        rw [storedTokens, hk, readEntryFile_file hr hfits]
        simp only [Bool.false_eq_true, if_false]
        split
        · rfl
        · refine ⟨_, rfl, rfl, rfl, ?_⟩
          simp [kvCacheSameKind, StoreRequest.header]
      · cases h

theorem evict_subset (kc : KvStore) (ls : Listing) (score : KvEntry → σ) (extra : Nat) (d : CacheDir) :
    ∀ f ∈ ((ds4KvstoreEvict kc ls score extra).run d).2.files, f ∈ d.files := by
  by_cases hon : kc.enabled = false ∨ kc.budgetBytes = 0
  · rw [ds4KvstoreEvict, if_pos hon]
    exact fun f hf => hf
  · by_cases hextra : kc.budgetBytes < extra
    · rw [ds4KvstoreEvict, if_neg hon, if_pos hextra]
      exact fun f hf => hf
    · rw [not_or, Bool.not_eq_false] at hon
      obtain ⟨es, es', d', hrun, -, -, -, hgo⟩ :=
        run_ds4KvstoreEvict hon.1 hon.2 (Nat.not_lt.1 hextra) ls score d
      rw [hrun]
      exact hgo.subset

/-- The other files after a store were there before. -/
theorem mem_of_mem_store
    (h : g ∈ ((ds4KvstoreStoreLivePrefixText kc r score).run d).2.files) (hn : g.1 ≠ r.path) :
    g ∈ d.files := by
  have hdrop : ∀ f ∈ (dropIncompatible kc r d).files, f ∈ d.files := by
    intro f hf
    rw [dropIncompatible] at hf
    split at hf
    · exact (Dir.mem_erase.1 hf).1
    · exact hf
  rw [run_store] at h
  split at h
  · exact h
  · split at h
    · next hk =>
      obtain ⟨f, e, hget, he, -, -⟩ := kept_entry hk
      obtain ⟨-, -, -, hh, hlen, -⟩ := readEntryFile_some he
      cases ht : r.trailer with
      | none =>
        rw [ht] at h
        exact h
      | some t =>
        rw [ht, run_kvCacheRewriteTrailer hget hh hlen] at h
        split at h
        · exact h
        · rcases Dir.mem_put.1 h with h | rfl
          · exact h.1
          · exact absurd rfl hn
    · split at h
      · rcases Dir.mem_put.1 h with h | rfl
        · exact hdrop g (evict_subset kc _ score _ _ g (Dir.mem_erase.1 h.1).1)
        · exact absurd rfl hn
      · exact hdrop g h

/-! ## Store and find -/

/-- The text in a file. -/
def fileText (f : Bytes) (e : KvEntry) : Bytes := (f.drop (fixedHeader + 4)).take e.textBytes

/-- No text in the directory collides with a prefix of the prompt. -/
def NoCollision (d : CacheDir) (prompt : Bytes) : Prop :=
  ∀ f ∈ d.files, ∀ e, entryOf f = some e → ∀ n ≤ prompt.length,
    ds4KvstoreSha1BytesHex (fileText f.2 e) = ds4KvstoreSha1BytesHex (prompt.take n) →
      fileText f.2 e = prompt.take n

/-- An entry whose text hashes to its name. -/
def ValidEntry (d : CacheDir) (e : KvEntry) : Prop :=
  ∃ f ∈ d.files, entryOf f = some e ∧ ds4KvstoreSha1BytesHex (fileText f.2 e) = e.sha

/-- The lookup returns a usable entry that is named by the hash of a prefix of at least `k` bytes,
and no usable valid entry is named by the hash of a longer one. -/
def Finds (kc : KvStore) (d : CacheDir) (ls : Listing) (q : Lookup) (k : Nat) : Prop :=
  ∃ e n, ((ds4KvstoreFindTextPrefix kc ls q).run d).1 = some e ∧ e ∈ entries d ∧
    kvCacheUsable kc q e = true ∧ k ≤ n ∧ n ≤ q.prompt.length ∧
    e.sha = ds4KvstoreSha1BytesHex (q.prompt.take n) ∧
    (NoCollision d q.prompt → ∀ e', ValidEntry d e' → kvCacheUsable kc q e' = true →
      ∀ m ≤ q.prompt.length, n < m → e'.sha ≠ ds4KvstoreSha1BytesHex (q.prompt.take m))

theorem length_fileText (h : entryOf f = some e) : (fileText f.2 e).length = e.textBytes := by
  obtain ⟨-, -, -, -, hlen, -⟩ := readEntryFile_some (entryOf_some h).2
  rw [fileText, List.length_take, List.length_drop]
  omega

/-- A valid entry named by the hash of a prefix has the length of that prefix. -/
theorem ValidEntry.matches (h : ValidEntry d e) (hcoll : NoCollision d q.prompt)
    (huse : kvCacheUsable kc q e = true) (hm : m ≤ q.prompt.length)
    (hsha : e.sha = ds4KvstoreSha1BytesHex (q.prompt.take m)) : Matches kc q e ∧ e.textBytes = m := by
  obtain ⟨f, hf, he, hhash⟩ := h
  have htext := hcoll f hf e he m hm (hhash.trans hsha)
  have hlen := length_fileText he
  rw [htext, List.length_take, Nat.min_eq_left hm] at hlen
  refine ⟨⟨huse, hlen ▸ hm, ?_⟩, hlen.symm⟩
  rw [← hlen]
  exact hsha.symm

theorem finds_of_matches (hen : kc.enabled = true) (he : e ∈ entries d) (hm : Matches kc q e)
    (ls : Listing) : Finds kc d ls q e.textBytes := by
  obtain ⟨best, hrun, hbest⟩ := run_find hen ls q d
  obtain ⟨b, rfl, hle⟩ := hbest.max e he hm
  obtain ⟨hb, huse, hlen, hsha⟩ := hbest.mem b rfl
  refine ⟨b, b.textBytes, by rw [hrun], hb, huse, hle, hlen, hsha.symm, ?_⟩
  intro hcoll e' hv huse' m hm' hlt hsha'
  obtain ⟨hmatch, rfl⟩ := hv.matches hcoll huse' hm' hsha'
  obtain ⟨f, hf, hf', -⟩ := hv
  obtain ⟨b', hb', hle'⟩ := hbest.max e' (mem_entries.2 ⟨f, hf, hf'⟩) hmatch
  cases hb'
  omega

theorem store_then_find
    (h : ((ds4KvstoreStoreLivePrefixText kc r score).run d).1 = true) :
    (EnoughTokens kc r d → ∀ (prompt : Bytes) (ls : Listing), r.text <+: prompt →
      Finds kc ((ds4KvstoreStoreLivePrefixText kc r score).run d).2 ls (r.lookup prompt) r.text.length) ∧
    ((∀ e ∈ entries d, e.sha = r.sha → e.path = r.path) →
      (∀ (prompt : Bytes) (ls : Listing), r.text <+: prompt →
        Finds kc ((ds4KvstoreStoreLivePrefixText kc r score).run d).2 ls (r.lookup prompt) r.text.length) →
      EnoughTokens kc r d) := by
  obtain ⟨hen, f, hget, hstored⟩ := stored_spec h
  constructor
  · rintro ⟨hne, htokens⟩ prompt ls hprompt
    rw [if_neg hne] at hstored
    obtain ⟨e, he, htext, htok, hkind⟩ := hstored
    obtain ⟨hsha, -⟩ := readEntryFile_some he
    rw [← htext]
    apply finds_of_matches hen
    · exact mem_entries.2 ⟨_, Dir.get_eq_some.1 hget, (entryOf_path_eq r f).trans he⟩
    · refine ⟨(kvCacheUsable_lookup kc r prompt e).2 ⟨htok ▸ htokens, hkind⟩, ?_, ?_⟩
      · rw [htext]
        exact hprompt.length_le
      · rw [htext, hsha]
        exact congrArg _ (List.prefix_iff_eq_take.1 hprompt).symm
  · intro hone hall
    -- the only prefix of the text that is long enough is the text itself
    obtain ⟨e, n, -, hmem, huse, hk, hn, hsha, -⟩ := hall r.text .asIs (List.prefix_refl _)
    obtain rfl : n = r.text.length := Nat.le_antisymm hn hk
    have hsha : e.sha = r.sha := by
      rw [hsha]
      exact congrArg _ (List.take_length)
    obtain ⟨g, hg, he⟩ := mem_entries.1 hmem
    have hpath : g.1 = r.path := by
      by_contra hne
      have := hone e (mem_entries.2 ⟨g, mem_of_mem_store hg hne, he⟩) hsha
      exact hne ((entryOf_path he).symm.trans this)
    obtain ⟨n, c⟩ := g
    simp only at hpath
    subst hpath
    have := Dir.get_eq_some.2 hg
    rw [hget] at this
    cases this
    rw [entryOf_path_eq] at he
    split at hstored
    · rw [he] at hstored
      cases hstored
    · next hne =>
      obtain ⟨e', he', -, htok, -⟩ := hstored
      rw [he] at he'
      cases he'
      refine ⟨hne, ?_⟩
      rw [← htok]
      exact ((kvCacheUsable_lookup kc r r.text e).1 huse).1

end Store

/-- A store of a text of one byte. -/
def smallStore : StoreRequest where
  tokens := 1
  storeLen := 1
  live := true
  modelId := 0
  quantBits := 2
  ctxSize := 1
  reason := none
  text := lit "a"
  override := none
  trailer := none
  payload := some []
  now := 0
  pid := lit "1"
  listing := .asIs

/-- The directory after that store, from an empty one. -/
def smallDir : CacheDir :=
  ((ds4KvstoreStoreLivePrefixText ⟨true, 2 ^ 20, false, 0⟩ smallStore fun _ => 0).run .empty).2

theorem store_then_find_small :
    Finds ⟨true, 2 ^ 20, false, 0⟩ smallDir .asIs (smallStore.lookup (lit "ab")) 1 := by
  have h : ((ds4KvstoreStoreLivePrefixText ⟨true, 2 ^ 20, false, 0⟩ smallStore fun _ => 0).run .empty).1 =
      true := by decide +kernel
  have htokens : EnoughTokens ⟨true, 2 ^ 20, false, 0⟩ smallStore .empty := by
    constructor <;> decide +kernel
  exact (store_then_find h).1 htokens (lit "ab") .asIs ⟨lit "b", by decide⟩

/-- A lookup that asks for two tokens does not find the file of one token that the store kept. -/
theorem stored_not_found :
    ((ds4KvstoreStoreLivePrefixText ⟨true, 2 ^ 20, false, 2⟩
      { smallStore with tokens := 2, storeLen := 2 } fun _ => 0).run smallDir).1 = true ∧
    ((ds4KvstoreFindTextPrefix ⟨true, 2 ^ 20, false, 2⟩ .asIs (smallStore.lookup (lit "a"))).run
      ((ds4KvstoreStoreLivePrefixText ⟨true, 2 ^ 20, false, 2⟩
        { smallStore with tokens := 2, storeLen := 2 } fun _ => 0).run smallDir).2).1 = none := by
  constructor <;> decide +kernel

end Ds4.Kv
