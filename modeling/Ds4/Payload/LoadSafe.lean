import Ds4.Payload.Load

/-!
# What a failed load leaves

A loader goes through three parts: it reads without touching the session, it reads the logits into the
session, and it restores the rows after the session has been marked as not valid. The first two are
described by what is in the file: whether the loader gets to the logits, and whether it gets from there
to the rows.
-/

namespace Ds4.Payload
open C ErrorState

variable {ι K : Type} {s : Io ι K} {n : Nat} {f : Bytes} {p : Nat}

namespace Io

/-- Whether bytes are there: the payload has them and the file has them. -/
def There (s : Io ι K) (n : Nat) : Prop := n ≤ s.remaining ∧ n ≤ s.file.length

/-- Nothing but the position in the file has changed. -/
structure SameSession (s t : Io ι K) : Prop where
  session : t.session = s.session
  overrun : t.overrun = s.overrun

theorem SameSession.refl (s : Io ι K) : SameSession s s := ⟨rfl, rfl⟩

theorem SameSession.trans {s t u : Io ι K} (h : SameSession s t) (h' : SameSession t u) :
    SameSession s u := ⟨h'.session.trans h.session, h'.overrun.trans h.overrun⟩

theorem sameSession_consume (s : Io ι K) (n : Nat) : SameSession s (s.consume n) := ⟨rfl, rfl⟩

@[simp] theorem file_consume (s : Io ι K) (n : Nat) : (s.consume n).file = s.file.drop n := rfl

@[simp] theorem remaining_consume (s : Io ι K) (n : Nat) :
    (s.consume n).remaining = s.remaining - n := rfl

@[simp] theorem session_consume (s : Io ι K) (n : Nat) : (s.consume n).session = s.session := rfl

@[simp] theorem consume_consume (s : Io ι K) (n k : Nat) :
    (s.consume n).consume k = s.consume (n + k) := by
  rw [consume, consume, advance, advance, consume, advance, List.drop_drop, Nat.sub_sub]

@[simp] theorem consume_zero (s : Io ι K) : s.consume 0 = s := rfl

theorem there_consume_iff {k : Nat} (h : s.There n) : (s.consume n).There k ↔ s.There (n + k) := by
  obtain ⟨hr, hf⟩ := h
  rw [There, There, remaining_consume, file_consume, List.length_drop]
  omega

theorem There.of_le {k : Nat} (h : s.There n) (hk : k ≤ n) : s.There k :=
  ⟨hk.trans h.1, hk.trans h.2⟩

end Io

open Io

section Words

theorem ends_readInto (n : Nat) (store : Bytes → Io ι K → Io ι K) (s : Io ι K) :
    Ends (payloadReadInto n store) s
      (fun b t => s.There n ∧ b = s.file.take n ∧ t = store b (s.consume n))
      (fun t => (s.remaining < n ∧ t = s) ∨
        (n ≤ s.remaining ∧ s.file.length < n ∧ t = store (s.file.take n) (s.advance n))) := by
  rw [Ends, payloadReadInto]
  by_cases hr : s.remaining < n
  · rw [if_pos hr]
    exact .inl ⟨hr, rfl⟩
  · rw [if_neg hr]
    by_cases hf : (s.file.take n).length < n
    · simp only [if_pos hf]
      rw [List.length_take] at hf
      exact .inr ⟨by omega, by omega, trivial⟩
    · simp only [if_neg hf]
      rw [List.length_take] at hf
      exact ⟨⟨by omega, by omega⟩, trivial, trivial⟩

theorem ends_readBytes (n : Nat) (s : Io ι K) :
    Ends (payloadReadBytes n) s (fun b t => s.There n ∧ b = s.file.take n ∧ t = s.consume n)
      (fun t => ¬s.There n ∧ SameSession s t) := by
  refine (ends_readInto n _ s).mono (fun _ _ h => h) ?_
  rintro t (⟨hr, rfl⟩ | ⟨_, hf, rfl⟩)
  · exact ⟨fun h => absurd h.1 (by omega), .refl _⟩
  · exact ⟨fun h => absurd h.2 (by omega), ⟨rfl, rfl⟩⟩

theorem ends_readU32 (s : Io ι K) :
    Ends payloadReadU32 s (fun w t => s.There 4 ∧ w = leGet (s.file.take 4) ∧ t = s.consume 4)
      (fun t => ¬s.There 4 ∧ SameSession s t) := by
  refine (ends_readBytes 4 s).bind ?_
  rintro _ _ ⟨h, rfl, rfl⟩
  exact .pure ⟨h, rfl, rfl⟩

theorem ends_readWords (n : Nat) (s : Io ι K) :
    Ends (readWords n) s
      (fun ws t => s.There (4 * n) ∧ ws = leGets 4 n s.file ∧ t = s.consume (4 * n))
      (fun t => ¬s.There (4 * n) ∧ SameSession s t) := by
  induction n generalizing s with
  | zero => exact ⟨⟨Nat.zero_le _, Nat.zero_le _⟩, rfl, rfl⟩
  | succ n ih =>
    have h4 : 4 + 4 * n = 4 * (n + 1) := by omega
    refine ((ends_readU32 s).mono (fun _ _ h => h) fun t h => ⟨fun h' => h.1 (h'.of_le (by omega)),
      h.2⟩).bind ?_
    rintro _ _ ⟨hw, rfl, rfl⟩
    refine ((ih (s.consume 4)).mono (fun _ _ h => h) ?_).bind ?_
    · rintro t ⟨ht, hsame⟩
      rw [there_consume_iff hw, h4] at ht
      exact ⟨ht, (sameSession_consume s 4).trans hsame⟩
    · rintro _ _ ⟨ht, rfl, rfl⟩
      rw [there_consume_iff hw, h4] at ht
      exact .pure ⟨ht, rfl, by rw [consume_consume, h4]⟩

/-- The counts of some layers are all allowed. -/
def AllOk (ok : Nat → Nat → Bool) (ls ns : List Nat) : Prop := ∀ q ∈ ls.zip ns, ok q.1 q.2 = true

theorem allOk_cons {ok : Nat → Nat → Bool} {il n : Nat} {ls ns : List Nat} :
    AllOk ok (il :: ls) (n :: ns) ↔ ok il n = true ∧ AllOk ok ls ns := by
  rw [AllOk, List.zip_cons_cons, List.forall_mem_cons]
  rfl

/-- The counts of consecutive layers, one by one. -/
theorem AllOk.getD {ok : Nat → Nat → Bool} {first n : Nat} {ns : List Nat}
    (h : AllOk ok (List.range' first n) ns) (hlen : ns.length = n) {i : Nat} (hi : i < n) :
    ok (first + i) (ns.getD i 0) = true := by
  have hz : i < ((List.range' first n).zip ns).length := by
    rw [List.length_zip, List.length_range', hlen, Nat.min_self]
    exact hi
  have hq := h _ (List.getElem_mem hz)
  rw [List.getElem_zip, List.getElem_range', Nat.one_mul] at hq
  rwa [List.getD_eq_getElem?_getD, List.getElem?_eq_getElem (hlen ▸ hi), Option.getD_some]

theorem ends_readRowCounts (ok : Nat → Nat → Bool) (e : String) (ls : List Nat) (s : Io ι K) :
    Ends (readRowCounts ok e ls) s
      (fun ns t => (s.There (4 * ls.length) ∧ AllOk ok ls (leGets 4 ls.length s.file)) ∧
        ns = leGets 4 ls.length s.file ∧ t = s.consume (4 * ls.length))
      (fun t => ¬(s.There (4 * ls.length) ∧ AllOk ok ls (leGets 4 ls.length s.file)) ∧
        SameSession s t) := by
  induction ls generalizing s with
  | nil => exact ⟨⟨⟨Nat.zero_le _, Nat.zero_le _⟩, fun _ hq => nomatch hq⟩, rfl, rfl⟩
  | cons il ls ih =>
    have h4 : 4 + 4 * ls.length = 4 * (il :: ls).length := by
      rw [List.length_cons]
      omega
    refine ((ends_readU32 s).mono (fun _ _ h => h) fun t h =>
      ⟨fun h' => h.1 (h'.1.of_le (by omega)), h.2⟩).bind ?_
    rintro _ _ ⟨hw, rfl, rfl⟩
    refine .orThrow_bind (fun hok => ?_) fun hbad => ⟨fun h' => ?_, sameSession_consume s 4⟩
    · refine ((ih (s.consume 4)).mono (fun _ _ h => h) ?_).bind ?_
      · rintro t ⟨ht, hsame⟩
        rw [there_consume_iff hw, h4] at ht
        exact ⟨fun h => ht ⟨h.1, (allOk_cons.mp h.2).2⟩, (sameSession_consume s 4).trans hsame⟩
      · rintro _ _ ⟨⟨ht, hall⟩, rfl, rfl⟩
        rw [there_consume_iff hw, h4] at ht
        exact .pure ⟨⟨ht, allOk_cons.mpr ⟨hok, hall⟩⟩, rfl, by rw [consume_consume, h4]⟩
    · have hhead := (allOk_cons.mp h'.2).1
      rw [hbad] at hhead
      exact Bool.false_ne_true hhead

theorem ends_gpuCall (e : String) (s : Io ι K) :
    Ends (gpuCall e) s
      (fun _ t => s.device.head? ≠ some false ∧ t = { s with device := s.device.tail })
      (fun t => s.device.head? = some false ∧ t = { s with device := s.device.tail }) := by
  rw [Ends, gpuCall]
  by_cases h : s.device.head? = some false
  · simp only [if_pos h]
    exact ⟨h, trivial⟩
  · simp only [if_neg h]
    exact ⟨h, trivial⟩

end Words

/-- The bytes up to some position have been read, and nothing else has happened. -/
structure Io.Reads (s t : Io ι K) (n : Nat) : Prop where
  same : SameSession s t
  file : t.file = s.file.drop n
  remaining : t.remaining = s.remaining - n

theorem Io.reads_consume (s : Io ι K) (n : Nat) : Reads s (s.consume n) n :=
  ⟨sameSession_consume s n, rfl, rfl⟩

theorem ends_synchronize (e : Option String) (s : Io ι K) :
    Ends (synchronize e) s
      (fun _ t => (e = none ∨ s.device.head? ≠ some false) ∧ Reads s t 0)
      (fun t => ¬(e = none ∨ s.device.head? ≠ some false) ∧ SameSession s t) := by
  cases e with
  | none => exact ⟨.inl rfl, .refl s, rfl, rfl⟩
  | some e =>
    refine (ends_gpuCall e s).mono ?_ ?_
    · rintro _ _ ⟨h, rfl⟩
      exact ⟨.inr h, ⟨rfl, rfl⟩, rfl, rfl⟩
    · rintro _ ⟨h, rfl⟩
      exact ⟨fun h' => h'.elim (fun h' => nomatch h') fun h' => h' h, rfl, rfl⟩

namespace Restore
variable (r : Restore ι K) (x : Session ι K) (l : KvLayout)

/-- The counts are there and allowed, and the accelerator is ready. -/
structure CountsFine (s : Io ι K) : Prop where
  there : s.There (4 * r.count + 4 * r.count)
  comp : AllOk (r.compOk x l) r.layers (leGets 4 r.count s.file)
  index : AllOk (r.indexOk x l) r.layers (leGets 4 r.count (s.file.drop (4 * r.count)))
  sync : r.syncBefore = none ∨ s.device.head? ≠ some false

variable {r x l} in
theorem CountsFine.congr {s t : Io ι K} (h : r.CountsFine x l s) (hf : t.file = s.file)
    (hr : t.remaining = s.remaining) (hd : t.device = s.device) : r.CountsFine x l t where
  there := by
    rw [There, hf, hr]
    exact h.there
  comp := by
    rw [hf]
    exact h.comp
  index := by
    rw [hf]
    exact h.index
  sync := by
    rw [hd]
    exact h.sync

/-- The counts as they stand in the file. -/
def countsIn (t : Bytes) : List Nat × List Nat :=
  (leGets 4 r.count t, leGets 4 r.count (t.drop (4 * r.count)))

theorem ends_readCounts (s : Io ι K) :
    Ends (r.readCounts x l) s
      (fun c t => r.CountsFine x l s ∧ c = r.countsIn s.file ∧ Reads s t (4 * r.count + 4 * r.count))
      (fun t => ¬r.CountsFine x l s ∧ SameSession s t) := by
  have hlen : r.layers.length = r.count := List.length_range'
  have hcomp := ends_readRowCounts (r.compOk x l) r.compError r.layers s
  rw [hlen] at hcomp
  refine (hcomp.mono (fun _ _ h => h) fun t h =>
    ⟨fun h' => h.1 ⟨h'.there.of_le (by omega), h'.comp⟩, h.2⟩).bind ?_
  rintro _ _ ⟨⟨ht, hc⟩, rfl, rfl⟩
  have hindex := ends_readRowCounts (r.indexOk x l) r.indexError r.layers (s.consume (4 * r.count))
  rw [hlen] at hindex
  refine (hindex.mono (fun _ _ h => h) ?_).bind ?_
  · rintro t ⟨hn, hs⟩
    exact ⟨fun h' => hn ⟨(there_consume_iff ht).mpr h'.there, h'.index⟩, hs.session, hs.overrun⟩
  rintro _ _ ⟨⟨ht', hi⟩, rfl, rfl⟩
  refine ((ends_synchronize r.syncBefore _).mono (fun _ _ h => h) fun t h =>
    ⟨fun h' => h.1 h'.sync, ⟨h.2.session, h.2.overrun⟩⟩).bind ?_
  rintro _ t ⟨hs, hread⟩
  refine .pure ⟨⟨(there_consume_iff ht).mp ht', hc, hi, hs⟩, rfl, ⟨hread.same.session,
    hread.same.overrun⟩, ?_, ?_⟩
  · rw [hread.file, consume_consume, List.drop_zero]
    rfl
  · rw [hread.remaining, consume_consume, Nat.sub_zero]
    rfl

theorem readRows_ends (tokens : List UInt32) (u : Io ι K) {Q : Unit → Io ι K → Prop}
    {E : Io ι K → Prop}
    (hrows : r.CountsFine x l u → ∀ t, Reads u t (4 * r.count + 4 * r.count) →
      Ends (r.restoreRows l tokens (rowsAt r.start (r.countsIn u.file).1)
        (rowsAt r.start (r.countsIn u.file).2)) t Q E) :
    Ends (r.readRows x l tokens) u (fun a t => r.CountsFine x l u ∧ Q a t)
      (fun t => ¬r.CountsFine x l u ∧ SameSession u t ∨ r.CountsFine x l u ∧ E t) := by
  refine ((r.ends_readCounts x l u).mono (fun _ _ h => h) fun t h => .inl h).bind ?_
  rintro _ t ⟨hfine, rfl, hread⟩
  exact (hrows hfine t hread).mono (fun _ _ h => ⟨hfine, h⟩) fun _ h => .inr ⟨hfine, h⟩

end Restore

/-- A load begins. -/
def start (x : Session ι K) (f : Bytes) (p : Nat) (d : List Bool) : Io ι K := ⟨x, f, p, d, false⟩

def headerOf (f : Bytes) : List Nat := leGets 4 sessionPayloadFields f

def layoutOf (f : Bytes) : KvLayout := .ofSessionWords (headerOf f)

/-- Where the logits stand in a payload, and where the row counts. -/
def logitsAt (f : Bytes) : Nat := 4 * sessionPayloadFields + 4 * (layoutOf f).tokenCount

def countsAt (sh : Shape) (f : Bytes) : Nat := logitsAt f + sh.nVocab * 4

section Whole
variable (sh : Shape) (r : Restore ι K) (x : Session ι K) (f : Bytes) (p : Nat) (d : List Bool)

/-- The header and the tokens are accepted, and the payload has logits behind them. -/
structure GetsToLogits : Prop where
  there : 4 * sessionPayloadFields ≤ p ∧ 4 * sessionPayloadFields ≤ f.length
  magic : ((headerOf f).getD 0 0 == sessionPayloadMagic &&
    (headerOf f).getD 1 0 == sessionPayloadVersion) = true
  accepted : r.check x (layoutOf f) = .ok ()
  tokens : logitsAt f ≤ f.length
  logits : countsAt sh f ≤ p

/-- The logits and the counts of rows are complete, and the counts are allowed. -/
structure GetsToRows : Prop where
  logits : countsAt sh f ≤ f.length
  counts : r.CountsFine x (layoutOf f)
    ⟨x, f.drop (countsAt sh f), p - countsAt sh f, d, false⟩

/-- The session with the logits that are in the file. -/
def withLogits : Session ι K :=
  { x with logits := overwrite x.logits 0 (span f (logitsAt f) (sh.nVocab * 4)) }

/-- The three ways a load goes. -/
theorem loadPayload_ends {Q : Unit → Io ι K → Prop} {E : Io ι K → Prop}
    (hrows : GetsToLogits sh r x f p → GetsToRows sh r x f p d → ∀ t : Io ι K,
      t.session = withLogits sh x f → t.overrun = false →
      t.file = f.drop (countsAt sh f + (4 * r.count + 4 * r.count)) →
      t.remaining = p - (countsAt sh f + (4 * r.count + 4 * r.count)) →
      Ends (r.restoreRows (layoutOf f)
        ((leGets 4 (layoutOf f).tokenCount (f.drop (4 * sessionPayloadFields))).map .ofNat)
        (rowsAt r.start (r.countsIn (f.drop (countsAt sh f))).1)
        (rowsAt r.start (r.countsIn (f.drop (countsAt sh f))).2)) t Q E) :
    Ends (loadPayload sh r) (start x f p d)
      (fun a t => GetsToLogits sh r x f p ∧ GetsToRows sh r x f p d ∧ Q a t)
      (fun t => t.overrun = false ∧ t.session = x ∧ ¬GetsToLogits sh r x f p ∨
        t.overrun = false ∧ t.session = withLogits sh x f ∧ GetsToLogits sh r x f p ∧
          ¬GetsToRows sh r x f p d ∨
        GetsToLogits sh r x f p ∧ GetsToRows sh r x f p d ∧ E t) := by
  have early : ∀ {t : Io ι K}, SameSession (start x f p d) t → ¬GetsToLogits sh r x f p →
      t.overrun = false ∧ t.session = x ∧ ¬GetsToLogits sh r x f p ∨
        t.overrun = false ∧ t.session = withLogits sh x f ∧ GetsToLogits sh r x f p ∧
          ¬GetsToRows sh r x f p d ∨
        GetsToLogits sh r x f p ∧ GetsToRows sh r x f p d ∧ E t :=
    fun hs hn => .inl ⟨hs.overrun, hs.session, hn⟩
  refine ((ends_readWords sessionPayloadFields _).mono (fun _ _ h => h) ?_).bind ?_
  · rintro t ⟨hn, hs⟩
    exact early hs fun h => hn h.there
  rintro _ _ ⟨hwords, rfl, rfl⟩
  refine .orThrow_bind (fun hmagic => .get_bind (.ofExcept_bind (fun _ haccepted => ?_) ?_)) ?_
  rotate_left
  · exact fun e h => early ⟨rfl, rfl⟩ fun h' => nomatch h.symm.trans h'.accepted
  · exact fun h => early ⟨rfl, rfl⟩ fun h' => Bool.false_ne_true (h.symm.trans h'.magic)
  refine ((ends_readWords (layoutOf f).tokenCount _).mono (fun _ _ h => h) ?_).bind ?_
  · rintro t ⟨hn, hs⟩
    refine early ⟨hs.session, hs.overrun⟩ fun h => hn ((there_consume_iff hwords).mpr ⟨?_, h.tokens⟩)
    exact (Nat.le_add_right _ _).trans h.logits
  rintro _ _ ⟨htokens, rfl, rfl⟩
  rw [there_consume_iff hwords] at htokens
  have hgets : GetsToLogits sh r x f p ↔ countsAt sh f ≤ p :=
    ⟨fun h => h.logits, fun h => ⟨hwords, hmagic, haccepted, htokens.2, h⟩⟩
  rw [consume_consume]
  refine ((ends_readInto (sh.nVocab * 4) storeLogits _).mono (fun _ _ h => h) ?_).bind ?_
  · rintro _ (⟨hr, rfl⟩ | ⟨hr, hf, rfl⟩)
    · refine early ⟨rfl, rfl⟩ fun h => ?_
      have h' : logitsAt f + sh.nVocab * 4 ≤ p := h.logits
      have hr' : p - logitsAt f < sh.nVocab * 4 := hr
      omega
    · have hr' : sh.nVocab * 4 ≤ p - logitsAt f := hr
      have hp : logitsAt f ≤ p := htokens.1
      have hf' : (f.drop (logitsAt f)).length < sh.nVocab * 4 := hf
      have hget : logitsAt f + sh.nVocab * 4 ≤ p := by omega
      rw [List.length_drop] at hf'
      refine .inr (.inl ⟨rfl, rfl, hgets.mpr hget, fun h => ?_⟩)
      have hlogits : logitsAt f + sh.nVocab * 4 ≤ f.length := h.logits
      omega
  rintro _ _ ⟨hlogits, rfl, rfl⟩
  rw [there_consume_iff htokens] at hlogits
  have hl : GetsToLogits sh r x f p := hgets.mpr hlogits.1
  obtain ⟨u, hu⟩ : ∃ u, u = storeLogits
      (((start x f p d).consume (logitsAt f)).file.take (sh.nVocab * 4))
      (((start x f p d).consume (logitsAt f)).consume (sh.nVocab * 4)) := ⟨_, rfl⟩
  have hfile : u.file = f.drop (countsAt sh f) := by
    rw [hu]
    exact List.drop_drop
  have hrem : u.remaining = p - countsAt sh f := by
    rw [hu]
    exact Nat.sub_sub _ _ _
  have hsession : u.session = withLogits sh x f := by
    rw [hu]
    rfl
  have hover : u.overrun = false := by
    rw [hu]
    rfl
  have hdevice : u.device = d := by
    rw [hu]
    rfl
  have hcounts : r.CountsFine x (layoutOf f) u ↔ GetsToRows sh r x f p d :=
    ⟨fun h => ⟨hlogits.2, h.congr hfile.symm hrem.symm hdevice.symm⟩,
      fun h => h.counts.congr hfile hrem hdevice⟩
  have hread := r.readRows_ends x (layoutOf f)
    ((leGets 4 (layoutOf f).tokenCount (f.drop (4 * sessionPayloadFields))).map .ofNat) u
    (Q := Q) (E := E) fun hfine t ht => by
      rw [hfile]
      refine hrows hl (hcounts.mp hfine) t (ht.same.session.trans hsession)
        (ht.same.overrun.trans hover) ?_ ?_
      · rw [ht.file, hfile, List.drop_drop]
      · rw [ht.remaining, hrem, Nat.sub_sub]
  rw [hu] at hread hcounts hsession hover
  refine hread.mono (fun _ _ h => ⟨hl, hcounts.mp h.1, h.2⟩) ?_
  rintro t (⟨hn, hs⟩ | ⟨hfine, hE⟩)
  · exact .inr (.inl ⟨hs.overrun.trans hover, hs.session.trans hsession, hl,
      fun h => hn (hcounts.mpr h)⟩)
  · exact .inr (.inr ⟨hl, hcounts.mp hfine, hE⟩)

end Whole

/-- The session is marked as not valid and nothing has gone past the end of an array. -/
structure Io.Dropped (t : Io ι K) : Prop where
  invalid : t.session.checkpointValid = false
  inside : t.overrun = false

/-- So much of the payload has been read as is not left of it. -/
structure Io.Restoring (f : Bytes) (p : Nat) (t : Io ι K) : Prop extends Io.Dropped t where
  remaining : t.remaining ≤ p
  present : p - t.remaining ≤ f.length
  file : t.file = f.drop (p - t.remaining)

theorem Io.Restoring.consume (h : Restoring f p s) (ht : s.There n) : Restoring f p (s.consume n) := by
  obtain ⟨hr, hf⟩ := ht
  have hle := h.remaining
  have hp := h.present
  have hpos : p - (s.remaining - n) = p - s.remaining + n := by omega
  rw [h.file, List.length_drop] at hf
  refine ⟨⟨h.invalid, h.inside⟩, (Nat.sub_le _ _).trans hle, ?_, ?_⟩
  · rw [remaining_consume, hpos]
    omega
  · rw [file_consume, remaining_consume, h.file, List.drop_drop, hpos]

theorem Io.SameSession.dropped {s t : Io ι K} (h : SameSession s t) (hs : Dropped s) : Dropped t where
  invalid := (congrArg Session.checkpointValid h.session).trans hs.invalid
  inside := h.overrun.trans hs.inside

theorem ends_skipBytes (h : Restoring f p s) (n : Nat) :
    Ends (payloadSkipBytes n) s (fun _ t => Restoring f p t) Dropped := by
  have hdrop : Dropped s := ⟨h.invalid, h.inside⟩
  rw [Ends, payloadSkipBytes]
  by_cases hr : s.remaining < n
  · rw [if_pos hr]
    exact hdrop
  · rw [if_neg hr]
    by_cases hf : s.file.length < n
    · rw [if_pos hf]
      exact ⟨h.invalid, h.inside⟩
    · rw [if_neg hf]
      exact h.consume ⟨Nat.le_of_not_lt hr, Nat.le_of_not_lt hf⟩

section Accelerator
variable [DecidableEq ι] {key : ι} {il off u w : Nat} {a b : Bytes}

/-- A copy that fits replaces a part of the array. -/
theorem Io.copyTo_of_fits (ha : s.session.caches.array key il = some a) (hb : off + b.length ≤ a.length) :
    s.copyTo key il off b = { s with session := s.session.setArray key il (overwrite a off b) } := by
  have htake : b.take (a.length - off) = b := List.take_of_length_le (by omega)
  have hdec : decide (a.length < off + b.length) = false := decide_eq_false (by omega)
  rw [copyTo, ha]
  dsimp only
  rw [htake, hdec, Bool.or_false]

theorem Session.array_setArray (x : Session ι K) (key : ι) (il : Nat) (b : Bytes) :
    (x.setArray key il b).caches.array key il = some b := by
  rw [setArray, mapCaches]
  exact if_pos ⟨rfl, rfl⟩

theorem ends_gpuTensorWrite (e : String) (h : Restoring f p s)
    (ha : s.session.caches.array key il = some a) (hb : off + b.length ≤ a.length) :
    Ends (gpuTensorWrite key il off b e) s
      (fun _ t => Restoring f p t ∧ t.session.caches.array key il = some (overwrite a off b))
      Dropped := by
  refine ((ends_gpuCall e s).mono (fun _ _ h => h) ?_).bind ?_
  · rintro _ ⟨-, rfl⟩
    exact ⟨h.invalid, h.inside⟩
  rintro _ _ ⟨-, rfl⟩
  refine .modify ?_
  rw [Io.copyTo_of_fits (s := { s with device := s.device.tail }) ha hb]
  exact ⟨⟨⟨h.invalid, h.inside⟩, h.remaining, h.present, h.file⟩, Session.array_setArray ..⟩

theorem ends_readPieces {convert : Nat → Bytes → Bytes} (e : String)
    (hconvert : ∀ n b, b.length = u * n → (convert n b).length = w * n) (ns : List Nat)
    (h : Restoring f p s) (ha : s.session.caches.array key il = some a)
    (hfits : off + w * ns.sum ≤ a.length) :
    Ends (readPieces u w convert key il e off ns) s (fun _ t => Restoring f p t) Dropped := by
  induction ns generalizing s off a with
  | nil => exact h
  | cons n ns ih =>
    rw [List.sum_cons, Nat.mul_add] at hfits
    refine ((ends_readBytes (u * n) s).mono (fun _ _ h => h) fun t ht =>
      ht.2.dropped ⟨h.invalid, h.inside⟩).bind ?_
    rintro _ _ ⟨ht, rfl, rfl⟩
    have hlen : (convert n (s.file.take (u * n))).length = w * n :=
      hconvert n _ (by rw [List.length_take, Nat.min_eq_left ht.2])
    have hb : off + (convert n (s.file.take (u * n))).length ≤ a.length := by
      rw [hlen]
      omega
    refine (ends_gpuTensorWrite e (h.consume ht) ha hb).bind fun _ t ⟨hrest, ha'⟩ => ?_
    refine ih hrest ha' ?_
    rw [length_overwrite hb]
    omega

omit [DecidableEq ι] in
theorem Io.holds_iff : s.holds key il off n = true ↔
    ∃ a, s.session.caches.array key il = some a ∧ off + n ≤ a.length := by
  rw [holds]
  cases s.session.caches.array key il with
  | none =>
    refine ⟨fun h => absurd h Bool.false_ne_true, ?_⟩
    rintro ⟨_, h, _⟩
    exact nomatch h
  | some a =>
    dsimp only
    rw [Bool.and_eq_true, decide_eq_true_iff, decide_eq_true_iff]
    refine ⟨fun h => ⟨a, rfl, by omega⟩, ?_⟩
    rintro ⟨_, ha, h⟩
    cases ha
    omega

theorem ends_readTensorSpan (h : Restoring f p s) (bytes : Nat) :
    Ends (payloadReadTensorSpan key il off bytes) s (fun _ t => Restoring f p t) Dropped := by
  refine .get_bind (.orThrow_bind (fun hholds => ?_) fun _ => ⟨h.invalid, h.inside⟩)
  obtain ⟨a, ha, hfits⟩ := Io.holds_iff.mp hholds
  refine ends_readPieces _ (fun n b hb => hb) _ h ha ?_
  rw [sum_chunkSizes, Nat.one_mul]
  exact hfits

theorem ends_readTensorSpanF32AsF16 (pf : Platform) (h : Restoring f p s) (count : Nat) :
    Ends (payloadReadTensorSpanF32AsF16 pf key il off count) s (fun _ t => Restoring f p t)
      Dropped := by
  refine .get_bind (.orThrow_bind (fun hholds => ?_) fun _ => ⟨h.invalid, h.inside⟩)
  obtain ⟨a, ha, hfits⟩ := Io.holds_iff.mp hholds
  refine ends_readPieces _ (fun n b _ => pf.length_narrowAll n b) _ h ha ?_
  rw [sum_chunkSizes]
  exact hfits

/-- Whatever a payload has in it, a span is read into its tensor. -/
theorem ends_readSpan (pf : Platform) (sp : Span ι) (h : Restoring f p s) :
    Ends (readSpan pf sp) s (fun _ t => Restoring f p t) Dropped := by
  rw [readSpan]
  cases sp.kind with
  | floats => exact ends_readTensorSpan h _
  | halves => exact ends_readTensorSpanF32AsF16 pf h _
  | fullKv =>
    refine .get_bind ?_
    split
    · exact .pure h
    · split
      · exact ends_readTensorSpanF32AsF16 pf h _
      · exact ends_skipBytes h _

theorem ends_readSpans (pf : Platform) (sps : List (Span ι)) (h : Restoring f p s) :
    Ends (sps.forM (readSpan pf)) s (fun _ t => Restoring f p t) Dropped :=
  .forM h fun sp _ _ ht => ends_readSpan pf sp ht

end Accelerator

/-- A load leaves a session that is not valid or as it was, or it has read the whole payload; and
nothing goes past the end of an array. -/
def SafeLoad (load : Load ι K Unit) (x : Session ι K) (f : Bytes) (p : Nat) (d : List Bool) : Prop :=
  Ends load (start x f p d)
    (fun _ t => (p ≤ f.length ∧ t.file = f.drop p) ∧ t.overrun = false)
    (fun t => (t.session.checkpointValid = false ∨ t.session = x) ∧ t.overrun = false)

/-- The logits that a load finds do no harm: the session is not valid anyhow, they are not read, they
are those of the session, or the load gets to where it marks the session as not valid. -/
def KeepsLogits (sh : Shape) (r : Restore ι K) (x : Session ι K) (f : Bytes) (p : Nat)
    (d : List Bool) : Prop :=
  x.checkpointValid = false ∨ ¬GetsToLogits sh r x f p ∨ withLogits sh x f = x ∨
    GetsToRows sh r x f p d

namespace Restore

/-- A loader that stays inside the arrays from the invalidation on. -/
structure Bounded (r : Restore ι K) : Prop where
  reset : ∀ x, (r.reset x).checkpointValid = x.checkpointValid
  layer : ∀ {f p} {s : Io ι K} l nComp nIndexComp il, Restoring f p s →
    Ends (r.restoreLayer l nComp nIndexComp il) s (fun _ t => Restoring f p t) Dropped

theorem Bounded.restoreRows {r : Restore ι K} (h : r.Bounded) {t : Io ι K} {pos : Nat}
    (hp : pos ≤ p) (hf : pos ≤ f.length) (hover : t.overrun = false) (hfile : t.file = f.drop pos)
    (hrem : t.remaining = p - pos) (l : KvLayout) (tokens : List UInt32)
    (nComp nIndexComp : Nat → Nat) :
    Ends (r.restoreRows l tokens nComp nIndexComp) t
      (fun _ u => (p ≤ f.length ∧ u.file = f.drop p) ∧ u.overrun = false) Dropped := by
  have hpos : p - (p - pos) = pos := by omega
  refine Ends.bind (R := fun _ u => Restoring f p u) (.modify ?_) fun _ u hu => ?_
  · refine ⟨⟨h.reset _, hover⟩, ?_, ?_, ?_⟩
    · exact hrem.trans_le (Nat.sub_le _ _)
    · exact (congrArg (p - ·) hrem).trans hpos |>.trans_le hf
    · exact hfile.trans (congrArg (f.drop ·) ((congrArg (p - ·) hrem).trans hpos).symm)
  refine (Ends.forM hu fun il _ v hv => h.layer l nComp nIndexComp il hv).bind fun _ v hv => ?_
  refine .get_bind (.orThrow_bind (fun hzero => ?_) fun _ => ⟨hv.invalid, hv.inside⟩)
  have hzero' : v.remaining = 0 := eq_of_beq hzero
  refine ((ends_synchronize r.syncAfter v).mono (fun _ _ h => h) fun w hw =>
    hw.2.dropped ⟨hv.invalid, hv.inside⟩).bind ?_
  rintro _ w ⟨-, hw⟩
  have hpresent := hv.present
  have hvfile := hv.file
  rw [hzero', Nat.sub_zero] at hpresent hvfile
  refine .modify ⟨⟨hpresent, ?_⟩, hw.same.overrun.trans hv.inside⟩
  exact hw.file.trans hvfile

end Restore

section Iff
variable {sh : Shape} {r : Restore ι K} {x : Session ι K} {d : List Bool}

/-- How a load is safe, where `past` says that rows go beyond an array once the loader has got to
them. -/
theorem loadPayload_safe_iff_of (past : Prop)
    (hrows : GetsToLogits sh r x f p → GetsToRows sh r x f p d → ∀ t : Io ι K,
      t.session = withLogits sh x f → t.overrun = false →
      t.file = f.drop (countsAt sh f + (4 * r.count + 4 * r.count)) →
      t.remaining = p - (countsAt sh f + (4 * r.count + 4 * r.count)) →
      Ends (r.restoreRows (layoutOf f)
        ((leGets 4 (layoutOf f).tokenCount (f.drop (4 * sessionPayloadFields))).map .ofNat)
        (rowsAt r.start (r.countsIn (f.drop (countsAt sh f))).1)
        (rowsAt r.start (r.countsIn (f.drop (countsAt sh f))).2)) t
        (fun _ u => (p ≤ f.length ∧ u.file = f.drop p) ∧ (u.overrun = true ↔ past))
        (fun u => u.session.checkpointValid = false ∧ (u.overrun = true ↔ past))) :
    SafeLoad (loadPayload sh r) x f p d ↔ KeepsLogits sh r x f p d ∧
      (GetsToLogits sh r x f p → GetsToRows sh r x f p d → ¬past) := by
  have hends := loadPayload_ends sh r x f p d hrows
  constructor
  · intro hsafe
    constructor
    · by_contra hkeeps
      rw [KeepsLogits, not_or, not_or, not_or, not_not] at hkeeps
      obtain ⟨hvalid, hl, hsame, hn⟩ := hkeeps
      refine (hends.and hsafe).absurd (fun _ _ h => hn h.1.2.1) ?_
      rintro t ⟨⟨-, -, hnl⟩ | ⟨-, hsession, -, -⟩ | ⟨-, hg, -⟩, hinv, -⟩
      · exact hnl hl
      · rw [hsession] at hinv
        exact hinv.elim hvalid hsame
      · exact hn hg
    · intro hl hg hover
      refine (hends.and hsafe).absurd ?_ ?_
      · rintro _ t ⟨⟨-, -, -, hiff⟩, -, hno⟩
        exact Bool.false_ne_true (hno.symm.trans (hiff.mpr hover))
      · rintro t ⟨⟨-, -, hnl⟩ | ⟨-, -, -, hng⟩ | ⟨-, -, -, hiff⟩, -, hno⟩
        · exact hnl hl
        · exact hng hg
        · exact Bool.false_ne_true (hno.symm.trans (hiff.mpr hover))
  · rintro ⟨hkeeps, hinside⟩
    have hoff : ∀ {b : Bool}, (b = true ↔ past) → GetsToLogits sh r x f p →
        GetsToRows sh r x f p d → b = false := fun hb hl hg =>
      Bool.eq_false_iff.mpr fun h => hinside hl hg (hb.mp h)
    refine hends.mono (fun _ _ h => ⟨h.2.2.1, hoff h.2.2.2 h.1 h.2.1⟩) ?_
    rintro t (⟨hover, hsession, -⟩ | ⟨hover, hsession, hl, hn⟩ | ⟨hl, hg, hinv, hiff⟩)
    · exact ⟨.inr hsession, hover⟩
    · rw [hsession]
      refine ⟨?_, hover⟩
      rcases hkeeps with h | h | h | h
      · exact .inl h
      · exact absurd hl h
      · exact .inr h
      · exact absurd h hn
    · exact ⟨.inl hinv, hoff hiff hl hg⟩

/-- Where the rows are restored within bounds, only the logits can make a load unsafe. -/
theorem loadPayload_safe_iff (hr : r.Bounded) :
    SafeLoad (loadPayload sh r) x f p d ↔ KeepsLogits sh r x f p d := by
  have hnever : ∀ {b : Bool}, b = false → (b = true ↔ False) := fun h =>
    ⟨fun h' => Bool.false_ne_true (h.symm.trans h'), False.elim⟩
  rw [loadPayload_safe_iff_of False fun hl hrows t _ hover hfile hrem => ?_]
  · exact and_iff_left fun _ _ => id
  · have hlp := hl.logits
    have hlf := hrows.logits
    obtain ⟨hp, hf⟩ := hrows.counts.there
    dsimp only at hp hf
    rw [List.length_drop] at hf
    exact (hr.restoreRows (by omega) (by omega) hover hfile hrem _ _ _ _).mono
      (fun _ _ h => ⟨h.1, hnever h.2⟩) fun _ h => ⟨h.invalid, hnever h.inside⟩

/-- A payload of layers has no logits, so every failure in front of the rows leaves the session. -/
theorem loadLayerPayload_safe (hr : r.Bounded) (precheck : Session ι K → Except String Unit)
    (checkRange : List Nat → Bool) (tokens : List UInt32) :
    SafeLoad (loadLayerPayload sh r precheck checkRange tokens) x f p d := by
  have early : ∀ {t : Io ι K}, SameSession (start x f p d) t →
      (t.session.checkpointValid = false ∨ t.session = x) ∧ t.overrun = false :=
    fun h => ⟨.inr h.session, h.overrun⟩
  refine .get_bind (.ofExcept_bind (fun _ _ => ?_) fun _ _ => early (.refl _))
  refine ((ends_readWords sessionLayerPayloadFields _).mono (fun _ _ h => h) fun t h =>
    early h.2).bind ?_
  rintro h _ ⟨hwords, rfl, rfl⟩
  refine .orThrow_bind (fun _ => .orThrow_bind (fun _ => ?_) fun _ => early ⟨rfl, rfl⟩)
    fun _ => early ⟨rfl, rfl⟩
  refine .get_bind (.ofExcept_bind (fun _ _ => ?_) fun _ _ => early ⟨rfl, rfl⟩)
  refine (r.readRows_ends x _ tokens _
    (Q := fun _ u => (p ≤ f.length ∧ u.file = f.drop p) ∧ u.overrun = false) (E := Dropped)
    fun hfine t ht => ?_).mono (fun _ _ h => h.2) ?_
  · have hthere := (there_consume_iff hwords).mp hfine.there
    refine hr.restoreRows hthere.1 hthere.2 ht.same.overrun ?_ ?_ _ _ _ _
    · rw [ht.file]
      exact List.drop_drop
    · rw [ht.remaining]
      exact Nat.sub_sub _ _ _
  · rintro t (⟨-, hs⟩ | ⟨-, hdrop⟩)
    · exact early ⟨hs.session, hs.overrun⟩
    · exact ⟨.inl hdrop.invalid, hdrop.inside⟩

end Iff

theorem graphRestore_bounded (pf : Platform) (sh : Shape) (what place : String) (first count : Nat)
    (check : GraphSession → KvLayout → Except String Unit) :
    (graphRestore pf sh what place first count check).Bounded where
  reset _ := rfl
  layer _ _ _ _ hs := .get_bind (ends_readSpans pf _ hs)

theorem glmRestore_bounded (pf : Platform) (sh : Shape) (what place : String) (first count : Nat)
    (check : GlmSession → KvLayout → Except String Unit) :
    (glmRestore pf sh what place first count check).Bounded where
  reset _ := rfl
  layer _ _ _ _ hs := ends_readSpans pf _ hs

theorem sessionGraphRestore_bounded (pf : Platform) (sh : Shape) : (sessionGraphRestore pf sh).Bounded :=
  graphRestore_bounded pf sh ..

theorem sessionGlmRestore_bounded (pf : Platform) (sh : Shape) : (sessionGlmRestore pf sh).Bounded :=
  glmRestore_bounded pf sh ..

end Ds4.Payload
