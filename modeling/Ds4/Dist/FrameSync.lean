import Ds4.Dist.WorkerLoop

/-!
# The read loops stay in step with the stream

A turn that keeps the connection has taken whole frames, except in one case: a restore without a
payload stops in front of the remaining tokens when it meets one that the model does not have.
-/

namespace Ds4.Dist
open C Wire

/-- The stream from one place to another is frames of the given types, each a header and the bytes
that it declares. -/
inductive Cut : Conn → List UInt32 → Conn → Prop
  | stop {c : Conn} : Cut c [] c
  | frame {c d e : Conn} {type : UInt32} {n : Nat} {types : List UInt32}
    (header : distReadFrameHeader c = .ok (type, n, d)) (whole : n ≤ d.bytes.length)
    (rest : Cut (d.drop n) types e) : Cut c (type :: types) e

/-- One frame was taken, and behind a restore header the chunks of its payload. -/
def Aligned (c e : Conn) : Prop :=
  ∃ type chunks, Cut c (type :: chunks) e ∧ (∀ t ∈ chunks, t = msgSnapshotChunk) ∧
    (type ≠ msgSnapshotLoadBegin → chunks = [])

/-- The next frame has arrived with all its bytes. -/
def Whole (c : Conn) : Prop :=
  ∀ type n d, distReadFrameHeader c = .ok (type, n, d) → n ≤ d.bytes.length

/-- The token of a restore at an index. -/
def snapshotToken (c : Conn) (i : Nat) : UInt32 := getU32 ((c.bytes.drop (4 * i)).take 4)

/-- The tokens of a restore are read, and one that is not the last is not in the vocabulary. -/
def StopsInTokens (state : WorkerState) (env : Env) (b : SnapshotBeginFixed) (bodyBytes : Nat)
    (c : Conn) : Prop :=
  b.headerOk bodyBytes = true ∧ b.tokenCount ≤ state.ctxSize ∧
    (env.tokensAlloc = true ∨ b.tokenCount = 0) ∧
    ∃ i, i + 1 < b.tokenCount.toNat ∧ badToken state.vocab (snapshotToken c i) = true

/-- The next frame is a restore without a payload whose tokens are not read to their end. -/
def StopsEarly (state : WorkerState) (env : Env) (c : Conn) : Prop :=
  ∃ n d, distReadFrameHeader c = .ok (msgSnapshotLoadBegin, n, d) ∧
    (fromWire (d.bytes.take (sizeof SnapshotBeginFixed)) : SnapshotBeginFixed).payload = 0 ∧
    StopsInTokens state env (fromWire (d.bytes.take (sizeof SnapshotBeginFixed)))
      (n - sizeof SnapshotBeginFixed) (d.drop (sizeof SnapshotBeginFixed))

section Cut
variable {c d e : Conn} {ts us : List UInt32} {vocab : UInt32} {state : WorkerState} {env : Env}

theorem Cut.append (h : Cut c ts d) (h' : Cut d us e) : Cut c (ts ++ us) e := by
  induction h with
  | stop => exact h'
  | frame header whole _ ih => exact .frame header whole (ih h')

/-- A cut stream gets shorter by at least what its first header declares. -/
theorem Cut.length_le (h : Cut c ts e) : e.bytes.length ≤ c.bytes.length := by
  induction h with
  | stop => exact Nat.le_refl _
  | frame header _ _ ih =>
    obtain ⟨-, rfl, -⟩ := distReadFrameHeader_ok header
    simp only [Conn.bytes_drop, List.length_drop] at ih
    omega

/-! ## The tokens of a restore -/

theorem snapshotToken_zero (c : Conn) : snapshotToken c 0 = getU32 (c.bytes.take 4) := rfl

theorem snapshotToken_drop (c : Conn) (i : Nat) :
    snapshotToken (c.drop 4) i = snapshotToken c (i + 1) := by
  rw [snapshotToken, snapshotToken, Conn.bytes_drop, List.drop_drop]
  congr 3
  omega

/-- The loop over the tokens reads them all, or stops behind the first one that is bad. -/
theorem readSnapshotTokens_ok {count : Nat} {r : Except Bytes (List UInt32)}
    (h : readSnapshotTokens vocab count c = .ok (r, d)) :
    (∃ tokens, r = .ok tokens ∧ d = c.drop (4 * count) ∧ tokens.length = count ∧
      ∀ i < count, badToken vocab (snapshotToken c i) = false) ∨
    ∃ err i, r = .error err ∧ i < count ∧ d = c.drop (4 * (i + 1)) ∧
      badToken vocab (snapshotToken c i) = true ∧
      ∀ j < i, badToken vocab (snapshotToken c j) = false := by
  induction count generalizing c r with
  | zero =>
    cases h
    exact .inl ⟨[], rfl, rfl, rfl, fun _ hi => nomatch hi⟩
  | succ count ih =>
    rw [readSnapshotTokens] at h
    split at h
    · cases h
    · next s c' hread =>
      obtain ⟨-, rfl, rfl⟩ := distReadFull_ok hread
      dsimp only at h
      split at h
      · next hbad =>
        cases h
        exact .inr ⟨_, 0, rfl, Nat.zero_lt_succ _, rfl, hbad, fun _ hj => nomatch hj⟩
      · next hgood =>
        have hzero : badToken vocab (snapshotToken c 0) = false := Bool.eq_false_iff.mpr hgood
        split at h
        · cases h
        · next err c' hrest =>
          cases h
          obtain ⟨_, hr, -⟩ | ⟨_, i, hr, hi, hd, hbad, hgoods⟩ := ih hrest
          · cases hr
          · refine .inr ⟨err, i + 1, rfl, Nat.succ_lt_succ hi, ?_, ?_, ?_⟩
            · rw [hd, Conn.drop_drop]
              congr 1
              omega
            · rw [← snapshotToken_drop]
              exact hbad
            · intro j hj
              cases j with
              | zero => exact hzero
              | succ j =>
                rw [← snapshotToken_drop]
                exact hgoods j (Nat.lt_of_succ_lt_succ hj)
        · next tokens c' hrest =>
          cases h
          obtain ⟨ts, hr, hd, hlen, hgoods⟩ | ⟨_, i, hr, -⟩ := ih hrest
          · cases hr
            refine .inl ⟨_, rfl, ?_, congrArg (· + 1) hlen, ?_⟩
            · rw [hd, Conn.drop_drop]
              congr 1
              omega
            · intro j hj
              cases j with
              | zero => exact hzero
              | succ j =>
                rw [← snapshotToken_drop]
                exact hgoods j (Nat.lt_of_succ_lt_succ hj)
          · cases hr

/-! ## The chunks of a restore -/

/-- The loop over the chunks takes whole chunk frames, or it ends in front of the last one. -/
theorem readSnapshotChunks_ok {requestId : UInt64} {payloadBytes received stored : Nat}
    {err : Option Bytes}
    (h : readSnapshotChunks env requestId payloadBytes received c = .ok (err, stored, d)) :
    (err = none ∧ ∃ types, Cut c types d ∧ ∀ t ∈ types, t = msgSnapshotChunk) ∨
      err ≠ none ∧ stored < payloadBytes := by
  induction hn : c.bytes.length using Nat.strongRecOn generalizing received c with
  | _ n ih =>
    rw [readSnapshotChunks] at h
    split at h
    · cases h
      exact .inl ⟨rfl, [], .stop, fun _ ht => nomatch ht⟩
    · next hless =>
      have hmore : received < payloadBytes := Nat.lt_of_not_le hless
      split at h
      · cases h
      · next type k c₁ h₁ =>
        split at h
        · cases h
          exact .inr ⟨Option.some_ne_none _, hmore⟩
        · next htype =>
          obtain ⟨htype, hk⟩ := not_or.mp htype
          split at h
          · cases h
          · next s c₂ h₂ =>
            dsimp only at h
            split at h
            · cases h
              exact .inr ⟨Option.some_ne_none _, hmore⟩
            · split at h
              · cases h
              · next s' c₃ h₃ =>
                split at h
                · cases h
                  exact .inr ⟨Option.some_ne_none _, hmore⟩
                · obtain ⟨hlen, hc₁, -, -⟩ := distReadFrameHeader_ok h₁
                  obtain ⟨h12, -, rfl⟩ := distReadFull_ok h₂
                  obtain ⟨hrest, -, rfl⟩ := distReadFull_ok h₃
                  rw [Conn.bytes_drop, List.length_drop] at hrest
                  have hadd : sizeof SnapshotChunkFixed + (k - sizeof SnapshotChunkFixed) = k := by
                    omega
                  rw [Conn.drop_drop, hadd] at h
                  have hshort : (c₁.drop k).bytes.length < n := by
                    rw [hc₁, Conn.bytes_drop, Conn.bytes_drop, List.length_drop, List.length_drop]
                    omega
                  obtain ⟨herr, types, hcut, hall⟩ | hstop := ih _ hshort h rfl
                  · refine .inl ⟨herr, type :: types, .frame h₁ (by omega) hcut, ?_⟩
                    intro t ht
                    cases ht with
                    | head => exact not_not.mp htype
                    | tail _ ht => exact hall t ht
                  · exact .inr hstop

/-! ## The handlers -/

/-- In front of its chunks a restore has taken its frame, unless it stopped in the tokens. -/
theorem readSnapshotBody_ok {b : SnapshotBeginFixed} {bodyBytes : Nat}
    {r : Except Bytes (List UInt32)}
    (h : readSnapshotBody state env b bodyBytes c = .ok (r, d)) :
    (¬StopsInTokens state env b bodyBytes c ∧ d = c.drop bodyBytes) ∨
      StopsInTokens state env b bodyBytes c ∧ (∃ err, r = .error err) ∧
        ∃ k < bodyBytes, d = c.drop k := by
  rw [readSnapshotBody] at h
  split at h
  · next hheader =>
    cases h
    rw [distDiscardBytes_conn]
    refine .inl ⟨fun hs => ?_, rfl⟩
    rw [hs.1] at hheader
    cases hheader
  · next hheader =>
    have hok : b.headerOk bodyBytes = true := by simpa using hheader
    have hsizes : b.tokenBytes.toNat = b.tokenCount.toNat * 4 ∧ bodyBytes = b.tokenBytes.toNat := by
      rw [SnapshotBeginFixed.headerOk] at hok
      simp only [Bool.and_eq_true, decide_eq_true_eq] at hok
      exact ⟨hok.1.1.2, hok.2⟩
    split at h
    · next hctx =>
      cases h
      rw [distDiscardBytes_conn]
      exact .inl ⟨fun hs => absurd hctx (UInt32.not_lt.mpr hs.2.1), rfl⟩
    · next hctx =>
      split at h
      · next halloc =>
        cases h
        rw [distDiscardBytes_conn, ← hsizes.2]
        refine .inl ⟨fun hs => ?_, rfl⟩
        simp only [Bool.and_eq_true, Bool.not_eq_true', decide_eq_true_eq] at halloc
        obtain ha | ha := hs.2.2.1
        · rw [ha] at halloc
          cases halloc.1
        · exact halloc.2 ha
      · next halloc =>
        have halloc' : env.tokensAlloc = true ∨ b.tokenCount = 0 := by
          simp only [Bool.and_eq_true, Bool.not_eq_true', decide_eq_true_eq, not_and_or,
            Bool.not_eq_false, not_not] at halloc
          exact halloc
        have hbody : 4 * b.tokenCount.toNat = bodyBytes := by omega
        split at h
        · cases h
        · next err c' htok =>
          cases h
          obtain ⟨_, hr, -⟩ | ⟨_, i, -, hi, rfl, hbad, hgood⟩ := readSnapshotTokens_ok htok
          · cases hr
          · by_cases hlast : i + 1 < b.tokenCount.toNat
            · refine .inr ⟨⟨hok, UInt32.not_lt.mp hctx, halloc', i, hlast, hbad⟩, ⟨err, rfl⟩,
                4 * (i + 1), by omega, rfl⟩
            · refine .inl ⟨?_, ?_⟩
              · intro hs
                obtain ⟨-, -, -, j, hj, hjbad⟩ := hs
                rw [hgood j (by omega)] at hjbad
                cases hjbad
              · congr 1
                omega
        · next tokens c' htok =>
          obtain ⟨_, -, rfl, -, hgood⟩ | ⟨_, _, hr, -⟩ := readSnapshotTokens_ok htok
          · have hd : d = c.drop bodyBytes := by
              dsimp only at h
              split at h <;> cases h <;> rw [hbody]
            refine .inl ⟨?_, hd⟩
            intro hs
            obtain ⟨-, -, -, j, hj, hjbad⟩ := hs
            rw [hgood j (by omega)] at hjbad
            cases hjbad
          · cases hr

/-- A handler whose return code closes the connection keeps nothing. -/
theorem Handled.turn_kept {r : Handled} {state' : WorkerState} (h : r.turn = .kept d state') :
    0 < r.rc ∧ r.conn = d := by
  rw [Handled.turn] at h
  split at h
  · cases h
  · next hrc =>
    cases h
    exact ⟨Int.lt_of_not_ge hrc, rfl⟩

theorem readError_not_pos (rc : Int) : ¬0 < (if rc = 0 then (0 : Int) else -1) := by
  split <;> omega

theorem readSnapshotTokens_error {count : Nat} {rc : Int}
    (h : readSnapshotTokens vocab count c = .error rc) : ¬0 < rc := by
  induction count generalizing c with
  | zero => cases h
  | succ count ih =>
    rw [readSnapshotTokens] at h
    split at h
    · cases h
      exact readError_not_pos _
    · dsimp only at h
      split at h
      · cases h
      · split at h
        · next hrest =>
          cases h
          exact ih hrest
        · cases h
        · cases h

theorem readSnapshotBody_error {b : SnapshotBeginFixed} {bodyBytes : Nat} {rc : Int}
    (h : readSnapshotBody state env b bodyBytes c = .error rc) : ¬0 < rc := by
  rw [readSnapshotBody] at h
  split at h
  · cases h
  · split at h
    · cases h
    · split at h
      · cases h
      · split at h
        · next htok =>
          cases h
          exact readSnapshotTokens_error htok
        · cases h
        · dsimp only at h
          split at h <;> cases h

theorem readSnapshotChunks_error {requestId : UInt64} {payloadBytes received : Nat} {rc : Int}
    (h : readSnapshotChunks env requestId payloadBytes received c = .error rc) : ¬0 < rc := by
  induction hn : c.bytes.length using Nat.strongRecOn generalizing received c with
  | _ n ih =>
    rw [readSnapshotChunks] at h
    split at h
    · cases h
    · split at h
      · cases h
        exact readError_not_pos _
      · next type k c₁ h₁ =>
        split at h
        · cases h
        · split at h
          · cases h
            exact readError_not_pos _
          · next s c₂ h₂ =>
            dsimp only at h
            split at h
            · cases h
            · split at h
              · cases h
                exact readError_not_pos _
              · next s' c₃ h₃ =>
                split at h
                · cases h
                · obtain ⟨hlen, rfl, -⟩ := distReadFrameHeader_ok h₁
                  obtain ⟨-, -, rfl⟩ := distReadFull_ok h₂
                  obtain ⟨-, -, rfl⟩ := distReadFull_ok h₃
                  refine ih _ ?_ h rfl
                  simp only [Conn.bytes_drop, List.length_drop]
                  omega

variable {nr : Narrow} {n : Nat}

theorem distWorkerHandleWork_conn :
    (distWorkerHandleWork nr state env c n).conn = c.drop n := by
  rw [distWorkerHandleWork]
  split
  · exact distDiscardBytes_conn c n
  · cases hread : distReadFull c n with
    | error rc => rfl
    | ok r =>
      obtain ⟨-, -, hr⟩ := distReadFull_ok hread
      exact hr

theorem distWorkerHandleSnapshotSave_conn :
    (distWorkerHandleSnapshotSave state env c n).conn = c.drop n := by
  rw [distWorkerHandleSnapshotSave]
  split
  · exact distDiscardBytes_conn c n
  · next hn =>
    have hsize : n = sizeof SnapshotReqFixed := not_not.mp hn
    cases hread : distReadFull c (sizeof SnapshotReqFixed) with
    | error rc => rw [hsize]
    | ok r =>
      obtain ⟨-, -, hr⟩ := distReadFull_ok hread
      dsimp only
      split <;> rw [hr, hsize]

/-- A restore that keeps the connection has taken its frame and its chunks, unless it stopped in the
tokens and announces no payload. -/
theorem distWorkerHandleSnapshotLoad_conn
    (h : 0 < (distWorkerHandleSnapshotLoad state env c n).rc) :
    let b : SnapshotBeginFixed := fromWire (c.bytes.take (sizeof SnapshotBeginFixed))
    let stops := b.payload = 0 ∧ StopsInTokens state env b (n - sizeof SnapshotBeginFixed)
      (c.drop (sizeof SnapshotBeginFixed))
    (¬stops ∧ ∃ types, Cut (c.drop n) types (distWorkerHandleSnapshotLoad state env c n).conn ∧
        ∀ t ∈ types, t = msgSnapshotChunk) ∨
      stops ∧ ∃ k < n, (distWorkerHandleSnapshotLoad state env c n).conn = c.drop k := by
  dsimp only
  generalize hr : distWorkerHandleSnapshotLoad state env c n = r at h ⊢
  rw [distWorkerHandleSnapshotLoad] at hr
  split at hr
  · subst hr
    cases h
  · next hn =>
    have hadd : sizeof SnapshotBeginFixed + (n - sizeof SnapshotBeginFixed) = n := by omega
    split at hr
    · subst hr
      exact absurd h (readError_not_pos _)
    · next s c₁ h₁ =>
      obtain ⟨-, rfl, rfl⟩ := distReadFull_ok h₁
      dsimp only at hr
      generalize (fromWire (c.bytes.take (sizeof SnapshotBeginFixed)) : SnapshotBeginFixed) = b
        at hr ⊢
      split at hr
      · next rc hbody =>
        subst hr
        exact absurd h (readSnapshotBody_error hbody)
      · next err c₂ hbody =>
        subst hr
        split at h
        · cases h
        · next hpayload =>
          have hzero : b.payload = 0 := Nat.eq_zero_of_not_pos hpayload
          obtain ⟨hgo, rfl⟩ | ⟨hstop, -, k, hk, rfl⟩ := readSnapshotBody_ok hbody
          · refine .inl ⟨fun hs => hgo hs.2, [], ?_, fun _ ht => by cases ht⟩
            rw [Conn.drop_drop, hadd]
            exact .stop
          · refine .inr ⟨⟨hzero, hstop⟩, sizeof SnapshotBeginFixed + k, by omega, ?_⟩
            rw [Conn.drop_drop]
      · next tokens c₂ hbody =>
        obtain ⟨hgo, rfl⟩ | ⟨-, ⟨_, hr'⟩, -⟩ := readSnapshotBody_ok hbody
        · rw [Conn.drop_drop, hadd] at hr
          split at hr
          · next rc hchunks =>
            subst hr
            exact absurd h (readSnapshotChunks_error hchunks)
          · next err received c₃ hchunks =>
            subst hr
            obtain ⟨herr, -⟩ | ⟨-, hmissing⟩ := readSnapshotChunks_ok hchunks
            · cases herr
            · rw [if_pos hmissing] at h
              cases h
          · next received c₃ hchunks =>
            subst hr
            obtain ⟨-, types, hcut, hall⟩ | ⟨herr, -⟩ := readSnapshotChunks_ok hchunks
            · exact .inl ⟨fun hs => hgo hs.2, types, hcut, hall⟩
            · exact absurd rfl herr
        · cases hr'

/-! ## The turns -/

/-- A turn that keeps the connection has taken whole frames, unless it is a restore that stopped
early, which leaves more of the stream than its frame does. -/
theorem readTurn_kept {loop : ReadLoop} {state' : WorkerState}
    (h : readTurn nr loop state env c = .kept d state') :
    (¬StopsEarly state env c ∧ ∃ type n e, distReadFrameHeader c = .ok (type, n, e) ∧
      ∃ chunks, Cut (e.drop n) chunks d ∧ (∀ t ∈ chunks, t = msgSnapshotChunk) ∧
        (type ≠ msgSnapshotLoadBegin → chunks = [])) ∨
    StopsEarly state env c ∧ ∃ type n e, distReadFrameHeader c = .ok (type, n, e) ∧
      ∃ k < n, d = e.drop k := by
  rw [readTurn] at h
  split at h
  · cases h
  · next type n e hheader =>
    have hother (htype : type ≠ msgSnapshotLoadBegin) (hd : d = e.drop n) :
        ¬StopsEarly state env c ∧ ∃ type n e, distReadFrameHeader c = .ok (type, n, e) ∧
          ∃ chunks, Cut (e.drop n) chunks d ∧ (∀ t ∈ chunks, t = msgSnapshotChunk) ∧
            (type ≠ msgSnapshotLoadBegin → chunks = []) := by
      refine ⟨?_, type, n, e, hheader, [], hd ▸ .stop, fun _ ht => (nomatch ht), fun _ => rfl⟩
      intro hstops
      obtain ⟨_, _, hload, -⟩ := hstops
      rw [hheader] at hload
      cases hload
      exact htype rfl
    split at h
    · cases h
    · split at h
      · next hwork =>
        have htype : type ≠ msgSnapshotLoadBegin := by
          rw [hwork]
          decide
        refine .inl (hother htype ?_)
        cases loop with
        | plain =>
          obtain ⟨-, rfl⟩ := Handled.turn_kept h
          exact distWorkerHandleWork_conn
        | prefetch =>
          dsimp only at h
          rw [prefetchWork] at h
          split at h
          · cases h
          · split at h
            · cases h
            · next hread =>
              obtain ⟨-, -, rfl⟩ := distReadFull_ok hread
              split at h
              · cases h
              · cases h
                rfl
      · split at h
        · next hsave =>
          have htype : type ≠ msgSnapshotLoadBegin := by
            rw [hsave]
            decide
          obtain ⟨-, rfl⟩ := Handled.turn_kept h
          exact .inl (hother htype distWorkerHandleSnapshotSave_conn)
        · split at h
          · next hload =>
            subst hload
            obtain ⟨hrc, rfl⟩ := Handled.turn_kept h
            obtain ⟨hgo, types, hcut, hall⟩ | ⟨⟨hzero, hstop⟩, k, hk, hd⟩ :=
              distWorkerHandleSnapshotLoad_conn hrc
            · refine .inl ⟨?_, _, n, e, hheader, types, hcut, hall, fun hne => absurd rfl hne⟩
              intro hstops
              obtain ⟨_, _, hload, hstops⟩ := hstops
              rw [hheader] at hload
              cases hload
              exact hgo hstops
            · exact .inr ⟨⟨n, e, hheader, hzero, hstop⟩, _, n, e, hheader, k, hk, hd⟩
          · cases h

/-- Where a frame is there as a whole, a turn that keeps the connection has taken whole frames
exactly when it does not stop early. -/
theorem readTurn_aligned_iff {loop : ReadLoop} {state' : WorkerState} (hwhole : Whole c)
    (h : readTurn nr loop state env c = .kept d state') :
    Aligned c d ↔ ¬StopsEarly state env c := by
  obtain ⟨hgo, type, n, e, hheader, chunks, hcut, hall, hno⟩ | ⟨hstop, type, n, e, hheader, k, hk, hd⟩ :=
    readTurn_kept h
  · refine ⟨fun _ => hgo, fun _ => ?_⟩
    exact ⟨type, chunks, .frame hheader (hwhole _ _ _ hheader) hcut, hall, hno⟩
  · refine ⟨fun haligned => ?_, fun hgo => absurd hstop hgo⟩
    obtain ⟨type', chunks, hcut, -, -⟩ := haligned
    cases hcut with
    | frame header whole rest =>
      rw [hheader] at header
      cases header
      have hle := rest.length_le
      rw [hd, Conn.bytes_drop, Conn.bytes_drop, List.length_drop, List.length_drop] at hle
      omega

/-- A run of turns that keep the connection, each of them at a state of the worker and a behaviour
of its surroundings that have a property. The evaluation thread may change the sessions between two
turns. -/
inductive Turns (nr : Narrow) (loop : ReadLoop) (P : WorkerState → Env → Conn → Prop) :
    Conn → Conn → Prop
  | stop {c : Conn} : Turns nr loop P c c
  | turn {c d e : Conn} {state state' : WorkerState} {env : Env} (holds : P state env c)
    (kept : readTurn nr loop state env c = .kept d state') (rest : Turns nr loop P d e) :
    Turns nr loop P c e

/-- A run whose turns all take whole frames stops where the stream is cut. -/
theorem Turns.cut {loop : ReadLoop} {P : WorkerState → Env → Conn → Prop}
    (hP : ∀ state env c d state', P state env c → readTurn nr loop state env c = .kept d state' →
      Aligned c d) (h : Turns nr loop P c e) : ∃ types, Cut c types e := by
  induction h with
  | stop => exact ⟨[], .stop⟩
  | turn holds kept _ ih =>
    obtain ⟨type, chunks, hcut, -, -⟩ := hP _ _ _ _ _ holds kept
    obtain ⟨types, hrest⟩ := ih
    exact ⟨_, hcut.append hrest⟩

end Cut

/-- A turn that keeps the connection stays in step with the stream exactly when it is no restore
that stops early, and a run without such a restore stays in step from its first turn to its last. -/
theorem worker_stays_in_step (nr : Narrow) (loop : ReadLoop) :
    (∀ state env c d state', Whole c → readTurn nr loop state env c = .kept d state' →
      (Aligned c d ↔ ¬StopsEarly state env c)) ∧
    ∀ c d, Turns nr loop (fun state env c => Whole c ∧ ¬StopsEarly state env c) c d →
      ∃ types, Cut c types d :=
  ⟨fun _ _ _ _ _ hwhole h => readTurn_aligned_iff hwhole h, fun _ _ h =>
    h.cut fun _ _ _ _ _ holds kept => (readTurn_aligned_iff holds.1 kept).mpr holds.2⟩

/-! ## Two restores without a payload -/

/-- Surroundings in which nothing goes wrong. -/
def fineEnv : Env where
  payloadAlloc := true
  tokensAlloc := true
  routeAlloc := true
  resultAlloc := true
  decodeAlloc := true
  sessionAlloc := true
  sessionCreate := true
  graphReset := true
  eval := .done []
  evalUsec := 0
  tempFile := true
  bufAlloc := true
  fwrite := fun _ => true
  fflush := true
  ftell := true
  fseek := true
  save := .ok []
  load := .done []
  sent := true
  enqueued := true

/-- A worker with ten tokens in its vocabulary. -/
def smallWorker : WorkerState := ⟨0, 0, 0, false, 8, 1, 10, 1, .deepseek, []⟩

def plainNarrow : Narrow := ⟨fun _ => 0, fun _ => 0, fun _ => 0, fun _ => 0⟩

/-- The frame of a restore of two tokens without a payload. -/
def tokensFrame (a b : UInt32) : Conn :=
  ⟨distWriteFrameHeader msgSnapshotLoadBegin 68 ++
    toWire { (default : SnapshotBeginFixed) with tokenCount := 2, tokenBytes := 8 } ++
      putU32 a ++ putU32 b, false⟩

theorem whole_tokensFrame (a b : UInt32) : Whole (tokensFrame a b) := by
  intro type n d h
  rw [tokensFrame, List.append_assoc, List.append_assoc, distReadFrameHeader_write _ (by decide)] at h
  cases h
  simp only [List.length_append, length_toWire, length_putU32]
  decide

theorem not_stopsEarly_tokensFrame : ¬StopsEarly smallWorker fineEnv (tokensFrame 1 11) := by
  intro hstops
  obtain ⟨n, d, hheader, -, -, -, -, i, hi, hbad⟩ := hstops
  have hread : distReadFrameHeader (tokensFrame 1 11) =
      .ok (msgSnapshotLoadBegin, 68, (tokensFrame 1 11).drop 12) := rfl
  rw [hread] at hheader
  cases hheader
  have hi : i + 1 < 2 := hi
  obtain rfl : i = 0 := by omega
  cases hbad

/-- A bad last token leaves nothing behind it. -/
theorem tokensFrame_in_step :
    Aligned (tokensFrame 1 11) ⟨[], false⟩ ∧ ∃ types, Cut (tokensFrame 1 11) types ⟨[], false⟩ := by
  have hkept : readTurn plainNarrow .plain smallWorker fineEnv (tokensFrame 1 11) =
      .kept ⟨[], false⟩ smallWorker := rfl
  have hwhole := whole_tokensFrame 1 11
  obtain ⟨hturn, hrun⟩ := worker_stays_in_step plainNarrow .plain
  exact ⟨(hturn _ _ _ _ _ hwhole hkept).mpr not_stopsEarly_tokensFrame,
    hrun _ _ (.turn ⟨hwhole, not_stopsEarly_tokensFrame⟩ hkept .stop)⟩

/-- A bad token in front of another one leaves the other one in the stream. -/
theorem restore_stops_early :
    ¬∀ (nr : Narrow) (loop : ReadLoop) (state : WorkerState) (env : Env) (c d : Conn)
      (state' : WorkerState), Whole c → readTurn nr loop state env c = .kept d state' →
        Aligned c d := by
  intro h
  have hkept : readTurn plainNarrow .plain smallWorker fineEnv (tokensFrame 11 1) =
      .kept ⟨putU32 1, false⟩ smallWorker := rfl
  have hread : distReadFrameHeader (tokensFrame 11 1) =
      .ok (msgSnapshotLoadBegin, 68, (tokensFrame 11 1).drop 12) := rfl
  obtain ⟨type, chunks, hcut, -, -⟩ := h _ _ _ _ _ _ _ (whole_tokensFrame 11 1) hkept
  cases hcut with
  | frame header _ rest =>
    rw [hread] at header
    cases header
    have hle := rest.length_le
    revert hle
    decide

end Ds4.Dist
