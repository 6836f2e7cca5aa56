import Ds4.Dist.Work

/-!
# Work and result frames round trip

What a writer sends has the length that its header declares, and its reader gets the fields back; the
relay keeps a result and adds its telemetry record behind the others.
-/

namespace Ds4.Dist
open C Wire

/-! ## Activations -/

section Activation
variable {nr : Narrow} {bits : UInt32} {src wire : Bytes} {values n : Nat}

theorem distActivationBits_cases (h : distActivationBitsValid bits = true) :
    distActivationBitsOrDefault bits = 32 ∨ distActivationBitsOrDefault bits = 16 ∨
      distActivationBitsOrDefault bits = 8 := by
  rw [distActivationBitsValid] at h
  simpa [or_assoc] using h

@[simp] theorem distActivationBitsOrDefault_idem (bits : UInt32) :
    distActivationBitsOrDefault (distActivationBitsOrDefault bits) =
      distActivationBitsOrDefault bits := by
  rw [distActivationBitsOrDefault]
  split
  · rfl
  · next h =>
    rw [distActivationBitsOrDefault] at h ⊢
    split at h
    · next h0 => exact absurd h0 h
    · exact absurd (by decide) h

@[simp] theorem distActivationBitsValid_orDefault (bits : UInt32) :
    distActivationBitsValid (distActivationBitsOrDefault bits) = distActivationBitsValid bits := by
  rw [distActivationBitsValid, distActivationBitsValid, distActivationBitsOrDefault_idem]

/-- The bytes of one value. -/
def bytesPerValue (bits : UInt32) : Nat := (distActivationBitsOrDefault bits / 8).toNat

theorem bytesPerValue_cases (h : distActivationBitsValid bits = true) :
    distActivationBitsOrDefault bits % 8 = 0 ∧
      (bytesPerValue bits = 4 ∨ bytesPerValue bits = 2 ∨ bytesPerValue bits = 1) := by
  rw [bytesPerValue]
  obtain h | h | h := distActivationBits_cases h <;> rw [h] <;> decide

theorem distActivationWireBytes_some (h : distActivationWireBytes bits values = some n) :
    distActivationBitsValid bits = true ∧ n = values * bytesPerValue bits ∧ n ≤ uint32Max := by
  rw [distActivationWireBytes] at h
  dsimp only at h
  split at h
  · cases h
  · next hv =>
    split at h
    · cases h
    · next hle =>
      cases h
      simp only [distActivationBitsValid_orDefault, Bool.or_eq_true, not_or, Bool.not_eq_true',
        Bool.not_eq_false] at hv
      exact ⟨hv.1, rfl, Nat.not_lt.mp hle⟩

theorem distActivationValuesFromWireBytes_of (h : distActivationBitsValid bits = true) :
    distActivationValuesFromWireBytes bits (values * bytesPerValue bits) = some values := by
  obtain ⟨hmod, hcases⟩ := bytesPerValue_cases h
  have hpos : bytesPerValue bits ≠ 0 := by
    rintro h0
    rw [h0] at hcases
    omega
  have hdiv : values * bytesPerValue bits / bytesPerValue bits = values :=
    Nat.mul_div_cancel _ (Nat.pos_of_ne_zero hpos)
  rw [distActivationValuesFromWireBytes]
  dsimp only
  rw [distActivationBitsValid_orDefault, h, hmod, if_neg (by decide), ← bytesPerValue, hdiv]
  simp [hpos]

theorem distActivationValuesFromWireBytes_some
    (h : distActivationValuesFromWireBytes bits n = some values) :
    distActivationBitsValid bits = true ∧ n = values * bytesPerValue bits := by
  rw [distActivationValuesFromWireBytes] at h
  dsimp only at h
  split at h
  · cases h
  · next hv =>
    split at h
    · cases h
    · next hmod =>
      cases h
      simp only [distActivationBitsValid_orDefault, Bool.or_eq_true, not_or, Bool.not_eq_true',
        Bool.not_eq_false, decide_eq_true_eq, ne_eq, Decidable.not_not] at hv hmod
      exact ⟨hv.1, (Nat.div_mul_cancel (Nat.dvd_of_mod_eq_zero hmod.2)).symm⟩

theorem length_floats (n : Nat) (src : Bytes) : (floats n src).length = n := by
  rw [floats, List.length_map, length_leGets]

/-- What a written payload is. -/
theorem distWriteActivationPayload_some
    (h : distWriteActivationPayload nr src values bits = some wire) :
    distActivationBitsValid bits = true ∧ (values = 0 ∧ wire = [] ∨
      (distActivationBitsOrDefault bits = 32 ∧ wire = src.take (values * 4)) ∨
      (distActivationBitsOrDefault bits = 16 ∧
        wire = lePuts 2 ((floats values src).map fun f => (nr.toF16 f).toNat)) ∨
      distActivationBitsOrDefault bits = 8 ∧
        wire = lePuts 1 ((floats values src).map fun f => (nr.toF8 f).toNat)) := by
  rw [distWriteActivationPayload, distActivationBitsValid_orDefault] at h
  split at h
  · cases h
  · next hv =>
    have hvalid : distActivationBitsValid bits = true := by simpa using hv
    refine ⟨hvalid, ?_⟩
    split at h
    · next h0 =>
      cases h
      exact .inl ⟨h0, rfl⟩
    · split at h
      · next h32 =>
        obtain ⟨k, hk, rfl⟩ := Option.map_eq_some_iff.mp h
        obtain ⟨-, hk, -⟩ := distActivationWireBytes_some hk
        rw [bytesPerValue, distActivationBitsOrDefault_idem, h32] at hk
        rw [hk]
        exact .inr (.inl ⟨h32, rfl⟩)
      · next h32 =>
        split at h
        · next h16 =>
          cases h
          exact .inr (.inr (.inl ⟨h16, rfl⟩))
        · next h16 =>
          cases h
          obtain hb | hb | hb := distActivationBits_cases hvalid
          · exact absurd hb h32
          · exact absurd hb h16
          · exact .inr (.inr (.inr ⟨hb, rfl⟩))

/-- A payload is written with the bytes that its values need. -/
theorem length_distWriteActivationPayload
    (h : distWriteActivationPayload nr src values bits = some wire) (hs : src.length = 4 * values) :
    wire.length = values * bytesPerValue bits := by
  obtain ⟨-, ⟨rfl, rfl⟩ | ⟨hb, rfl⟩ | ⟨hb, rfl⟩ | ⟨hb, rfl⟩⟩ := distWriteActivationPayload_some h
  · rw [Nat.zero_mul, List.length_nil]
  · have h4 : (32 / 8 : UInt32).toNat = 4 := rfl
    rw [bytesPerValue, hb, h4, List.length_take, hs, Nat.mul_comm, Nat.min_self]
  · have h2 : (16 / 8 : UInt32).toNat = 2 := rfl
    rw [bytesPerValue, hb, h2, length_lePuts, List.length_map, length_floats, Nat.mul_comm]
  · have h1 : (8 / 8 : UInt32).toNat = 1 := rfl
    rw [bytesPerValue, hb, h1, length_lePuts, List.length_map, length_floats, Nat.mul_comm]

theorem leGets_map_toNat16 (fs : List UInt32) (g : UInt32 → UInt16) :
    (leGets 2 fs.length (lePuts 2 (fs.map fun f => (g f).toNat))).map UInt16.ofNat = fs.map g := by
  have hget := leGets_lePuts 2 (fs.map fun f => (g f).toNat) (by
    intro n hn
    obtain ⟨f, -, rfl⟩ := List.mem_map.mp hn
    exact (g f).toNat_lt)
  rw [List.length_map] at hget
  rw [hget, List.map_map]
  apply List.map_congr_left
  intro f _
  exact UInt16.ofNat_toNat

theorem leGets_map_toNat8 (fs : List UInt32) (g : UInt32 → UInt8) :
    (leGets 1 fs.length (lePuts 1 (fs.map fun f => (g f).toNat))).map UInt8.ofNat = fs.map g := by
  have hget := leGets_lePuts 1 (fs.map fun f => (g f).toNat) (by
    intro n hn
    obtain ⟨f, -, rfl⟩ := List.mem_map.mp hn
    exact (g f).toNat_lt)
  rw [List.length_map] at hget
  rw [hget, List.map_map]
  apply List.map_congr_left
  intro f _
  exact UInt8.ofNat_toNat

/-- A payload that was written is decoded to the narrowed floats. -/
theorem distDecodeActivationPayload_write
    (h : distWriteActivationPayload nr src values bits = some wire) (hs : src.length = 4 * values)
    (hfit : src.length ≤ uint32Max) :
    distDecodeActivationPayload nr wire bits = .ok (narrowed nr bits src) := by
  have hlen := length_distWriteActivationPayload h hs
  obtain ⟨hv, hcases⟩ := distWriteActivationPayload_some h
  have hvalues : src.length / 4 = values := by omega
  have hover : ¬values * 4 > uint32Max := by omega
  have hcount : distActivationValuesFromWireBytes (distActivationBitsOrDefault bits) wire.length =
      some values := by
    rw [hlen, distActivationValuesFromWireBytes, distActivationBitsOrDefault_idem,
      ← distActivationValuesFromWireBytes]
    exact distActivationValuesFromWireBytes_of hv
  have hfs := length_floats values src
  rw [distDecodeActivationPayload, narrowed, hvalues, distActivationBitsValid_orDefault, hv,
    if_neg (by decide), hcount]
  dsimp only
  rw [if_neg hover]
  obtain ⟨rfl, rfl⟩ | ⟨hb, rfl⟩ | ⟨hb, rfl⟩ | ⟨hb, rfl⟩ := hcases
  · have hnil : src = [] := List.eq_nil_of_length_eq_zero (by omega)
    subst hnil
    split
    · rfl
    · split <;> rfl
  · rw [if_pos hb, if_pos hb, List.take_of_length_le (by omega)]
  · have h16 : ¬(16 : UInt32) = 32 := by decide
    have hmap := leGets_map_toNat16 (floats values src) nr.toF16
    rw [hfs] at hmap
    rw [hb, if_neg h16, if_pos rfl, if_neg h16, if_pos rfl]
    have hcomp := congrArg (List.map nr.ofF16) hmap
    rw [List.map_map, List.map_map] at hcomp
    exact congrArg (fun fs => Except.ok (putFloats fs)) hcomp
  · have h8 : ¬(8 : UInt32) = 32 := by decide
    have h8' : ¬(8 : UInt32) = 16 := by decide
    have hmap := leGets_map_toNat8 (floats values src) nr.toF8
    rw [hfs] at hmap
    rw [hb, if_neg h8, if_neg h8', if_neg h8, if_neg h8']
    have hcomp := congrArg (List.map nr.ofF8) hmap
    rw [List.map_map, List.map_map] at hcomp
    exact congrArg (fun fs => Except.ok (putFloats fs)) hcomp

end Activation

/-! ## Work frames -/

section Work
variable {nr : Narrow} {work : WorkFixed} {tokens : List UInt32} {hc blob : Option Bytes} {s : Bytes}

/-- The arrays of a work item hold what its fixed part announces; the floats are counted in 32
bits. -/
structure WorkArrays (work : WorkFixed) (tokens : List UInt32) (hc blob : Option Bytes) : Prop where
  tokens : work.nTokens.toNat ≤ tokens.length
  hidden : ∀ values,
    distActivationValuesFromWireBytes work.inputHcBits work.inputHcBytes.toNat = some values →
      work.inputHcBytes ≠ 0 → (orEmpty hc).length = 4 * values
  hiddenFits : (orEmpty hc).length ≤ uint32Max
  blob : work.routeBytes.toNat ≤ (orEmpty blob).length

/-- The body of a work frame, cut where the fixed part says. -/
theorem readWork_put (ht : tokens.length = work.nTokens.toNat)
    (hbytes : work.tokenBytes.toNat = work.nTokens.toNat * 4) {wire route : Bytes}
    (hw : wire.length = work.inputHcBytes.toNat) (hr : route.length = work.routeBytes.toNat) :
    readWork (toWire work ++ (putWords tokens ++ (wire ++ route))) =
      .ok ⟨work, tokens, wire, route⟩ := by
  have hfixed : (toWire work).length = sizeof WorkFixed := length_toWire work
  have htok : (putWords tokens).length = work.tokenBytes.toNat := by
    rw [length_putWords, ht, hbytes, Nat.mul_comm]
  have hshort : ¬(toWire work ++ (putWords tokens ++ (wire ++ route))).length <
      sizeof WorkFixed := by
    rw [List.length_append, hfixed]
    omega
  have hsizes : ¬(decide (work.tokenBytes.toNat ≠ work.nTokens.toNat * 4) ||
      decide (work.tokenBytes.toNat + work.inputHcBytes.toNat + work.routeBytes.toNat ≠
        (putWords tokens ++ (wire ++ route)).length)) = true := by
    simp only [List.length_append, htok, hw, hr, hbytes, Bool.or_eq_true, decide_eq_true_eq]
    omega
  rw [readWork, if_neg hshort, List.take_left' hfixed, List.drop_left' hfixed, fromWire_toWire]
  dsimp only
  rw [if_neg hsizes, List.drop_left' htok, List.take_left' hw, List.drop_left' hw, ← hr,
    List.take_length, ← ht, getWords_putWords_append]

/-- What a work frame is made of when it is sent. -/
theorem distSendWorkFrame_some (h : distSendWorkFrame nr work tokens hc blob = some s) :
    work.tokenBytes.toNat = work.nTokens.toNat * 4 ∧
    sizeof WorkFixed + work.tokenBytes.toNat + work.inputHcBytes.toNat + work.routeBytes.toNat ≤
      uint32Max ∧
    ∃ wire, (if work.inputHcBytes ≠ 0 then
        ∃ values, distActivationValuesFromWireBytes work.inputHcBits work.inputHcBytes.toNat =
            some values ∧
          distWriteActivationPayload nr (orEmpty hc) values work.inputHcBits = some wire
      else wire = []) ∧
      s = distWriteFrameHeader msgWork (sizeof WorkFixed + work.tokenBytes.toNat +
          work.inputHcBytes.toNat + work.routeBytes.toNat) ++
        (toWire work ++ (putWords (tokens.take work.nTokens.toNat) ++ (wire ++
          (orEmpty blob).take work.routeBytes.toNat))) := by
  rw [distSendWorkFrame] at h
  split at h
  · cases h
  · split at h
    · cases h
    · next hbytes =>
      simp only [Bool.or_eq_true, decide_eq_true_eq, not_or, ne_eq, Decidable.not_not] at hbytes
      split at h
      · cases h
      · split at h
        · cases h
        · split at h
          · cases h
          · next values hvalues =>
            split at h
            · cases h
            · next hfit =>
              split at h
              · cases h
              · next wire hwire =>
                cases h
                refine ⟨hbytes.2, Nat.not_lt.mp hfit, wire, ?_, rfl⟩
                split at hvalues
                · next h0 =>
                  rw [if_pos h0] at hwire ⊢
                  exact ⟨values, hvalues, hwire⟩
                · next h0 =>
                  rw [if_neg h0] at hwire ⊢
                  cases hwire
                  rfl

/-- A work frame that is sent declares its length, and the worker that reads it gets back the fixed
part, the tokens, the route blob and the floats as the activation width leaves them. -/
theorem work_round_trip (h : distSendWorkFrame nr work tokens hc blob = some s)
    (ha : WorkArrays work tokens hc blob) :
    ∃ body wire, s = distWriteFrameHeader msgWork body.length ++ body ∧
      body.length ≤ uint32Max ∧
      readWork body = .ok ⟨work, tokens.take work.nTokens.toNat, wire,
        (orEmpty blob).take work.routeBytes.toNat⟩ ∧
      (work.inputHcBytes ≠ 0 → distDecodeActivationPayload nr wire work.inputHcBits =
        .ok (narrowed nr work.inputHcBits (orEmpty hc))) ∧
      wire.length = work.inputHcBytes.toNat := by
  obtain ⟨hb, hfit, wire, hwire, rfl⟩ := distSendWorkFrame_some h
  have htok : (tokens.take work.nTokens.toNat).length = work.nTokens.toNat := by
    rw [List.length_take, Nat.min_eq_left ha.tokens]
  have hroute : ((orEmpty blob).take work.routeBytes.toNat).length = work.routeBytes.toNat := by
    rw [List.length_take, Nat.min_eq_left ha.blob]
  have hw : wire.length = work.inputHcBytes.toNat ∧ (work.inputHcBytes ≠ 0 →
      distDecodeActivationPayload nr wire work.inputHcBits =
        .ok (narrowed nr work.inputHcBits (orEmpty hc))) := by
    split at hwire
    · next h0 =>
      obtain ⟨values, hvalues, hwire⟩ := hwire
      have hsrc := ha.hidden values hvalues h0
      obtain ⟨-, hn⟩ := distActivationValuesFromWireBytes_some hvalues
      refine ⟨?_, fun _ => distDecodeActivationPayload_write hwire hsrc ha.hiddenFits⟩
      rw [hn]
      exact length_distWriteActivationPayload hwire hsrc
    · next h0 =>
      have hzero : work.inputHcBytes = 0 := not_not.mp h0
      rw [hwire, hzero]
      exact ⟨rfl, fun hne => absurd rfl hne⟩
  have hlen : (toWire work ++ (putWords (tokens.take work.nTokens.toNat) ++
      (wire ++ (orEmpty blob).take work.routeBytes.toNat))).length =
      sizeof WorkFixed + work.tokenBytes.toNat + work.inputHcBytes.toNat +
        work.routeBytes.toNat := by
    simp only [List.length_append, length_toWire, length_putWords, htok, hw.1, hroute, hb]
    omega
  refine ⟨_, wire, ?_, ?_, readWork_put htok hb hw.1 hroute, hw.2, hw.1⟩
  · rw [hlen]
  · rw [hlen]
    exact hfit

end Work

/-! ## Result frames -/

section Result
variable {nr : Narrow} {f : ResultFrame} {requestId resultHash : UInt64}
  {status resultKind bits : UInt32} {telemetry ts : List TelemetryFixed} {payload s : Bytes}

namespace ResultFrame

theorem length_body (f : ResultFrame) :
    (toWire f.result ++ (putRecords f.telemetry ++ f.payload)).length = f.size := by
  rw [List.length_append, List.length_append, length_toWire, length_putRecords, size, Nat.add_assoc]

theorem not_short (f : ResultFrame) :
    ¬(decide (msgResult ≠ msgResult) || decide (f.size < sizeof ResultFixed)) = true := by
  have hle : sizeof ResultFixed ≤ f.size := by
    rw [size, Nat.add_assoc]
    exact Nat.le_add_right _ _
  simp only [ne_eq, not_true_eq_false, decide_false, Bool.false_or, decide_eq_true_eq]
  exact Nat.not_lt.mpr hle

/-- The sizes of a frame pass the check of its readers. -/
theorem Sized.sizes (h : f.Sized) : resultSizesBad f.result (f.size - sizeof ResultFixed) = false := by
  have hbody : f.size - sizeof ResultFixed =
      f.telemetry.length * sizeof TelemetryFixed + f.payload.length := by
    rw [size]
    omega
  rw [resultSizesBad, h.telemetryCount, h.telemetryBytes, h.payloadBytes, hbody]
  simp

/-- A header is read back in front of its frame. -/
theorem Sized.readHeader (h : f.Sized) (rest : Bytes) (broken : Bool) :
    distReadFrameHeader ⟨f.put ++ rest, broken⟩ = .ok (msgResult, f.size,
      ⟨toWire f.result ++ (putRecords f.telemetry ++ (f.payload ++ rest)), broken⟩) := by
  have hlt : f.size < 2 ^ 32 := Nat.lt_of_le_of_lt h.fits (by decide)
  rw [put, List.append_assoc, List.append_assoc, List.append_assoc]
  exact distReadFrameHeader_write _ hlt _ _

end ResultFrame

/-- Reading a part that is there. -/
theorem distReadFull_append {a rest : Bytes} {n : Nat} (h : a.length = n) (broken : Bool) :
    distReadFull ⟨a ++ rest, broken⟩ n = .ok (a, ⟨rest, broken⟩) := by
  rw [distReadFull_of_le (by rw [List.length_append]; omega)]
  dsimp only [Conn.drop]
  rw [List.take_left' h, List.drop_left' h]

/-- What the coordinator gets from a frame. -/
def ResultFrame.reply (nr : Narrow) (errlen : Nat) (f : ResultFrame) :
    Except RecvError ResultReply :=
  if f.result.status ≠ 0 then .error (.remote (remoteErrorText f.payload errlen))
  else if f.result.resultKind = resultHiddenState && f.result.payloadBytes ≠ 0 then
    match distDecodeActivationPayload nr f.payload f.result.payloadBits with
    | .error err => .error (.transport err)
    | .ok decoded => .ok ⟨f.result.resultKind, f.resultHash, f.telemetry, decoded⟩
  else .ok ⟨f.result.resultKind, f.resultHash, f.telemetry, f.payload⟩

theorem distRecvResultAlloc_put (nr : Narrow) (h : f.Sized) (errlen : Nat) (rest : Bytes) (broken : Bool) :
    distRecvResultAlloc nr errlen ⟨f.put ++ rest, broken⟩ f.requestId =
      (f.reply nr errlen, ⟨rest, broken⟩) := by
  have hid : ¬distU64FromHalves f.result.requestHi f.result.requestLo ≠ f.requestId :=
    not_not.mpr rfl
  have htel : (putRecords f.telemetry).length = f.result.telemetryBytes.toNat := by
    rw [length_putRecords, h.telemetryBytes]
  rw [distRecvResultAlloc, h.readHeader]
  dsimp only
  rw [if_neg f.not_short, distReadFull_append (length_toWire f.result)]
  dsimp only
  rw [fromWire_toWire, h.sizes, if_neg Bool.false_ne_true, if_neg hid,
    distReadFull_append htel]
  dsimp only
  rw [distReadFull_append h.payloadBytes.symm]
  dsimp only
  rw [h.telemetryCount, getRecords_putRecords, ResultFrame.reply]
  split
  · rfl
  · split
    · cases distDecodeActivationPayload nr f.payload f.result.payloadBits <;> rfl
    · rfl

/-- A frame with one more telemetry record. -/
def ResultFrame.addTelemetry (f : ResultFrame) (t : TelemetryFixed) : ResultFrame where
  result := { f.result with
    telemetryCount := f.result.telemetryCount + 1
    telemetryBytes := UInt32.ofNat (f.result.telemetryBytes.toNat + sizeof TelemetryFixed) }
  telemetry := f.telemetry ++ [t]
  payload := f.payload

theorem ResultFrame.size_addTelemetry (f : ResultFrame) (t : TelemetryFixed) :
    (f.addTelemetry t).size = f.size + sizeof TelemetryFixed := by
  change sizeof ResultFixed + (f.telemetry ++ [t]).length * sizeof TelemetryFixed +
    f.payload.length = _
  rw [size, List.length_append, List.length_singleton, Nat.add_mul, Nat.one_mul]
  omega

theorem ResultFrame.Sized.addTelemetry (h : f.Sized) (t : TelemetryFixed)
    (hfit : f.size + sizeof TelemetryFixed ≤ uint32Max) : (f.addTelemetry t).Sized := by
  have hsize : f.telemetry.length * 40 + 40 < 2 ^ 32 := by
    rw [size, sizeof_telemetry, uint32Max] at hfit
    omega
  have hcount := h.telemetryCount
  have hbytes := h.telemetryBytes
  refine ⟨?_, ?_, h.payloadBytes, ?_⟩
  · change (f.result.telemetryCount + 1).toNat = (f.telemetry ++ [t]).length
    rw [UInt32.toNat_add, hcount, List.length_append, List.length_singleton, UInt32.toNat_one]
    omega
  · change (UInt32.ofNat (f.result.telemetryBytes.toNat + 40)).toNat =
      (f.telemetry ++ [t]).length * 40
    rw [sizeof_telemetry] at hbytes
    rw [hbytes, UInt32.toNat_ofNat_of_lt' hsize, List.length_append, List.length_singleton]
    omega
  · rw [size_addTelemetry]
    exact hfit

/-- One turn of the relay passes a frame on with its own record behind the others. -/
theorem relayTurn_put (h : f.Sized) (t : TelemetryFixed) (rest : Bytes) (broken : Bool)
    (hfit : f.size + sizeof TelemetryFixed ≤ uint32Max) :
    relayTurn ⟨f.put ++ rest, broken⟩ (some (f.requestId, t)) =
      (.relayed (f.addTelemetry t).put, ⟨rest, broken⟩) := by
  have hid : ¬distU64FromHalves f.result.requestHi f.result.requestLo ≠ f.requestId :=
    not_not.mpr rfl
  have htel : (putRecords f.telemetry).length = f.result.telemetryBytes.toNat := by
    rw [length_putRecords, h.telemetryBytes]
  have hadd := h.addTelemetry t hfit
  have hbytes := h.telemetryBytes
  have hsize : f.size = sizeof ResultFixed + f.result.telemetryBytes.toNat +
      f.result.payloadBytes.toNat := by
    rw [ResultFrame.size, hbytes, h.payloadBytes]
  have hout : sizeof ResultFixed + (f.result.telemetryBytes.toNat + sizeof TelemetryFixed) +
      f.result.payloadBytes.toNat = (f.addTelemetry t).size := by
    rw [f.size_addTelemetry t, hsize]
    omega
  have hchain : ¬(decide (f.result.telemetryBytes.toNat + sizeof TelemetryFixed > uint32Max) ||
      decide (f.result.telemetryCount + 1 = 0)) = true := by
    have hne : f.result.telemetryCount + 1 ≠ 0 := by
      intro h0
      have hc := hadd.telemetryCount
      rw [show (f.addTelemetry t).result.telemetryCount = f.result.telemetryCount + 1 from rfl, h0,
        show (f.addTelemetry t).telemetry = f.telemetry ++ [t] from rfl, List.length_append] at hc
      cases hc
    simp only [Bool.or_eq_true, decide_eq_true_eq, not_or]
    exact ⟨by omega, hne⟩
  rw [relayTurn, h.readHeader]
  dsimp only
  rw [if_neg f.not_short, distReadFull_append (length_toWire f.result)]
  dsimp only
  rw [fromWire_toWire, h.sizes, if_neg Bool.false_ne_true, if_neg hid, if_neg hchain,
    hout, if_neg (Nat.not_lt.mpr hadd.fits), distReadFull_append htel]
  dsimp only
  rw [distReadFull_append h.payloadBytes.symm]
  dsimp only
  rw [ResultFrame.put, ← putRecords_singleton t, ← putRecords_append]
  rfl

/-- A result goes through workers one after the other, each with its own telemetry record. -/
def relayThrough (requestId : UInt64) : List TelemetryFixed → Bytes → Option Bytes
  | [], s => some s
  | t :: ts, s =>
    match (relayTurn ⟨s, false⟩ (some (requestId, t))).1 with
    | .relayed s => relayThrough requestId ts s
    | .stopped _ => none

/-- The relays add their records in the order of the workers and change nothing else. -/
theorem relayThrough_put (h : f.Sized)
    (hfit : f.size + ts.length * sizeof TelemetryFixed ≤ uint32Max) :
    ∃ g : ResultFrame, g.Sized ∧ relayThrough f.requestId ts f.put = some g.put ∧
      g.telemetry = f.telemetry ++ ts ∧ g.payload = f.payload ∧ g.requestId = f.requestId ∧
      g.resultHash = f.resultHash ∧ g.result.status = f.result.status ∧
      g.result.resultKind = f.result.resultKind ∧
      g.result.payloadBytes = f.result.payloadBytes ∧
      g.result.payloadBits = f.result.payloadBits := by
  induction ts generalizing f with
  | nil => exact ⟨f, h, rfl, (List.append_nil _).symm, rfl, rfl, rfl, rfl, rfl, rfl, rfl⟩
  | cons t ts ih =>
    rw [List.length_cons, Nat.add_mul, Nat.one_mul] at hfit
    have hone : f.size + sizeof TelemetryFixed ≤ uint32Max := by omega
    have hrest : (f.addTelemetry t).size + ts.length * sizeof TelemetryFixed ≤ uint32Max := by
      rw [f.size_addTelemetry t]
      omega
    obtain ⟨g, hg, hrelay, htel, hsame⟩ := ih (h.addTelemetry t hone) hrest
    have hturn := relayTurn_put h t [] false hone
    rw [List.append_nil] at hturn
    refine ⟨g, hg, ?_, ?_, hsame⟩
    · rw [relayThrough, hturn]
      exact hrelay
    · rw [htel, ResultFrame.addTelemetry, List.append_assoc, List.singleton_append]

theorem sized_resultFixed (requestId resultHash : UInt64) (status resultKind bits : UInt32)
    (telemetry : List TelemetryFixed) (wire : Bytes)
    (hfit : sizeof ResultFixed + telemetry.length * sizeof TelemetryFixed + wire.length ≤
      uint32Max) :
    (ResultFrame.mk (resultFixed requestId resultHash status resultKind telemetry.length wire.length
      bits) telemetry wire).Sized := by
  have hsum : telemetry.length * 40 + wire.length < 2 ^ 32 := by
    rw [sizeof_result, sizeof_telemetry, uint32Max] at hfit
    omega
  have htel : telemetry.length * sizeof TelemetryFixed < 2 ^ 32 := by
    rw [sizeof_telemetry]
    omega
  have hcount : telemetry.length < 2 ^ 32 := by omega
  have hwire : wire.length < 2 ^ 32 := by omega
  exact ⟨UInt32.toNat_ofNat_of_lt' hcount, UInt32.toNat_ofNat_of_lt' htel,
    UInt32.toNat_ofNat_of_lt' hwire, hfit⟩

/-- What a result frame is made of when it is sent. -/
theorem distSendWorkResult_some
    (h : distSendWorkResult nr requestId resultHash status resultKind bits telemetry payload =
      some s) :
    ∃ wire b, sizeof ResultFixed + telemetry.length * sizeof TelemetryFixed + wire.length ≤
        uint32Max ∧
      s = (ResultFrame.mk (resultFixed requestId resultHash status resultKind telemetry.length
        wire.length b) telemetry wire).put ∧
      if hiddenResult status resultKind then
        b = distActivationBitsOrDefault bits ∧ payload.length % 4 = 0 ∧
          (wire.length ≠ 0 →
            distWriteActivationPayload nr payload (payload.length / 4) b = some wire) ∧
          (wire.length = 0 → payload = [])
      else wire = payload := by
  rw [distSendWorkResult] at h
  dsimp only at h
  split at h
  · cases h
  · next n hn =>
    split at h
    · cases h
    · split at h
      · cases h
      · next hfit =>
        split at h
        · cases h
        · next wire hwire =>
          cases h
          cases hh : hiddenResult status resultKind with
          | false =>
            rw [hh, if_neg Bool.false_ne_true] at hn
            rw [hh, Bool.false_and, if_neg Bool.false_ne_true] at hwire
            cases hn
            cases hwire
            exact ⟨payload, _, Nat.not_lt.mp hfit, rfl, rfl⟩
          | true =>
            simp only [hh, if_true] at hn hwire ⊢
            split at hn
            · cases hn
            · next hv =>
              simp only [Bool.or_eq_true, not_or, Bool.not_eq_true', Bool.not_eq_false,
                distActivationBitsValid_orDefault, decide_eq_true_eq, ne_eq,
                Decidable.not_not] at hv
              obtain ⟨hvalid, hmod⟩ := hv
              obtain ⟨-, hbytes, -⟩ := distActivationWireBytes_some hn
              have hpos := (bytesPerValue_cases ((distActivationBitsValid_orDefault bits).trans
                hvalid)).2
              by_cases h0 : n = 0
              · have hnil : payload = [] := by
                  apply List.eq_nil_of_length_eq_zero
                  obtain hz | hz := Nat.mul_eq_zero.mp (hbytes.symm.trans h0) <;> omega
                have hcond : ¬(true && decide (n ≠ 0)) = true := by simp [h0]
                rw [if_neg hcond] at hwire
                cases hwire
                subst hnil h0
                exact ⟨[], _, Nat.not_lt.mp hfit, rfl, rfl, hmod, fun hne => absurd rfl hne,
                  fun _ => rfl⟩
              · have hcond : (true && decide (n ≠ 0)) = true := by simp [h0]
                rw [if_pos hcond] at hwire
                have hlen : wire.length = n := by
                  rw [hbytes]
                  exact length_distWriteActivationPayload hwire (by omega)
                subst hlen
                exact ⟨wire, _, Nat.not_lt.mp hfit, rfl, rfl, hmod, fun _ => hwire,
                  fun hz => absurd hz h0⟩

/-- What an array of floats is at the other end does not depend on how the default width is
spelled. -/
theorem narrowed_orDefault (nr : Narrow) (bits : UInt32) (src : Bytes) :
    narrowed nr (distActivationBitsOrDefault bits) src = narrowed nr bits src := by
  rw [narrowed, narrowed, distActivationBitsOrDefault_idem]

theorem narrowed_nil (nr : Narrow) (bits : UInt32) : narrowed nr bits [] = [] := by
  rw [narrowed]
  split
  · rfl
  · split <;> rfl

/-- A result that is sent and goes through workers reaches the coordinator with its fields: its
payload is decoded, or is the text of the error, and each worker has added one telemetry record
behind the others. -/
theorem result_round_trip
    (h : distSendWorkResult nr requestId resultHash status resultKind bits telemetry payload =
      some s) (hlen : payload.length ≤ uint32Max)
    (hfit : s.length - sizeof FrameHeader + ts.length * sizeof TelemetryFixed ≤ uint32Max) :
    ∃ f g : ResultFrame, f.Sized ∧ s = f.put ∧ g.Sized ∧
      relayThrough requestId ts s = some g.put ∧
      g.payload = f.payload ∧ g.telemetry = telemetry ++ ts ∧
      ∀ errlen rest broken, distRecvResultAlloc nr errlen ⟨g.put ++ rest, broken⟩ requestId =
        (if status = 0 then .ok ⟨resultKind, resultHash, telemetry ++ ts,
            if hiddenResult status resultKind then narrowed nr bits payload else payload⟩
          else .error (.remote (remoteErrorText payload errlen)), ⟨rest, broken⟩) := by
  obtain ⟨wire, b, hsize, rfl, hwire⟩ := distSendWorkResult_some h
  have hf := sized_resultFixed requestId resultHash status resultKind b telemetry wire hsize
  have hid := distU64FromHalves_halves requestId
  have hput : (ResultFrame.mk (resultFixed requestId resultHash status resultKind telemetry.length
      wire.length b) telemetry wire).put.length - sizeof FrameHeader =
      sizeof ResultFixed + telemetry.length * sizeof TelemetryFixed + wire.length := by
    rw [ResultFrame.put, List.length_append, length_distWriteFrameHeader, ResultFrame.length_body,
      sizeof_frameHeader, Nat.add_sub_cancel_left]
    rfl
  rw [hput] at hfit
  obtain ⟨g, hg, hrelay, htel, hpay, hreq, hhash, hstatus, hkind, hbytes, hbits⟩ :=
    relayThrough_put hf hfit
  have hreq' : g.requestId = requestId := hreq.trans hid
  refine ⟨_, g, hf, rfl, hg, ?_, hpay, htel, fun errlen rest broken => ?_⟩
  · rw [← hrelay]
    exact congrArg (relayThrough · ts _) hid.symm
  · have hrecv := distRecvResultAlloc_put nr hg errlen rest broken
    rw [hreq'] at hrecv
    rw [hrecv]
    congr 1
    change g.result.status = status at hstatus
    change g.result.resultKind = resultKind at hkind
    change g.result.payloadBits = b at hbits
    have hhash' : g.resultHash = if status = 0 then resultHash else 0 :=
      hhash.trans (distU64FromHalves_halves _)
    rw [ResultFrame.reply, hstatus, hkind, hpay, hhash', htel]
    by_cases h0 : status = 0
    · rw [if_neg (not_not.mpr h0), if_pos h0, if_pos h0]
      have hhid : hiddenResult status resultKind = decide (resultKind = resultHiddenState) := by
        rw [hiddenResult, h0]
        rfl
      rw [← hhid]
      have hcount : g.result.payloadBytes.toNat = wire.length := by rw [hg.payloadBytes, hpay]
      cases hh : hiddenResult status resultKind with
      | false =>
        rw [hh, if_neg Bool.false_ne_true] at hwire
        rw [hwire]
        rfl
      | true =>
        rw [hh, if_pos rfl] at hwire
        obtain ⟨rfl, hmod, hwrite, hnil⟩ := hwire
        by_cases hz : wire.length = 0
        · have hb0 : g.result.payloadBytes = 0 := UInt32.toNat_inj.mp (hcount.trans hz)
          have hw : wire = [] := List.eq_nil_of_length_eq_zero hz
          rw [hb0, hnil hz, narrowed_nil, hw]
          rfl
        · have hne : g.result.payloadBytes ≠ 0 := by
            intro hb0
            rw [hb0] at hcount
            exact hz hcount.symm
          have hdec := distDecodeActivationPayload_write (hwrite hz) (by omega) hlen
          rw [narrowed_orDefault] at hdec
          rw [hbits, decide_eq_true hne]
          change (match distDecodeActivationPayload nr wire _ with
            | .error err => _
            | .ok decoded => _) = _
          rw [hdec]
          rfl
    · rw [if_pos h0, if_neg h0]
      have hh : hiddenResult status resultKind = false := by
        rw [hiddenResult, decide_eq_false h0, Bool.false_and]
      rw [hh, if_neg Bool.false_ne_true] at hwire
      rw [hwire]

end Result

/-- Work and result frames declare their lengths and are read back; the relays of any number of
workers leave the payload of a result as it is and add one telemetry record each, in order. -/
theorem work_and_result_round_trip (nr : Narrow) :
    (∀ (work : WorkFixed) (tokens : List UInt32) (hc blob : Option Bytes) (s : Bytes),
      distSendWorkFrame nr work tokens hc blob = some s → WorkArrays work tokens hc blob →
      ∃ body wire, s = distWriteFrameHeader msgWork body.length ++ body ∧
        body.length ≤ uint32Max ∧
        readWork body = .ok ⟨work, tokens.take work.nTokens.toNat, wire,
          (orEmpty blob).take work.routeBytes.toNat⟩ ∧
        (work.inputHcBytes ≠ 0 → distDecodeActivationPayload nr wire work.inputHcBits =
          .ok (narrowed nr work.inputHcBits (orEmpty hc))) ∧
        wire.length = work.inputHcBytes.toNat) ∧
    ∀ (requestId resultHash : UInt64) (status resultKind bits : UInt32)
      (telemetry ts : List TelemetryFixed) (payload s : Bytes),
      distSendWorkResult nr requestId resultHash status resultKind bits telemetry payload =
        some s → payload.length ≤ uint32Max →
      s.length - sizeof FrameHeader + ts.length * sizeof TelemetryFixed ≤ uint32Max →
      ∃ f g : ResultFrame, f.Sized ∧ s = f.put ∧ g.Sized ∧
        relayThrough requestId ts s = some g.put ∧
        g.payload = f.payload ∧ g.telemetry = telemetry ++ ts ∧
        ∀ errlen rest broken, distRecvResultAlloc nr errlen ⟨g.put ++ rest, broken⟩ requestId =
          (if status = 0 then .ok ⟨resultKind, resultHash, telemetry ++ ts,
              if hiddenResult status resultKind then narrowed nr bits payload else payload⟩
            else .error (.remote (remoteErrorText payload errlen)), ⟨rest, broken⟩) :=
  ⟨fun _ _ _ _ _ h ha => work_round_trip h ha,
    fun _ _ _ _ _ _ _ _ _ h hlen hfit => result_round_trip h hlen hfit⟩

/-- Conversions for the examples, in which no float is narrowed. -/
def zeroNarrow : Narrow := ⟨fun _ => 0, fun _ => 0, fun _ => 0, fun _ => 0⟩

/-- One token with one float of hidden state and a route blob of three bytes. -/
def smallWork : WorkFixed :=
  { (default : WorkFixed) with nTokens := 1, tokenBytes := 4, inputHcBytes := 4, routeBytes := 3 }

theorem smallWork_round_trip :
    ∃ s body wire, distSendWorkFrame zeroNarrow smallWork [7] (some [1, 2, 3, 4]) (some [9, 8, 7]) =
        some s ∧ s = distWriteFrameHeader msgWork body.length ++ body ∧
      readWork body = .ok ⟨smallWork, [7], wire, [9, 8, 7]⟩ := by
  have ha : WorkArrays smallWork [7] (some [1, 2, 3, 4]) (some [9, 8, 7]) := by
    refine ⟨by decide, fun values hv _ => ?_, by decide, by decide⟩
    have hone : distActivationValuesFromWireBytes smallWork.inputHcBits
        smallWork.inputHcBytes.toNat = some 1 := rfl
    cases hv.symm.trans hone
    rfl
  obtain ⟨body, wire, hs, -, hread, -, -⟩ :=
    (work_and_result_round_trip zeroNarrow).1 smallWork [7] (some [1, 2, 3, 4]) (some [9, 8, 7]) _
      rfl ha
  exact ⟨_, body, wire, rfl, hs, hread⟩

/-- An error without a text arrives with the text of the reader. -/
theorem error_text_replaced :
    ¬∀ (nr : Narrow) (requestId : UInt64) (msg s : Bytes),
      distSendWorkError nr requestId (some msg) = some s →
      (distRecvResultAlloc nr 256 ⟨s, false⟩ requestId).1 = .error (.remote msg) := by
  intro h
  have hf : (ResultFrame.mk (resultFixed 0 0 1 0 0 0 0) [] []).Sized :=
    sized_resultFixed 0 0 1 0 0 [] [] (by decide)
  have hrecv := distRecvResultAlloc_put zeroNarrow hf 256 [] false
  have htext := h zeroNarrow 0 [] (ResultFrame.mk (resultFixed 0 0 1 0 0 0 0) [] []).put rfl
  have hid : (ResultFrame.mk (resultFixed 0 0 1 0 0 0 0) [] []).requestId = 0 := by decide
  rw [List.append_nil, hid] at hrecv
  rw [hrecv] at htext
  have hne : ResultFrame.reply zeroNarrow 256 ⟨resultFixed 0 0 1 0 0 0 0, [], []⟩ ≠
      .error (.remote []) := by
    intro heq
    injection heq with heq
    injection heq with heq
    revert heq
    decide
  exact hne htext

end Ds4.Dist
