import Ds4.Tp.Receive

/-!
# What is sent is what is received

Every decoder is exact: it stays within the payload, and a command that it accepts fills the payload.
What the leader sends comes back as the command that it stands for, with one exception that the two
sides do not agree on: an image without tokens or without a width is sent, and refused.
-/

namespace Ds4.Tp
open C Packed Wire

variable {nEmbd : UInt32} {command : TpCommand nEmbd} {payload : Bytes}

/-! ## The payload that a command fills -/

def imageBytes (image : VisionSpan nEmbd) : Nat :=
  size VisionWire + (image.embedding.data.getD []).length * size UInt32

/-- The length of the payload with the lists of a command. -/
def payloadBytes (command : TpCommand nEmbd) : FrameType → Nat
  | .sync | .verify => size TokenCommandHeader + command.tokens.length * size Int32
  | .syncMultimodal => size MultimodalCommandHeader + command.tokens.length * size Int32 +
      (command.images.map imageBytes).sum
  | .sessionCreate | .rewind => size ValueCommand
  | .sessionDestroy | .invalidate => size UInt64
  | .eval | .glmMtp => size EvalCommand
  | .evalBatch => size BatchCommandHeader + command.items.length * size BatchItem
  | .mixedBatch => size MixedCommandHeader + command.tokens.length * size Int32 +
      command.items.length * size BatchItem
  | _ => 0

/-- A decoder stays within the payload, and what it accepts fills the payload. -/
def Exact (ftype : FrameType) (payload : Bytes) (r : Option (Bool × TpCommand nEmbd)) : Prop :=
  ∃ ok command, r = some (ok, command) ∧
    (ok = true → payloadBytes command ftype = payload.length)

theorem exact_refused {ftype : FrameType} : Exact ftype payload (some (false, command)) :=
  ⟨false, command, rfl, fun h => nomatch h⟩

theorem exact_accepted {ftype : FrameType} (h : payloadBytes command ftype = payload.length)
    (ok : Bool) : Exact ftype payload (some (ok, command)) := ⟨ok, command, rfl, fun _ => h⟩

theorem exact_tokens {ftype : FrameType} (htype : ftype = .sync ∨ ftype = .verify) :
    Exact ftype payload (tpCommandDecodeTokens command payload) := by
  rw [tpCommandDecodeTokens]
  split
  · exact exact_refused
  · next hlen =>
    rw [readAt_of_le (by omega)]
    simp only [Option.bind_eq_bind, Option.bind_some]
    split
    · exact exact_refused
    · next hwant =>
      rw [readAt_of_le (by omega), Option.bind_some]
      apply exact_accepted
      rcases htype with h | h <;> rw [h, payloadBytes, length_getArray] <;> omega

theorem exact_value {ftype : FrameType} (htype : ftype = .sessionCreate ∨ ftype = .rewind) :
    Exact ftype payload (decodeValue command payload) := by
  rw [decodeValue]
  split
  · exact exact_refused
  · next hlen =>
    rw [readAt_of_le (by omega)]
    simp only [Option.bind_eq_bind, Option.bind_some]
    apply exact_accepted
    rcases htype with h | h <;> rw [h, payloadBytes] <;> omega

theorem exact_session {ftype : FrameType} (htype : ftype = .sessionDestroy ∨ ftype = .invalidate) :
    Exact ftype payload (decodeSession command payload) := by
  rw [decodeSession]
  split
  · exact exact_refused
  · next hlen =>
    rw [readAt_of_le (by omega)]
    simp only [Option.bind_eq_bind, Option.bind_some]
    apply exact_accepted
    rcases htype with h | h <;> rw [h, payloadBytes] <;> omega

theorem exact_eval {ftype : FrameType} (htype : ftype = .eval ∨ ftype = .glmMtp) :
    Exact ftype payload (decodeEval ftype command payload) := by
  rw [decodeEval]
  split
  · exact exact_refused
  · next hlen =>
    have hbytes : ∀ command : TpCommand nEmbd, payloadBytes command ftype = payload.length := by
      intro command
      rcases htype with h | h <;> rw [h, payloadBytes] <;> omega
    rw [readAt_of_le (by omega)]
    simp only [Option.bind_eq_bind, Option.bind_some]
    split
    · split
      · exact exact_refused
      · exact exact_accepted (hbytes _) _
    · exact exact_accepted (hbytes _) _

theorem exact_batch : Exact .evalBatch payload (decodeBatch command payload) := by
  rw [decodeBatch]
  split
  · exact exact_refused
  · next hlen =>
    rw [readAt_of_le (by omega)]
    simp only [Option.bind_eq_bind, Option.bind_some]
    split
    · exact exact_refused
    · next hwant =>
      rw [readAt_of_le (by omega), Option.bind_some]
      apply exact_accepted
      rw [payloadBytes, length_getArray]
      omega

theorem exact_mixed : Exact .mixedBatch payload (decodeMixed command payload) := by
  rw [decodeMixed]
  split
  · exact exact_refused
  · next hlen =>
    rw [readAt_of_le (by omega)]
    simp only [Option.bind_eq_bind, Option.bind_some]
    split
    · exact exact_refused
    · next hwant =>
      rw [readAt_of_le (by omega), readAt_of_le (by omega), Option.bind_some, Option.bind_some]
      apply exact_accepted
      rw [payloadBytes, length_getArray, length_getArray]
      omega

/-- The loop over the images stays within the payload, and goes on by what the images take. -/
theorem decodeImages_exact (nEmbd : UInt32) (count : Nat) {pos : Nat} (hpos : pos ≤ payload.length) :
    decodeImages nEmbd payload count pos = some none ∨
      ∃ images next, decodeImages nEmbd payload count pos = some (some (images, next)) ∧
        next = pos + (images.map imageBytes).sum ∧ next ≤ payload.length := by
  induction count generalizing pos with
  | zero => exact .inr ⟨[], pos, rfl, rfl, hpos⟩
  | succ count ih =>
    rw [decodeImages]
    split
    · exact .inl rfl
    · next hwire =>
      rw [readAt_of_le (by omega)]
      simp only [Option.bind_eq_bind, Option.bind_some]
      split
      · exact .inl rfl
      · next hgood =>
        split
        · exact .inl rfl
        · next hdata =>
          rw [readAt_of_le (by omega), Option.bind_some]
          generalize hw : (get ((payload.drop pos).take (size VisionWire)) : VisionWire) = wire at *
          rcases ih (by omega : pos + size VisionWire +
              wire.tokenCount.toNat * wire.dataWidth.toNat * size UInt32 ≤ payload.length) with
            hnone | ⟨images, next, hsome, hnext, hle⟩
          · rw [hnone]
            exact .inl rfl
          · rw [hsome]
            refine .inr ⟨_, next, rfl, ?_, hle⟩
            rw [hnext, List.map_cons, List.sum_cons, imageBytes, imageOfWire, Option.getD_some,
              length_getArray]
            omega

theorem exact_multimodal : Exact .syncMultimodal payload (tpCommandDecodeMultimodal command payload) := by
  rw [tpCommandDecodeMultimodal]
  split
  · exact exact_refused
  · next hlen =>
    rw [readAt_of_le (by omega)]
    simp only [Option.bind_eq_bind, Option.bind_some]
    split
    · exact exact_refused
    · next htokens =>
      split
      · exact exact_refused
      · rw [readAt_of_le (by omega), Option.bind_some]
        generalize (get ((payload.drop 0).take (size MultimodalCommandHeader)) :
          MultimodalCommandHeader) = h at *
        rcases decodeImages_exact nEmbd h.imageCount.toNat (Nat.le_of_not_lt htokens) with hnone | ⟨images, next, hsome, hnext, hle⟩
        · rw [hnone]
          exact exact_refused
        · rw [hsome, Option.bind_some]
          dsimp only
          split
          · exact exact_refused
          · next hend =>
            apply exact_accepted
            rw [payloadBytes, length_getArray]
            dsimp only
            omega

theorem exact_decode (ftype : FrameType) (command : TpCommand nEmbd) (payload : Bytes) :
    Exact ftype payload (decode (some ftype) command payload) := by
  cases ftype with
  | sync => exact exact_tokens (.inl rfl)
  | verify => exact exact_tokens (.inr rfl)
  | syncMultimodal => exact exact_multimodal
  | sessionCreate => exact exact_value (.inl rfl)
  | rewind => exact exact_value (.inr rfl)
  | sessionDestroy => exact exact_session (.inl rfl)
  | invalidate => exact exact_session (.inr rfl)
  | eval => exact exact_eval (.inl rfl)
  | glmMtp => exact exact_eval (.inr rfl)
  | evalBatch => exact exact_batch
  | mixedBatch => exact exact_mixed
  | stop => exact ⟨_, command, rfl, fun h => (of_decide_eq_true h).symm⟩
  | _ => exact exact_refused

/-! ## Payloads come back -/

section Sent
variable {sessionId : UInt64} {s : Bytes}

/-- What was sent is a frame whose payload the decoder turns into a command. -/
def Mirrors (ftype : FrameType) (s : Bytes)
    (decoder : Bytes → Option (Bool × TpCommand nEmbd)) (ok : Bool) (command : TpCommand nEmbd) : Prop :=
  ∃ payload, s = tpSendFrame ftype payload ∧ payload.length ≤ uint32Max ∧
    decoder payload = some (ok, command)

/-- A count of entries that fit into a payload is not cut off. -/
theorem toNat_count {n k : Nat} (hk : 0 < k) (h : n * k ≤ uint32Max) :
    (UInt32.ofNat n).toNat = n := by
  have hle : n ≤ n * k := Nat.le_mul_of_pos_right n hk
  apply UInt32.toNat_ofNat_of_lt'
  exact Nat.lt_of_le_of_lt (hle.trans h) (Nat.sub_lt (Nat.two_pow_pos 32) Nat.one_pos)

theorem mirrors_tokens {ftype : FrameType} {tokens : List Int32}
    (h : tpSendTokenCommand ftype sessionId tokens = some s) :
    Mirrors ftype s (tpCommandDecodeTokens command) true { command with sessionId, tokens } := by
  rw [tpSendTokenCommand] at h
  split at h
  · cases h
  · next hfits =>
    cases h
    refine ⟨_, rfl, ?_, ?_⟩
    · rw [List.length_append, length_put, length_putArray]
      omega
    · have hcount := toNat_count (n := tokens.length) (k := size Int32) (by decide) (by omega)
      rw [tpCommandDecodeTokens, if_neg (by rw [List.length_append, length_put]; omega),
        readAt_left (length_put _)]
      simp only [Option.bind_eq_bind, Option.bind_some, get_put]
      rw [hcount, if_neg (by rw [List.length_append, length_put, length_putArray, Ne, not_not]),
        readAt_right (length_put _) (length_putArray tokens), Option.bind_some, getArray_putArray]

theorem mirrors_value (ftype : FrameType) (value : Int32) :
    Mirrors ftype (tpSendFrame ftype (put (ValueCommand.mk sessionId value 0)))
      (decodeValue command) true { command with sessionId, value } := by
  refine ⟨_, rfl, ?_, ?_⟩
  · rw [length_put]
    exact Nat.le_of_ble_eq_true rfl
  · rw [decodeValue, if_neg (by rw [length_put, Ne, not_not]), ← List.append_nil (put _),
      readAt_left (length_put _)]
    simp only [Option.bind_eq_bind, Option.bind_some, get_put]

theorem mirrors_session (ftype : FrameType) :
    Mirrors ftype (tpSendFrame ftype (put sessionId)) (decodeSession command) true
      { command with sessionId } := by
  refine ⟨_, rfl, ?_, ?_⟩
  · rw [length_put]
    exact Nat.le_of_ble_eq_true rfl
  · rw [decodeSession, if_neg (by rw [length_put, Ne, not_not]), ← List.append_nil (put _),
      readAt_left (length_put _)]
    simp only [Option.bind_eq_bind, Option.bind_some, get_put]

theorem mirrors_eval (seq : UInt64) (token : Int32) :
    Mirrors .eval (tpSendFrame .eval (put (EvalCommand.mk sessionId seq token 0)))
      (decodeEval .eval command) true { command with sessionId, seq, value := token } := by
  refine ⟨_, rfl, ?_, ?_⟩
  · rw [length_put]
    exact Nat.le_of_ble_eq_true rfl
  · rw [decodeEval, if_neg (by rw [length_put, Ne, not_not]), ← List.append_nil (put _),
      readAt_left (length_put _)]
    simp only [Option.bind_eq_bind, Option.bind_some, get_put]
    rfl

theorem mirrors_glmMtp {seq : UInt64} {token limit : Int32}
    (h : ds4TpSendGlmMtp sessionId seq token limit = some s) :
    Mirrors .glmMtp s (decodeEval .glmMtp command) true
      { command with sessionId, seq, value := token, limit } := by
  rw [ds4TpSendGlmMtp] at h
  split at h
  · cases h
  · next hlimit =>
    cases h
    refine ⟨_, rfl, ?_, ?_⟩
    · rw [length_put]
      exact Nat.le_of_ble_eq_true rfl
    · obtain ⟨hlow, hhigh⟩ := not_or.mp hlimit
      have hlow' : (1 : Int32) ≤ limit := Int32.not_lt.mp hlow
      have hreserved : ¬(limit.toUInt32 < 1 ∨ limit.toUInt32 > 2) := not_or.mpr
        ⟨UInt32.not_lt.mpr (Int32.toUInt32_le (a := 1) (by decide) hlow'),
          UInt32.not_lt.mpr (Int32.toUInt32_le (b := 2) (Int32.le_trans (by decide) hlow')
            (Int32.not_lt.mp hhigh))⟩
      rw [decodeEval, if_neg (by rw [length_put, Ne, not_not]), ← List.append_nil (put _),
        readAt_left (length_put _)]
      simp only [Option.bind_eq_bind, Option.bind_some, get_put]
      rw [if_pos trivial, if_neg hreserved]
      rfl

theorem mirrors_batch {items : List BatchItem} (h : ds4TpSendEvalBatch items = some s) :
    Mirrors .evalBatch s (decodeBatch command) true { command with items } := by
  rw [ds4TpSendEvalBatch] at h
  split at h
  · cases h
  · next hfits =>
    cases h
    obtain ⟨hne, hfits⟩ := not_or.mp hfits
    have hcount := toNat_count (n := items.length) (k := size BatchItem) (by decide) (by omega)
    refine ⟨_, rfl, ?_, ?_⟩
    · rw [List.length_append, length_put, length_putArray]
      omega
    · have hzero : ¬UInt32.ofNat items.length = 0 := by
        intro hzero
        rw [hzero] at hcount
        exact hne hcount.symm
      rw [decodeBatch, if_neg (by rw [List.length_append, length_put]; omega),
        readAt_left (length_put _)]
      simp only [Option.bind_eq_bind, Option.bind_some, get_put]
      rw [hcount, if_neg, readAt_right (length_put _) (length_putArray items), Option.bind_some,
        getArray_putArray]
      rw [List.length_append, length_put, length_putArray, not_or, Ne, not_not]
      exact ⟨hzero, rfl⟩

theorem mirrors_mixed {prompt : List Int32} {items : List BatchItem}
    (h : ds4TpSendMixedBatch sessionId prompt items = some s) :
    Mirrors .mixedBatch s (decodeMixed command) true
      { command with sessionId, tokens := prompt, items } := by
  rw [ds4TpSendMixedBatch] at h
  split at h
  · cases h
  · next hfits =>
    cases h
    rw [not_or, not_or] at hfits
    obtain ⟨hprompt, hitems, hfits⟩ := hfits
    have hcount := toNat_count (n := prompt.length) (k := size Int32) (by decide) (by omega)
    have hcount' := toNat_count (n := items.length) (k := size BatchItem) (by decide) (by omega)
    refine ⟨_, rfl, ?_, ?_⟩
    · rw [List.length_append, List.length_append, length_put, length_putArray, length_putArray]
      omega
    · have hzero : ¬UInt32.ofNat prompt.length = 0 := by
        intro hzero
        rw [hzero] at hcount
        exact hprompt hcount.symm
      have hzero' : ¬UInt32.ofNat items.length = 0 := by
        intro hzero
        rw [hzero] at hcount'
        exact hitems hcount'.symm
      rw [decodeMixed, if_neg (by rw [List.length_append, length_put]; omega),
        readAt_left (length_put _)]
      simp only [Option.bind_eq_bind, Option.bind_some, get_put]
      rw [hcount, hcount', if_neg, readAt_middle (length_put _) (length_putArray prompt),
        Option.bind_some, ← List.append_assoc, readAt_right, Option.bind_some, getArray_putArray,
        getArray_putArray]
      · rw [List.length_append, length_put, length_putArray]
      · exact length_putArray items
      · rw [List.length_append, List.length_append, length_put, length_putArray, length_putArray,
          not_or, not_or, Ne, not_not]
        exact ⟨hzero, hzero', Nat.add_assoc ..⟩

/-! ## Images -/

/-- The receiver takes an image that has tokens and a width. -/
def Receivable (image : VisionSpan nEmbd) : Prop :=
  image.embedding.tokenCount ≠ 0 ∧ image.embedding.width ≠ 0

instance (image : VisionSpan nEmbd) : Decidable (Receivable image) := inferInstanceAs (Decidable (_ ∧ _))

/-- The layout of an image does not travel. -/
def transmitted (image : VisionSpan nEmbd) : VisionSpan nEmbd :=
  { image with embedding := { image.embedding with layout := 0, gridWidth := 0, gridHeight := 0 } }

/-- What the sender checks of an image. -/
structure Carried (image : VisionSpan nEmbd) : Prop where
  data : image.embedding.data ≠ none
  values : image.embedding.tokenCount.toNat * nEmbd.toNat ≤ uint64Max / size UInt32

theorem addBytes_some {image : VisionSpan nEmbd} {n : Nat} (h : addBytes image = some n) :
    Carried image ∧ n ≤ uint32Max := by
  rw [addBytes] at h
  split at h
  · cases h
  · next hvalues =>
    dsimp only at h
    split at h
    · cases h
    · next hor =>
      cases h
      obtain ⟨hdata, hfits⟩ := not_or.mp hor
      exact ⟨⟨hdata, Nat.le_of_not_lt hvalues⟩, Nat.le_of_not_lt hfits⟩

theorem multimodalBytes_some {images : List (VisionSpan nEmbd)} {bytes n : Nat}
    (hbytes : bytes ≤ uint32Max) (h : multimodalBytes bytes images = some n) :
    (∀ image ∈ images, Carried image) ∧ n ≤ uint32Max := by
  induction images generalizing bytes with
  | nil =>
    cases h
    exact ⟨fun _ himage => (List.not_mem_nil himage).elim, hbytes⟩
  | cons image images ih =>
    rw [multimodalBytes] at h
    split at h
    · cases h
    · next add hadd =>
      obtain ⟨hcarried, hle⟩ := addBytes_some hadd
      split at h
      · cases h
      · next hfits =>
        obtain ⟨hrest, hn⟩ := ih (by omega) h
        refine ⟨fun i hi => ?_, hn⟩
        cases hi with
        | head => exact hcarried
        | tail _ hi => exact hrest i hi

theorem badWire_visionWire {image : VisionSpan nEmbd} (h : Carried image) :
    badWire nEmbd (visionWire image) ↔ ¬Receivable image := by
  have hvalues := h.values
  rw [badWire, visionWire, Receivable]
  dsimp only
  constructor
  · rintro (h | h | h | h)
    · exact fun hr => hr.1 h
    · exact absurd rfl h
    · exact fun hr => hr.2 h
    · omega
  · intro hr
    by_cases htokens : image.embedding.tokenCount = 0
    · exact .inl htokens
    · refine .inr (.inr (.inl ?_))
      by_contra hwidth
      exact hr ⟨htokens, hwidth⟩

theorem imageOfWire_visionWire {image : VisionSpan nEmbd} {values : List UInt32}
    (hdata : image.embedding.data = some values) (h : ¬badWire nEmbd (visionWire image)) :
    imageOfWire (visionWire image) h (putArray values) = transmitted image := by
  have hlen := image.embedding.length_data values hdata
  have hvalues : getArray UInt32 ((visionWire image).tokenCount.toNat *
      (visionWire image).dataWidth.toNat) (putArray values) = values := by
    rw [visionWire, ← hlen, getArray_putArray]
  simp only [imageOfWire, transmitted, hvalues, hdata]
  rfl

/-- The images come back if each of them has tokens and a width. -/
theorem decodeImages_put {images : List (VisionSpan nEmbd)} (hcarried : ∀ image ∈ images, Carried image)
    {before : Bytes} {pos : Nat} (hpos : before.length = pos) :
    decodeImages nEmbd (before ++ images.flatMap putImage) images.length pos =
      some (if ∀ image ∈ images, Receivable image then
        some (images.map transmitted, (before ++ images.flatMap putImage).length) else none) := by
  induction images generalizing before pos with
  | nil =>
    rw [if_pos fun _ himage => (List.not_mem_nil himage).elim, List.flatMap_nil, List.append_nil, hpos]
    rfl
  | cons image images ih =>
    have himage := hcarried image List.mem_cons_self
    obtain ⟨values, hdata⟩ := Option.ne_none_iff_exists'.mp himage.data
    have hlen : values.length * size UInt32 = (visionWire image).tokenCount.toNat *
        (visionWire image).dataWidth.toNat * size UInt32 := by
      rw [image.embedding.length_data values hdata]
      rfl
    have hput : putImage image = put (visionWire image) ++ putArray values := by
      rw [putImage, hdata, Option.getD_some]
    have ih := ih (fun i hi => hcarried i (List.mem_cons_of_mem _ hi))
      (rfl : (before ++ putImage image).length = _)
    have hwire : (put (visionWire image)).length = size VisionWire := length_put _
    have harray : (putArray values).length = values.length * size UInt32 := length_putArray values
    rw [List.flatMap_cons, List.length_cons, decodeImages]
    rw [List.append_assoc] at ih
    generalize hrest : images.flatMap putImage = rest at ih ⊢
    rw [hput, List.append_assoc, if_neg (by simp only [List.length_append]; omega),
      readAt_middle hpos hwire]
    simp only [Option.bind_eq_bind, Option.bind_some, get_put]
    by_cases hr : Receivable image
    · have hgood : ¬badWire nEmbd (visionWire image) := fun hbad =>
        (badWire_visionWire himage).mp hbad hr
      rw [dif_neg hgood, if_neg (by simp only [List.length_append]; omega), ← List.append_assoc before,
        readAt_middle (by rw [List.length_append]; omega) (by rw [harray, hlen]), Option.bind_some]
      rw [hput, List.append_assoc, ← List.append_assoc before] at ih
      have hnext : pos + size VisionWire + (visionWire image).tokenCount.toNat *
          (visionWire image).dataWidth.toNat * size UInt32 =
          (before ++ (put (visionWire image) ++ putArray values)).length := by
        simp only [List.length_append]
        omega
      rw [hnext, ih]
      by_cases hall : ∀ image ∈ images, Receivable image
      · have hcons : ∀ i ∈ image :: images, Receivable i := by
          intro i hi
          cases hi with
          | head => exact hr
          | tail _ hi => exact hall i hi
        rw [if_pos hall, if_pos hcons, Option.bind_some, imageOfWire_visionWire hdata]
        rfl
      · have hcons : ¬∀ i ∈ image :: images, Receivable i := fun h =>
          hall fun i hi => h i (List.mem_cons_of_mem _ hi)
        rw [if_neg hall, if_neg hcons, Option.bind_some]
    · have hcons : ¬∀ i ∈ image :: images, Receivable i := fun h => hr (h image List.mem_cons_self)
      rw [dif_pos ((badWire_visionWire himage).mpr hr), if_neg hcons]

theorem length_flatMap_putImage (images : List (VisionSpan nEmbd)) :
    images.length * size VisionWire ≤ (images.flatMap putImage).length := by
  induction images with
  | nil => exact Nat.le_of_eq (Nat.zero_mul _)
  | cons image images ih =>
    rw [List.flatMap_cons, List.length_append, List.length_cons, Nat.succ_mul, putImage,
      List.length_append, length_put]
    omega

/-- The command that a multimodal sync leaves behind. -/
def multimodalCommand (command : TpCommand nEmbd) (sessionId : UInt64) (tokens : List Int32)
    (images : List (VisionSpan nEmbd)) : TpCommand nEmbd :=
  if ∀ image ∈ images, Receivable image then
    { command with sessionId, tokens, images := images.map transmitted }
  else command

theorem mirrors_multimodal {tokens : List Int32} {images : List (VisionSpan nEmbd)}
    (h : ds4TpSendSyncMultimodal sessionId tokens images = some s) :
    Mirrors .syncMultimodal s (tpCommandDecodeMultimodal command)
      (∀ image ∈ images, Receivable image) (multimodalCommand command sessionId tokens images) := by
  rw [ds4TpSendSyncMultimodal] at h
  split at h
  · cases h
  · next hfits =>
    split at h
    · cases h
    · next total htotal =>
      dsimp only at h
      split at h
      · cases h
      · next hlen =>
        cases h
        rw [not_not] at hlen
        obtain ⟨hcarried, htotal⟩ :=
          multimodalBytes_some (Nat.le_of_not_lt (not_or.mp hfits).2) htotal
        refine ⟨_, rfl, by rw [hlen]; exact htotal, ?_⟩
        have himages := length_flatMap_putImage images
        have hheader : (put (MultimodalCommandHeader.mk sessionId (UInt32.ofNat tokens.length)
          (UInt32.ofNat images.length))).length = size MultimodalCommandHeader := length_put _
        have htokens := length_putArray tokens
        rw [List.length_append, List.length_append] at hlen
        have hcount := toNat_count (n := tokens.length) (k := size Int32) (by decide) (by omega)
        have hcount' := toNat_count (n := images.length) (k := size VisionWire) (by decide) (by omega)
        rw [tpCommandDecodeMultimodal, if_neg (by rw [List.length_append]; omega), readAt_left hheader]
        simp only [Option.bind_eq_bind, Option.bind_some, get_put]
        have hroom : ¬images.length > ((put (MultimodalCommandHeader.mk sessionId
            (UInt32.ofNat tokens.length) (UInt32.ofNat images.length)) ++
              (putArray tokens ++ images.flatMap putImage)).length - size MultimodalCommandHeader -
                tokens.length * size Int32) / size VisionWire := by
          rw [List.length_append, List.length_append, Nat.not_lt,
            Nat.le_div_iff_mul_le (by decide)]
          omega
        rw [hcount, hcount', if_neg (by simp only [List.length_append]; omega), if_neg hroom,
          readAt_middle hheader htokens, Option.bind_some, ← List.append_assoc,
          decodeImages_put hcarried (by rw [List.length_append]; omega), Option.bind_some,
          multimodalCommand, getArray_putArray]
        by_cases hall : ∀ image ∈ images, Receivable image
        · rw [if_pos hall, if_pos hall, decide_eq_true hall]
          exact if_neg fun hne => hne rfl
        · rw [if_neg hall, if_neg hall, decide_eq_false hall]

end Sent

/-! ## Commands -/

/-- What a leader sends, by its sender. -/
inductive LeaderCommand (nEmbd : UInt32)
  | sessionCreate (sessionId : UInt64) (ctxSize : Int32)
  | sessionDestroy (sessionId : UInt64)
  | sync (sessionId : UInt64) (tokens : List Int32)
  | syncMultimodal (sessionId : UInt64) (tokens : List Int32) (images : List (VisionSpan nEmbd))
  | eval (sessionId seq : UInt64) (token : Int32)
  | glmMtp (sessionId seq : UInt64) (token limit : Int32)
  | verify (sessionId : UInt64) (drafts : List Int32)
  | rewind (sessionId : UInt64) (pos : Int32)
  | invalidate (sessionId : UInt64)
  | evalBatch (items : List BatchItem)
  | mixedBatch (prefillSessionId : UInt64) (prompt : List Int32) (items : List BatchItem)
  | stop

namespace LeaderCommand

def send : LeaderCommand nEmbd → Option Bytes
  | sessionCreate sessionId ctxSize => ds4TpSendSessionCreate sessionId ctxSize
  | sessionDestroy sessionId => ds4TpSendSessionDestroy sessionId
  | sync sessionId tokens => ds4TpSendSync sessionId tokens
  | syncMultimodal sessionId tokens images => ds4TpSendSyncMultimodal sessionId tokens images
  | eval sessionId seq token => ds4TpSendEval sessionId seq token
  | glmMtp sessionId seq token limit => ds4TpSendGlmMtp sessionId seq token limit
  | verify sessionId drafts => ds4TpSendVerify sessionId drafts
  | rewind sessionId pos => ds4TpSendRewind sessionId pos
  | invalidate sessionId => ds4TpSendInvalidate sessionId
  | evalBatch items => ds4TpSendEvalBatch items
  | mixedBatch prefillSessionId prompt items => ds4TpSendMixedBatch prefillSessionId prompt items
  | stop => ds4TpSendStop

def type : LeaderCommand nEmbd → FrameType
  | sessionCreate .. => .sessionCreate
  | sessionDestroy .. => .sessionDestroy
  | sync .. => .sync
  | syncMultimodal .. => .syncMultimodal
  | eval .. => .eval
  | glmMtp .. => .glmMtp
  | verify .. => .verify
  | rewind .. => .rewind
  | invalidate .. => .invalidate
  | evalBatch .. => .evalBatch
  | mixedBatch .. => .mixedBatch
  | stop => .stop

/-- The fields that a worker gets to see. -/
def contents : LeaderCommand nEmbd → TpCommand nEmbd
  | sessionCreate sessionId value | rewind sessionId value => { TpCommand.empty nEmbd with sessionId, value }
  | sessionDestroy sessionId | invalidate sessionId => { TpCommand.empty nEmbd with sessionId }
  | sync sessionId tokens | verify sessionId tokens => { TpCommand.empty nEmbd with sessionId, tokens }
  | syncMultimodal sessionId tokens images =>
    { TpCommand.empty nEmbd with sessionId, tokens, images := images.map transmitted }
  | eval sessionId seq value => { TpCommand.empty nEmbd with sessionId, seq, value }
  | glmMtp sessionId seq value limit => { TpCommand.empty nEmbd with sessionId, seq, value, limit }
  | evalBatch items => { TpCommand.empty nEmbd with items }
  | mixedBatch sessionId tokens items => { TpCommand.empty nEmbd with sessionId, tokens, items }
  | stop => .empty nEmbd

/-- The images of a command, if it has some, have tokens and a width. -/
def Receivable : LeaderCommand nEmbd → Prop
  | syncMultimodal _ _ images => ∀ image ∈ images, Tp.Receivable image
  | _ => True

instance : (cmd : LeaderCommand nEmbd) → Decidable cmd.Receivable
  | syncMultimodal _ _ images => inferInstanceAs (Decidable (∀ image ∈ images, Tp.Receivable image))
  | sessionCreate .. | sessionDestroy .. | sync .. | eval .. | glmMtp .. | verify .. | rewind ..
  | invalidate .. | evalBatch .. | mixedBatch .. | stop => .isTrue trivial

end LeaderCommand

section Receive
variable {cmd : LeaderCommand nEmbd} {s : Bytes}

theorem mirrors_command (h : cmd.send = some s) :
    ∃ ok command, Mirrors cmd.type s (decode (some cmd.type) (.empty nEmbd)) ok command ∧
      (ok = true ↔ cmd.Receivable) ∧ (ok = true → command = cmd.contents) := by
  have haccepted : ∀ {command : TpCommand nEmbd}, cmd.Receivable → command = cmd.contents →
      Mirrors cmd.type s (decode (some cmd.type) (.empty nEmbd)) true command →
      ∃ ok command, Mirrors cmd.type s (decode (some cmd.type) (.empty nEmbd)) ok command ∧
        (ok = true ↔ cmd.Receivable) ∧ (ok = true → command = cmd.contents) :=
    fun hr hc hm => ⟨true, _, hm, iff_of_true rfl hr, fun _ => hc⟩
  cases cmd with
  | sessionCreate sessionId ctxSize =>
    cases h
    exact haccepted trivial rfl (mirrors_value _ ctxSize)
  | sessionDestroy sessionId =>
    cases h
    exact haccepted trivial rfl (mirrors_session _)
  | sync sessionId tokens => exact haccepted trivial rfl (mirrors_tokens h)
  | syncMultimodal sessionId tokens images =>
    refine ⟨_, _, mirrors_multimodal h, decide_eq_true_iff, fun hall => ?_⟩
    rw [multimodalCommand, if_pos (of_decide_eq_true hall)]
    rfl
  | eval sessionId seq token =>
    cases h
    exact haccepted trivial rfl (mirrors_eval seq token)
  | glmMtp sessionId seq token limit => exact haccepted trivial rfl (mirrors_glmMtp h)
  | verify sessionId drafts => exact haccepted trivial rfl (mirrors_tokens h)
  | rewind sessionId pos =>
    cases h
    exact haccepted trivial rfl (mirrors_value _ pos)
  | invalidate sessionId =>
    cases h
    exact haccepted trivial rfl (mirrors_session _)
  | evalBatch items => exact haccepted trivial rfl (mirrors_batch h)
  | mixedBatch sessionId prompt items => exact haccepted trivial rfl (mirrors_mixed h)
  | stop =>
    cases h
    exact haccepted trivial rfl ⟨[], rfl, Nat.zero_le _, rfl⟩

theorem tpReadFull_append {t rest : Bytes} {n : Nat} (h : t.length = n) (broken : Bool) :
    tpReadFull ⟨t ++ rest, broken⟩ n = some (t, ⟨rest, broken⟩) := by
  rw [tpReadFull, if_pos (by rw [List.length_append]; omega), List.take_left' h, Conn.drop,
    List.drop_left' h]

/-- A frame that was sent is read as a whole. -/
theorem tpReadFrameHeader_sent {ftype : FrameType} {payload rest : Bytes}
    (h : payload.length ≤ uint32Max) (broken : Bool) :
    tpReadFrameHeader ⟨tpSendFrame ftype payload ++ rest, broken⟩ =
      some (ftype.code, payload.length, ⟨payload ++ rest, broken⟩) := by
  have hlen : (UInt32.ofNat payload.length).toNat = payload.length := by
    apply UInt32.toNat_ofNat_of_lt'
    exact Nat.lt_of_le_of_lt h (Nat.sub_lt (Nat.two_pow_pos 32) Nat.one_pos)
  rw [tpReadFrameHeader, tpSendFrame, List.append_assoc, tpReadFull_append (length_put _)]
  simp only [Option.bind_eq_bind, Option.bind_some, get_put]
  rw [hlen]
  exact if_neg fun hne => hne rfl

theorem recv_mirrors {ftype : FrameType} {ok : Bool} {command : TpCommand nEmbd}
    (h : Mirrors ftype s (decode (some ftype) (.empty nEmbd)) ok command) (rest : Bytes)
    (broken : Bool) :
    ∃ err, ds4TpRecvCommand nEmbd ⟨s ++ rest, broken⟩ =
      some ⟨ok, if ok then { command with type := ftype } else .empty nEmbd, err, ⟨rest, broken⟩⟩ := by
  obtain ⟨payload, rfl, hfits, hdecode⟩ := h
  rw [ds4TpRecvCommand, tpReadFrameHeader_sent hfits]
  dsimp only
  rw [tpReadFull_append rfl]
  dsimp only
  rw [FrameType.ofCode_code, hdecode]
  cases ok with
  | true => exact ⟨_, rfl⟩
  | false => exact ⟨_, rfl⟩

theorem tpReadFull_some {c d : Conn} {n : Nat} (h : tpReadFull c n = some (s, d)) :
    n ≤ c.bytes.length ∧ s = c.bytes.take n ∧ d = c.drop n := by
  rw [tpReadFull] at h
  split at h
  · next hn =>
    cases h
    exact ⟨hn, rfl, rfl⟩
  · cases h

theorem code_of_ofCode {code : UInt32} {ftype : FrameType} (h : FrameType.ofCode code = some ftype) :
    ftype.code = code :=
  of_decide_eq_true (List.find?_some (p := fun type : FrameType => type.code = code) h)

/-- A command is refused and left empty, or its lists fill the payload that was declared. -/
theorem recv_exact (nEmbd : UInt32) (c : Conn) :
    ∃ r, ds4TpRecvCommand nEmbd c = some r ∧
      (r.ok = false ∧ r.command = .empty nEmbd ∨
        r.ok = true ∧ ∃ n d, tpReadFrameHeader c = some (r.command.type.code, n, d) ∧
          n ≤ d.bytes.length ∧ payloadBytes r.command r.command.type = n ∧ r.conn = d.drop n) := by
  rw [ds4TpRecvCommand]
  cases hheader : tpReadFrameHeader c with
  | none => exact ⟨_, rfl, .inl ⟨rfl, rfl⟩⟩
  | some header =>
    obtain ⟨code, n, d⟩ := header
    dsimp only
    cases hread : tpReadFull d n with
    | none => exact ⟨_, rfl, .inl ⟨rfl, rfl⟩⟩
    | some read =>
      obtain ⟨payload, e⟩ := read
      obtain ⟨hle, rfl, rfl⟩ := tpReadFull_some hread
      dsimp only
      cases htype : FrameType.ofCode code with
      | none => exact ⟨_, rfl, .inl ⟨rfl, rfl⟩⟩
      | some ftype =>
        obtain ⟨ok, command, hdecode, hfills⟩ :=
          exact_decode ftype (.empty nEmbd) (d.bytes.take n)
        rw [hdecode]
        cases ok with
        | false => exact ⟨_, rfl, .inl ⟨rfl, rfl⟩⟩
        | true =>
          refine ⟨_, rfl, .inr ⟨rfl, n, d, ?_, hle, ?_, rfl⟩⟩
          · rw [← code_of_ofCode htype]
            rfl
          · have hbytes := hfills rfl
            rw [List.length_take, Nat.min_eq_left hle] at hbytes
            rw [← hbytes]
            cases ftype <;> rfl

/-- What a leader sends comes back as the command that it stands for, unless an image lacks tokens or
a width, which is refused. Whatever arrives, the receiver stays within the payload, and either leaves
an empty command or one whose lists fill the payload. -/
theorem commands_come_back (nEmbd : UInt32) :
    (∀ (cmd : LeaderCommand nEmbd) (s rest : Bytes) (broken : Bool), cmd.send = some s →
      ∃ err, ds4TpRecvCommand nEmbd ⟨s ++ rest, broken⟩ =
        some ⟨cmd.Receivable, if cmd.Receivable then { cmd.contents with type := cmd.type }
          else .empty nEmbd, err, ⟨rest, broken⟩⟩) ∧
    ∀ c : Conn, ∃ r, ds4TpRecvCommand nEmbd c = some r ∧
      (r.ok = false ∧ r.command = .empty nEmbd ∨
        r.ok = true ∧ ∃ n d, tpReadFrameHeader c = some (r.command.type.code, n, d) ∧
          n ≤ d.bytes.length ∧ payloadBytes r.command r.command.type = n ∧ r.conn = d.drop n) := by
  refine ⟨fun cmd s rest broken h => ?_, recv_exact nEmbd⟩
  obtain ⟨ok, command, hmirrors, hok, hcommand⟩ := mirrors_command h
  obtain ⟨err, hrecv⟩ := recv_mirrors hmirrors rest broken
  refine ⟨err, ?_⟩
  rw [hrecv]
  by_cases hr : cmd.Receivable
  · rw [hok.mpr hr, decide_eq_true hr, if_pos hr, hcommand (hok.mpr hr)]
    rfl
  · have hfalse : ok = false := Bool.eq_false_iff.mpr fun h => hr (hok.mp h)
    rw [hfalse, decide_eq_false hr, if_neg hr]
    rfl

end Receive

theorem two_tokens_come_back :
    ∃ s err, (LeaderCommand.sync 42 [7, -1] : LeaderCommand 1).send = some s ∧
      ds4TpRecvCommand 1 ⟨s, false⟩ =
        some ⟨true, { TpCommand.empty 1 with type := .sync, sessionId := 42, tokens := [7, -1] }, err,
          ⟨[], false⟩⟩ := by
  obtain ⟨err, hrecv⟩ := (commands_come_back 1).1 (.sync 42 [7, -1]) _ [] false rfl
  rw [List.append_nil] at hrecv
  exact ⟨_, err, rfl, hrecv⟩

/-- An image of one token, without a width. -/
def flatImage : VisionSpan 1 :=
  ⟨0, some [0], 1, 0, 0, 0, 0, 0, 0, 0, Vector.replicate 32 0, fun _ h => by cases h; rfl⟩

/-- An image without a width is sent, and refused. -/
theorem flat_image_refused :
    ¬∀ (nEmbd : UInt32) (cmd : LeaderCommand nEmbd) (s : Bytes), cmd.send = some s →
      ∃ r, ds4TpRecvCommand nEmbd ⟨s, false⟩ = some r ∧ r.ok = true := by
  intro h
  obtain ⟨r, hrecv, hok⟩ := h 1 (.syncMultimodal 42 [0] [flatImage]) _ rfl
  have hrefused := congrArg (Option.map (·.ok)) hrecv
  rw [Option.map_some, hok] at hrefused
  revert hrefused
  decide

end Ds4.Tp
