import Ds4.Server.ImageCache
import Mathlib.Algebra.Order.Ring.Int

/-!
# Prefill in slices

`server_session_sync_multimodal` brings a session to a prompt with images. In batched mode it does so in
slices of the prompt, so that other slots get the model in between; a slice does not end inside an image.
`ds4_session_sync` itself is taken to set the session.
-/

namespace Ds4.PrefillSlices
open C ImageCache

structure VisionSpan where
  tokenStart : Nat
  embedding : VisionEmbedding

/-- The position behind the image. -/
def VisionSpan.stop (span : VisionSpan) : Nat := span.tokenStart + span.embedding.tokenCount

/-- What a session remembers of an image. -/
structure VisionIdentity where
  tokenStart : Nat
  tokenCount : Nat
  fingerprint : Bytes
  deriving DecidableEq

def VisionSpan.identity (span : VisionSpan) : VisionIdentity :=
  ⟨span.tokenStart, span.embedding.tokenCount, span.embedding.fingerprint⟩

structure Session where
  checkpointValid : Bool
  checkpoint : List Int
  checkpointImages : List VisionIdentity
  deriving DecidableEq

def ds4SessionPos (s : Session) : Int := s.checkpoint.length

def commonLength : List Int → List Int → Nat
  | a :: s, b :: t => if a = b then commonLength s t + 1 else 0
  | _, _ => 0

def ds4SessionCommonPrefix (s : Session) (prompt : List Int) : Int :=
  if s.checkpointValid then commonLength s.checkpoint prompt else 0

def ds4SessionVisionPrefixMatches (s : Session) (images : List VisionSpan) : Bool :=
  s.checkpointValid &&
    decide (s.checkpointImages <+: images.map VisionSpan.identity) &&
    match images[s.checkpointImages.length]? with
    | none => true
    | some span => decide (s.checkpoint.length ≤ span.tokenStart)

/-- The session that has the tokens and the images. -/
def synced (tokens : List Int) (images : List VisionSpan) : Session :=
  ⟨true, tokens, images.map VisionSpan.identity⟩

/-- The code and the session. -/
def ds4SessionSyncMultimodal (_ : Session) (tokens : List Int) (images : List VisionSpan) : Int × Session :=
  (0, synced tokens images)

def ds4SessionSyncInterrupted : Int := 2

/-- What the server gives the loop in each round: the quantum, whether it stops or the job is cancelled
before the round, and whether the prefill gets its turn. -/
structure Rounds where
  quantum : Nat → Int
  cancelled : Nat → Bool
  enter : Nat → Bool

/-- Addition of `int`. -/
def addInt (a b : Int) : Int := (a + b).bmod (2 ^ 32)

/-- The end of a slice, before images are looked at. -/
def sliceEnd (promptLen done quantum : Int) : Int :=
  let target := addInt done quantum
  let target := if promptLen < target ∨ target < done then promptLen else target
  if target ≤ 0 then promptLen else target

/-- An end inside an image is moved behind it. -/
def pastImage (promptLen target : Int) (span : VisionSpan) : Int :=
  if (span.tokenStart : Int) < target ∧ target < span.stop then
    if promptLen < span.stop then promptLen else span.stop
  else target

def sliceTarget (promptLen done quantum : Int) (images : List VisionSpan) : Int :=
  images.foldl (pastImage promptLen) (sliceEnd promptLen done quantum)

/-- The images in front that end in the slice. -/
def prefixImages (target : Int) (images : List VisionSpan) : List VisionSpan :=
  images.takeWhile fun span => (span.stop : Int) ≤ target

/-- A call of the synchronization: the position before it, and what it is given. -/
structure Slice where
  pos : Int
  target : Int
  images : List VisionSpan

structure Outcome where
  rc : Int
  err : Bytes
  session : Session
  slices : List Slice

/-- The loop from a round on; `none` where it does not come to an end. -/
def prefillLoop (rounds : Rounds) (prompt : List Int) (images : List VisionSpan) :
    Nat → Nat → Int → Session → Option Outcome
  | 0, _, _, _ => none
  | fuel + 1, round, done, session =>
    if rounds.cancelled round = false ∧ (round = 0 ∨ done < prompt.length) then
      let target := sliceTarget prompt.length done (rounds.quantum round) images
      if rounds.enter round then
        let slice := ⟨done, target, prefixImages target images⟩
        let (rc, session) := ds4SessionSyncMultimodal session (prompt.take target.toNat) slice.images
        if rc ≠ 0 then some ⟨rc, [], session, [slice]⟩
        else
          let done := ds4SessionPos session
          if prompt.length ≤ done then some ⟨0, [], session, [slice]⟩
          else if done < target then some ⟨1, lit "prefill made no progress", session, [slice]⟩
          else (prefillLoop rounds prompt images fuel (round + 1) done session).map fun r =>
            { r with slices := slice :: r.slices }
      else some ⟨ds4SessionSyncInterrupted, [], session, []⟩
    else some ⟨if rounds.cancelled round then ds4SessionSyncInterrupted else 0, [], session, []⟩

/-- Without batching the prompt is synchronized at once. -/
def syncWhole (rounds : Rounds) (session : Session) (prompt : List Int) (images : List VisionSpan) : Outcome :=
  if rounds.enter 0 then
    let (rc, session') := ds4SessionSyncMultimodal session prompt images
    ⟨rc, [], session', [⟨ds4SessionPos session, prompt.length, images⟩]⟩
  else ⟨ds4SessionSyncInterrupted, [], session, []⟩

def serverSessionSync (batchedMode : Bool) (rounds : Rounds) (fuel : Nat) (session : Session)
    (prompt : List Int) : Option Outcome :=
  if batchedMode then
    let live := ds4SessionPos session
    let common := ds4SessionCommonPrefix session prompt
    let done := if common = live ∧ live ≤ prompt.length then live else 0
    prefillLoop rounds prompt [] fuel 0 done session
  else some (syncWhole rounds session prompt [])

def serverMultimodalResumeFrontier (live common promptLen : Int) (imageStateMatches : Bool) : Int :=
  if common = live ∧ live ≤ promptLen ∧ imageStateMatches then live else 0

def serverMultimodalResumePos (session : Session) (prompt : List Int) (images : List VisionSpan) : Int :=
  serverMultimodalResumeFrontier (ds4SessionPos session) (ds4SessionCommonPrefix session prompt)
    prompt.length (ds4SessionVisionPrefixMatches session images)

def serverSessionSyncMultimodal (batchedMode : Bool) (rounds : Rounds) (fuel : Nat) (session : Session)
    (prompt : List Int) (images : List VisionSpan) : Option Outcome :=
  if images = [] then serverSessionSync batchedMode rounds fuel session prompt
  else if batchedMode then
    prefillLoop rounds prompt images fuel 0 (serverMultimodalResumePos session prompt images) session
  else some (syncWhole rounds session prompt images)

/-! ## Images and positions -/

/-- The images stand one behind the other in a prompt of this length. -/
structure InOrder (promptLen : Nat) (images : List VisionSpan) : Prop where
  disjoint : images.Pairwise fun a b => a.stop ≤ b.tokenStart
  inside : ∀ span ∈ images, span.stop ≤ promptLen

/-- The position is strictly inside the image. -/
def Cuts (target : Int) (span : VisionSpan) : Prop := span.tokenStart < target ∧ target < span.stop

theorem InOrder.tail {promptLen : Nat} {span : VisionSpan} {images : List VisionSpan}
    (h : InOrder promptLen (span :: images)) : InOrder promptLen images :=
  ⟨(List.pairwise_cons.mp h.disjoint).2, fun s hs => h.inside s (List.mem_cons_of_mem _ hs)⟩

section Position
variable {promptLen : Nat} {target : Int} {span : VisionSpan} {images : List VisionSpan}

theorem pastImage_of_not (h : ¬Cuts target span) : pastImage promptLen target span = target := if_neg h

theorem pastImage_spec (hstop : span.stop ≤ promptLen) (htarget : target ≤ promptLen) :
    target ≤ pastImage promptLen target span ∧ pastImage promptLen target span ≤ promptLen ∧
      ¬Cuts (pastImage promptLen target span) span := by
  by_cases h : Cuts target span
  · have heq : pastImage promptLen target span = span.stop := by
      exact (if_pos h).trans (if_neg (by omega))
    rw [heq]
    exact ⟨h.2.le, by omega, fun hc => absurd hc.2 (lt_irrefl _)⟩
  · rw [pastImage_of_not h]
    exact ⟨le_rfl, htarget, h⟩

theorem foldl_pastImage_of_le (h : ∀ span ∈ images, target ≤ span.tokenStart) :
    images.foldl (pastImage promptLen) target = target := by
  induction images with
  | nil => rfl
  | cons span images ih =>
    obtain ⟨hspan, himages⟩ := List.forall_mem_cons.mp h
    rw [List.foldl_cons, pastImage_of_not fun hc => absurd hc.1 (not_lt.mpr hspan), ih himages]

/-- Behind the images that are looked at there is no image that an end cuts. -/
theorem foldl_pastImage_spec (h : InOrder promptLen images) (htarget : target ≤ promptLen) :
    target ≤ images.foldl (pastImage promptLen) target ∧
      images.foldl (pastImage promptLen) target ≤ promptLen ∧
      ∀ span ∈ images, ¬Cuts (images.foldl (pastImage promptLen) target) span := by
  induction images generalizing target with
  | nil => exact ⟨le_rfl, htarget, fun _ hs => nomatch hs⟩
  | cons span images ih =>
    obtain ⟨hle, hmax, hcut⟩ := pastImage_spec (h.inside span (List.mem_cons_self ..)) htarget
    obtain ⟨hle', hmax', hcut'⟩ := ih h.tail hmax
    rw [List.foldl_cons]
    refine ⟨hle.trans hle', hmax', List.forall_mem_cons.mpr ⟨fun hc => hcut ?_, hcut'⟩⟩
    rcases lt_or_ge (span.tokenStart : Int) (pastImage promptLen target span) with hlt | hge
    · exact ⟨hlt, hle'.trans_lt hc.2⟩
    · -- the images behind this one are behind the end as well, which stays where it is
      rwa [foldl_pastImage_of_le fun s hs => ?_] at hc
      have hs' := (List.pairwise_cons.mp h.disjoint).1 s hs
      have hstop : span.tokenStart ≤ span.stop := Nat.le_add_right _ _
      omega

theorem prefixImages_eq_filter (h : InOrder promptLen images) :
    prefixImages target images = images.filter fun span => (span.stop : Int) ≤ target := by
  induction images with
  | nil => rfl
  | cons span images ih =>
    rw [prefixImages, List.takeWhile_cons, List.filter_cons]
    split
    · exact congrArg (span :: ·) (ih h.tail)
    · next hs =>
      refine (List.filter_eq_nil_iff.mpr fun s hmem => ?_).symm
      have hs' := (List.pairwise_cons.mp h.disjoint).1 s hmem
      have hstop : s.tokenStart ≤ s.stop := Nat.le_add_right _ _
      rw [decide_eq_true_eq] at hs ⊢
      omega

theorem prefixImages_end (h : InOrder promptLen images) : prefixImages promptLen images = images := by
  refine List.takeWhile_eq_self_iff.mpr fun span hs => ?_
  have := h.inside span hs
  rw [decide_eq_true_eq]
  omega

theorem sliceEnd_spec {done quantum : Int} (hlen : promptLen < 2 ^ 31) (hdone : 0 ≤ done)
    (hle : done ≤ promptLen) (hpos : 0 < quantum) (hquantum : quantum < 2 ^ 31) :
    sliceEnd promptLen done quantum ≤ promptLen ∧
      (done < sliceEnd promptLen done quantum ∨
        done = promptLen ∧ sliceEnd promptLen done quantum = promptLen) := by
  have hadd : addInt done quantum = done + quantum ∨ addInt done quantum < 0 := by
    rw [addInt, Int.bmod_def]
    split
    all_goals omega
  rw [sliceEnd]
  rcases hadd with hadd | hadd
  · rw [hadd]
    split
    all_goals
      split
      all_goals omega
  · have hback : (if (promptLen : Int) < addInt done quantum ∨ addInt done quantum < done then
        (promptLen : Int) else addInt done quantum) = promptLen := if_pos (.inr (by omega))
    rw [hback, ite_self]
    omega

end Position

/-! ## The loop -/

/-- What holds of a slice: it goes beyond the position before it, unless that is the end of the prompt
already; it does not cut an image and comes with the images that end in it. -/
structure GoodSlice (promptLen : Nat) (images : List VisionSpan) (slice : Slice) : Prop where
  advances : slice.pos < slice.target ∨ slice.pos = promptLen ∧ slice.target = promptLen
  le_end : slice.target ≤ promptLen
  no_cut : ∀ span ∈ images, ¬Cuts slice.target span
  images_eq : slice.images = images.filter fun span => (span.stop : Int) ≤ slice.target

theorem ds4SessionPos_synced (tokens : List Int) (images : List VisionSpan) :
    ds4SessionPos (synced tokens images) = tokens.length := rfl

section Loop
variable {rounds : Rounds} {prompt : List Int} {images : List VisionSpan}

/-- Neither stopped nor cancelled, with a positive quantum in every round. -/
structure Undisturbed (rounds : Rounds) : Prop where
  cancelled : ∀ k, rounds.cancelled k = false
  enter : ∀ k, rounds.enter k = true
  quantum_pos : ∀ k, 0 < rounds.quantum k
  quantum_lt : ∀ k, rounds.quantum k < 2 ^ 31

theorem sliceTarget_spec (hrounds : Undisturbed rounds) (hlen : prompt.length < 2 ^ 31)
    (himages : InOrder prompt.length images) {done : Int} (hdone : 0 ≤ done) (hle : done ≤ prompt.length)
    (k : Nat) :
    GoodSlice prompt.length images ⟨done, sliceTarget prompt.length done (rounds.quantum k) images,
      prefixImages (sliceTarget prompt.length done (rounds.quantum k) images) images⟩ := by
  obtain ⟨hend, hadv⟩ := sliceEnd_spec hlen hdone hle (hrounds.quantum_pos k) (hrounds.quantum_lt k)
  obtain ⟨hge, hmax, hcut⟩ := foldl_pastImage_spec himages hend
  refine ⟨?_, hmax, hcut, prefixImages_eq_filter himages⟩
  rcases hadv with hadv | ⟨hadv, hall⟩
  · exact .inl (hadv.trans_le hge)
  · exact .inr ⟨hadv, le_antisymm hmax (hall.symm.le.trans hge)⟩

theorem prefillLoop_spec (hrounds : Undisturbed rounds) (hlen : prompt.length < 2 ^ 31)
    (himages : InOrder prompt.length images) {fuel k : Nat} {done : Int} {session : Session}
    (hdone : 0 ≤ done) (hle : done ≤ prompt.length) (hgo : k = 0 ∨ done < prompt.length)
    (hfuel : prompt.length - done < fuel) :
    ∃ slices, prefillLoop rounds prompt images fuel k done session =
        some ⟨0, [], synced prompt images, slices⟩ ∧
      ∀ slice ∈ slices, GoodSlice prompt.length images slice := by
  induction fuel generalizing k done session with
  | zero => omega
  | succ fuel ih =>
    have hgood := sliceTarget_spec hrounds hlen himages hdone hle k
    obtain ⟨target, htarget⟩ : ∃ target, target = sliceTarget prompt.length done (rounds.quantum k) images :=
      ⟨_, rfl⟩
    rw [← htarget] at hgood
    have hmax := hgood.le_end
    have hadv := hgood.advances
    dsimp only at hmax hadv
    have hpos : ds4SessionPos (synced (prompt.take target.toNat) (prefixImages target images)) = target := by
      rw [ds4SessionPos_synced, List.length_take]
      omega
    rw [prefillLoop, if_pos ⟨hrounds.cancelled k, hgo⟩, if_pos (hrounds.enter k), ← htarget]
    dsimp only [ds4SessionSyncMultimodal]
    rw [if_neg (not_not.mpr rfl), hpos, if_neg (lt_irrefl target)]
    by_cases hend : prompt.length ≤ target
    · have heq : target = prompt.length := le_antisymm hmax hend
      have hall : synced (prompt.take target.toNat) (prefixImages target images) = synced prompt images := by
        rw [heq, Int.toNat_natCast, List.take_length, prefixImages_end himages]
      refine ⟨_, (if_pos hend).trans (by rw [hall]), List.forall_mem_singleton.mpr hgood⟩
    · obtain ⟨slices, hrun, hslices⟩ := ih (k := k + 1)
        (show 0 ≤ target by omega) hmax (.inr (by omega)) (by omega)
      refine ⟨_, (if_neg hend).trans (congrArg (Option.map _) hrun), ?_⟩
      exact List.forall_mem_cons.mpr ⟨hgood, hslices⟩

end Loop

/-- The position that the loop starts from is one of the prompt. -/
theorem resume_range {p : Prop} [Decidable p] {session : Session} {prompt : List Int}
    (hp : p → ds4SessionPos session ≤ prompt.length) :
    0 ≤ (if p then ds4SessionPos session else 0) ∧
      (if p then ds4SessionPos session else 0) ≤ prompt.length := by
  split
  · next h => exact ⟨Int.natCast_nonneg _, hp h⟩
  · exact ⟨le_rfl, Int.natCast_nonneg _⟩

/-- In batched mode the slices end at the session that one synchronization of the whole prompt with all
images gives. -/
theorem serverSessionSyncMultimodal_eq_synced {rounds : Rounds} (hrounds : Undisturbed rounds)
    {prompt : List Int} (hlen : prompt.length < 2 ^ 31) {images : List VisionSpan}
    (himages : InOrder prompt.length images) {fuel : Nat} (hfuel : prompt.length < fuel)
    (session : Session) :
    ∃ slices, serverSessionSyncMultimodal true rounds fuel session prompt images =
        some ⟨0, [], (ds4SessionSyncMultimodal session prompt images).2, slices⟩ ∧
      ∀ slice ∈ slices, GoodSlice prompt.length images slice := by
  have hrun : ∀ done : Int, 0 ≤ done ∧ done ≤ prompt.length → ∃ slices,
      prefillLoop rounds prompt images fuel 0 done session = some ⟨0, [], synced prompt images, slices⟩ ∧
        ∀ slice ∈ slices, GoodSlice prompt.length images slice := fun done hdone =>
    prefillLoop_spec hrounds hlen himages hdone.1 hdone.2 (.inl rfl) (by omega)
  rw [serverSessionSyncMultimodal]
  split
  · next h =>
    subst h
    exact hrun _ (resume_range fun h => h.2)
  · exact hrun _ (resume_range fun h => h.2.1)

/-- Seven tokens with an image at the third and fourth, three tokens a round. -/
theorem serverSessionSyncMultimodal_eq_synced_seven :
    ∃ slices, serverSessionSyncMultimodal true ⟨fun _ => 3, fun _ => false, fun _ => true⟩ 8
        ⟨false, [], []⟩ [1, 2, 9, 9, 3, 4, 5] [⟨2, { tokenCount := 2 }⟩] =
        some ⟨0, [], synced [1, 2, 9, 9, 3, 4, 5] [⟨2, { tokenCount := 2 }⟩], slices⟩ :=
  have hrounds : Undisturbed ⟨fun _ => 3, fun _ => false, fun _ => true⟩ :=
    ⟨fun _ => rfl, fun _ => rfl, fun _ => show (0 : Int) < 3 by decide,
      fun _ => show (3 : Int) < 2 ^ 31 by decide⟩
  (serverSessionSyncMultimodal_eq_synced hrounds (by decide)
    ⟨List.pairwise_singleton _ _, List.forall_mem_singleton.mpr (by decide)⟩ (by decide) _).imp fun _ h => h.1

end Ds4.PrefillSlices
