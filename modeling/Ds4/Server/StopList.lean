import Mathlib.Order.Basic
import Mathlib.Data.Nat.Find
import Ds4.Server.Utf8

/-!
# Client stop sequences in a plain stream

The request's `stop` strings and what the loop of `generate_job_inner` does with them after each
piece of a plain streamed request: it searches the part of the text where a stop string can have
been completed, holds back the bytes in which one can have started, and cuts the text at a hit.
-/

namespace Ds4
open C

structure StopList where
  v : List Bytes
  maxLen : Nat
  nonempty : ∀ w ∈ v, w ≠ []
  maxLen_eq : maxLen = v.foldl (fun m w => max m w.length) 0

namespace StopList

def clear : StopList where
  v := []
  maxLen := 0
  nonempty _ h := nomatch h
  maxLen_eq := rfl

def push (stops : StopList) (s : Bytes) : StopList :=
  if h : cstr s = [] then stops
  else
    { v := stops.v ++ [cstr s]
      maxLen := if stops.maxLen < (cstr s).length then (cstr s).length else stops.maxLen
      nonempty := by
        intro w hw
        rcases List.mem_append.1 hw with hw | hw
        · exact stops.nonempty w hw
        · rwa [List.mem_singleton.1 hw]
      maxLen_eq := by
        rw [List.foldl_append, ← stops.maxLen_eq]
        simp only [List.foldl_cons, List.foldl_nil]
        split <;> omega }

end StopList

def stopListFindFrom (stops : StopList) (text : Bytes) (start : Nat) : Option (Nat × Nat) :=
  (Scan.findAny id stops.v (cstr (text.drop start))).map fun (p, w) => (start + p, w.length)

def stopListStreamSafeLen (stops : StopList) (textLen : Nat) : Nat :=
  if stops.v.length = 0 || stops.maxLen ≤ 1 then textLen
  else
    let hold := stops.maxLen - 1
    if hold < textLen then textLen - hold else 0

/-! ## The loop -/

structure PlainStream where
  text : Bytes
  plainStreamPos : Nat
  stopScanFrom : Nat
  /-- What `sse_chunk` has written. -/
  deltas : List Bytes

def PlainStream.init : PlainStream := ⟨[], 0, 0, []⟩

/-- How the handling of a piece ends: with the next piece, with a client stop, or with a chunk
that the client does not take. -/
inductive PieceEnd where
  | next | stop | error
  deriving DecidableEq

/-- The chunk `text[plain_stream_pos..streamLen)`, when there is one. -/
def sseDelta (sseChunk : List Bytes → Bytes → Bool) (st : PlainStream) (text : Bytes)
    (streamLen : Nat) : Option PlainStream :=
  if st.plainStreamPos < streamLen then
    let delta := (text.drop st.plainStreamPos).take (streamLen - st.plainStreamPos)
    if sseChunk st.deltas delta then
      some { st with plainStreamPos := streamLen, deltas := st.deltas ++ [delta] }
    else none
  else some st

def plainPiece (stops : StopList) (sseChunk : List Bytes → Bytes → Bool) (st : PlainStream)
    (piece : Bytes) : PlainStream × PieceEnd :=
  let text := st.text ++ piece
  let hit := stopListFindFrom stops text st.stopScanFrom
  let streamLen := match hit with
    | some (stopPos, _) => stopPos
    | none => stopListStreamSafeLen stops text.length
  let streamLen := if text.length < streamLen then text.length else streamLen
  let streamLen := utf8StreamSafeLen text st.plainStreamPos streamLen hit.isSome
  let scanFrom := if hit.isNone && 1 < stops.maxLen then
      let hold := stops.maxLen - 1
      if hold < text.length then text.length - hold else 0
    else st.stopScanFrom
  let st := { st with text := text, stopScanFrom := scanFrom }
  match sseDelta sseChunk st text streamLen with
  | none => (st, .error)
  | some st =>
    match hit with
    | some (stopPos, _) => ({ st with text := st.text.take stopPos }, .stop)
    | none => (st, .next)

def plainPieces (stops : StopList) (sseChunk : List Bytes → Bytes → Bool) :
    PlainStream → List Bytes → PlainStream × PieceEnd
  | st, [] => (st, .next)
  | st, p :: ps =>
    match plainPiece stops sseChunk st p with
    | (st, .next) => plainPieces stops sseChunk st ps
    | r => r

/-- After the loop the rest of the text is written, unless the client is gone. -/
def plainFlush (sseChunk : List Bytes → Bytes → Bool) :
    PlainStream × PieceEnd → PlainStream × PieceEnd
  | (st, .error) => (st, .error)
  | (st, e) =>
    match sseDelta sseChunk st st.text st.text.length with
    | none => (st, .error)
    | some st => (st, e)

def plainStream (stops : StopList) (sseChunk : List Bytes → Bytes → Bool) (pieces : List Bytes) :
    PlainStream × PieceEnd := plainFlush sseChunk (plainPieces stops sseChunk .init pieces)

/-! ## Where the text is cut -/

/-- Some stop string is complete in the text. -/
def Completed (stops : StopList) (t : Bytes) : Prop := ∃ w ∈ stops.v, w <:+: t

/-- `c` is the earliest start of a stop string in the text. -/
structure EarliestStop (stops : StopList) (t : Bytes) (c : Nat) : Prop where
  occurs : ∃ w ∈ stops.v, w <+: t.drop c
  earliest : ∀ w ∈ stops.v, ∀ i, w <+: t.drop i → c ≤ i

/-- What is left of the text `x` followed by `pieces`: all of it when no stop string is ever
complete, otherwise the part before the earliest stop string that is complete at the first piece
at which one is. -/
inductive StopCut (stops : StopList) (x : Bytes) (pieces : List Bytes) : Bytes → Prop where
  | whole (h : ¬ Completed stops (x ++ pieces.flatten)) : StopCut stops x pieces (x ++ pieces.flatten)
  | hit (k : Nat) (hc : EarliestStop stops (x ++ (pieces.take k).flatten) c)
      (first : ∀ j < k, ¬ Completed stops (x ++ (pieces.take j).flatten)) :
      StopCut stops x pieces ((x ++ (pieces.take k).flatten).take c)

variable {stops : StopList} {sseChunk : List Bytes → Bytes → Bool}

theorem StopList.le_maxLen (stops : StopList) (hw : w ∈ stops.v) : w.length ≤ stops.maxLen := by
  rw [stops.maxLen_eq]
  have key : ∀ (l : List Bytes) (m : Nat),
      m ≤ l.foldl (fun m w => max m w.length) m ∧
      ∀ w ∈ l, w.length ≤ l.foldl (fun m w => max m w.length) m := by
    intro l
    induction l with
    | nil => exact fun m => ⟨Nat.le_refl _, fun _ h => nomatch h⟩
    | cons v l ih =>
      intro m
      obtain ⟨h1, h2⟩ := ih (max m v.length)
      refine ⟨Nat.le_trans (Nat.le_max_left _ _) h1, fun w hw => ?_⟩
      rcases List.mem_cons.1 hw with rfl | hw
      · exact Nat.le_trans (Nat.le_max_right _ _) h1
      · exact h2 w hw
  exact (key _ _).2 w hw

/-- Whatever the list, the last `maxLen - 1` bytes are held back. -/
theorem stopListStreamSafeLen_eq (n : Nat) :
    stopListStreamSafeLen stops n = n - (stops.maxLen - 1) := by
  have h0 : stops.v.length = 0 → stops.maxLen = 0 := by
    intro h
    rw [stops.maxLen_eq, List.length_eq_zero_iff.1 h, List.foldl_nil]
  rw [stopListStreamSafeLen]
  simp only [Bool.or_eq_true, decide_eq_true_eq]
  split
  · omega
  · split <;> omega

/-- The search finds nothing exactly when no stop string is in the part it looks at, and otherwise
the earliest one there. -/
theorem stopListFindFrom_none (hz : 0 ∉ t) (h : stopListFindFrom stops t start = none)
    (hw : w ∈ stops.v) (hi : start ≤ i) : ¬ w <+: t.drop i := by
  rw [stopListFindFrom, cstr_of_notMem fun h => hz (List.mem_of_mem_drop h),
    Option.map_eq_none_iff, Scan.findAny_eq_none_iff] at h
  have := Scan.find_eq_none_iff.1 (h w hw) (i - start)
  rwa [List.drop_drop, Nat.add_sub_cancel' hi] at this

theorem stopListFindFrom_some (hz : 0 ∉ t) (h : stopListFindFrom stops t start = some (c, n)) :
    start ≤ c ∧ (∃ w ∈ stops.v, w <+: t.drop c) ∧
      ∀ w ∈ stops.v, ∀ i, start ≤ i → w <+: t.drop i → c ≤ i := by
  rw [stopListFindFrom, cstr_of_notMem fun h => hz (List.mem_of_mem_drop h),
    Option.map_eq_some_iff] at h
  obtain ⟨⟨p, w⟩, hf, he⟩ := h
  cases he
  obtain ⟨hw, hp, hmin⟩ := Scan.findAny_some hf
  refine ⟨Nat.le_add_right _ _, ⟨w, hw, ?_⟩, fun v hv i hi ho => ?_⟩
  · have := (Scan.find_eq_some_iff.1 hp).1
    rwa [List.drop_drop] at this
  · have ho' : v <+: (t.drop start).drop (i - start) := by
      rwa [List.drop_drop, Nat.add_sub_cancel' hi]
    cases hv' : Scan.find v (t.drop start) with
    | none => exact absurd ho' (Scan.find_eq_none_iff.1 hv' _)
    | some j =>
      have h1 := hmin v hv j hv'
      have h2 : ¬ i - start < j := fun hlt => (Scan.find_eq_some_iff.1 hv').2 _ hlt ho'
      omega

/-- A stop string that is complete only with the new piece starts in the held back bytes. -/
theorem hold_le_of_completed (hx : ¬ Completed stops x) (hw : w ∈ stops.v)
    (h : w <+: (x ++ p).drop i) : x.length - (stops.maxLen - 1) ≤ i := by
  have hlen := stops.le_maxLen hw
  by_contra hlt
  have hle : i ≤ x.length := by omega
  rw [List.drop_append_of_le_length hle] at h
  apply hx
  refine ⟨w, hw, ?_⟩
  have hp : w <+: x.drop i := by
    apply List.prefix_of_prefix_length_le h (List.prefix_append _ _)
    rw [List.length_drop]
    omega
  exact hp.isInfix.trans (List.drop_suffix i x).isInfix

theorem EarliestStop.not_completed (h : EarliestStop stops t c) : ¬ Completed stops (t.take c) := by
  rintro ⟨w, hw, a, b, he⟩
  have hpos := List.length_pos_of_ne_nil (stops.nonempty w hw)
  have hlen := congrArg List.length he
  simp only [List.length_append, List.length_take] at hlen
  have ho : w <+: t.drop a.length := by
    have ht : t = a ++ (w ++ (b ++ t.drop c)) := by
      conv_lhs => rw [← List.take_append_drop c t, ← he]
      simp only [List.append_assoc]
    rw [ht, List.drop_left]
    exact List.prefix_append _ _
  have := h.earliest w hw _ ho
  omega

theorem StopCut.not_completed (h : StopCut stops x pieces t) : ¬ Completed stops t := by
  cases h with
  | whole h => exact h
  | hit k hc first => exact hc.not_completed

theorem StopCut.cons (hx : ¬ Completed stops x) (h : StopCut stops (x ++ p) ps t) :
    StopCut stops x (p :: ps) t := by
  cases h with
  | whole h =>
    rw [List.append_assoc] at h ⊢
    exact .whole h
  | hit k hc first =>
    have he : ∀ n, x ++ p ++ (ps.take n).flatten = x ++ ((p :: ps).take (n + 1)).flatten := by
      intro n
      rw [List.take_succ_cons, List.flatten_cons, List.append_assoc]
    rw [he] at hc ⊢
    apply StopCut.hit (k + 1) hc
    intro j hj
    cases j with
    | zero => simpa using hx
    | succ j =>
      rw [← he]
      exact first j (by omega)

/-! ## The run -/

/-- The loop after the text `x`, in which no stop string is complete. -/
structure Running (stops : StopList) (x : Bytes) (st : PlainStream) : Prop where
  text : st.text = x
  noStop : ¬ Completed stops x
  deltas : st.deltas.flatten = x.take st.plainStreamPos
  pos : st.plainStreamPos ≤ x.length - (stops.maxLen - 1)
  scan : st.stopScanFrom ≤ x.length - (stops.maxLen - 1)

/-- A chunk extends what was written up to `streamLen`. -/
theorem sseDelta_deltas (h : sseDelta sseChunk st t n = some st')
    (hd : st.deltas.flatten = t.take st.plainStreamPos) :
    st' = { st with plainStreamPos := max st.plainStreamPos n, deltas := st'.deltas } ∧
      st'.deltas.flatten = t.take (max st.plainStreamPos n) := by
  rw [sseDelta] at h
  split at h
  · next hlt =>
    dsimp only at h
    split at h
    · cases h
      rw [Nat.max_eq_right (Nat.le_of_lt hlt)]
      refine ⟨rfl, ?_⟩
      rw [List.flatten_append, hd, List.flatten_singleton, ← List.take_add,
        Nat.add_sub_cancel' (Nat.le_of_lt hlt)]
    · cases h
  · next hlt =>
    cases h
    rw [Nat.max_eq_left (Nat.not_lt.1 hlt)]
    exact ⟨rfl, hd⟩

/-- What is certain of the text is in every cut. -/
theorem StopCut.take_isPrefix (hx : ¬ Completed stops x) (h : StopCut stops x pieces t)
    (hn : n ≤ x.length - (stops.maxLen - 1)) : x.take n <+: t := by
  cases h with
  | whole h => exact (List.take_prefix _ _).trans (List.prefix_append _ _)
  | @hit c k hc first =>
    obtain ⟨w, hw, ho⟩ := hc.occurs
    have hle := hold_le_of_completed hx hw ho
    rw [← List.take_append_of_le_length (by omega : n ≤ x.length)]
    exact List.take_prefix_take_left (by omega)

theorem exists_earliestStop (h : Completed stops t) : ∃ c, EarliestStop stops t c := by
  classical
  have hex : ∃ c, ∃ w ∈ stops.v, w <+: t.drop c := by
    obtain ⟨w, hw, a, b, rfl⟩ := h
    refine ⟨a.length, w, hw, ?_⟩
    rw [List.append_assoc, List.drop_left]
    exact List.prefix_append _ _
  exact ⟨Nat.find hex, Nat.find_spec hex, fun w hw i hi => Nat.find_min' hex ⟨w, hw, hi⟩⟩

theorem EarliestStop.completed (h : EarliestStop stops t c) : Completed stops t := by
  obtain ⟨w, hw, ho⟩ := h.occurs
  exact ⟨w, hw, ho.isInfix.trans (List.drop_suffix c t).isInfix⟩

theorem StopCut.head (hx : ¬ Completed stops x) (hc : EarliestStop stops (x ++ p) c) :
    StopCut stops x (p :: ps) ((x ++ p).take c) := by
  have he : x ++ ((p :: ps).take 1).flatten = x ++ p := by simp
  rw [← he] at hc ⊢
  apply StopCut.hit 1 hc
  intro j hj
  obtain rfl : j = 0 := by omega
  simpa using hx

theorem exists_stopCut (hx : ¬ Completed stops x) (pieces : List Bytes) :
    ∃ t, StopCut stops x pieces t := by
  induction pieces generalizing x with
  | nil => exact ⟨_, .whole (by simpa using hx)⟩
  | cons p ps ih =>
    by_cases hp : Completed stops (x ++ p)
    · obtain ⟨c, hc⟩ := exists_earliestStop hp
      exact ⟨_, .head hx hc⟩
    · obtain ⟨t, ht⟩ := ih hp
      exact ⟨t, ht.cons hx⟩

/-- One piece: no stop string is complete yet, or the text is cut and all of it is written, or the
client has refused a chunk. -/
inductive PieceSpec (stops : StopList) (sseChunk : List Bytes → Bytes → Bool) (st : PlainStream)
    (y : Bytes) : PlainStream × PieceEnd → Prop where
  | next (h : Running stops y st') : PieceSpec stops sseChunk st y (st', .next)
  | stop (hc : EarliestStop stops y c) (ht : st'.text = y.take c) (hp : st'.plainStreamPos = c)
      (hd : st'.deltas.flatten = y.take c) : PieceSpec stops sseChunk st y (st', .stop)
  | error (hd : st'.deltas = st.deltas) (hp : st'.plainStreamPos = st.plainStreamPos)
      (hs : sseChunk st.deltas d = false) :
      PieceSpec stops sseChunk st y (st', .error)

theorem sseDelta_eq_none (h : sseDelta sseChunk st t n = none) :
    ∃ d, sseChunk st.deltas d = false := by
  rw [sseDelta] at h
  split at h
  · dsimp only at h
    split at h
    · cases h
    · next hs => exact ⟨_, by simpa using hs⟩
  · cases h

theorem plainPiece_spec (hr : Running stops x st) (hz : 0 ∉ x ++ p) :
    PieceSpec stops sseChunk st (x ++ p) (plainPiece stops sseChunk st p) := by
  obtain ⟨htext, hno, hdel, hpos, hscan⟩ := hr
  have hlen : x.length ≤ (x ++ p).length := by simp
  have hdel' : st.deltas.flatten = (x ++ p).take st.plainStreamPos := by
    rw [hdel, List.take_append_of_le_length (by omega)]
  rw [plainPiece]
  simp only [htext]
  cases hf : stopListFindFrom stops (x ++ p) st.stopScanFrom with
  | none =>
    have hno' : ¬ Completed stops (x ++ p) := by
      rintro ⟨w, hw, a, b, he⟩
      have ho : w <+: (x ++ p).drop a.length := by
        rw [← he, List.append_assoc, List.drop_left]
        exact List.prefix_append _ _
      have hle := hold_le_of_completed hno hw ho
      exact stopListFindFrom_none hz hf hw (by omega) ho
    simp only [Option.isSome_none, Option.isNone_none, Bool.true_and]
    generalize hn : utf8StreamSafeLen (x ++ p) st.plainStreamPos _ false = n
    have hn' : n ≤ (x ++ p).length - (stops.maxLen - 1) := by
      rw [← hn]
      apply Nat.le_trans (utf8StreamSafeLen_le _ _ _ _)
      rw [stopListStreamSafeLen_eq]
      split <;> omega
    cases hs : sseDelta sseChunk _ (x ++ p) n with
    | none =>
      obtain ⟨d, hd⟩ := sseDelta_eq_none hs
      exact .error rfl rfl hd
    | some st' =>
      obtain ⟨he, hd⟩ := sseDelta_deltas hs hdel'
      rw [he]
      apply PieceSpec.next
      refine ⟨rfl, hno', hd, ?_, ?_⟩
      · show max st.plainStreamPos n ≤ _
        omega
      · show (if _ then _ else _) ≤ _
        simp only [decide_eq_true_eq]
        split
        · split <;> omega
        · omega
  | some r =>
    obtain ⟨c, m⟩ := r
    obtain ⟨-, hocc, hmin⟩ := stopListFindFrom_some hz hf
    have hc : EarliestStop stops (x ++ p) c := by
      refine ⟨hocc, fun w hw i hi => hmin w hw i ?_ hi⟩
      have := hold_le_of_completed hno hw hi
      omega
    obtain ⟨w, hw, ho⟩ := hocc
    have hle := hold_le_of_completed hno hw ho
    have hclen : c ≤ (x ++ p).length := by
      by_contra hlt
      rw [List.drop_of_length_le (by omega), List.prefix_nil] at ho
      exact stops.nonempty w hw ho
    simp only [Option.isSome_some, Option.isNone_some, Bool.false_and, utf8StreamSafeLen,
      Bool.true_or, if_true, if_neg (Nat.not_lt.2 hclen)]
    cases hs : sseDelta sseChunk _ (x ++ p) c with
    | none =>
      obtain ⟨d, hd⟩ := sseDelta_eq_none hs
      exact .error rfl rfl hd
    | some st' =>
      obtain ⟨he, hd⟩ := sseDelta_deltas hs hdel'
      rw [Nat.max_eq_right (by omega : st.plainStreamPos ≤ c)] at he hd
      rw [he]
      exact .stop hc rfl rfl hd

/-- The loop over the remaining pieces. -/
theorem plainPieces_spec (hr : Running stops x st) (hz : 0 ∉ x ++ ps.flatten)
    (h : plainPieces stops sseChunk st ps = (st', e)) :
    ∃ t, StopCut stops x ps t ∧ st'.deltas.flatten = t.take st'.plainStreamPos ∧
      (e ≠ .error → st'.text = t) ∧ (e = .error → ∃ ds d, sseChunk ds d = false) := by
  induction ps generalizing x st with
  | nil =>
    cases h
    have ht : StopCut stops x [] (x ++ [].flatten) := .whole (by simpa using hr.noStop)
    rw [List.flatten_nil, List.append_nil] at ht
    exact ⟨x, ht, hr.deltas, fun _ => hr.text, fun h => nomatch h⟩
  | cons p ps ih =>
    rw [List.flatten_cons, ← List.append_assoc] at hz
    have hs : PieceSpec stops sseChunk st (x ++ p) (plainPiece stops sseChunk st p) :=
      plainPiece_spec hr fun h => hz (List.mem_append_left _ h)
    rw [plainPieces] at h
    generalize plainPiece stops sseChunk st p = r at hs h
    cases hs with
    | next hnext =>
      obtain ⟨t, ht, hd, hte, he⟩ := ih hnext hz h
      exact ⟨t, ht.cons hr.noStop, hd, hte, he⟩
    | stop hc htext hp hd =>
      cases h
      refine ⟨_, .head hr.noStop hc, ?_, fun _ => htext, fun h => nomatch h⟩
      rw [hd, hp, List.take_take, Nat.min_self]
    | error hd hp hs =>
      cases h
      obtain ⟨t, ht⟩ := exists_stopCut hr.noStop (p :: ps)
      refine ⟨t, ht, ?_, fun h => absurd rfl h, fun _ => ⟨_, _, hs⟩⟩
      have hpos := hr.pos
      have hpre := List.prefix_iff_eq_take.1 (ht.take_isPrefix hr.noStop hpos)
      rw [List.length_take, Nat.min_eq_left (by omega)] at hpre
      rw [hd, hp, hr.deltas, hpre]

theorem plainFlush_spec (hd : st.deltas.flatten = t.take st.plainStreamPos)
    (hte : e ≠ .error → st.text = t) (he : e = .error → ∃ ds d, sseChunk ds d = false)
    (h : plainFlush sseChunk (st, e) = (st', e')) :
    st'.deltas.flatten <+: t ∧ (e' = .error → ∃ ds d, sseChunk ds d = false) ∧
      (e' ≠ .error → st'.text = t ∧ st'.deltas.flatten = t) := by
  have hpre : st.deltas.flatten <+: t := hd ▸ List.take_prefix _ _
  by_cases hne : e = .error
  · subst hne
    cases h
    exact ⟨hpre, he, fun h => absurd rfl h⟩
  · obtain rfl := hte hne
    have hf : plainFlush sseChunk (st, e) =
        match sseDelta sseChunk st st.text st.text.length with
        | none => (st, .error)
        | some st => (st, e) := by
      cases e with
      | error => exact absurd rfl hne
      | next | stop => rfl
    rw [hf] at h
    cases hs : sseDelta sseChunk st st.text st.text.length with
    | none =>
      rw [hs] at h
      cases h
      exact ⟨hpre, fun _ => ⟨_, sseDelta_eq_none hs⟩, fun h => absurd rfl h⟩
    | some st₁ =>
      rw [hs] at h
      cases h
      obtain ⟨heq, hd'⟩ := sseDelta_deltas hs hd
      rw [List.take_of_length_le (Nat.le_max_right _ _)] at hd'
      have htext : st'.text = st.text := by rw [heq]
      exact ⟨hd' ▸ List.prefix_refl _, fun h => absurd h hne, fun _ => ⟨htext, hd'⟩⟩

theorem Running.init : Running stops [] .init where
  text := rfl
  noStop := by
    rintro ⟨w, hw, h⟩
    exact stops.nonempty w hw (List.infix_nil.1 h)
  deltas := rfl
  pos := Nat.zero_le _
  scan := Nat.zero_le _

/-- However the generated text is cut into pieces: the final text is the text cut at the earliest
stop string that is complete when the first one is, no stop string is left in it, the chunks are
exactly that text, and even a client that goes away is never sent a byte at or after the cut. -/
theorem plainStream_cut (stops : StopList) (sseChunk : List Bytes → Bytes → Bool)
    (pieces : List Bytes) (hz : 0 ∉ pieces.flatten) :
    ∃ t, StopCut stops [] pieces t ∧ ¬ Completed stops t ∧
      (∀ n, ((plainStream stops sseChunk pieces).1.deltas.take n).flatten <+: t) ∧
      ((plainStream stops sseChunk pieces).2 = .error → ∃ ds d, sseChunk ds d = false) ∧
      ((plainStream stops sseChunk pieces).2 ≠ .error →
        (plainStream stops sseChunk pieces).1.text = t ∧
        (plainStream stops sseChunk pieces).1.deltas.flatten = t) := by
  cases hr : plainPieces stops sseChunk .init pieces with
  | mk st e =>
    obtain ⟨t, ht, hd, hte, he⟩ := plainPieces_spec .init hz hr
    rw [plainStream, hr]
    generalize hf : plainFlush sseChunk (st, e) = r
    obtain ⟨hpre, herr, hok⟩ := plainFlush_spec hd hte he hf
    refine ⟨t, ht, ht.not_completed, fun n => ?_, herr, hok⟩
    have hn : (r.1.deltas.take n).flatten <+: r.1.deltas.flatten := by
      conv_rhs => rw [← List.take_append_drop n r.1.deltas, List.flatten_append]
      exact List.prefix_append _ _
    exact hn.trans hpre

/-- Two stop strings that overlap, in pieces that cut both of them. -/
theorem overlapping_stops_cut :
    let stops := (StopList.clear.push (lit "bcd")).push (lit "abc")
    let r := plainStream stops (fun _ _ => true) [lit "xa", lit "b", lit "cd"]
    r.1.deltas = [lit "x"] ∧ ∃ t, StopCut stops [] [lit "xa", lit "b", lit "cd"] t ∧ r.1.text = t := by
  have h := plainStream_cut ((StopList.clear.push (lit "bcd")).push (lit "abc")) (fun _ _ => true)
    [lit "xa", lit "b", lit "cd"] (by decide)
  obtain ⟨t, ht, -, -, herr, hok⟩ := h
  refine ⟨by decide, t, ht, (hok ?_).1⟩
  intro he
  obtain ⟨_, _, hs⟩ := herr he
  cases hs

end Ds4
