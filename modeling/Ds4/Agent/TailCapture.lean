import Mathlib.Data.List.Rotate
import Ds4.Lib.Spans

/-!
# The end of a captured text

`agent_tail_capture_append` keeps the last `cap` bytes of what is rendered, in a ring that starts at `start`. The
pieces go into the ring in at most two copies each, and what is overwritten is the oldest part.
-/

namespace Ds4
open C

structure AgentTailCapture where
  buf : Option Bytes
  cap : Nat
  start : Nat
  len : Nat
  total : Nat

namespace AgentTailCapture

/-- `{.cap = cap}`. -/
def init (cap : Nat) : AgentTailCapture := ⟨none, cap, 0, 0, 0⟩

/-- The buffer. It is taken from the heap with the first piece; what is in it then is never read. -/
def mem (t : AgentTailCapture) : Bytes := t.buf.getD (List.replicate t.cap 0)

def memcpy (t : AgentTailCapture) (pos : Nat) (s : Bytes) : AgentTailCapture :=
  { t with buf := some (overwrite t.mem pos s) }

def pos (t : AgentTailCapture) : Nat := (t.start + t.len) % t.cap

/-- The part of a piece that there is room for, and what is left of it. -/
def fill (t : AgentTailCapture) (s : Bytes) : AgentTailCapture × Bytes :=
  if t.len < t.cap then
    let first := min s.length (t.cap - t.len)
    let chunk := min first (t.cap - t.pos)
    let t' := t.memcpy t.pos (s.take chunk)
    let t' := if chunk < first then t'.memcpy 0 ((s.take first).drop chunk) else t'
    ({ t' with len := t.len + first }, s.drop first)
  else (t, s)

/-- The loop that overwrites the oldest bytes, for at most `fuel` rounds. -/
def overwriteLoop : Nat → AgentTailCapture → Bytes → Option AgentTailCapture
  | _, t, [] => some t
  | 0, _, _ :: _ => none
  | fuel + 1, t, s =>
    let chunk := min s.length (t.cap - t.pos)
    overwriteLoop fuel { t.memcpy t.pos (s.take chunk) with start := (t.start + chunk) % t.cap } (s.drop chunk)

/-- No loop takes more rounds than there are bytes, see `Holds.overwriteLoop`. -/
def append (t : AgentTailCapture) (s : Bytes) : Option AgentTailCapture :=
  if s = [] ∨ t.cap = 0 then some t
  else
    let t := { t with buf := some t.mem, total := t.total + s.length }
    if t.cap ≤ s.length then some { t.memcpy 0 (s.drop (s.length - t.cap)) with start := 0, len := t.cap }
    else overwriteLoop s.length (t.fill s).1 (t.fill s).2

/-- What was captured, and the capture after it: it has no capacity any more. -/
def take (t : AgentTailCapture) : Bytes × AgentTailCapture :=
  let first := min t.len (t.cap - t.start)
  (span t.mem t.start first ++ if first < t.len then span t.mem 0 (t.len - first) else [], init 0)

/-! ## The ring from its start -/

/-- The ring with its oldest byte first. -/
def ring (t : AgentTailCapture) : Bytes := t.mem.rotate t.start

/-- What the ring is after the text `xs`. -/
structure Holds (t : AgentTailCapture) (xs : Bytes) : Prop where
  pos : 0 < t.cap
  mem : t.mem.length = t.cap
  start : t.start < t.cap
  len : t.len = min t.cap xs.length
  ring : t.ring.take t.len = xs.rtake t.cap

section
variable {t : AgentTailCapture} {xs s : Bytes} {k fuel : Nat}

theorem holds_init {cap : Nat} (h : 0 < cap) : Holds (init cap) [] where
  pos := h
  mem := List.length_replicate
  start := h
  len := by rw [List.length_nil, Nat.min_zero]; rfl
  ring := by rw [List.rtake_nil]; rfl

theorem Holds.length_ring (h : Holds t xs) : t.ring.length = t.cap := by
  rw [AgentTailCapture.ring, List.length_rotate, h.mem]

theorem Holds.len_le (h : Holds t xs) : t.len ≤ t.cap := by
  rw [h.len]
  exact Nat.min_le_left ..

/-- A copy to the place `k` behind the start, which does not go around the end of the buffer. -/
theorem ring_memcpy (hmem : t.mem.length = t.cap) (hstart : t.start < t.cap) (hk : k + s.length ≤ t.cap)
    (hend : (t.start + k) % t.cap + s.length ≤ t.cap) :
    (t.memcpy ((t.start + k) % t.cap) s).ring = overwrite t.ring k s := by
  have hsplit : t.mem.take t.start ++ t.mem.drop t.start = t.mem := List.take_append_drop ..
  have hlen : (t.mem.take t.start).length = t.start := length_take_off (by omega)
  have h := @rotate_overwrite (t.mem.take t.start) s (t.mem.drop t.start) k
  rw [hsplit, hlen, hmem] at h
  exact h hk hend

theorem rtake_append {cap : Nat} {ys : Bytes} : (xs.rtake cap ++ ys).rtake cap = (xs ++ ys).rtake cap := by
  rw [List.rtake, List.rtake, List.rtake, ← List.drop_append_of_le_length (Nat.sub_le ..), List.drop_drop,
    List.length_drop]
  congr 1
  rw [List.length_append]
  omega

theorem rtake_of_length_le {cap : Nat} (h : xs.length ≤ cap) : xs.rtake cap = xs := by
  rw [List.rtake, Nat.sub_eq_zero_of_le h, List.drop_zero]

theorem length_memcpy (hmem : t.mem.length = t.cap) (h : k + s.length ≤ t.cap) :
    (t.memcpy k s).mem.length = t.cap := (length_overwrite (hmem ▸ h)).trans hmem

theorem pos_lt (h : 0 < t.cap) : t.pos < t.cap := Nat.mod_lt _ h

/-- The copies of a piece that there is room for: the second one goes on at the front of the buffer. -/
theorem Holds.copies {n : Nat} (h : Holds t xs) (hn : n ≤ s.length) (hroom : t.len + n ≤ t.cap) :
    let chunk := min n (t.cap - t.pos)
    let t' := t.memcpy t.pos (s.take chunk)
    let t' := if chunk < n then t'.memcpy 0 ((s.take n).drop chunk) else t'
    t'.mem.length = t.cap ∧ t'.cap = t.cap ∧ t'.start = t.start ∧ t'.ring = overwrite t.ring t.len (s.take n) := by
  intro chunk t₁ t₂
  have hpos := pos_lt h.pos
  have hchunk : chunk = min n (t.cap - t.pos) := rfl
  have hfirst : (s.take chunk).length = chunk := length_take_off (by omega)
  have hmem₁ : t₁.mem.length = t.cap := length_memcpy h.mem (by omega)
  have hring₁ : t₁.ring = overwrite t.ring t.len (s.take chunk) :=
    ring_memcpy h.mem h.start (by omega) (by rw [hfirst]; exact (by omega : t.pos + chunk ≤ t.cap))
  by_cases hlt : chunk < n
  · have ht₂ : t₂ = t₁.memcpy 0 ((s.take n).drop chunk) := if_pos hlt
    have hrest : ((s.take n).drop chunk).length = n - chunk := by
      rw [List.length_drop, length_take_off hn]
    -- the first copy goes to the end of the buffer, so the next place is its front
    have hwrap : (t₁.start + (t.len + chunk)) % t₁.cap = 0 := by
      show (t.start + (t.len + chunk)) % t.cap = 0
      rw [← Nat.add_assoc, ← Nat.mod_add_mod]
      show (t.pos + chunk) % t.cap = 0
      rw [show t.pos + chunk = t.cap by omega, Nat.mod_self]
    have hring₂ := ring_memcpy (t := t₁) (k := t.len + chunk) (s := (s.take n).drop chunk) hmem₁ h.start
      (by rw [hrest]; show _ ≤ t.cap; omega) (by rw [hwrap, hrest]; show _ ≤ t.cap; omega)
    rw [hwrap] at hring₂
    have hsplit : s.take chunk ++ (s.take n).drop chunk = s.take n := by
      rw [← List.take_append_drop chunk (s.take n), List.take_take, Nat.min_eq_left hlt.le,
        List.drop_append_of_le_length (by rw [hfirst]), List.drop_eq_nil_of_le (by rw [hfirst]), List.nil_append]
    refine ⟨?_, ?_, ?_, ?_⟩
    · rw [ht₂]
      exact length_memcpy hmem₁ (by rw [hrest]; show _ ≤ t.cap; omega)
    · rw [ht₂]
      rfl
    · rw [ht₂]
      rfl
    · have hjoin := @overwrite_overwrite t.ring (s.take chunk) ((s.take n).drop chunk) t.len
        (by rw [h.length_ring]; omega)
      rw [ht₂, hring₂, hring₁, ← hsplit, ← hjoin, hfirst, hsplit]
  · have ht₂ : t₂ = t₁ := if_neg hlt
    have heq : chunk = n := by omega
    rw [ht₂]
    refine ⟨hmem₁, rfl, rfl, ?_⟩
    rw [hring₁, heq]

/-- A piece fills the room that is left; when some of it is left over, the buffer is full. -/
theorem Holds.fill (h : Holds t xs) :
    ∃ ys, s = ys ++ (t.fill s).2 ∧ Holds (t.fill s).1 (xs ++ ys) ∧ (t.fill s).1.total = t.total ∧
      (t.fill s).1.cap = t.cap ∧ ((t.fill s).2 = [] ∨ (t.fill s).1.len = (t.fill s).1.cap) := by
  rw [AgentTailCapture.fill]
  split
  · next hroom =>
    dsimp only
    generalize hn : min s.length (t.cap - t.len) = n
    have hlenx : t.len = xs.length := by have := h.len; omega
    have hcopies := @Holds.copies t xs s n h (by omega) (by omega)
    dsimp only at hcopies
    generalize ht' : (if min n (t.cap - t.pos) < n then
      (t.memcpy t.pos (s.take (min n (t.cap - t.pos)))).memcpy 0 ((s.take n).drop (min n (t.cap - t.pos)))
      else t.memcpy t.pos (s.take (min n (t.cap - t.pos)))) = t' at hcopies ⊢
    obtain ⟨hmem, hcap, hstart, hring⟩ := hcopies
    have htake : (s.take n).length = n := length_take_off (by omega)
    have hxs : t.ring.take t.len = xs := by rw [h.ring, rtake_of_length_le (by omega)]
    refine ⟨s.take n, (List.take_append_drop n s).symm, ⟨?_, ?_, ?_, ?_, ?_⟩, ?_, hcap, ?_⟩
    · show 0 < t'.cap
      rw [hcap]
      exact h.pos
    · show t'.mem.length = t'.cap
      rw [hmem, hcap]
    · show t'.start < t'.cap
      rw [hstart, hcap]
      exact h.start
    · show t.len + n = min t'.cap _
      rw [hcap, List.length_append, htake]
      omega
    · show t'.ring.take (t.len + n) = List.rtake _ t'.cap
      rw [hring, hcap, overwrite, ← List.append_assoc, hxs,
        List.take_left' (by rw [List.length_append, htake, hlenx]),
        rtake_of_length_le (by rw [List.length_append, htake]; omega)]
    · show t'.total = t.total
      rw [← ht']
      split <;> rfl
    · show s.drop n = [] ∨ t.len + n = t'.cap
      rw [hcap]
      rcases Nat.le_total s.length (t.cap - t.len) with hle | hle
      · exact .inl (List.drop_eq_nil_of_le (by omega))
      · exact .inr (by omega)
  · have := h.len_le
    refine ⟨[], rfl, ?_, rfl, rfl, .inr (by dsimp only; omega)⟩
    rw [List.append_nil]
    exact h

/-- One round of the loop on a full buffer: the oldest bytes make room. -/
theorem Holds.overwrite {n : Nat} (h : Holds t xs) (hfull : t.len = t.cap) (hn : n ≤ s.length)
    (hend : n ≤ t.cap - t.pos) :
    Holds { t.memcpy t.pos (s.take n) with start := (t.start + n) % t.cap } (xs ++ s.take n) := by
  have hpos := pos_lt h.pos
  have htake : (s.take n).length = n := length_take_off hn
  have hmem : (t.memcpy t.pos (s.take n)).mem.length = t.cap := length_memcpy h.mem (by omega)
  have hp : t.pos = (t.start + 0) % t.cap := by
    rw [AgentTailCapture.pos, hfull, Nat.add_mod_right, Nat.add_zero]
  have hring : (t.memcpy t.pos (s.take n)).ring = s.take n ++ t.ring.drop n := by
    rw [hp, ring_memcpy h.mem h.start (by omega) (by omega), C.overwrite, List.take_zero, List.nil_append, htake,
      Nat.zero_add]
  have hall : t.ring = xs.rtake t.cap := by rw [← h.ring, hfull, ← h.length_ring, List.take_length]
  refine ⟨h.pos, hmem, Nat.mod_lt _ h.pos, ?_, ?_⟩
  · have := h.len
    show t.len = min t.cap _
    rw [List.length_append]
    omega
  · show ((t.memcpy t.pos (s.take n)).mem.rotate ((t.start + n) % t.cap)).take t.len = _
    have hrot : (t.memcpy t.pos (s.take n)).mem.rotate ((t.start + n) % t.cap) = t.ring.drop n ++ s.take n := by
      rw [← hmem, List.rotate_mod, ← List.rotate_rotate]
      show (t.memcpy t.pos (s.take n)).ring.rotate n = _
      have := List.rotate_append_length_eq (s.take n) (t.ring.drop n)
      rw [htake] at this
      rw [hring, this]
    show _ = (xs ++ s.take n).rtake t.cap
    rw [hrot, hfull, ← rtake_append, ← hall]
    have hlen : (t.ring ++ s.take n).length = t.cap + n := by rw [List.length_append, h.length_ring, htake]
    rw [List.rtake, hlen, Nat.add_sub_cancel_left, List.drop_append_of_le_length (by rw [h.length_ring]; omega),
      List.take_of_length_le]
    rw [List.length_append, List.length_drop, h.length_ring, htake]
    omega

/-- The loop ends within as many rounds as there are bytes: every round takes at least one. -/
theorem Holds.overwriteLoop (h : Holds t xs) (hfull : t.len = t.cap) (hfuel : s.length ≤ fuel) :
    ∃ t', overwriteLoop fuel t s = some t' ∧ Holds t' (xs ++ s) ∧ t'.total = t.total ∧ t'.cap = t.cap := by
  induction fuel generalizing t xs s with
  | zero =>
    cases List.eq_nil_of_length_eq_zero (Nat.le_zero.mp hfuel)
    exact ⟨t, rfl, by rwa [List.append_nil], rfl, rfl⟩
  | succ fuel ih =>
    cases s with
    | nil => exact ⟨t, rfl, by rwa [List.append_nil], rfl, rfl⟩
    | cons c s =>
      rw [AgentTailCapture.overwriteLoop.eq_3 _ _ _ (by simp)]
      dsimp only
      generalize hn : min (c :: s).length (t.cap - t.pos) = n
      have hpos := pos_lt h.pos
      have hlen : (c :: s).length = s.length + 1 := rfl
      obtain ⟨t', hrun, hholds, htotal, hcap⟩ := ih (h.overwrite (s := c :: s) (n := n) hfull (by omega) (by omega))
        hfull (s := (c :: s).drop n) (by rw [List.length_drop]; omega)
      rw [List.append_assoc, List.take_append_drop] at hholds
      exact ⟨t', hrun, hholds, htotal, hcap⟩

theorem Holds.append (h : Holds t xs) (s : Bytes) :
    ∃ t', append t s = some t' ∧ Holds t' (xs ++ s) ∧ t'.total = t.total + s.length ∧ t'.cap = t.cap := by
  rw [AgentTailCapture.append]
  have hcap := h.pos
  split
  · next hskip =>
    cases hskip.resolve_right (by omega)
    exact ⟨t, rfl, by rwa [List.append_nil], rfl, rfl⟩
  dsimp only
  split
  · next hlong =>
    -- the piece alone is long enough: nothing else is kept
    have hlast : (s.drop (s.length - t.cap)).length = t.cap := by
      rw [List.length_drop]
      omega
    have hall : C.overwrite t.mem 0 (s.drop (s.length - t.cap)) = s.drop (s.length - t.cap) :=
      overwrite_all (by rw [hlast, h.mem])
    refine ⟨_, rfl, ⟨hcap, ?_, hcap, ?_, ?_⟩, rfl, rfl⟩
    · show (C.overwrite t.mem 0 (s.drop (s.length - t.cap))).length = t.cap
      rw [hall, hlast]
    · show t.cap = min t.cap _
      rw [List.length_append]
      omega
    · show ((C.overwrite t.mem 0 (s.drop (s.length - t.cap))).rotate 0).take t.cap = (xs ++ s).rtake t.cap
      rw [hall, List.rotate_zero, List.take_of_length_le hlast.le, List.rtake, List.length_append,
        show xs.length + s.length - t.cap = xs.length + (s.length - t.cap) by omega, List.drop_length_add_append]
  · have h' : Holds { t with buf := some t.mem, total := t.total + s.length } xs := ⟨hcap, h.mem, h.start, h.len, h.ring⟩
    obtain ⟨ys, hs, hfill, htotal, hcap', hleft⟩ := h'.fill (s := s)
    generalize (AgentTailCapture.fill { t with buf := some t.mem, total := t.total + s.length } s).1 = t₁ at *
    generalize (AgentTailCapture.fill { t with buf := some t.mem, total := t.total + s.length } s).2 = s₁ at *
    rcases hleft with hnil | hfull
    · rw [hnil, List.append_nil] at hs
      rw [hnil, hs]
      exact ⟨_, AgentTailCapture.overwriteLoop.eq_1 .., hfill, hs ▸ htotal, hcap'⟩
    · have hfuel : s₁.length ≤ s.length := by
        rw [hs, List.length_append]
        exact Nat.le_add_left ..
      obtain ⟨t', hrun, hholds, htotal', hcap''⟩ := hfill.overwriteLoop hfull hfuel
      rw [List.append_assoc, ← hs] at hholds
      exact ⟨t', hrun, hholds, htotal'.trans htotal, hcap''.trans hcap'⟩

theorem Holds.appends (h : Holds t xs) (ss : List Bytes) :
    ∃ t', ss.foldlM AgentTailCapture.append t = some t' ∧ Holds t' (xs ++ ss.flatten) ∧ t'.cap = t.cap := by
  induction ss generalizing t xs with
  | nil => exact ⟨t, rfl, by rwa [List.flatten_nil, List.append_nil], rfl⟩
  | cons s ss ih =>
    obtain ⟨t₁, hrun, h₁, -, hcap₁⟩ := h.append s
    obtain ⟨t', hruns, h', hcap'⟩ := ih h₁
    rw [List.foldlM_cons, hrun]
    refine ⟨t', hruns, ?_, hcap'.trans hcap₁⟩
    rw [List.flatten_cons, ← List.append_assoc]
    exact h'

theorem Holds.take (h : Holds t xs) : t.take.1 = xs.rtake t.cap := by
  have hlen := h.len_le
  have hstart := h.start
  have hdrop : (t.mem.drop t.start).length = t.cap - t.start := by rw [List.length_drop, h.mem]
  rw [← h.ring, AgentTailCapture.ring, List.rotate_eq_drop_append_take (by rw [h.mem]; exact hstart.le), List.take_append, hdrop,
    List.take_take, AgentTailCapture.take]
  dsimp only
  split
  · have hright : (t.mem.drop t.start).take t.len = t.mem.drop t.start := List.take_of_length_le (by omega)
    have hleft : min (t.len - (t.cap - t.start)) t.start = t.len - min t.len (t.cap - t.start) := by omega
    rw [span, span, List.drop_zero, hright, hleft, List.take_of_length_le (by omega)]
  · rw [span, Nat.min_eq_left (by omega), show t.len - (t.cap - t.start) = 0 by omega, Nat.zero_min, List.take_zero]

end

/-- What is taken from a capture is the end of everything that was given to it. -/
theorem take_appends {cap : Nat} (hcap : 0 < cap) (ss : List Bytes) :
    ∃ t, ss.foldlM append (init cap) = some t ∧ t.start < cap ∧ t.len ≤ cap ∧
      t.take.1 = ss.flatten.rtake cap ∧ t.take.1.length = min cap ss.flatten.length := by
  obtain ⟨t, hrun, h, hc⟩ := (holds_init hcap).appends ss
  rw [List.nil_append] at h
  have hc : t.cap = cap := hc
  refine ⟨t, hrun, hc ▸ h.start, hc ▸ h.len_le, hc ▸ h.take, ?_⟩
  rw [h.take, ← h.ring, List.length_take, h.length_ring, Nat.min_eq_left h.len_le, h.len, hc]

theorem take_appends_hello :
    ∃ t, [lit "hel", lit "lo"].foldlM append (init 4) = some t ∧ t.take.1 = lit "ello" := by
  obtain ⟨t, hrun, -, -, htake, -⟩ := take_appends (by decide : 0 < 4) [lit "hel", lit "lo"]
  exact ⟨t, hrun, htake.trans (by decide)⟩

end AgentTailCapture
end Ds4
