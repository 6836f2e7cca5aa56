import Ds4.Lib.Strtol

/-!
# Reading a request

`read_http_request` appends what arrives to a buffer until it finds the end of the header block, then
reads as many bytes as `Content-Length` says. Each call of `recv` returns at least one byte, at most what
there is room for, and none at the end of the stream; a call that is interrupted is made again. Allocation
succeeds.
-/

namespace Ds4.Http
open C Scan

structure HttpRequest where
  method : Bytes
  path : Bytes
  body : Bytes
  deriving DecidableEq

def crlfBlank : Bytes := lit "\r\n\r\n"

def lfBlank : Bytes := lit "\n\n"

def headerEnd (b : Bytes) : Option Nat :=
  ((find crlfBlank b).map (· + crlfBlank.length)).or ((find lfBlank b).map (· + lfBlank.length))

/-- The offset of the value in a line that has the field. -/
def lineValue (s : Bytes) : Option Nat :=
  let line := s.takeWhile (· ≠ ch '\n')
  let line := if line.getLast? = some (ch '\r') then line.dropLast else line
  if 15 ≤ line.length ∧ (line.take 15).map tolower = lit "content-length:" then
    some (15 + ((line.drop 15).takeWhile isspace).length)
  else none

/-- The offset of the value in the first line that has the field. -/
def findValue (lineStart : Bool) : Bytes → Option Nat
  | [] => none
  | c :: s =>
    match if lineStart then lineValue (c :: s) else none with
    | some v => some v
    | none => (findValue (c = ch '\n') s).map (· + 1)

/-- The first `n` bytes are the header block; the number is read from the whole buffer. -/
def contentLength (h : Bytes) (n : Nat) : Int :=
  match findValue true (h.take n) with
  | some v => strtol (h.drop v)
  | none => 0

/-- `"%7s %255s"`. -/
def scanRequestLine (line : Bytes) : Option (Bytes × Bytes) :=
  let s := skipSpace (cstr line)
  let method := (s.takeWhile fun c => !isspace c).take 7
  let rest := skipSpace (s.drop method.length)
  let path := (rest.takeWhile fun c => !isspace c).take 255
  if method = [] ∨ path = [] then none else some (method, path)

/-- The method and the path from the first line of the buffer. -/
def requestLine (b : Bytes) : Option (Bytes × Bytes) :=
  (scanRequestLine ((b.takeWhile (· ≠ ch '\n')).take 511)).map fun x => (x.1, x.2.takeWhile (· ≠ ch '?'))

def maxHeader : Nat := 64 * 1024

def maxBody : Nat := 64 * 1024 * 1024

/-- How much each call of `recv` has to give. -/
abbrev Cut := Nat → Nat

/-- The bytes a call returns, with room for `cap`. -/
def recv (cut : Cut) (k cap : Nat) (rest : Bytes) : Bytes := rest.take (min cap (max 1 (cut k)))

theorem length_drop_recv {cut : Cut} {k cap : Nat} {rest : Bytes} (h : recv cut k cap rest ≠ []) :
    (rest.drop (recv cut k cap rest).length).length < rest.length := by
  have hpos := List.length_pos_of_ne_nil h
  have hle : (recv cut k cap rest).length ≤ rest.length := (List.take_prefix _ _).length_le
  rw [List.length_drop]
  exact Nat.sub_lt (Nat.lt_of_lt_of_le hpos hle) hpos

theorem recv_length (cut : Cut) (k cap : Nat) (rest : Bytes) :
    (recv cut k cap rest).length = min (min cap (max 1 (cut k))) rest.length := List.length_take ..

/-- The header loop: the buffer, the length of the header block, what has not arrived yet, and the number
of calls. -/
def readHeader (cut : Cut) (k : Nat) (b rest : Bytes) : Option (Bytes × Nat × Bytes × Nat) :=
  if b.length < maxHeader then
    let chunk := recv cut k 4096 rest
    if _h : chunk = [] then none
    else
      match headerEnd (b ++ chunk) with
      | some hend => some (b ++ chunk, hend, rest.drop chunk.length, k + 1)
      | none => readHeader cut (k + 1) (b ++ chunk) (rest.drop chunk.length)
  else none
termination_by rest.length
decreasing_by exact length_drop_recv _h

/-- The body loop: the buffer once it has `need` bytes. -/
def readBody (cut : Cut) (need k : Nat) (b rest : Bytes) : Option Bytes :=
  if b.length < need then
    let chunk := recv cut k 8192 rest
    if _h : chunk = [] then none
    else readBody cut need (k + 1) (b ++ chunk) (rest.drop chunk.length)
  else some b
termination_by rest.length
decreasing_by exact length_drop_recv _h

/-- The request, with the length of the header block in front of its body. -/
def readHttpRequest (cut : Cut) (stream : Bytes) : Option (HttpRequest × Nat) := do
  let (b, hend, rest, k) ← readHeader cut 0 [] stream
  let (method, path) ← requestLine b
  let clen := contentLength b hend
  if clen < 0 ∨ (maxBody : Int) < clen then none
  else
    let b ← readBody cut (hend + clen.toNat) k b rest
    some (⟨method, path, (b.drop hend).take clen.toNat⟩, hend)

/-! ## The end of the header block -/

/-- A blank line ends behind the first `h` bytes. -/
def EndsBlank (stream : Bytes) (h : Nat) : Prop :=
  crlfBlank <:+ stream.take h ∨ lfBlank <:+ stream.take h

instance (stream : Bytes) (h : Nat) : Decidable (EndsBlank stream h) := inferInstanceAs (Decidable (_ ∨ _))

/-- The first blank line of the stream ends behind the first `h` bytes. -/
structure FirstBlank (stream : Bytes) (h : Nat) : Prop where
  le_length : h ≤ stream.length
  ends : EndsBlank stream h
  first : ∀ m < h, ¬EndsBlank stream m

section HeaderEnd
variable {stream b : Bytes} {h m : Nat}

theorem find_suffix {pat : Bytes} {i : Nat} (hi : find pat b = some i) : pat <:+ b.take (i + pat.length) := by
  obtain ⟨r, hb, -, hle⟩ := find_split hi
  have hlen : (b.take i ++ pat).length = i + pat.length := by
    rw [List.length_append, List.length_take, Nat.min_eq_left (by omega)]
  rw [hb, ← hlen, List.take_left]
  exact List.suffix_append _ _

theorem headerEnd_sound (hm : headerEnd b = some m) : m ≤ b.length ∧ EndsBlank b m := by
  rw [headerEnd, Option.or_eq_some_iff] at hm
  rcases hm with hm | ⟨-, hm⟩
  · obtain ⟨i, hi, rfl⟩ := Option.map_eq_some_iff.mp hm
    exact ⟨find_le hi, .inl (find_suffix hi)⟩
  · obtain ⟨i, hi, rfl⟩ := Option.map_eq_some_iff.mp hm
    exact ⟨find_le hi, .inr (find_suffix hi)⟩

theorem headerEnd_isSome (hm : EndsBlank b m) : (headerEnd b).isSome := by
  have hfind : ∀ pat : Bytes, pat <:+ b.take m → (find pat b).isSome := fun pat hpat =>
    find_isSome_iff.mpr (hpat.isInfix.trans (List.take_prefix m b).isInfix)
  rw [headerEnd, Option.isSome_or, Option.isSome_map, Option.isSome_map, Bool.or_eq_true]
  exact hm.imp (hfind _) (hfind _)

theorem endsBlank_take {n : Nat} (hmn : m ≤ n) : EndsBlank (stream.take n) m ↔ EndsBlank stream m := by
  rw [EndsBlank, EndsBlank, List.take_take, Nat.min_eq_left hmn]

variable (hb : FirstBlank stream h) {n : Nat}

include hb in
theorem headerEnd_take_of_lt (hn : n < h) : headerEnd (stream.take n) = none := by
  cases hm : headerEnd (stream.take n) with
  | none => rfl
  | some m =>
    obtain ⟨hle, hends⟩ := headerEnd_sound hm
    rw [List.length_take] at hle
    exact absurd ((endsBlank_take (by omega)).mp hends) (hb.first m (by omega))

include hb in
theorem headerEnd_take_of_le (hn : h ≤ n) :
    ∃ m, headerEnd (stream.take n) = some m ∧ h ≤ m ∧ m ≤ n ∧ m ≤ stream.length := by
  obtain ⟨m, hm⟩ := Option.isSome_iff_exists.mp (headerEnd_isSome ((endsBlank_take hn).mpr hb.ends))
  obtain ⟨hle, hends⟩ := headerEnd_sound hm
  rw [List.length_take] at hle
  refine ⟨m, hm, Nat.le_of_not_lt fun hlt => hb.first m hlt ?_, by omega, by omega⟩
  exact (endsBlank_take (by omega)).mp hends

include hb in
theorem headerEnd_take_self : headerEnd (stream.take h) = some h := by
  obtain ⟨m, hm, hge, hle, -⟩ := headerEnd_take_of_le hb (Nat.le_refl h)
  rwa [Nat.le_antisymm hle hge] at hm

include hb in
/-- Where a longer buffer has the first blank line, so has a shorter one. -/
theorem headerEnd_take_mono {n' : Nat} (hn : h ≤ n) (hn' : n ≤ n')
    (hend : headerEnd (stream.take n') = some h) : headerEnd (stream.take n) = some h := by
  have hpre : stream.take n <+: stream.take n' := List.take_prefix_take_left hn'
  have hlen : h ≤ (stream.take n).length := by
    rw [List.length_take]
    exact Nat.le_min.mpr ⟨hn, hb.le_length⟩
  rw [headerEnd, Option.or_eq_some_iff] at hend ⊢
  rcases hend with hend | ⟨hnone, hend⟩
  · obtain ⟨i, hi, hih⟩ := Option.map_eq_some_iff.mp hend
    exact .inl (Option.map_eq_some_iff.mpr ⟨i, find_prefix_of_le hpre hi (by omega), hih⟩)
  · obtain ⟨i, hi, hih⟩ := Option.map_eq_some_iff.mp hend
    refine .inr ⟨?_, Option.map_eq_some_iff.mpr ⟨i, find_prefix_of_le hpre hi (by omega), hih⟩⟩
    rw [Option.map_eq_none_iff] at hnone ⊢
    exact find_prefix_none hpre hnone

end HeaderEnd

/-! ## What is read, by how much had arrived with the header block -/

/-- What comes of it when the header block was found in a buffer of `n` bytes. -/
def outcome (stream : Bytes) (n : Nat) : Option (HttpRequest × Nat) := do
  let hend ← headerEnd (stream.take n)
  let (method, path) ← requestLine stream
  let clen := contentLength (stream.take n) hend
  if clen < 0 ∨ (maxBody : Int) < clen ∨ stream.length < hend + clen.toNat then none
  else some (⟨method, path, (stream.drop hend).take clen.toNat⟩, hend)

section Read
variable {stream : Bytes} {h : Nat} {cut : Cut}

theorem take_append_recv (stream : Bytes) (cut : Cut) (k cap p : Nat) :
    stream.take p ++ recv cut k cap (stream.drop p) = stream.take (p + (recv cut k cap (stream.drop p)).length) ∧
      (stream.drop p).drop (recv cut k cap (stream.drop p)).length =
        stream.drop (p + (recv cut k cap (stream.drop p)).length) := by
  refine ⟨?_, List.drop_drop⟩
  rw [List.take_add, recv, List.length_take, ← List.take_eq_take_min]

/-- One round of the header loop before the blank line has arrived. -/
theorem readHeader_step (cut : Cut) (hb : FirstBlank stream h) (hmax : h ≤ maxHeader) {k p : Nat} (hp : p < h) :
    ∃ n, n = (recv cut k 4096 (stream.drop p)).length ∧ 0 < n ∧ p + n ≤ stream.length ∧
      readHeader cut k (stream.take p) (stream.drop p) =
        match headerEnd (stream.take (p + n)) with
        | some hend => some (stream.take (p + n), hend, stream.drop (p + n), k + 1)
        | none => readHeader cut (k + 1) (stream.take (p + n)) (stream.drop (p + n)) := by
  have hlen := recv_length cut k 4096 (stream.drop p)
  have hle := hb.le_length
  rw [List.length_drop] at hlen
  have hpos : 0 < (recv cut k 4096 (stream.drop p)).length := by omega
  obtain ⟨htake, hdrop⟩ := take_append_recv stream cut k 4096 p
  refine ⟨_, rfl, hpos, by omega, ?_⟩
  have hroom : (stream.take p).length < maxHeader := by
    rw [List.length_take]
    omega
  rw [readHeader, if_pos hroom]
  dsimp only
  rw [dif_neg (List.ne_nil_of_length_pos hpos), htake, hdrop]

/-- The header loop ends with a buffer that the blank line has arrived in. -/
theorem readHeader_spec (cut : Cut) (hb : FirstBlank stream h) (hmax : h ≤ maxHeader) {k p : Nat} (hp : p < h) :
    ∃ n hend k', h ≤ n ∧ n < h + 4096 ∧ n ≤ stream.length ∧ headerEnd (stream.take n) = some hend ∧
      readHeader cut k (stream.take p) (stream.drop p) = some (stream.take n, hend, stream.drop n, k') := by
  obtain ⟨d, hd⟩ : ∃ d, d = h - p := ⟨_, rfl⟩
  induction d using Nat.strongRecOn generalizing k p with
  | ind d ih =>
    obtain ⟨n, hn, hpos, hle, hstep⟩ := readHeader_step cut hb hmax (k := k) hp
    have hcap : n ≤ 4096 := by
      rw [hn, recv_length]
      omega
    rw [hstep]
    rcases Nat.lt_or_ge (p + n) h with hlt | hge
    · rw [headerEnd_take_of_lt hb hlt]
      exact ih (h - (p + n)) (by omega) hlt rfl
    · obtain ⟨hend, hfound, -⟩ := headerEnd_take_of_le hb hge
      rw [hfound]
      exact ⟨p + n, hend, k + 1, hge, by omega, hle, hfound, rfl⟩

/-- The body loop ends with as many bytes as are needed, or fails where the stream does not have them. -/
theorem readBody_spec (cut : Cut) (need : Nat) {k n : Nat} (hn : n ≤ stream.length) :
    (need ≤ stream.length → ∃ n', need ≤ n' ∧ n' ≤ stream.length ∧
      readBody cut need k (stream.take n) (stream.drop n) = some (stream.take n')) ∧
    (stream.length < need → readBody cut need k (stream.take n) (stream.drop n) = none) := by
  obtain ⟨d, hd⟩ : ∃ d, d = stream.length - n := ⟨_, rfl⟩
  have hlength : (stream.take n).length = n := by
    rw [List.length_take]
    exact Nat.min_eq_left hn
  induction d using Nat.strongRecOn generalizing k n with
  | ind d ih =>
    rw [readBody, hlength]
    by_cases hneed : n < need
    · rw [if_pos hneed]
      dsimp only
      have hlen := recv_length cut k 8192 (stream.drop n)
      rw [List.length_drop] at hlen
      by_cases hend : n = stream.length
      · have hnil : recv cut k 8192 (stream.drop n) = [] := List.length_eq_zero_iff.mp (by omega)
        rw [dif_pos hnil]
        exact ⟨fun hle => absurd hle (by omega), fun _ => rfl⟩
      · have hpos : 0 < (recv cut k 8192 (stream.drop n)).length := by omega
        obtain ⟨htake, hdrop⟩ := take_append_recv stream cut k 8192 n
        rw [dif_neg (List.ne_nil_of_length_pos hpos), htake, hdrop]
        refine ih _ ?_ (by omega) rfl ?_
        · omega
        · rw [List.length_take]
          omega
    · rw [if_neg hneed]
      exact ⟨fun _ => ⟨n, by omega, hn, rfl⟩, fun hlt => absurd hlt (by omega)⟩

theorem mem_newline (hb : FirstBlank stream h) : ch '\n' ∈ stream.take h := by
  rcases hb.ends with hends | hends
  · exact hends.subset (by decide)
  · exact hends.subset (by decide)

theorem FirstBlank.pos (hb : FirstBlank stream h) : 0 < h := by
  have hmem := List.length_pos_of_mem (mem_newline hb)
  rw [List.length_take] at hmem
  omega

theorem requestLine_take (hb : FirstBlank stream h) {n : Nat} (hn : h ≤ n) :
    requestLine (stream.take n) = requestLine stream := by
  have hline : ∀ m, h ≤ m → (stream.take m).takeWhile (· ≠ ch '\n') =
      stream.takeWhile (· ≠ ch '\n') := fun m hm => by
    have hmem : ch '\n' ∈ stream.take m := (List.take_prefix_take_left hm).subset (mem_newline hb)
    conv => rhs; rw [← List.take_append_drop m stream]
    exact (takeWhile_append_of_mem hmem (by decide) _).symm
  rw [requestLine, requestLine, hline n hn]

theorem readHttpRequest_of_readHeader (hb : FirstBlank stream h) {n hend k : Nat} (hn : h ≤ n)
    (hle : n ≤ stream.length) (hfound : headerEnd (stream.take n) = some hend)
    (hread : readHeader cut 0 [] stream = some (stream.take n, hend, stream.drop n, k)) :
    readHttpRequest cut stream = outcome stream n := by
  rw [readHttpRequest, hread, outcome, hfound]
  simp only [Option.bind_eq_bind, Option.bind_some]
  rw [requestLine_take hb hn]
  cases requestLine stream with
  | none => rfl
  | some line =>
    dsimp only [Option.bind_eq_bind, Option.bind_some]
    by_cases hbad : contentLength (stream.take n) hend < 0 ∨ (maxBody : Int) < contentLength (stream.take n) hend
    · rw [if_pos hbad, if_pos (hbad.imp_right .inl)]
    · rw [if_neg hbad]
      obtain ⟨hsome, hnone⟩ :=
        readBody_spec cut (hend + (contentLength (stream.take n) hend).toNat) (k := k) hle
      rcases Nat.lt_or_ge stream.length (hend + (contentLength (stream.take n) hend).toNat) with hlt | hge
      · rw [hnone hlt, if_pos (.inr (.inr hlt))]
        rfl
      · obtain ⟨n', hn', hle', hbody⟩ := hsome hge
        have hbad' : ¬(contentLength (stream.take n) hend < 0 ∨
            (maxBody : Int) < contentLength (stream.take n) hend ∨
            stream.length < hend + (contentLength (stream.take n) hend).toNat) := by
          rw [← or_assoc, not_or]
          exact ⟨hbad, Nat.not_lt.mpr hge⟩
        rw [hbody, if_neg hbad', Option.bind_some, List.drop_take, List.take_take,
          Nat.min_eq_left (by omega)]

/-- How the stream is cut matters only by how much arrives with the end of the header block. -/
theorem readHttpRequest_eq (hb : FirstBlank stream h) (hmax : h ≤ maxHeader) (cut : Cut) :
    ∃ n, h ≤ n ∧ n < h + 4096 ∧ n ≤ stream.length ∧ readHttpRequest cut stream = outcome stream n := by
  obtain ⟨n, hend, k, hn, hlt, hle, hfound, hread⟩ := readHeader_spec cut hb hmax (k := 0) hb.pos
  exact ⟨n, hn, hlt, hle, readHttpRequest_of_readHeader hb hn hle hfound hread⟩

/-- Every amount within the room of the last call can arrive with the end of the header block. -/
theorem exists_cut (hb : FirstBlank stream h) (hmax : h ≤ maxHeader) {n : Nat} (hn : h ≤ n) (hlt : n < h + 4096)
    (hle : n ≤ stream.length) : ∃ cut, readHttpRequest cut stream = outcome stream n := by
  -- single bytes, then the rest in one call
  obtain ⟨p, hp⟩ : ∃ p, p = n - 4096 := ⟨_, rfl⟩
  obtain ⟨cut, hsingle, hrest⟩ : ∃ cut : Cut, (∀ k < p, cut k = 1) ∧ cut p = n - p :=
    ⟨fun k => if k < p then 1 else n - p, fun _ hk => if_pos hk, if_neg (Nat.lt_irrefl p)⟩
  obtain ⟨hend, hfound, -⟩ := headerEnd_take_of_le hb hn
  have hpos := hb.pos
  have hread : ∀ d k, d = p - k → k ≤ p → ∃ k', readHeader cut k (stream.take k) (stream.drop k) =
      some (stream.take n, hend, stream.drop n, k') := by
    intro d
    induction d with
    | zero =>
      intro k hd hk
      obtain ⟨m, hm, hmpos, hmle, hstep⟩ := readHeader_step cut hb hmax (k := k) (p := k) (by omega)
      have hkp : k = p := by omega
      rw [recv_length, hkp, hrest, List.length_drop] at hm
      have hkm : k + m = n := by omega
      rw [hkm, hfound] at hstep
      exact ⟨k + 1, hstep⟩
    | succ d ih =>
      intro k hd hk
      obtain ⟨m, hm, hmpos, hmle, hstep⟩ := readHeader_step cut hb hmax (k := k) (p := k) (by omega)
      rw [recv_length, hsingle k (by omega), List.length_drop] at hm
      have hm1 : m = 1 := by omega
      rw [hm1, headerEnd_take_of_lt hb (by omega)] at hstep
      rw [hstep]
      exact ih (k + 1) (by omega) (by omega)
  obtain ⟨k', hk'⟩ := hread _ 0 rfl (Nat.zero_le _)
  exact ⟨cut, readHttpRequest_of_readHeader hb hn hle hfound hk'⟩

end Read

/-! ## The length of the body -/

section ContentLength
variable {stream s : Bytes} {h : Nat}

theorem lineValue_append (hs : ch '\n' ∈ s) (t : Bytes) : lineValue (s ++ t) = lineValue s := by
  rw [lineValue, takeWhile_append_of_mem hs (by decide) t, lineValue]

theorem lineValue_lt {v : Nat} (hs : ch '\n' ∈ s) (hv : lineValue s = some v) : v < s.length := by
  have hline : (s.takeWhile (· ≠ ch '\n')).length < s.length := by
    refine Nat.lt_of_le_of_ne (List.takeWhile_prefix _).length_le fun heq => ?_
    have hall := (List.takeWhile_prefix (· ≠ ch '\n') (l := s)).eq_of_length heq
    exact absurd (List.takeWhile_eq_self_iff.mp hall _ hs) (by decide)
  rw [lineValue] at hv
  obtain ⟨line, hlen, hdef⟩ : ∃ line : Bytes, line.length ≤ (s.takeWhile (· ≠ ch '\n')).length ∧
      line = if (s.takeWhile (· ≠ ch '\n')).getLast? = some (ch '\r') then
        (s.takeWhile (· ≠ ch '\n')).dropLast else s.takeWhile (· ≠ ch '\n') := by
    refine ⟨_, ?_, rfl⟩
    split
    · exact (List.dropLast_prefix _).length_le
    · exact Nat.le_refl _
  rw [← hdef] at hv
  split at hv
  · next hmatch =>
    have hspace := ((List.takeWhile_prefix isspace (l := line.drop 15)).length_le)
    rw [List.length_drop] at hspace
    have hlong := hmatch.1
    cases hv
    omega
  · exact nomatch hv

theorem findValue_append (hs : s.getLast? = some (ch '\n')) {start : Bool} {v : Nat}
    (hv : findValue start s = some v) (t : Bytes) : findValue start (s ++ t) = some v ∧ v < s.length := by
  induction s generalizing start v with
  | nil => exact nomatch hv
  | cons c s ih =>
    have hmem : ch '\n' ∈ c :: s := List.mem_of_getLast? hs
    rw [findValue] at hv
    rw [List.cons_append, findValue, ← List.cons_append, lineValue_append hmem]
    cases hline : if start then lineValue (c :: s) else none with
    | some w =>
      rw [hline] at hv
      cases hv
      refine ⟨rfl, ?_⟩
      split at hline
      · exact lineValue_lt hmem hline
      · exact nomatch hline
    | none =>
      rw [hline] at hv
      obtain ⟨w, hw, rfl⟩ := Option.map_eq_some_iff.mp hv
      cases s with
      | nil => exact nomatch hw
      | cons d s =>
        rw [List.getLast?_cons_cons] at hs
        obtain ⟨hfind, hlt⟩ := ih hs hw
        refine ⟨?_, Nat.succ_lt_succ hlt⟩
        change (findValue _ (d :: s ++ t)).map _ = _
        rw [hfind]
        rfl

theorem FirstBlank.getLast (hb : FirstBlank stream h) : (stream.take h).getLast? = some (ch '\n') := by
  rcases hb.ends with ⟨t, ht⟩ | ⟨t, ht⟩
  · rw [← ht, List.getLast?_append_of_ne_nil _ (by decide)]
    rfl
  · rw [← ht, List.getLast?_append_of_ne_nil _ (by decide)]
    rfl

theorem take_eq_append (stream : Bytes) {n : Nat} (hn : h ≤ n) : ∃ t, stream.take n = stream.take h ++ t := by
  obtain ⟨t, ht⟩ := List.take_prefix_take_left (l := stream) hn
  exact ⟨t, ht.symm⟩

/-- The number read from the header block alone. -/
def blockLength (stream : Bytes) (h : Nat) : Int := contentLength (stream.take h) h

theorem contentLength_take {n m : Nat} (hm : m ≤ n) : contentLength (stream.take n) m =
    match findValue true (stream.take m) with
    | some v => strtol ((stream.take n).drop v)
    | none => 0 := by
  rw [contentLength, List.take_take, Nat.min_eq_left hm]

/-- A number other than 0 stands in the header block, so that what is behind it does not matter. -/
theorem contentLength_of_ne_zero (hb : FirstBlank stream h) (hne : blockLength stream h ≠ 0) {n m : Nat}
    (hm : h ≤ m) (hmn : m ≤ n) : contentLength (stream.take n) m = blockLength stream h := by
  rw [blockLength, contentLength_take (Nat.le_refl h)] at hne ⊢
  cases hv : findValue true (stream.take h) with
  | none =>
    rw [hv] at hne
    exact absurd rfl hne
  | some v =>
    rw [hv] at hne
    obtain ⟨t, ht⟩ := take_eq_append stream hm
    obtain ⟨u, hu⟩ := take_eq_append stream (hm.trans hmn)
    obtain ⟨hfind, hlt⟩ := findValue_append hb.getLast hv t
    rw [contentLength_take hmn, ht, hfind]
    dsimp only at hne ⊢
    rw [hu, List.drop_append_of_le_length hlt.le]
    refine strtol_append_of_ne_zero ?_ hne u
    have hlast := hb.getLast
    rw [← List.take_append_drop v (stream.take h), List.getLast?_append_of_ne_nil _
      (List.ne_nil_of_length_pos (by rw [List.length_drop]; omega))] at hlast
    exact hlast

/-- Where a longer buffer gives the number of the block, so does a shorter one. -/
theorem contentLength_mono (hb : FirstBlank stream h) {n n' : Nat} (hn : h ≤ n) (hn' : n ≤ n')
    (hlen : contentLength (stream.take n') h = blockLength stream h) :
    contentLength (stream.take n) h = blockLength stream h := by
  by_cases hne : blockLength stream h = 0
  · rw [hne] at hlen ⊢
    rw [contentLength_take (hn.trans hn')] at hlen
    rw [contentLength_take hn]
    cases hv : findValue true (stream.take h) with
    | none => rfl
    | some v =>
      rw [hv] at hlen
      obtain ⟨u, hu⟩ := take_eq_append stream hn'
      have hlt := (findValue_append hb.getLast hv []).2
      have hle : v ≤ (stream.take n).length :=
        hlt.le.trans (List.take_prefix_take_left (l := stream) hn).length_le
      dsimp only at hlen ⊢
      rw [hu, List.drop_append_of_le_length hle] at hlen
      exact strtol_eq_zero_of_append hlen
  · exact contentLength_of_ne_zero hb hne (Nat.le_refl h) hn

end ContentLength

/-! ## Framing -/

section Framing
variable {stream : Bytes} {h n : Nat} {r : HttpRequest}

/-- A body of this length is accepted and there. -/
def Fits (stream : Bytes) (h : Nat) (clen : Int) : Prop :=
  0 ≤ clen ∧ clen ≤ maxBody ∧ h + clen.toNat ≤ stream.length

theorem outcome_of_fits {line : Bytes × Bytes} (hend : headerEnd (stream.take n) = some h)
    (hline : requestLine stream = some line) (hfits : Fits stream h (contentLength (stream.take n) h)) :
    outcome stream n = some (⟨line.1, line.2,
      (stream.drop h).take (contentLength (stream.take n) h).toNat⟩, h) := by
  have hgood : ¬(contentLength (stream.take n) h < 0 ∨ (maxBody : Int) < contentLength (stream.take n) h ∨
      stream.length < h + (contentLength (stream.take n) h).toNat) := by
    rintro (hbad | hbad | hbad)
    · exact absurd hfits.1 (Int.not_le.mpr hbad)
    · exact absurd hfits.2.1 (Int.not_le.mpr hbad)
    · exact absurd hfits.2.2 (Nat.not_le.mpr hbad)
  rw [outcome, hend, hline]
  exact if_neg hgood

theorem fits_of_outcome {m : Nat} (ho : outcome stream n = some (r, m)) :
    headerEnd (stream.take n) = some m ∧ (requestLine stream).isSome ∧
      Fits stream m (contentLength (stream.take n) m) ∧
      r.body.length = (contentLength (stream.take n) m).toNat := by
  rw [outcome] at ho
  obtain ⟨hend, hfound, ho⟩ := Option.bind_eq_some_iff.mp ho
  obtain ⟨line, hline, ho⟩ := Option.bind_eq_some_iff.mp ho
  dsimp only at ho
  split at ho
  · exact nomatch ho
  next hgood =>
  obtain ⟨rfl, rfl⟩ := Prod.mk.inj (Option.some.inj ho)
  rw [not_or, not_or, Int.not_lt, Int.not_lt, Nat.not_lt] at hgood
  refine ⟨hfound, Option.isSome_iff_exists.mpr ⟨line, hline⟩, hgood, ?_⟩
  rw [List.length_take, List.length_drop]
  exact Nat.min_eq_left (by omega)

/-- Where the number of the block does not fit, nothing that arrives with it changes that. -/
theorem outcome_of_not_fits (hb : FirstBlank stream h) (hfits : ¬Fits stream h (blockLength stream h))
    (hn : h ≤ n) : outcome stream n = none := by
  refine Option.eq_none_iff_forall_ne_some.mpr fun ⟨r, m⟩ ho => hfits ?_
  obtain ⟨hend, -, hgood, -⟩ := fits_of_outcome ho
  obtain ⟨m', hm', hge, hle, -⟩ := headerEnd_take_of_le hb hn
  cases Option.some.inj (hend.symm.trans hm')
  by_cases hne : blockLength stream h = 0
  · rw [hne]
    exact ⟨Int.le_refl 0, by decide, hb.le_length⟩
  · rw [contentLength_of_ne_zero hb hne hge hle] at hgood
    exact ⟨hgood.1, hgood.2.1, (Nat.add_le_add_right hge _).trans hgood.2.2⟩

end Framing

/-- However the stream is cut the request is the same one behind the first blank line, if and only if the
request line or the length of the body is refused anyway, or what can arrive with the header block
neither moves its end nor changes the length. -/
theorem readHttpRequest_framed_iff {stream : Bytes} {h : Nat} (hb : FirstBlank stream h)
    (hmax : h ≤ 60 * 1024) :
    (∀ cut cut', (readHttpRequest cut stream = none ∧ readHttpRequest cut' stream = none) ∨
      ∃ r, readHttpRequest cut stream = some (r, h) ∧ readHttpRequest cut' stream = some (r, h)) ↔
    requestLine stream = none ∨ ¬Fits stream h (blockLength stream h) ∨
      (headerEnd (stream.take (h + 4095)) = some h ∧
        contentLength (stream.take (h + 4095)) h = blockLength stream h) := by
  have hroom : h ≤ maxHeader := hmax.trans (by decide)
  have hall : stream.take (min (h + 4095) stream.length) = stream.take (h + 4095) := by
    rw [← List.take_eq_take_min]
  constructor
  · intro hframed
    by_contra hcond
    obtain ⟨hline, hcond⟩ := not_or.mp hcond
    obtain ⟨hfits, hcond⟩ := not_or.mp hcond
    obtain ⟨line, hline⟩ := Option.ne_none_iff_exists'.mp hline
    obtain ⟨cut, hcut⟩ := exists_cut hb hroom (Nat.le_refl h) (by omega) hb.le_length
    obtain ⟨cut', hcut'⟩ := exists_cut hb hroom (n := min (h + 4095) stream.length)
      (Nat.le_min.mpr ⟨by omega, hb.le_length⟩) (by omega) (Nat.min_le_right _ _)
    have hshort := outcome_of_fits (headerEnd_take_self hb) hline (not_not.mp hfits)
    rcases hframed cut cut' with ⟨hnone, -⟩ | ⟨r, hr, hr'⟩
    · rw [hcut, hshort] at hnone
      exact nomatch hnone
    · obtain ⟨-, -, hfit, hbody⟩ := fits_of_outcome (hcut.symm.trans hr)
      obtain ⟨hend', -, hfit', hbody'⟩ := fits_of_outcome (hcut'.symm.trans hr')
      rw [hall] at hend' hfit' hbody'
      refine hcond ⟨hend', ?_⟩
      have hsame : (contentLength (stream.take (h + 4095)) h).toNat = (blockLength stream h).toNat :=
        hbody'.symm.trans hbody
      have hpos := hfit.1
      have hpos' := hfit'.1
      have hdef : blockLength stream h = contentLength (stream.take h) h := rfl
      omega
  · intro hcond cut cut'
    obtain ⟨n, hn, hlt, hle, hread⟩ := readHttpRequest_eq hb hroom cut
    obtain ⟨n', hn', hlt', hle', hread'⟩ := readHttpRequest_eq hb hroom cut'
    rw [hread, hread']
    by_cases hfits : Fits stream h (blockLength stream h)
    · cases hline : requestLine stream with
      | none =>
        have hnone : ∀ m, outcome stream m = none := fun m =>
          Option.eq_none_iff_forall_ne_some.mpr fun ⟨r, hend⟩ ho => by
            have hsome := (fits_of_outcome ho).2.1
            rw [hline] at hsome
            exact absurd hsome Bool.false_ne_true
        exact .inl ⟨hnone n, hnone n'⟩
      | some line =>
        obtain ⟨hend, hlen⟩ := (hcond.resolve_left (by rw [hline]; exact nofun)).resolve_left (not_not.mpr hfits)
        have hsame : ∀ m, h ≤ m → m < h + 4096 → outcome stream m = some (⟨line.1, line.2,
            (stream.drop h).take (blockLength stream h).toNat⟩, h) := fun m hm hlt => by
          have hclen := contentLength_mono hb hm (Nat.le_of_lt_succ hlt) hlen
          rw [← hclen] at hfits ⊢
          exact outcome_of_fits (headerEnd_take_mono hb hm (Nat.le_of_lt_succ hlt) hend) hline hfits
        exact .inr ⟨_, hsame n hn hlt, hsame n' hn' hlt'⟩
    · exact .inl ⟨outcome_of_not_fits hb hfits hn, outcome_of_not_fits hb hfits hn'⟩

theorem readHttpRequest_framed_iff_get :
    (readHttpRequest (fun _ => 1) (lit "GET / HTTP/1.1\r\n\r\n") = none ∧
      readHttpRequest (fun _ => 4096) (lit "GET / HTTP/1.1\r\n\r\n") = none) ∨
    ∃ r, readHttpRequest (fun _ => 1) (lit "GET / HTTP/1.1\r\n\r\n") = some (r, 18) ∧
      readHttpRequest (fun _ => 4096) (lit "GET / HTTP/1.1\r\n\r\n") = some (r, 18) :=
  have hblank : FirstBlank (lit "GET / HTTP/1.1\r\n\r\n") 18 := ⟨by decide, by decide, by decide⟩
  (readHttpRequest_framed_iff hblank (by decide)).mpr (.inr (.inr ⟨by decide, by decide⟩)) _ _

/-- A request whose body has a blank line of the other kind. -/
def mixedRequest : Bytes := lit "POST /v1 HTTP/1.1\nContent-Length: 4\n\nab\r\n\r\ncdef"

theorem segmentation_moves_body : FirstBlank mixedRequest 37 ∧
    (∃ cut, readHttpRequest cut mixedRequest = some (⟨lit "POST", lit "/v1", lit "ab\r\n"⟩, 37)) ∧
    ∃ cut, readHttpRequest cut mixedRequest = some (⟨lit "POST", lit "/v1", lit "cdef"⟩, 43) := by
  have hb : FirstBlank mixedRequest 37 := ⟨by decide, by decide, by decide⟩
  obtain ⟨cut, hcut⟩ := exists_cut hb (by decide) (n := 37) (by decide) (by decide) (by decide)
  obtain ⟨cut', hcut'⟩ := exists_cut hb (by decide) (n := 47) (by decide) (by decide) (by decide)
  exact ⟨hb, ⟨cut, hcut.trans (by decide)⟩, ⟨cut', hcut'.trans (by decide)⟩⟩

end Ds4.Http
