import Mathlib.Logic.Function.Basic
import Ds4.Agent.Buf
import Ds4.Lib.TextLines

/-!
# The search tool

`agent_search_file` goes over the lines of a file with a ring of the last six of them. A matching line is shown with
the lines around it that have not been shown yet; the lines behind it are counted down.
-/

namespace Ds4.Agent
open C TextLines

structure AgentSearchCtx where
  query : Bytes
  glob : Bytes
  useRegex : Bool
  caseSensitive : Bool
  context : Nat
  maxResults : Nat
  results : Nat
  skipped : Nat
  firstSkip : Bytes
  out : AgentBuf

/-- `regexec` on the compiled query, and `fnmatch`. -/
structure SearchLib where
  regexec : Bytes → Bytes → Bool
  fnmatch : Bytes → Bytes → Bool

/-- A byte as it is compared. -/
def foldCase (caseSensitive : Bool) (c : UInt8) : UInt8 := if caseSensitive then c else tolower c

def agentLiteralMatch (s q : Bytes) (caseSensitive : Bool) : Bool :=
  if q = [] then true
  else if s.length < q.length then false
  else (List.range (s.length - q.length + 1)).any fun i =>
    (List.range q.length).all fun j => foldCase caseSensitive (s.getD (i + j) 0) == foldCase caseSensitive (q.getD j 0)

def agentSearchLineMatches (lib : SearchLib) (ctx : AgentSearchCtx) (s : Bytes) : Bool :=
  if ctx.useRegex then lib.regexec ctx.query s else agentLiteralMatch s ctx.query ctx.caseSensitive

def AgentSearchCtx.puts (ctx : AgentSearchCtx) (s : Bytes) : AgentSearchCtx :=
  { ctx with out := agentBufAppend ctx.out s }

def agentSearchEmitLine (ctx : AgentSearchCtx) (data : Bytes) (lineNo : Nat) : AgentSearchCtx :=
  ((ctx.puts (lit "  " ++ lit (toString lineNo) ++ lit " ")).puts data).puts (lit "\n")

def agentSearchSkip (ctx : AgentSearchCtx) (path why : Bytes) : AgentSearchCtx :=
  { ctx with
    skipped := ctx.skipped + 1
    firstSkip := if ctx.firstSkip = [] then path ++ lit ": " ++ why else ctx.firstSkip }

/-- What is read of a file: its end, a line that is binary or too long, or a line and the rest of the file. -/
inductive ReadLine
  | eof
  | bad
  | line (text rest : Bytes)

/-- `text` is what was read of the line so far. -/
def searchReadLine (text : Bytes) : Bytes → ReadLine
  | [] => if text = [] then .eof else .line text []
  | c :: s =>
    if c = 0 ∨ text.length = agentToolMaxBytes then .bad
    else if c = ch '\n' ∨ c = ch '\r' then
      .line text (if c = ch '\r' ∧ s.head? = some (ch '\n') then s.drop 1 else s)
    else searchReadLine (text ++ [c]) s

def agentSearchReadLine (file : Bytes) : ReadLine := searchReadLine [] file

/-- The state of the loop over the lines. -/
structure SearchState where
  ctx : AgentSearchCtx
  ring : Nat → Bytes
  printedFile : Bool
  line : Nat
  lastEmitted : Nat
  after : Nat

/-- The lines `n` places from `j` on are shown from the ring. -/
def emitRing (ring : Nat → Bytes) (ctx : AgentSearchCtx) (j n : Nat) : AgentSearchCtx :=
  (List.range' j n).foldl (fun ctx j => agentSearchEmitLine ctx (ring (j % 6)) j) ctx

/-- The next line goes into the ring. -/
def SearchState.push (st : SearchState) (text : Bytes) : SearchState :=
  { st with line := st.line + 1, ring := Function.update st.ring ((st.line + 1) % 6) text }

/-- The path is shown in front of the first match. -/
def SearchState.header (st : SearchState) (path : Bytes) : AgentSearchCtx :=
  if st.printedFile then st.ctx else (st.ctx.puts path).puts (lit "\n")

/-- The first line to be shown with a match; `line - context` is not positive near the start of the file. -/
def SearchState.first (st : SearchState) : Nat :=
  if st.line - st.ctx.context ≤ st.lastEmitted then st.lastEmitted + 1 else st.line - st.ctx.context

/-- The line in the ring is a match. -/
def searchHit (path : Bytes) (st : SearchState) : SearchState :=
  let ctx := emitRing st.ring (st.header path) st.first (st.line + 1 - st.first)
  { st with
    ctx := { ctx with results := ctx.results + 1 }
    printedFile := true
    lastEmitted := st.line
    after := ctx.context }

/-- The line is shown behind a match. -/
def searchBehind (st : SearchState) (text : Bytes) : SearchState :=
  { st with ctx := agentSearchEmitLine st.ctx text st.line, lastEmitted := st.line, after := st.after - 1 }

/-- What the loop does with a line. -/
def searchLine (lib : SearchLib) (path : Bytes) (st : SearchState) (text : Bytes) : SearchState :=
  let st := st.push text
  if st.ctx.results < st.ctx.maxResults ∧ agentSearchLineMatches lib st.ctx text then searchHit path st
  else if 0 < st.after then searchBehind st text
  else st

theorem searchReadLine_rest {text s t rest : Bytes} (h : searchReadLine text s = .line t rest) :
    rest.length ≤ s.length ∧ (text = [] → rest.length < s.length) := by
  induction s generalizing text with
  | nil =>
    rw [searchReadLine] at h
    split at h
    · exact nomatch h
    · next hne =>
      cases h
      exact ⟨Nat.le_refl _, fun h => absurd h hne⟩
  | cons c s ih =>
    rw [searchReadLine] at h
    split at h
    · exact nomatch h
    split at h
    · cases h
      have hle : ∀ b : Prop, [Decidable b] → (if b then s.drop 1 else s).length ≤ s.length := by
        intro b _
        split
        · rw [List.length_drop]
          omega
        · exact Nat.le_refl _
      exact ⟨(hle _).trans (Nat.le_succ _), fun _ => Nat.lt_succ_of_le (hle _)⟩
    · have := (ih h).1
      rw [List.length_cons]
      exact ⟨by omega, fun _ => by omega⟩

/-- The loop over the lines of the rest of the file. -/
def searchLoop (lib : SearchLib) (path : Bytes) (st : SearchState) (file : Bytes) : SearchState :=
  if (st.ctx.results < st.ctx.maxResults ∨ 0 < st.after) ∧ st.ctx.out.truncated = false then
    match _h : agentSearchReadLine file with
    | .eof => st
    | .bad => { st with ctx := agentSearchSkip st.ctx path (lit "binary data or line exceeds 128 KiB") }
    | .line text rest =>
      if st.line = intMax then { st with ctx := agentSearchSkip st.ctx path (lit "line number limit reached") }
      else searchLoop lib path (searchLine lib path st text) rest
  else st
termination_by file.length
decreasing_by exact (searchReadLine_rest ‹_›).2 rfl

/-- The part of a path behind its last slash. -/
def baseName (path : Bytes) : Bytes := path.rtakeWhile (· != ch '/')

def globRefuses (lib : SearchLib) (ctx : AgentSearchCtx) (path : Bytes) : Bool :=
  ctx.glob != [] && !lib.fnmatch ctx.glob (baseName path) && !lib.fnmatch ctx.glob path

/-- A file that cannot be opened has an error instead of bytes. -/
def agentSearchFile (lib : SearchLib) (ctx : AgentSearchCtx) (path : Bytes) (file : Except Bytes Bytes) : AgentSearchCtx :=
  if ctx.maxResults ≤ ctx.results ∨ ctx.out.truncated then ctx
  else if globRefuses lib ctx path then ctx
  else
    match file with
    | .error e => agentSearchSkip ctx path e
    | .ok file =>
      let st := searchLoop lib path ⟨ctx, fun _ => [], false, 0, 0, 0⟩ file
      if st.printedFile then st.ctx.puts (lit "\n") else st.ctx

/-! ## Reading lines -/

section
variable {content e rest acc : Bytes}

theorem searchReadLine_line (h0 : 0 ∉ content) (hc : ∀ c ∈ content, isBreak c = false) (he : Ends e rest)
    (hlen : acc.length + content.length < agentToolMaxBytes) (hne : acc ++ content ++ e ≠ []) :
    searchReadLine acc (content ++ (e ++ rest)) = .line (acc ++ content) rest := by
  induction content generalizing acc with
  | nil =>
    rw [List.append_nil] at hne ⊢
    rw [List.length_nil, Nat.add_zero] at hlen
    -- the byte at the end of the line is neither NUL nor too much
    have hfit : ∀ c : UInt8, c ≠ 0 → ¬(c = 0 ∨ acc.length = agentToolMaxBytes) :=
      fun c hc h => h.elim hc hlen.ne
    cases he with
    | lf => exact (if_neg (hfit 10 (by decide))).trans (if_pos (.inl rfl))
    | crlf => exact (if_neg (hfit 13 (by decide))).trans (if_pos (.inr rfl))
    | cr _ hnext =>
      refine (if_neg (hfit 13 (by decide))).trans ((if_pos (.inr rfl)).trans ?_)
      rw [if_neg fun h => hnext h.2]
      rfl
    | eof =>
      rw [List.append_nil] at hne
      exact if_neg hne
  | cons c content ih =>
    have hc0 : c ≠ 0 := fun h => h0 (h ▸ List.mem_cons_self)
    have hbreak := hc c List.mem_cons_self
    rw [isBreak, Bool.or_eq_false_iff, beq_eq_false_iff_ne, beq_eq_false_iff_ne] at hbreak
    rw [List.length_cons] at hlen
    have hnot : ¬(c = 0 ∨ acc.length = agentToolMaxBytes) := fun h => h.elim hc0 (by omega)
    have hnb : ¬(c = ch '\n' ∨ c = ch '\r') := fun h => h.elim hbreak.1 hbreak.2
    rw [List.cons_append, searchReadLine, if_neg hnot, if_neg hnb,
      ih (fun h => h0 (List.mem_cons_of_mem _ h)) (fun d hd => hc d (List.mem_cons_of_mem _ hd))
        (by rw [List.length_append, List.length_singleton]; omega) (by simp), List.append_assoc]
    rfl

end

/-! ## Writing -/

/-- `ctx'` is `ctx` with the text `s` written behind, if it was not truncated. -/
def Wrote (ctx ctx' : AgentSearchCtx) (s : Bytes) : Prop :=
  ∃ out, ctx' = { ctx with out := out } ∧
    (out.truncated = false → ctx.out.truncated = false ∧ out.bytes = ctx.out.bytes ++ s)

section
variable {ctx ctx' ctx'' : AgentSearchCtx} {s t : Bytes}

theorem Wrote.refl (ctx : AgentSearchCtx) : Wrote ctx ctx [] :=
  ⟨ctx.out, rfl, fun h => ⟨h, (List.append_nil _).symm⟩⟩

theorem wrote_puts (ctx : AgentSearchCtx) (s : Bytes) : Wrote ctx (ctx.puts s) s :=
  ⟨agentBufAppend ctx.out s, rfl, fun h => ⟨truncated_agentBufAppend h, bytes_agentBufAppend h⟩⟩

theorem Wrote.trans (h : Wrote ctx ctx' s) (h' : Wrote ctx' ctx'' t) : Wrote ctx ctx'' (s ++ t) := by
  obtain ⟨out, rfl, hout⟩ := h
  obtain ⟨out', rfl, hout'⟩ := h'
  refine ⟨out', rfl, fun ht => ?_⟩
  obtain ⟨h1, h2⟩ := hout' ht
  obtain ⟨h3, h4⟩ := hout h1
  have h2 : out'.bytes = out.bytes ++ t := h2
  exact ⟨h3, by rw [h2, h4, List.append_assoc]⟩

end

/-- A numbered line. -/
def numberedLine (text : Bytes) (n : Nat) : Bytes := lit "  " ++ lit (toString n) ++ lit " " ++ text ++ lit "\n"

theorem wrote_emitLine (ctx : AgentSearchCtx) (text : Bytes) (n : Nat) :
    Wrote ctx (agentSearchEmitLine ctx text n) (numberedLine text n) :=
  ((wrote_puts ctx _).trans (wrote_puts _ text)).trans (wrote_puts _ (lit "\n"))

theorem wrote_emitRing (ring : Nat → Bytes) (ctx : AgentSearchCtx) (j n : Nat) :
    Wrote ctx (emitRing ring ctx j n) ((List.range' j n).flatMap fun j => numberedLine (ring (j % 6)) j) := by
  rw [emitRing]
  induction List.range' j n generalizing ctx with
  | nil => exact .refl ctx
  | cons i l ih => exact (wrote_emitLine ctx _ i).trans (ih _)

/-! ## What is shown -/

/-- The text of a line by its number. -/
def lineAt (texts : List Bytes) (j : Nat) : Bytes := texts.getD (j - 1) []

/-- The numbers of the first `r` of the matching lines among the first `k` lines. -/
def firstHits (p : Bytes → Bool) (texts : List Bytes) (r k : Nat) : List Nat :=
  ((List.range' 1 k).filter fun j => p (lineAt texts j)).take r

/-- The lines at distance at most `c` from one of `hits`. -/
def Near (c : Nat) (hits : List Nat) (j : Nat) : Prop := ∃ m ∈ hits, m ≤ j + c ∧ j ≤ m + c

section
variable {p : Bytes → Bool} {texts : List Bytes} {r k c : Nat} {hits : List Nat}

theorem firstHits_zero : firstHits p texts r 0 = [] := List.take_nil

theorem length_firstHits_le : (firstHits p texts r k).length ≤ r := List.length_take_le ..

theorem firstHits_succ : firstHits p texts r (k + 1) =
    if (firstHits p texts r k).length < r ∧ p (lineAt texts (k + 1)) then firstHits p texts r k ++ [k + 1]
    else firstHits p texts r k := by
  have hone : 1 + 1 * k = k + 1 := by omega
  rw [firstHits, List.range'_concat, List.filter_append, List.take_append, hone, firstHits]
  generalize (List.range' 1 k).filter (fun j => p (lineAt texts j)) = l
  rw [List.length_take]
  by_cases hp : p (lineAt texts (k + 1)) = true
  · rw [List.filter_cons_of_pos (p := fun j => p (lineAt texts j)) hp, List.filter_nil]
    by_cases hr : l.length < r
    · rw [if_pos ⟨by omega, hp⟩]
      congr 1
      exact List.take_of_length_le (by rw [List.length_singleton]; omega)
    · rw [if_neg fun h => hr (by omega), show r - l.length = 0 by omega, List.take_zero, List.append_nil]
  · rw [List.filter_cons_of_neg (p := fun j => p (lineAt texts j)) hp, List.filter_nil, List.take_nil, List.append_nil, if_neg fun h => hp h.2]

theorem mem_firstHits {m : Nat} (h : m ∈ firstHits p texts r k) : 1 ≤ m ∧ m ≤ k := by
  have hm := List.mem_range'_1.mp (List.mem_of_mem_filter (List.mem_of_mem_take h))
  omega

theorem near_append {m j : Nat} : Near c (hits ++ [m]) j ↔ Near c hits j ∨ m ≤ j + c ∧ j ≤ m + c := by
  constructor
  · intro h
    obtain ⟨i, hi, hij⟩ := h
    rcases List.mem_append.mp hi with hi | hi
    · exact .inl ⟨i, hi, hij⟩
    · cases List.mem_singleton.mp hi
      exact .inr hij
  · intro h
    rcases h with ⟨i, hi, hij⟩ | hij
    · exact ⟨i, List.mem_append_left _ hi, hij⟩
    · exact ⟨m, List.mem_append_right _ List.mem_cons_self, hij⟩

end

/-- The state after `k` lines, of which those with the numbers `shown` were shown. -/
structure SearchInv (p : Bytes → Bool) (path : Bytes) (texts : List Bytes) (r : Nat) (ctx : AgentSearchCtx) (k : Nat)
    (shown : List Nat) (st : SearchState) : Prop where
  line : st.line = k
  frame : st.ctx = { ctx with results := ctx.results + (firstHits p texts r k).length, out := st.ctx.out }
  sorted : shown.Pairwise (· < ·)
  mem : ∀ j, j ∈ shown ↔ 1 ≤ j ∧ j ≤ k ∧ Near ctx.context (firstHits p texts r k) j
  printed : st.printedFile = true ↔ firstHits p texts r k ≠ []
  out : st.ctx.out.truncated = false → ctx.out.truncated = false ∧ st.ctx.out.bytes = ctx.out.bytes ++
    if firstHits p texts r k = [] then []
    else path ++ lit "\n" ++ shown.flatMap fun j => numberedLine (lineAt texts j) j
  none : firstHits p texts r k = [] → st.lastEmitted = 0 ∧ st.after = 0
  last : ∀ m ∈ firstHits p texts r k, (∀ i ∈ firstHits p texts r k, i ≤ m) →
    st.lastEmitted = min (m + ctx.context) k ∧ st.after = m + ctx.context - k
  ring : ∀ j, 1 ≤ j → j ≤ k → k < j + 6 → st.ring (j % 6) = lineAt texts j

theorem exists_last {l : List Nat} (h : l ≠ []) : ∃ m ∈ l, ∀ i ∈ l, i ≤ m := by
  induction l with
  | nil => exact absurd rfl h
  | cons a l ih =>
    by_cases hl : l = []
    · exact ⟨a, List.mem_cons_self, fun i hi => (List.mem_singleton.mp (hl ▸ hi)).le⟩
    · obtain ⟨m, hm, hle⟩ := ih hl
      rcases Nat.le_total a m with ham | ham
      · refine ⟨m, List.mem_cons_of_mem _ hm, fun i hi => ?_⟩
        rcases List.mem_cons.mp hi with rfl | hi
        · exact ham
        · exact hle i hi
      · refine ⟨a, List.mem_cons_self, fun i hi => ?_⟩
        rcases List.mem_cons.mp hi with rfl | hi
        · exact le_rfl
        · exact (hle i hi).trans ham

section
variable {lib : SearchLib} {p : Bytes → Bool} {path : Bytes} {texts : List Bytes} {r k : Nat} {ctx : AgentSearchCtx}
  {shown : List Nat} {st : SearchState}

/-- The last shown line is where the countdown behind the last match has come to. -/
theorem SearchInv.last_cases (h : SearchInv p path texts r ctx k shown st) :
    (firstHits p texts r k = [] ∧ st.lastEmitted = 0 ∧ st.after = 0) ∨
    ∃ m ∈ firstHits p texts r k, (∀ i ∈ firstHits p texts r k, i ≤ m) ∧ m ≤ k ∧
      st.lastEmitted = min (m + ctx.context) k ∧ st.after = m + ctx.context - k := by
  by_cases hnil : firstHits p texts r k = []
  · exact .inl ⟨hnil, h.none hnil⟩
  · obtain ⟨m, hm, hle⟩ := exists_last hnil
    exact .inr ⟨m, hm, hle, (mem_firstHits hm).2, h.last m hm hle⟩

theorem SearchInv.le_last (h : SearchInv p path texts r ctx k shown st) {j : Nat} (hj : j ∈ shown) :
    j ≤ st.lastEmitted := by
  obtain ⟨-, hjk, i, hi, hij⟩ := (h.mem j).mp hj
  rcases h.last_cases with ⟨hnil, -⟩ | ⟨m, -, hle, -, hlast, -⟩
  · rw [hnil] at hi
    exact absurd hi List.not_mem_nil
  · have := hle i hi
    omega

theorem SearchInv.push_ring (h : SearchInv p path texts r ctx k shown st) {j : Nat} (h1 : 1 ≤ j) (hj : j ≤ k + 1)
    (hnear : k + 1 < j + 6) : (st.push (lineAt texts (k + 1))).ring (j % 6) = lineAt texts j := by
  rw [SearchState.push, h.line]
  dsimp only
  rcases Nat.lt_or_ge k j with hlt | hle
  · rw [show j = k + 1 by omega, Function.update_self]
  · rw [Function.update_of_ne (by omega)]
    exact h.ring j h1 hle (by omega)

/-- The lines shown with a match are those between the last shown one and it that are near it. -/
theorem SearchInv.mem_hit (h : SearchInv p path texts r ctx k shown st) {j first : Nat}
    (hfirst : first = if k + 1 - ctx.context ≤ st.lastEmitted then st.lastEmitted + 1 else k + 1 - ctx.context) :
    j ∈ shown ++ List.range' first (k + 2 - first) ↔
      1 ≤ j ∧ j ≤ k + 1 ∧ Near ctx.context (firstHits p texts r k ++ [k + 1]) j := by
  rw [List.mem_append, List.mem_range'_1, h.mem, near_append]
  have hlast : st.lastEmitted ≤ k := by
    rcases h.last_cases with ⟨-, hl, -⟩ | ⟨m, -, -, hm, hl, -⟩ <;> omega
  have hfirst_le : k + 1 - ctx.context ≤ first ∧ st.lastEmitted < first ∧ first ≤ k + 1 := by
    rw [hfirst]
    split <;> omega
  constructor
  · intro hj
    rcases hj with ⟨h1, hjk, hn⟩ | ⟨hge, hlt⟩
    · exact ⟨h1, by omega, .inl hn⟩
    · exact ⟨by omega, by omega, .inr (by omega)⟩
  · intro hj
    obtain ⟨h1, hjk, hn⟩ := hj
    rcases Nat.lt_or_ge j first with hlt | hge
    · refine .inl ⟨h1, by omega, hn.elim id fun hn => ?_⟩
      -- the line is near the match, and was shown with an earlier one
      rw [hfirst] at hlt
      split at hlt
      · rcases h.last_cases with ⟨-, hl, -⟩ | ⟨m, hm, -, hmk, hl, -⟩
        · omega
        · exact ⟨m, hm, by omega, by omega⟩
      · omega
    · exact .inr (by omega)

theorem SearchInv.hit (h : SearchInv p path texts r ctx k shown st) (hc : ctx.context ≤ 5)
    (hhits : firstHits p texts r (k + 1) = firstHits p texts r k ++ [k + 1]) :
    ∃ shown', SearchInv p path texts r ctx (k + 1) shown' (searchHit path (st.push (lineAt texts (k + 1)))) := by
  have hlast : st.lastEmitted ≤ k := by
    rcases h.last_cases with ⟨-, hl, -⟩ | ⟨m, -, -, hm, hl, -⟩ <;> omega
  have hcontext : st.ctx.context = ctx.context := by rw [h.frame]
  generalize hpush : st.push (lineAt texts (k + 1)) = st₁
  have hring : ∀ j, 1 ≤ j → j ≤ k + 1 → k + 1 < j + 6 → st₁.ring (j % 6) = lineAt texts j :=
    fun j h1 hj hn => hpush ▸ h.push_ring h1 hj hn
  have hline : st₁.line = k + 1 := by rw [← hpush, SearchState.push, h.line]
  have hctx : st₁.ctx = st.ctx := by rw [← hpush]; rfl
  have hfirst : st₁.first = if k + 1 - ctx.context ≤ st.lastEmitted then st.lastEmitted + 1 else k + 1 - ctx.context := by
    rw [SearchState.first, hline, hctx, hcontext, ← hpush]
    rfl
  have hmem := fun j => h.mem_hit (j := j) hfirst
  have hfirst_le : k + 1 - ctx.context ≤ st₁.first ∧ st.lastEmitted < st₁.first ∧ st₁.first ≤ k + 1 := by
    rw [hfirst]
    split <;> omega
  have hheader : Wrote st.ctx (st₁.header path) (if st.printedFile then [] else path ++ lit "\n") := by
    rw [SearchState.header, hctx, show st₁.printedFile = st.printedFile by rw [← hpush]; rfl]
    split
    · exact .refl _
    · exact (wrote_puts _ path).trans (wrote_puts _ _)
  have hbody : ((List.range' st₁.first (st₁.line + 1 - st₁.first)).flatMap fun j => numberedLine (st₁.ring (j % 6)) j)
      = (List.range' st₁.first (k + 2 - st₁.first)).flatMap fun j => numberedLine (lineAt texts j) j := by
    rw [hline]
    refine List.flatMap_congr fun j hj => ?_
    have := List.mem_range'_1.mp hj
    rw [hring j (by omega) (by omega) (by omega)]
  have hwrote := hheader.trans (wrote_emitRing st₁.ring (st₁.header path) st₁.first (st₁.line + 1 - st₁.first))
  rw [hbody] at hwrote
  obtain ⟨out, hctx', hout⟩ := hwrote
  refine ⟨shown ++ List.range' st₁.first (k + 2 - st₁.first), ?_⟩
  rw [searchHit, hctx']
  refine ⟨hline, ?_, ?_, fun j => hhits ▸ hmem j, ?_, fun htr => ?_, fun hnil => ?_, fun m hm hle => ?_, hring⟩
  · dsimp only
    rw [hhits, List.length_append, List.length_singleton]
    conv_lhs => rw [h.frame]
    rfl
  · refine List.pairwise_append.mpr ⟨h.sorted, List.pairwise_lt_range', fun a ha b hb => ?_⟩
    have := h.le_last ha
    have := (List.mem_range'_1.mp hb).1
    omega
  · rw [hhits]
    exact iff_of_true rfl (List.append_ne_nil_of_right_ne_nil _ (List.cons_ne_nil _ _))
  · obtain ⟨htr', hbytes⟩ := hout htr
    obtain ⟨htr₀, hbytes₀⟩ := h.out htr'
    refine ⟨htr₀, ?_⟩
    rw [if_neg (by rw [hhits]; simp)]
    dsimp only
    rw [hbytes, hbytes₀, List.flatMap_append, List.append_assoc]
    congr 1
    by_cases hnil : firstHits p texts r k = []
    · have hshown : shown = [] := List.eq_nil_iff_forall_not_mem.mpr fun j hj => by
        obtain ⟨-, -, i, hi, -⟩ := (h.mem j).mp hj
        rw [hnil] at hi
        exact List.not_mem_nil hi
      have hprinted : st.printedFile = false := by
        by_contra hp
        exact h.printed.mp (eq_true_of_ne_false hp) hnil
      rw [if_pos hnil, hprinted, hshown]
      rfl
    · rw [if_neg hnil, h.printed.mpr hnil, if_pos rfl, List.nil_append, List.append_assoc]
  · rw [hhits] at hnil
    exact absurd hnil (by simp)
  · rw [hhits] at hm hle
    have hmk : m = k + 1 := by
      have h1 := hle (k + 1) (List.mem_append_right _ List.mem_cons_self)
      have h2 := (mem_firstHits (hhits ▸ hm : m ∈ firstHits p texts r (k + 1))).2
      omega
    rw [hmk]
    dsimp only
    rw [hline, hcontext]
    omega

theorem SearchInv.behind (h : SearchInv p path texts r ctx k shown st) (hafter : 0 < st.after)
    (hhits : firstHits p texts r (k + 1) = firstHits p texts r k) :
    ∃ shown', SearchInv p path texts r ctx (k + 1) shown'
      (searchBehind (st.push (lineAt texts (k + 1))) (lineAt texts (k + 1))) := by
  have hline : (st.push (lineAt texts (k + 1))).line = k + 1 := by rw [SearchState.push, h.line]
  rcases h.last_cases with ⟨-, -, h0⟩ | ⟨m, hm, hle, hmk, hlast, hcount⟩
  · omega
  have hnil : firstHits p texts r k ≠ [] := List.ne_nil_of_mem hm
  obtain ⟨out, hctx', hout⟩ := wrote_emitLine st.ctx (lineAt texts (k + 1)) (k + 1)
  refine ⟨shown ++ [k + 1], ?_⟩
  rw [searchBehind, hline, show (st.push (lineAt texts (k + 1))).ctx = st.ctx from rfl, hctx']
  refine ⟨rfl, ?_, ?_, fun j => ?_, ?_, fun htr => ?_, fun h0 => ?_, fun m' hm' hle' => ?_, fun j h1 hj hn =>
    h.push_ring h1 hj hn⟩
  · rw [hhits]
    conv_lhs => rw [h.frame]
  · refine List.pairwise_append.mpr ⟨h.sorted, List.pairwise_singleton _ _, fun a ha b hb => ?_⟩
    have := ((h.mem a).mp ha).2.1
    rw [List.mem_singleton.mp hb]
    omega
  · rw [List.mem_append, List.mem_singleton, h.mem, hhits]
    constructor
    · intro hj
      rcases hj with ⟨h1, hjk, hn⟩ | rfl
      · exact ⟨h1, by omega, hn⟩
      · exact ⟨by omega, by omega, m, hm, by omega, by omega⟩
    · intro hj
      obtain ⟨h1, hjk, hn⟩ := hj
      rcases Nat.lt_or_ge k j with hlt | hge
      · exact .inr (by omega)
      · exact .inl ⟨h1, hge, hn⟩
  · rw [hhits]
    exact h.printed
  · obtain ⟨htr', hbytes⟩ := hout htr
    obtain ⟨htr₀, hbytes₀⟩ := h.out htr'
    refine ⟨htr₀, ?_⟩
    rw [if_neg hnil] at hbytes₀
    rw [hhits, if_neg hnil]
    dsimp only
    rw [hbytes, hbytes₀, List.flatMap_append, List.flatMap_singleton, List.append_assoc, List.append_assoc,
      List.append_assoc]
  · exact absurd (hhits ▸ h0) hnil
  · rw [hhits] at hm' hle'
    have hmm : m' = m := le_antisymm (hle m' hm') (hle' m hm)
    show k + 1 = min (m' + ctx.context) (k + 1) ∧ st.after - 1 = m' + ctx.context - (k + 1)
    omega

theorem SearchInv.skip (h : SearchInv p path texts r ctx k shown st) (hafter : st.after = 0)
    (hhits : firstHits p texts r (k + 1) = firstHits p texts r k) :
    SearchInv p path texts r ctx (k + 1) shown (st.push (lineAt texts (k + 1))) := by
  refine ⟨by rw [SearchState.push, h.line], ?_, h.sorted, fun j => ?_, ?_, ?_, ?_, fun m hm hle => ?_,
    fun j h1 hj hn => h.push_ring h1 hj hn⟩
  · rw [hhits]
    exact h.frame
  · rw [h.mem, hhits]
    refine ⟨fun hj => ⟨hj.1, by omega, hj.2.2⟩, fun hj => ⟨hj.1, ?_, hj.2.2⟩⟩
    -- the next line is not near the last match, nor any other
    obtain ⟨h1, hjk, i, hi, hij⟩ := hj
    rcases h.last_cases with ⟨hnil, -⟩ | ⟨m, -, hle, -, -, hcount⟩
    · rw [hnil] at hi
      exact absurd hi List.not_mem_nil
    · have := hle i hi
      omega
  · rw [hhits]
    exact h.printed
  · rw [hhits]
    exact h.out
  · rw [hhits]
    exact h.none
  · rw [hhits] at hm hle
    have hmk := (mem_firstHits hm).2
    have hl := h.last m hm hle
    show st.lastEmitted = _ ∧ st.after = _
    omega

/-- What the loop does with a line keeps the invariant. -/
theorem SearchInv.step (h : SearchInv (agentSearchLineMatches lib ctx) path texts r ctx k shown st)
    (hr : r = ctx.maxResults - ctx.results) (hc : ctx.context ≤ 5) :
    ∃ shown', SearchInv (agentSearchLineMatches lib ctx) path texts r ctx (k + 1) shown'
      (searchLine lib path st (lineAt texts (k + 1))) := by
  have hctx : (st.push (lineAt texts (k + 1))).ctx = st.ctx := rfl
  have hmatch : agentSearchLineMatches lib st.ctx (lineAt texts (k + 1))
      = agentSearchLineMatches lib ctx (lineAt texts (k + 1)) := by rw [h.frame]; rfl
  have hcount : st.ctx.results < st.ctx.maxResults ↔
      (firstHits (agentSearchLineMatches lib ctx) texts r k).length < r := by
    rw [h.frame, hr]
    dsimp only
    omega
  have hhits := @firstHits_succ (agentSearchLineMatches lib ctx) texts r k
  rw [searchLine, hctx, hmatch]
  split
  · next hhit =>
    rw [hcount] at hhit
    exact h.hit hc (hhits.trans (if_pos hhit))
  · next hhit =>
    rw [hcount] at hhit
    rw [if_neg hhit] at hhits
    split
    · next hafter => exact h.behind hafter hhits
    · next hafter => exact ⟨shown, h.skip (Nat.eq_zero_of_not_pos hafter) hhits⟩

end

/-! ## The whole file -/

/-- The texts of the lines that are searched. -/
def searchedTexts (file : Bytes) : List Bytes := ((lines file).map Line.content).take intMax

/-- A text file whose lines are not too long. -/
structure TextFile (file : Bytes) : Prop where
  noNul : 0 ∉ file
  short : ∀ l ∈ lines file, l.content.length < agentToolMaxBytes

/-- Where the loop stops. -/
structure SearchEnd (p : Bytes → Bool) (path : Bytes) (texts : List Bytes) (r : Nat) (ctx : AgentSearchCtx)
    (shown : List Nat) (st : SearchState) : Prop where
  sorted : shown.Pairwise (· < ·)
  mem : ∀ j, j ∈ shown ↔ 1 ≤ j ∧ j ≤ texts.length ∧ Near ctx.context (firstHits p texts r texts.length) j
  printed : st.printedFile = true ↔ firstHits p texts r texts.length ≠ []
  results : st.ctx.results = ctx.results + (firstHits p texts r texts.length).length
  out : st.ctx.out.bytes = ctx.out.bytes ++
    if firstHits p texts r texts.length = [] then []
    else path ++ lit "\n" ++ shown.flatMap fun j => numberedLine (lineAt texts j) j

section
variable {lib : SearchLib} {p : Bytes → Bool} {path : Bytes} {texts : List Bytes} {r k : Nat} {ctx : AgentSearchCtx}
  {shown : List Nat} {st : SearchState} {file : Bytes}

/-- As many hits as may be shown. -/
theorem firstHits_full (h : (firstHits p texts r k).length = r) {n : Nat} (hkn : k ≤ n) :
    firstHits p texts r n = firstHits p texts r k := by
  induction n, hkn using Nat.le_induction with
  | base => rfl
  | succ n _ ih =>
    rw [firstHits_succ, ih]
    exact if_neg fun hlt => by omega

theorem SearchInv.done (h : SearchInv p path texts r ctx k shown st) (htr : st.ctx.out.truncated = false)
    (hk : k = texts.length ∨ k ≤ texts.length ∧ (firstHits p texts r k).length = r ∧ st.after = 0) :
    SearchEnd p path texts r ctx shown st := by
  have hhits : firstHits p texts r texts.length = firstHits p texts r k := by
    rcases hk with rfl | ⟨hle, hfull, -⟩
    · rfl
    · exact firstHits_full hfull hle
  refine ⟨h.sorted, fun j => ?_, hhits ▸ h.printed, ?_, hhits ▸ (h.out htr).2⟩
  · rw [h.mem, hhits]
    rcases hk with rfl | ⟨hle, -, hafter⟩
    · rfl
    refine ⟨fun hj => ⟨hj.1, by omega, hj.2.2⟩, fun hj => ⟨hj.1, ?_, hj.2.2⟩⟩
    obtain ⟨-, -, i, hi, hij⟩ := hj
    rcases h.last_cases with ⟨hnil, -⟩ | ⟨m, -, hm, -, -, hcount⟩
    · rw [hnil] at hi
      exact absurd hi List.not_mem_nil
    · have := hm i hi
      omega
  · rw [h.frame, hhits]

/-- A line of a text file is read as a line. -/
theorem agentSearchReadLine_line (hfile : TextFile file) (hne : file ≠ []) :
    ∃ l rest, lines file = l :: lines rest ∧ agentSearchReadLine file = .line l.content rest ∧ TextFile rest := by
  obtain ⟨content, e, rest, rfl, hne', hc, he, hlines⟩ := lines_cases hne
  have hshort := hfile.short
  rw [hlines] at hshort
  have hcontent := hshort _ List.mem_cons_self
  have h0 := hfile.noNul
  rw [List.mem_append, List.mem_append, not_or, not_or] at h0
  refine ⟨_, rest, hlines, ?_, h0.2.2, fun l hl => hshort l (List.mem_cons_of_mem _ hl)⟩
  exact searchReadLine_line h0.1 hc he (by rw [List.length_nil, Nat.zero_add]; exact hcontent) hne'

theorem length_searchedTexts (whole : Bytes) : (searchedTexts whole).length = min intMax (lines whole).length := by
  rw [searchedTexts, List.length_take, List.length_map]

/-- The loop reads the line with the number `k + 1`, or there is none. -/
theorem read_next {whole : Bytes} (hfile : TextFile file) (hrest : lines file = (lines whole).drop k)
    (hk : k ≤ (searchedTexts whole).length) :
    (agentSearchReadLine file = .eof ∧ k = (searchedTexts whole).length) ∨
    ∃ text rest, agentSearchReadLine file = .line text rest ∧ TextFile rest ∧ lines rest = (lines whole).drop (k + 1) ∧
      (k = intMax → k = (searchedTexts whole).length) ∧
      (k ≠ intMax → k + 1 ≤ (searchedTexts whole).length ∧ text = lineAt (searchedTexts whole) (k + 1)) := by
  have hlen := length_searchedTexts whole
  by_cases hne : file = []
  · rw [hne, lines_nil] at hrest
    have hle := List.drop_eq_nil_iff.mp hrest.symm
    rw [hne]
    exact .inl ⟨rfl, by omega⟩
  · obtain ⟨l, rest, hl, hread, hrestFile⟩ := agentSearchReadLine_line hfile hne
    rw [hl] at hrest
    have hlt : k < (lines whole).length := by
      by_contra hge
      rw [List.drop_eq_nil_of_le (Nat.le_of_not_lt hge)] at hrest
      exact nomatch hrest
    rw [List.drop_eq_getElem_cons hlt, List.cons.injEq] at hrest
    refine .inr ⟨_, rest, hread, hrestFile, hrest.2, fun hmax => by omega, fun hmax => ⟨by omega, ?_⟩⟩
    rw [lineAt, Nat.add_sub_cancel, searchedTexts, List.getD_eq_getElem?_getD, List.getElem?_take_of_lt (by omega),
      List.getElem?_map, List.getElem?_eq_getElem hlt, hrest.1]
    rfl

theorem searchLoop_end {whole : Bytes} (hr : r = ctx.maxResults - ctx.results) (hc : ctx.context ≤ 5)
    (h : SearchInv (agentSearchLineMatches lib ctx) path (searchedTexts whole) r ctx k shown st)
    (hfile : TextFile file) (hrest : lines file = (lines whole).drop k) (hk : k ≤ (searchedTexts whole).length)
    (htr : (searchLoop lib path st file).ctx.out.truncated = false) :
    ∃ shown', SearchEnd (agentSearchLineMatches lib ctx) path (searchedTexts whole) r ctx shown'
      (searchLoop lib path st file) := by
  fun_induction searchLoop lib path st file generalizing k shown with
  | case1 st file hgo heof =>
    rcases read_next hfile hrest hk with ⟨-, hend⟩ | ⟨text, rest, hread, -⟩
    · exact ⟨shown, h.done htr (.inl hend)⟩
    · rw [heof] at hread
      exact nomatch hread
  | case2 st file hgo hbad =>
    rcases read_next hfile hrest hk with ⟨hread, -⟩ | ⟨text, rest, hread, -⟩
    · rw [hbad] at hread
      exact nomatch hread
    · rw [hbad] at hread
      exact nomatch hread
  | case3 st file hgo text rest hline hmax =>
    rw [h.line] at hmax
    rcases read_next hfile hrest hk with ⟨-, hend⟩ | ⟨text, rest, -, -, -, hend, -⟩
    · have hdone := h.done htr (.inl hend)
      exact ⟨shown, hdone.sorted, hdone.mem, hdone.printed, hdone.results, hdone.out⟩
    · have hdone := h.done htr (.inl (hend hmax))
      exact ⟨shown, hdone.sorted, hdone.mem, hdone.printed, hdone.results, hdone.out⟩
  | case4 st file hgo text rest hline hmax ih =>
    rw [h.line] at hmax
    rcases read_next hfile hrest hk with ⟨hread, -⟩ | ⟨text', rest', hread, hrestFile, hlines, -, hnext⟩
    · rw [hline] at hread
      exact nomatch hread
    · rw [hline] at hread
      cases hread
      obtain ⟨hk', htext⟩ := hnext hmax
      obtain ⟨shown', hstep⟩ := h.step hr hc
      rw [← htext] at hstep
      exact ih hstep hrestFile hlines hk' htr
  | case5 st file hstop =>
    refine ⟨shown, h.done htr (.inr ⟨hk, ?_, ?_⟩)⟩
    · have hlen := @length_firstHits_le (agentSearchLineMatches lib ctx) (searchedTexts whole) r k
      have hfull : ¬st.ctx.results < st.ctx.maxResults := fun hlt => hstop ⟨.inl hlt, htr⟩
      rw [h.frame] at hfull
      dsimp only at hfull
      omega
    · exact Nat.eq_zero_of_not_pos fun hpos => hstop ⟨.inr hpos, htr⟩

end

/-! ## Literal queries -/

/-- A literal query stands somewhere in a line. -/
def Contains (caseSensitive : Bool) (q s : Bytes) : Prop :=
  q.map (foldCase caseSensitive) <:+: s.map (foldCase caseSensitive)

theorem agentLiteralMatch_iff {s q : Bytes} (cs : Bool) (hq : q ≠ []) :
    agentLiteralMatch s q cs = true ↔ Contains cs q s := by
  have hpos := List.length_pos_of_ne_nil hq
  rw [agentLiteralMatch, if_neg hq, Contains, List.infix_iff_getElem?]
  split
  · next hlong =>
    refine iff_of_false Bool.false_ne_true fun h => ?_
    obtain ⟨k, hk, -⟩ := h
    rw [List.length_map, List.length_map] at hk
    omega
  · next hlong =>
    rw [List.any_eq_true]
    constructor
    · intro h
      obtain ⟨i, hi, hall⟩ := h
      have hi := List.mem_range.mp hi
      refine ⟨i, by rw [List.length_map, List.length_map]; omega, fun j hj => ?_⟩
      rw [List.length_map] at hj
      have heq := List.all_eq_true.mp hall j (List.mem_range.mpr hj)
      rw [beq_iff_eq, List.getD_eq_getElem _ _ (by omega), List.getD_eq_getElem _ _ hj] at heq
      rw [List.getElem?_map, Nat.add_comm j i, List.getElem?_eq_getElem (by omega), Option.map_some, heq, List.getElem_map]
    · intro h
      obtain ⟨i, hi, hall⟩ := h
      rw [List.length_map, List.length_map] at hi
      refine ⟨i, List.mem_range.mpr (by omega), List.all_eq_true.mpr fun j hj => ?_⟩
      have hj := List.mem_range.mp hj
      have heq := hall j (by rw [List.length_map]; exact hj)
      rw [List.getElem?_map, Nat.add_comm j i, List.getElem?_eq_getElem (by omega), Option.map_some, List.getElem_map,
        Option.some.injEq] at heq
      rw [beq_iff_eq, List.getD_eq_getElem _ _ (by omega), List.getD_eq_getElem _ _ hj, heq]

instance (cs : Bool) (q s : Bytes) : Decidable (Contains cs q s) := inferInstanceAs (Decidable (_ <:+: _))

/-- The numbers of the lines that a search counts: the first ones that contain the query. -/
def queryHits (ctx : AgentSearchCtx) (texts : List Bytes) : List Nat :=
  firstHits (fun s => Contains ctx.caseSensitive ctx.query s) texts (ctx.maxResults - ctx.results) texts.length

/-- What a literal search adds for one file: the lines near one of the counted ones, each once and in order. -/
structure Searched (ctx : AgentSearchCtx) (path : Bytes) (texts : List Bytes) (ctx' : AgentSearchCtx) : Prop where
  results : ctx'.results = ctx.results + (queryHits ctx texts).length
  out : ∃ shown : List Nat, shown.Pairwise (· < ·) ∧
    (∀ j, j ∈ shown ↔ 1 ≤ j ∧ j ≤ texts.length ∧ Near ctx.context (queryHits ctx texts) j) ∧
    ctx'.out.bytes = ctx.out.bytes ++
      if queryHits ctx texts = [] then []
      else path ++ lit "\n" ++ shown.flatMap (fun j => numberedLine (lineAt texts j) j) ++ lit "\n"

theorem searchInv_start (p : Bytes → Bool) (path : Bytes) (texts : List Bytes) (r : Nat) (ctx : AgentSearchCtx) :
    SearchInv p path texts r ctx 0 [] ⟨ctx, fun _ => [], false, 0, 0, 0⟩ where
  line := rfl
  frame := by rw [firstHits_zero]; rfl
  sorted := List.Pairwise.nil
  mem j := iff_of_false List.not_mem_nil fun h => by omega
  printed := iff_of_false Bool.false_ne_true fun h => h firstHits_zero
  out htr := ⟨htr, by rw [if_pos firstHits_zero, List.append_nil]⟩
  none _ := ⟨rfl, rfl⟩
  last m hm := absurd (firstHits_zero ▸ hm) List.not_mem_nil
  ring j h1 h0 := by omega

theorem queryHits_eq (lib : SearchLib) {ctx : AgentSearchCtx} (hquery : ctx.query ≠ []) (hliteral : ctx.useRegex = false)
    (texts : List Bytes) : queryHits ctx texts =
      firstHits (agentSearchLineMatches lib ctx) texts (ctx.maxResults - ctx.results) texts.length := by
  have hp : (fun s => decide (Contains ctx.caseSensitive ctx.query s)) = agentSearchLineMatches lib ctx := by
    funext s
    rw [agentSearchLineMatches, hliteral, if_neg Bool.false_ne_true]
    exact Bool.eq_iff_iff.mpr (decide_eq_true_iff.trans (agentLiteralMatch_iff ctx.caseSensitive hquery).symm)
  rw [queryHits, hp]

/-- The end of the loop and the empty line behind what was shown. -/
theorem SearchEnd.searched {lib : SearchLib} {ctx : AgentSearchCtx} {path : Bytes} {texts : List Bytes} {shown : List Nat}
    {st : SearchState} (h : SearchEnd (agentSearchLineMatches lib ctx) path texts (ctx.maxResults - ctx.results) ctx shown st)
    (hquery : ctx.query ≠ []) (hliteral : ctx.useRegex = false)
    (hout : (if st.printedFile then st.ctx.puts (lit "\n") else st.ctx).out.truncated = false) :
    Searched ctx path texts (if st.printedFile then st.ctx.puts (lit "\n") else st.ctx) := by
  have hhits := queryHits_eq lib hquery hliteral texts
  have hprinted := h.printed
  have hmem := h.mem
  have hresults := h.results
  have hbytes := h.out
  rw [← hhits] at hprinted hmem hresults hbytes
  split at hout
  · next hp =>
    rw [if_pos hp]
    have hne := hprinted.mp hp
    rw [if_neg hne] at hbytes
    refine ⟨hresults, shown, h.sorted, hmem, ?_⟩
    rw [if_neg hne]
    show (agentBufAppend st.ctx.out (lit "\n")).bytes = _
    rw [bytes_agentBufAppend hout, hbytes, List.append_assoc ctx.out.bytes]
  · next hp =>
    rw [if_neg hp]
    have hnil : queryHits ctx texts = [] := by
      by_contra hne
      exact hp (hprinted.mpr hne)
    refine ⟨hresults, shown, h.sorted, hmem, ?_⟩
    rw [hbytes, if_pos hnil, if_pos hnil]

def noRegex : SearchLib := ⟨fun _ _ => false, fun _ _ => false⟩

/-- A search for `q`, as the tool starts it. -/
def searchQ (context : Nat) : AgentSearchCtx :=
  ⟨lit "q", [], false, true, context, 50, 0, 0, [], ⟨[], agentToolMaxBytes, false⟩⟩

theorem lines_replicate (n : Nat) (s : Bytes) :
    lines (List.replicate n 10 ++ s) = List.replicate n ⟨[], [10]⟩ ++ lines s := by
  induction n with
  | zero => rfl
  | succ n ih =>
    have hline := @lines_append_line [] _ _ (List.cons_ne_nil 10 []) (fun _ h => absurd h List.not_mem_nil)
      (.lf (List.replicate n 10 ++ s))
    rw [ih] at hline
    exact hline

/-- Empty lines pass by without a match. -/
theorem searchLoop_replicate (lib : SearchLib) (path : Bytes) (n : Nat) (st : SearchState) (s : Bytes)
    (hgo : st.ctx.results < st.ctx.maxResults) (htr : st.ctx.out.truncated = false)
    (hmatch : agentSearchLineMatches lib st.ctx [] = false) (hafter : st.after = 0) (hn : st.line + n ≤ intMax) :
    ∃ ring, searchLoop lib path st (List.replicate n 10 ++ s) =
      searchLoop lib path { st with line := st.line + n, ring := ring } s := by
  induction n generalizing st with
  | zero => exact ⟨st.ring, rfl⟩
  | succ n ih =>
    have hline : searchLine lib path st [] = st.push [] := by
      rw [searchLine, if_neg, if_neg]
      · exact Nat.not_lt.mpr hafter.le
      · exact fun h => Bool.false_ne_true (hmatch.symm.trans h.2)
    obtain ⟨ring, hring⟩ := ih (st.push []) hgo htr hmatch hafter (by rw [SearchState.push]; dsimp only; omega)
    refine ⟨ring, ?_⟩
    rw [List.replicate_succ, List.cons_append, searchLoop, if_pos ⟨.inl hgo, htr⟩]
    have hread : agentSearchReadLine (10 :: (List.replicate n 10 ++ s)) = .line [] (List.replicate n 10 ++ s) := rfl
    split
    · next heof => exact nomatch hread.symm.trans heof
    · next hbad => exact nomatch hread.symm.trans hbad
    · next text rest hread' =>
      cases hread.symm.trans hread'
      rw [if_neg (by omega), hline, hring]
      congr 2
      rw [SearchState.push]
      dsimp only
      omega

theorem lines_q : lines (lit "q") = [⟨lit "q", []⟩] := by
  have hbreak : ∀ c ∈ lit "q", isBreak c = false := fun c hc => List.mem_singleton.mp hc ▸ rfl
  have hline := @lines_append_line (lit "q") [] _ (by decide) hbreak .eof
  rw [lines_nil] at hline
  exact hline

end Ds4.Agent
