import Ds4.Engine.Speculate

/-!
# Speculative decoding is greedy decoding

As long as no failure is ignored, the tokens that speculative decoding accepts are those of plain
greedy decoding, and the session and its graph are as after decoding them one by one.
-/

namespace Ds4.Engine
open Faulty

variable {κ L τ : Type}

/-! ## Greedy continuations -/

/-- The tokens are the greedy continuation of `p`, and nothing follows an end of sequence. -/
def Greedy (m : Model κ L τ) (eos : τ) : List τ → List τ → Prop
  | _, [] => True
  | p, t :: ts => t = m.next p ∧ (t = eos → ts = []) ∧ Greedy m eos (p ++ [t]) ts

/-- Only the last token may be the end of sequence. -/
def EosLast (eos : τ) : List τ → Prop
  | [] => True
  | t :: ts => (t = eos → ts = []) ∧ EosLast eos ts

theorem EosLast.take (h : EosLast eos ts) (n : Nat) : EosLast eos (ts.take n) := by
  induction ts generalizing n with
  | nil =>
    rw [List.take_nil]
    exact h
  | cons t ts ih =>
    cases n with
    | zero => trivial
    | succ n =>
      refine ⟨fun ht => ?_, ih h.2 n⟩
      rw [h.1 ht, List.take_nil]

theorem EosLast.append (h : EosLast eos ts) (hne : eos ∉ ts) (t : τ) : EosLast eos (ts ++ [t]) := by
  induction ts with
  | nil => exact ⟨fun _ => rfl, trivial⟩
  | cons x ts ih =>
    rw [List.mem_cons, not_or] at hne
    exact ⟨fun hx => absurd hx.symm hne.1, ih h.2 hne.2⟩

/-- The session and the graph are as after plain decoding of the checkpoint. -/
structure Synced (m : Model κ L τ) (s : Session L τ) (g : Graph κ L) : Prop where
  live : g.live = m.state s.checkpoint
  logits : s.logits = m.out s.checkpoint

/-- The accepted tokens go on with a greedy continuation of `p`, and the session follows. -/
def Accepts (m : Model κ L τ) (eos : τ) (cap : Nat) (p accepted : List τ) (s : Session L τ)
    (acc : List τ) (g : Graph κ L) : Prop :=
  ∃ ts, acc = accepted ++ ts ∧ s.checkpoint = p ++ ts ∧ Greedy m eos p ts ∧ acc.length ≤ cap ∧
    Synced m s g

/-- The tokens that the model would choose behind the rows of the drafts. -/
def rowTops (m : Model κ L τ) (p drafts : List τ) : List τ :=
  (List.range (drafts.length - 1)).map fun i => m.next (p ++ drafts.take (i + 1))

theorem rowTops_cons (m : Model κ L τ) (p : List τ) (d e : τ) (ds : List τ) :
    rowTops m p (d :: e :: ds) = m.next (p ++ [d]) :: rowTops m (p ++ [d]) (e :: ds) := by
  rw [rowTops, rowTops]
  simp only [List.length_cons, Nat.add_sub_cancel, List.range_succ_eq_map, List.map_cons, List.map_map]
  congr 1
  apply List.map_congr_left
  intro i _
  simp only [Function.comp_apply, List.take_succ_cons, List.append_assoc, List.cons_append,
    List.nil_append]

theorem row_eq (m : Model κ L τ) (p ds : List τ) (i : Nat) :
    m.row (m.state p) p.length ds i = m.state (p ++ ds.take (i + 1)) := by
  rw [Model.row, Model.state_append]

section Accept

variable [DecidableEq τ]

theorem acceptLoop_eq {eos : τ} {ts accepted : List τ} (h : EosLast eos ts) (hcap : (accepted ++ ts).length ≤ cap) :
    acceptLoop cap eos accepted ts = accepted ++ ts := by
  induction ts generalizing accepted with
  | nil => rw [acceptLoop, List.append_nil]
  | cons t ts ih =>
    rw [List.length_append, List.length_cons] at hcap
    rw [acceptLoop, if_pos (by omega)]
    split
    · next ht => rw [h.1 ht]
    · rw [ih h.2 (by simp only [List.length_append, List.length_cons, List.length_nil]; omega)]
      rw [List.append_assoc]
      rfl

theorem commitDrafts_cons (d e : τ) (ds : List τ) (t : τ) (ts : List τ) :
    commitDrafts (d :: e :: ds) (t :: ts) = if t = e then 1 + commitDrafts (e :: ds) ts else 1 := by
  rw [commitDrafts, commitDrafts, List.tail_cons, List.zip_cons_cons, List.takeWhile_cons]
  by_cases h : t = e
  · rw [if_pos h, if_pos (by simpa using h), List.length_cons, List.tail_cons]
    omega
  · rw [if_neg h, if_neg (by simpa using h)]
    rfl

/-- The confirmed drafts are a greedy continuation. -/
theorem greedy_commit (m : Model κ L τ) (p : List τ) (d : τ) (ds : List τ) (hd : d = m.next p)
    (he : EosLast eos (d :: ds)) :
    Greedy m eos p ((d :: ds).take (commitDrafts (d :: ds) (rowTops m p (d :: ds)))) ∧
      commitDrafts (d :: ds) (rowTops m p (d :: ds)) ≤ (d :: ds).length := by
  induction ds generalizing p d with
  | nil => exact ⟨⟨hd, fun _ => rfl, trivial⟩, Nat.le_refl 1⟩
  | cons e ds ih =>
    rw [rowTops_cons, commitDrafts_cons]
    by_cases h : m.next (p ++ [d]) = e
    · obtain ⟨hg, hle⟩ := ih (p ++ [d]) e h.symm he.2
      rw [if_pos h, Nat.add_comm, List.take_succ_cons]
      refine ⟨⟨hd, fun hx => ?_, hg⟩, ?_⟩
      · cases he.1 hx
      · rw [List.length_cons]
        exact Nat.succ_le_succ hle
    · rw [if_neg h]
      exact ⟨⟨hd, fun _ => rfl, trivial⟩, by simp⟩

/-! ## Phases -/

/-- How a phase ends: what it returns is right, and when it falls through `R` holds. -/
def Ends (m : Model κ L τ) (eos : τ) (cap : Nat) (p accepted : List τ)
    (R : Session L τ → Graph κ L → Prop) (x : Session L τ × Verdict τ) (g : Graph κ L) : Prop :=
  match x.2 with
  | .returns acc => Accepts m eos cap p accepted x.1 acc g
  | .fails => True
  | .falls => R x.1 g

/-- Failures that are not ignored. -/
def Minded (c : Care) : Prop := c = .minded

/-- The session is as it was before the drafts were verified. -/
structure Back (m : Model κ L τ) (p : List τ) (s : Session L τ) (g : Graph κ L) : Prop where
  checkpoint : s.checkpoint = p
  synced : Synced m s g

variable {m : Model κ L τ} {eos : τ} {cap : Nat} {p accepted : List τ} {s : Session L τ} {g : Graph κ L}
  {R R' : Session L τ → Graph κ L → Prop}

omit [DecidableEq τ] in
theorem safe_orElse {a : GraphProg κ L (Session L τ × Verdict τ)}
    {b : Session L τ → GraphProg κ L (Session L τ × Verdict τ)}
    (ha : a.Safe Minded (Ends m eos cap p accepted R) g)
    (hb : ∀ s g, R s g → (b s).Safe Minded (Ends m eos cap p accepted R') g) :
    (orElse a b).Safe Minded (Ends m eos cap p accepted R') g := by
  apply ha.bind
  rintro ⟨s, v⟩ g h
  cases v with
  | falls => exact hb s g h
  | fails => exact h
  | returns acc => exact h

omit [DecidableEq τ] in
theorem accepts_one {s : Session L τ} (hs : s.checkpoint = p ++ [d]) (hd : d = m.next p)
    (hcap : accepted.length < cap) (hlive : g.live = m.state (p ++ [d]))
    (hlogits : s.logits = m.out (p ++ [d])) : Accepts m eos cap p accepted s (accepted ++ [d]) g := by
  refine ⟨[d], rfl, hs, ⟨hd, fun _ => rfl, trivial⟩, ?_, ?_, ?_⟩
  · rw [List.length_append]
    exact hcap
  · rw [hs, hlive]
  · rw [hs, hlogits]

/-- A confirmed part of the drafts. -/
theorem accepts_many {s : Session L τ} (hs : s.checkpoint = p ++ ts) (hts : Greedy m eos p ts)
    (he : EosLast eos ts) (hcap : (accepted ++ ts).length ≤ cap) (hlive : g.live = m.state (p ++ ts))
    (hlogits : s.logits = m.out (p ++ ts)) :
    Accepts m eos cap p accepted s (acceptLoop cap eos accepted ts) g := by
  rw [acceptLoop_eq he hcap]
  refine ⟨ts, rfl, hs, hts, hcap, ?_, ?_⟩
  · rw [hs, hlive]
  · rw [hs, hlogits]

omit [DecidableEq τ] in
theorem safe_marginSkip (h : Back m p s g) (hd : d = m.next p) (hcap : accepted.length < cap) :
    (marginSkip m s accepted d).Safe Minded (Ends m eos cap p accepted R) g := by
  have hstep : m.step g.live d s.checkpoint.length = m.state (p ++ [d]) := by
    rw [h.synced.live, h.checkpoint, Model.state_concat]
  apply Prog.Safe.ask
  · apply accepts_one
    · rw [h.checkpoint]
    · exact hd
    · exact hcap
    · exact hstep
    · exact congrArg m.logits hstep
  · exact fun _ _ => trivial

/-- Ignored failures do not happen. -/
theorem safe_restore_ignored {k : Option Unit → GraphProg κ L α} {Q : α → Graph κ L → Prop}
    (h : (k (some ())).Safe Minded Q { g with live := g.frontier }) :
    (specFrontierRestore .ignored >>= k).Safe Minded Q g := ⟨h, nofun⟩

theorem safe_decode2Exact (h : Back m p s g) (hd : d = m.next p) (he : EosLast eos [d, d1])
    (hcap : accepted.length + 1 < cap) :
    (decode2Exact m s cap accepted d d1).Safe Minded (Ends m eos cap p accepted (Back m p)) g := by
  obtain ⟨rfl, hlive, hlogits⟩ := h
  have hk0 : m.step g.live d s.checkpoint.length = m.state (s.checkpoint ++ [d]) := by
    rw [hlive, Model.state_concat]
  have hk1 : m.step (m.step g.live d s.checkpoint.length) d1 (s.checkpoint.length + 1) =
      m.state (s.checkpoint ++ [d, d1]) := by
    rw [hlive]
    exact (m.state_append s.checkpoint [d, d1]).symm
  apply Prog.Safe.ask
  · apply Prog.Safe.ask
    · simp only
      split
      · next htop =>
        rw [hk0] at htop
        rw [if_pos (by rw [List.length_append]; exact hcap)]
        refine ⟨[d, d1], rfl, rfl, ⟨hd, he.1, htop.symm, fun _ => rfl, trivial⟩, ?_, hk1,
          congrArg m.logits hk1⟩
        rw [List.length_append]
        exact hcap
      · apply Prog.Safe.ask
        · apply accepts_one
          · rfl
          · exact hd
          · omega
          · exact hk0
          · exact congrArg m.logits hk0
        · intro _ x
          apply safe_restore_ignored
          exact ⟨rfl, hlive, hlogits⟩
    · intro _ x
      apply safe_restore_ignored
      exact ⟨rfl, hlive, hlogits⟩
  · intro _ x
    exact ⟨rfl, hlive, hlogits⟩

/-! ## The batched verifier -/

/-- What the phases behind a verified suffix keep. -/
structure Held (m : Model κ L τ) (c : Micro) (p drafts : List τ) (s : Session L τ) (g : Graph κ L) :
    Prop where
  base : s.checkpoint.take p.length = p
  logits : s.logits = m.out p
  frontier : c.frontier = true → g.frontier = m.state p
  rows : ∀ i, g.rows i = m.out (p ++ drafts.take (i + 1))
  prefix1 : c.capture = true → g.prefixes 0 = m.state (p ++ drafts.take 1)

/-- The frontier can be restored. -/
structure Anchored (m : Model κ L τ) (frontier : Bool) (p : List τ) (s : Session L τ) (g : Graph κ L) :
    Prop where
  base : s.checkpoint.take p.length = p
  logits : s.logits = m.out p
  frontier : frontier = true → g.frontier = m.state p

omit [DecidableEq τ] in
theorem Held.anchored {c : Micro} (h : Held m c p drafts s g) : Anchored m c.frontier p s g :=
  ⟨h.base, h.logits, h.frontier⟩

omit [DecidableEq τ] in
theorem safe_abandon (h : Anchored m f p s g) :
    (abandon s p.length f).Safe Minded (Ends m eos cap p accepted (Back m p)) g := by
  cases f with
  | true =>
    apply safe_restore_ignored
    refine ⟨h.base, ?_, ?_⟩
    · simp only [h.base, h.frontier rfl]
    · simp only [h.base, h.logits]
  | false => trivial

omit [DecidableEq τ] in
theorem safe_commitPrefix1 {c : Micro} (h : Held m c p (d :: ds) s g) (hc : c.capture = true)
    (hd : d = m.next p) (hcap : accepted.length < cap) :
    (commitPrefix1 s p.length accepted d).Safe Minded
      (Ends m eos cap p accepted (Anchored m c.frontier p)) g := by
  have hbase : (s.checkpoint.take p.length).take p.length = p := by rw [h.base, List.take_length]
  apply Prog.Safe.ask
  · apply Prog.Safe.ask
    · apply accepts_one
      · rw [h.base]
      · exact hd
      · exact hcap
      · exact h.prefix1 hc
      · exact h.rows 0
    · intro _ x
      exact ⟨hbase, h.logits, h.frontier⟩
  · intro _ x
    exact ⟨hbase, h.logits, h.frontier⟩

theorem safe_commitAll {c : Micro} (h : Held m c p (d :: ds) s g) (hs : s.checkpoint = p ++ d :: ds)
    (hlive : g.live = m.state (p ++ d :: ds)) (hts : Greedy m eos p (d :: ds))
    (he : EosLast eos (d :: ds)) (hcap : (accepted ++ d :: ds).length ≤ cap) :
    (commitAll s (d :: ds) (acceptLoop cap eos accepted)).Safe Minded
      (Ends m eos cap p accepted (Held m c p (d :: ds))) g := by
  apply Prog.Safe.ask
  · apply accepts_many
    · exact hs
    · exact hts
    · exact he
    · exact hcap
    · exact hlive
    · have := h.rows ((d :: ds).length - 1)
      rw [List.take_of_length_le (by simp)] at this
      exact this
  · exact fun _ _ => h

omit [DecidableEq τ] in
/-- The confirmed drafts are decoded again, as long as that does not fail. -/
theorem safe_replayLoop (hlive : g.live = m.state s.checkpoint) (care : Care) (l : Option L) :
    (replayLoop m care ds s l).Safe Minded
      (fun x g' => g'.frontier = g.frontier ∧ g'.rows = g.rows ∧ g'.prefixes = g.prefixes ∧
        x.1.logits = s.logits ∧
        match x.2 with
        | some l' => x.1.checkpoint = s.checkpoint ++ ds ∧ g'.live = m.state (s.checkpoint ++ ds) ∧
            (ds ≠ [] → l' = some (m.out (s.checkpoint ++ ds))) ∧ (ds = [] → l' = l)
        | none => care = .minded ∧ ∃ ts, x.1.checkpoint = s.checkpoint ++ ts) g := by
  induction ds generalizing s g l with
  | nil =>
    refine ⟨rfl, rfl, rfl, rfl, ?_⟩
    simp only [List.append_nil]
    exact ⟨trivial, hlive, fun h => absurd rfl h, fun _ => trivial⟩
  | cons d ds ih =>
    have hstep : m.step g.live d s.checkpoint.length = m.state (s.checkpoint ++ [d]) := by
      rw [hlive, Model.state_concat]
    apply Prog.Safe.ask
    · refine (ih (s := { s with checkpoint := s.checkpoint ++ [d] }) hstep
        (some (m.logits (m.step g.live d s.checkpoint.length)))).mono ?_
      rintro ⟨s', r⟩ g' ⟨h1, h2, h3, h4, h5⟩
      refine ⟨h1, h2, h3, h4, ?_⟩
      cases r with
      | none =>
        obtain ⟨hc, ts, hts⟩ := h5
        exact ⟨hc, d :: ts, by rw [hts, List.append_assoc]; rfl⟩
      | some l' =>
        simp only [List.append_assoc, List.cons_append, List.nil_append] at h5
        obtain ⟨hs, hl, hne, hnil⟩ := h5
        refine ⟨hs, hl, fun _ => ?_, nofun⟩
        cases ds with
        | nil =>
          rw [hnil rfl, hstep]
          rfl
        | cons e ds => exact hne nofun
    · intro hc x
      exact ⟨rfl, rfl, rfl, rfl, hc, [], by rw [List.append_nil]⟩

/-- The part of the drafts that the rows confirm. -/
structure Confirmed (m : Model κ L τ) (eos : τ) (cap : Nat) (p accepted drafts : List τ) (commit : Nat) :
    Prop where
  greedy : Greedy m eos p (drafts.take commit)
  eosLast : EosLast eos drafts
  cap : (accepted ++ drafts).length ≤ cap
  pos : 0 < commit
  le : commit ≤ drafts.length

omit [DecidableEq τ] in
theorem Confirmed.length_le {commit : Nat} (h : Confirmed m eos cap p accepted drafts commit) :
    (accepted ++ drafts.take commit).length ≤ cap := by
  have := h.cap
  rw [List.length_append] at this
  rw [List.length_append, List.length_take]
  omega

theorem care_minded {commit n : Nat}
    (h : Minded (if commit = n then Care.ignored else Care.minded)) : commit ≠ n := by
  rintro rfl
  rw [if_pos rfl] at h
  cases h

theorem safe_exactReplay {c : Micro} (h : Held m c p drafts s g) (hf : c.frontier = true)
    (hc : Confirmed m eos cap p accepted drafts commit) :
    (exactReplay m s p.length drafts commit (acceptLoop cap eos accepted)).Safe Minded
      (Ends m eos cap p accepted fun s g => commit ≠ drafts.length ∧ Held m c p drafts s g) g := by
  have hbase : (s.checkpoint.take p.length).take p.length = p := by rw [h.base, List.take_length]
  have hne : drafts.take commit ≠ [] := by
    have h1 := hc.pos
    have h2 := hc.le
    intro hnil
    have := congrArg List.length hnil
    rw [List.length_take, List.length_nil] at this
    omega
  apply Prog.Safe.ask
  · apply (safe_replayLoop (s := { s with checkpoint := s.checkpoint.take p.length }) (by
      simp only [h.base, h.frontier hf]) _ none).bind
    rintro ⟨s', r⟩ g' ⟨h1, h2, h3, h4, h5⟩
    simp only [h.base] at h5
    cases r with
    | some l =>
      obtain ⟨hs, hlive, hl, -⟩ := h5
      rw [hl hne]
      apply accepts_many
      · exact hs
      · exact hc.greedy
      · exact hc.eosLast.take commit
      · exact hc.length_le
      · exact hlive
      · rfl
    | none =>
      obtain ⟨hm, ts, hs⟩ := h5
      refine ⟨care_minded hm, ?_, h4.trans h.logits, fun hx => h1.trans (h.frontier hx), ?_, ?_⟩
      · rw [hs, List.take_left]
      · intro i
        rw [h2]
        exact h.rows i
      · intro hx
        rw [h3]
        exact h.prefix1 hx
  · intro hm x
    exact ⟨care_minded hm, hbase, h.logits, h.frontier, h.rows, h.prefix1⟩

theorem safe_rollBack {c : Micro} (h : Held m c p (d :: ds) s g) (hf : c.frontier = true)
    (hd : d = m.next p) (hc : Confirmed m eos cap p accepted (d :: ds) commit) :
    (rollBack m s p.length accepted d ds commit (acceptLoop cap eos accepted)).Safe Minded
      (Ends m eos cap p accepted (Anchored m c.frontier p)) g := by
  have hbase : (s.checkpoint.take p.length).take p.length = p := by rw [h.base, List.take_length]
  have hlive := h.frontier hf
  apply Prog.Safe.ask
  · simp only
    split
    · have hstep : m.step g.frontier d p.length = m.state (p ++ [d]) := by
        rw [hlive, Model.state_concat]
      apply Prog.Safe.ask
      · apply accepts_one
        · rw [h.base]
        · exact hd
        · have := hc.cap
          rw [List.length_append, List.length_cons] at this
          omega
        · exact hstep
        · exact congrArg m.logits hstep
      · intro _ x
        exact ⟨hbase, h.logits, h.frontier⟩
    · have htake : (s.checkpoint.take p.length ++ (d :: ds).take commit).take p.length = p := by
        rw [h.base, List.take_left]
      have hsteps : m.steps g.frontier p.length ((d :: ds).take commit) =
          m.state (p ++ (d :: ds).take commit) := by
        rw [hlive, Model.state_append]
      apply Prog.Safe.ask
      · apply Prog.Safe.ask
        · apply accepts_many
          · rw [h.base]
          · exact hc.greedy
          · exact hc.eosLast.take commit
          · exact hc.length_le
          · exact hsteps
          · have hpos := hc.pos
            have hall : ((d :: ds).take commit).take (commit - 1 + 1) = (d :: ds).take commit := by
              rw [List.take_take, Nat.sub_add_cancel hpos, Nat.min_self]
            simp only [Model.row, hall, hsteps, Model.out]
        · intro _ x
          exact ⟨htake, h.logits, h.frontier⟩
      · intro _ x
        exact ⟨htake, h.logits, h.frontier⟩
  · intro _ x
    exact ⟨hbase, h.logits, h.frontier⟩

theorem safe_commitVerified {c : Micro} (h : Held m c p (d :: ds) s g)
    (hs : s.checkpoint = p ++ d :: ds) (hlive : g.live = m.state (p ++ d :: ds)) (hd : d = m.next p)
    (hc : Confirmed m eos cap p accepted (d :: ds) commit) :
    (commitVerified m c s p.length accepted d ds commit (acceptLoop cap eos accepted)).Safe Minded
      (Ends m eos cap p accepted (Anchored m c.frontier p)) g := by
  have hcap : accepted.length < cap := by
    have := hc.cap
    rw [List.length_append, List.length_cons] at this
    omega
  -- when all drafts are confirmed, they are in the checkpoint and in the caches
  have hreplay : Prog.Safe Minded
      (if c.replay && c.frontier then
        exactReplay m s p.length (d :: ds) commit (acceptLoop cap eos accepted)
      else pure (s, .falls))
      (Ends m eos cap p accepted fun s g => Held m c p (d :: ds) s g ∧ (commit = (d :: ds).length →
        s.checkpoint = p ++ d :: ds ∧ g.live = m.state (p ++ d :: ds))) g := by
    split
    · next hr =>
      refine (safe_exactReplay h (Bool.and_eq_true_iff.1 hr).2 hc).mono ?_
      rintro ⟨s, v⟩ g hx
      cases v with
      | falls => exact ⟨hx.2, fun hn => absurd hn hx.1⟩
      | fails => exact hx
      | returns acc => exact hx
    · exact ⟨h, fun _ => ⟨hs, hlive⟩⟩
  apply safe_orElse hreplay
  rintro s g ⟨h, hall⟩
  have hfull : Prog.Safe Minded
      (if commit = (d :: ds).length then commitAll s (d :: ds) (acceptLoop cap eos accepted)
      else pure (s, .falls))
      (Ends m eos cap p accepted (Held m c p (d :: ds))) g := by
    split
    · next hn =>
      have hgreedy := hc.greedy
      rw [hn, List.take_length] at hgreedy
      exact safe_commitAll h (hall hn).1 (hall hn).2 hgreedy hc.eosLast hc.cap
    · exact h
  apply safe_orElse hfull
  intro s g h
  split
  · next hx => exact safe_commitPrefix1 h hx.2.2 hd hcap
  · split
    · next hf => exact safe_rollBack h hf hd hc
    · refine ⟨?_, h.logits, h.frontier⟩
      rw [h.base, List.take_length]

theorem confirmed_commit (hd : d = m.next p) (he : EosLast eos (d :: ds))
    (hcap : (accepted ++ d :: ds).length ≤ cap) :
    Confirmed m eos cap p accepted (d :: ds) (commitDrafts (d :: ds) (rowTops m p (d :: ds))) := by
  obtain ⟨hg, hle⟩ := greedy_commit m p d ds hd he
  exact ⟨hg, he, hcap, by rw [commitDrafts]; omega, hle⟩

/-- The verifier and what follows it, from a state whose frontier is that of the checkpoint. -/
theorem safe_verified {c : Micro} (h : Back m p s g) (hf : c.frontier = true → g.frontier = m.state p)
    (hcapture : c.capture = true → 0 < ds.length) (hd : d = m.next p) (he : EosLast eos (d :: ds))
    (hcap : (accepted ++ d :: ds).length ≤ cap) :
    Prog.Safe Minded
      (do
        match ← metalGraphVerifySuffixTops m (d :: ds) p.length c.capture with
        | none => abandon { s with checkpoint := s.checkpoint ++ d :: ds } p.length c.frontier
        | some tops =>
          orElse
            (commitVerified m c { s with checkpoint := s.checkpoint ++ d :: ds } p.length accepted d ds
              (commitDrafts (d :: ds) tops) (acceptLoop cap eos accepted))
            fun s => abandon s p.length c.frontier)
      (Ends m eos cap p accepted (Back m p)) g := by
  obtain ⟨rfl, hlive, hlogits⟩ := h
  have htake : (s.checkpoint ++ d :: ds).take s.checkpoint.length = s.checkpoint := List.take_left
  apply Prog.Safe.ask
  · have htops : (List.range ((d :: ds).length - 1)).map (fun i =>
        m.argmax (m.logits (m.row g.live s.checkpoint.length (d :: ds) i))) =
        rowTops m s.checkpoint (d :: ds) := by
      rw [rowTops]
      apply List.map_congr_left
      intro i _
      rw [hlive, row_eq]
      rfl
    simp only [htops]
    apply safe_orElse
    · apply safe_commitVerified
      · refine ⟨htake, hlogits, hf, ?_, ?_⟩
        · intro i
          simp only [hlive, row_eq]
          rfl
        · intro hc
          have hlen := hcapture hc
          rw [hc]
          simp only [Bool.true_and, List.length_cons, decide_eq_true_eq]
          rw [if_pos (by omega), hlive, row_eq]
      · rfl
      · rw [Model.state_append, ← hlive]
      · exact hd
      · exact confirmed_commit hd he hcap
    · intro s' g' h
      exact safe_abandon h
  · intro _ x
    exact safe_abandon ⟨htake, hlogits, hf⟩

theorem safe_microVerify (o : MtpOptions) (h : Back m p s g) (hd : d = m.next p)
    (he : EosLast eos (d :: ds)) (hcap : (accepted ++ d :: ds).length ≤ cap) :
    (microVerify m o s cap eos accepted d ds).Safe Minded (Ends m eos cap p accepted (Back m p)) g := by
  have hlen : p.length = s.checkpoint.length := by rw [h.checkpoint]
  rw [microVerify]
  simp only
  generalize hreq : (decide (2 < ds.length + 1) || (decide (ds.length + 1 = 2) &&
    (!(decide (ds.length + 1 = 2) && (!o.strict || o.capturePrefix1)) || o.exactReplay)) ||
    o.forceSnapshot) = required
  have hcapture : (decide (ds.length + 1 = 2) && (!o.strict || o.capturePrefix1)) = true →
      0 < ds.length := by
    intro hx
    have := of_decide_eq_true (Bool.and_eq_true_iff.1 hx).1
    omega
  generalize (decide (ds.length + 1 = 2) && (!o.strict || o.capturePrefix1)) = capture at hcapture
  cases required with
  | false =>
    rw [← hlen]
    exact safe_verified (c := ⟨capture, false, o.exactReplay⟩) h nofun hcapture hd he hcap
  | true =>
    refine ⟨?_, fun _ x => ?_⟩
    · rw [← hlen]
      exact safe_verified (c := ⟨capture, true, o.exactReplay⟩)
        ⟨h.checkpoint, h.synced.live, h.synced.logits⟩
        (fun _ => h.synced.live.trans (by rw [h.checkpoint])) hcapture hd he hcap
    · exact ⟨h.checkpoint, h.synced.live, h.synced.logits⟩

/-! ## The sequential verifier -/

theorem safe_sequentialLoop (ht : top = m.next s.checkpoint) (hlive : g.live = m.state s.checkpoint)
    (hcap : accepted.length ≤ cap) :
    (sequentialLoop m cap eos ds s accepted top).Safe Minded
      (fun x g' => ∀ acc, x.2 = some acc → ∃ ts, acc = accepted ++ ts ∧
        x.1.checkpoint = s.checkpoint ++ ts ∧ Greedy m eos s.checkpoint ts ∧ acc.length ≤ cap ∧
        g'.live = m.state x.1.checkpoint ∧ x.1.logits = s.logits ∧
        (ts ≠ [] ∨ g.head = m.out s.checkpoint → g'.head = m.out x.1.checkpoint)) g := by
  induction ds generalizing s accepted top g with
  | nil =>
    rintro acc ⟨⟩
    exact ⟨[], (List.append_nil _).symm, (List.append_nil _).symm, trivial, hcap, hlive, rfl,
      fun h => h.resolve_left fun hne => hne rfl⟩
  | cons d ds ih =>
    rw [sequentialLoop]
    split
    · next hx =>
      obtain ⟨hlt, rfl⟩ := hx
      have hstep : m.step g.live top s.checkpoint.length = m.state (s.checkpoint ++ [top]) := by
        rw [hlive, Model.state_concat]
      have hlen : (accepted ++ [top]).length ≤ cap := by
        rw [List.length_append]
        exact hlt
      apply Prog.Safe.ask
      · simp only [hstep]
        split
        · rintro acc ⟨⟩
          exact ⟨[top], rfl, rfl, ⟨ht, fun _ => rfl, trivial⟩, hlen, rfl, rfl, fun _ => rfl⟩
        · next hne =>
          refine (ih rfl rfl hlen).mono ?_
          rintro ⟨s', r⟩ g' h acc hacc
          obtain ⟨ts, h1, h2, h3, h4, h5, h6, h7⟩ := h acc hacc
          refine ⟨top :: ts, ?_, ?_, ⟨ht, fun hx => absurd hx hne, h3⟩, h4, h5, h6, fun _ => ?_⟩
          · rw [h1, List.append_assoc]
            rfl
          · rw [h2, List.append_assoc]
            rfl
          · exact h7 (.inr rfl)
      · intro _ x
        nofun
    · rintro acc ⟨⟩
      exact ⟨[], (List.append_nil _).symm, (List.append_nil _).symm, trivial, hcap, hlive, rfl,
        fun h => h.resolve_left fun hne => hne rfl⟩

theorem safe_sequentialVerify (h : Back m p s g) (hcap : accepted.length ≤ cap) :
    (sequentialVerify m s cap eos accepted ds).Safe Minded (Ends m eos cap p accepted R) g := by
  obtain ⟨rfl, hlive, hlogits⟩ := h
  have htop : m.argmax s.logits = m.next s.checkpoint := by
    rw [hlogits]
    rfl
  apply (safe_sequentialLoop htop hlive hcap).bind
  rintro ⟨s', r⟩ g' h
  cases r with
  | none => trivial
  | some acc =>
    obtain ⟨ts, h1, h2, h3, h4, h5, h6, h7⟩ := h acc rfl
    simp only
    split
    · next hlt =>
      apply Prog.Safe.ask
      · refine ⟨ts, h1, h2, h3, h4, h5, h7 (.inl ?_)⟩
        rintro rfl
        rw [h1, List.append_nil] at hlt
        exact Nat.lt_irrefl _ hlt
      · exact fun _ _ => trivial
    · next hlt =>
      have hnil : ts = [] := by
        rw [h1, List.length_append] at hlt
        exact List.eq_nil_of_length_eq_zero (by omega)
      subst hnil
      rw [List.append_nil] at h2
      refine ⟨[], h1, by rw [List.append_nil, h2], h3, h4, h5, ?_⟩
      rw [h2]
      exact h6.trans hlogits

theorem safe_verifyDrafts (o : MtpOptions) (h : Back m p s g) (hd : d = m.next p)
    (he : EosLast eos (d :: ds)) (hcap : (accepted ++ d :: ds).length ≤ cap) :
    (verifyDrafts m o s cap eos accepted d ds).Safe Minded (Ends m eos cap p accepted R) g := by
  have hlen := hcap
  rw [List.length_append, List.length_cons] at hlen
  unfold verifyDrafts
  split
  · exact safe_marginSkip h hd (by omega)
  · refine safe_orElse (R := Back m p) ?_ ?_
    · split
      · split
        · simp only [List.length_cons, List.length_nil] at hlen
          exact safe_decode2Exact h hd he (by omega)
        · exact safe_microVerify o h hd he hcap
      · exact safe_microVerify o h hd he hcap
    · intro s' g' h'
      exact safe_sequentialVerify h' (by omega)

/-! ## The whole function -/

/-- The drafts begin with the first one and end with an end of sequence at most. -/
theorem safe_draftLoop (st : Stops τ) (hst : st.ignoreEos = false) (hne : st.eos ∉ d :: ds)
    (he : EosLast st.eos (d :: ds)) (proposal : Nat → τ) (n : Nat) :
    (draftLoop proposal st n (d :: ds) : GraphProg κ L _).Safe Minded
      (fun r g' => g' = g ∧ ∀ drafts, r = some drafts → ∃ ds', drafts = d :: ds' ∧
        EosLast st.eos drafts ∧ ds'.length ≤ ds.length + n) g := by
  induction n generalizing ds with
  | zero =>
    refine ⟨rfl, ?_⟩
    rintro _ ⟨⟩
    exact ⟨ds, rfl, he, Nat.le_refl _⟩
  | succ n ih =>
    apply Prog.Safe.ask
    · simp only [hst, Bool.false_and, Bool.false_eq_true, if_false]
      split
      · refine ⟨rfl, ?_⟩
        rintro _ ⟨⟩
        refine ⟨ds ++ [_], rfl, he.append hne _, ?_⟩
        rw [List.length_append, List.length_singleton]
        omega
      · next hx =>
        have he' : EosLast st.eos (d :: (ds ++ [proposal (d :: ds).length])) := he.append hne _
        refine (ih ?_ he').mono ?_
        · rw [← List.cons_append, List.mem_append, not_or]
          exact ⟨hne, fun hmem => hx (List.mem_singleton.1 hmem).symm⟩
        · rintro r g' ⟨hg, hr⟩
          refine ⟨hg, fun drafts hd => ?_⟩
          obtain ⟨ds', h1, h2, h3⟩ := hr drafts hd
          refine ⟨ds', h1, h2, ?_⟩
          rw [List.length_append, List.length_singleton] at h3
          omega
    · intro _ x
      exact ⟨rfl, nofun⟩

omit [DecidableEq τ] in
/-- The first token: the draft is prepared behind it. -/
theorem safe_evalProbe (h : Synced m s g) (proposal : Nat → τ) (t : τ) (probe : Bool) :
    (ds4SessionEvalProbe m proposal s t probe).Safe Minded
      (fun x g' => x.2 = true → x.1.checkpoint = s.checkpoint ++ [t] ∧ Synced m x.1 g') g := by
  have hcheck : (if probe then { s with mtpDraft := none } else s).checkpoint = s.checkpoint := by
    split <;> rfl
  have hstep : m.step g.live t s.checkpoint.length = m.state (s.checkpoint ++ [t]) := by
    rw [h.live, Model.state_concat]
  rw [ds4SessionEvalProbe]
  simp only [hcheck]
  apply Prog.Safe.ask
  · have hsynced (d : Option τ) : Synced m
        ({ checkpoint := s.checkpoint ++ [t], valid := true,
           logits := m.logits (m.step g.live t s.checkpoint.length), mtpDraft := d } : Session L τ)
        { g with live := m.step g.live t s.checkpoint.length,
                 head := m.logits (m.step g.live t s.checkpoint.length) } :=
      ⟨hstep, congrArg m.logits hstep⟩
    simp only
    split
    · apply Prog.Safe.ask
      · exact fun _ => ⟨rfl, hsynced _⟩
      · exact fun _ _ _ => ⟨rfl, hsynced _⟩
    · exact fun _ => ⟨rfl, hsynced _⟩
  · intro _ x
    nofun

/-- The tokens accepted: none, or the first token and a greedy continuation. -/
def GreedyRun (m : Model κ L τ) (eos : τ) (old : List τ) (first : τ) (acc : List τ) : Prop :=
  acc = [] ∨ ∃ ts, acc = first :: ts ∧ (first = eos → ts = []) ∧ Greedy m eos (old ++ [first]) ts

/-- What a call that returns a number of tokens must have done. -/
structure Decodes (m : Model κ L τ) (eos : τ) (cap : Nat) (old : List τ) (first : τ) (s : Session L τ)
    (acc : List τ) (g : Graph κ L) : Prop where
  cap : acc.length ≤ cap
  greedy : GreedyRun m eos old first acc
  checkpoint : s.checkpoint = old ++ acc
  synced : Synced m s g

omit [DecidableEq τ] in
theorem Accepts.decodes (h : Accepts m eos cap (old ++ [first]) [first] s acc g)
    (hne : first = eos → acc = [first]) : Decodes m eos cap old first s acc g := by
  obtain ⟨ts, rfl, hs, hg, hcap, hsync⟩ := h
  refine ⟨hcap, .inr ⟨ts, rfl, ?_, hg⟩, by rw [hs, List.append_assoc], hsync⟩
  intro hx
  exact List.append_cancel_left (hne hx)

/-- The drafts of a call, with the bound of the first draft on their number. -/
theorem safe_drafts (eos : τ) (proposal : Nat → τ) (d : τ) (cap : Nat) (hcap : 0 < cap) :
    (draftLoop proposal ⟨eos, false, fun _ => false⟩ ((if d = eos then 1 else cap) - 1) [d] :
      GraphProg κ L _).Safe Minded
      (fun r g' => g' = g ∧ ∀ drafts, r = some drafts → ∃ ds, drafts = d :: ds ∧
        EosLast eos drafts ∧ drafts.length ≤ cap) g := by
  by_cases hd : d = eos
  · rw [if_pos hd]
    refine ⟨rfl, ?_⟩
    rintro _ ⟨⟩
    exact ⟨[], rfl, ⟨fun _ => rfl, trivial⟩, hcap⟩
  · rw [if_neg hd]
    refine (safe_draftLoop ⟨eos, false, fun _ => false⟩ rfl ?_ ⟨fun _ => rfl, trivial⟩ proposal
      (cap - 1)).mono ?_
    · exact fun hmem => hd (List.mem_singleton.1 hmem).symm
    · rintro r g' ⟨hg, hr⟩
      refine ⟨hg, fun drafts hx => ?_⟩
      obtain ⟨ds, rfl, he, hlen⟩ := hr drafts hx
      refine ⟨ds, rfl, he, ?_⟩
      rw [List.length_cons]
      rw [List.length_nil] at hlen
      omega

theorem safe_speculativeArgmax (h : Synced m s g) (o : MtpOptions) (proposal : Nat → τ) (first : τ)
    (maxTokens : Int) (eos : τ) (acceptedCap : Int) :
    (ds4SessionEvalSpeculativeArgmax m o proposal s first maxTokens eos acceptedCap).Safe Minded
      (fun x g' => ∀ acc, x.2 = .returns acc →
        Decodes m eos (min acceptedCap maxTokens).toNat s.checkpoint first x.1 acc g') g := by
  rw [ds4SessionEvalSpeculativeArgmax, ds4SessionEvalSpeculativeArgmaxImpl]
  split
  · rintro acc ⟨⟩
    exact ⟨Nat.zero_le _, .inl rfl, (List.append_nil _).symm, h⟩
  · next hpos =>
    split
    · nofun
    · simp only
      have hcap1 : 1 ≤ (min acceptedCap maxTokens).toNat := by omega
      apply (safe_evalProbe h proposal first _).bind
      rintro ⟨s', ok⟩ g' h'
      simp only
      split
      · nofun
      · next hok =>
        obtain ⟨hs, hsync⟩ := h' (Bool.not_eq_false _ ▸ hok)
        have hone : Decodes m eos (min acceptedCap maxTokens).toNat s.checkpoint first s' [first] g' :=
          ⟨hcap1, .inr ⟨[], rfl, fun _ => rfl, trivial⟩, hs, hsync⟩
        have hone' : Decodes m eos (min acceptedCap maxTokens).toNat s.checkpoint first
            { s' with mtpDraft := none } [first] g' := ⟨hcap1, hone.greedy, hs, hsync.live, hsync.logits⟩
        split
        · rintro acc ⟨⟩
          exact hone
        · next hfirst =>
          split
          · rintro acc ⟨⟩
            exact hone
          · split
            · rintro acc ⟨⟩
              exact hone
            · next d hd =>
              split
              · rintro acc ⟨⟩
                exact hone
              · next hroom =>
                simp only [Bool.false_and, Bool.false_eq_true, if_false, Bool.not_false, Bool.true_and,
                  decide_eq_true_eq]
                split
                · rintro acc ⟨⟩
                  exact hone'
                · next hmatch =>
                  have hmatch := Decidable.not_not.1 hmatch
                  have hback : Back m (s.checkpoint ++ [first]) { s' with mtpDraft := none } g' :=
                    ⟨hs, hsync.live, hsync.logits⟩
                  apply (safe_drafts eos proposal d _ (by omega)).bind
                  rintro r _ ⟨rfl, hr⟩
                  split
                  · next ds =>
                    obtain ⟨ds', heq, he, hlen⟩ := hr _ rfl
                    cases heq
                    refine (safe_verifyDrafts (R := fun _ _ => True) o hback ?_ he ?_).mono ?_
                    · rw [← hmatch, hsync.logits, hs]
                      rfl
                    · rw [List.length_append, List.length_singleton]
                      omega
                    · rintro ⟨s'', v⟩ g'' hv acc hacc
                      cases hacc
                      exact Accepts.decodes hv fun hx => absurd (.inl hx) hfirst
                  · rintro acc ⟨⟩
                    exact hone'

end Accept

/-- A model whose caches are the tokens; it goes on with their number. -/
def countModel : Model (List Nat) (List Nat) Nat where
  init := []
  step k t _ := k ++ [t]
  logits k := k
  argmax l := l.length

def strictOptions : MtpOptions where
  ctxSize := 100
  mtpReady := true
  draftTokens := 2
  strict := true
  margin := false
  lowMargin := false
  preferDecode2 := false
  batchVerify := false
  capturePrefix1 := false
  exactReplay := false
  forceSnapshot := false

def countSession : Session (List Nat) Nat := ⟨[7], true, [7], none⟩

def countGraph (live : List Nat) : Graph (List Nat) (List Nat) := ⟨live, [], fun _ => [], fun _ => [], []⟩

/-- Token 0 and two drafts; the verifier fails, and so does the restore if that is in the outcomes. -/
def strictRun (second : Nat) (os : List (Option (Graph (List Nat) (List Nat)))) :
    Prog.Exec Care (Graph (List Nat) (List Nat)) (Session (List Nat) Nat × Verdict Nat) :=
  (ds4SessionEvalSpeculativeArgmax countModel strictOptions (fun i => if i = 0 then 2 else second)
    countSession 0 10 99 10).exec ([none, none, none, none, some (countGraph [])] ++ os) (countGraph [7])

end Ds4.Engine
