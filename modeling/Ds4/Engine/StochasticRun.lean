import Ds4.Engine.SpeculateRun
import Ds4.Engine.Stochastic

/-!
# What a stochastic cycle leaves

Whatever calls fail and whatever numbers are drawn, a cycle that does not return -1 leaves the session and its graph as plain
decoding of the checkpoint, and the tokens handed out are those appended. When nothing fails, every token handed out has the
probability that the sampler gives it behind the tokens in front of it.
-/

namespace Ds4.Engine
open Faulty Ds4.Sampling

/-! ## Calls -/

section
variable {κ L ρ : Type} {l : Care} {f : Graph κ L → Graph κ L × ρ} {spoil : Graph κ L → Graph κ L → Graph κ L}
  {w w' : World κ L}

/-- A call that succeeds. -/
theorem World.call_some {r : ρ} (h : w.call (.ask l f spoil) = (some r, w')) :
    r = (f w.graph).2 ∧ w'.graph = (f w.graph).1 ∧ (w.outcomes = [] → w'.outcomes = []) := by
  obtain ⟨g, os⟩ := w
  rw [World.call, Prog.ask, Prog.exec] at h
  cases hos : os.head?.join with
  | some x =>
    rw [hos] at h
    cases (Prod.mk.inj h).1
  | none =>
    rw [hos] at h
    obtain ⟨hr, rfl⟩ := Prod.mk.inj h
    exact ⟨(Option.some.inj hr).symm, rfl, fun hnil => congrArg List.tail hnil⟩

/-- A call that fails. -/
theorem World.call_none (h : w.call (.ask l f spoil) = (none, w')) :
    w.outcomes ≠ [] ∧ ∃ x, w'.graph = spoil x w.graph := by
  obtain ⟨g, os⟩ := w
  rw [World.call, Prog.ask, Prog.exec] at h
  cases hos : os.head?.join with
  | some x =>
    rw [hos] at h
    obtain ⟨-, rfl⟩ := Prod.mk.inj h
    refine ⟨fun hnil => ?_, x, rfl⟩
    dsimp only at hnil
    rw [hnil] at hos
    cases hos
  | none =>
    rw [hos] at h
    cases (Prod.mk.inj h).1

theorem World.call_bind {α β : Type} (w : World κ L) (p : GraphProg κ L α) (k : α → GraphProg κ L β) :
    w.call (p >>= k) = (w.call p).2.call (k (w.call p).1) := by
  obtain ⟨g, os⟩ := w
  change World.call _ (p.bind k) = _
  induction p generalizing g os with
  | ret a => rfl
  | call l f spoil k' ih =>
    simp only [World.call, Prog.bind, Prog.exec] at ih ⊢
    cases os.head?.join with
    | some x => exact ih none (spoil x g) os.tail
    | none => exact ih (some (f g).2) (f g).1 os.tail

end

section
variable {κ K : Type} {m : Model κ (Logits K) ℤ} {e : DsparkEngine K} {s : Session (Logits K) ℤ} {w : World κ (Logits K)}
  {c accepted drafts ts : List ℤ} {acceptedCap eos : ℤ}

/-- How a cycle ends; when `quiet` holds, `ts` is appended. -/
structure Ended (m : Model κ (Logits K) ℤ) (cap : ℤ) (c accepted ts : List ℤ) (quiet : Prop) (r : DsparkCycle κ K) : Prop where
  appended : quiet → r.accepted = some (accepted ++ ts) ∧ r.session.checkpoint = c ++ ts
  failed : r.accepted = none → r.session.valid = false
  settled : ∀ acc, r.accepted = some acc → r.session.valid = true ∧ Synced m r.session r.world.graph ∧
    ∃ ts, acc = accepted ++ ts ∧ r.session.checkpoint = c ++ ts ∧ (ts = [] ∨ ((accepted ++ ts).length : ℤ) ≤ cap)

variable {cap : ℤ} {quiet : Prop} {r : DsparkCycle κ K}

theorem Ended.not_quiet {ts' : List ℤ} (h : Ended m cap c accepted ts' False r) (hq : ¬quiet) :
    Ended m cap c accepted ts quiet r :=
  ⟨fun h => absurd h hq, h.failed, h.settled⟩

theorem Ended.mono {quiet' : Prop} (h : Ended m cap c accepted ts quiet r) (hq : quiet' → quiet) :
    Ended m cap c accepted ts quiet' r := ⟨fun h' => h.appended (hq h'), h.failed, h.settled⟩

/-- What holds of every cycle. -/
theorem Ended.loud {ts' : List ℤ} (h : Ended m cap c accepted ts quiet r) : Ended m cap c accepted ts' False r :=
  ⟨fun h => absurd h not_false, h.failed, h.settled⟩

/-- The cycle returns -1. -/
theorem ended_none (hv : s.valid = false) (hq : ¬quiet) (d : DsparkDraft) : Ended m cap c accepted ts quiet ⟨s, d, none, w⟩ :=
  ⟨fun h => absurd h hq, fun _ => hv, nofun⟩

/-- The cycle hands out the tokens it appended. -/
theorem ended_some (hv : s.valid = true) (hs : Synced m s w.graph) (hc : s.checkpoint = c ++ ts)
    (hlen : ts = [] ∨ ((accepted ++ ts).length : ℤ) ≤ cap) (d : DsparkDraft) :
    Ended m cap c accepted ts quiet ⟨s, d, some (accepted ++ ts), w⟩ := by
  refine ⟨fun _ => ⟨rfl, hc⟩, nofun, fun acc hacc => ?_⟩
  exact ⟨hv, hs, ts, (Option.some.inj hacc).symm, hc, hlen⟩

/-- The cycle appends nothing. -/
theorem ended_same (hv : s.valid = true) (hs : Synced m s w.graph) (hc : s.checkpoint = c) (d : DsparkDraft) :
    Ended m cap c accepted [] quiet ⟨s, d, some accepted, w⟩ := by
  have hnil : s.checkpoint = c ++ [] := by rw [hc, List.append_nil]
  have h : Ended m cap c accepted [] quiet ⟨s, d, some (accepted ++ []), w⟩ := ended_some hv hs hnil (.inl rfl) d
  rwa [List.append_nil] at h

/-! ## The parts of a cycle -/

/-- A token is decoded behind the checkpoint. -/
theorem evalProbeTp_call (hv : s.valid = true) (hlive : w.graph.live = m.state s.checkpoint) (t : ℤ)
    {s' : Session (Logits K) ℤ} {ok : Bool} {w' : World κ (Logits K)}
    (h : w.call (ds4SessionEvalProbeTp m s t) = ((s', ok), w')) :
    if ok then s'.valid = true ∧ s'.checkpoint = s.checkpoint ++ [t] ∧ Synced m s' w'.graph
    else s'.valid = false ∧ w.outcomes ≠ [] := by
  rw [ds4SessionEvalProbeTp, if_pos hv, ds4SessionEvalProbe, World.call_bind] at h
  simp only [Bool.false_eq_true, if_false] at h
  cases hcall : w.call (metalGraphEvalToken m .minded t s.checkpoint.length) with
  | mk r w₁ =>
    cases r with
    | none =>
      rw [hcall] at h
      cases h
      exact ⟨rfl, (World.call_none hcall).1⟩
    | some logits =>
      obtain ⟨rfl, hgraph, -⟩ := World.call_some hcall
      rw [hcall] at h
      cases h
      have hstate : m.step w.graph.live t s.checkpoint.length = m.state (s.checkpoint ++ [t]) := by
        rw [hlive, Model.state_concat]
      exact ⟨rfl, rfl, by rw [hgraph]; exact hstate, congrArg m.logits hstate⟩

theorem emit_eq (h : ((accepted ++ ts).length : ℤ) ≤ acceptedCap) : emit acceptedCap accepted ts = accepted ++ ts := by
  rw [List.length_append] at h
  rw [emit, List.take_of_length_le (by omega)]

theorem finishPartial_ended (hv : s.valid = true) (hlive : w.graph.live = m.state s.checkpoint)
    (hc : s.checkpoint = c ++ drafts) (hlen : ((accepted ++ drafts).length : ℤ) < cap) (hcap : cap ≤ acceptedCap) (r : ℕ) :
    Ended m cap c accepted (drafts ++ [(r : ℤ)]) (w.outcomes = []) (finishPartial m acceptedCap accepted drafts r s w) := by
  have hlen' : ((accepted ++ (drafts ++ [(r : ℤ)])).length : ℤ) ≤ cap := by
    rw [← List.append_assoc, List.length_append, List.length_singleton]
    omega
  rw [finishPartial]
  cases hcall : w.call (ds4SessionEvalProbeTp m s r) with
  | mk x w' =>
    obtain ⟨s', ok⟩ := x
    have heval := evalProbeTp_call hv hlive r hcall
    cases ok with
    | false => exact ended_none heval.1 heval.2 _
    | true =>
      obtain ⟨hv', hc', hs'⟩ := heval
      dsimp only
      rw [emit_eq (hlen.le.trans hcap), emit_eq (by rw [List.append_assoc]; exact hlen'.trans hcap), List.append_assoc]
      exact ended_some hv' hs' (by rw [hc', hc, List.append_assoc]) (.inr hlen') _

/-- The session and the graph behind a verified suffix. -/
structure Verified (m : Model κ (Logits K) ℤ) (c drafts : List ℤ) (s : Session (Logits K) ℤ) (g : Graph κ (Logits K)) :
    Prop where
  checkpoint : s.checkpoint = c ++ drafts
  valid : s.valid = true
  logits : s.logits = m.out c
  live : g.live = m.state (c ++ drafts)
  frontier : g.frontier = m.state c
  rows : ∀ i, g.rows i = m.out (c ++ drafts.take (i + 1))
  prefixes : 1 < drafts.length → ∀ i, g.prefixes i = m.state (c ++ drafts.take (i + 1))

/-- The drafts were verified. -/
theorem verified_of (hs : Synced m s w.graph) (hv : s.valid = true) {g : Graph κ (Logits K)}
    (hsnap : w.graph.frontier = m.state s.checkpoint)
    (hg : g = { w.graph with
      live := m.steps w.graph.live s.checkpoint.length drafts
      prefixes := if decide (1 < drafts.length) && 1 < drafts.length then m.row w.graph.live s.checkpoint.length drafts
        else w.graph.prefixes
      rows := fun i => m.logits (m.row w.graph.live s.checkpoint.length drafts i) }) :
    Verified m s.checkpoint drafts { s with checkpoint := s.checkpoint ++ drafts } g where
  checkpoint := rfl
  valid := hv
  logits := hs.logits
  live := by rw [hg, Model.state_append, ← hs.live]
  frontier := by rw [hg]; exact hsnap
  rows i := by
    rw [hg]
    dsimp only
    rw [hs.live, row_eq]
    rfl
  prefixes hlen i := by
    rw [hg]
    dsimp only
    rw [if_pos (by simpa using hlen), hs.live, row_eq]

theorem abandonVerifier_ended (hc : s.checkpoint.take c.length = c) (hv : s.valid = true) (hlogits : s.logits = m.out c)
    (hfrontier : w.graph.frontier = m.state c) :
    Ended m cap c accepted [] False (abandonVerifier c.length accepted s w) := by
  rw [abandonVerifier]
  dsimp only
  cases hcall : w.call (specFrontierRestore .minded) with
  | mk r w' =>
    cases r with
    | none => exact ended_none rfl not_false _
    | some _ =>
      obtain ⟨-, hgraph, -⟩ := World.call_some hcall
      have hs : Synced m { s with checkpoint := s.checkpoint.take c.length } w'.graph := by
        rw [hc]
        exact ⟨by rw [hgraph]; exact hfrontier, hlogits⟩
      exact ended_same (s := { s with checkpoint := s.checkpoint.take c.length }) hv hs hc _

theorem commitFull_ended (h : Verified m c drafts s w.graph) (he : EosLast eos drafts) (hne : drafts ≠ [])
    (hlen : ((accepted ++ drafts).length : ℤ) ≤ cap) (hcap : cap ≤ acceptedCap) :
    Ended m cap c accepted drafts (w.outcomes = []) (commitFull c.length acceptedCap eos accepted drafts s w) := by
  have hbase : s.checkpoint.take c.length = c := by rw [h.checkpoint, List.take_left]
  have hpos := List.length_pos_iff.mpr hne
  rw [commitFull]
  cases hcall : w.call (metalGraphReadSpecLogitsRow (drafts.length - 1)) with
  | mk r w' =>
    cases r with
    | none =>
      obtain ⟨hfail, x, hgraph⟩ := World.call_none hcall
      exact (abandonVerifier_ended hbase h.valid h.logits (by rw [hgraph]; exact h.frontier)).not_quiet hfail
    | some logits =>
      obtain ⟨rfl, hgraph, -⟩ := World.call_some hcall
      dsimp only
      rw [acceptLoop_eq he (by omega)]
      have hrow := h.rows (drafts.length - 1)
      rw [List.take_of_length_le (by omega)] at hrow
      have hs : Synced m { s with logits := w.graph.rows (drafts.length - 1), valid := true } w'.graph := by
        refine ⟨?_, ?_⟩
        · rw [hgraph, h.checkpoint]
          exact h.live
        · rw [h.checkpoint]
          exact hrow
      exact ended_some (s := { s with logits := _, valid := true }) rfl hs h.checkpoint (.inr hlen) _

/-- The accepted drafts are evaluated again. -/
theorem replayLoop_call (hlive : w.graph.live = m.state s.checkpoint) {l : Option (Logits K)} {s' : Session (Logits K) ℤ}
    {r : Option (Option (Logits K))} {w' : World κ (Logits K)} (h : w.call (replayLoop m .minded drafts s l) = ((s', r), w')) :
    if r.isSome then
      s'.checkpoint = s.checkpoint ++ drafts ∧ w'.graph.live = m.state s'.checkpoint ∧ (w.outcomes = [] → w'.outcomes = [])
    else w.outcomes ≠ [] := by
  induction drafts generalizing s w l with
  | nil =>
    cases h
    exact ⟨(List.append_nil _).symm, hlive, id⟩
  | cons d ds ih =>
    rw [replayLoop, World.call_bind] at h
    cases hcall : w.call (metalGraphEvalToken m .minded d s.checkpoint.length) with
    | mk x w₁ =>
      rw [hcall] at h
      cases x with
      | none =>
        cases h
        exact (World.call_none hcall).1
      | some logits =>
        obtain ⟨-, hgraph, hquiet⟩ := World.call_some hcall
        have hstep := ih (s := { s with checkpoint := s.checkpoint ++ [d] }) (w := w₁)
          (by rw [hgraph, Model.state_concat, ← hlive]) h
        cases r with
        | none => exact fun hnil => hstep (hquiet hnil)
        | some l' =>
          obtain ⟨hs, hl, hq⟩ := hstep
          exact ⟨by rw [hs, List.append_assoc]; rfl, hl, fun hnil => hq (hquiet hnil)⟩

theorem commitPartial_ended {k : ℕ} (h : Verified m c drafts s w.graph) (hk : 0 < k) (hkd : k < drafts.length)
    (hlen : ((accepted ++ drafts).length : ℤ) ≤ cap) (hcap : cap ≤ acceptedCap) (r : ℕ) :
    Ended m cap c accepted (drafts.take k ++ [(r : ℤ)]) (w.outcomes = [])
      (commitPartial m e c.length acceptedCap accepted (drafts.take k) r s w) := by
  have hbase : s.checkpoint.take c.length = c := by rw [h.checkpoint, List.take_left]
  have htake : (drafts.take k).length = k := List.length_take_of_le hkd.le
  have hlen' : ((accepted ++ drafts.take k).length : ℤ) < cap := by
    rw [List.length_append, htake]
    rw [List.length_append] at hlen
    omega
  rw [commitPartial]
  dsimp only
  rw [hbase]
  generalize hdirect : (if 0 < (drafts.take k).length ∧ (drafts.take k).length ≤ e.prefixSlots then
    w.call (specFrontierCommitPrefix (drafts.take k).length) else (none, w)) = direct
  obtain ⟨x, w₁⟩ := direct
  cases x with
  | some _ =>
    have hgraph : w₁.graph.live = w.graph.prefixes (k - 1) ∧ (w.outcomes = [] → w₁.outcomes = []) := by
      split at hdirect
      · obtain ⟨-, hgraph, hquiet⟩ := World.call_some hdirect
        rw [hgraph, htake]
        exact ⟨rfl, hquiet⟩
      · exact absurd (Prod.mk.inj hdirect).1 nofun
    refine (finishPartial_ended rfl ?_ rfl hlen' hcap r).mono hgraph.2
    rw [hgraph.1, h.prefixes (by omega), Nat.sub_add_cancel hk]
  | none =>
    have hgraph : w₁.graph.frontier = m.state c ∧ (w.outcomes = [] → w₁.outcomes = []) := by
      split at hdirect
      · obtain ⟨hfail, y, hgraph⟩ := World.call_none hdirect
        rw [hgraph]
        exact ⟨h.frontier, fun hnil => absurd hnil hfail⟩
      · cases hdirect
        exact ⟨h.frontier, id⟩
    dsimp only
    cases hcall : w₁.call (specFrontierRestore .minded) with
    | mk x w₂ =>
      cases x with
      | none => exact ended_none rfl (fun hnil => (World.call_none hcall).1 (hgraph.2 hnil)) _
      | some _ =>
        obtain ⟨-, hgraph₂, hquiet₂⟩ := World.call_some hcall
        dsimp only
        cases hreplay : w₂.call (replayLoop m .minded (drafts.take k) { s with checkpoint := c } none) with
        | mk y w₃ =>
          obtain ⟨s', l⟩ := y
          have hloop := replayLoop_call (by rw [hgraph₂]; exact hgraph.1) hreplay
          cases l with
          | none => exact ended_none rfl (fun hnil => hloop (hquiet₂ (hgraph.2 hnil))) _
          | some _ =>
            obtain ⟨hs', hlive', hquiet'⟩ := hloop
            refine (finishPartial_ended (s := { s' with valid := true }) rfl hlive' hs' hlen' hcap r).mono fun hnil => ?_
            exact hquiet' (hquiet₂ (hgraph.2 hnil))

/-- The outcomes of the loop over the rows. -/
def Judged.Sound (j : Judged) (drafts : List ℤ) : Prop :=
  j.ok = true → match j.replacement with
    | none => j.acceptedDrafts = drafts.length
    | some _ => 0 < j.acceptedDrafts ∧ j.acceptedDrafts < drafts.length

/-- What is appended when the drafts were judged. -/
def Judged.tokens (j : Judged) (drafts : List ℤ) : List ℤ :=
  match j.replacement with
  | none => drafts
  | some r => drafts.take j.acceptedDrafts ++ [(r : ℤ)]

theorem judged_sound {j : Judged} (hne : drafts ≠ []) (h : j.ok = true → match j.replacement with
      | none => j.acceptedDrafts = 1 + drafts.tail.length
      | some _ => 1 ≤ j.acceptedDrafts ∧ j.acceptedDrafts < 1 + drafts.tail.length) : j.Sound drafts := by
  obtain ⟨d, ds, rfl⟩ := List.exists_cons_of_ne_nil hne
  intro hok
  have h := h hok
  rw [List.tail_cons, Nat.add_comm, ← List.length_cons] at h
  exact h

theorem commitJudged_ended {j : Judged} (h : Verified m c drafts s w.graph) (hj : j.Sound drafts) (he : EosLast eos drafts)
    (hne : drafts ≠ []) (hlen : ((accepted ++ drafts).length : ℤ) ≤ cap) (hcap : cap ≤ acceptedCap) :
    Ended m cap c accepted (j.tokens drafts) (w.outcomes = [] ∧ j.ok = true)
      (commitJudged m e c.length acceptedCap eos accepted drafts s j w) := by
  have hbase : s.checkpoint.take c.length = c := by rw [h.checkpoint, List.take_left]
  obtain ⟨ok, n, r⟩ := j
  cases ok with
  | false =>
    exact (abandonVerifier_ended hbase h.valid h.logits h.frontier).not_quiet fun hq => Bool.noConfusion hq.2
  | true =>
    cases r with
    | none =>
      rw [commitJudged, if_pos (hj rfl)]
      exact (commitFull_ended h he hne hlen hcap).mono fun hq => hq.1
    | some r => exact (commitPartial_ended h (hj rfl).1 (hj rfl).2 hlen hcap r).mono fun hq => hq.1

/-! ## The drafts -/

theorem cutAtEos_eosLast (eos : ℤ) (ds : List ℤ) : EosLast eos (cutAtEos eos ds) := by
  induction ds with
  | nil => trivial
  | cons d ds ih =>
    rw [cutAtEos]
    split
    · exact ⟨fun _ => rfl, trivial⟩
    · next hd => exact ⟨fun h => absurd h hd, ih⟩

theorem cutAtEos_prefix (eos : ℤ) (ds : List ℤ) : cutAtEos eos ds <+: ds := by
  induction ds with
  | nil => exact List.prefix_rfl
  | cons d ds ih =>
    rw [cutAtEos]
    split
    · exact List.prefix_append [d] ds
    · exact (List.prefix_cons_inj d).mpr ih

/-- The drafts that are judged are tokens and there is room for them. -/
structure Fit (e : DsparkEngine K) (cap eos : ℤ) (accepted drafts : List ℤ) : Prop where
  valid : ∀ d ∈ drafts, 0 ≤ d ∧ d < e.nVocab
  eosLast : EosLast eos drafts
  room : drafts ≠ [] → ((accepted ++ drafts).length : ℤ) ≤ cap

theorem draftsOf_fit (maxTokens acceptedCap eos : ℤ) (s : Session (Logits K) ℤ) (d : DsparkDraft) (accepted : List ℤ) :
    Fit e (min maxTokens acceptedCap) eos accepted (draftsOf e maxTokens acceptedCap eos s d accepted) := by
  rw [draftsOf]
  generalize hn : min (min (min (d.tokens.length : ℤ) (maxTokens - accepted.length)) (acceptedCap - accepted.length))
    (e.ctxSize - s.checkpoint.length - 1) = n
  split
  · next hvalid =>
    have hpre := cutAtEos_prefix eos (d.tokens.take n.toNat)
    refine ⟨fun x hx => hvalid x (hpre.subset hx), cutAtEos_eosLast eos _, fun hne => ?_⟩
    have hlen := hpre.length_le
    have hpos := List.length_pos_iff.mpr hne
    rw [List.length_take] at hlen
    rw [List.length_append]
    omega
  · exact ⟨nofun, trivial, fun h => absurd rfl h⟩

end

section
variable {κ K : Type} [Field K] [LinearOrder K] {m : Model κ (Logits K) ℤ} {e : DsparkEngine K} {o : SampleOptions K}
  {s : Session (Logits K) ℤ} {w : World κ (Logits K)} {c accepted drafts : List ℤ} {maxTokens acceptedCap eos cap : ℤ}

theorem judgeRows_all (ds : List ℤ) (i n : ℕ) (w : World κ (Logits K)) :
    (judgeRows e o ds i n w).All fun x => x.2.graph = w.graph ∧ (x.1.ok = true → match x.1.replacement with
      | none => x.1.acceptedDrafts = n + ds.length
      | some _ => n ≤ x.1.acceptedDrafts ∧ x.1.acceptedDrafts < n + ds.length) := by
  induction ds generalizing i n w with
  | nil => exact ⟨rfl, fun _ => rfl⟩
  | cons d ds ih =>
    rw [judgeRows]
    cases hcall : w.call (metalGraphReadSpecLogitsRow (i - 1)) with
    | mk row w₁ =>
      cases row with
      | none =>
        obtain ⟨-, x, hgraph⟩ := World.call_none hcall
        exact ⟨hgraph, nofun⟩
      | some logits =>
        obtain ⟨-, hgraph, -⟩ := World.call_some hcall
        dsimp only
        cases htable : targetProbs e o logits with
        | none => exact ⟨hgraph, nofun⟩
        | some probs =>
          refine (Draws.all_true _).bind fun b _ => ?_
          cases b with
          | true =>
            refine (ih (i + 1) (n + 1) w₁).mono fun x hx => ⟨hx.1.trans hgraph, fun hok => ?_⟩
            have hx := hx.2 hok
            rw [List.length_cons]
            split <;> rename_i hr <;> rw [hr] at hx
            · omega
            · omega
          | false =>
            refine (Draws.all_true _).bind fun r _ => ⟨hgraph, fun hok => ?_⟩
            cases r with
            | none => exact absurd hok nofun
            | some x => exact ⟨Nat.le_refl n, Nat.lt_add_of_pos_right (Nat.succ_pos ds.length)⟩

theorem firstMiss_all (hs : Synced m s w.graph) (hv : s.valid = true) {d : ℤ} (h0 : 0 ≤ d) (hd : d < e.nVocab)
    (hlen : ((accepted ++ [d]).length : ℤ) ≤ cap) (probs : ℕ → K) :
    (firstMiss m e probs accepted d s w).All (Ended m cap s.checkpoint accepted [] False) := by
  refine (replacement_some h0 hd probs).bind fun r hr => ?_
  obtain ⟨x, rfl⟩ := Option.isSome_iff_exists.mp hr
  rw [List.length_append, List.length_singleton] at hlen
  dsimp only
  cases hcall : w.call (ds4SessionEvalProbeTp m s x) with
  | mk y w' =>
    obtain ⟨s', ok⟩ := y
    have heval := evalProbeTp_call hv hs.live x hcall
    cases ok with
    | false => exact ended_none heval.1 not_false _
    | true =>
      have hroom : ((accepted ++ [(x : ℤ)]).length : ℤ) ≤ cap := by rwa [List.length_append, List.length_singleton]
      have hend : Ended m cap s.checkpoint accepted [(x : ℤ)] False ⟨s', .cleared, some (accepted ++ [(x : ℤ)]), w'⟩ :=
        ended_some heval.1 heval.2.2 heval.2.1 (.inr hroom) _
      exact hend.loud

theorem verifyStochastic_all (hs : Synced m s w.graph) (hv : s.valid = true) (hfit : Fit e cap eos accepted drafts)
    (hne : drafts ≠ []) (hcap : cap ≤ acceptedCap) :
    (verifyStochastic m e o acceptedCap eos accepted drafts s w).All (Ended m cap s.checkpoint accepted [] False) := by
  rw [verifyStochastic]
  dsimp only
  cases hsnap : w.call specFrontierSnapshot with
  | mk x w₁ =>
    cases x with
    | none =>
      obtain ⟨-, y, hgraph⟩ := World.call_none hsnap
      exact ended_same hv ⟨by rw [hgraph]; exact hs.live, hs.logits⟩ rfl _
    | some _ =>
      obtain ⟨-, hgraph₁, -⟩ := World.call_some hsnap
      dsimp only
      cases hverify : w₁.call (metalGraphVerifySuffixTops m drafts s.checkpoint.length (decide (1 < drafts.length))) with
      | mk x w₂ =>
        cases x with
        | none =>
          obtain ⟨-, y, hgraph₂⟩ := World.call_none hverify
          refine abandonVerifier_ended (s := { s with checkpoint := s.checkpoint ++ drafts }) List.take_left hv hs.logits ?_
          rw [hgraph₂, hgraph₁]
          exact hs.live
        | some _ =>
          obtain ⟨-, hgraph₂, -⟩ := World.call_some hverify
          have hver : Verified m s.checkpoint drafts { s with checkpoint := s.checkpoint ++ drafts } w₂.graph :=
            verified_of (w := w₁) ⟨by rw [hgraph₁]; exact hs.live, hs.logits⟩ hv (by rw [hgraph₁]; exact hs.live) hgraph₂
          refine (judgeRows_all drafts.tail 1 1 w₂).bind fun x hx => ?_
          obtain ⟨j, w₃⟩ := x
          obtain ⟨hgraph₃, hj⟩ := hx
          have hsound : j.Sound drafts := judged_sound hne hj
          exact (commitJudged_ended (hgraph₃ ▸ hver) hsound hfit.eosLast hne (hfit.room hne) hcap).loud

/-- Whatever fails and whatever is drawn: a cycle that does not return -1 leaves the session and its graph as plain decoding of
the checkpoint, and one that does leaves the session invalid. -/
theorem stochastic_settles (m : Model κ (Logits K) ℤ) (e : DsparkEngine K) (o : SampleOptions K) (maxTokens acceptedCap eos : ℤ)
    (hs : Synced m s w.graph) (hv : s.valid = true) (d : DsparkDraft) (accepted : List ℤ) :
    (ds4SessionEvalDsparkSpeculativeStochastic m e o maxTokens acceptedCap eos s d accepted w).All
      (Ended m (min maxTokens acceptedCap) s.checkpoint accepted [] False) := by
  rw [ds4SessionEvalDsparkSpeculativeStochastic]
  split
  · exact ended_same hv hs rfl _
  · have hfit : Fit e (min maxTokens acceptedCap) eos accepted (draftsOf e maxTokens acceptedCap eos s d accepted) :=
      draftsOf_fit ..
    split
    · exact ended_same hv hs rfl _
    · next x xs hdrafts =>
      rw [hdrafts] at hfit
      obtain ⟨h0, hx⟩ := hfit.valid x (List.mem_cons_self ..)
      have hroom := hfit.room (List.cons_ne_nil x xs)
      split
      · exact ended_same hv hs rfl _
      · next probs hprobs =>
        refine (Draws.all_true _).bind fun b _ => ?_
        cases b with
        | true => exact verifyStochastic_all hs hv hfit (List.cons_ne_nil x xs) (min_le_right ..)
        | false =>
          refine firstMiss_all hs hv h0 hx ?_ probs
          rw [List.length_append, List.length_cons] at hroom
          rw [List.length_append, List.length_singleton]
          omega

end

section
variable {κ : Type} {m : Model κ (Logits ℝ) ℤ} {e : DsparkEngine ℝ} {o : SampleOptions ℝ} {s : Session (Logits ℝ) ℤ}
  {w : World κ (Logits ℝ)} {p accepted : List ℤ} {maxTokens acceptedCap eos cap : ℤ} {table : List ℤ → ℕ → ℝ}

/-- The loop over the rows and the tokens that come out when the drafts are judged behind `p`. -/
structure Judges (ds : List ℤ) (n : ℕ) (w : World κ (Logits ℝ)) (x : Judged × World κ (Logits ℝ)) (ts : List ℤ) : Prop where
  world : x.2.graph = w.graph ∧ x.2.outcomes = []
  ok : x.1.ok = true
  tokens : match x.1.replacement with
    | none => x.1.acceptedDrafts = n + ds.length ∧ ts = ds
    | some r => ∃ k < ds.length, x.1.acceptedDrafts = n + k ∧ ts = ds.take k ++ [(r : ℤ)]

theorem judgeRows_coupled (htable : ∀ c, targetProbs e o (m.out c) = some (table c)) {ds : List ℤ} {i : ℕ} (hi : 0 < i) (n : ℕ)
    (hds : ∀ d ∈ ds, 0 ≤ d ∧ d < e.nVocab) (hquiet : w.outcomes = [])
    (hrows : ∀ k < ds.length, w.graph.rows (i - 1 + k) = m.out (p ++ ds.take k)) :
    Draws.Coupled (Judges ds n w) (judgeRows e o ds i n w) (judge table e.nVocab p ds) := by
  induction ds generalizing i n p w with
  | nil => exact ⟨⟨rfl, hquiet⟩, rfl, rfl, rfl⟩
  | cons d ds ih =>
    obtain ⟨h0, hd⟩ := hds d (List.mem_cons_self ..)
    rw [judgeRows, judge]
    cases hcall : w.call (metalGraphReadSpecLogitsRow (i - 1)) with
    | mk row w₁ =>
      cases row with
      | none => exact absurd hquiet (World.call_none hcall).1
      | some logits =>
        obtain ⟨rfl, hgraph, hquiet₁⟩ := World.call_some hcall
        have hrow := hrows 0 (Nat.succ_pos _)
        rw [Nat.add_zero, List.take_zero, List.append_nil] at hrow
        dsimp only
        rw [hrow, htable]
        refine Draws.Coupled.bind_same (Draws.all_true _) fun b _ => ?_
        cases b with
        | true =>
          have htail := ih (w := w₁) (p := p ++ [d]) (Nat.succ_pos i) (n + 1) (fun x hx => hds x (List.mem_cons_of_mem d hx))
            (hquiet₁ hquiet) fun k hk => by
              have hrow := hrows (k + 1) (Nat.succ_lt_succ hk)
              rw [show i - 1 + (k + 1) = i + 1 - 1 + k by omega] at hrow
              rw [hgraph, List.append_assoc]
              exact hrow
          refine htail.map_right fun x ts hx => ?_
          obtain ⟨hworld, hok, htokens⟩ := hx
          refine ⟨⟨hworld.1.trans hgraph, hworld.2⟩, hok, ?_⟩
          split <;> rename_i hr <;> rw [hr] at htokens
          · obtain ⟨hacc, rfl⟩ := htokens
            exact ⟨by rw [hacc, List.length_cons]; omega, rfl⟩
          · obtain ⟨k, hk, hacc, rfl⟩ := htokens
            exact ⟨k + 1, Nat.succ_lt_succ hk, by rw [hacc]; omega, rfl⟩
        | false =>
          refine Draws.Coupled.bind_same (replacement_some h0 hd _) fun r hr => ?_
          obtain ⟨x, rfl⟩ := Option.isSome_iff_exists.mp hr
          exact ⟨⟨hgraph, hquiet₁ hquiet⟩, rfl, 0, Nat.succ_pos _, rfl, rfl⟩

theorem Judges.tokens_eq {d : ℤ} {ds ts : List ℤ} {x : Judged × World κ (Logits ℝ)} (h : Judges ds 1 w x ts) :
    x.1.Sound (d :: ds) ∧ x.1.tokens (d :: ds) = d :: ts := by
  obtain ⟨⟨ok, n, r⟩, w'⟩ := x
  have htokens := h.tokens
  cases r with
  | none =>
    obtain ⟨hacc, rfl⟩ := htokens
    exact ⟨fun _ => hacc.trans (Nat.add_comm ..), rfl⟩
  | some r =>
    obtain ⟨k, hk, rfl, rfl⟩ := htokens
    refine ⟨fun _ => ⟨Nat.lt_add_right k Nat.one_pos, ?_⟩, ?_⟩
    · rw [List.length_cons]
      exact Nat.add_comm 1 k ▸ Nat.succ_lt_succ hk
    · show (d :: ds).take (1 + k) ++ [(r : ℤ)] = d :: (ds.take k ++ [(r : ℤ)])
      rw [Nat.add_comm, List.take_succ_cons]
      rfl

theorem verifyStochastic_coupled (htable : ∀ c, targetProbs e o (m.out c) = some (table c)) (hs : Synced m s w.graph)
    (hv : s.valid = true) (hquiet : w.outcomes = []) {d : ℤ} {ds : List ℤ} (hfit : Fit e cap eos accepted (d :: ds))
    (hcap : cap ≤ acceptedCap) :
    Draws.Coupled (fun r ts => Ended m cap s.checkpoint accepted ts True r)
      (verifyStochastic m e o acceptedCap eos accepted (d :: ds) s w)
      ((judge table e.nVocab (s.checkpoint ++ [d]) ds).bind fun ts => .ret (d :: ts)) := by
  rw [verifyStochastic]
  dsimp only
  cases hsnap : w.call specFrontierSnapshot with
  | mk x w₁ =>
    cases x with
    | none => exact absurd hquiet (World.call_none hsnap).1
    | some _ =>
      obtain ⟨-, hgraph₁, hquiet₁⟩ := World.call_some hsnap
      dsimp only
      cases hverify : w₁.call (metalGraphVerifySuffixTops m (d :: ds) s.checkpoint.length (decide (1 < (d :: ds).length))) with
      | mk x w₂ =>
        cases x with
        | none => exact absurd (hquiet₁ hquiet) (World.call_none hverify).1
        | some _ =>
          obtain ⟨-, hgraph₂, hquiet₂⟩ := World.call_some hverify
          have hver : Verified m s.checkpoint (d :: ds) { s with checkpoint := s.checkpoint ++ d :: ds } w₂.graph :=
            verified_of (w := w₁) ⟨by rw [hgraph₁]; exact hs.live, hs.logits⟩ hv (by rw [hgraph₁]; exact hs.live) hgraph₂
          have hrows := judgeRows_coupled (o := o) (p := s.checkpoint ++ [d]) (i := 1) htable Nat.one_pos 1
            (fun x hx => hfit.valid x (List.mem_cons_of_mem d hx)) (hquiet₂ (hquiet₁ hquiet)) fun k _ => by
              rw [hver.rows, List.append_assoc, Nat.sub_self, Nat.zero_add]
              rfl
          refine hrows.bind fun x ts hx => ?_
          obtain ⟨hsound, htokens⟩ := hx.tokens_eq
          have hend := commitJudged_ended (e := e) (hx.world.1 ▸ hver) hsound hfit.eosLast (List.cons_ne_nil d ds)
            (hfit.room (List.cons_ne_nil d ds)) hcap
          rw [htokens] at hend
          exact hend.mono fun _ => ⟨hx.world.2, hx.ok⟩

theorem firstMiss_coupled (hs : Synced m s w.graph) (hv : s.valid = true) (hquiet : w.outcomes = []) {d : ℤ} (h0 : 0 ≤ d)
    (hd : d < e.nVocab) (hlen : ((accepted ++ [d]).length : ℤ) ≤ cap) (probs : ℕ → ℝ) :
    Draws.Coupled (fun r ts => Ended m cap s.checkpoint accepted ts True r) (firstMiss m e probs accepted d s w)
      ((speculativePointReplacement probs e.nVocab d).bind fun r => .ret (replaced r)) := by
  refine Draws.Coupled.bind_same (replacement_some h0 hd probs) fun r hr => ?_
  obtain ⟨x, rfl⟩ := Option.isSome_iff_exists.mp hr
  rw [List.length_append, List.length_singleton] at hlen
  dsimp only
  cases hcall : w.call (ds4SessionEvalProbeTp m s x) with
  | mk y w' =>
    obtain ⟨s', ok⟩ := y
    have heval := evalProbeTp_call hv hs.live x hcall
    cases ok with
    | false => exact absurd hquiet heval.2
    | true =>
      refine ended_some heval.1 heval.2.2 heval.2.1 (.inr ?_) _
      rw [List.length_append, List.length_singleton]
      exact hlen

/-- The drafts of a session, if there are any that can be judged. -/
def judgedDrafts (e : DsparkEngine ℝ) (maxTokens acceptedCap eos : ℤ) (s : Session (Logits ℝ) ℤ) (d : DsparkDraft)
    (accepted : List ℤ) : List ℤ :=
  if d.valid = false ∨ d.stochastic = false ∨ d.tokens = [] then [] else draftsOf e maxTokens acceptedCap eos s d accepted

theorem judgedDrafts_fit (maxTokens acceptedCap eos : ℤ) (s : Session (Logits ℝ) ℤ) (d : DsparkDraft) (accepted : List ℤ) :
    Fit e (min maxTokens acceptedCap) eos accepted (judgedDrafts e maxTokens acceptedCap eos s d accepted) := by
  rw [judgedDrafts]
  split
  · exact ⟨nofun, trivial, fun h => absurd rfl h⟩
  · exact draftsOf_fit ..

/-- When nothing fails, a cycle appends the tokens that come out when its drafts are judged. -/
theorem stochastic_coupled (htable : ∀ c, targetProbs e o (m.out c) = some (table c)) (hs : Synced m s w.graph)
    (hv : s.valid = true) (hquiet : w.outcomes = []) (maxTokens acceptedCap eos : ℤ) (d : DsparkDraft) (accepted : List ℤ) :
    Draws.Coupled (fun r ts => Ended m (min maxTokens acceptedCap) s.checkpoint accepted ts True r)
      (ds4SessionEvalDsparkSpeculativeStochastic m e o maxTokens acceptedCap eos s d accepted w)
      (judge table e.nVocab s.checkpoint (judgedDrafts e maxTokens acceptedCap eos s d accepted)) := by
  have hfit : Fit e (min maxTokens acceptedCap) eos accepted (judgedDrafts e maxTokens acceptedCap eos s d accepted) :=
    judgedDrafts_fit ..
  rw [judgedDrafts] at hfit ⊢
  rw [ds4SessionEvalDsparkSpeculativeStochastic]
  split
  · exact ended_same hv hs rfl _
  · next hd =>
    rw [if_neg hd] at hfit
    cases hdrafts : draftsOf e maxTokens acceptedCap eos s d accepted with
    | nil => exact ended_same hv hs rfl _
    | cons x xs =>
      rw [hdrafts] at hfit
      obtain ⟨h0, hx⟩ := hfit.valid x (List.mem_cons_self ..)
      have hroom := hfit.room (List.cons_ne_nil x xs)
      dsimp only
      rw [hs.logits, htable, judge]
      refine Draws.Coupled.bind_same (Draws.all_true _) fun b _ => ?_
      cases b with
      | true => exact verifyStochastic_coupled htable hs hv hquiet hfit (min_le_right ..)
      | false =>
        refine firstMiss_coupled hs hv hquiet h0 hx ?_ _
        rw [List.length_append, List.length_cons] at hroom
        rw [List.length_append, List.length_singleton]
        omega

/-- The tokens that a cycle appended. -/
def DsparkCycle.appended (c : List ℤ) (r : DsparkCycle κ ℝ) : List ℤ := r.session.checkpoint.drop c.length

/-- When nothing fails, every token that a cycle appends has the probability that the sampler gives it for the logits of the
tokens in front of it, the caps are kept, and the session is as after plain decoding. -/
theorem stochastic_distribution {g : Graph κ (Logits ℝ)} (hpos : ∀ x, 0 < e.expf x) (hmono : StrictMono e.expf)
    (hone : e.expf 0 = 1) (hargmax : ∀ l, e.sampleArgmax l < e.nVocab) (hs : Synced m s g) (hv : s.valid = true)
    (o : SampleOptions ℝ) (maxTokens acceptedCap eos : ℤ) (d : DsparkDraft) (accepted : List ℤ) :
    (ds4SessionEvalDsparkSpeculativeStochastic m e o maxTokens acceptedCap eos s d accepted ⟨g, []⟩).All (fun r =>
        ∃ ts, r.accepted = some (accepted ++ ts) ∧ r.session.checkpoint = s.checkpoint ++ ts ∧
          (ts = [] ∨ ((accepted ++ ts).length : ℤ) ≤ min maxTokens acceptedCap) ∧
          r.session.valid = true ∧ Synced m r.session r.world.graph) ∧
      ∀ c, ∃ probs, targetProbs e o (m.out (s.checkpoint ++ c)) = some probs ∧ ∀ x,
        (ds4SessionEvalDsparkSpeculativeStochastic m e o maxTokens acceptedCap eos s d accepted ⟨g, []⟩).prob
            {r | r.appended s.checkpoint ∈ goesOnWith c x} =
          (ds4SessionEvalDsparkSpeculativeStochastic m e o maxTokens acceptedCap eos s d accepted ⟨g, []⟩).prob
            {r | r.appended s.checkpoint ∈ goesOn c} * ENNReal.ofReal (tokenProb probs x) := by
  choose table htable using fun c => sampleBuildProbabilities_table hpos hmono hone (hargmax (m.out c)) (m.out c) o.temperature
    o.topK o.topP o.minP
  have hcoupled := stochastic_coupled (o := o) (w := ⟨g, []⟩) (fun c => (htable c).1) hs hv rfl maxTokens acceptedCap eos d
    accepted
  refine ⟨hcoupled.all.mono fun r hr => ?_, fun c => ⟨table (s.checkpoint ++ c), (htable _).1, fun x => ?_⟩⟩
  · obtain ⟨ts, hend⟩ := hr
    obtain ⟨hacc, hc⟩ := hend.appended trivial
    obtain ⟨hvalid, hsync, ts', heq, hc', hlen⟩ := hend.settled _ hacc
    have hts := List.append_cancel_left heq
    exact ⟨ts, hacc, hc, hts ▸ hlen, hvalid, hsync⟩
  · have hset : ∀ t : Set (List ℤ), ∀ r ts, Ended m (min maxTokens acceptedCap) s.checkpoint accepted ts True r →
        (r ∈ {r : DsparkCycle κ ℝ | r.appended s.checkpoint ∈ t} ↔ ts ∈ t) := fun t r ts hend => by
      have heq : r.appended s.checkpoint = ts := by
        rw [DsparkCycle.appended, (hend.appended trivial).2, List.drop_left]
      rw [Set.mem_ofPred_eq, heq]
    rw [hcoupled.prob (hset _), hcoupled.prob (hset _)]
    exact prob_judge (fun c => (htable c).2) (judgedDrafts_fit ..).valid c x

end

/-- Two tokens; the one that the parity of the length names is the more likely one. -/
def parityModel : Model (List ℤ) (Logits ℝ) ℤ where
  init := []
  step k t _ := k ++ [t]
  logits k := fun i => some (if i = k.length % 2 then 1 else 0)
  argmax _ := 0

noncomputable def expEngine : DsparkEngine ℝ := ⟨Real.exp, fun _ => 0, 2, 100, 4⟩

def paritySession : Session (Logits ℝ) ℤ := ⟨[], true, parityModel.out [], none⟩

def emptyGraph : Graph (List ℤ) (Logits ℝ) := ⟨[], [], fun _ => [], fun _ => parityModel.out [], parityModel.out []⟩

/-- Two drafts behind an empty checkpoint. -/
noncomputable def parityCycle : Draws ℝ (DsparkCycle (List ℤ) ℝ) :=
  ds4SessionEvalDsparkSpeculativeStochastic parityModel expEngine ⟨1, 0, 1, 0⟩ 8 8 (-1) paritySession ⟨true, true, [0, 1]⟩ [7]
    ⟨emptyGraph, []⟩

theorem stochastic_distribution_parity :
    parityCycle.All (fun r => ∃ ts, r.accepted = some ([7] ++ ts) ∧ r.session.checkpoint = paritySession.checkpoint ++ ts ∧
        (ts = [] ∨ (([7] ++ ts).length : ℤ) ≤ min 8 8) ∧
        r.session.valid = true ∧ Synced parityModel r.session r.world.graph) ∧
      ∀ c, ∃ probs, targetProbs expEngine ⟨1, 0, 1, 0⟩ (parityModel.out (paritySession.checkpoint ++ c)) = some probs ∧ ∀ x,
        parityCycle.prob {r | r.appended paritySession.checkpoint ∈ goesOnWith c x} =
          parityCycle.prob {r | r.appended paritySession.checkpoint ∈ goesOn c} * ENNReal.ofReal (tokenProb probs x) :=
  stochastic_distribution (m := parityModel) (e := expEngine) (s := paritySession) (g := emptyGraph) Real.exp_pos
    Real.exp_strictMono Real.exp_zero (fun _ => Nat.two_pos) ⟨rfl, rfl⟩ rfl ⟨1, 0, 1, 0⟩ 8 8 (-1) ⟨true, true, [0, 1]⟩ [7]

theorem stochastic_settles_parity :
    parityCycle.All (Ended parityModel (min 8 8) paritySession.checkpoint [7] [] False) :=
  stochastic_settles parityModel expEngine ⟨1, 0, 1, 0⟩ 8 8 (-1) (w := ⟨emptyGraph, []⟩) ⟨rfl, rfl⟩ rfl ⟨true, true, [0, 1]⟩ [7]

end Ds4.Engine
