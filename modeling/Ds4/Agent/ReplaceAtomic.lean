import Ds4.Agent.ReplaceVersion

/-!
# The replacement is atomic

What a whole run of `agent_replace_file` does to the target, and what it leaves behind.
-/

namespace Ds4.Agent.Replace
open C Vfs Fs

/-- The step installs the data as the target: over the version that was opened if no other process came between, or over
no file at all. -/
structure Installs (sys : System) (c : Call) (ts : List Transition) (t : Transition) : Prop where
  call : t.outcome ≠ none
  data : ∃ j, t.dst.fs.dir (sys.resolve c.path) = some j ∧ (t.dst.fs.file j).content = c.data
  replaces : ∃ l ∈ ts, l.outcome ≠ none ∧ l.src.pc = .lstat ∧
    (isAbsent sys c l.src.fs = true → t.src.fs.dir (sys.resolve c.path) = none) ∧
    (isAbsent sys c l.src.fs = false → ∀ ts₀ u, ts = ts₀ ++ [u] → u.outcome ≠ none →
      ∃ i f, OpenedAt ts (sys.resolve c.path) i ∧ StatedBy ts i f ∧ t.src.fs.dir (sys.resolve c.path) = some i ∧
        t.src.fs.file i = f.src.fs.file i ∧ ∀ e, c.expected = some e → (t.src.fs.file i).content = e)

/-- A step after the commit, which may take a name from the file that was installed. -/
def KeepsTarget (p : Path) (t : Transition) : Prop :=
  t.dst.fs.dir p = t.src.fs.dir p ∧ ∀ i, (t.dst.fs.file i).content = (t.src.fs.file i).content

def Transition.UnlinkFailed (t : Transition) : Prop :=
  (∃ e, t.outcome = some (.fail e)) ∧ (t.src.pc = .unlinkFirst ∨ t.src.pc = .unlinkLinked ∨ t.src.pc = .unlinkTemp)

/-- What is said of a run that has led to `s`. -/
structure Atomic (sys : System) (c : Call) (fs₀ : FileSystem) (ts : List Transition) (s : State) : Prop where
  /-- The target holds the data, or what was there at the start or comes from another process. -/
  whole : ∀ P : Bytes → Prop, (∀ p i, fs₀.dir p = some i → P (fs₀.file i).content) →
    (∀ t ∈ ts, t.outcome = none → Brings P t.src.fs t.dst.fs) →
    ∀ i, s.fs.dir (sys.resolve c.path) = some i → P (s.fs.file i).content ∨ (s.fs.file i).content = c.data
  unchanged : s.pc = .returned → s.rc ≠ 0 →
    ∀ t ∈ ts, t.outcome ≠ none → Same (sys.resolve c.path) t.src.fs t.dst.fs
  installed : s.pc = .returned → s.rc = 0 → ∃ ts₁ t ts₂, ts = ts₁ ++ t :: ts₂ ∧ Installs sys c ts₁ t ∧
    (∀ u ∈ ts₁, u.outcome ≠ none → Same (sys.resolve c.path) u.src.fs u.dst.fs) ∧
    ∀ u ∈ ts₂, u.outcome ≠ none → KeepsTarget (sys.resolve c.path) u
  /-- The name of every temporary file is taken away from it. -/
  removed : s.pc = .returned → (∀ t ∈ ts, ¬t.UnlinkFailed) → ∀ ts₁ t ts₂ i p, ts = ts₁ ++ t :: ts₂ →
    t.outcome ≠ none → t.dst.temp = some p → t.src.fs.dir p = none → t.dst.fs.dir p = some i →
    ∃ u ∈ ts₂, u.outcome ≠ none ∧ u.src.fs.dir p = some i ∧ u.dst.fs.dir p = none

section
variable {sys : System} {c : Call} {s s' : State} {o : Outcome} {fs fs₀ : FileSystem} {ts : List Transition}

/-! ## The commit -/

theorem Move.same_target (h : Move sys c s o s') (hphase : Phase c s) (hfresh : o.Fresh s.fs) (hnamed : Named sys c s)
    (hnamed' : Named sys c s') (hcommit : ¬Commits s') : Same (sys.resolve c.path) s.fs s'.fs :=
  h.same hphase hfresh hnamed.temp_ne hnamed'.temp_ne hcommit

/-- In front of the commit, and from it on. -/
def BeforeCommit (sys : System) (c : Call) (ts : List Transition) (s : State) : Prop :=
  ¬Commits s ∧ ∀ t ∈ ts, t.outcome ≠ none → Same (sys.resolve c.path) t.src.fs t.dst.fs

def AfterCommit (sys : System) (c : Call) (ts : List Transition) (s : State) : Prop :=
  (s.pc = .unlinkLinked ∨ s.rc = 0 ∧ s.temp = none ∧ s.pc.ending = true) ∧
    ∃ ts₁ t ts₂, ts = ts₁ ++ t :: ts₂ ∧ Installs sys c ts₁ t ∧
      (∀ u ∈ ts₁, u.outcome ≠ none → Same (sys.resolve c.path) u.src.fs u.dst.fs) ∧
      ∀ u ∈ ts₂, u.outcome ≠ none → KeepsTarget (sys.resolve c.path) u

/-- A step commits, or it is one of the others. -/
theorem Move.commit (h : Move sys c s o s') (hbefore : ¬Commits s) :
    ¬Commits s' ∨
      (∃ p i, s.pc = .rename ∧ s.temp = some p ∧ s.fs.dir p = some i ∧
        s' = { s with fs := s.fs.rename p s.target i, temp := none, rc := 0, pc := .closeFd }) ∨
      ∃ p i, s.pc = .link ∧ s.temp = some p ∧ s.fs.dir p = some i ∧ s.fs.dir s.target = none ∧
        s' = { s with fs := s.fs.link s.target i, pc := .unlinkLinked } := by
  have hrc : s.rc ≠ 0 := fun hrc => hbefore (.inl hrc)
  have hstill : ∀ {pc : Pc}, pc ≠ .unlinkLinked → ¬(s.rc = 0 ∨ pc = .unlinkLinked) := fun hpc h => h.elim hrc hpc
  have hwrite : ∀ {b pos pc}, WriteAt c b pos pc → pc ≠ .unlinkLinked := fun hnext => by
    obtain ⟨rfl, -⟩ | ⟨-, rfl⟩ := hnext
    · exact nofun
    · split
      · exact nofun
      · exact nofun
  have hread : ∀ {e pos pc}, ReadAt e pos pc → pc ≠ .unlinkLinked := fun hnext => by
    obtain rfl | ⟨rfl, -⟩ := hnext
    · exact nofun
    · exact nofun
  cases h with
  | again => exact .inl hbefore
  | stated i pc _ _ hnone hsome =>
    refine .inl (hstill ?_)
    cases he : c.expected with
    | none =>
      rw [hnone he]
      exact nofun
    | some e => exact hread (hsome e he).2
  | readMore _ _ _ _ _ _ _ _ _ hnext => exact .inl (hstill (hread hnext))
  | created _ _ _ _ _ _ hnext =>
    obtain ⟨-, rfl⟩ | ⟨-, hnext⟩ := hnext
    · exact .inl (hstill nofun)
    · exact .inl (hstill (hwrite hnext))
  | createdAgain _ _ _ _ _ _ _ _ hnext => exact .inl (hstill (hwrite hnext))
  | wrote _ _ _ _ _ _ _ hnext => exact .inl (hstill (hwrite hnext))
  | metadata _ _ _ _ _ hpc =>
    generalize s.pc = q at hpc
    cases hpc with
    | _ => exact .inl (hstill nofun)
  | onwards _ _ _ hpc =>
    generalize s.pc = q at hpc
    cases hpc with
    | close =>
      refine .inl (hstill ?_)
      split
      · exact nofun
      · exact nofun
    | _ => exact .inl (hstill nofun)
  | renamed p i hpc hp hi => exact .inr (.inl ⟨p, i, hpc, hp, hi, rfl⟩)
  | linked p i hpc hp hi hnone => exact .inr (.inr ⟨p, i, hpc, hp, hi, hnone, rfl⟩)
  | unlinkedLinked _ _ hpc => exact absurd (.inr hpc) hbefore
  | notUnlinkedLinked _ hpc => exact absurd (.inr hpc) hbefore
  | _ => exact .inl (hstill nofun)

theorem installs_rename {p : Path} {i : Ino} (hphase : Phase c s) (hversioned : Versioned c ts s) (hnoted : Noted sys c ts s)
    (haimed : Aimed sys c s) (hnamed : Named sys c s) (hpc : s.pc = .rename) (hp : s.temp = some p)
    (hi : s.fs.dir p = some i) :
    Installs sys c ts ⟨some .ok, s, { s with fs := s.fs.rename p s.target i, temp := none, rc := 0, pc := .closeFd }⟩ := by
  have htarget : s.target = sys.resolve c.path := haimed.target hpc nofun nofun rfl
  have hne : sys.resolve c.path ≠ p := fun heq => hnamed.temp_ne (heq ▸ hp)
  obtain ⟨l, hl, hcall, hlpc, hexists⟩ := hnoted.found hpc nofun rfl
  unfold Phase at hphase
  unfold Versioned at hversioned
  rw [hpc] at hphase hversioned
  obtain ⟨he, ⟨i', f, hseen, hcontent⟩, hlast⟩ := hversioned
  refine ⟨Option.some_ne_none _, ⟨i, ?_, ?_⟩, l, hl, hcall, hlpc, fun habsent => ?_, fun _ ts₀ u hts hu => ?_⟩
  · show (s.fs.rename p s.target i).dir _ = some i
    rw [htarget]
    exact rename_dir_target hne
  · show ((s.fs.rename p s.target i).file i).content = c.data
    rw [rename_content]
    exact (hphase.name_eq hp hi).2
  · rw [habsent, he] at hexists
    cases hexists
  · obtain ⟨j, hj, hsame⟩ := hlast ts₀ u hts hu
    obtain ⟨rfl, hfile⟩ := hseen.of_same hsame
    exact ⟨j, f, htarget ▸ hseen.opened, hseen.stated, htarget ▸ hj, hfile, fun e he => hfile ▸ hcontent e he hfile⟩

theorem installs_link {p : Path} {i : Ino} (hphase : Phase c s) (hversioned : Versioned c ts s) (hnoted : Noted sys c ts s)
    (haimed : Aimed sys c s) (hpc : s.pc = .link) (hp : s.temp = some p) (hi : s.fs.dir p = some i)
    (hnone : s.fs.dir s.target = none) :
    Installs sys c ts ⟨some .ok, s, { s with fs := s.fs.link s.target i, pc := .unlinkLinked }⟩ := by
  have htarget : s.target = sys.resolve c.path := haimed.target hpc nofun nofun rfl
  obtain ⟨l, hl, hcall, hlpc, hexists⟩ := hnoted.found hpc nofun rfl
  unfold Phase at hphase
  unfold Versioned at hversioned
  rw [hpc] at hphase hversioned
  refine ⟨Option.some_ne_none _, ⟨i, ?_, ?_⟩, l, hl, hcall, hlpc, fun _ => htarget ▸ hnone, fun hpresent => ?_⟩
  · show (s.fs.link s.target i).dir _ = some i
    rw [htarget]
    exact name_dir_self _
  · show ((s.fs.link s.target i).file i).content = c.data
    rw [link_content]
    exact (hphase.name_eq hp hi).2
  · rw [hpresent, hversioned] at hexists
    cases hexists

/-- After the commit the call takes a name from a file at most. -/
theorem Move.after (h : Move sys c s o s') (hs : s.pc = .unlinkLinked ∨ s.rc = 0 ∧ s.temp = none ∧ s.pc.ending = true) :
    (s'.rc = 0 ∧ s'.temp = none ∧ s'.pc.ending = true) ∧
      (s'.fs = s.fs ∨ ∃ p i, s.temp = some p ∧ s'.fs = s.fs.unlink p i) := by
  have hno : ∀ {q : Pc} {r : Prop}, s.pc = q → q ≠ .unlinkLinked → q.ending = false → r := fun hpc h1 h2 => by
    subst hpc
    cases hs with
    | inl hlinked => exact absurd hlinked h1
    | inr hend =>
      rw [h2] at hend
      cases hend.2.2
  have hend : ∀ {q : Pc}, s.pc = q → q ≠ .unlinkLinked → s.rc = 0 ∧ s.temp = none := fun hpc h1 => by
    subst hpc
    cases hs with
    | inl hlinked => exact absurd hlinked h1
    | inr hend => exact ⟨hend.1, hend.2.1⟩
  have hworking : ∀ {r : Prop}, s.pc.working = true → r := fun hw => by
    cases hq : s.pc with
    | unlinkLinked => rw [hq] at hw; cases hw
    | closeFd => rw [hq] at hw; cases hw
    | closeSrc => rw [hq] at hw; cases hw
    | unlinkTemp => rw [hq] at hw; cases hw
    | returned => rw [hq] at hw; cases hw
    | _ => exact hno hq nofun rfl
  cases h with
  | again _ _ hpc =>
    cases hpc with
    | inl hread => exact hno hread nofun rfl
    | inr hwrite => exact hno hwrite nofun rfl
  | stop _ _ _ _ hpc => exact hworking hpc
  | absentStop _ _ _ hpc => exact hno hpc nofun rfl
  | absent _ hpc => exact hno hpc nofun rfl
  | present hpc => exact hno hpc nofun rfl
  | resolved hpc => exact hno hpc nofun rfl
  | openedTarget _ hpc => exact hno hpc nofun rfl
  | stated _ _ hpc => exact hno hpc nofun rfl
  | readMore _ _ _ _ _ hpc => exact hno hpc nofun rfl
  | created _ _ _ hpc => exact hno hpc nofun rfl
  | unlinkedFirst _ _ hpc => exact hno hpc nofun rfl
  | closedFirst _ hpc => exact hno hpc nofun rfl
  | createdAgain _ _ _ _ _ hpc => exact hno hpc nofun rfl
  | notCreated _ _ hpc => exact hno hpc nofun rfl
  | wrote _ _ _ _ hpc => exact hno hpc nofun rfl
  | metadata _ _ _ _ _ hpc =>
    generalize hq : s.pc = q at hpc
    cases hpc with
    | _ => exact hno hq nofun rfl
  | onwards _ _ _ hpc =>
    generalize hq : s.pc = q at hpc
    cases hpc with
    | _ => exact hno hq nofun rfl
  | checked _ hpc => exact hno hpc nofun rfl
  | renamed _ _ hpc => exact hno hpc nofun rfl
  | linked _ _ hpc => exact hno hpc nofun rfl
  | unlinkedLinked p i _ hp => exact ⟨⟨rfl, rfl, rfl⟩, .inr ⟨p, i, hp, rfl⟩⟩
  | notUnlinkedLinked => exact ⟨⟨rfl, rfl, rfl⟩, .inl rfl⟩
  | closedFd _ hpc =>
    obtain ⟨hrc, htemp⟩ := hend hpc nofun
    exact ⟨⟨hrc, htemp, rfl⟩, .inl rfl⟩
  | closedSrc _ hpc =>
    obtain ⟨hrc, htemp⟩ := hend hpc nofun
    exact ⟨⟨hrc, htemp, rfl⟩, .inl rfl⟩
  | unlinkedTemp _ _ hpc hp =>
    obtain ⟨-, htemp⟩ := hend hpc nofun
    rw [htemp] at hp
    cases hp
  | notUnlinkedTemp _ hpc =>
    obtain ⟨hrc, htemp⟩ := hend hpc nofun
    exact ⟨⟨hrc, htemp, rfl⟩, .inl rfl⟩
  | noTemp hpc =>
    obtain ⟨hrc, htemp⟩ := hend hpc nofun
    exact ⟨⟨hrc, htemp, rfl⟩, .inl rfl⟩

theorem AfterCommit.move (h : AfterCommit sys c ts s) (hnamed : Named sys c s) (hm : Move sys c s o s') :
    AfterCommit sys c (ts ++ [⟨some o, s, s'⟩]) s' := by
  obtain ⟨hs, ts₁, t, ts₂, rfl, hinstalls, hbefore, hafter⟩ := h
  obtain ⟨hend, hfs⟩ := hm.after hs
  have hcut : (ts₁ ++ t :: ts₂) ++ [(⟨some o, s, s'⟩ : Transition)] = ts₁ ++ t :: (ts₂ ++ [⟨some o, s, s'⟩]) := by
    rw [List.append_assoc, List.cons_append]
  refine ⟨.inr hend, ts₁, t, _, hcut, hinstalls, hbefore, ?_⟩
  intro u hu hcall
  cases List.mem_append.mp hu with
  | inl hmem => exact hafter u hmem hcall
  | inr hlast =>
    obtain rfl := List.mem_singleton.mp hlast
    cases hfs with
    | inl hsame => exact ⟨congrArg (Fs.dir · _) hsame, fun i => congrArg (fun g : FileSystem => (g.file i).content) hsame⟩
    | inr hunlink =>
      obtain ⟨p, i, hp, hunlink⟩ := hunlink
      have hne : sys.resolve c.path ≠ p := fun heq => hnamed.temp_ne (heq ▸ hp)
      refine ⟨?_, fun j => ?_⟩
      · show s'.fs.dir _ = s.fs.dir _
        rw [hunlink]
        exact name_dir_of_ne _ hne
      · show (s'.fs.file j).content = (s.fs.file j).content
        rw [hunlink, unlink_content]

theorem run_commit (h : Run sys c LeavesTemp fs₀ ts s) : BeforeCommit sys c ts s ∨ AfterCommit sys c ts s := by
  induction h with
  | start => exact .inl ⟨nofun, fun t ht => absurd ht List.not_mem_nil⟩
  | @step ts s s' o hrun hstep ih =>
    have hphase := run_phase hrun
    have hnamed := run_named hrun
    cases hstep with
    | call hs hfresh =>
      have hm := callStep_move hs
      cases ih with
      | inr hafter => exact .inr (hafter.move hnamed hm)
      | inl hbefore =>
        obtain ⟨hcommit, hsame⟩ := hbefore
        obtain hnot | ⟨p, i, hpc, hp, hi, rfl⟩ | ⟨p, i, hpc, hp, hi, hnone, rfl⟩ := hm.commit hcommit
        · refine .inl ⟨hnot, fun t ht hcall => ?_⟩
          cases List.mem_append.mp ht with
          | inl hmem => exact hsame t hmem hcall
          | inr hlast =>
            obtain rfl := List.mem_singleton.mp hlast
            exact hm.same_target hphase hfresh hnamed (hnamed.move (run_aimed hrun) hm) hnot
        · refine .inr ⟨.inr ⟨rfl, rfl, rfl⟩, ts, _, [], rfl, ?_, hsame, fun u hu => absurd hu List.not_mem_nil⟩
          have hinstalls := installs_rename hphase (run_versioned hrun) (run_noted hrun) (run_aimed hrun) hnamed hpc hp hi
          exact ⟨Option.some_ne_none _, hinstalls.data, hinstalls.replaces⟩
        · refine .inr ⟨.inl rfl, ts, _, [], rfl, ?_, hsame, fun u hu => absurd hu List.not_mem_nil⟩
          have hinstalls := installs_link hphase (run_versioned hrun) (run_noted hrun) (run_aimed hrun) hpc hp hi hnone
          exact ⟨Option.some_ne_none _, hinstalls.data, hinstalls.replaces⟩
    | @other fs hpc hlater henv =>
      cases ih with
      | inl hbefore =>
        refine .inl ⟨hbefore.1, fun t ht hcall => ?_⟩
        cases List.mem_append.mp ht with
        | inl hmem => exact hbefore.2 t hmem hcall
        | inr hlast => exact absurd (congrArg Transition.outcome (List.mem_singleton.mp hlast)) hcall
      | inr hafter =>
        obtain ⟨hs, ts₁, t, ts₂, rfl, hinstalls, hbefore, hafter⟩ := hafter
        refine .inr ⟨hs, ts₁, t, ts₂ ++ [_], by rw [List.append_assoc, List.cons_append], hinstalls, hbefore, ?_⟩
        intro u hu hcall
        cases List.mem_append.mp hu with
        | inl hmem => exact hafter u hmem hcall
        | inr hlast => exact absurd (congrArg Transition.outcome (List.mem_singleton.mp hlast)) hcall

/-! ## What is left behind -/

/-- The name stands for the temporary file. -/
def Pending (s : State) (p : Path) (i : Ino) : Prop := s.pc ≠ .returned ∧ s.tempName = some p ∧ s.fs.dir p = some i

theorem Move.pending {p : Path} {i : Ino} (hphase : Phase c s) (hnamed : Named sys c s) (haimed : Aimed sys c s)
    (h : Move sys c s o s') (hpending : Pending s p i) :
    s'.fs.dir p = none ∨ Pending s' p i ∨ Transition.UnlinkFailed ⟨some o, s, s'⟩ := by
  obtain ⟨-, hname, hi⟩ := hpending
  have htemp : s.temp = some p := by
    unfold State.tempName at hname
    split at hname
    · cases hname
    · cases hname
    · exact hname
  have hunlink : ∀ {q j}, s.temp = some q → (s.fs.unlink q j).dir p = none := fun hq => by
    obtain rfl : p = _ := Option.some.inj (htemp.symm.trans hq)
    exact name_dir_self none
  have hno : ∀ {r : Prop}, s.temp = none → r := fun hnone => by
    rw [htemp] at hnone
    cases hnone
  have hgap : ∀ {r : Prop}, s.pc = .closeFirst ∨ s.pc = .openTemp → r := fun hpc => by
    unfold State.tempName at hname
    cases hpc with
    | inl hpc =>
      rw [hpc] at hname
      cases hname
    | inr hpc =>
      rw [hpc] at hname
      cases hname
  have hwrite : ∀ {fs : FileSystem} {b : Bool} {pos : Nat} {pc : Pc} {fd : Option Ino}, WriteAt c b pos pc →
      fs.dir p = some i → Pending { s with fs, fd, pc } p i := fun hnext hi => by
    obtain ⟨rfl, -⟩ | ⟨-, rfl⟩ := hnext
    · exact ⟨nofun, htemp, hi⟩
    · split
      · exact ⟨nofun, htemp, hi⟩
      · exact ⟨nofun, htemp, hi⟩
  unfold Phase at hphase
  cases h with
  | again _ pos hpc =>
    refine .inr (.inl ⟨fun hq => ?_, hname, hi⟩)
    rw [hq] at hpc
    cases hpc with
    | inl h => cases h
    | inr h => cases h
  | stop => exact .inr (.inl ⟨nofun, htemp, hi⟩)
  | absentStop => exact .inr (.inl ⟨nofun, htemp, hi⟩)
  | absent => exact .inr (.inl ⟨nofun, htemp, hi⟩)
  | present => exact .inr (.inl ⟨nofun, htemp, hi⟩)
  | resolved => exact .inr (.inl ⟨nofun, htemp, hi⟩)
  | openedTarget => exact .inr (.inl ⟨nofun, htemp, hi⟩)
  | stated _ _ hpc =>
    rw [hpc] at hphase
    exact hno hphase
  | readMore _ _ _ _ _ hpc =>
    rw [hpc] at hphase
    exact hno hphase
  | created _ _ _ hpc =>
    rw [hpc] at hphase
    exact hno hphase
  | unlinkedFirst q _ _ hq => exact .inl (hunlink hq)
  | closedFirst _ hpc => exact hgap (.inl hpc)
  | createdAgain _ _ _ _ _ hpc => exact hgap (.inr hpc)
  | notCreated _ _ hpc => exact hgap (.inr hpc)
  | wrote _ _ _ _ _ _ _ hnext => exact .inr (.inl (hwrite hnext hi))
  | metadata _ j f _ _ hpc =>
    generalize s.pc = q at hpc
    cases hpc with
    | _ => exact .inr (.inl ⟨nofun, htemp, hi⟩)
  | onwards _ _ _ hpc =>
    generalize s.pc = q at hpc
    refine .inr (.inl ?_)
    cases hpc with
    | fsync => exact ⟨nofun, htemp, hi⟩
    | close =>
      cases s.fileExists with
      | false => exact ⟨nofun, htemp, hi⟩
      | true => exact ⟨nofun, htemp, hi⟩
    | realpathAgain => exact ⟨nofun, htemp, hi⟩
  | checked => exact .inr (.inl ⟨nofun, htemp, hi⟩)
  | renamed q j hpc hq hj =>
    rw [hpc] at hphase
    obtain rfl : p = q := Option.some.inj (htemp.symm.trans hq)
    have htarget := haimed.target hpc nofun nofun rfl
    have honly := (hphase.name_eq hq hj).1
    exact .inl (rename_dir_source (honly.ne fun heq => hnamed.temp_ne (by rw [← htarget, heq]; exact hq)))
  | linked q j hpc hq hj hnone =>
    have hne : p ≠ s.target := fun heq => by
      rw [← heq, hi] at hnone
      cases hnone
    exact .inr (.inl ⟨nofun, htemp, (name_dir_of_ne _ hne).trans hi⟩)
  | unlinkedLinked _ _ _ hq => exact .inl (hunlink hq)
  | notUnlinkedLinked e hpc => exact .inr (.inr ⟨⟨e, rfl⟩, .inr (.inl hpc)⟩)
  | closedFd => exact .inr (.inl ⟨nofun, htemp, hi⟩)
  | closedSrc => exact .inr (.inl ⟨nofun, htemp, hi⟩)
  | unlinkedTemp _ _ _ hq => exact .inl (hunlink hq)
  | notUnlinkedTemp e hpc => exact .inr (.inr ⟨⟨e, rfl⟩, .inr (.inr hpc)⟩)
  | noTemp _ hq => exact hno hq

/-- A temporary name is given to a file by one of the two calls that create it. -/
theorem Move.gives {p : Path} {i : Ino} (h : Move sys c s o s') (htemp : s'.temp = some p) (hnone : s.fs.dir p = none)
    (hi : s'.fs.dir p = some i) : Pending s' p i := by
  have hno : ∀ {r : Prop}, s.fs.dir p = some i → r := fun hi => by
    rw [hnone] at hi
    cases hi
  have hunlink : ∀ {q j} {r : Prop}, (s.fs.unlink q j).dir p = some i → r := fun {q j} r hi => by
    by_cases hpq : p = q
    · rw [hpq, Fs.unlink, name_dir_self] at hi
      cases hi
    · rw [Fs.unlink, name_dir_of_ne _ hpq] at hi
      exact hno hi
  have hwrite : ∀ {s' : State} {b : Bool} {pos : Nat}, WriteAt c b pos s'.pc → s'.temp = some p → s'.fs.dir p = some i →
      Pending s' p i := fun {s' b pos} hnext htemp hi => by
    refine ⟨fun hq => ?_, ?_, hi⟩
    · rw [hq] at hnext
      obtain ⟨h, -⟩ | ⟨-, h⟩ := hnext
      · cases h
      · split at h
        · cases h
        · cases h
    · unfold State.tempName
      obtain ⟨h, -⟩ | ⟨-, h⟩ := hnext
      · rw [h]
        exact htemp
      · rw [h]
        cases b with
        | false => exact htemp
        | true => exact htemp
  cases h with
  | created suffix j pc hpc _ _ hnext =>
    obtain ⟨-, rfl⟩ | ⟨-, hnext⟩ := hnext
    · exact ⟨fun h => (by cases h), htemp, hi⟩
    · exact hwrite hnext htemp hi
  | createdAgain _ j q mode pc _ _ _ hnext => exact hwrite hnext htemp hi
  | unlinkedFirst => exact hunlink hi
  | unlinkedTemp => exact hunlink hi
  | renamed => cases htemp
  | unlinkedLinked => cases htemp
  | linked q j _ hq hj =>
    obtain rfl : q = p := Option.some.inj (hq.symm.trans htemp)
    rw [hnone] at hj
    cases hj
  | _ => exact hno hi

/-- Every temporary file still has its name, or has lost it by a step of the call. -/
def Accounted (ts : List Transition) (s : State) : Prop :=
  ∀ ts₁ t ts₂ i p, ts = ts₁ ++ t :: ts₂ → t.outcome ≠ none → t.dst.temp = some p → t.src.fs.dir p = none →
    t.dst.fs.dir p = some i →
    (∃ u ∈ ts₂, u.outcome ≠ none ∧ u.src.fs.dir p = some i ∧ u.dst.fs.dir p = none) ∨ Pending s p i ∨
      ∃ u ∈ ts, u.UnlinkFailed

/-- A list with one element more, cut at one of them. -/
theorem append_singleton_cut {α : Type} {l l₁ l₂ : List α} {x y : α} (h : l ++ [x] = l₁ ++ y :: l₂) :
    (l₂ = [] ∧ y = x ∧ l = l₁) ∨ ∃ l₃, l₂ = l₃ ++ [x] ∧ l = l₁ ++ y :: l₃ := by
  induction l₂ using List.reverseRecOn with
  | nil =>
    obtain ⟨hl, hx⟩ := List.append_inj' h rfl
    exact .inl ⟨rfl, (List.singleton_inj.mp hx).symm, hl⟩
  | append_singleton l₃ z _ =>
    rw [← List.cons_append, ← List.append_assoc] at h
    obtain ⟨hl, hx⟩ := List.append_inj' h rfl
    exact .inr ⟨l₃, by rw [List.singleton_inj.mp hx], hl⟩

theorem run_accounted (h : Run sys c LeavesTemp fs₀ ts s) : Accounted ts s := by
  induction h with
  | start => exact fun ts₁ t ts₂ i p hts => absurd hts.symm (List.append_ne_nil_of_right_ne_nil _ (List.cons_ne_nil _ _))
  | @step ts s s' o hrun hstep ih =>
    intro ts₁ t ts₂ i p hts hcall htemp hnone hi
    obtain ⟨rfl, rfl, rfl⟩ | ⟨ts₃, rfl, rfl⟩ := append_singleton_cut hts
    · cases hstep with
      | call hs _ => exact .inr (.inl ((callStep_move hs).gives htemp hnone hi))
      | other => exact absurd rfl hcall
    · obtain ⟨u, hu, hrest⟩ | hpending | ⟨u, hu, hfailed⟩ := ih ts₁ t ts₃ i p rfl hcall htemp hnone hi
      · exact .inl ⟨u, List.mem_append_left _ hu, hrest⟩
      · have hlast : ∀ {u : Transition} {l : List Transition}, u ∈ l ++ [u] :=
          List.mem_append_right _ (List.mem_singleton.mpr rfl)
        cases hstep with
        | call hs _ =>
          obtain hgone | hpending' | hfailed := (callStep_move hs).pending (run_phase hrun) (run_named hrun) (run_aimed hrun)
            hpending
          · exact .inl ⟨_, hlast, Option.some_ne_none _, hpending.2.2, hgone⟩
          · exact .inr (.inl hpending')
          · exact .inr (.inr ⟨_, hlast, hfailed⟩)
        | other _ _ henv => exact .inr (.inl ⟨hpending.1, hpending.2.1, (henv p hpending.2.1 i hpending.2.2).1⟩)
      · exact .inr (.inr ⟨u, List.mem_append_left _ hu, hfailed⟩)

/-! ## The whole run -/

/-- In every run in which other processes leave the temporary name alone. -/
theorem agentReplaceFile_atomic (h : Run sys c LeavesTemp fs₀ ts s) : Atomic sys c fs₀ ts s where
  whole P hstart hothers i hi := by
    have hwhole : Whole (fun d => P d ∨ d = c.data) s := by
      refine run_whole (.inr rfl) h (fun p i _ hi => .inl (hstart p i hi)) fun t ht hnone m j hj => ?_
      cases hothers t ht hnone m j hj with
      | inl hp => exact .inl (.inl hp)
      | inr hold => exact .inr hold
    refine hwhole (sys.resolve c.path) i (fun hp => (run_named h).temp_ne ?_) hi
    unfold State.privateName at hp
    split at hp
    · cases hp
    · cases hp
    · cases hp
    · exact hp
  unchanged hpc hrc t ht hcall := by
    cases run_commit h with
    | inl hbefore => exact hbefore.2 t ht hcall
    | inr hafter =>
      cases hafter.1 with
      | inl hlinked =>
        rw [hpc] at hlinked
        cases hlinked
      | inr hend => exact absurd hend.1 hrc
  installed hpc hrc := by
    cases run_commit h with
    | inl hbefore => exact absurd (.inl hrc) hbefore.1
    | inr hafter => exact hafter.2
  removed hpc hunlinks ts₁ t ts₂ i p hts hcall htemp hnone hi := by
    obtain hgone | hpending | ⟨u, hu, hfailed⟩ := run_accounted h ts₁ t ts₂ i p hts hcall htemp hnone hi
    · exact hgone
    · exact absurd hpc hpending.1
    · exact absurd hfailed (hunlinks u hu)

end

/-! ## Runs -/

def emptyFs : FileSystem := ⟨fun _ => none, fun _ => ⟨[], true, 0, 0, 0, 0, 0, 0⟩, 0, fun _ => Nat.le_refl 0⟩

def plainSystem : System := ⟨id, fun _ => rfl, fun _ => [], 0, 0, 0o022⟩

/-- The text `x` for a new file `a`. -/
def newFile : Call := ⟨lit "a", lit "x", none⟩

theorem newFile_run : ∃ ts s, Run plainSystem newFile LeavesTemp emptyFs ts s ∧ s.pc = .returned ∧ s.rc = 0 := by
  have h0 : Run plainSystem newFile LeavesTemp emptyFs [] (.start emptyFs) := .start
  have h1 := h0.step (.call (o := .fail enoent) rfl trivial)
  have h2 := h1.step (.call (o := .made (lit "000000") ⟨0, 1⟩) rfl fun _ => nofun)
  have h3 := h2.step (.call (o := .ok) rfl trivial)
  have h4 := h3.step (.call (o := .ok) rfl trivial)
  have h5 := h4.step (.call (o := .made [] ⟨0, 2⟩) rfl fun p hp => by
    -- the first temporary file has lost its name
    by_cases h : p = tempName (lit "a") (lit "000000")
    · rw [h] at hp
      exact nomatch (name_dir_self none).symm.trans hp
    · exact nomatch ((name_dir_of_ne none h).symm.trans hp).symm.trans (name_dir_of_ne (some (⟨0, 1⟩ : Ino)) h))
  have h6 := h5.step (.call (o := .count 1) rfl trivial)
  have h7 := h6.step (.call (o := .ok) rfl trivial)
  have h8 := h7.step (.call (o := .ok) rfl trivial)
  have h9 := h8.step (.call (o := .ok) rfl trivial)
  have h10 := h9.step (.call (o := .ok) rfl trivial)
  have h11 := h10.step (.call (o := .ok) rfl trivial)
  have h12 := h11.step (.call (o := .ok) rfl trivial)
  have h13 := h12.step (.call (o := .ok) rfl trivial)
  exact ⟨_, _, h13, rfl, rfl⟩

theorem agentReplaceFile_atomic_newFile :
    ∃ ts s, s.pc = .returned ∧ s.rc = 0 ∧ Atomic plainSystem newFile emptyFs ts s := by
  obtain ⟨ts, s, hrun, hpc, hrc⟩ := newFile_run
  exact ⟨ts, s, hpc, hrc, agentReplaceFile_atomic hrun⟩

theorem newFile_created : ∃ ts s, Run plainSystem newFile (fun _ _ => True) emptyFs ts s ∧ s.pc ≠ .returned ∧
    s.fs.dir (tempName (lit "a") (lit "000000")) = some ⟨0, 1⟩ ∧ (s.fs.file ⟨0, 1⟩).content = [] ∧
    ∀ t ∈ ts, t.outcome ≠ none := by
  have h0 : Run plainSystem newFile (fun _ _ => True) emptyFs [] (.start emptyFs) := .start
  have h1 := h0.step (.call (o := .fail enoent) rfl trivial)
  have h2 := h1.step (.call (o := .made (lit "000000") ⟨0, 1⟩) rfl fun _ => nofun)
  refine ⟨_, _, h2, nofun, rfl, rfl, fun t ht hnone => ?_⟩
  cases List.mem_append.mp ht with
  | inl hmem =>
    rw [List.mem_singleton.mp hmem] at hnone
    cases hnone
  | inr hmem =>
    rw [List.mem_singleton.mp hmem] at hnone
    cases hnone

/-- Another process makes the empty temporary file the target. -/
theorem agentReplaceFile_renamed_temp :
    ¬ ∀ sys c fs₀ ts s, Run sys c (fun _ _ => True) fs₀ ts s → Atomic sys c fs₀ ts s := by
  intro hall
  obtain ⟨ts, s, hrun, hpc, hdir, hcontent, hcalls⟩ := newFile_created
  have hlater : s.fs.Later (s.fs.rename (tempName (lit "a") (lit "000000")) (lit "a") ⟨0, 1⟩) := later_rename
  have hrenamed := hrun.step (.other hpc hlater trivial)
  have hwhole := (hall _ _ _ _ _ hrenamed).whole (fun _ => False) (fun _ _ => nofun) fun t ht hnone => by
    cases List.mem_append.mp ht with
    | inl hmem => exact absurd hnone (hcalls t hmem)
    | inr hlast =>
      rw [List.mem_singleton.mp hlast]
      exact brings_rename hdir
  have htarget : (s.fs.rename (tempName (lit "a") (lit "000000")) (lit "a") ⟨0, 1⟩).dir (lit "a") = some ⟨0, 1⟩ :=
    rename_dir_target (by decide)
  cases hwhole ⟨0, 1⟩ htarget with
  | inl h => exact h
  | inr h => exact nomatch (hcontent.symm.trans (rename_content _).symm).trans h

end Ds4.Agent.Replace
