import Ds4.Agent.ReplaceRun

/-!
# Versions of the target

A file with the version that `fstat` read is the file that was opened, with the content that was read.
-/

namespace Ds4.Agent.Replace
open C Vfs Fs

section
variable {sys : System} {c : Call} {s s' : State} {o : Outcome} {env : State → FileSystem → Prop} {fs fs₀ : FileSystem}
  {ts ts' : List Transition} {i : Ino} {f : Transition}

/-! ## The version that was opened -/

/-- The call has opened the file as the target. -/
def OpenedAt (ts : List Transition) (target : Path) (i : Ino) : Prop :=
  ∃ t ∈ ts, t.outcome ≠ none ∧ t.src.pc = .openTarget ∧ t.src.fs.dir target = some i

/-- The transition by `fstat`, which read the version of the file. -/
structure StatedBy (ts : List Transition) (i : Ino) (f : Transition) : Prop where
  mem : f ∈ ts
  call : f.outcome ≠ none
  pc : f.src.pc = .fstat
  src : f.src.src = some i

structure Seen (ts : List Transition) (s : State) (i : Ino) (f : Transition) : Prop where
  opened : OpenedAt ts s.target i
  stated : StatedBy ts i f
  src : s.src = some i
  before : s.before = statOf f.src.fs i
  later : f.src.fs.Later s.fs

/-- The file had the expected content if it is still the same. -/
def Ready (c : Call) (ts : List Transition) (s : State) : Prop :=
  ∃ i f, Seen ts s i f ∧ ∀ e, c.expected = some e → s.fs.file i = f.src.fs.file i → (f.src.fs.file i).content = e

def Reading (c : Call) (ts : List Transition) (s : State) (pos : Nat) : Prop :=
  ∃ i f e, Seen ts s i f ∧ c.expected = some e ∧ (f.src.fs.file i).content.length = e.length ∧
    (s.fs.file i = f.src.fs.file i → (f.src.fs.file i).content.take pos = e.take pos)

/-- The target has the version that was opened. -/
def Unmodified (s : State) : Prop :=
  ∃ j, s.fs.dir s.target = some j ∧ agentSameFileVersion s.before (statOf s.fs j) = true

def Versioned (c : Call) (ts : List Transition) (s : State) : Prop :=
  match s.pc with
  | .lstat | .realpath | .openTarget | .unlinkLinked | .closeFd | .closeSrc | .unlinkTemp | .returned => True
  | .fstat => ∃ i, s.src = some i ∧ OpenedAt ts s.target i
  | .read pos => Reading c ts s pos
  | .realpathAgain | .stat => s.fileExists = true ∧ Ready c ts s
  | .rename => s.fileExists = true ∧ Ready c ts s ∧ ∀ ts₀ u, ts = ts₀ ++ [u] → u.outcome ≠ none → Unmodified s
  | .link => s.fileExists = false
  | _ => s.fileExists = true → Ready c ts s

theorem OpenedAt.mono {target : Path} (h : OpenedAt ts target i) (hts : ts ⊆ ts') : OpenedAt ts' target i := by
  obtain ⟨t, ht, hrest⟩ := h
  exact ⟨t, hts ht, hrest⟩

theorem StatedBy.mono (h : StatedBy ts i f) (hts : ts ⊆ ts') : StatedBy ts' i f := ⟨hts h.mem, h.call, h.pc, h.src⟩

/-- A file that is the old one has been it all the time. -/
theorem Seen.file_back (h : Seen ts s i f) (hlater : s.fs.Later fs) (heq : fs.file i = f.src.fs.file i) :
    s.fs.file i = f.src.fs.file i := by
  have hold : (fs.file i).ctim ≤ s.fs.now := heq ▸ (f.src.fs.stamped i).trans h.later.now
  exact (hlater.file_eq hold).symm.trans heq

theorem Seen.step (h : Seen ts s i f) (hts : ts ⊆ ts') (hlater : s.fs.Later s'.fs) (hsrc : s'.src = s.src)
    (hbefore : s'.before = s.before) (htarget : s'.target = s.target) : Seen ts' s' i f where
  opened := htarget ▸ h.opened.mono hts
  stated := h.stated.mono hts
  src := hsrc.trans h.src
  before := hbefore.trans h.before
  later := h.later.trans hlater

theorem Ready.step (h : Ready c ts s) (hts : ts ⊆ ts') (hlater : s.fs.Later s'.fs) (hsrc : s'.src = s.src)
    (hbefore : s'.before = s.before) (htarget : s'.target = s.target) : Ready c ts' s' := by
  obtain ⟨i, f, hseen, hcontent⟩ := h
  exact ⟨i, f, hseen.step hts hlater hsrc hbefore htarget, fun e he heq => hcontent e he (hseen.file_back hlater heq)⟩

theorem Reading.step {pos : Nat} (h : Reading c ts s pos) (hts : ts ⊆ ts') (hlater : s.fs.Later s'.fs) (hsrc : s'.src = s.src)
    (hbefore : s'.before = s.before) (htarget : s'.target = s.target) : Reading c ts' s' pos := by
  obtain ⟨i, f, e, hseen, he, hlen, hcontent⟩ := h
  exact ⟨i, f, e, hseen.step hts hlater hsrc hbefore htarget, he, hlen, fun heq => hcontent (hseen.file_back hlater heq)⟩

/-- A file with the version that was read is the file that was opened. -/
theorem Seen.of_same {j : Ino} (h : Seen ts s i f) (hsame : agentSameFileVersion s.before (statOf s.fs j) = true) :
    j = i ∧ s.fs.file i = f.src.fs.file i := by
  rw [h.before, agentSameFileVersion] at hsame
  simp only [Bool.and_eq_true, beq_iff_eq] at hsame
  obtain ⟨⟨⟨⟨⟨hdev, hino⟩, -⟩, -⟩, -⟩, hctim⟩ := hsame
  have hij : i = j := by
    cases i
    cases j
    exact congrArg₂ Ino.mk hdev hino
  subst hij
  have hold : (s.fs.file i).ctim ≤ f.src.fs.now := by
    have hle := f.src.fs.stamped i
    rw [show (f.src.fs.file i).ctim = (s.fs.file i).ctim from hctim] at hle
    exact hle
  exact ⟨rfl, h.later.file_eq hold⟩

/-! ## The steps -/

theorem take_of_read {content e : Bytes} {pos n : Nat} (hprev : content.take pos = e.take pos)
    (heq : (content.drop pos).take n = (e.drop pos).take n) : content.take (pos + n) = e.take (pos + n) := by
  rw [List.take_add, List.take_add, hprev, heq]

/-- The loop over the expected content goes on or is over. -/
theorem versioned_read {pos : Nat} {e : Bytes} (h : Reading c ts s pos) (he : c.expected = some e)
    (hnext : ReadAt e pos s.pc) : Versioned c ts s := by
  unfold Versioned
  obtain hpc | ⟨hpc, hend⟩ := hnext
  · rw [hpc]
    exact h
  · rw [hpc]
    intro _
    obtain ⟨i, f, e', hseen, he', hlen, hcontent⟩ := h
    obtain rfl : e = e' := Option.some.inj (he.symm.trans he')
    refine ⟨i, f, hseen, fun e' he' heq => ?_⟩
    obtain rfl : e = e' := Option.some.inj (he.symm.trans he')
    have htake := hcontent heq
    rwa [List.take_of_length_le hend, List.take_of_length_le (hlen ▸ hend)] at htake

theorem versioned_write {b : Bool} {pos : Nat} (h : s.fileExists = true → Ready c ts s) (hnext : WriteAt c b pos s.pc) :
    Versioned c ts s := by
  unfold Versioned
  obtain ⟨hpc, -⟩ | ⟨-, hpc⟩ := hnext
  · rw [hpc]
    exact h
  · rw [hpc]
    cases b with
    | false => exact h
    | true => exact h

theorem Versioned.move (h : Versioned c ts s) (hm : Move sys c s o s') : Versioned c (ts ++ [⟨some o, s, s'⟩]) s' := by
  have hts : ts ⊆ ts ++ [⟨some o, s, s'⟩] := List.subset_append_left ..
  have hmem : (⟨some o, s, s'⟩ : Transition) ∈ ts ++ [⟨some o, s, s'⟩] :=
    List.mem_append_right _ (List.mem_singleton.mpr rfl)
  have hcall : (⟨some o, s, s'⟩ : Transition).outcome ≠ none := Option.some_ne_none o
  have hlater := hm.later
  unfold Versioned at h
  cases hm with
  | again _ pos hpc =>
    cases hpc with
    | inl hread =>
      rw [hread] at h
      have hnew := h.step hts (.refl _) rfl rfl rfl
      unfold Versioned
      rw [hread]
      exact hnew
    | inr hwrite =>
      rw [hwrite] at h
      have hnew : s.fileExists = true → Ready c _ s := fun he => (h he).step hts (.refl _) rfl rfl rfl
      unfold Versioned
      rw [hwrite]
      exact hnew
  | stop => trivial
  | absentStop => trivial
  | absent => exact fun he => absurd he Bool.false_ne_true
  | present => trivial
  | resolved => trivial
  | openedTarget i hpc hi => exact ⟨i, rfl, _, hmem, hcall, hpc, hi⟩
  | stated i pc hpc hi hnone hsome =>
    rw [hpc] at h
    obtain ⟨i', hi', hopened⟩ := h
    obtain rfl : i = i' := Option.some.inj (hi.symm.trans hi')
    have hseen : Seen (ts ++ [⟨some .ok, s, { s with before := statOf s.fs i, pc }⟩])
        { s with before := statOf s.fs i, pc } i ⟨some .ok, s, { s with before := statOf s.fs i, pc }⟩ :=
      ⟨hopened.mono hts, ⟨hmem, hcall, hpc, hi⟩, hi, rfl, .refl _⟩
    cases he : c.expected with
    | none =>
      obtain rfl := hnone he
      exact fun _ => ⟨i, _, hseen, fun e hsome => absurd (he.symm.trans hsome) (Option.some_ne_none e).symm⟩
    | some e =>
      obtain ⟨hlen, hread⟩ := hsome e he
      have hreading : Reading c (ts ++ [⟨some .ok, s, { s with before := statOf s.fs i, pc }⟩])
          { s with before := statOf s.fs i, pc } 0 :=
        ⟨i, _, e, hseen, he, hlen, fun _ => by rw [List.take_zero, List.take_zero]⟩
      exact versioned_read hreading he hread
  | readMore pos n i e pc hpc hi he heq hnext =>
    rw [hpc] at h
    obtain ⟨i', f, e', hseen, he', hlen, hcontent⟩ := h
    obtain rfl : i = i' := Option.some.inj (hi.symm.trans hseen.src)
    obtain rfl : e = e' := Option.some.inj (he.symm.trans he')
    have hreading : Reading c (ts ++ [⟨some (.count n), s, { s with pc }⟩]) { s with pc } (pos + n) :=
      ⟨i, f, e, hseen.step hts (.refl _) rfl rfl rfl, he, hlen, fun hsame =>
        take_of_read (hcontent hsame) (by rw [← hsame]; exact heq)⟩
    exact versioned_read hreading he hnext
  | created suffix i pc hpc _ _ hnext =>
    rw [hpc] at h
    obtain ⟨-, rfl⟩ | ⟨-, hwrite⟩ := hnext
    · exact fun he => (h he).step hts hlater rfl rfl rfl
    · refine versioned_write ?_ hwrite
      exact fun he => (h he).step hts hlater rfl rfl rfl
  | unlinkedFirst p i hpc =>
    rw [hpc] at h
    exact fun he => (h he).step hts hlater rfl rfl rfl
  | closedFirst _ hpc =>
    rw [hpc] at h
    exact fun he => (h he).step hts hlater rfl rfl rfl
  | createdAgain _ i p mode pc hpc _ _ hnext =>
    rw [hpc] at h
    refine versioned_write ?_ hnext
    exact fun he => (h he).step hts hlater rfl rfl rfl
  | notCreated => trivial
  | wrote pos n i pc hpc _ _ hnext =>
    rw [hpc] at h
    refine versioned_write ?_ hnext
    exact fun he => (h he).step hts hlater rfl rfl rfl
  | metadata _ i f err pc hpc =>
    generalize s.pc = q at h hpc
    cases hpc with
    | fchown => exact fun he => (h he).step hts hlater rfl rfl rfl
    | fchmod => exact fun he => (h he).step hts hlater rfl rfl rfl
    | copyXattrs => exact fun he => (h he).step hts hlater rfl rfl rfl
    | copyXattrsFails => trivial
  | onwards _ fd pc hpc =>
    generalize s.pc = q at h hpc
    cases hpc with
    | fsync => exact fun he => (h he).step hts hlater rfl rfl rfl
    | close =>
      generalize ts ++ [_] = ts' at hts ⊢
      unfold Versioned
      dsimp only
      cases he : s.fileExists with
      | false => exact rfl
      | true => exact ⟨rfl, (h he).step hts hlater rfl rfl rfl⟩
    | realpathAgain => exact ⟨h.1, h.2.step hts hlater rfl rfl rfl⟩
  | checked i hpc hi hsame =>
    rw [hpc] at h
    exact ⟨h.1, h.2.step hts hlater rfl rfl rfl, fun _ _ _ _ => ⟨i, hi, hsame⟩⟩
  | renamed => trivial
  | linked => trivial
  | unlinkedLinked => trivial
  | notUnlinkedLinked => trivial
  | closedFd => trivial
  | closedSrc => trivial
  | unlinkedTemp => trivial
  | notUnlinkedTemp => trivial
  | noTemp => trivial

theorem Versioned.other (h : Versioned c ts s) (hlater : s.fs.Later fs) :
    Versioned c (ts ++ [⟨none, s, { s with fs }⟩]) { s with fs } := by
  have hts : ts ⊆ ts ++ [⟨none, s, { s with fs }⟩] := List.subset_append_left ..
  unfold Versioned at h ⊢
  dsimp only
  split at h
  · exact h
  · exact h
  · exact h
  · exact h
  · exact h
  · exact h
  · exact h
  · exact h
  · obtain ⟨i, hi, hopened⟩ := h
    exact ⟨i, hi, hopened.mono hts⟩
  · exact h.step hts hlater rfl rfl rfl
  · exact ⟨h.1, h.2.step hts hlater rfl rfl rfl⟩
  · exact ⟨h.1, h.2.step hts hlater rfl rfl rfl⟩
  · refine ⟨h.1, h.2.1.step hts hlater rfl rfl rfl, fun ts₀ u hlast hcall => ?_⟩
    -- the last step is not the call's
    have hu : (⟨none, s, { s with fs }⟩ : Transition) = u := by
      have hinj := (List.append_inj' hlast rfl).2
      exact List.singleton_inj.mp hinj
    exact absurd (congrArg Transition.outcome hu).symm hcall
  · exact h
  · exact fun he => (h he).step hts hlater rfl rfl rfl

theorem run_versioned (h : Run sys c env fs₀ ts s) : Versioned c ts s := by
  induction h with
  | start => trivial
  | step _ hstep ih =>
    cases hstep with
    | call hs _ => exact ih.move (callStep_move hs)
    | other _ hlater => exact ih.other hlater

/-! ## Whether there was a file -/

/-- What `lstat` has found. -/
def Noted (sys : System) (c : Call) (ts : List Transition) (s : State) : Prop :=
  s.pc = .lstat ∨ s.pc.ending = true ∨
    ∃ l ∈ ts, l.outcome ≠ none ∧ l.src.pc = .lstat ∧ s.fileExists = !isAbsent sys c l.src.fs

theorem Noted.found {q : Pc} (h : Noted sys c ts s) (hpc : s.pc = q) (h1 : q ≠ .lstat) (h2 : q.ending = false) :
    ∃ l ∈ ts, l.outcome ≠ none ∧ l.src.pc = .lstat ∧ s.fileExists = !isAbsent sys c l.src.fs := by
  subst hpc
  obtain h | h | h := h
  · exact absurd h h1
  · rw [h2] at h
    cases h
  · exact h

theorem Noted.move (h : Noted sys c ts s) (hm : Move sys c s o s') : Noted sys c (ts ++ [⟨some o, s, s'⟩]) s' := by
  have hts : ts ⊆ ts ++ [⟨some o, s, s'⟩] := List.subset_append_left ..
  have hlast : (⟨some o, s, s'⟩ : Transition) ∈ ts ++ [⟨some o, s, s'⟩] :=
    List.mem_append_right _ (List.mem_singleton.mpr rfl)
  have hsame : ∀ {q : Pc} {s'' : State}, s.pc = q → q ≠ .lstat → q.ending = false → s''.fileExists = s.fileExists →
      Noted sys c (ts ++ [⟨some o, s, s'⟩]) s'' := fun hpc h1 h2 he => by
    obtain ⟨l, hl, hrest⟩ := h.found hpc h1 h2
    exact .inr (.inr ⟨l, hts hl, he ▸ hrest⟩)
  cases hm with
  | again _ _ hpc =>
    cases hpc with
    | inl hread => exact hsame hread nofun rfl rfl
    | inr hwrite => exact hsame hwrite nofun rfl rfl
  | stop => exact .inr (.inl rfl)
  | absentStop => exact .inr (.inl rfl)
  | absent _ hpc habsent => exact .inr (.inr ⟨_, hlast, Option.some_ne_none _, hpc, by rw [habsent]; rfl⟩)
  | present hpc hpresent => exact .inr (.inr ⟨_, hlast, Option.some_ne_none _, hpc, by rw [hpresent]; rfl⟩)
  | resolved hpc => exact hsame hpc nofun rfl rfl
  | openedTarget _ hpc => exact hsame hpc nofun rfl rfl
  | stated _ _ hpc => exact hsame hpc nofun rfl rfl
  | readMore _ _ _ _ _ hpc => exact hsame hpc nofun rfl rfl
  | created _ _ _ hpc => exact hsame hpc nofun rfl rfl
  | unlinkedFirst _ _ hpc => exact hsame hpc nofun rfl rfl
  | closedFirst _ hpc => exact hsame hpc nofun rfl rfl
  | createdAgain _ _ _ _ _ hpc => exact hsame hpc nofun rfl rfl
  | notCreated => exact .inr (.inl rfl)
  | wrote _ _ _ _ hpc => exact hsame hpc nofun rfl rfl
  | metadata _ _ _ _ _ hpc =>
    generalize hq : s.pc = q at hpc
    cases hpc with
    | _ => exact hsame hq nofun rfl rfl
  | onwards _ _ _ hpc =>
    generalize hq : s.pc = q at hpc
    cases hpc with
    | _ => exact hsame hq nofun rfl rfl
  | checked _ hpc => exact hsame hpc nofun rfl rfl
  | renamed => exact .inr (.inl rfl)
  | linked _ _ hpc => exact hsame hpc nofun rfl rfl
  | unlinkedLinked => exact .inr (.inl rfl)
  | notUnlinkedLinked => exact .inr (.inl rfl)
  | closedFd => exact .inr (.inl rfl)
  | closedSrc => exact .inr (.inl rfl)
  | unlinkedTemp => exact .inr (.inl rfl)
  | notUnlinkedTemp => exact .inr (.inl rfl)
  | noTemp => exact .inr (.inl rfl)

theorem run_noted (h : Run sys c env fs₀ ts s) : Noted sys c ts s := by
  induction h with
  | start => exact .inl rfl
  | step _ hstep ih =>
    cases hstep with
    | call hs _ => exact ih.move (callStep_move hs)
    | other =>
      obtain h | h | ⟨l, hl, hrest⟩ := ih
      · exact .inl h
      · exact .inr (.inl h)
      · exact .inr (.inr ⟨l, List.mem_append_left _ hl, hrest⟩)

end

end Ds4.Agent.Replace
