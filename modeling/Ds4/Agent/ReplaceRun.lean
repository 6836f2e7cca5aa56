import Mathlib.Data.List.TakeDrop
import Ds4.Agent.ReplaceMove

/-!
# Invariants of the replacement

The temporary file has one name and holds what has been written so far, as long as other processes leave this name alone.
-/

namespace Ds4.Agent.Replace
open C Vfs Fs

/-- The name of a file of the call. -/
def State.tempName (s : State) : Option Path :=
  match s.pc with
  | .closeFirst | .openTemp => none
  | _ => s.temp

/-- Other processes do not use the temporary name while it stands for a file of the call. -/
def LeavesTemp (s : State) (fs : FileSystem) : Prop := ∀ p, s.tempName = some p → LeavesAlone p s.fs fs

section
variable {sys : System} {c : Call} {s s' : State} {o : Outcome} {d : Bytes} {env : State → FileSystem → Prop}
  {fs fs₀ : FileSystem} {ts : List Transition}

/-! ## Time -/

theorem Move.later (h : Move sys c s o s') : s.fs.Later s'.fs := by
  cases h with
  | created => exact later_create ..
  | createdAgain => exact later_create ..
  | unlinkedFirst => exact later_unlink
  | unlinkedLinked => exact later_unlink
  | unlinkedTemp => exact later_unlink
  | wrote => exact later_write ..
  | metadata => exact later_set
  | renamed => exact later_rename
  | linked => exact later_link
  | _ => exact .refl _

/-! ## The temporary file -/

/-- The temporary file has one name and the content `d`. -/
def Own (s : State) (d : Bytes) : Prop :=
  ∃ p i, s.temp = some p ∧ s.fs.Only p i ∧ (s.fs.file i).content = d ∧ (s.fd = none ∨ s.fd = some i)

def Phase (c : Call) (s : State) : Prop :=
  match s.pc with
  | .lstat | .realpath | .openTarget | .fstat | .read _ | .mkstemp => s.temp = none
  | .unlinkFirst => Own s []
  | .closeFirst | .openTemp => ∃ p, s.temp = some p
  | .write pos => pos < c.data.length ∧ Own s (c.data.take pos)
  | .unlinkLinked => ∃ p i, s.temp = some p ∧ s.fs.dir p = some i
  | .closeFd | .closeSrc | .unlinkTemp => s.temp = none ∨ ∃ d, Own s d
  | .returned => True
  | _ => Own s c.data

theorem Own.other (h : Own s d) (hl : LeavesTemp s fs) (htemp : s.tempName = s.temp) : Own { s with fs } d := by
  obtain ⟨p, i, hp, honly, hd, hfd⟩ := h
  obtain ⟨hfile, honly'⟩ := (hl p (htemp.trans hp) i honly.1).2 honly
  exact ⟨p, i, hp, honly', (congrArg File.content hfile).trans hd, hfd⟩

/-- The descriptor is the one of the temporary file. -/
theorem Own.fd_eq {i : Ino} (h : Own s d) (hi : s.fd = some i) :
    ∃ p, s.temp = some p ∧ s.fs.Only p i ∧ (s.fs.file i).content = d := by
  obtain ⟨p, j, hp, honly, hd, hfd⟩ := h
  rw [hi] at hfd
  obtain rfl : i = j := Option.some.inj (hfd.resolve_left (Option.some_ne_none i))
  exact ⟨p, hp, honly, hd⟩

theorem Own.name_eq {p : Path} {i : Ino} (h : Own s d) (hp : s.temp = some p) (hi : s.fs.dir p = some i) :
    s.fs.Only p i ∧ (s.fs.file i).content = d := by
  obtain ⟨p', j, hp', honly, hd, -⟩ := h
  obtain rfl : p = p' := Option.some.inj (hp.symm.trans hp')
  obtain rfl : i = j := Option.some.inj (hi.symm.trans honly.1)
  exact ⟨honly, hd⟩

theorem Own.temp_ne (h : Own s d) : s.temp ≠ none := fun hnone => by
  obtain ⟨p, i, hp, -⟩ := h
  rw [hnone] at hp
  exact absurd hp (Option.some_ne_none p).symm

/-- The call may give up at any time in front of the commit. -/
theorem Phase.ending (h : Phase c s) (hpc : s.pc.working = true) : s.temp = none ∨ ∃ d, Own s d := by
  unfold Phase at h
  split at h
  · exact .inl h
  · exact .inl h
  · exact .inl h
  · exact .inl h
  · exact .inl h
  · exact .inl h
  · exact .inr ⟨_, h⟩
  · next hq => rw [hq] at hpc; cases hpc
  · next hq => rw [hq] at hpc; cases hpc
  · exact .inr ⟨_, h.2⟩
  · next hq => rw [hq] at hpc; cases hpc
  · exact h
  · exact h
  · exact h
  · next hq => rw [hq] at hpc; cases hpc
  · exact .inr ⟨_, h⟩

theorem Phase.other (h : Phase c s) (hl : LeavesTemp s fs) : Phase c { s with fs } := by
  have htemp : ∀ q, s.pc = q → q ≠ .closeFirst → q ≠ .openTemp → s.tempName = s.temp := fun q hq h1 h2 => by
    subst hq
    unfold State.tempName
    split
    · next hq => exact absurd hq h1
    · next hq => exact absurd hq h2
    · rfl
  unfold Phase at h ⊢
  dsimp only
  split at h
  · exact h
  · exact h
  · exact h
  · exact h
  · exact h
  · exact h
  · next hq => exact h.other hl (htemp _ hq nofun nofun)
  · exact h
  · exact h
  · next hq => exact ⟨h.1, h.2.other hl (htemp _ hq nofun nofun)⟩
  · next hq =>
    obtain ⟨p, i, hp, hi⟩ := h
    exact ⟨p, i, hp, (hl p ((htemp _ hq nofun nofun).trans hp) i hi).1⟩
  · next hq => exact h.imp_right fun ⟨d, hd⟩ => ⟨d, hd.other hl (htemp _ hq nofun nofun)⟩
  · next hq => exact h.imp_right fun ⟨d, hd⟩ => ⟨d, hd.other hl (htemp _ hq nofun nofun)⟩
  · next hq => exact h.imp_right fun ⟨d, hd⟩ => ⟨d, hd.other hl (htemp _ hq nofun nofun)⟩
  · exact h
  · next h1 h2 => exact h.other hl (htemp _ rfl ‹_› ‹_›)

theorem Own.still (h : Own s d) (hfs : s'.fs = s.fs) (htemp : s'.temp = s.temp) (hfd : s'.fd = s.fd ∨ s'.fd = none) :
    Own s' d := by
  obtain ⟨p, i, hp, honly, hd, hi⟩ := h
  refine ⟨p, i, htemp.trans hp, hfs ▸ honly, hfs ▸ hd, ?_⟩
  cases hfd with
  | inl heq => rw [heq]; exact hi
  | inr hnone => exact .inl hnone

theorem Own.created {p : Path} {i : Ino} (hfresh : ∀ m, s.fs.dir m ≠ some i) (mode : Nat) (hp : s'.temp = some p)
    (hfs : s'.fs = s.fs.create p i mode sys.uid sys.gid) (hfd : s'.fd = some i) : Own s' [] := by
  refine ⟨p, i, hp, ?_, ?_, .inr hfd⟩
  · rw [hfs]
    exact only_create hfresh ..
  · rw [hfs, Fs.create, name_file, set_file_self]

theorem phase_write {b : Bool} {pos : Nat} {pc : Pc} (h : Own s (c.data.take pos)) (hnext : WriteAt c b pos pc) :
    Phase c { s with pc } := by
  cases hnext with
  | inl hwrite =>
    obtain ⟨rfl, hlt⟩ := hwrite
    exact ⟨hlt, h⟩
  | inr hend =>
    obtain ⟨hlen, rfl⟩ := hend
    rw [List.take_of_length_le hlen] at h
    cases b with
    | false => exact h
    | true => exact h

/-- A write goes on where the last one ended. -/
theorem write_content {i : Ino} {pos n : Nat} (hpos : pos < c.data.length) (hd : (s.fs.file i).content = c.data.take pos) :
    ((s.fs.write 0 i pos ((c.data.drop pos).take n)).file i).content = c.data.take (pos + n) := by
  have hlen : (s.fs.file i).content.length = pos := by rw [hd, List.length_take, Nat.min_eq_left hpos.le]
  rw [Fs.write, set_file_self]
  show writeAt (s.fs.file i).content 0 pos _ = _
  conv_lhs => rw [← hlen]
  rw [writeAt_end, hlen, hd, List.take_add]

theorem Phase.move (h : Phase c s) (hm : Move sys c s o s') (hfresh : o.Fresh s.fs) : Phase c s' := by
  unfold Phase at h
  cases hm with
  | again => exact h
  | stop _ _ _ _ hpc hfd => exact (Phase.ending h hpc).imp_right fun ⟨d, hd⟩ => ⟨d, hd.still rfl rfl hfd⟩
  | absentStop _ _ _ hpc =>
    rw [hpc] at h
    exact .inl h
  | absent _ hpc =>
    rw [hpc] at h
    exact h
  | present hpc =>
    rw [hpc] at h
    exact h
  | resolved hpc =>
    rw [hpc] at h
    exact h
  | openedTarget _ hpc =>
    rw [hpc] at h
    exact h
  | stated i pc hpc _ hnone hsome =>
    rw [hpc] at h
    have hnext : (∃ e, ReadAt e 0 pc) ∨ pc = .mkstemp := by
      cases he : c.expected with
      | none => exact .inr (hnone he)
      | some e => exact .inl ⟨e, (hsome e he).2⟩
    obtain ⟨e, rfl | ⟨rfl, -⟩⟩ | rfl := hnext
    · exact h
    · exact h
    · exact h
  | readMore _ _ _ _ _ hpc _ _ _ hnext =>
    rw [hpc] at h
    obtain rfl | ⟨rfl, -⟩ := hnext
    · exact h
    · exact h
  | created suffix i pc hpc _ _ hnext =>
    have hown : Own { s with
        fs := s.fs.create (tempName s.target suffix) i 0o600 sys.uid sys.gid
        temp := some (tempName s.target suffix)
        fd := some i
        pc } [] := .created hfresh 0o600 rfl rfl rfl
    obtain ⟨-, rfl⟩ | ⟨-, hwrite⟩ := hnext
    · exact hown
    · exact phase_write hown hwrite
  | unlinkedFirst p _ _ hp => exact ⟨p, hp⟩
  | closedFirst _ hpc =>
    rw [hpc] at h
    exact h
  | createdAgain _ i p mode pc _ hp _ hnext =>
    have hown : Own { s with fs := s.fs.create p i mode sys.uid sys.gid, fd := some i, pc } [] :=
      .created hfresh mode hp rfl rfl
    exact phase_write hown hnext
  | notCreated => exact .inl rfl
  | wrote pos n i pc hpc hi _ hnext =>
    rw [hpc] at h
    obtain ⟨p, hp, honly, hd⟩ := h.2.fd_eq hi
    have hown : Own { s with fs := s.fs.write 0 i pos ((c.data.drop pos).take n), pc } (c.data.take (pos + n)) :=
      ⟨p, i, hp, honly.set, write_content h.1 hd, .inr hi⟩
    exact phase_write hown hnext
  | metadata _ i f err pc hpc hi hf =>
    have hown : ∀ pc, Own s c.data → Own { s with fs := s.fs.set i f, err, pc } c.data := fun pc h => by
      obtain ⟨p, hp, honly, hd⟩ := h.fd_eq hi
      refine ⟨p, i, hp, honly.set, ?_, .inr hi⟩
      show ((s.fs.set i f).file i).content = c.data
      rw [set_file_self]
      exact hf.trans hd
    generalize s.pc = q at h hpc
    cases hpc with
    | fchown => exact hown .fchmod h
    | fchmod => exact hown .copyXattrs h
    | copyXattrs => exact hown .fsync h
    | copyXattrsFails => exact .inr ⟨_, hown .closeFd h⟩
  | onwards _ fd pc hpc hfd =>
    have hown : ∀ pc, Own s c.data → Own { s with fd, pc } c.data := fun pc h => h.still rfl rfl hfd
    generalize s.pc = q at h hpc
    cases hpc with
    | fsync => exact hown .close h
    | close =>
      have hclose := hown (if s.fileExists = true then .realpathAgain else .link) h
      cases he : s.fileExists with
      | false =>
        rw [he] at hclose
        exact hclose
      | true =>
        rw [he] at hclose
        exact hclose
    | realpathAgain => exact hown .stat h
  | checked _ hpc =>
    rw [hpc] at h
    exact h
  | renamed => exact .inl rfl
  | linked p i hpc hp hi hnone =>
    refine ⟨p, i, hp, ?_⟩
    have hne : p ≠ s.target := fun heq => by
      rw [heq, hnone] at hi
      exact absurd hi (Option.some_ne_none i).symm
    exact (name_dir_of_ne _ hne).trans hi
  | unlinkedLinked => exact .inl rfl
  | notUnlinkedLinked => exact .inl rfl
  | closedFd _ hpc =>
    rw [hpc] at h
    exact h.imp_right fun ⟨d, hd⟩ => ⟨d, hd.still rfl rfl (.inr rfl)⟩
  | closedSrc _ hpc =>
    rw [hpc] at h
    exact h
  | unlinkedTemp => trivial
  | notUnlinkedTemp => trivial
  | noTemp => trivial

theorem run_phase (h : Run sys c LeavesTemp fs₀ ts s) : Phase c s := by
  induction h with
  | start => exact rfl
  | step _ hstep ih =>
    cases hstep with
    | call hs hfresh => exact ih.move (callStep_move hs) hfresh
    | other _ _ henv => exact ih.other henv

/-! ## The names -/

def Pc.ending : Pc → Bool
  | .closeFd | .closeSrc | .unlinkTemp | .returned => true
  | _ => false

/-- The target is known when the first two calls are over. -/
def Aimed (sys : System) (c : Call) (s : State) : Prop :=
  s.pc = .lstat ∨ s.pc = .realpath ∨ s.pc.ending = true ∨ s.target = sys.resolve c.path

theorem Aimed.target {q : Pc} (h : Aimed sys c s) (hpc : s.pc = q) (h1 : q ≠ .lstat) (h2 : q ≠ .realpath)
    (h3 : q.ending = false) : s.target = sys.resolve c.path := by
  subst hpc
  obtain h | h | h | h := h
  · exact absurd h h1
  · exact absurd h h2
  · rw [h3] at h
    cases h
  · exact h

theorem Aimed.move (h : Aimed sys c s) (hm : Move sys c s o s') : Aimed sys c s' := by
  have hsame : ∀ {q : Pc} {s' : State}, s.pc = q → q ≠ .lstat → q ≠ .realpath → q.ending = false →
      s'.target = s.target → Aimed sys c s' := fun hpc h1 h2 h3 ht => .inr (.inr (.inr (ht.trans (h.target hpc h1 h2 h3))))
  cases hm with
  | again => exact h
  | stop => exact .inr (.inr (.inl rfl))
  | absentStop => exact .inr (.inr (.inl rfl))
  | absent _ _ habsent =>
    rw [isAbsent, Bool.and_eq_true] at habsent
    exact .inr (.inr (.inr (beq_iff_eq.mp habsent.2).symm))
  | present => exact .inr (.inl rfl)
  | resolved => exact .inr (.inr (.inr rfl))
  | openedTarget _ hpc => exact hsame hpc nofun nofun rfl rfl
  | stated _ _ hpc => exact hsame hpc nofun nofun rfl rfl
  | readMore _ _ _ _ _ hpc => exact hsame hpc nofun nofun rfl rfl
  | created _ _ _ hpc => exact hsame hpc nofun nofun rfl rfl
  | unlinkedFirst _ _ hpc => exact hsame hpc nofun nofun rfl rfl
  | closedFirst _ hpc => exact hsame hpc nofun nofun rfl rfl
  | createdAgain _ _ _ _ _ hpc => exact hsame hpc nofun nofun rfl rfl
  | notCreated => exact .inr (.inr (.inl rfl))
  | wrote _ _ _ _ hpc => exact hsame hpc nofun nofun rfl rfl
  | metadata _ _ _ _ _ hpc =>
    generalize hq : s.pc = q at hpc
    cases hpc with
    | _ => exact hsame hq nofun nofun rfl rfl
  | onwards _ _ _ hpc =>
    generalize hq : s.pc = q at hpc
    cases hpc with
    | _ => exact hsame hq nofun nofun rfl rfl
  | checked _ hpc => exact hsame hpc nofun nofun rfl rfl
  | renamed => exact .inr (.inr (.inl rfl))
  | linked _ _ hpc => exact hsame hpc nofun nofun rfl rfl
  | unlinkedLinked => exact .inr (.inr (.inl rfl))
  | notUnlinkedLinked => exact .inr (.inr (.inl rfl))
  | closedFd => exact .inr (.inr (.inl rfl))
  | closedSrc => exact .inr (.inr (.inl rfl))
  | unlinkedTemp => exact .inr (.inr (.inl rfl))
  | notUnlinkedTemp => exact .inr (.inr (.inl rfl))
  | noTemp => exact .inr (.inr (.inl rfl))

theorem run_aimed (h : Run sys c env fs₀ ts s) : Aimed sys c s := by
  induction h with
  | start => exact .inl rfl
  | step _ hstep ih =>
    cases hstep with
    | call hs _ => exact ih.move (callStep_move hs)
    | other => exact ih

/-- The temporary name is made from the target. -/
def Named (sys : System) (c : Call) (s : State) : Prop :=
  ∀ p, s.temp = some p → ∃ suffix, suffix.length = 6 ∧ p = tempName (sys.resolve c.path) suffix

theorem Named.temp_ne (h : Named sys c s) : s.temp ≠ some (sys.resolve c.path) := fun hp => by
  obtain ⟨suffix, hlen, heq⟩ := h _ hp
  have hlen' := congrArg List.length heq
  rw [tempName, List.length_append, List.length_append, hlen] at hlen'
  omega

theorem Move.temp (h : Move sys c s o s') : s'.temp = s.temp ∨ s'.temp = none ∨
    ∃ suffix, s.pc = .mkstemp ∧ suffix.length = 6 ∧ s'.temp = some (tempName s.target suffix) := by
  cases h with
  | created suffix _ _ hpc hlen => exact .inr (.inr ⟨suffix, hpc, hlen, rfl⟩)
  | notCreated => exact .inr (.inl rfl)
  | renamed => exact .inr (.inl rfl)
  | unlinkedLinked => exact .inr (.inl rfl)
  | notUnlinkedLinked => exact .inr (.inl rfl)
  | _ => exact .inl rfl

theorem Named.move (h : Named sys c s) (haimed : Aimed sys c s) (hm : Move sys c s o s') : Named sys c s' := fun p hp => by
  obtain heq | hnone | ⟨suffix, hpc, hlen, htemp⟩ := hm.temp
  · exact h p (heq ▸ hp)
  · rw [hnone] at hp
    exact absurd hp (Option.some_ne_none p).symm
  · rw [haimed.target hpc nofun nofun rfl] at htemp
    exact ⟨suffix, hlen, (Option.some.inj (htemp.symm.trans hp)).symm⟩

theorem run_named (h : Run sys c env fs₀ ts s) : Named sys c s := by
  induction h with
  | start => exact fun p hp => absurd hp (Option.some_ne_none p).symm
  | step hrun hstep ih =>
    cases hstep with
    | call hs _ => exact ih.move (run_aimed hrun) (callStep_move hs)
    | other => exact ih

/-! ## Whole contents -/

/-- The name whose file may hold a part of the data. -/
def State.privateName (s : State) : Option Path :=
  match s.pc with
  | .closeFirst | .openTemp | .unlinkLinked => none
  | _ => s.temp

theorem privateName_of_working (hpc : s.pc.working = true) : s.privateName = s.temp := by
  unfold State.privateName
  split
  · next hq => rw [hq] at hpc; cases hpc
  · next hq => rw [hq] at hpc; cases hpc
  · next hq => rw [hq] at hpc; cases hpc
  · rfl

theorem privateName_of_write {b : Bool} {pos : Nat} (h : WriteAt c b pos s.pc) : s.privateName = s.temp := by
  refine privateName_of_working ?_
  obtain ⟨hpc, -⟩ | ⟨-, hpc⟩ := h
  · rw [hpc]
    rfl
  · rw [hpc]
    cases b with
    | false => rfl
    | true => rfl

/-- Every name but that of the temporary file stands for a content with `P`. -/
def Whole (P : Bytes → Prop) (s : State) : Prop := Holds P s.privateName s.fs

theorem Whole.of_holds {P : Bytes → Prop} (h : Holds P none s.fs) : Whole P s := h.weaken _

theorem Whole.private_of {P : Bytes → Prop} {p : Path} (h : Whole P s) (hname : s.privateName = s.temp)
    (hp : s.temp = some p) : Holds P (some p) s.fs := by
  rw [Whole, hname, hp] at h
  exact h

theorem Whole.holds {P : Bytes → Prop} (h : Whole P s) (hname : s.privateName = none) : Holds P none s.fs := by
  rw [Whole, hname] at h
  exact h

theorem Whole.move {P : Bytes → Prop} (hdata : P c.data) (hphase : Phase c s) (h : Whole P s) (hm : Move sys c s o s')
    (hfresh : o.Fresh s.fs) : Whole P s' := by
  have hworking : ∀ q, s.pc = q → q.working = true → s.privateName = s.temp := fun q hq hw =>
    privateName_of_working (hq ▸ hw)
  unfold Phase at hphase
  cases hm with
  | again => exact h
  | stop _ _ _ _ hpc =>
    rw [Whole, privateName_of_working hpc] at h
    exact h
  | absentStop _ _ _ hpc =>
    rw [Whole, hworking _ hpc rfl] at h
    exact h
  | absent _ hpc =>
    rw [Whole, hworking _ hpc rfl] at h
    exact h
  | present hpc =>
    rw [Whole, hworking _ hpc rfl] at h
    exact h
  | resolved hpc =>
    rw [Whole, hworking _ hpc rfl] at h
    exact h
  | openedTarget _ hpc =>
    rw [Whole, hworking _ hpc rfl] at h
    exact h
  | stated _ _ hpc =>
    rw [hpc] at hphase
    exact .of_holds (h.holds ((hworking _ hpc rfl).trans hphase))
  | readMore _ _ _ _ _ hpc =>
    rw [hpc] at hphase
    exact .of_holds (h.holds ((hworking _ hpc rfl).trans hphase))
  | created suffix i pc hpc _ _ hnext =>
    rw [hpc] at hphase
    have hnew := (h.holds ((hworking _ hpc rfl).trans hphase)).create (n := tempName s.target suffix) hfresh 0o600
      sys.uid sys.gid
    obtain ⟨-, rfl⟩ | ⟨-, hwrite⟩ := hnext
    · exact hnew
    · rw [Whole, privateName_of_write hwrite]
      exact hnew
  | unlinkedFirst p i hpc hp hi =>
    rw [hpc] at hphase
    exact .of_holds ((h.private_of (hworking _ hpc rfl) hp).unlink (hphase.name_eq hp hi).1)
  | closedFirst _ hpc =>
    rw [Whole, State.privateName, hpc] at h
    exact h
  | createdAgain _ i p mode pc hpc hp _ hnext =>
    rw [Whole, State.privateName, hpc] at h
    rw [Whole, privateName_of_write hnext]
    exact (congrArg (Holds P · _) hp).mpr (h.create hfresh mode sys.uid sys.gid)
  | notCreated _ _ hpc =>
    rw [Whole, State.privateName, hpc] at h
    exact h
  | wrote pos n i pc hpc hi _ hnext =>
    rw [hpc] at hphase
    obtain ⟨p, hp, honly, -⟩ := hphase.2.fd_eq hi
    rw [Whole, privateName_of_write hnext]
    exact (congrArg (Holds P · _) hp).mpr ((h.private_of (hworking _ hpc rfl) hp).set honly)
  | metadata _ i f err pc hpc hi _ =>
    have hset : ∀ q, s.pc = q → q.working = true → Own s c.data →
        Holds P s.temp (s.fs.set i f) := fun q hq hw hown => by
      obtain ⟨p, hp, honly, -⟩ := hown.fd_eq hi
      rw [hp]
      exact (h.private_of (hworking _ hq hw) hp).set honly
    generalize hq : s.pc = q at hphase hpc
    cases hpc with
    | fchown => exact hset _ hq rfl hphase
    | fchmod => exact hset _ hq rfl hphase
    | copyXattrs => exact hset _ hq rfl hphase
    | copyXattrsFails => exact hset _ hq rfl hphase
  | onwards _ fd pc hpc =>
    generalize hq : s.pc = q at hpc
    cases hpc with
    | fsync =>
      rw [Whole, hworking _ hq rfl] at h
      exact h
    | close =>
      rw [Whole, hworking _ hq rfl] at h
      cases s.fileExists with
      | false => exact h
      | true => exact h
    | realpathAgain =>
      rw [Whole, hworking _ hq rfl] at h
      exact h
  | checked _ hpc =>
    rw [Whole, hworking _ hpc rfl] at h
    exact h
  | renamed p i hpc hp hi =>
    rw [hpc] at hphase
    exact .of_holds ((h.private_of (hworking _ hpc rfl) hp).rename hi ((hphase.name_eq hp hi).2 ▸ hdata))
  | linked p i hpc hp hi _ =>
    rw [hpc] at hphase
    exact .of_holds ((h.private_of (hworking _ hpc rfl) hp).link hi ((hphase.name_eq hp hi).2 ▸ hdata))
  | unlinkedLinked p i hpc hp hi =>
    rw [Whole, State.privateName, hpc] at h
    exact .of_holds h.unlink_none
  | notUnlinkedLinked _ hpc =>
    rw [Whole, State.privateName, hpc] at h
    exact h
  | closedFd _ hpc =>
    rw [Whole, State.privateName, hpc] at h
    exact h
  | closedSrc _ hpc =>
    rw [Whole, State.privateName, hpc] at h
    exact h
  | unlinkedTemp p i hpc hp hi =>
    rw [hpc] at hphase
    have hname : s.privateName = s.temp := by rw [State.privateName, hpc]
    cases hphase with
    | inl hnone =>
      rw [hnone] at hp
      cases hp
    | inr hown =>
      obtain ⟨d, hown⟩ := hown
      exact .of_holds ((h.private_of hname hp).unlink (hown.name_eq hp hi).1)
  | notUnlinkedTemp _ hpc =>
    rw [Whole, State.privateName, hpc] at h
    exact h
  | noTemp hpc =>
    rw [Whole, State.privateName, hpc] at h
    exact h

theorem tempName_of_working (hpc : s.pc.working = true) : s.tempName = s.temp := by
  unfold State.tempName
  split
  · next hq => rw [hq] at hpc; cases hpc
  · next hq => rw [hq] at hpc; cases hpc
  · rfl

/-- A private name belongs to the temporary file. -/
theorem Phase.private_cases (h : Phase c s) (hpc : s.pc ≠ .returned) :
    s.privateName = none ∨ (∃ d, Own s d) ∧ s.privateName = s.temp ∧ s.tempName = s.temp := by
  have hending : ∀ {s : State}, s.temp = none ∨ (∃ d, Own s d) → s.privateName = s.temp → s.tempName = s.temp →
      s.privateName = none ∨ (∃ d, Own s d) ∧ s.privateName = s.temp ∧ s.tempName = s.temp := fun h hp ht =>
    h.imp (fun hnone => hp.trans hnone) fun hown => ⟨hown, hp, ht⟩
  cases hw : s.pc.working with
  | true => exact hending (h.ending hw) (privateName_of_working hw) (tempName_of_working hw)
  | false =>
    unfold Phase at h
    cases hq : s.pc with
    | closeFirst => exact .inl (by rw [State.privateName, hq])
    | openTemp => exact .inl (by rw [State.privateName, hq])
    | unlinkLinked => exact .inl (by rw [State.privateName, hq])
    | closeFd =>
      rw [hq] at h
      exact hending h (by rw [State.privateName, hq]) (by rw [State.tempName, hq])
    | closeSrc =>
      rw [hq] at h
      exact hending h (by rw [State.privateName, hq]) (by rw [State.tempName, hq])
    | unlinkTemp =>
      rw [hq] at h
      exact hending h (by rw [State.privateName, hq]) (by rw [State.tempName, hq])
    | returned => exact absurd hq hpc
    | _ =>
      rw [hq] at hw
      cases hw

theorem Whole.other {P : Bytes → Prop} (hphase : Phase c s) (hpc : s.pc ≠ .returned) (h : Whole P s) (hl : LeavesTemp s fs)
    (hb : Brings P s.fs fs) : Whole P { s with fs } := by
  cases hphase.private_cases hpc with
  | inl hnone => exact .of_holds ((h.holds hnone).other hb)
  | inr hown =>
    obtain ⟨⟨d, p, i, hp, honly, -⟩, hname, htemp⟩ := hown
    have hnew := (h.private_of hname hp).other_private honly (hl p (htemp.trans hp)) hb
    rw [← hp, ← hname] at hnew
    exact hnew

/-- No name but the temporary one ever stands for a part of the data. -/
theorem run_whole {P : Bytes → Prop} (hdata : P c.data) (h : Run sys c LeavesTemp fs₀ ts s) (hstart : Holds P none fs₀)
    (hothers : ∀ t ∈ ts, t.outcome = none → Brings P t.src.fs t.dst.fs) : Whole P s := by
  induction h with
  | start => exact hstart
  | step hrun hstep ih =>
    have hbefore := ih fun t ht => hothers t (List.mem_append_left _ ht)
    have hlast := hothers _ (List.mem_append_right _ (List.mem_singleton.mpr rfl))
    cases hstep with
    | call hs hfresh => exact hbefore.move hdata (run_phase hrun) (callStep_move hs) hfresh
    | other hpc _ henv => exact hbefore.other (run_phase hrun) hpc henv (hlast rfl)

/-! ## What the call changes -/

/-- The commit by `rename` or `link`, or a step after it. -/
def Commits (s' : State) : Prop := s'.rc = 0 ∨ s'.pc = .unlinkLinked

/-- In front of the commit a name other than the temporary ones is left alone. -/
theorem Move.same {p : Path} (hphase : Phase c s) (h : Move sys c s o s') (hfresh : o.Fresh s.fs) (hbefore : s.temp ≠ some p)
    (hafter : s'.temp ≠ some p) (hcommit : ¬Commits s') : Same p s.fs s'.fs := by
  have hset : ∀ {d i f}, Own s d → s.fd = some i → Same p s.fs (s.fs.set i f) := fun hown hi => by
    obtain ⟨q, hq, honly, -⟩ := hown.fd_eq hi
    exact same_set (honly.ne fun heq => hbefore (heq ▸ hq))
  have hunlink : ∀ {d q i}, Own s d → s.temp = some q → s.fs.dir q = some i → Same p s.fs (s.fs.unlink q i) :=
    fun hown hq hi => by
      have hne : p ≠ _ := fun heq => hbefore (heq ▸ hq)
      exact (same_set ((hown.name_eq hq hi).1.ne hne)).name hne none
  unfold Phase at hphase
  cases h with
  | created suffix i => exact (same_set (hfresh p)).name (fun heq => hafter (congrArg some heq.symm)) _
  | unlinkedFirst q i hpc hq hi =>
    rw [hpc] at hphase
    exact hunlink hphase hq hi
  | createdAgain _ i q _ _ _ hq => exact (same_set (hfresh p)).name (fun heq => hbefore (heq ▸ hq)) _
  | wrote _ _ i _ hpc hi =>
    rw [hpc] at hphase
    exact hset hphase.2 hi
  | metadata _ i f _ _ hpc hi =>
    generalize s.pc = q at hphase hpc
    cases hpc with
    | fchown => exact hset hphase hi
    | fchmod => exact hset hphase hi
    | copyXattrs => exact hset hphase hi
    | copyXattrsFails => exact hset hphase hi
  | renamed => exact absurd (.inl rfl) hcommit
  | linked => exact absurd (.inr rfl) hcommit
  | unlinkedLinked => exact absurd (.inl rfl) hcommit
  | unlinkedTemp q i hpc hq hi =>
    rw [hpc] at hphase
    cases hphase with
    | inl hnone =>
      rw [hnone] at hq
      cases hq
    | inr hown => exact hunlink hown.choose_spec hq hi
  | _ => exact .refl _ _

end

end Ds4.Agent.Replace
