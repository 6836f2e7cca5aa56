import Ds4.Agent.Replace

/-!
# What a step of the replacement does

`Move` says it by its effect on the files and by where the call goes on. Everything about whole runs follows from it.
-/

namespace Ds4.Agent.Replace
open C Vfs

/-- The call is in front of its commit, with its temporary file if it has one. -/
def Pc.working : Pc → Bool
  | .closeFirst | .openTemp | .unlinkLinked | .closeFd | .closeSrc | .unlinkTemp | .returned => false
  | _ => true

/-- Where the loop over the expected content goes on. -/
def ReadAt (e : Bytes) (pos : Nat) (pc : Pc) : Prop := pc = .read pos ∨ pc = .mkstemp ∧ e.length ≤ pos

/-- Where the loop over the data goes on. -/
def WriteAt (c : Call) (fileExists : Bool) (pos : Nat) (pc : Pc) : Prop :=
  pc = .write pos ∧ pos < c.data.length ∨ c.data.length ≤ pos ∧ pc = if fileExists then .fchown else .fsync

/-- Calls after the data that only concern what is known about the temporary file. -/
inductive MetaStep : Pc → Pc → Prop
  | fchown : MetaStep .fchown .fchmod
  | fchmod : MetaStep .fchmod .copyXattrs
  | copyXattrs : MetaStep .copyXattrs .fsync
  | copyXattrsFails : MetaStep .copyXattrs .closeFd

/-- Calls that leave the files as they are. -/
inductive StillStep (fileExists : Bool) : Pc → Pc → Prop
  | fsync : StillStep fileExists .fsync .close
  | close : StillStep fileExists .close (if fileExists then .realpathAgain else .link)
  | realpathAgain : StillStep fileExists .realpathAgain .stat

inductive Move (sys : System) (c : Call) (s : State) : Outcome → State → Prop
  | again (o : Outcome) (pos : Nat) (hpc : s.pc = .read pos ∨ s.pc = .write pos) : Move sys c s o s
  | stop (o : Outcome) (before : Stat) (fd : Option Ino) (err : Bytes) (hpc : s.pc.working = true)
    (hfd : fd = s.fd ∨ fd = none) :
    Move sys c s o { s with before, fd, err, pc := .closeFd }
  | absentStop (o : Outcome) (target : Path) (err : Bytes) (hpc : s.pc = .lstat) :
    Move sys c s o { s with fileExists := false, target, err, pc := .closeFd }
  | absent (o : Outcome) (hpc : s.pc = .lstat) (habsent : isAbsent sys c s.fs = true) :
    Move sys c s o { s with fileExists := false, target := c.path, pc := .mkstemp }
  | present (hpc : s.pc = .lstat) (hpresent : isAbsent sys c s.fs = false) :
    Move sys c s .ok { s with fileExists := true, pc := .realpath }
  | resolved (hpc : s.pc = .realpath) : Move sys c s .ok { s with target := sys.resolve c.path, pc := .openTarget }
  | openedTarget (i : Ino) (hpc : s.pc = .openTarget) (hi : s.fs.dir s.target = some i) :
    Move sys c s .ok { s with src := some i, pc := .fstat }
  | stated (i : Ino) (pc : Pc) (hpc : s.pc = .fstat) (hi : s.src = some i) (hnone : c.expected = none → pc = .mkstemp)
    (hsome : ∀ e, c.expected = some e → (s.fs.file i).content.length = e.length ∧ ReadAt e 0 pc) :
    Move sys c s .ok { s with before := statOf s.fs i, pc }
  | readMore (pos n : Nat) (i : Ino) (e : Bytes) (pc : Pc) (hpc : s.pc = .read pos) (hi : s.src = some i)
    (he : c.expected = some e) (heq : ((s.fs.file i).content.drop pos).take n = (e.drop pos).take n)
    (hnext : ReadAt e (pos + n) pc) : Move sys c s (.count n) { s with pc }
  | created (suffix : Bytes) (i : Ino) (pc : Pc) (hpc : s.pc = .mkstemp) (hlen : suffix.length = 6)
    (hnone : s.fs.dir (tempName s.target suffix) = none)
    (hnext : s.fileExists = false ∧ pc = .unlinkFirst ∨ s.fileExists = true ∧ WriteAt c true 0 pc) :
    Move sys c s (.made suffix i) { s with
      fs := s.fs.create (tempName s.target suffix) i 0o600 sys.uid sys.gid
      temp := some (tempName s.target suffix)
      fd := some i
      pc }
  | unlinkedFirst (p : Path) (i : Ino) (hpc : s.pc = .unlinkFirst) (hp : s.temp = some p) (hi : s.fs.dir p = some i) :
    Move sys c s .ok { s with fs := s.fs.unlink p i, pc := .closeFirst }
  | closedFirst (o : Outcome) (hpc : s.pc = .closeFirst) : Move sys c s o { s with fd := none, pc := .openTemp }
  | createdAgain (suffix : Bytes) (i : Ino) (p : Path) (mode : Nat) (pc : Pc) (hpc : s.pc = .openTemp) (hp : s.temp = some p)
    (hnone : s.fs.dir p = none) (hnext : WriteAt c s.fileExists 0 pc) :
    Move sys c s (.made suffix i) { s with fs := s.fs.create p i mode sys.uid sys.gid, fd := some i, pc }
  | notCreated (e : Nat) (err : Bytes) (hpc : s.pc = .openTemp) :
    Move sys c s (.fail e) { s with temp := none, fd := none, err, pc := .closeFd }
  | wrote (pos n : Nat) (i : Ino) (pc : Pc) (hpc : s.pc = .write pos) (hi : s.fd = some i) (hn : n ≤ c.data.length - pos)
    (hnext : WriteAt c s.fileExists (pos + n) pc) :
    Move sys c s (.count n) { s with fs := s.fs.write 0 i pos ((c.data.drop pos).take n), pc }
  | metadata (o : Outcome) (i : Ino) (f : File UInt8) (err : Bytes) (pc : Pc) (hpc : MetaStep s.pc pc) (hi : s.fd = some i)
    (hf : f.content = (s.fs.file i).content) : Move sys c s o { s with fs := s.fs.set i f, err, pc }
  | onwards (o : Outcome) (fd : Option Ino) (pc : Pc) (hpc : StillStep s.fileExists s.pc pc) (hfd : fd = s.fd ∨ fd = none) :
    Move sys c s o { s with fd, pc }
  | checked (i : Ino) (hpc : s.pc = .stat) (hi : s.fs.dir s.target = some i)
    (hsame : agentSameFileVersion s.before (statOf s.fs i) = true) : Move sys c s .ok { s with pc := .rename }
  | renamed (p : Path) (i : Ino) (hpc : s.pc = .rename) (hp : s.temp = some p) (hi : s.fs.dir p = some i) :
    Move sys c s .ok { s with fs := s.fs.rename p s.target i, temp := none, rc := 0, pc := .closeFd }
  | linked (p : Path) (i : Ino) (hpc : s.pc = .link) (hp : s.temp = some p) (hi : s.fs.dir p = some i)
    (hnone : s.fs.dir s.target = none) : Move sys c s .ok { s with fs := s.fs.link s.target i, pc := .unlinkLinked }
  | unlinkedLinked (p : Path) (i : Ino) (hpc : s.pc = .unlinkLinked) (hp : s.temp = some p) (hi : s.fs.dir p = some i) :
    Move sys c s .ok { s with fs := s.fs.unlink p i, temp := none, rc := 0, pc := .closeFd }
  | notUnlinkedLinked (e : Nat) (hpc : s.pc = .unlinkLinked) :
    Move sys c s (.fail e) { s with temp := none, rc := 0, pc := .closeFd }
  | closedFd (o : Outcome) (hpc : s.pc = .closeFd) : Move sys c s o { s with fd := none, pc := .closeSrc }
  | closedSrc (o : Outcome) (hpc : s.pc = .closeSrc) : Move sys c s o { s with src := none, pc := .unlinkTemp }
  | unlinkedTemp (p : Path) (i : Ino) (hpc : s.pc = .unlinkTemp) (hp : s.temp = some p) (hi : s.fs.dir p = some i) :
    Move sys c s .ok { s with fs := s.fs.unlink p i, pc := .returned }
  | notUnlinkedTemp (e : Nat) (hpc : s.pc = .unlinkTemp) : Move sys c s (.fail e) { s with pc := .returned }
  | noTemp (hpc : s.pc = .unlinkTemp) (hp : s.temp = none) : Move sys c s .ok { s with pc := .returned }

section
variable {sys : System} {c : Call} {s s' : State} {o : Outcome}

theorem check_cases {next : State} {onFail : Nat → State} (h : check o next onFail = some s') :
    o = .ok ∧ s' = next ∨ ∃ e, o = .fail e ∧ s' = onFail e := by
  cases o with
  | ok => exact .inl ⟨rfl, (Option.some.inj h).symm⟩
  | fail e => exact .inr ⟨e, rfl, (Option.some.inj h).symm⟩
  | count _ => cases h
  | made _ _ => cases h

theorem unlinkThen_cases {next : State → State} {onFail : Nat → State} (h : unlinkThen s o next onFail = some s') :
    (∃ p i, o = .ok ∧ s.temp = some p ∧ s.fs.dir p = some i ∧ s' = next { s with fs := s.fs.unlink p i }) ∨
      ∃ e, o = .fail e ∧ s' = onFail e := by
  unfold unlinkThen at h
  split at h
  · next p hp =>
    obtain ⟨i, hi, rfl⟩ := Option.map_eq_some_iff.mp h
    exact .inl ⟨p, i, rfl, hp, hi, rfl⟩
  · next e _ _ => exact .inr ⟨e, rfl, (Option.some.inj h).symm⟩
  · cases h

/-! ## One lemma a call -/

theorem move_failed (hpc : s.pc.working = true) (e : Nat) : Move sys c s o (failed sys c s e) :=
  .stop o s.before s.fd _ hpc (.inl rfl)

theorem move_changed (hpc : s.pc.working = true) : Move sys c s o (changed c s) := .stop o s.before s.fd _ hpc (.inl rfl)

theorem onLstat_move (hpc : s.pc = .lstat) (h : onLstat sys c s o = some s') : Move sys c s o s' := by
  have hw : s.pc.working = true := hpc ▸ rfl
  unfold onLstat at h
  split at h
  · split at h
    · cases h
    · next hpresent =>
      obtain rfl := Option.some.inj h
      exact .present hpc (Bool.eq_false_iff.mpr hpresent)
  · split at h
    · split at h
      · next habsent =>
        obtain rfl := Option.some.inj h
        unfold absent
        split
        · exact .absentStop _ s.target _ hpc
        · dsimp only
          split
          · exact .absentStop _ _ _ hpc
          · next hshort =>
            have htake : c.path.take (pathMax - 1) = c.path :=
              List.take_of_length_le (Nat.le_sub_one_of_lt (Nat.lt_of_not_le hshort))
            rw [htake]
            unfold nameTemp
            split
            · exact .absentStop _ _ _ hpc
            · exact .absent _ hpc habsent
      · cases h
    · obtain rfl := Option.some.inj h
      exact move_failed hw _
  · cases h

theorem onRealpath_move (hpc : s.pc = .realpath) (h : onRealpath sys c s o = some s') : Move sys c s o s' := by
  unfold onRealpath at h
  split at h
  · split at h
    · obtain rfl := Option.some.inj h
      exact .resolved hpc
    · cases h
  · obtain rfl := Option.some.inj h
    exact move_failed (hpc ▸ rfl) _
  · cases h

theorem onOpenTarget_move (hpc : s.pc = .openTarget) (h : onOpenTarget sys c s o = some s') : Move sys c s o s' := by
  unfold onOpenTarget at h
  split at h
  · next i hi =>
    obtain rfl := Option.some.inj h
    exact .openedTarget i hpc hi
  · obtain rfl := Option.some.inj h
    exact move_failed (hpc ▸ rfl) _
  · cases h

theorem onFstat_move (hpc : s.pc = .fstat) (h : onFstat sys c s o = some s') : Move sys c s o s' := by
  have hw : s.pc.working = true := hpc ▸ rfl
  unfold onFstat at h
  split at h
  · next i hi =>
    obtain rfl := Option.some.inj h
    unfold opened
    split
    · exact .stop _ (statOf s.fs i) s.fd _ hw (.inl rfl)
    · cases he : c.expected with
      | none =>
        dsimp only
        unfold nameTemp
        split
        · exact .stop _ (statOf s.fs i) s.fd _ hw (.inl rfl)
        · exact .stated i .mkstemp hpc hi (fun _ => rfl) (fun e hsome => by rw [he] at hsome; cases hsome)
      | some e =>
        dsimp only
        split
        · exact .stop _ (statOf s.fs i) s.fd _ hw (.inl rfl)
        · next hsize =>
          have hlen : (s.fs.file i).content.length = e.length := not_not.mp hsize
          have hsome : ∀ pc, ReadAt e 0 pc → ∀ e', c.expected = some e' →
              (s.fs.file i).content.length = e'.length ∧ ReadAt e' 0 pc := fun pc hread e' he' => by
            obtain rfl : e = e' := Option.some.inj (he.symm.trans he')
            exact ⟨hlen, hread⟩
          have hnone : ∀ pc : Pc, c.expected = none → pc = .mkstemp := fun pc hn => by
            rw [he] at hn
            cases hn
          unfold readOn
          split
          · exact .stated i (.read 0) hpc hi (hnone _) (hsome _ (.inl rfl))
          · next hend =>
            unfold nameTemp
            split
            · exact .stop _ (statOf s.fs i) s.fd _ hw (.inl rfl)
            · exact .stated i .mkstemp hpc hi (hnone _) (hsome _ (.inr ⟨rfl, Nat.le_of_not_lt hend⟩))
  · obtain rfl := Option.some.inj h
    exact move_failed hw _
  · cases h

theorem onRead_move {pos : Nat} (hpc : s.pc = .read pos) (h : onRead sys c s pos o = some s') : Move sys c s o s' := by
  have hw : s.pc.working = true := hpc ▸ rfl
  unfold onRead at h
  split at h
  · next n i e hi he =>
    dsimp only at h
    split at h
    · split at h
      · obtain rfl := Option.some.inj h
        exact move_changed hw
      · next hdiff =>
        obtain rfl := Option.some.inj h
        have heq : ((s.fs.file i).content.drop pos).take n = (e.drop pos).take n := not_not.mp (not_or.mp hdiff).2
        unfold readOn
        split
        · exact .readMore pos n i e _ hpc hi he heq (.inl rfl)
        · next hend =>
          unfold nameTemp
          split
          · exact .stop _ s.before s.fd _ hw (.inl rfl)
          · exact .readMore pos n i e _ hpc hi he heq (.inr ⟨rfl, Nat.le_of_not_lt hend⟩)
    · cases h
  · split at h
    · obtain rfl := Option.some.inj h
      exact .again _ pos (.inl hpc)
    · obtain rfl := Option.some.inj h
      exact move_failed hw _
  · cases h

theorem writeOn_eq (s : State) (pos : Nat) : ∃ pc, writeOn c s pos = { s with pc } ∧ WriteAt c s.fileExists pos pc := by
  unfold writeOn
  split
  · next hlt => exact ⟨_, rfl, .inl ⟨rfl, hlt⟩⟩
  · next hend =>
    have hlen := Nat.le_of_not_lt hend
    cases he : s.fileExists with
    | false => exact ⟨_, rfl, .inr ⟨hlen, rfl⟩⟩
    | true => exact ⟨_, rfl, .inr ⟨hlen, rfl⟩⟩

theorem onMkstemp_move (hpc : s.pc = .mkstemp) (h : onMkstemp sys c s o = some s') : Move sys c s o s' := by
  unfold onMkstemp at h
  split at h
  · next suffix i =>
    dsimp only at h
    split at h
    · next hcond =>
      obtain ⟨hlen, hnone, -, -⟩ := hcond
      obtain rfl := Option.some.inj h
      have hnone' := Option.isNone_iff_eq_none.mp hnone
      split
      · next he =>
        obtain ⟨pc, hpc', hnext⟩ := writeOn_eq (c := c) { s with
          fs := s.fs.create (tempName s.target suffix) i 0o600 sys.uid sys.gid
          temp := some (tempName s.target suffix)
          fd := some i } 0
        have he' : s.fileExists = true := he
        rw [hpc']
        dsimp only at hnext
        exact .created suffix i pc hpc hlen hnone' (.inr ⟨he', he' ▸ hnext⟩)
      · next he => exact .created suffix i .unlinkFirst hpc hlen hnone' (.inl ⟨Bool.eq_false_iff.mpr he, rfl⟩)
    · cases h
  · obtain rfl := Option.some.inj h
    exact move_failed (hpc ▸ rfl) _
  · cases h

theorem onOpenTemp_move (hpc : s.pc = .openTemp) (h : onOpenTemp sys c s o = some s') : Move sys c s o s' := by
  unfold onOpenTemp at h
  split at h
  · next suffix i temp htemp =>
    split at h
    · next hcond =>
      obtain rfl := Option.some.inj h
      obtain ⟨pc, hpc', hnext⟩ := writeOn_eq (c := c)
        { s with fs := s.fs.create temp i (0o666 - (0o666 &&& sys.umask)) sys.uid sys.gid, fd := some i } 0
      rw [hpc']
      exact .createdAgain suffix i temp _ pc hpc htemp (Option.isNone_iff_eq_none.mp hcond.1) hnext
    · cases h
  · obtain rfl := Option.some.inj h
    exact .notCreated _ _ hpc
  · cases h

theorem onWrite_move {pos : Nat} (hpc : s.pc = .write pos) (h : onWrite sys c s pos o = some s') : Move sys c s o s' := by
  have hw : s.pc.working = true := hpc ▸ rfl
  unfold onWrite at h
  split at h
  · next n i hi =>
    split at h
    · obtain rfl := Option.some.inj h
      exact move_failed hw _
    · split at h
      · next hn =>
        obtain rfl := Option.some.inj h
        obtain ⟨pc, hpc', hnext⟩ := writeOn_eq (c := c)
          { s with fs := s.fs.write 0 i pos ((c.data.drop pos).take n) } (pos + n)
        rw [hpc']
        exact .wrote pos n i pc hpc hi hn hnext
      · cases h
  · split at h
    · obtain rfl := Option.some.inj h
      exact .again _ pos (.inr hpc)
    · obtain rfl := Option.some.inj h
      exact move_failed hw _
  · cases h

theorem onMeta_move {f : File UInt8 → File UInt8} {pc : Pc} (hpc : MetaStep s.pc pc) (hw : s.pc.working = true)
    (hf : ∀ g, (f g).content = g.content) (h : onMeta sys c s f pc o = some s') : Move sys c s o s' := by
  unfold onMeta at h
  split at h
  · next i hi =>
    cases check_cases h with
    | inl hok =>
      obtain ⟨rfl, rfl⟩ := hok
      exact .metadata _ i _ s.err pc hpc hi (hf _)
    | inr hfail =>
      obtain ⟨e, rfl, rfl⟩ := hfail
      exact move_failed hw e
  · cases h

theorem agentCopyFileXattrs_move (hpc : s.pc = .copyXattrs) (h : agentCopyFileXattrs sys c s o = some s') :
    Move sys c s o s' := by
  unfold agentCopyFileXattrs at h
  split at h
  · next i hi =>
    cases check_cases h with
    | inl hok =>
      obtain ⟨rfl, rfl⟩ := hok
      exact .metadata _ i _ s.err .fsync (hpc ▸ .copyXattrs) hi rfl
    | inr hfail =>
      obtain ⟨e, rfl, rfl⟩ := hfail
      exact .metadata _ i _ _ .closeFd (hpc ▸ .copyXattrsFails) hi rfl
  · cases h

theorem onRealpathAgain_move (hpc : s.pc = .realpathAgain) (h : onRealpathAgain sys c s o = some s') : Move sys c s o s' := by
  have hw : s.pc.working = true := hpc ▸ rfl
  unfold onRealpathAgain at h
  split at h
  · split at h
    · obtain rfl := Option.some.inj h
      split
      · exact move_changed hw
      · exact .onwards _ s.fd .stat (hpc ▸ .realpathAgain) (.inl rfl)
    · cases h
  · obtain rfl := Option.some.inj h
    exact move_changed hw
  · cases h

theorem onStat_move (hpc : s.pc = .stat) (h : onStat c s o = some s') : Move sys c s o s' := by
  have hw : s.pc.working = true := hpc ▸ rfl
  unfold onStat at h
  split at h
  · next i hi =>
    obtain rfl := Option.some.inj h
    split
    · next hsame => exact .checked i hpc hi hsame
    · exact move_changed hw
  · obtain rfl := Option.some.inj h
    exact move_changed hw
  · cases h

theorem onRename_move (hpc : s.pc = .rename) (h : onRename sys c s o = some s') : Move sys c s o s' := by
  unfold onRename at h
  split at h
  · next p hp =>
    obtain ⟨i, hi, rfl⟩ := Option.map_eq_some_iff.mp h
    exact .renamed p i hpc hp hi
  · obtain rfl := Option.some.inj h
    exact move_failed (hpc ▸ rfl) _
  · cases h

theorem onLink_move (hpc : s.pc = .link) (h : onLink sys c s o = some s') : Move sys c s o s' := by
  unfold onLink at h
  split at h
  · next p hp =>
    split at h
    · next hnone =>
      obtain ⟨i, hi, rfl⟩ := Option.map_eq_some_iff.mp h
      exact .linked p i hpc hp hi (Option.isNone_iff_eq_none.mp hnone)
    · cases h
  · obtain rfl := Option.some.inj h
    exact move_failed (hpc ▸ rfl) _
  · cases h

theorem onUnlinkTemp_move (hpc : s.pc = .unlinkTemp) (h : onUnlinkTemp s o = some s') : Move sys c s o s' := by
  unfold onUnlinkTemp at h
  split at h
  · next hp =>
    cases unlinkThen_cases h with
    | inl hok =>
      obtain ⟨p, i, rfl, hp, hi, rfl⟩ := hok
      exact .unlinkedTemp p i hpc hp hi
    | inr hfail =>
      obtain ⟨e, rfl, rfl⟩ := hfail
      exact .notUnlinkedTemp e hpc
  · next hp =>
    obtain rfl := Option.some.inj h
    exact .noTemp hpc hp
  · cases h

theorem callStep_move (h : callStep sys c s o = some s') : Move sys c s o s' := by
  unfold callStep at h
  split at h
  · next hpc => exact onLstat_move hpc h
  · next hpc => exact onRealpath_move hpc h
  · next hpc => exact onOpenTarget_move hpc h
  · next hpc => exact onFstat_move hpc h
  · next hpc => exact onRead_move hpc h
  · next hpc => exact onMkstemp_move hpc h
  · next hpc =>
    cases unlinkThen_cases h with
    | inl hok =>
      obtain ⟨p, i, rfl, hp, hi, rfl⟩ := hok
      exact .unlinkedFirst p i hpc hp hi
    | inr hfail =>
      obtain ⟨e, rfl, rfl⟩ := hfail
      exact move_failed (hpc ▸ rfl) e
  · next hpc =>
    cases check_cases h with
    | inl hok =>
      obtain ⟨rfl, rfl⟩ := hok
      exact .closedFirst _ hpc
    | inr hfail =>
      obtain ⟨e, rfl, rfl⟩ := hfail
      exact .closedFirst _ hpc
  · next hpc => exact onOpenTemp_move hpc h
  · next hpc => exact onWrite_move hpc h
  · next hpc =>
    unfold onFchown at h
    refine onMeta_move ?_ (hpc ▸ rfl) ?_ h
    · rw [hpc]
      exact .fchown
    · exact fun _ => rfl
  · next hpc =>
    unfold onFchmod at h
    refine onMeta_move ?_ (hpc ▸ rfl) ?_ h
    · rw [hpc]
      exact .fchmod
    · exact fun _ => rfl
  · next hpc => exact agentCopyFileXattrs_move hpc h
  · next hpc =>
    cases check_cases h with
    | inl hok =>
      obtain ⟨rfl, rfl⟩ := hok
      exact .onwards _ s.fd .close (hpc ▸ .fsync) (.inl rfl)
    | inr hfail =>
      obtain ⟨e, rfl, rfl⟩ := hfail
      exact move_failed (hpc ▸ rfl) e
  · next hpc =>
    cases check_cases h with
    | inl hok =>
      obtain ⟨rfl, rfl⟩ := hok
      exact .onwards _ none _ (hpc ▸ .close) (.inr rfl)
    | inr hfail =>
      obtain ⟨e, rfl, rfl⟩ := hfail
      exact .stop _ s.before none _ (hpc ▸ rfl) (.inr rfl)
  · next hpc => exact onRealpathAgain_move hpc h
  · next hpc => exact onStat_move hpc h
  · next hpc => exact onRename_move hpc h
  · next hpc => exact onLink_move hpc h
  · next hpc =>
    unfold onUnlinkLinked at h
    cases unlinkThen_cases h with
    | inl hok =>
      obtain ⟨p, i, rfl, hp, hi, rfl⟩ := hok
      exact .unlinkedLinked p i hpc hp hi
    | inr hfail =>
      obtain ⟨e, rfl, rfl⟩ := hfail
      exact .notUnlinkedLinked e hpc
  · next hpc =>
    cases check_cases h with
    | inl hok =>
      obtain ⟨rfl, rfl⟩ := hok
      exact .closedFd _ hpc
    | inr hfail =>
      obtain ⟨e, rfl, rfl⟩ := hfail
      exact .closedFd _ hpc
  · next hpc =>
    cases check_cases h with
    | inl hok =>
      obtain ⟨rfl, rfl⟩ := hok
      exact .closedSrc _ hpc
    | inr hfail =>
      obtain ⟨e, rfl, rfl⟩ := hfail
      exact .closedSrc _ hpc
  · next hpc => exact onUnlinkTemp_move hpc h
  · cases h

end

end Ds4.Agent.Replace
