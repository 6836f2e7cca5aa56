import Mathlib.Algebra.Group.Int.Defs
import Mathlib.Algebra.GroupWithZero.Nat
import Mathlib.Data.List.Basic
import Mathlib.Logic.Function.Basic
import Mathlib.Tactic.ByContra

/-!
# Files with names and versions

A file system in the eyes of several processes: a name stands for a file, a file may have several names, and a file that is
changed gets a time of change that no file had before. What other processes do is any step `fs.Later fs'`.
-/

namespace Vfs

variable {ν ι β : Type}

structure File (β : Type) where
  content : List β
  regular : Bool
  nlink : Nat
  mode : Nat
  uid : Nat
  gid : Nat
  mtim : Nat
  ctim : Nat

structure Fs (ν ι β : Type) where
  dir : ν → Option ι
  file : ι → File β
  now : Nat
  stamped : ∀ i, (file i).ctim ≤ now

namespace Fs

variable {fs fs' fs'' : Fs ν ι β} {n m : ν} {i j : ι} {f : File β} {P : List β → Prop}

/-! ## Operations -/

section
variable [DecidableEq ι]

/-- The file is changed, now. -/
def set (fs : Fs ν ι β) (i : ι) (f : File β) : Fs ν ι β where
  dir := fs.dir
  file := Function.update fs.file i { f with ctim := fs.now + 1 }
  now := fs.now + 1
  stamped j := by
    by_cases h : j = i
    · subst h
      have hself : Function.update fs.file j { f with ctim := fs.now + 1 } j = { f with ctim := fs.now + 1 } :=
        Function.update_self ..
      exact Nat.le_of_eq (congrArg File.ctim hself)
    · rw [Function.update_of_ne h]
      exact Nat.le_succ_of_le (fs.stamped j)

@[simp] theorem set_dir : (fs.set i f).dir = fs.dir := rfl

@[simp] theorem set_file_self : (fs.set i f).file i = { f with ctim := fs.now + 1 } := Function.update_self ..

@[simp] theorem set_file_of_ne (h : j ≠ i) : (fs.set i f).file j = fs.file j := Function.update_of_ne h ..

end

section
variable [DecidableEq ν]

def name (fs : Fs ν ι β) (n : ν) (o : Option ι) : Fs ν ι β := { fs with dir := Function.update fs.dir n o }

@[simp] theorem name_file (o : Option ι) : (fs.name n o).file = fs.file := rfl

@[simp] theorem name_dir_self (o : Option ι) : (fs.name n o).dir n = o := Function.update_self ..

@[simp] theorem name_dir_of_ne (o : Option ι) (h : m ≠ n) : (fs.name n o).dir m = fs.dir m := Function.update_of_ne h ..

end

section
variable [DecidableEq ν] [DecidableEq ι]

def create (fs : Fs ν ι β) (n : ν) (i : ι) (mode uid gid : Nat) : Fs ν ι β :=
  (fs.set i ⟨[], true, 1, mode, uid, gid, fs.now + 1, 0⟩).name n (some i)

def unlink (fs : Fs ν ι β) (n : ν) (i : ι) : Fs ν ι β :=
  (fs.set i { fs.file i with nlink := (fs.file i).nlink - 1 }).name n none

/-- `m` becomes another name of the file `i`. -/
def link (fs : Fs ν ι β) (m : ν) (i : ι) : Fs ν ι β :=
  (fs.set i { fs.file i with nlink := (fs.file i).nlink + 1 }).name m (some i)

/-- The file that `m` named loses this name. Two names of one file stay as they are. -/
def rename (fs : Fs ν ι β) (n m : ν) (i : ι) : Fs ν ι β :=
  match fs.dir m with
  | none => ((fs.set i (fs.file i)).name m (some i)).name n none
  | some j => if j = i then fs else (((fs.unlink m j).set i (fs.file i)).name m (some i)).name n none

def writeAt (content : List β) (zero : β) (pos : Nat) (s : List β) : List β :=
  content.take pos ++ List.replicate (pos - content.length) zero ++ s ++ content.drop (pos + s.length)

def write (fs : Fs ν ι β) (zero : β) (i : ι) (pos : Nat) (s : List β) : Fs ν ι β :=
  fs.set i { fs.file i with content := writeAt (fs.file i).content zero pos s, mtim := fs.now + 1 }

end

theorem writeAt_end (s : List β) (zero : β) (c : List β) : writeAt c zero c.length s = c ++ s := by
  rw [writeAt, List.take_length, Nat.sub_self, List.replicate_zero, List.append_nil, List.drop_of_length_le (by omega),
    List.append_nil]

/-! ## Time -/

/-- What is different in `fs'` has been changed after `fs`. -/
structure Later (fs fs' : Fs ν ι β) : Prop where
  now : fs.now ≤ fs'.now
  file : ∀ i, fs'.file i = fs.file i ∨ fs.now < (fs'.file i).ctim

theorem Later.refl (fs : Fs ν ι β) : fs.Later fs := ⟨Nat.le_refl _, fun _ => .inl rfl⟩

theorem Later.trans (h : fs.Later fs') (h' : fs'.Later fs'') : fs.Later fs'' := by
  refine ⟨Nat.le_trans h.now h'.now, fun i => ?_⟩
  cases h'.file i with
  | inl heq => rw [heq]; exact h.file i
  | inr hlt => exact .inr (Nat.lt_of_le_of_lt h.now hlt)

/-- A file with an old time of change is the old file. -/
theorem Later.file_eq (h : fs.Later fs') (hi : (fs'.file i).ctim ≤ fs.now) : fs'.file i = fs.file i :=
  (h.file i).resolve_right (Nat.not_lt_of_le hi)

section
variable [DecidableEq ν] [DecidableEq ι]

omit [DecidableEq ν] in
theorem later_set : fs.Later (fs.set i f) := by
  refine ⟨Nat.le_succ _, fun j => ?_⟩
  by_cases h : j = i
  · subst h
    rw [set_file_self]
    exact .inr (Nat.lt_succ_self _)
  · exact .inl (set_file_of_ne h)

omit [DecidableEq ι] in
theorem later_name (o : Option ι) : fs.Later (fs.name n o) := ⟨Nat.le_refl _, fun _ => .inl rfl⟩

theorem later_create (mode uid gid : Nat) : fs.Later (fs.create n i mode uid gid) := later_set.trans (later_name _)

theorem later_unlink : fs.Later (fs.unlink n i) := later_set.trans (later_name _)

theorem later_link : fs.Later (fs.link m i) := later_set.trans (later_name _)

omit [DecidableEq ν] in
theorem later_write (zero : β) (pos : Nat) (s : List β) : fs.Later (fs.write zero i pos s) := later_set

theorem later_rename : fs.Later (fs.rename n m i) := by
  rw [rename]
  cases fs.dir m with
  | none => exact (later_set.trans (later_name _)).trans (later_name _)
  | some j =>
    dsimp only
    split
    · exact .refl fs
    · exact ((later_unlink.trans later_set).trans (later_name _)).trans (later_name _)

end

/-! ## What a name stands for -/

/-- The name stands for the same file, and the file is unchanged. -/
def Same (n : ν) (fs fs' : Fs ν ι β) : Prop := fs'.dir n = fs.dir n ∧ ∀ i ∈ fs.dir n, fs'.file i = fs.file i

theorem Same.refl (n : ν) (fs : Fs ν ι β) : Same n fs fs := ⟨rfl, fun _ _ => rfl⟩

/-- `n` is the one name of the file. -/
def Only (fs : Fs ν ι β) (n : ν) (i : ι) : Prop := fs.dir n = some i ∧ ∀ m, fs.dir m = some i → m = n

theorem same_set [DecidableEq ι] (h : fs.dir m ≠ some i) : Same m fs (fs.set i f) :=
  ⟨rfl, fun _ hj => set_file_of_ne fun heq => h (heq ▸ hj)⟩

theorem Same.name [DecidableEq ν] (h : Same m fs fs') (hm : m ≠ n) (o : Option ι) : Same m fs (fs'.name n o) :=
  ⟨(name_dir_of_ne o hm).trans h.1, h.2⟩

theorem Only.ne (h : fs.Only n i) (hm : m ≠ n) : fs.dir m ≠ some i := fun hi => hm (h.2 m hi)

theorem Only.set [DecidableEq ι] (h : fs.Only n i) : (fs.set j f).Only n i := h

theorem only_create [DecidableEq ν] [DecidableEq ι] (hfresh : ∀ m, fs.dir m ≠ some i) (mode uid gid : Nat) :
    (fs.create n i mode uid gid).Only n i := by
  refine ⟨name_dir_self _, fun m hm => ?_⟩
  by_contra hne
  rw [create, name_dir_of_ne _ hne] at hm
  exact hfresh m hm

/-! ## Other processes -/

/-- A step that does not use the name while it stands for a file: a file without another name stays as it is. -/
def LeavesAlone (n : ν) (fs fs' : Fs ν ι β) : Prop :=
  ∀ i, fs.dir n = some i → fs'.dir n = some i ∧ (fs.Only n i → fs'.file i = fs.file i ∧ fs'.Only n i)

/-- What a name stands for after the step has a content with `P`, or it was there before. -/
def Brings (P : List β → Prop) (fs fs' : Fs ν ι β) : Prop :=
  ∀ m i, fs'.dir m = some i → P (fs'.file i).content ∨
    ∃ m', fs.dir m' = some i ∧ (fs'.file i).content = (fs.file i).content

/-- Every name but `n` stands for a content with `P`. -/
def Holds (P : List β → Prop) (n : Option ν) (fs : Fs ν ι β) : Prop :=
  ∀ m i, n ≠ some m → fs.dir m = some i → P (fs.file i).content

theorem Holds.weaken (h : Holds P none fs) (n : Option ν) : Holds P n fs :=
  fun m i _ hi => h m i (Option.some_ne_none m).symm hi

theorem Holds.other (h : Holds P none fs) (hb : Brings P fs fs') : Holds P none fs' := fun m i _ hi => by
  cases hb m i hi with
  | inl hp => exact hp
  | inr hold =>
    obtain ⟨m', hm', heq⟩ := hold
    rw [heq]
    exact h m' i (Option.some_ne_none m').symm hm'

theorem Holds.other_private (h : Holds P (some n) fs) (hi : fs.Only n i) (hn : LeavesAlone n fs fs')
    (hb : Brings P fs fs') : Holds P (some n) fs' := fun m j hm hj => by
  cases hb m j hj with
  | inl hp => exact hp
  | inr hold =>
    obtain ⟨m', hm', heq⟩ := hold
    rw [heq]
    by_cases hnm : m' = n
    · -- the private file has got no other name
      subst hnm
      have hji : j = i := Option.some.inj (hm'.symm.trans hi.1)
      subst hji
      exact absurd (congrArg some (((hn j hm').2 hi).2.2 m hj).symm) hm
    · exact h m' j (fun heq => hnm (Option.some.inj heq).symm) hm'

theorem Holds.create [DecidableEq ν] [DecidableEq ι] (h : Holds P none fs) (hfresh : ∀ m, fs.dir m ≠ some i)
    (mode uid gid : Nat) : Holds P (some n) (fs.create n i mode uid gid) := fun m j hm hj => by
  have hmn : m ≠ n := fun heq => hm (congrArg some heq.symm)
  rw [Fs.create, name_dir_of_ne _ hmn] at hj
  have hji : j ≠ i := fun heq => hfresh m (heq ▸ hj)
  rw [Fs.create, name_file, set_file_of_ne hji]
  exact h m j (Option.some_ne_none m).symm hj

theorem Holds.set [DecidableEq ι] (h : Holds P (some n) fs) (hi : fs.Only n i) :
    Holds P (some n) (fs.set i f) := fun m j hm hj => by
  have hji : j ≠ i := fun heq => hm (congrArg some (hi.2 m (heq ▸ hj)).symm)
  rw [set_file_of_ne hji]
  exact h m j hm hj

theorem Holds.unlink [DecidableEq ν] [DecidableEq ι] (h : Holds P (some n) fs) (hi : fs.Only n i) :
    Holds P none (fs.unlink n i) := fun m j _ hj => by
  have hmn : m ≠ n := fun heq => by
    rw [heq, Fs.unlink, name_dir_self] at hj
    exact absurd hj (Option.some_ne_none j).symm
  rw [Fs.unlink, name_dir_of_ne _ hmn] at hj
  exact h.set hi m j (fun heq => hmn (Option.some.inj heq).symm) hj

theorem unlink_content [DecidableEq ν] [DecidableEq ι] (j : ι) :
    ((fs.unlink n i).file j).content = (fs.file j).content := by
  by_cases hji : j = i
  · rw [hji, Fs.unlink, name_file, set_file_self]
  · rw [Fs.unlink, name_file, set_file_of_ne hji]

theorem link_content [DecidableEq ν] [DecidableEq ι] (j : ι) : ((fs.link m i).file j).content = (fs.file j).content := by
  by_cases hji : j = i
  · rw [hji, Fs.link, name_file, set_file_self]
  · rw [Fs.link, name_file, set_file_of_ne hji]

theorem Holds.unlink_none [DecidableEq ν] [DecidableEq ι] (h : Holds P none fs) :
    Holds P none (fs.unlink n i) := fun m j _ hj => by
  by_cases hmn : m = n
  · rw [hmn, Fs.unlink, name_dir_self] at hj
    exact absurd hj (Option.some_ne_none j).symm
  · rw [Fs.unlink, name_dir_of_ne _ hmn] at hj
    rw [unlink_content]
    exact h m j (Option.some_ne_none m).symm hj

theorem Holds.link [DecidableEq ν] [DecidableEq ι] (h : Holds P (some n) fs) (hi : fs.dir n = some i)
    (hp : P (fs.file i).content) : Holds P none (fs.link m i) := fun q j _ hj => by
  have hold : j = i ∨ fs.dir q = some j := by
    by_cases hqm : q = m
    · rw [hqm, Fs.link, name_dir_self] at hj
      exact .inl (Option.some.inj hj).symm
    · rw [Fs.link, name_dir_of_ne _ hqm] at hj
      exact .inr hj
  rw [link_content]
  cases hold with
  | inl hji => exact hji ▸ hp
  | inr hq =>
    by_cases hqn : q = n
    · obtain rfl : i = j := Option.some.inj (hi.symm.trans (hqn ▸ hq))
      exact hp
    · exact h q j (fun heq => hqn (Option.some.inj heq).symm) hq

theorem rename_content [DecidableEq ν] [DecidableEq ι] (j : ι) :
    ((fs.rename n m i).file j).content = (fs.file j).content := by
  have hset : ∀ (fs : Fs ν ι β) (k : ι) (f : File β), f.content = (fs.file k).content →
      ((fs.set k f).file j).content = (fs.file j).content := fun fs k f hf => by
    by_cases hjk : j = k
    · rw [hjk, set_file_self]
      exact hf
    · rw [set_file_of_ne hjk]
  rw [rename]
  cases fs.dir m with
  | none => exact hset fs i _ rfl
  | some k =>
    dsimp only
    split
    · rfl
    · next hki =>
      have hi : (fs.unlink m k).file i = fs.file i := set_file_of_ne fun heq => hki heq.symm
      exact (hset (fs.unlink m k) i (fs.file i) (by rw [hi])).trans (hset fs k _ rfl)

theorem rename_dir_target [DecidableEq ν] [DecidableEq ι] (hmn : m ≠ n) :
    (fs.rename n m i).dir m = some i := by
  rw [rename]
  cases hm : fs.dir m with
  | none =>
    dsimp only
    rw [name_dir_of_ne _ hmn, name_dir_self]
  | some k =>
    dsimp only
    split
    · next hki => rw [hm, hki]
    · rw [name_dir_of_ne _ hmn, name_dir_self]

theorem rename_dir_source [DecidableEq ν] [DecidableEq ι] (hm : fs.dir m ≠ some i) : (fs.rename n m i).dir n = none := by
  rw [rename]
  cases hk : fs.dir m with
  | none => exact name_dir_self none
  | some k =>
    dsimp only
    split
    · next hki => exact absurd (hki ▸ hk) hm
    · exact name_dir_self none

/-- After the renaming a name stands for the file that got the name `m`, or for what it stood for. -/
theorem rename_dir [DecidableEq ν] [DecidableEq ι] {q : ν} (hn : fs.dir n = some i)
    (hj : (fs.rename n m i).dir q = some j) : j = i ∨ q ≠ n ∧ fs.dir q = some j := by
  have hold : ∀ fs' : Fs ν ι β, (∀ q, q ≠ m → fs'.dir q = fs.dir q) →
      ((fs'.name m (some i)).name n none).dir q = some j → j = i ∨ q ≠ n ∧ fs.dir q = some j := fun fs' hfs' hj => by
    by_cases hqn : q = n
    · rw [hqn, name_dir_self] at hj
      exact absurd hj (Option.some_ne_none j).symm
    · rw [name_dir_of_ne _ hqn] at hj
      by_cases hqm : q = m
      · rw [hqm, name_dir_self] at hj
        exact .inl (Option.some.inj hj).symm
      · rw [name_dir_of_ne _ hqm, hfs' q hqm] at hj
        exact .inr ⟨hqn, hj⟩
  rw [rename] at hj
  cases hm : fs.dir m with
  | none =>
    rw [hm] at hj
    exact hold (fs.set i (fs.file i)) (fun _ _ => rfl) hj
  | some k =>
    rw [hm] at hj
    dsimp only at hj
    split at hj
    · by_cases hqn : q = n
      · exact .inl (Option.some.inj (hn.symm.trans (hqn ▸ hj))).symm
      · exact .inr ⟨hqn, hj⟩
    · exact hold ((fs.unlink m k).set i _) (fun q hq => name_dir_of_ne _ hq) hj

theorem brings_rename [DecidableEq ν] [DecidableEq ι] (hn : fs.dir n = some i) : Brings P fs (fs.rename n m i) :=
  fun q j hj => by
    refine .inr ?_
    cases rename_dir hn hj with
    | inl heq => exact ⟨n, heq ▸ hn, rename_content j⟩
    | inr hold => exact ⟨q, hold.2, rename_content j⟩

theorem Holds.rename [DecidableEq ν] [DecidableEq ι] (h : Holds P (some n) fs) (hi : fs.dir n = some i)
    (hp : P (fs.file i).content) : Holds P none (fs.rename n m i) := fun q j _ hj => by
  rw [rename_content]
  cases rename_dir hi hj with
  | inl hji => exact hji ▸ hp
  | inr hold => exact h q j (fun heq => hold.1 (Option.some.inj heq).symm) hold.2

end Fs

end Vfs
