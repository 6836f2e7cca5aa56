import Ds4.Lib.LittleEndian

/-!
# Reading at a position

A reader takes a file and a position in it and gives a value and the position behind it, or an error. `Exact r E` says what it
reads: it gives `a` exactly where some bytes `b` with `E file pos a b` stand, and goes behind them.
-/

def Cursor (ε α : Type) : Type := C.Bytes → Nat → Except ε (α × Nat)

namespace Cursor
open C

variable {ε α β : Type}

instance : Monad (Cursor ε) where
  pure a := fun _ pos => .ok (a, pos)
  bind r k := fun file pos =>
    match r file pos with
    | .ok (a, pos) => k a file pos
    | .error e => .error e

/-- The error may name the position. -/
def fail (e : Nat → ε) : Cursor ε α := fun _ pos => .error (e pos)

def position : Cursor ε Nat := fun _ pos => .ok (pos, pos)

/-- The whole file, whatever the position. -/
def file : Cursor ε Bytes := fun file pos => .ok (file, pos)

/-- The next `n` bytes. -/
def bytes (e : Nat → ε) (n : Nat) : Cursor ε Bytes := fun file pos =>
  if file.length < n ∨ file.length - n < pos then .error (e pos) else .ok ((file.drop pos).take n, pos + n)

/-- An unsigned integer of `k` bytes. -/
def uint (e : Nat → ε) (k : Nat) : Cursor ε Nat := do
  let b ← bytes e k
  return leGet b

def times (r : Cursor ε α) : Nat → Cursor ε (List α)
  | 0 => pure []
  | n + 1 => do
    let a ← r
    let as ← times r n
    return a :: as

/-! ## What is read -/

def Exact (r : Cursor ε α) (E : Bytes → Nat → α → Bytes → Prop) : Prop :=
  ∀ file pos, pos ≤ file.length → ∀ a pos',
    r file pos = .ok (a, pos') ↔ ∃ b, E file pos a b ∧ b <+: file.drop pos ∧ pos' = pos + b.length

variable {r : Cursor ε α} {E E' : Bytes → Nat → α → Bytes → Prop}

theorem Exact.congr (h : Exact r E) (hE : ∀ file pos a b, E file pos a b ↔ E' file pos a b) : Exact r E' := by
  intro file pos hpos a pos'
  rw [h file pos hpos]
  simp only [hE]

theorem exact_pure (a : α) : Exact (pure a : Cursor ε α) fun _ _ a' b => a' = a ∧ b = [] := by
  intro file pos _ a' pos'
  constructor
  · intro h
    cases h
    exact ⟨[], ⟨rfl, rfl⟩, List.nil_prefix, rfl⟩
  · rintro ⟨b, ⟨rfl, rfl⟩, -, rfl⟩
    rfl

theorem exact_fail (e : Nat → ε) : Exact (fail e : Cursor ε α) fun _ _ _ _ => False := by
  intro file pos _ a pos'
  constructor
  · exact nofun
  · rintro ⟨b, hb, -⟩
    exact hb.elim

theorem exact_position : Exact (position : Cursor ε Nat) fun _ pos a b => a = pos ∧ b = [] := by
  intro file pos _ a pos'
  constructor
  · intro h
    cases h
    exact ⟨[], ⟨rfl, rfl⟩, List.nil_prefix, rfl⟩
  · rintro ⟨b, ⟨rfl, rfl⟩, -, rfl⟩
    rfl

theorem exact_file : Exact (file : Cursor ε Bytes) fun file _ a b => a = file ∧ b = [] := by
  intro file pos _ a pos'
  constructor
  · intro h
    cases h
    exact ⟨[], ⟨rfl, rfl⟩, List.nil_prefix, rfl⟩
  · rintro ⟨b, ⟨rfl, rfl⟩, -, rfl⟩
    rfl

theorem exact_bytes (e : Nat → ε) (n : Nat) : Exact (bytes e n) fun _ _ a b => a = b ∧ b.length = n := by
  intro file pos hpos a pos'
  rw [bytes]
  split
  · next h =>
    refine ⟨nofun, ?_⟩
    rintro ⟨b, ⟨-, hlen⟩, hpre, -⟩
    have hle := hpre.length_le
    rw [List.length_drop] at hle
    omega
  · next h =>
    rw [not_or] at h
    constructor
    · intro heq
      cases heq
      have hlen : ((file.drop pos).take n).length = n := List.length_take_of_le (by rw [List.length_drop]; omega)
      exact ⟨_, ⟨rfl, hlen⟩, List.take_prefix .., by rw [hlen]⟩
    · rintro ⟨b, ⟨rfl, rfl⟩, hpre, rfl⟩
      rw [← List.prefix_iff_eq_take.mp hpre]

theorem Exact.bind {k : α → Cursor ε β} {F : α → Bytes → Nat → β → Bytes → Prop} (hr : Exact r E)
    (hk : ∀ a, Exact (k a) (F a)) :
    Exact (r >>= k) fun file pos c b => ∃ a b₁ b₂, E file pos a b₁ ∧ F a file (pos + b₁.length) c b₂ ∧ b = b₁ ++ b₂ := by
  intro file pos hpos c pos'
  show (match r file pos with
    | .ok (a, pos) => k a file pos
    | .error e => .error e) = .ok (c, pos') ↔ _
  constructor
  · intro h
    split at h
    · next a pos₁ heq =>
      obtain ⟨b₁, hE, hpre₁, rfl⟩ := (hr file pos hpos a pos₁).mp heq
      have hle := hpre₁.length_le
      rw [List.length_drop] at hle
      obtain ⟨b₂, hF, hpre₂, rfl⟩ := (hk a file _ (by omega) c pos').mp h
      refine ⟨b₁ ++ b₂, ⟨a, b₁, b₂, hE, hF, rfl⟩, ?_, by rw [List.length_append, Nat.add_assoc]⟩
      obtain ⟨u, hu⟩ := hpre₁
      rw [← List.drop_drop, ← hu, List.drop_left] at hpre₂
      rw [← hu]
      exact (List.prefix_append_right_inj b₁).mpr hpre₂
    · exact absurd h nofun
  · rintro ⟨b, ⟨a, b₁, b₂, hE, hF, rfl⟩, hpre, rfl⟩
    have hpre₁ := (List.prefix_append b₁ b₂).trans hpre
    have hle := hpre₁.length_le
    rw [List.length_drop] at hle
    rw [(hr file pos hpos a _).mpr ⟨b₁, hE, hpre₁, rfl⟩]
    refine (hk a file _ (by omega) c _).mpr ⟨b₂, hF, ?_, by rw [List.length_append, Nat.add_assoc]⟩
    obtain ⟨u, hu⟩ := hpre₁
    rw [← List.drop_drop, ← hu, List.drop_left]
    rw [← hu] at hpre
    exact (List.prefix_append_right_inj b₁).mp hpre

/-- A test in front of a reader. -/
theorem Exact.ite {c : Prop} [Decidable c] {r' : Cursor ε α} (h : Exact r E) (h' : Exact r' E') :
    Exact (if c then r else r') fun file pos a b => if c then E file pos a b else E' file pos a b := by
  by_cases hc : c
  · simp only [if_pos hc]
    exact h
  · simp only [if_neg hc]
    exact h'

/-- Values that are read one after the other. -/
inductive Row (E : Bytes → Nat → α → Bytes → Prop) (file : Bytes) : Nat → List α → Bytes → Prop
  | nil : Row E file pos [] []
  | cons : E file pos a b → Row E file (pos + b.length) as bs → Row E file pos (a :: as) (b ++ bs)

theorem Exact.times (h : Exact r E) (n : Nat) :
    Exact (times r n) fun file pos as b => as.length = n ∧ Row E file pos as b := by
  induction n with
  | zero =>
    refine (exact_pure (ε := ε) ([] : List α)).congr fun file pos as b => ?_
    constructor
    · rintro ⟨rfl, rfl⟩
      exact ⟨rfl, .nil⟩
    · rintro ⟨hlen, hrow⟩
      cases hrow with
      | nil => exact ⟨rfl, rfl⟩
      | cons _ _ => exact absurd hlen nofun
  | succ n ih =>
    refine (h.bind fun a => ih.bind fun as => exact_pure (a :: as)).congr fun file pos as b => ?_
    constructor
    · rintro ⟨a, b₁, b₂, hE, ⟨as', b₃, b₄, ⟨hlen, hrow⟩, ⟨rfl, rfl⟩, rfl⟩, rfl⟩
      rw [List.append_nil]
      exact ⟨congrArg Nat.succ hlen, .cons hE hrow⟩
    · rintro ⟨hlen, hrow⟩
      cases hrow with
      | nil => exact absurd hlen nofun
      | cons hE hrow =>
        exact ⟨_, _, _, hE, ⟨_, _, [], ⟨Nat.succ.inj hlen, hrow⟩, ⟨rfl, rfl⟩, (List.append_nil _).symm⟩, rfl⟩

/-- What is read when the encodings of some values stand one after the other. -/
def place {γ : Type} (f : Nat → γ → α) (enc : γ → Bytes) : Nat → List γ → List α
  | _, [] => []
  | pos, e :: es => f pos e :: place f enc (pos + (enc e).length) es

theorem row_iff {γ : Type} {P : γ → Prop} {f : Nat → γ → α} {enc : γ → Bytes} {file : Bytes} {pos : Nat} {as : List α} {b :
    Bytes} :
    Row (fun _ pos a b => ∃ e, P e ∧ b = enc e ∧ a = f pos e) file pos as b ↔
      ∃ es : List γ, (∀ e ∈ es, P e) ∧ b = es.flatMap enc ∧ as = place f enc pos es := by
  constructor
  · intro h
    induction h with
    | nil => exact ⟨[], nofun, rfl, rfl⟩
    | cons hE _ ih =>
      obtain ⟨e, he, rfl, rfl⟩ := hE
      obtain ⟨es, hes, rfl, rfl⟩ := ih
      refine ⟨e :: es, fun x hx => ?_, List.flatMap_cons.symm, rfl⟩
      cases List.mem_cons.mp hx with
      | inl hx => exact hx ▸ he
      | inr hx => exact hes x hx
  · rintro ⟨es, hes, rfl, rfl⟩
    induction es generalizing pos with
    | nil => exact .nil
    | cons e es ih =>
      rw [List.flatMap_cons]
      exact .cons ⟨e, hes e List.mem_cons_self, rfl, rfl⟩ (ih fun x hx => hes x (List.mem_cons_of_mem e hx))

theorem length_place {γ : Type} (f : Nat → γ → α) (enc : γ → Bytes) (pos : Nat) (es : List γ) :
    (place f enc pos es).length = es.length := by
  induction es generalizing pos with
  | nil => rfl
  | cons e es ih => exact congrArg Nat.succ (ih _)

/-! ## Integers -/

theorem lePut_leGet (b : Bytes) : lePut b.length (leGet b) = b := by
  induction b with
  | nil => rfl
  | cons x b ih =>
    have hx : x.toNat < 256 := x.toNat_lt
    have hdiv : (x.toNat + 256 * leGet b) / 256 = leGet b := by omega
    have hmod : UInt8.ofNat (x.toNat + 256 * leGet b) = x := by
      apply UInt8.toNat_inj.mp
      rw [UInt8.toNat_ofNat']
      omega
    rw [List.length_cons, lePut, leGet, hdiv, ih, hmod]

theorem exact_uint (e : Nat → ε) (k : Nat) : Exact (uint e k) fun _ _ n b => n < 256 ^ k ∧ b = lePut k n := by
  refine ((exact_bytes e k).bind fun b => exact_pure (leGet b)).congr fun file pos n b => ?_
  constructor
  · rintro ⟨a, b₁, b₂, ⟨rfl, rfl⟩, ⟨rfl, rfl⟩, rfl⟩
    rw [List.append_nil]
    exact ⟨leGet_lt a, (lePut_leGet a).symm⟩
  · rintro ⟨hlt, rfl⟩
    exact ⟨_, lePut k n, [], ⟨rfl, length_lePut k n⟩, ⟨(leGet_lePut hlt).symm, rfl⟩, (List.append_nil _).symm⟩

end Cursor
