import Ds4.Lib.CString

/-!
# Little-endian integers

`lePut k n` is the number `n` in `k` bytes, lowest byte first; `leGet` reads any number of bytes.
-/

namespace C

def lePut : Nat → Nat → Bytes
  | 0, _ => []
  | k + 1, n => UInt8.ofNat n :: lePut k (n / 256)

def leGet : Bytes → Nat
  | [] => 0
  | b :: s => b.toNat + 256 * leGet s

@[simp] theorem length_lePut (k n : Nat) : (lePut k n).length = k := by
  induction k generalizing n with
  | zero => rfl
  | succ k ih => rw [lePut, List.length_cons, ih]

theorem leGet_lePut (h : n < 256 ^ k) : leGet (lePut k n) = n := by
  induction k generalizing n with
  | zero =>
    rw [Nat.pow_zero, Nat.lt_one_iff] at h
    rw [h]
    rfl
  | succ k ih =>
    have hdiv : n / 256 < 256 ^ k := by
      rw [Nat.pow_succ] at h
      exact Nat.div_lt_of_lt_mul (by rwa [Nat.mul_comm] at h)
    have hbyte : (UInt8.ofNat n).toNat = n % 256 := by simp
    rw [lePut, leGet, ih hdiv, hbyte]
    exact Nat.mod_add_div n 256

theorem leGet_lt (s : Bytes) : leGet s < 256 ^ s.length := by
  induction s with
  | nil => exact Nat.one_pos
  | cons b s ih =>
    have hb : b.toNat < 256 := b.toNat_lt
    rw [leGet, List.length_cons, Nat.pow_succ]
    omega

/-- An array of integers of `k` bytes each. -/
def lePuts (k : Nat) (ns : List Nat) : Bytes := ns.flatMap (lePut k)

def leGets (k : Nat) : Nat → Bytes → List Nat
  | 0, _ => []
  | n + 1, s => leGet (s.take k) :: leGets k n (s.drop k)

theorem lePuts_cons (k n : Nat) (ns : List Nat) : lePuts k (n :: ns) = lePut k n ++ lePuts k ns := rfl

@[simp] theorem length_lePuts (k : Nat) (ns : List Nat) : (lePuts k ns).length = k * ns.length := by
  induction ns with
  | nil => rfl
  | cons n ns ih =>
    rw [lePuts_cons, List.length_append, length_lePut, ih, List.length_cons, Nat.mul_succ,
      Nat.add_comm]

@[simp] theorem length_leGets (k n : Nat) (s : Bytes) : (leGets k n s).length = n := by
  induction n generalizing s with
  | zero => rfl
  | succ n ih => rw [leGets, List.length_cons, ih]

theorem leGets_lePuts_append (k : Nat) (ns : List Nat) (h : ∀ n ∈ ns, n < 256 ^ k) (s : Bytes) :
    leGets k ns.length (lePuts k ns ++ s) = ns := by
  induction ns with
  | nil => rfl
  | cons n ns ih =>
    have hk : (lePut k n).length = k := length_lePut k n
    rw [List.length_cons, leGets, lePuts_cons, List.append_assoc, List.take_left' hk,
      List.drop_left' hk, leGet_lePut (h n List.mem_cons_self),
      ih fun m hm => h m (List.mem_cons_of_mem _ hm)]

theorem leGets_lePuts (k : Nat) (ns : List Nat) (h : ∀ n ∈ ns, n < 256 ^ k) :
    leGets k ns.length (lePuts k ns) = ns := by
  have hs := leGets_lePuts_append k ns h []
  rwa [List.append_nil] at hs

end C
