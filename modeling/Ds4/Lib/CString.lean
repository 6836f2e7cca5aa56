import Mathlib.Data.List.DropRight
import Mathlib.Data.List.TakeWhile
import Ds4.Lib.Search

/-!
# Byte strings and the C string functions

A buffer is a list of bytes. A `char *` that is only read up to its terminator is the list of the
bytes before it, `cstr` of the buffer. The character classes are those of the C locale.
-/

namespace C

abbrev Bytes := List UInt8

/-- The UTF-8 bytes of a string literal. -/
def lit (s : String) : Bytes := s.toList.flatMap String.utf8EncodeChar

/-- The byte of an ASCII character literal. -/
abbrev ch (c : Char) : UInt8 := c.toUInt8

def isspace (c : UInt8) : Bool := c == 32 || (9 ≤ c && c ≤ 13)

def isdigit (c : UInt8) : Bool := 48 ≤ c && c ≤ 57

def isxdigit (c : UInt8) : Bool :=
  isdigit c || (97 ≤ c && c ≤ 102) || (65 ≤ c && c ≤ 70)

def tolower (c : UInt8) : UInt8 := if 65 ≤ c && c ≤ 90 then c + 32 else c

/-- What a buffer holds when it is read as a C string. -/
def cstr (s : Bytes) : Bytes := s.takeWhile (· ≠ 0)

/-- `strstr`, as the offset of the occurrence. -/
def strstr (s pat : Bytes) : Option Nat := Scan.find pat (cstr s)

/-- `strchr`, as the offset of the occurrence. -/
def strchr (s : Bytes) (c : UInt8) : Option Nat := strstr s [c]

/-- `while (*p && isspace(*p)) p++`. -/
def skipSpace (s : Bytes) : Bytes := s.dropWhile isspace

/-- Drop the trailing white space. -/
def trimEnd (s : Bytes) : Bytes := s.rdropWhile isspace

/-- A `char *` that may be `NULL`, read with `p ? p : ""`. -/
abbrev orEmpty (s : Option Bytes) : Bytes := s.getD []

/-- A property of bytes is checked on the 256 values. -/
theorem forall_byte {p : UInt8 → Prop} (h : ∀ n < 256, p (UInt8.ofNat n)) (c : UInt8) : p c := by
  simpa using h c.toNat c.toNat_lt

theorem lit_append (a b : String) : lit (a ++ b) = lit a ++ lit b := by
  simp [lit]

@[simp] theorem cstr_of_notMem (h : 0 ∉ s) : cstr s = s := by
  rw [cstr, List.takeWhile_eq_self_iff]
  intro c hc
  simp only [ne_eq, decide_not, Bool.not_eq_eq_eq_not, Bool.not_true, decide_eq_false_iff_not]
  rintro rfl
  exact h hc

theorem zero_notMem_cstr (s : Bytes) : 0 ∉ cstr s := by
  intro h
  simpa using List.mem_takeWhile_imp h

theorem cstr_isPrefix (s : Bytes) : cstr s <+: s := List.takeWhile_prefix _

theorem strstr_of_notMem (h : 0 ∉ s) : strstr s pat = Scan.find pat s := by
  rw [strstr, cstr_of_notMem h]

theorem skipSpace_suffix (s : Bytes) : skipSpace s <:+ s := List.dropWhile_suffix _

theorem length_skipSpace_le (s : Bytes) : (skipSpace s).length ≤ s.length :=
  (skipSpace_suffix s).length_le

theorem skipSpace_cons_of_not (h : isspace c = false) : skipSpace (c :: s) = c :: s := by
  simp [skipSpace, h]

theorem skipSpace_cons_of (h : isspace c = true) : skipSpace (c :: s) = skipSpace s := by
  simp [skipSpace, h]

theorem trimEnd_isPrefix (s : Bytes) : trimEnd s <+: s := List.rdropWhile_prefix _ s

end C
