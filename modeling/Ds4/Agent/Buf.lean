import Ds4.Server.Utf8

/-!
# The text of a tool

`agent_buf` collects what a tool answers. It may have a limit; the piece that goes beyond it is cut between two
characters, and nothing is taken after it.
-/

namespace Ds4.Agent
open C

def agentToolMaxBytes : Nat := 128 * 1024

def intMax : Nat := 2 ^ 31 - 1

structure AgentBuf where
  bytes : Bytes
  limit : Nat
  truncated : Bool

/-- `n` moved back to the start of a character. -/
def cutBack (s : Bytes) : Nat → Nat
  | 0 => 0
  | n + 1 => if isCont (s.getD (n + 1) 0) then cutBack s n else n + 1

def agentBufAppend (b : AgentBuf) (s : Bytes) : AgentBuf :=
  if s = [] ∨ b.truncated then b
  else if b.limit ≠ 0 ∧ b.bytes.length ≤ b.limit ∧ b.limit < b.bytes.length + s.length then
    { b with bytes := b.bytes ++ s.take (cutBack s (b.limit - b.bytes.length)), truncated := true }
  else { b with bytes := b.bytes ++ s }

section
variable {b : AgentBuf} {s : Bytes}

theorem truncated_agentBufAppend (h : (agentBufAppend b s).truncated = false) : b.truncated = false := by
  rw [agentBufAppend] at h
  split at h
  · exact h
  split at h
  · exact nomatch h
  · exact h

/-- What is not truncated is appended whole. -/
theorem bytes_agentBufAppend (h : (agentBufAppend b s).truncated = false) :
    (agentBufAppend b s).bytes = b.bytes ++ s := by
  have hb := truncated_agentBufAppend h
  rw [agentBufAppend] at h ⊢
  split
  · next hskip =>
    rw [hb] at hskip
    rw [hskip.resolve_right Bool.false_ne_true, List.append_nil]
  · next hnew =>
    rw [if_neg hnew] at h
    split at h
    · exact nomatch h
    · next hfit => rw [if_neg hfit]

end
end Ds4.Agent
