import Mathlib.Data.List.Basic
import Saturation.Digest

/-!
Taking in bytes piece by piece. A chain over some bytes depends on their complete blocks only, so
pieces that are taken in one after the other end with the digest of all bytes.
-/

set_option autoImplicit false

namespace Saturation.Digest

open Hasher (partialBlock)

theorem Chain.blocks_short (s : Chain) {bytes : List UInt8} (h : bytes.length < 64) :
    s.blocks bytes = s := by
  unfold blocks
  rw [List.drop_eq_nil_of_le (by omega)]

/-- The first block is taken in on its own. -/
theorem Chain.blocks_block (s : Chain) {block : List UInt8} (h : block.length = 64)
    (rest : List UInt8) : s.blocks (block ++ rest) = (s.block (words block)).blocks rest := by
  have hrest : ((block ++ rest).drop 63).tail = rest := by
    rw [List.tail_drop, List.drop_left' h]
  have htake : (block ++ rest).take 64 = block := List.take_left' h
  conv_lhs => unfold blocks
  split
  · rename_i hnil
    have := congrArg List.length hnil
    simp only [List.length_drop, List.length_append, List.length_nil] at this
    omega
  · rename_i hcons
    rw [hcons, List.tail_cons] at hrest
    rw [htake, hrest]

theorem Hasher.partialBlock_short {bytes : List UInt8} (h : bytes.length < 64) :
    partialBlock bytes = bytes := by
  rw [partialBlock, Nat.div_eq_of_lt h, Nat.zero_mul, List.drop_zero]

theorem Hasher.partialBlock_block {block : List UInt8} (h : block.length = 64)
    (rest : List UInt8) : partialBlock (block ++ rest) = partialBlock rest := by
  have hdiv : (64 + rest.length) / 64 * 64 = 64 + rest.length / 64 * 64 := by omega
  rw [partialBlock, partialBlock, List.length_append, h, hdiv, ← List.drop_drop, List.drop_left' h]

/-- Bytes are a block and the bytes behind it, or too short for a block. -/
theorem block_or_short (bytes : List UInt8) :
    (∃ block rest, bytes = block ++ rest ∧ block.length = 64) ∨ bytes.length < 64 := by
  rcases Nat.lt_or_ge bytes.length 64 with h | h
  · exact .inr h
  · exact .inl ⟨bytes.take 64, bytes.drop 64, (List.take_append_drop 64 bytes).symm,
      List.length_take_of_le h⟩

/-- The bytes behind the last complete block are taken in together with the next piece. -/
theorem Chain.blocks_append (s : Chain) (bytes piece : List UInt8) :
    s.blocks (bytes ++ piece) = (s.blocks bytes).blocks (partialBlock bytes ++ piece) := by
  rcases block_or_short bytes with ⟨block, rest, rfl, h⟩ | h
  · rw [List.append_assoc, blocks_block s h, blocks_block s h, Hasher.partialBlock_block h]
    exact blocks_append _ rest piece
  · rw [blocks_short s h, Hasher.partialBlock_short h]
termination_by bytes.length
decreasing_by
  subst bytes
  simp only [List.length_append]
  omega

theorem Hasher.partialBlock_append (bytes piece : List UInt8) :
    partialBlock (partialBlock bytes ++ piece) = partialBlock (bytes ++ piece) := by
  rcases block_or_short bytes with ⟨block, rest, rfl, h⟩ | h
  · rw [List.append_assoc, partialBlock_block h, partialBlock_block h]
    exact partialBlock_append rest piece
  · rw [partialBlock_short h]
termination_by bytes.length
decreasing_by
  subst bytes
  simp only [List.length_append]
  omega

namespace Hasher

/-- Two pieces taken in one after the other are one piece. -/
theorem update_update (h : Hasher) (bytes piece : List UInt8) :
    (h.update bytes).update piece = h.update (bytes ++ piece) := by
  simp only [update, mk.injEq]
  refine ⟨?_, ?_, ?_⟩
  · rw [← List.append_assoc, ← Chain.blocks_append]
  · rw [partialBlock_append, List.append_assoc]
  · rw [List.length_append, Nat.add_assoc]

/-- What is taken in from the start ends with the digest of the whole. -/
theorem finish_update (bytes : List UInt8) : (start.update bytes).finish = sha256 bytes := by
  simp only [finish, update, start, List.nil_append, Nat.zero_add]
  rw [← Chain.blocks_append]
  rfl

end Hasher

end Saturation.Digest
