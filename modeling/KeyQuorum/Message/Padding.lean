import KeyQuorum.Bytes

/-!
Padding of plaintexts, which hides their exact length.

A plaintext is preceded by its length in two bytes and followed by zeros up to a multiple of a
step: thirty-two bytes for short ones, and an eighth of the power of two above for others.
-/

namespace KeyQuorum.Padding

/-- The least power of two that is at least `n`, for `n` above one. -/
def powerAbove (n : Nat) : Nat := Nat.pow 2 ((n - 1).log2 + 1)

def step (n : Nat) : Nat := if powerAbove n ≤ 256 then 32 else powerAbove n / 8

/-- The length that `n` bytes are filled up to. -/
def paddedLength (n : Nat) : Nat := if n ≤ 32 then 32 else step n * ((n - 1) / step n + 1)

/-- Pads a plaintext of one byte up to 65535; others have no padded form. -/
def pad? (plaintext : Bytes) : Option Bytes :=
  let n := plaintext.length
  if 0 < n ∧ n < 65536 then
    some (Bytes.bigEndian 2 n ++ plaintext ++ List.replicate (paddedLength n - n) 0)
  else none

def unpad? : Bytes → Option Bytes
  | hi :: lo :: rest =>
    let n := Bytes.ofBigEndian [hi, lo]
    if n ≠ 0 ∧ rest.length = paddedLength n then some (rest.take n) else none
  | _ => none

theorem le_powerAbove (n : Nat) : n ≤ powerAbove n := by
  have : n - 1 < Nat.pow 2 ((n - 1).log2 + 1) := Nat.lt_log2_self
  unfold powerAbove
  omega

theorem step_pos (n : Nat) : 0 < step n := by
  unfold step
  split <;> omega

theorem le_paddedLength (n : Nat) : n ≤ paddedLength n := by
  unfold paddedLength
  split
  · omega
  · have := Nat.lt_mul_div_succ (n - 1) (step_pos n)
    omega

theorem unpad?_of_pad? {plaintext padded : Bytes} (h : pad? plaintext = some padded) :
    unpad? padded = some plaintext := by
  unfold pad? at h
  simp only [Option.ite_none_right_eq_some, Option.some.injEq] at h
  obtain ⟨⟨h0, hlt⟩, rfl⟩ := h
  have hle := le_paddedLength plaintext.length
  have hb : Bytes.bigEndian 2 plaintext.length =
      [UInt8.ofNat (plaintext.length / 256), UInt8.ofNat plaintext.length] := rfl
  have hv : Bytes.ofBigEndian [UInt8.ofNat (plaintext.length / 256), UInt8.ofNat plaintext.length] =
      plaintext.length := by
    rw [← hb]
    exact Bytes.ofBigEndian_bigEndian hlt
  simp only [hb, List.cons_append, List.nil_append, unpad?, hv]
  rw [if_pos ⟨by omega, by simp; omega⟩]
  simp

end KeyQuorum.Padding
