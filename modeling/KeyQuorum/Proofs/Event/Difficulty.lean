import Mathlib.Data.Nat.Size
import Mathlib.Tactic.Lemma
import Mathlib.Tactic.Ring
import KeyQuorum.Event.Work

/-!
What the difficulty of an id says of its number.

The zero bits in front of a byte string and the bits of the number it spells make up all its bits.
For the first byte that is not zero settles both: the bits before it are zero, and every bit after
it counts for the number. So an id has a difficulty just if its number is below a power of two.
-/

namespace KeyQuorum

namespace Bytes

lemma ofLittleEndian_append (bs cs : Bytes) :
    ofLittleEndian (bs ++ cs) = ofLittleEndian bs + 256 ^ bs.length * ofLittleEndian cs := by
  induction bs with
  | nil => simp [ofLittleEndian]
  | cons b bs ih =>
    rw [List.cons_append, ofLittleEndian, ofLittleEndian, ih, List.length_cons, Nat.pow_succ]
    ring

lemma ofBigEndian_cons (b : UInt8) (bs : Bytes) :
    ofBigEndian (b :: bs) = b.toNat * 256 ^ bs.length + ofBigEndian bs := by
  rw [ofBigEndian, List.reverse_cons, ofLittleEndian_append, List.length_reverse]
  simp only [ofLittleEndian, ofBigEndian]
  ring

end Bytes

namespace Work

/-! ### The bits of a number -/

lemma size_eq_log2 {n : Nat} (hn : n ≠ 0) : n.size = n.log2 + 1 :=
  Nat.le_antisymm (Nat.size_le.mpr Nat.lt_log2_self) (Nat.lt_size.mpr (Nat.log2_self_le hn))

lemma size_mul_pow_add {b k r : Nat} (hb : b ≠ 0) (hr : r < 2 ^ k) :
    (b * 2 ^ k + r).size = b.size + k := by
  refine Nat.le_antisymm (Nat.size_le.mpr ?_) ?_
  · calc b * 2 ^ k + r < (b + 1) * 2 ^ k := by
          rw [Nat.succ_mul]
          omega
      _ ≤ 2 ^ b.size * 2 ^ k := Nat.mul_le_mul_right _ (Nat.lt_size_self b)
      _ = 2 ^ (b.size + k) := (Nat.pow_add ..).symm
  · rw [← Nat.size_shiftLeft hb, Nat.shiftLeft_eq]
    exact Nat.size_le_size (Nat.le_add_right ..)

/-! ### The difficulty -/

/-- **The zero bits in front and the bits of the number are all bits.** -/
theorem leadingZeros_add_size (bs : Bytes) :
    leadingZeros bs + (Bytes.ofBigEndian bs).size = 8 * bs.length := by
  induction bs with
  | nil => rfl
  | cons b bs ih =>
    rw [leadingZeros, Bytes.ofBigEndian_cons, List.length_cons]
    split
    · next hzero =>
      rw [hzero, UInt8.toNat_zero, Nat.zero_mul, Nat.zero_add]
      omega
    · next hne =>
      -- The first byte that is not zero: what comes after it is below its lowest bit.
      have hb : b.toNat ≠ 0 := fun h => hne (UInt8.toNat_inj.mp h)
      have hlog : b.toNat.log2 < 8 := (Nat.log2_lt hb).mpr b.toNat_lt
      have hpow : 256 ^ bs.length = 2 ^ (8 * bs.length) := by rw [Nat.pow_mul]
      have hrest : Bytes.ofBigEndian bs < 2 ^ (8 * bs.length) := hpow ▸ Bytes.ofBigEndian_lt bs
      rw [hpow, size_mul_pow_add hb hrest, size_eq_log2 hb]
      omega

lemma difficulty_add_size (id : Block 32) : difficulty id + id.toNat.size = 256 := by
  have hsum := leadingZeros_add_size id.bytes
  rwa [id.length_bytes] at hsum

/-- **The difficulty of an id is the number of zero bits in front.** The number of the id is below
two to the number of the bits that are left and, unless all bits are zero, the first of these is
one. So the difficulty is enough for a target just if the number is below the target's bound. -/
theorem difficulty_bounds_number (id : Block 32) :
    difficulty id ≤ 256 ∧
    id.toNat < 2 ^ (256 - difficulty id) ∧
    (difficulty id < 256 → 2 ^ (255 - difficulty id) ≤ id.toNat) ∧
    ∀ target ≤ 256, target ≤ difficulty id ↔ id.toNat < 2 ^ (256 - target) := by
  have hsum := difficulty_add_size id
  refine ⟨by omega, Nat.size_le.mp (by omega), fun hlt => Nat.lt_size.mp (by omega),
    fun target htarget => ?_⟩
  rw [← Nat.size_le]
  omega

/-- An id whose second byte is five, and the one whose bytes are all zero. -/
theorem thirteen_zero_bits :
    let id : Block 32 := Block.ofNat 32 (5 * 2 ^ 240)
    difficulty id = 13 ∧ 2 ^ 242 ≤ id.toNat ∧ id.toNat < 2 ^ 243 ∧
      256 ≤ difficulty (Block.ofNat 32 0) := by
  intro id
  obtain ⟨-, hbelow, habove, -⟩ := difficulty_bounds_number id
  have hthirteen : difficulty id = 13 := by decide
  rw [hthirteen] at hbelow habove
  obtain ⟨-, -, -, hzero⟩ := difficulty_bounds_number (Block.ofNat 32 0)
  exact ⟨hthirteen, habove (by decide), hbelow, (hzero 256 (Nat.le_refl 256)).mpr (by decide)⟩

end Work

end KeyQuorum
