import Mathlib.Algebra.Group.Nat.Defs
import Mathlib.Order.Bounds.Basic
import Mathlib.Tactic.Lemma
import KeyQuorum.Message.Padding

/-!
How far plaintexts are filled up.

All that is known of the power of two above a length is which powers are no less than it, and all
that is known of the padded length is which multiples of the step are. Both are the least of their
kind. Lengths up to one power have one step, which divides the power; so filling up never goes
beyond the power, keeps the order of lengths across a change of the step, and leaves alone what is
filled up already.
-/

namespace KeyQuorum.Padding

variable {k m n : Nat} {plaintext padded : Bytes}

/-! ### The power above -/

lemma powerAbove_eq_pow (n : Nat) : powerAbove n = 2 ^ ((n - 1).log2 + 1) := rfl

/-- The power above a length is no more than another power just if the length is not. -/
lemma powerAbove_le_iff (hn : 2 ≤ n) : powerAbove n ≤ 2 ^ k ↔ n ≤ 2 ^ k := by
  rw [powerAbove_eq_pow, Nat.pow_le_pow_iff_right (by omega), Nat.succ_le_iff,
    Nat.log2_lt (by omega)]
  omega

lemma isLeast_powerAbove (hn : 2 ≤ n) : IsLeast {q | (∃ k, q = 2 ^ k) ∧ n ≤ q} (powerAbove n) := by
  refine ⟨⟨⟨_, powerAbove_eq_pow n⟩, le_powerAbove n⟩, ?_⟩
  rintro q ⟨⟨k, rfl⟩, hq⟩
  exact (powerAbove_le_iff hn).mpr hq

/-- The lengths from one up to its power all have that power. -/
lemma powerAbove_eq (hm : 2 ≤ m) (hmn : m ≤ n) (hn : n ≤ powerAbove m) :
    powerAbove n = powerAbove m := by
  have hle : powerAbove n ≤ powerAbove m := (powerAbove_le_iff (by omega)).mpr hn
  have hge : powerAbove m ≤ powerAbove n :=
    (powerAbove_le_iff hm).mpr (hmn.trans (le_powerAbove n))
  exact Nat.le_antisymm hle hge

lemma step_congr (h : powerAbove m = powerAbove n) : step m = step n := by
  rw [step, step, h]

lemma step_eq (hn : 2 ≤ n) : step n = if n ≤ 256 then 32 else powerAbove n / 8 := by
  have hiff : powerAbove n ≤ 256 ↔ n ≤ 256 := powerAbove_le_iff (k := 8) hn
  simp only [step, hiff]

lemma step_of_short (hpos : 1 ≤ n) (hn : n ≤ 256) : step n = 32 := by
  by_cases hone : n = 1
  · subst hone
    decide
  · rw [step_eq (by omega), if_pos hn]

lemma pow_dvd_powerAbove (hn : 2 ^ k < n) : 2 ^ (k + 1) ∣ powerAbove n := by
  have hpos := Nat.two_pow_pos k
  have hlog : k ≤ (n - 1).log2 := (Nat.le_log2 (by omega)).mpr (by omega)
  rw [powerAbove_eq_pow]
  exact Nat.pow_dvd_pow 2 (Nat.succ_le_succ hlog)

lemma eight_mul_step (hn : 256 < n) : 8 * step n = powerAbove n := by
  have hdvd : 2 ^ 9 ∣ powerAbove n := pow_dvd_powerAbove (k := 8) hn
  rw [step_eq (by omega), if_neg (by omega)]
  omega

lemma step_dvd_powerAbove (hn : 32 < n) : step n ∣ powerAbove n := by
  by_cases hshort : n ≤ 256
  · have hdvd : 2 ^ 6 ∣ powerAbove n := pow_dvd_powerAbove (k := 5) hn
    rw [step_of_short (by omega) hshort]
    omega
  · rw [← eight_mul_step (by omega)]
    exact Nat.dvd_mul_left ..

/-! ### The padded length -/

lemma min_paddedLength (n : Nat) : 32 ≤ paddedLength n := by
  have hle := le_paddedLength n
  by_cases hn : n ≤ 32
  · rw [paddedLength, if_pos hn]
  · omega

lemma paddedLength_eq (hn : 1 ≤ n) : paddedLength n = step n * ((n - 1) / step n + 1) := by
  unfold paddedLength
  split
  · next hle =>
    have hdiv : (n - 1) / 32 = 0 := Nat.div_eq_of_lt (by omega)
    rw [step_of_short hn (by omega), hdiv]
  · rfl

lemma step_dvd_paddedLength (hn : 1 ≤ n) : step n ∣ paddedLength n := by
  rw [paddedLength_eq hn]
  exact Nat.dvd_mul_right ..

/-- The padded length is no more than a multiple of the step just if the length is not. -/
lemma paddedLength_le_iff (hn : 1 ≤ n) (hm : step n ∣ m) : paddedLength n ≤ m ↔ n ≤ m := by
  refine ⟨(le_paddedLength n).trans, fun hle => ?_⟩
  obtain ⟨j, rfl⟩ := hm
  have hdiv : (n - 1) / step n < j := Nat.div_lt_of_lt_mul (by omega)
  rw [paddedLength_eq hn]
  exact Nat.mul_le_mul_left _ hdiv

lemma isLeast_paddedLength (hn : 1 ≤ n) : IsLeast {m | step n ∣ m ∧ n ≤ m} (paddedLength n) :=
  ⟨⟨step_dvd_paddedLength hn, le_paddedLength n⟩,
    fun _ hm => (paddedLength_le_iff hn hm.1).mpr hm.2⟩

lemma paddedLength_le_powerAbove (hn : 32 < n) : paddedLength n ≤ powerAbove n :=
  (paddedLength_le_iff (by omega) (step_dvd_powerAbove hn)).mpr (le_powerAbove n)

lemma paddedLength_le_pow (hk : 5 ≤ k) (hn : n ≤ 2 ^ k) : paddedLength n ≤ 2 ^ k := by
  have hpow : 2 ^ 5 ≤ 2 ^ k := Nat.pow_le_pow_right (by omega) hk
  by_cases hsmall : n ≤ 32
  · rw [paddedLength, if_pos hsmall]
    omega
  · exact (paddedLength_le_powerAbove (by omega)).trans ((powerAbove_le_iff (by omega)).mpr hn)

lemma paddedLength_le (hn : n < 65536) : paddedLength n ≤ 65536 :=
  paddedLength_le_pow (k := 16) (by omega) (by omega)

/-- Longer plaintexts are not filled up to less. -/
lemma monotone_paddedLength : Monotone paddedLength := by
  intro m n hmn
  by_cases hm : m ≤ 32
  · rw [paddedLength, if_pos hm]
    exact min_paddedLength n
  by_cases hn : n ≤ powerAbove m
  · have hstep := step_congr (powerAbove_eq (by omega) hmn hn)
    refine (paddedLength_le_iff (by omega) ?_).mpr (hmn.trans (le_paddedLength n))
    rw [← hstep]
    exact step_dvd_paddedLength (by omega)
  · -- The step changes between the two lengths, and so the power above the first lies between.
    calc paddedLength m ≤ powerAbove m := paddedLength_le_powerAbove (by omega)
      _ ≤ n := by omega
      _ ≤ paddedLength n := le_paddedLength n

lemma paddedLength_paddedLength (n : Nat) : paddedLength (paddedLength n) = paddedLength n := by
  by_cases hn : n ≤ 32
  · have hmin : paddedLength n = 32 := if_pos hn
    rw [hmin]
    rfl
  · have hle := le_paddedLength n
    have hpower := powerAbove_eq (by omega) hle (paddedLength_le_powerAbove (by omega))
    refine Nat.le_antisymm ?_ (le_paddedLength _)
    refine (paddedLength_le_iff (by omega) ?_).mpr (Nat.le_refl _)
    rw [step_congr hpower]
    exact step_dvd_paddedLength (by omega)

lemma length_pad? (h : pad? plaintext = some padded) :
    padded.length = 2 + paddedLength plaintext.length := by
  have hle := le_paddedLength plaintext.length
  unfold pad? at h
  simp only [Option.ite_none_right_eq_some, Option.some.injEq] at h
  obtain ⟨-, rfl⟩ := h
  simp only [List.length_append, Bytes.length_bigEndian, List.length_replicate]
  omega

/-! ### The law -/

lemma exists_isLeast_power (hn : 1 ≤ n) : ∃ power,
    IsLeast {q | (∃ k, q = 2 ^ k) ∧ n ≤ q} power ∧ (2 ≤ n → power = powerAbove n) := by
  by_cases hone : n = 1
  · subst hone
    exact ⟨1, ⟨⟨⟨0, rfl⟩, Nat.le_refl 1⟩, fun q hq => hq.2⟩, fun h => absurd h (by omega)⟩
  · exact ⟨powerAbove n, isLeast_powerAbove (by omega), fun _ => rfl⟩

/-- **Plaintexts are filled up to the least multiple of a step**, of thirty-two bytes up to a length
of 256 and of an eighth of the least power of two beyond. So they are filled up to thirty-two bytes
at least and never to less than a shorter one is, what is filled up already is left alone, and the
longest plaintext is filled up to 65536 bytes. Nothing that is worked out on the way is too large
for a machine word. -/
theorem fills_to_least_multiple :
    (∀ n, 1 ≤ n → ∃ power step, IsLeast {q | (∃ k, q = 2 ^ k) ∧ n ≤ q} power ∧
      (n ≤ 256 → step = 32) ∧ (256 < n → 8 * step = power) ∧
      IsLeast {m | step ∣ m ∧ n ≤ m} (paddedLength n)) ∧
    (∀ n, max n 32 ≤ paddedLength n) ∧
    Monotone paddedLength ∧
    (∀ n, paddedLength (paddedLength n) = paddedLength n) ∧
    (∀ n ≤ 65535, paddedLength n ≤ 65536) ∧
    ∀ n, 32 < n → n < 2 ^ 62 → powerAbove n ≤ 2 ^ 62 ∧ paddedLength n ≤ 2 ^ 62 := by
  refine ⟨fun n hn => ?least, fun n => ?bounds, monotone_paddedLength, paddedLength_paddedLength,
    fun n hn => paddedLength_le (by omega), fun n hn hlt => ⟨?power, ?padded⟩⟩
  case least =>
    obtain ⟨power, hpower, heq⟩ := exists_isLeast_power hn
    refine ⟨power, step n, hpower, step_of_short hn, fun hlong => ?_, isLeast_paddedLength hn⟩
    rw [heq (by omega), eight_mul_step hlong]
  case bounds => exact Nat.max_le.mpr ⟨le_paddedLength n, min_paddedLength n⟩
  case power => exact (powerAbove_le_iff (by omega)).mpr hlt.le
  case padded => exact paddedLength_le_pow (by omega) hlt.le

/-- The first length with a wider step, of sixty-four bytes. -/
theorem wider_step_from_257 : paddedLength 256 = 256 ∧ paddedLength 257 = 320 ∧
    (∃ power step, IsLeast {q | (∃ k, q = 2 ^ k) ∧ 257 ≤ q} power ∧ 8 * step = power ∧
      IsLeast {m | step ∣ m ∧ 257 ≤ m} 320) ∧
    paddedLength 65535 ≤ 65536 ∧ powerAbove 257 ≤ 2 ^ 62 := by
  obtain ⟨hleast, -, -, -, hlongest, hword⟩ := fills_to_least_multiple
  have hpadded : paddedLength 257 = 320 := by decide
  obtain ⟨power, step, hpower, -, hstep, hmultiple⟩ := hleast 257 (by decide)
  rw [hpadded] at hmultiple
  exact ⟨by decide, hpadded, ⟨power, step, hpower, hstep (by decide), hmultiple⟩,
    hlongest 65535 (by decide), (hword 257 (by decide) (by decide)).1⟩

end KeyQuorum.Padding
