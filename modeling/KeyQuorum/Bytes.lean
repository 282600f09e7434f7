/-!
Byte strings and the numbers they spell.

A byte string is a list of bytes; one of a fixed length carries its length in its type. A
number is written in a fixed width, least significant byte first (`littleEndian`) or most
significant byte first (`bigEndian`), and either form reads back to the number when it fits.
-/

namespace KeyQuorum

abbrev Bytes := List UInt8

namespace Bytes

/-- The low `8 * width` bits of `v`, least significant byte first. -/
def littleEndian : (width v : Nat) → Bytes
  | 0, _ => []
  | width + 1, v => UInt8.ofNat v :: littleEndian width (v / 256)

def ofLittleEndian : Bytes → Nat
  | [] => 0
  | b :: bs => b.toNat + 256 * ofLittleEndian bs

/-- The low `8 * width` bits of `v`, most significant byte first. -/
def bigEndian (width v : Nat) : Bytes := (littleEndian width v).reverse

def ofBigEndian (bs : Bytes) : Nat := ofLittleEndian bs.reverse

/-- Byte by byte exclusive or; the longer string is cut to the shorter. -/
def xor (a b : Bytes) : Bytes := List.zipWith (· ^^^ ·) a b

@[simp] theorem length_littleEndian (width v : Nat) : (littleEndian width v).length = width := by
  induction width generalizing v with
  | zero => rfl
  | succ w ih => simp [littleEndian, ih]

@[simp] theorem length_bigEndian (width v : Nat) : (bigEndian width v).length = width := by
  simp [bigEndian]

theorem ofLittleEndian_littleEndian {width v : Nat} (h : v < Nat.pow 256 width) :
    ofLittleEndian (littleEndian width v) = v := by
  induction width generalizing v with
  | zero => simp at h; subst h; rfl
  | succ w ih =>
    have hpow : Nat.pow 256 (w + 1) = Nat.pow 256 w * 256 := rfl
    have hv : v / 256 < Nat.pow 256 w := by
      rw [hpow] at h
      exact Nat.div_lt_of_lt_mul (by omega)
    simp only [littleEndian, ofLittleEndian, ih hv, UInt8.toNat_ofNat']
    omega

theorem ofLittleEndian_lt (bs : Bytes) : ofLittleEndian bs < Nat.pow 256 bs.length := by
  induction bs with
  | nil => simp [ofLittleEndian]
  | cons b bs ih =>
    have hb := b.toNat_lt
    have hpow : Nat.pow 256 (bs.length + 1) = Nat.pow 256 bs.length * 256 := rfl
    rw [List.length_cons, hpow]
    simp only [ofLittleEndian]
    omega

theorem littleEndian_ofLittleEndian (bs : Bytes) :
    littleEndian bs.length (ofLittleEndian bs) = bs := by
  induction bs with
  | nil => rfl
  | cons b bs ih =>
    have hb := b.toNat_lt
    have hdiv : (b.toNat + 256 * ofLittleEndian bs) / 256 = ofLittleEndian bs := by omega
    have hmod : UInt8.ofNat (b.toNat + 256 * ofLittleEndian bs) = b := by
      apply UInt8.toNat_inj.mp
      rw [UInt8.toNat_ofNat']
      omega
    simp [ofLittleEndian, littleEndian, hdiv, hmod, ih]

theorem ofBigEndian_bigEndian {width v : Nat} (h : v < Nat.pow 256 width) :
    ofBigEndian (bigEndian width v) = v := by
  simp [ofBigEndian, bigEndian, ofLittleEndian_littleEndian h]

theorem ofBigEndian_lt (bs : Bytes) : ofBigEndian bs < Nat.pow 256 bs.length := by
  simpa [ofBigEndian] using ofLittleEndian_lt bs.reverse

theorem bigEndian_ofBigEndian (bs : Bytes) : bigEndian bs.length (ofBigEndian bs) = bs := by
  have h := littleEndian_ofLittleEndian bs.reverse
  rw [List.length_reverse] at h
  simp [bigEndian, ofBigEndian, h]

@[simp] theorem length_xor (a b : Bytes) : (xor a b).length = min a.length b.length := by
  simp [xor]

/-- Adding the same bytes twice changes nothing. -/
theorem xor_xor {a k : Bytes} (h : a.length ≤ k.length) : xor (xor a k) k = a := by
  induction a generalizing k with
  | nil => rfl
  | cons x a ih =>
    cases k with
    | nil => simp at h
    | cons y k =>
      have hx : x ^^^ y ^^^ y = x := by rw [UInt8.xor_assoc, UInt8.xor_self, UInt8.xor_zero]
      simp only [List.length_cons, Nat.add_le_add_iff_right] at h
      have ht := ih h
      simp only [xor, List.zipWith_cons_cons] at ht ⊢
      rw [hx, ht]

end Bytes

/-- A byte string of `n` bytes. -/
structure Block (n : Nat) where
  bytes : Bytes
  length_bytes : bytes.length = n
  deriving DecidableEq

namespace Block

def ofBytes? (n : Nat) (bs : Bytes) : Option (Block n) :=
  if h : bs.length = n then some ⟨bs, h⟩ else none

/-- The big-endian form of `v` in `n` bytes. -/
def ofNat (n v : Nat) : Block n := ⟨Bytes.bigEndian n v, Bytes.length_bigEndian n v⟩

/-- The number a block spells, most significant byte first. -/
def toNat {n : Nat} (b : Block n) : Nat := Bytes.ofBigEndian b.bytes

theorem ext_bytes {n : Nat} {a b : Block n} (h : a.bytes = b.bytes) : a = b := by
  cases a; cases b; cases h; rfl

@[simp] theorem ofBytes?_bytes {n : Nat} (b : Block n) : ofBytes? n b.bytes = some b := by
  simp [ofBytes?, b.length_bytes]

theorem toNat_lt {n : Nat} (b : Block n) : b.toNat < Nat.pow 256 n := by
  have h := Bytes.ofBigEndian_lt b.bytes
  rwa [b.length_bytes] at h

theorem toNat_ofNat {n v : Nat} (h : v < Nat.pow 256 n) : (ofNat n v).toNat = v :=
  Bytes.ofBigEndian_bigEndian h

@[simp] theorem ofNat_toNat {n : Nat} (b : Block n) : ofNat n b.toNat = b := by
  apply ext_bytes
  have h := Bytes.bigEndian_ofBigEndian b.bytes
  rw [b.length_bytes] at h
  exact h

instance {n : Nat} : Inhabited (Block n) := ⟨ofNat n 0⟩

end Block

end KeyQuorum
