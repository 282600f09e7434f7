import KeyQuorum.Hash.Sha256

/-!
Keyed hashing over SHA-256, and the two steps of key derivation built on it: one that condenses
a secret into a key, and one that stretches a key into as many bytes as asked for.
-/

namespace KeyQuorum.Hmac

/-- The key in a block of sixty-four bytes; a longer one is hashed first. -/
def keyBlock (key : Bytes) : Bytes :=
  let k := if key.length ≤ 64 then key else Sha256.hashBytes key
  k ++ List.replicate (64 - k.length) 0

def code (key message : Bytes) : Block 32 :=
  let k := keyBlock key
  Sha256.hash (k.map (· ^^^ 0x5c) ++ Sha256.hashBytes (k.map (· ^^^ 0x36) ++ message))

def extract (salt secret : Bytes) : Block 32 := code salt secret

/-- The rounds of the stretching step, each hashing the one before, the info and its number. -/
def expandRounds (key info : Bytes) : (count index : Nat) → (last : Bytes) → Bytes
  | 0, _, _ => []
  | count + 1, index, last =>
    let block := (code key (last ++ info ++ [UInt8.ofNat index])).bytes
    block ++ expandRounds key info count (index + 1) block

def expand (key info : Bytes) (length : Nat) : Bytes :=
  (expandRounds key info ((length + 31) / 32) 1 []).take length

theorem length_expandRounds (key info : Bytes) (count index : Nat) (last : Bytes) :
    (expandRounds key info count index last).length = 32 * count := by
  induction count generalizing index last with
  | zero => rfl
  | succ n ih => simp [expandRounds, ih, Block.length_bytes]; omega

@[simp] theorem length_expand (key info : Bytes) (length : Nat) :
    (expand key info length).length = length := by
  simp only [expand, List.length_take, length_expandRounds]
  omega

end KeyQuorum.Hmac
