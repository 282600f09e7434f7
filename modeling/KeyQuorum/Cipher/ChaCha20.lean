import KeyQuorum.Bytes

/-!
The ChaCha20 stream cipher.

A key and a nonce name a stream of sixty-four byte blocks, one per counter value; applying the
cipher adds the stream to the data by exclusive or, so applying it twice changes nothing.
-/

namespace KeyQuorum.ChaCha20

def rotl (x k : UInt32) : UInt32 := x <<< k ||| x >>> (32 - k)

/-- The words of a byte string, least significant byte first; a ragged end is dropped. -/
def wordsOf : Bytes → List UInt32
  | a :: b :: c :: d :: rest =>
    (a.toUInt32 ||| b.toUInt32 <<< 8 ||| c.toUInt32 <<< 16 ||| d.toUInt32 <<< 24) :: wordsOf rest
  | _ => []

def wordBytes (w : UInt32) : Bytes :=
  [w.toUInt8, (w >>> 8).toUInt8, (w >>> 16).toUInt8, (w >>> 24).toUInt8]

def constants : List UInt32 := [0x61707865, 0x3320646e, 0x79622d32, 0x6b206574]

/-- The four by four state, its words in reading order. -/
abbrev State := Array UInt32

def quarterRound (s : State) (i j k l : Nat) : State :=
  let a := s.getD i 0
  let b := s.getD j 0
  let c := s.getD k 0
  let d := s.getD l 0
  let a := a + b
  let d := rotl (d ^^^ a) 16
  let c := c + d
  let b := rotl (b ^^^ c) 12
  let a := a + b
  let d := rotl (d ^^^ a) 8
  let c := c + d
  let b := rotl (b ^^^ c) 7
  (((s.setIfInBounds i a).setIfInBounds j b).setIfInBounds k c).setIfInBounds l d

/-- The columns and then the diagonals. -/
def doubleRound (s : State) : State :=
  let s := quarterRound s 0 4 8 12
  let s := quarterRound s 1 5 9 13
  let s := quarterRound s 2 6 10 14
  let s := quarterRound s 3 7 11 15
  let s := quarterRound s 0 5 10 15
  let s := quarterRound s 1 6 11 12
  let s := quarterRound s 2 7 8 13
  quarterRound s 3 4 9 14

variable (key : Block 32) (nonce : Block 12)

def start (counter : Nat) : List UInt32 :=
  constants ++ wordsOf key.bytes ++ [UInt32.ofNat counter] ++ wordsOf nonce.bytes

def block (counter : Nat) : Bytes :=
  let s := start key nonce counter
  (List.zipWith (· + ·) (Nat.repeat doubleRound 10 s.toArray).toList s).flatMap wordBytes

/-- The first `count` blocks of the stream. -/
def keystream (count : Nat) : Bytes := (List.range count).flatMap (block key nonce)

def apply (data : Bytes) : Bytes :=
  Bytes.xor data (keystream key nonce ((data.length + 63) / 64))

@[simp] theorem size_quarterRound (s : State) (i j k l : Nat) :
    (quarterRound s i j k l).size = s.size := by
  simp [quarterRound]

@[simp] theorem size_doubleRound (s : State) : (doubleRound s).size = s.size := by
  simp [doubleRound]

theorem length_wordsOf (bs : Bytes) : (wordsOf bs).length = bs.length / 4 := by
  induction bs using wordsOf.induct with
  | case1 a b c d rest ih => simp [wordsOf, ih]; omega
  | case2 bs h =>
    match bs, h with
    | [], _ | [_], _ | [_, _], _ | [_, _, _], _ => simp [wordsOf]
    | _ :: _ :: _ :: _ :: _, h => exact absurd rfl (h _ _ _ _ _)

theorem length_start (counter : Nat) : (start key nonce counter).length = 16 := by
  simp [start, length_wordsOf, constants, key.length_bytes, nonce.length_bytes]

theorem length_flatMap_wordBytes (ws : List UInt32) :
    (ws.flatMap wordBytes).length = 4 * ws.length := by
  induction ws with
  | nil => rfl
  | cons w ws ih => simp [wordBytes, ih]; omega

theorem size_repeat_doubleRound (n : Nat) (s : State) :
    (Nat.repeat doubleRound n s).size = s.size := by
  induction n with
  | zero => rfl
  | succ n ih => rw [Nat.repeat, size_doubleRound, ih]

@[simp] theorem length_block (counter : Nat) : (block key nonce counter).length = 64 := by
  rw [block, length_flatMap_wordBytes, List.length_zipWith, Array.length_toList,
    size_repeat_doubleRound, List.size_toArray, length_start]
  rfl

@[simp] theorem length_keystream (count : Nat) :
    (keystream key nonce count).length = 64 * count := by
  induction count with
  | zero => rfl
  | succ n ih =>
    unfold keystream at ih ⊢
    simp [List.range_succ, ih, length_block]; omega

@[simp] theorem length_apply (data : Bytes) : (apply key nonce data).length = data.length := by
  simp [apply, length_keystream]; omega

/-- Deciphering is enciphering again. -/
theorem apply_apply (data : Bytes) : apply key nonce (apply key nonce data) = data := by
  rw [apply, length_apply]
  apply Bytes.xor_xor
  rw [length_keystream]
  omega

end KeyQuorum.ChaCha20
