import Mathlib.Tactic.Lemma
import KeyQuorum.Cipher.ChaCha20

/-!
ChaCha20 by columns.

The state is kept as its four columns. They are mixed one by one, and so are the diagonals once
the rows have been turned against one another; turned four times the rows stand as before. The
blocks are those of the state in an array, but no array has to be written when one is worked out.
-/

namespace KeyQuorum.ChaCha20

/-- Four words that are mixed with one another: a column of the state, or a diagonal. -/
structure Quad where
  a : UInt32
  b : UInt32
  c : UInt32
  d : UInt32

def Quad.mix (q : Quad) : Quad :=
  let a := q.a + q.b
  let d := rotl (q.d ^^^ a) 16
  let c := q.c + d
  let b := rotl (q.b ^^^ c) 12
  let a := a + b
  let d := rotl (d ^^^ a) 8
  let c := c + d
  ⟨a, rotl (b ^^^ c) 7, c, d⟩

lemma quarterRound_eq (s : State) (i j k l : Nat) :
    quarterRound s i j k l =
      let q := Quad.mix ⟨s.getD i 0, s.getD j 0, s.getD k 0, s.getD l 0⟩
      (((s.setIfInBounds i q.a).setIfInBounds j q.b).setIfInBounds k q.c).setIfInBounds l q.d :=
  rfl

structure Columns where
  p : Quad
  q : Quad
  r : Quad
  s : Quad

namespace Columns

/-- The words of the state in reading order. -/
def words (m : Columns) : List UInt32 :=
  [m.p.a, m.q.a, m.r.a, m.s.a, m.p.b, m.q.b, m.r.b, m.s.b,
    m.p.c, m.q.c, m.r.c, m.s.c, m.p.d, m.q.d, m.r.d, m.s.d]

def ofWords (ws : List UInt32) : Columns :=
  let column (i : Nat) : Quad :=
    ⟨ws.getD i 0, ws.getD (i + 4) 0, ws.getD (i + 8) 0, ws.getD (i + 12) 0⟩
  ⟨column 0, column 1, column 2, column 3⟩

def mix (m : Columns) : Columns := ⟨m.p.mix, m.q.mix, m.r.mix, m.s.mix⟩

/-- The diagonals as columns. -/
def slant (m : Columns) : Columns :=
  ⟨⟨m.p.a, m.q.b, m.r.c, m.s.d⟩, ⟨m.q.a, m.r.b, m.s.c, m.p.d⟩,
    ⟨m.r.a, m.s.b, m.p.c, m.q.d⟩, ⟨m.s.a, m.p.b, m.q.c, m.r.d⟩⟩

def double (m : Columns) : Columns := m.mix.slant.mix.slant.slant.slant

variable (key : Block 32) (nonce : Block 12)

def block (counter : Nat) : Bytes :=
  let ws := start key nonce counter
  (List.zipWith (· + ·) (Nat.repeat double 10 (ofWords ws)).words ws).flatMap wordBytes

def apply (data : Bytes) : Bytes :=
  Bytes.xor data ((List.range ((data.length + 63) / 64)).flatMap (block key nonce))

lemma words_ofWords {ws : List UInt32} (h : ws.length = 16) : (ofWords ws).words = ws := by
  match ws, h with
  | [_, _, _, _, _, _, _, _, _, _, _, _, _, _, _, _], _ => rfl

lemma doubleRound_words (m : Columns) : doubleRound m.words.toArray = m.double.words.toArray := by
  simp only [doubleRound, quarterRound_eq, words]
  simp [double, mix, slant]

lemma repeat_doubleRound (n : Nat) (m : Columns) :
    Nat.repeat doubleRound n m.words.toArray = (Nat.repeat double n m).words.toArray := by
  induction n with
  | zero => rfl
  | succ n ih => rw [Nat.repeat, ih, doubleRound_words, Nat.repeat]

lemma block_eq (counter : Nat) : ChaCha20.block key nonce counter = block key nonce counter := by
  have hwords := words_ofWords (length_start key nonce counter)
  have hrounds := repeat_doubleRound 10 (ofWords (start key nonce counter))
  rw [hwords] at hrounds
  rw [ChaCha20.block, hrounds]
  rfl

/-- **The cipher by columns is the cipher.** -/
theorem apply_eq (data : Bytes) : ChaCha20.apply key nonce data = apply key nonce data := by
  rw [ChaCha20.apply, keystream, funext (block_eq key nonce)]
  rfl

end Columns

end KeyQuorum.ChaCha20
