import KeyQuorum.Proofs.Hash.Packed

/-!
Messages to be hashed, as numbers.

A message is one number with its length in bytes. Putting messages one after the other is then
two operations on numbers, however long they are, and the words of a block are read off the
number where they stand. So a long message that is put together of few parts costs as much as its
parts, and a part that comes again and again costs nothing anew.
-/

namespace KeyQuorum.Sha256.Packed

/-- A byte string as the number it spells, with its length. -/
structure Message where
  length : Nat
  number : Nat

namespace Message

def ofBytes (bs : Bytes) : Message :=
  ⟨bs.length, bs.foldl (fun n b => (n.mul 256).add b.toNat) 0⟩

def append (m m' : Message) : Message :=
  ⟨m.length.add m'.length, (m.number.mul (Nat.pow 256 m'.length)).add m'.number⟩

def join (ms : List Message) : Message := ms.foldl append ⟨0, 0⟩

/-- The words of a number, from the highest of `n` down. -/
def words (number : Nat) : (n : Nat) → List Nat
  | 0 => []
  | n + 1 => word number n :: words number n

/-- The hash of a message. -/
def digest (m : Message) : Bytes :=
  let blocks := (m.length + 72) / 64
  let padded := m.append (ofBytes (padding m.length))
  force padded.number fun number =>
    force (absorb blocks (packState initial) (words number (16 * blocks)))
      fun s => places.flatMap fun i => wordBytes (word s i)

variable {bs cs : Bytes}

lemma foldl_append (bs : Bytes) (n : Nat) :
    bs.foldl (fun n b => (n.mul 256).add b.toNat) n =
      n * 256 ^ bs.length + (ofBytes bs).number := by
  induction bs generalizing n with
  | nil => simp [ofBytes]
  | cons b bs ih =>
    have hzero : (ofBytes (b :: bs)).number =
        ((Nat.mul 0 256).add b.toNat) * 256 ^ bs.length + (ofBytes bs).number := ih _
    rw [List.foldl_cons, ih, hzero, List.length_cons, Nat.pow_succ]
    change (n * 256 + b.toNat) * 256 ^ bs.length + _ =
      n * (256 ^ bs.length * 256) + ((0 * 256 + b.toNat) * 256 ^ bs.length + _)
    ring

lemma ofBytes_append (bs cs : Bytes) : ofBytes (bs ++ cs) = (ofBytes bs).append (ofBytes cs) := by
  have hnumber : (ofBytes (bs ++ cs)).number = ((ofBytes bs).append (ofBytes cs)).number := by
    rw [ofBytes, List.foldl_append, foldl_append]
    rfl
  have hlength : (ofBytes (bs ++ cs)).length = ((ofBytes bs).append (ofBytes cs)).length :=
    List.length_append
  exact congr (congrArg Message.mk hlength) hnumber

lemma join_map_ofBytes (parts : List Bytes) : join (parts.map ofBytes) = ofBytes parts.flatten := by
  have hfold : ∀ (parts : List Bytes) (bs : Bytes),
      (parts.map ofBytes).foldl append (ofBytes bs) = ofBytes (bs ++ parts.flatten) := by
    intro parts
    induction parts with
    | nil => intro bs; rw [List.flatten_nil, List.append_nil]; rfl
    | cons p parts ih =>
      intro bs
      rw [List.map_cons, List.foldl_cons, ← ofBytes_append, ih, List.flatten_cons,
        List.append_assoc]
  exact hfold parts []

/-! ### The words of a message -/

/-- Words stand in a row with the last of them lowest. -/
lemma words_row {ws : List Nat} (h : ∀ w ∈ ws, w < base) (above : List Nat) :
    words (row (ws.reverse ++ above)) ws.length = ws := by
  induction ws generalizing above with
  | nil => rfl
  | cons w ws ih =>
    have hws : ∀ u ∈ ws, u < base := fun u hu => h u (List.mem_cons_of_mem w hu)
    have hword := word_row ws.reverse above (fun u hu => hws u (List.mem_reverse.mp hu))
      (h w List.mem_cons_self)
    rw [List.length_reverse] at hword
    rw [List.reverse_cons, List.append_assoc, List.singleton_append, List.length_cons, words, hword,
      ih hws]

lemma lor_bytes (a b c d : UInt8) :
    (((a.toNat.shiftLeft 24).lor (b.toNat.shiftLeft 16)).lor (c.toNat.shiftLeft 8)).lor d.toNat =
      ((a.toNat * 256 + b.toNat) * 256 + c.toNat) * 256 + d.toNat := by
  have hb := b.toNat_lt
  have hc := c.toNat_lt
  have hd := d.toNat_lt
  change (a.toNat <<< 24 ||| b.toNat <<< 16 ||| c.toNat <<< 8) ||| d.toNat = _
  -- The bytes do not overlap where they have been shifted to, so joining them adds them up.
  have hab : a.toNat <<< 24 ||| b.toNat <<< 16 = (a.toNat * 256 + b.toNat) <<< 16 := by
    rw [← Nat.shiftLeft_add_eq_or_of_lt (by rw [Nat.shiftLeft_eq]; omega), Nat.shiftLeft_eq,
      Nat.shiftLeft_eq, Nat.shiftLeft_eq]
    omega
  have habc : (a.toNat * 256 + b.toNat) <<< 16 ||| c.toNat <<< 8 =
      ((a.toNat * 256 + b.toNat) * 256 + c.toNat) <<< 8 := by
    rw [← Nat.shiftLeft_add_eq_or_of_lt (by rw [Nat.shiftLeft_eq]; omega), Nat.shiftLeft_eq,
      Nat.shiftLeft_eq, Nat.shiftLeft_eq]
    omega
  rw [hab, habc, ← Nat.shiftLeft_add_eq_or_of_lt hd, Nat.shiftLeft_eq]

lemma number_eq_row {n : Nat} (h : bs.length = 4 * n) :
    (ofBytes bs).number = row (wordsOf bs).reverse := by
  induction n generalizing bs with
  | zero => rw [List.eq_nil_of_length_eq_zero h]; rfl
  | succ n ih =>
    -- Four bytes make up one word, which stands above all the words after it.
    match bs, h with
    | a :: b :: c :: d :: rest, h =>
      have hrest : rest.length = 4 * n := by
        simp only [List.length_cons] at h
        omega
      have hlen : (wordsOf rest).length = n := by
        rw [wordsOf_eq, List.length_map, length_wordsOf, hrest]
        omega
      have hpow : 256 ^ rest.length = base ^ n := by rw [hrest, Nat.pow_mul]; rfl
      have hnumber : (ofBytes (a :: b :: c :: d :: rest)).number =
          (((a.toNat * 256 + b.toNat) * 256 + c.toNat) * 256 + d.toNat) * 256 ^ rest.length +
            (ofBytes rest).number := by
        simp only [ofBytes, List.foldl_cons]
        rw [foldl_append]
        change
          (((((0 * 256 + a.toNat) * 256 + b.toNat) * 256 + c.toNat) * 256 + d.toNat)) * _ + _ = _
        rw [Nat.zero_mul, Nat.zero_add]
        rfl
      rw [hnumber, ih hrest, wordsOf, List.reverse_cons, row_append, List.length_reverse, hlen,
        hpow, lor_bytes, row_cons, row]
      ring

lemma length_padded (bs : Bytes) :
    (bs ++ padding bs.length).length = 4 * (16 * ((bs.length + 72) / 64)) := by
  simp only [padding, List.length_append, List.length_cons, List.length_replicate,
    Bytes.length_bigEndian]
  omega

/-- **The hash of a message** is that of its bytes. -/
theorem digest_ofBytes (bs : Bytes) : digest (ofBytes bs) = Packed.digest bs := by
  have hpadded : (ofBytes bs).append (ofBytes (padding (ofBytes bs).length)) =
      ofBytes (bs ++ padding bs.length) := (ofBytes_append _ _).symm
  have hlen : (wordsOf (bs ++ padding bs.length)).length = 16 * ((bs.length + 72) / 64) := by
    rw [wordsOf_eq, List.length_map, length_wordsOf, length_padded]
    omega
  have hwords : words (ofBytes (bs ++ padding bs.length)).number (16 * ((bs.length + 72) / 64)) =
      wordsOf (bs ++ padding bs.length) := by
    have hbase : ∀ w ∈ wordsOf (bs ++ padding bs.length), w < base := by
      rw [wordsOf_eq]
      exact toNat_lt_base
    have hrow := words_row hbase []
    rw [List.append_nil, hlen] at hrow
    rw [number_eq_row (length_padded bs), hrow]
  simp only [digest, hpadded, force_eq, Packed.digest]
  rw [show (ofBytes bs).length = bs.length from rfl, hwords]

lemma length_digest (m : Message) : m.digest.length = 32 := by
  simp only [digest, force_eq]
  rfl

def hash (m : Message) : Block 32 := ⟨m.digest, m.length_digest⟩

lemma hash_ofBytes (bs : Bytes) : hash (ofBytes bs) = Packed.hash bs :=
  Block.ext_bytes (digest_ofBytes bs)

/-! ### A long message in stretches -/

def blocks (m : Message) : Nat := (m.length + 72) / 64

def padded (m : Message) : Nat := (m.append (ofBytes (padding m.length))).number

/-- The packed state after some blocks of the message. -/
def stateAfter (m : Message) (count : Nat) : Nat :=
  absorb count (packState initial) (words m.padded (16 * m.blocks))

def closing (s : Nat) : Block 32 := ⟨places.flatMap fun i => wordBytes (word s i), rfl⟩

lemma hash_eq_closing (m : Message) : m.hash = closing (m.stateAfter m.blocks) := by
  apply Block.ext_bytes
  simp only [hash, digest, force_eq]
  rfl

lemma drop_words (number j n : Nat) : (words number (j + n)).drop j = words number n := by
  induction j with
  | zero => rw [Nat.zero_add, List.drop_zero]
  | succ j ih => rw [Nat.succ_add, words, List.drop_succ_cons, ih]

lemma absorb_add (n k s : Nat) (ws : List Nat) :
    absorb (n + k) s ws = absorb k (absorb n s ws) (ws.drop (16 * n)) := by
  induction n generalizing s ws with
  | zero => rw [Nat.zero_add, Nat.mul_zero, List.drop_zero, absorb]
  | succ n ih =>
    have hdrop : (ws.drop 16).drop (16 * n) = ws.drop (16 * (n + 1)) := by
      rw [List.drop_drop, Nat.mul_succ, Nat.add_comm]
    rw [Nat.succ_add, absorb, absorb, force_eq, force_eq, force_eq, force_eq, ih, hdrop]

/-- **A hash goes on from any state on its way**, with the words that are left. -/
lemma stateAfter_add {m : Message} {n k : Nat} (h : n + k ≤ m.blocks) :
    m.stateAfter (n + k) =
      absorb k (m.stateAfter n) (words m.padded (16 * (m.blocks - n))) := by
  have hwords : words m.padded (16 * m.blocks) =
      words m.padded (16 * n + 16 * (m.blocks - n)) := by
    rw [← Nat.mul_add]
    congr 2
    omega
  rw [stateAfter, absorb_add, ← stateAfter, hwords, drop_words]

end Message

end KeyQuorum.Sha256.Packed
