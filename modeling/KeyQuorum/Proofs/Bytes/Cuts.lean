import Mathlib.Tactic.Lemma
import KeyQuorum.Bytes
import KeyQuorum.Key.Halt

/-!
Byte strings cut with care.

Taking and dropping never fail: of what is too short they give what there is. The cuts here halt
on it instead. So a reader that makes all its cuts this way, and that comes to the same as one that
takes and drops, makes no cut beyond the end, whatever the lengths that its input claims.
-/

namespace KeyQuorum

/-- A reading whose cuts may be out of range. -/
abbrev Cutting (ε : Type) := Except (Halt ε)

/-- A reading that cuts nothing. -/
def Cutting.lift {ε α : Type} (r : Except ε α) : Cutting ε α := r.mapError .refused

namespace Cut

variable {ε α β : Type} {bs : Bytes} {i m n : Nat}

/-- The byte at a place. -/
def byte (bs : Bytes) (i : Nat) : Cutting ε UInt8 :=
  match bs[i]? with
  | some b => .ok b
  | none => .error .halted

def bytes (bs : Bytes) (i : Nat) : Nat → Cutting ε Bytes
  | 0 => .ok []
  | n + 1 => do
    let b ← byte bs i
    let rest ← bytes bs (i + 1) n
    return b :: rest

def before (bs : Bytes) (n : Nat) : Cutting ε Bytes :=
  if n ≤ bs.length then .ok (bs.take n) else .error .halted

def after (bs : Bytes) (n : Nat) : Cutting ε Bytes :=
  if n ≤ bs.length then .ok (bs.drop n) else .error .halted

/-- Both parts of a byte string that is cut in two. -/
def split (bs : Bytes) (n : Nat) : Cutting ε (Bytes × Bytes) :=
  if n ≤ bs.length then .ok (bs.take n, bs.drop n) else .error .halted

/-- A byte string that is to have a length. -/
def block (n : Nat) (bs : Bytes) : Cutting ε (Block n) :=
  match Block.ofBytes? n bs with
  | some b => .ok b
  | none => .error .halted

def less (m n : Nat) : Cutting ε Nat := if n ≤ m then .ok (m - n) else .error .halted

/-- The pieces of a length, without what is left over at the end. -/
def pieces (n : Nat) (bs : Bytes) : List Bytes :=
  (List.range (bs.length / n)).map fun i => (bs.drop (n * i)).take n

lemma ok_bind {δ : Type} (a : α) (f : α → Except δ β) : (Except.ok a >>= f) = f a := rfl

lemma lift_ok (a : α) : Cutting.lift (.ok a : Except ε α) = .ok a := rfl

/-- What is read without cuts may be read before what else is. -/
lemma lift_bind (r : Except ε α) (f : α → Except ε β) :
    Cutting.lift (r >>= f) = Cutting.lift r >>= fun a => Cutting.lift (f a) := by
  cases r <;> rfl

lemma byte_of_lt (h : i < bs.length) : (byte bs i : Cutting ε UInt8) = .ok bs[i] := by
  rw [byte, List.getElem?_eq_getElem h]

lemma bytes_of_le (h : i + n ≤ bs.length) :
    (bytes bs i n : Cutting ε Bytes) = .ok ((bs.drop i).take n) := by
  induction n generalizing i with
  | zero => rfl
  | succ n ih =>
    have hi : i < bs.length := by omega
    rw [bytes, byte_of_lt hi, ih (by omega), List.drop_eq_getElem_cons hi, List.take_succ_cons]
    rfl

lemma before_of_le (h : n ≤ bs.length) : (before bs n : Cutting ε Bytes) = .ok (bs.take n) :=
  if_pos h

lemma after_of_le (h : n ≤ bs.length) : (after bs n : Cutting ε Bytes) = .ok (bs.drop n) :=
  if_pos h

lemma split_of_le (h : n ≤ bs.length) :
    (split bs n : Cutting ε (Bytes × Bytes)) = .ok (bs.take n, bs.drop n) :=
  if_pos h

lemma block_of_length (h : bs.length = n) : (block n bs : Cutting ε (Block n)) = .ok ⟨bs, h⟩ := by
  rw [block, Block.ofBytes?, dif_pos h]

lemma less_of_le (h : n ≤ m) : (less m n : Cutting ε Nat) = .ok (m - n) := if_pos h

lemma pieces_of_le (hn : 0 < n) (h : n ≤ bs.length) :
    pieces n bs = bs.take n :: pieces n (bs.drop n) := by
  obtain ⟨k, hk⟩ := Nat.exists_eq_add_of_le h
  have hcount : bs.length / n = (bs.drop n).length / n + 1 := by
    rw [List.length_drop, hk, Nat.add_sub_cancel_left, Nat.add_div_left k hn]
  rw [pieces, pieces, hcount, List.range_succ_eq_map, List.map_cons, List.map_map]
  congr 1
  refine List.map_congr_left fun i _ => ?_
  rw [Function.comp_apply, List.drop_drop, Nat.mul_succ, Nat.add_comm]

end Cut

end KeyQuorum
