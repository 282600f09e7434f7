import KeyQuorum.Curve.Field

/-!
A source of randomness: an endless row of thirty-two byte blocks, used one after the other.

A block is usable as a secret when the number it spells is a scalar other than zero. Usable
blocks never run out, so drawing a secret passes over the unusable ones and ends.
-/

namespace KeyQuorum

/-- A scalar other than zero. -/
abbrev UnitScalar := { s : Scalar // s ≠ 0 }

namespace UnitScalar

def ofNat? (v : Nat) : Option UnitScalar :=
  if h : 0 < v ∧ v < groupOrder then
    some ⟨⟨v, h.2⟩, fun e => by have := congrArg Fin.val e; simp at this; omega⟩
  else none

def ofBlock? (b : Block 32) : Option UnitScalar := ofNat? b.toNat

end UnitScalar

structure Entropy where
  block : Nat → Block 32
  fair : ∀ i, ∃ d, (UnitScalar.ofBlock? (block (i + d))).isSome
  used : Nat := 0

namespace Entropy

/-- How many blocks from `i` on are unusable before the next usable one. -/
noncomputable def gap (e : Entropy) (i : Nat) : Nat :=
  Classical.choose (p := fun d => (UnitScalar.ofBlock? (e.block (i + d))).isSome ∧
      ∀ d' < d, ¬ (UnitScalar.ofBlock? (e.block (i + d'))).isSome) <| by
    obtain ⟨d, hd⟩ := e.fair i
    induction d using Nat.strongRecOn with
    | _ d ih =>
      by_cases h : ∃ d' < d, (UnitScalar.ofBlock? (e.block (i + d'))).isSome
      · obtain ⟨d', hlt, hd'⟩ := h
        exact ih d' hlt hd'
      · exact ⟨d, hd, fun d' hlt hd' => h ⟨d', hlt, hd'⟩⟩

theorem gap_spec (e : Entropy) (i : Nat) :
    (UnitScalar.ofBlock? (e.block (i + e.gap i))).isSome ∧
      ∀ d < e.gap i, ¬ (UnitScalar.ofBlock? (e.block (i + d))).isSome :=
  Classical.choose_spec (p := fun d => (UnitScalar.ofBlock? (e.block (i + d))).isSome ∧
    ∀ d' < d, ¬ (UnitScalar.ofBlock? (e.block (i + d'))).isSome) _

theorem gap_succ_lt (e : Entropy) {i : Nat} (h : UnitScalar.ofBlock? (e.block i) = none) :
    e.gap (i + 1) < e.gap i := by
  have hi := e.gap_spec i
  have hs := e.gap_spec (i + 1)
  rcases hg : e.gap i with _ | g
  · rw [hg] at hi; simp [h] at hi
  · apply Nat.lt_succ_of_le
    apply Nat.le_of_not_lt
    intro hlt
    apply hs.2 g hlt
    rw [show i + 1 + g = i + e.gap i by omega]
    exact hi.1

/-- The first usable block from `i` on: its scalar and the place after it. -/
def find (e : Entropy) (i : Nat) : UnitScalar × Nat :=
  match h : UnitScalar.ofBlock? (e.block i) with
  | some s => (s, i + 1)
  | none => find e (i + 1)
termination_by e.gap i
decreasing_by exact e.gap_succ_lt h

def draw (e : Entropy) : Block 32 × Entropy := (e.block e.used, { e with used := e.used + 1 })

def drawScalar (e : Entropy) : UnitScalar × Entropy :=
  let (s, used) := e.find e.used
  (s, { e with used })

def drawScalars : Nat → Entropy → List UnitScalar × Entropy
  | 0, e => ([], e)
  | n + 1, e =>
    let (s, e) := e.drawScalar
    let (ss, e) := drawScalars n e
    (s :: ss, e)

@[simp] theorem length_drawScalars (n : Nat) (e : Entropy) :
    (drawScalars n e).1.length = n := by
  induction n generalizing e with
  | zero => rfl
  | succ n ih => simp [drawScalars, ih]

theorem ofBlock?_toBlock (s : UnitScalar) :
    (UnitScalar.ofBlock? (Residue.toBlock s.1)).isSome := by
  have hlt : s.1.val < 256 ^ 32 := Nat.lt_trans s.1.isLt (by decide)
  have hpos : 0 < s.1.val := Nat.pos_of_ne_zero fun h => s.2 (Fin.ext h)
  simp [UnitScalar.ofBlock?, UnitScalar.ofNat?, Residue.toBlock, Block.toNat_ofNat hlt, hpos]

/-- What follows the blocks that are given one by one: one scalar over and over, or one, two, three
and so on through the scalars. -/
inductive Tail where
  | constant (s : UnitScalar)
  | counting

/-- The scalar at a place of the count from one up to the last scalar and round again. -/
def count (i : Nat) : UnitScalar :=
  ⟨⟨i % (groupOrder - 1) + 1, by
      have : i % (groupOrder - 1) < groupOrder - 1 := Nat.mod_lt _ (by decide)
      omega⟩,
    fun e => by have := congrArg Fin.val e; simp at this⟩

def Tail.get : Tail → Nat → UnitScalar
  | .constant s, _ => s
  | .counting, i => count i

def ofBlocks (blocks : List (Block 32)) (tail : Tail) : Entropy where
  block i := (blocks[i]?).getD (Residue.toBlock (tail.get (i - blocks.length)).1)
  fair i := by
    refine ⟨blocks.length, ?_⟩
    rw [List.getElem?_eq_none (by omega)]
    exact ofBlock?_toBlock _

end Entropy

end KeyQuorum
