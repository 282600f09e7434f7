/-!
How a reading can end without a value: refused with an error of its own, or halted by a length
that the caller was to rule out. The second is no answer at all, and nothing downstream maps
it to an error.
-/

namespace KeyQuorum

inductive Halt (ε : Type) where
  | refused (e : ε)
  | halted
  deriving DecidableEq, Repr

namespace Halt

def map {ε δ : Type} (f : ε → δ) : Halt ε → Halt δ
  | .refused e => .refused (f e)
  | .halted => .halted

end Halt

end KeyQuorum
