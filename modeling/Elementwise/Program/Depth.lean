import Elementwise.Error

/-!
# Stack depth

The height of the stack after each instruction is a running sum of stack deltas. It has to stay
positive and to end at one.
-/

namespace Elementwise.Depth

/-- The heights that deltas lead to from `height`: the last one and the greatest, with `peak` the
greatest so far. -/
def run : (position : Nat) → (height peak : Int) → List Int → Except Error (Int × Int)
  | _, height, peak, [] => .ok (height, peak)
  | position, height, peak, delta :: rest =>
    let next := height + delta
    if next ≤ 0 then .error (.stackUnderflow position)
    else run (position + 1) next (max peak next) rest

/-- The stack slots that instructions need: two more than the greatest height, and at most `limit`.
-/
def required (limit : Nat) (deltas : List Int) : Except Error Nat := do
  let (height, peak) ← run 0 0 0 deltas
  if height ≠ 1 then .error (.stackImbalance height)
  else
    let depth := peak.toNat + 2
    if limit < depth then .error (.stackOverflow depth limit) else .ok depth

end Elementwise.Depth
