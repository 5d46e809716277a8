import FiniteAutomata.Kind

set_option autoImplicit false

/-!
The order of labels. Numbers compare by value, truth values among them; texts by code point; tuples at the
first place where they differ, a shorter one before the longer that it starts. Nothing else is ordered.
-/

namespace FiniteAutomata

inductive Comparison where
  | equal | different | less | atMost | greater | atLeast
  deriving DecidableEq

namespace Comparison

def sign : Comparison → String
  | .equal => "=="
  | .different => "!="
  | .less => "<"
  | .atMost => "<="
  | .greater => ">"
  | .atLeast => ">="

def holds : Comparison → Ordering → Bool
  | .equal, order => order == .eq
  | .different, order => order != .eq
  | .less, order => order == .lt
  | .atMost, order => order != .gt
  | .greater, order => order == .gt
  | .atLeast, order => order != .lt

end Comparison

namespace Label

def number? : Label → Option Int
  | .truth value => some (ofTruth value)
  | .int value => some value
  | _ => none

mutual

def order : Label → Label → Except (Kind × Kind) Ordering
  -- the order of two labels, or the kinds of the two parts that have none
  | .text left, .text right => .ok (compare left right)
  | .tuple left, .tuple right => orderAll left right
  | left, right =>
      match left.number?, right.number? with
      | some leftNumber, some rightNumber => .ok (compare leftNumber rightNumber)
      | _, _ => .error (left.kind, right.kind)

def orderAll : List Label → List Label → Except (Kind × Kind) Ordering
  | [], [] => .ok .eq
  | [], _ :: _ => .ok .lt
  | _ :: _, [] => .ok .gt
  | left :: lefts, right :: rights => if left == right then orderAll lefts rights else order left right

end

end Label

end FiniteAutomata
