set_option autoImplicit false

namespace FiniteAutomata

namespace Version

/-- The release, and after it any tags. -/
def release : List Nat := [1, 0, 0]

def tags : List String := []

def text (build extra : Bool) : String :=
  -- without the build only the first two numbers are given, and no tags
  let numbers := if build then release else release.take 2
  ".".intercalate (numbers.map toString) ++ if build && extra then "".intercalate tags else ""

end Version

end FiniteAutomata
