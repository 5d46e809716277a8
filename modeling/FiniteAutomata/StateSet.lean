import FiniteAutomata.Namer.Members

set_option autoImplicit false

namespace FiniteAutomata

/-- A set of members together with the way in which it is named. -/
structure StateSet where
  members : List Member
  naming : List Member → Except Error String

namespace StateSet

def ofList (naming : List Member → Except Error String) (members : List Member) : StateSet :=
  ⟨Member.listed members, naming⟩

def name (set : StateSet) : Except Error String :=
  set.naming set.members

def asMember (set : StateSet) : Member :=
  .set set.members set.name

def quoted (set : StateSet) : Except Error String :=
  set.asMember.quoted

def names (set : StateSet) : Except Error (List String) := do
  pure (canonical (← Member.namesOf set.members))

def size (set : StateSet) : Nat := set.members.length

def contains (set : StateSet) (member : Member) : Bool := set.members.contains member

def compare (comparison : Comparison) (left right : StateSet) : Bool :=
  Member.compareSets comparison left.members right.members

end StateSet

end FiniteAutomata
