import DeskCalculator.Desk.Buffer

/-!
# Keys

A line typed by the user is a key, if it names one, and otherwise text to be
inserted. Names are recognised without regard to case.
-/

set_option autoImplicit false

namespace DeskCalculator

inductive Key where
  | insert (text : Text)
  | delete
  | clearEntry
  | clear
  | clearAll
  | sign
  | percent
  | equals
  | memory (action : MemoryAction)
  | mode (mode : Mode)
  | second
  deriving DecidableEq, Repr

namespace Key

/-- The names of the keys. The remainder is typed as a word and inserted as a symbol. -/
def named : List (Text × Key) := [
  (['='], equals),
  (['%'], percent),
  ("del".toList, delete),
  ("ce".toList, clearEntry),
  ("c".toList, clear),
  ("ac".toList, clearAll),
  ("neg".toList, sign),
  ("+/-".toList, sign),
  ("mc".toList, memory .clear),
  ("ms".toList, memory .store),
  ("m+".toList, memory .add),
  ("m-".toList, memory .subtract),
  ("mr".toList, memory .recall),
  ("std".toList, mode .standard),
  ("sci".toList, mode .scientific),
  ("2nd".toList, second),
  ("mod".toList, insert ['%'])]

def read? (line : Text) : Option Key :=
  let typed := line.trim
  if typed.isEmpty then none
  else some ((named.lookup typed.lower).getD (insert typed))

end Key

end DeskCalculator
