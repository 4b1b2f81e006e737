import DeskCalculator.Text

/-!
# Writing JSON

Quoted strings, and objects and lists laid out over several lines with two
spaces of indentation for each level.
-/

set_option autoImplicit false

namespace DeskCalculator.Json

def hexDigit (n : Nat) : Char := Nat.digitChar n

def escape (c : Char) : Text :=
  if c = '"' then ['\\', '"']
  else if c = '\\' then ['\\', '\\']
  else if c = '\n' then ['\\', 'n']
  else if c = '\r' then ['\\', 'r']
  else if c = '\t' then ['\\', 't']
  else if c.toNat = 8 then ['\\', 'b']
  else if c.toNat = 12 then ['\\', 'f']
  else if c.toNat < 32 then
    ['\\', 'u', '0', '0', hexDigit (c.toNat / 16), hexDigit (c.toNat % 16)]
  else [c]

def quote (t : Text) : Text := '"' :: t.flatMap escape ++ ['"']

def newLine (level : Nat) : Text := '\n' :: List.replicate (2 * level) ' '

def writeObject (level : Nat) (fields : List (Text × Text)) : Text :=
  let lines := fields.map fun field => newLine (level + 1) ++ quote field.1 ++ [':', ' '] ++ field.2
  ['\x7b'] ++ Text.join [','] lines ++ newLine level ++ ['\x7d']

def writeList (level : Nat) (elements : List Text) : Text :=
  if elements.isEmpty then ['[', ']']
  else
    ['['] ++ Text.join [','] (elements.map fun element => newLine (level + 1) ++ element) ++
      newLine level ++ [']']

def writeNatural (n : Nat) : Text := Nat.toDigits 10 n

end DeskCalculator.Json
