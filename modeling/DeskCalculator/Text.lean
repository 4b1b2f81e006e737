/-!
# Text

A text is a list of characters, so that every scan over it is structural. This
module holds the class of blank characters, trimming, and the measure of a text
in bytes of its usual encoding, which is how positions in a text are reported.
-/

set_option autoImplicit false

namespace DeskCalculator

abbrev Text := List Char

namespace Text

/-- White space in the sense of the Unicode property of that name. -/
def isBlank (c : Char) : Bool :=
  let n := c.toNat
  (9 ≤ n && n ≤ 13) || n = 32 || n = 0x85 || n = 0xA0 || n = 0x1680 ||
    (0x2000 ≤ n && n ≤ 0x200A) || n = 0x2028 || n = 0x2029 || n = 0x202F || n = 0x205F ||
    n = 0x3000

def trimLeft (t : Text) : Text := t.dropWhile isBlank

def trimRight (t : Text) : Text := (t.reverse.dropWhile isBlank).reverse

def trim (t : Text) : Text := trimRight (trimLeft t)

def size : Text → Nat
  | [] => 0
  | c :: rest => c.utf8Size + size rest

def takeBytes : Nat → Text → Text
  | _, [] => []
  | limit, c :: rest => if limit = 0 then [] else c :: takeBytes (limit - c.utf8Size) rest

def join (separator : Text) : List Text → Text
  | [] => []
  | [t] => t
  | t :: rest => t ++ separator ++ join separator rest

def lower (t : Text) : Text := t.map Char.toLower

end Text

end DeskCalculator
