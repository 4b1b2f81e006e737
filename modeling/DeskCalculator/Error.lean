import DeskCalculator.Text

/-!
# Why an expression has no value

Every failure between the text of an expression and its value is one of these
causes. A cause belongs to a kind, and its wording is given in one place.
-/

set_option autoImplicit false

namespace DeskCalculator

inductive CalcError where
  | unknownCharacter (c : Char)
  | invalidNumeral (text : Text)
  | unexpectedEnd
  | unexpectedToken (text : Text)
  | groupNotClosed
  | callNotOpened (name : Text)
  | callWithoutArgument (name : Text)
  | callNotClosed (name : Text)
  | trailingToken (text : Text)
  | blankExpression
  | unknownFunction (name : Text)
  | missingSecondArgument (name : Text)
  | divisionByZero
  | moduloByZero
  | inverseOfZero
  | lnOfNonPositive
  | logOfNonPositive
  | squareRootOfNegative
  | rootOfOrderZero
  | evenRootOfNegative
  | factorialOfNonNatural
  | outOfRange
  deriving DecidableEq, Repr

namespace CalcError

inductive Kind where
  | lexical
  | structural
  | domain
  | range
  deriving DecidableEq, Repr

def kind : CalcError → Kind
  | unknownCharacter _ => .lexical
  | invalidNumeral _ | unexpectedEnd | unexpectedToken _ | groupNotClosed | callNotOpened _
  | callWithoutArgument _ | callNotClosed _ | trailingToken _ | blankExpression => .structural
  | unknownFunction _ | missingSecondArgument _ | divisionByZero | moduloByZero | inverseOfZero
  | lnOfNonPositive | logOfNonPositive | squareRootOfNegative | rootOfOrderZero
  | evenRootOfNegative | factorialOfNonNatural => .domain
  | outOfRange => .range

def message : CalcError → Text
  | unknownCharacter c => "caractère non reconnu: '".toList ++ [c, '\'']
  | invalidNumeral text => "nombre invalide: '".toList ++ text ++ ['\'']
  | unexpectedEnd => "fin d'expression inattendue".toList
  | unexpectedToken text => "jeton inattendu: '".toList ++ text ++ ['\'']
  | groupNotClosed => "parenthèse fermante manquante".toList
  | callNotOpened name => "appel de fonction sans parenthèse ouvrante: ".toList ++ name
  | callWithoutArgument name => "appel de fonction sans argument: ".toList ++ name
  | callNotClosed name => "appel de fonction sans parenthèse fermante: ".toList ++ name
  | trailingToken text => "entrée superflue: '".toList ++ text ++ ['\'']
  | blankExpression => "expression vide".toList
  | unknownFunction name => "fonction inconnue: ".toList ++ name
  | missingSecondArgument name => name ++ " attend deux arguments".toList
  | divisionByZero => "division par zéro".toList
  | moduloByZero => "modulo par zéro".toList
  | inverseOfZero => "inverse de zéro".toList
  | lnOfNonPositive => "ln: argument strictement positif requis".toList
  | logOfNonPositive => "log: argument strictement positif requis".toList
  | squareRootOfNegative => "racine carrée d'un nombre négatif".toList
  | rootOfOrderZero => "racine d'ordre zéro".toList
  | evenRootOfNegative => "racine paire d'un nombre négatif".toList
  | factorialOfNonNatural => "factorielle: entier positif ou nul requis".toList
  | outOfRange => "résultat hors de la plage représentable".toList

end CalcError

/-- The value of a calculation whose only failure is to leave the range. -/
def orOutOfRange {α : Type} : Option α → Except CalcError α
  | some x => .ok x
  | none => .error .outOfRange

end DeskCalculator
