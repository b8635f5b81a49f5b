import Injector.Sorted

/-!
# Type expressions

A contract is asked for by a type: a named type with arguments, an array, a tuple, or a generic
marker that stands for a type yet to be chosen. This module holds the trees, their text, and the
questions that resolution asks of them.
-/

namespace Injector

/-- A type expression. -/
inductive TypeExpr where
  /-- A possibly dotted name with its generic arguments. -/
  | named (name : String) (args : List TypeExpr)
  /-- A generic marker. -/
  | marker (name : String)
  /-- A one-dimensional array. -/
  | array (element : TypeExpr)
  /-- A tuple. -/
  | tuple (items : List TypeExpr)
  deriving Repr, Inhabited

namespace TypeExpr

mutual

/-- Equality of types is decidable. -/
def decEq : (a b : TypeExpr) → Decidable (a = b)
  | .named n as, .named m bs =>
      if hn : n = m then
        match decEqList as bs with
        | isTrue h => isTrue (by rw [hn, h])
        | isFalse h => isFalse (by simp [h])
      else isFalse (by simp [hn])
  | .marker n, .marker m =>
      if hn : n = m then isTrue (by rw [hn]) else isFalse (by simp [hn])
  | .array a, .array b =>
      match decEq a b with
      | isTrue h => isTrue (by rw [h])
      | isFalse h => isFalse (by simp [h])
  | .tuple as, .tuple bs =>
      match decEqList as bs with
      | isTrue h => isTrue (by rw [h])
      | isFalse h => isFalse (by simp [h])
  | .named _ _, .marker _ => isFalse (by simp)
  | .named _ _, .array _ => isFalse (by simp)
  | .named _ _, .tuple _ => isFalse (by simp)
  | .marker _, .named _ _ => isFalse (by simp)
  | .marker _, .array _ => isFalse (by simp)
  | .marker _, .tuple _ => isFalse (by simp)
  | .array _, .named _ _ => isFalse (by simp)
  | .array _, .marker _ => isFalse (by simp)
  | .array _, .tuple _ => isFalse (by simp)
  | .tuple _, .named _ _ => isFalse (by simp)
  | .tuple _, .marker _ => isFalse (by simp)
  | .tuple _, .array _ => isFalse (by simp)

/-- Equality of lists of types is decidable. -/
def decEqList : (as bs : List TypeExpr) → Decidable (as = bs)
  | [], [] => isTrue rfl
  | [], _ :: _ => isFalse (by simp)
  | _ :: _, [] => isFalse (by simp)
  | a :: as, b :: bs =>
      match decEq a b, decEqList as bs with
      | isTrue h, isTrue hs => isTrue (by rw [h, hs])
      | isFalse h, _ => isFalse (by simp [h])
      | _, isFalse hs => isFalse (by simp [hs])

end

instance : DecidableEq TypeExpr := decEq

mutual

/-- The text of a type, arguments divided by a comma and a space. -/
def text : TypeExpr → String
  | .marker name => name
  | .named name [] => name
  | .named name (arg :: args) => name ++ "<" ++ arg.text ++ restText args ++ ">"
  | .array element => element.text ++ "[]"
  | .tuple [] => "()"
  | .tuple (item :: items) => "(" ++ item.text ++ restText items ++ ")"

/-- The text of the types after the first of a list. -/
def restText : List TypeExpr → String
  | [] => ""
  | t :: ts => ", " ++ t.text ++ restText ts

end

mutual

/-- The number of nodes of the tree. -/
def size : TypeExpr → Nat
  | .named _ args => sizeAll args + 1
  | .marker _ => 1
  | .array element => element.size + 1
  | .tuple items => sizeAll items + 1

/-- The number of nodes of several trees. -/
def sizeAll : List TypeExpr → Nat
  | [] => 0
  | t :: ts => t.size + sizeAll ts

end

/-- The name of a named type. -/
def name? : TypeExpr → Option String
  | .named name _ => some name
  | _ => none

/-- The part of a dotted name after its last dot. -/
def simpleName (name : String) : String :=
  String.ofList (name.toList.reverse.takeWhile (· ≠ '.')).reverse

/-- The parts a type is made of: arguments, items, or the element. -/
def args : TypeExpr → List TypeExpr
  | .named _ args => args
  | .marker _ => []
  | .array element => [element]
  | .tuple items => items

/-- Whether the type is a marker. -/
def isMarker : TypeExpr → Bool
  | .marker _ => true
  | _ => false

mutual

/-- Whether a marker occurs in the type. -/
def containsMarker : TypeExpr → Bool
  | .named _ args => anyContainsMarker args
  | .marker _ => true
  | .array element => element.containsMarker
  | .tuple items => anyContainsMarker items

/-- Whether a marker occurs in one of the types. -/
def anyContainsMarker : List TypeExpr → Bool
  | [] => false
  | t :: ts => t.containsMarker || anyContainsMarker ts

end

mutual

/-- The markers of a type in the order in which they occur. -/
def markerOccurrences : TypeExpr → List String
  | .named _ args => allMarkerOccurrences args
  | .marker name => [name]
  | .array element => element.markerOccurrences
  | .tuple items => allMarkerOccurrences items

/-- The markers of several types in the order in which they occur. -/
def allMarkerOccurrences : List TypeExpr → List String
  | [] => []
  | t :: ts => t.markerOccurrences ++ allMarkerOccurrences ts

end

/-- The markers of a type, ascending and each once. -/
def markers (t : TypeExpr) : List String := t.markerOccurrences.foldr insertDistinct []

mutual

/-- Turns the names listed in `names` into markers where they stand without arguments. -/
def withMarkers (names : List String) : TypeExpr → TypeExpr
  | .named name [] => if name ∈ names then .marker name else .named name []
  | .named name (arg :: args) =>
      .named name (arg.withMarkers names :: allWithMarkers names args)
  | .marker name => .marker name
  | .array element => .array (element.withMarkers names)
  | .tuple items => .tuple (allWithMarkers names items)

/-- Turns listed names into markers in several types. -/
def allWithMarkers (names : List String) : List TypeExpr → List TypeExpr
  | [] => []
  | t :: ts => t.withMarkers names :: allWithMarkers names ts

end

/-- Whether a name is a marker without being declared: `TT`, or `TT` followed by digits or by a
word of ASCII letters and digits that begins with a capital. -/
def isBuiltinMarker (name : String) : Bool :=
  match name.toList with
  | 'T' :: 'T' :: [] => true
  | 'T' :: 'T' :: c :: rest =>
      (c :: rest).all Char.isDigit || (c.isUpper && (c :: rest).all Char.isAlphanum)
  | _ => false

end TypeExpr

end Injector
