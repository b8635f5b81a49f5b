/-!
# Tokens of type expressions

A type expression is written with names, single characters and blanks between them. A dotted name
is one token: identifiers joined by dots, without blanks inside. A dot that no identifier follows
is a token of its own.
-/

namespace Injector.TypeExpr

/-- Space, tab, carriage return and line feed may stand between tokens. -/
def isBlank (c : Char) : Bool := c == ' ' || c == '\t' || c == '\r' || c == '\n'

/-- An identifier begins with an ASCII letter, an underscore or an at sign. -/
def isNameStart (c : Char) : Bool := c.isAlpha || c == '_' || c == '@'

/-- An identifier goes on with ASCII letters, digits and underscores. -/
def isNameRest (c : Char) : Bool := c.isAlphanum || c == '_'

/-- A token of a type expression. -/
inductive Token where
  /-- A dotted name. -/
  | name (text : String)
  /-- Any other character but a blank. -/
  | symbol (c : Char)
  deriving DecidableEq, Repr

/-- A token and the number of bytes before it. -/
structure Lexeme where
  /-- Bytes before the token. -/
  offset : Nat
  /-- The token. -/
  token : Token
  deriving DecidableEq, Repr

/-- Splits what follows the first character of a dotted name into the rest of the name and the
rest of the text. -/
def splitName : List Char → List Char × List Char
  | [] => ([], [])
  | '.' :: [] => ([], ['.'])
  | '.' :: c :: rest =>
      if isNameStart c then
        let r := splitName rest
        ('.' :: c :: r.1, r.2)
      else ([], '.' :: c :: rest)
  | c :: rest =>
      if isNameRest c then
        let r := splitName rest
        (c :: r.1, r.2)
      else ([], c :: rest)

/-- Splitting a name loses nothing. -/
theorem splitName_append (cs : List Char) : (splitName cs).1 ++ (splitName cs).2 = cs := by
  fun_induction splitName cs with
  | case1 => rfl
  | case2 => rfl
  | case3 c rest _ _ ih => simpa using ih
  | case4 => rfl
  | case5 c rest _ _ _ _ ih => simpa using ih
  | case6 => rfl

theorem splitName_length_le (cs : List Char) : (splitName cs).2.length ≤ cs.length := by
  have h := congrArg List.length (splitName_append cs)
  rw [List.length_append] at h
  omega

/-- The number of bytes of a text in UTF-8. -/
def byteLength (cs : List Char) : Nat := cs.foldr (fun c n => c.utf8Size + n) 0

@[simp] theorem byteLength_nil : byteLength [] = 0 := rfl

@[simp] theorem byteLength_cons (c : Char) (cs : List Char) :
    byteLength (c :: cs) = c.utf8Size + byteLength cs := rfl

@[simp] theorem byteLength_append (cs ds : List Char) :
    byteLength (cs ++ ds) = byteLength cs + byteLength ds := by
  induction cs with
  | nil => simp
  | cons c cs ih => simp [ih, Nat.add_assoc]

/-- The tokens of a text that begins `offset` bytes into the input. -/
def scan (offset : Nat) : List Char → List Lexeme
  | [] => []
  | c :: rest =>
      if isBlank c then scan (offset + c.utf8Size) rest
      else if isNameStart c then
        let r := splitName rest
        ⟨offset, .name (String.ofList (c :: r.1))⟩ :: scan (offset + byteLength (c :: r.1)) r.2
      else ⟨offset, .symbol c⟩ :: scan (offset + c.utf8Size) rest
  termination_by cs => cs.length
  decreasing_by
    all_goals simp only [List.length_cons]
    · omega
    · exact Nat.lt_succ_of_le (splitName_length_le rest)
    · omega

end Injector.TypeExpr
