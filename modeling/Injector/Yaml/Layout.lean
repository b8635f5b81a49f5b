import Injector.Yaml.Plain
import Injector.Yaml.Quoted
import Injector.Yaml.Token

/-!
# The layout of a YAML text

The tokens of a text follow from its indicators and from the columns in which things stand: a block
opens where an item or a key stands right of the blocks around it, and ends where something stands
left of it. Whether a scalar or a pair of brackets is a key shows only at the colon behind it; the
tokens of a key are then put before it.

Anchors, aliases, tags, block scalars and directives are not read, and make a text malformed.
-/

namespace Injector.Yaml

/-- A place where a key may have begun. -/
structure KeyMark where
  /-- The number of tokens before it. -/
  number : Nat
  /-- The place. -/
  place : Cursor
  /-- Whether nothing but a key can stand there. -/
  required : Bool

namespace KeyMark

/-- The most characters that a key may have. -/
def maxLength : Nat := 1024

/-- Whether no colon that makes a key of what begins at the mark can stand at a place any more: a
key stays on its line and is not too long. -/
def isPast (m : KeyMark) (c : Cursor) : Bool :=
  m.place.row < c.row || m.place.index + maxLength < c.index

end KeyMark

/-- What has been read of a text up to a place. -/
structure Layout where
  /-- The place. -/
  cursor : Cursor
  /-- The tokens, last first. -/
  tokens : List Token
  /-- The number of tokens. -/
  count : Nat
  /-- The columns of the open blocks, innermost first. -/
  columns : List Nat
  /-- Where a key may have begun inside the innermost brackets. -/
  mark : Option KeyMark
  /-- Where one may have begun outside of each pair of brackets that is open, innermost first. -/
  outer : List (Option KeyMark)
  /-- Whether a key may begin at the place. -/
  keyAllowed : Bool
  /-- A block stands right of those around it. -/
  descending : columns.Pairwise (· > ·)

namespace Layout

/-- The layout before a text. -/
def start (cs : List Char) : Layout := ⟨.start cs, [], 0, [], none, [], true, .nil⟩

/-- Whether the place is inside brackets. -/
def inBrackets (l : Layout) : Bool := !l.outer.isEmpty

/-- The first column that is right of every open block. -/
def margin (l : Layout) : Nat :=
  match l.columns with
  | [] => 0
  | column :: _ => column + 1

/-- Every open block stands left of the margin. -/
theorem lt_margin (l : Layout) : ∀ column ∈ l.columns, column < l.margin := by
  obtain ⟨_, _, _, columns, _, _, _, h⟩ := l
  cases columns with
  | nil => simp
  | cons first columns =>
      intro column hc
      rcases List.mem_cons.mp hc with rfl | hc
      · exact Nat.lt_succ_self column
      · exact Nat.lt_succ_of_lt (List.rel_of_pairwise_cons h hc)

/-- Adds a token that ends at a place. -/
def emit (l : Layout) (t : Token) (after : Cursor) : Layout :=
  { l with tokens := t :: l.tokens, count := l.count + 1, cursor := after }

/-- Adds a token of so many characters. -/
def emitWide (l : Layout) (t : Token) (width : Nat) : Layout := l.emit t (l.cursor.skip width)

/-- Puts a token behind so many tokens. -/
def insert (l : Layout) (number : Nat) (t : Token) : Layout :=
  let after := l.tokens.take (l.count - number)
  let before := l.tokens.drop (l.count - number)
  { l with tokens := after ++ t :: before, count := l.count + 1 }

/-- Opens a block in a column that is right of the open ones. -/
def openBlock (l : Layout) (column number : Nat) (t : Token) : Layout :=
  if h : l.inBrackets ∨ column < l.margin then l
  else
    { l.insert number t with
      columns := column :: l.columns
      descending := List.pairwise_cons.mpr ⟨fun c hc =>
        Nat.lt_of_lt_of_le (l.lt_margin c hc) (Nat.not_lt.mp (not_or.mp h).2), l.descending⟩ }

/-- Ends the blocks in a column and right of it. -/
def closeFrom (l : Layout) (column : Nat) : Layout :=
  if l.inBrackets then l
  else
    let closed := (l.columns.takeWhile (column ≤ ·)).length
    { l with
      tokens := List.replicate closed .blockEnd ++ l.tokens
      count := l.count + closed
      columns := l.columns.dropWhile (column ≤ ·)
      descending := l.descending.sublist (List.dropWhile_sublist _) }

/-- Settles that no key has begun, which is wrong where one is required. -/
def forgetKey (l : Layout) : Option Layout :=
  if l.mark.any KeyMark.required then none else some { l with mark := none }

/-- Notes that a key may begin at the place, if one is allowed. Where the keys of a block stand,
nothing else can. -/
def markKey (l : Layout) : Option Layout :=
  if l.keyAllowed then
    let required := !l.inBrackets && l.columns.head? == some l.cursor.column
    (l.forgetKey).map fun l => { l with mark := some ⟨l.count, l.cursor, required⟩ }
  else some l

/-- Forgets a mark that the place is past. -/
def renewed (c : Cursor) : Option KeyMark → Option (Option KeyMark)
  | some m =>
      if m.isPast c then if m.required then none else some none
      else some (some m)
  | none => some none

/-- Forgets the marks that the place is past. -/
def renewKeys (l : Layout) : Option Layout := do
  return { l with
    mark := ← renewed l.cursor l.mark
    outer := ← l.outer.mapM (renewed l.cursor) }

/-- Passes blanks, comments and line breaks up to the next token. Outside of brackets, a key may
begin after a line break, and no tab may stand before what may be a key. A byte order mark counts as
a column of its line. -/
def toToken (l : Layout) : (fuel : Nat) → (keyAllowed : Bool) → Cursor → Layout
  | fuel + 1, keyAllowed, c =>
      let c := if c.column == 0 && c.rest.head? == some '\uFEFF' then c.skip 1 else c
      let c := (c.span fun ch => ch == ' ' || (ch == '\t' && (l.inBrackets || !keyAllowed))).2
      let c := if c.rest.head? == some '#' then (c.span fun ch => !isBreak ch).2 else c
      match c.nextLine? with
      | some (_, c) => toToken l fuel (keyAllowed || !l.inBrackets) c
      | none => { l with cursor := c, keyAllowed }
  | 0, keyAllowed, c => { l with cursor := c, keyAllowed }

/-- Reads a mark between documents. -/
def documentMark (l : Layout) (t : Token) : Option Layout :=
  (l.closeFrom 0).forgetKey.map fun l => { l.emitWide t 3 with keyAllowed := false }

/-- Reads an opening bracket. -/
def openBracket (l : Layout) (t : Token) : Option Layout :=
  l.markKey.map fun l =>
    { l.emitWide t 1 with outer := l.mark :: l.outer, mark := none, keyAllowed := true }

/-- Reads a closing bracket. -/
def closeBracket (l : Layout) (t : Token) : Option Layout :=
  l.forgetKey.map fun l =>
    match l.outer with
    | mark :: outer => { l.emitWide t 1 with outer, mark, keyAllowed := false }
    | [] => { l.emitWide t 1 with keyAllowed := false }

/-- Reads a comma between the parts of brackets. -/
def comma (l : Layout) : Option Layout :=
  l.forgetKey.map fun l => { l.emitWide .comma 1 with keyAllowed := true }

/-- Reads an indicator that opens a block, where a key is allowed. -/
def blockIndicator (l : Layout) (block indicator : Token) (keyAllowed : Bool) : Option Layout :=
  if !l.inBrackets && !l.keyAllowed then none
  else
    (l.openBlock l.cursor.column l.count block).forgetKey.map fun l =>
      { l.emitWide indicator 1 with keyAllowed }

/-- Reads the colon before a value: what began at the mark is a key. -/
def value (l : Layout) : Option Layout :=
  match l.mark with
  | some m =>
      let l := l.insert m.number .key
      let l := l.openBlock m.place.column m.number .blockMap
      some { l.emitWide .value 1 with mark := none, keyAllowed := false }
  | none => l.blockIndicator .blockMap .value (!l.inBrackets)

/-- Reads a scalar between quotes. -/
def quoted (l : Layout) (fuel : Nat) (quote : Char) : Option Layout := do
  let l ← l.markKey
  let (cs, after) ← quotedAt quote fuel [] (l.cursor.skip 1)
  return { l.emit (.scalar .quoted (String.ofList cs)) after with keyAllowed := false }

/-- Reads a plain scalar. -/
def plain (l : Layout) (fuel : Nat) : Option Layout := do
  let l ← l.markKey
  let p ← plainAt l.inBrackets l.margin fuel [] ⟨[], []⟩ l.cursor
  return { l.emit (.scalar .plain (String.ofList p.read.reverse)) p.after with
    keyAllowed := p.broken }

/-- Reads the token that begins with a character before others. -/
def readToken (l : Layout) (fuel : Nat) (c : Char) (rest : List Char) : Option Layout :=
  if l.cursor.isMark '-' then l.documentMark .documentStart
  else if l.cursor.isMark '.' then l.documentMark .documentEnd
  else if c = '[' then l.openBracket .openList
  else if c = '{' then l.openBracket .openMap
  else if c = ']' then l.closeBracket .closeList
  else if c = '}' then l.closeBracket .closeMap
  else if c = ',' then l.comma
  else if c = '-' ∧ endsWord rest then l.blockIndicator .blockList .item true
  else if c = '?' ∧ (l.inBrackets || endsWord rest) then
    l.blockIndicator .blockMap .key (!l.inBrackets)
  else if c = ':' ∧ (l.inBrackets || endsWord rest) then l.value
  else if c = '\'' ∨ c = '"' then l.quoted fuel c
  else if beginsPlain l.inBrackets c rest then l.plain fuel
  else none

/-- The tokens of a text from a place on. -/
def tokensFrom : (fuel : Nat) → Layout → Option (List Token)
  | fuel + 1, l => do
      let l ← (l.toToken (fuel + 1) l.keyAllowed l.cursor).renewKeys
      let l := l.closeFrom (l.cursor.column + 1)
      match l.cursor.rest with
      | [] => return (← (l.closeFrom 0).forgetKey).tokens.reverse
      | c :: rest => tokensFrom fuel (← l.readToken (fuel + 1) c rest)
  | 0, _ => none

end Layout

/-- The tokens of a text. -/
def Token.listOfText? (text : String) : Option (List Token) :=
  let cs := text.toList
  if cs.all isAllowed then Layout.tokensFrom (cs.length + 2) (.start cs) else none

end Injector.Yaml
