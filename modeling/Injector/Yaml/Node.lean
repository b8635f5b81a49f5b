import Injector.Yaml.Layout

/-!
# Nodes of YAML

    document := '---'? node? '...'*
    node     := scalar | list | map | brackets
    list     := blockList ('-' entry)* blockEnd
    map      := blockMap (key entry (value entry)?)* blockEnd
    entry    := node | ('-' entry)*                        the latter in maps only
    brackets := '[' (item ',')* item? ']' | '{' (pair ',')* pair? '}'
    item     := flow | pair                                the latter with a key
    pair     := key flow? (value flow?)? | flow
    flow     := scalar | brackets

What is left out is an empty plain scalar.
-/

namespace Injector.Yaml

/-- A node: a scalar, or a list or map of nodes. -/
inductive Node where
  /-- A scalar. -/
  | scalar (style : Style) (text : String)
  /-- A list. -/
  | list (items : List Node)
  /-- Pairs of a key and a value in the order written. -/
  | map (pairs : List (Node × Node))
  deriving Repr, Inhabited

namespace Node

/-- What stands where nothing is written. -/
def empty : Node := .scalar .plain ""

/-- Whether nothing is written before a token of a block. -/
def isLeftOut : List Token → Bool
  | .item :: _ | .key :: _ | .value :: _ | .blockEnd :: _ => true
  | _ => false

/-- Whether nothing is written before a token of brackets that end with `close`. -/
def isLeftOutBefore (close : Token) : List Token → Bool
  | t :: _ => t = .comma || t = close
  | [] => false

mutual

/-- Reads a node: anything in a block, with items of its own where `items` says so, and otherwise
a scalar or brackets. -/
def nodeAt : (fuel : Nat) → (block items : Bool) → List Token → Option (Node × List Token)
  | fuel + 1, block, items, t :: rest =>
      match t with
      | .scalar style text => some (.scalar style text, rest)
      | .openList => bracketItemsAt fuel [] rest
      | .openMap => bracketPairsAt fuel [] rest
      | .blockList => if block then itemsAt fuel true [] rest else none
      | .blockMap => if block then pairsAt fuel [] rest else none
      | .item => if items then itemsAt fuel false [] (.item :: rest) else none
      | _ => none
  | _, _, _, _ => none

/-- Reads what may be left out after an indicator of a block. -/
def entryAt : (fuel : Nat) → (items : Bool) → List Token → Option (Node × List Token)
  | fuel + 1, items, tokens =>
      if isLeftOut tokens && !(items && tokens.head? == some .item) then some (empty, tokens)
      else nodeAt fuel true items tokens
  | 0, _, _ => none

/-- Reads the items of a list, which ends with a token of its own or before anything that is no
item; `read` holds those before, last first. -/
def itemsAt : (fuel : Nat) → (ended : Bool) → (read : List Node) → List Token →
    Option (Node × List Token)
  | fuel + 1, ended, read, .item :: rest =>
      match entryAt fuel false rest with
      | some (n, rest) => itemsAt fuel ended (n :: read) rest
      | none => none
  | _, true, read, .blockEnd :: rest => some (.list read.reverse, rest)
  | _, false, read, tokens => some (.list read.reverse, tokens)
  | _, _, _, _ => none

/-- Reads the pairs of a map; `read` holds those before, last first. -/
def pairsAt : (fuel : Nat) → (read : List (Node × Node)) → List Token →
    Option (Node × List Token)
  | _, read, .blockEnd :: rest => some (.map read.reverse, rest)
  | fuel + 1, read, .key :: rest =>
      match entryAt fuel true rest with
      | some (key, .value :: rest) =>
          match entryAt fuel true rest with
          | some (value, rest) => pairsAt fuel ((key, value) :: read) rest
          | none => none
      | some (key, rest) => pairsAt fuel ((key, empty) :: read) rest
      | none => none
  | _, _, _ => none

/-- Reads the value of a key in brackets that end with `close`. -/
def bracketValueAt (close : Token) : (fuel : Nat) → List Token → Option (Node × List Token)
  | fuel + 1, .value :: rest =>
      if isLeftOutBefore close rest then some (empty, rest) else nodeAt fuel false false rest
  | _, tokens => some (empty, tokens)

/-- Reads the items of a list in brackets; `read` holds those before, last first. -/
def bracketItemsAt : (fuel : Nat) → (read : List Node) → List Token → Option (Node × List Token)
  | _, read, .closeList :: rest => some (.list read.reverse, rest)
  | fuel + 1, read, tokens =>
      match bracketItemAt fuel tokens with
      | some (n, .comma :: rest) => bracketItemsAt fuel (n :: read) rest
      | some (n, .closeList :: rest) => some (.list (n :: read).reverse, rest)
      | _ => none
  | 0, _, _ => none

/-- Reads an item of a list in brackets, which may be a single pair. A key that is left out takes
the next token with it. -/
def bracketItemAt : (fuel : Nat) → List Token → Option (Node × List Token)
  | fuel + 1, .key :: rest =>
      let key? :=
        if isLeftOutBefore .closeList rest || rest.head? == some .value then
          some (empty, rest.drop 1)
        else nodeAt fuel false false rest
      match key? with
      | some (key, rest) =>
          (bracketValueAt .closeList fuel rest).map fun r => (.map [(key, r.1)], r.2)
      | none => none
  | fuel + 1, tokens => nodeAt fuel false false tokens
  | 0, _ => none

/-- Reads the pairs of a map in brackets; `read` holds those before, last first. -/
def bracketPairsAt : (fuel : Nat) → (read : List (Node × Node)) → List Token →
    Option (Node × List Token)
  | _, read, .closeMap :: rest => some (.map read.reverse, rest)
  | fuel + 1, read, tokens =>
      match bracketPairAt fuel tokens with
      | some (pair, .comma :: rest) => bracketPairsAt fuel (pair :: read) rest
      | some (pair, .closeMap :: rest) => some (.map (pair :: read).reverse, rest)
      | _ => none
  | 0, _, _ => none

/-- Reads a pair of a map in brackets. -/
def bracketPairAt : (fuel : Nat) → List Token → Option ((Node × Node) × List Token)
  | fuel + 1, .key :: rest =>
      let key? :=
        if isLeftOutBefore .closeMap rest || rest.head? == some .value then some (empty, rest)
        else nodeAt fuel false false rest
      match key? with
      | some (key, rest) =>
          (bracketValueAt .closeMap fuel rest).map fun r => ((key, r.1), r.2)
      | none => none
  | fuel + 1, tokens => (nodeAt fuel false false tokens).map fun r => ((r.1, empty), r.2)
  | 0, _ => none

end

/-- Reads the node of a document and the tokens after it. -/
def documentAt (tokens : List Token) : Option (Node × List Token) :=
  let fuel := 4 * tokens.length + 4
  match tokens with
  | [] => some (empty, [])
  | .documentStart :: rest =>
      match rest with
      | [] | .documentStart :: _ | .documentEnd :: _ => some (empty, rest)
      | rest => nodeAt fuel true false rest
  | tokens => nodeAt fuel true false tokens

/-- Reads a whole text as one document. -/
def ofText? (text : String) : Option Node := do
  let (n, rest) ← documentAt (← Token.listOfText? text)
  if rest.all (· == .documentEnd) then some n else none

end Node

end Injector.Yaml
