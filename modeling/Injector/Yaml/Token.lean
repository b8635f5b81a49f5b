/-!
# Tokens of YAML

Besides indicators and scalars there are tokens for the structure that columns show: the beginning
and the end of a block, and the beginning of a key.
-/

namespace Injector.Yaml

/-- How a scalar is written. -/
inductive Style where
  /-- Without quotes. -/
  | plain
  /-- Between quotes of either kind. -/
  | quoted
  deriving DecidableEq, Repr

/-- A token. -/
inductive Token where
  /-- The beginning of a list whose items stand in a column. -/
  | blockList
  /-- The beginning of a map whose keys stand in a column. -/
  | blockMap
  /-- The end of such a list or map. -/
  | blockEnd
  /-- The dash before an item. -/
  | item
  /-- The beginning of a key. -/
  | key
  /-- The colon before the value of a key. -/
  | value
  /-- The bracket that opens a list. -/
  | openList
  /-- The bracket that closes a list. -/
  | closeList
  /-- The brace that opens a map. -/
  | openMap
  /-- The brace that closes a map. -/
  | closeMap
  /-- The comma between the parts of brackets. -/
  | comma
  /-- A scalar. -/
  | scalar (style : Style) (text : String)
  /-- The dashes before a document. -/
  | documentStart
  /-- The dots after a document. -/
  | documentEnd
  deriving DecidableEq, Repr

end Injector.Yaml
