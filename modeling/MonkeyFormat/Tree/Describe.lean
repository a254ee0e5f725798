import MonkeyFormat.Tree.Basic
import MonkeyFormat.Text.Quoted

set_option autoImplicit false

/-! # Values in messages

How a message shows a value or a node: the absent value and truth values as words, texts quoted,
lists and dictionaries in brackets, and a node with its kind and its present fields, of whose
lists only the first three elements are shown. -/

namespace MonkeyFormat

/-- The elements of a list field as a node shows them: the first three of them. -/
def preview (items : List String) : String :=
  "[" ++ ", ".intercalate (items.take 3) ++ (if 3 < items.length then ", ..." else "") ++ "]"

mutual

/-- How a message shows a value. -/
def Value.describe : Value → String
  | .null => "None"
  | .bool true => "True"
  | .bool false => "False"
  | .int n => toString n
  | .float x => x.toText
  | .str s => Text.quoted s
  | .list vs => "[" ++ ", ".intercalate (describeItems vs) ++ "]"
  | .dict es => "\x7b" ++ ", ".intercalate (describeEntries es) ++ "\x7d"
  | .node n => n.describe

/-- How a message shows a node. -/
def Node.describe : Node → String
  | ⟨kind, _, fields⟩ => "ASTNode(" ++ ", ".intercalate (kind :: describeFields fields) ++ ")"

/-- Each element of a list, shown. -/
def describeItems : List Value → List String
  | [] => []
  | v :: vs => v.describe :: describeItems vs

/-- Each entry of a dictionary, shown. -/
def describeEntries : List (String × Value) → List String
  | [] => []
  | (k, v) :: es => (Text.quoted k ++ ": " ++ v.describe) :: describeEntries es

/-- Each present field of a node, shown. -/
def describeFields : List (String × Value) → List String
  | [] => []
  | (_, .null) :: fs => describeFields fs
  | (k, .list vs) :: fs => (k ++ "=" ++ preview (describeItems vs)) :: describeFields fs
  | (k, v) :: fs => (k ++ "=" ++ v.describe) :: describeFields fs

end

end MonkeyFormat
