import MonkeyFormat.Number.Shortest

set_option autoImplicit false

/-! # Syntax trees

A node has a kind, the stretch of source it covers, and named fields in the order in which they
were given. A field holds a child, a list, or a plain value. -/

namespace MonkeyFormat

/-- A stretch of source text: character offsets (the end is exclusive), and lines and columns
counted from one. Nodes made without a source have zeros. -/
structure Span where
  start : Int := 0
  stop : Int := 0
  line : Int := 0
  col : Int := 0
  endLine : Int := 0
  endCol : Int := 0
deriving DecidableEq, Inhabited

mutual

/-- What a field of a node may hold. -/
inductive Value where
  | null
  | bool (b : Bool)
  | int (n : Int)
  | float (x : Binary64)
  | str (s : String)
  | list (items : List Value)
  | dict (entries : List (String × Value))
  | node (n : Node)

/-- A node of a syntax tree. -/
structure Node where
  kind : String
  span : Span
  fields : List (String × Value)

end

instance : Inhabited Value := ⟨.null⟩

instance : Inhabited Node := ⟨⟨"", {}, []⟩⟩

/-- Named values in order; each name occurs once. -/
abbrev Fields := List (String × Value)

namespace Fields

/-- Puts a value under a name: in place if the name is there, else at the end. -/
def insert (fs : Fields) (name : String) (v : Value) : Fields :=
  match fs with
  | [] => [(name, v)]
  | (k, w) :: rest => if k = name then (k, v) :: rest else (k, w) :: Fields.insert rest name v

/-- Puts several values in, one after the other. -/
def insertAll (fs changes : Fields) : Fields :=
  changes.foldl (fun acc kv => acc.insert kv.1 kv.2) fs

end Fields

namespace Value

/-- The node that a value is, if it is one. -/
def node? : Value → Option Node
  | .node n => some n
  | _ => none

/-- Is the value a node? -/
def isNode (v : Value) : Bool := v.node?.isSome

/-- Is the value the absent one? -/
def isNull : Value → Bool
  | .null => true
  | _ => false

/-- Does the value count as present in a test: is it neither null, false, zero nor empty? -/
def truthy : Value → Bool
  | .null => false
  | .bool b => b
  | .int n => n != 0
  | .float x => x.mantissa != 0 || !x.isFinite
  | .str s => !s.isEmpty
  | .list vs => !vs.isEmpty
  | .dict es => !es.isEmpty
  | .node _ => true

/-- The text that a value is, if it is one. -/
def str? : Value → Option String
  | .str s => some s
  | _ => none

/-- Is the value the given text? -/
def isStr (v : Value) (s : String) : Bool :=
  match v with
  | .str t => t = s
  | _ => false

/-- Can the value be a key of a table? Lists, dictionaries and nodes cannot. -/
def isHashable : Value → Bool
  | .list _ => false
  | .dict _ => false
  | .node _ => false
  | _ => true

/-- Is the value a number, truth values not counted? -/
def isNumber : Value → Bool
  | .int _ => true
  | .float _ => true
  | _ => false

end Value

namespace Node

/-- The value of a field; null if the node has no such field. -/
def get (n : Node) (name : String) : Value := (n.fields.lookup name).getD .null

/-- The node with one field replaced or added. -/
def set (n : Node) (name : String) (v : Value) : Node :=
  { n with fields := Fields.insert n.fields name v }

/-- Where the node starts. -/
abbrev start (n : Node) : Int := n.span.start

/-- Where the node ends. -/
abbrev stop (n : Node) : Int := n.span.stop

/-- The node with another node's span. -/
def spanFrom (n other : Node) : Node := { n with span := other.span }

end Node

/-- How a value hangs under the one that holds it: in a named field, or at a place of a list. -/
inductive Step where
  | field (name : String)
  | index (i : Int)
deriving DecidableEq, Inhabited

/-- The steps from a node down to a node below it. -/
abbrev Address := List Step

end MonkeyFormat
