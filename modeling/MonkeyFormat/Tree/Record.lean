import MonkeyFormat.Tree.Visit
import MonkeyFormat.Comment.Basic

set_option autoImplicit false

/-! # Trees as records

A node is exchanged as a dictionary with the keys `type`, `start`, `end` and `loc` beside its
fields. Reading takes a dictionary with a `type` for a node wherever a field holds one or a list
of them; all other dictionaries stay as they are. -/

namespace MonkeyFormat

/-! ## Writing -/

/-- A line and column as a record. -/
def pointRecord (line column : Int) : Value :=
  .dict [("line", .int line), ("column", .int column)]

/-- The entries that say where something stands. -/
def Span.entries (s : Span) : Fields :=
  [("start", .int s.start), ("end", .int s.stop),
    ("loc", .dict [("start", pointRecord s.line s.col), ("end", pointRecord s.endLine s.endCol)])]

mutual

/-- The value with every node in it as a record. -/
def Value.toRecord : Value → Value
  | .node n => .dict n.toRecord
  | .list vs => .list (itemsToRecords vs)
  | v => v

/-- The node as a record. -/
def Node.toRecord : Node → Fields
  | ⟨kind, span, fields⟩ =>
    Fields.insertAll (("type", .str kind) :: span.entries) (fieldsToRecords fields)

/-- The elements of a list as records. -/
def itemsToRecords : List Value → List Value
  | [] => []
  | v :: vs => v.toRecord :: itemsToRecords vs

/-- The fields of a node as records. -/
def fieldsToRecords : List (String × Value) → List (String × Value)
  | [] => []
  | (k, v) :: fs => (k, v.toRecord) :: fieldsToRecords fs

end

/-- The comment as a record. -/
def Comment.toRecord (c : Comment) : Fields :=
  ("type", .str c.kind) :: ("value", .str c.value) :: c.span.entries

/-! ## Reading -/

/-- The keys of a node record that are not fields. -/
def isReservedKey (key : String) : Bool :=
  ["type", "start", "end", "loc", "range", "comments"].contains key

/-- The names that a node has beside its fields and that no field may have in a record. -/
def isSpanName (name : String) : Bool :=
  ["start", "end", "line", "col", "end_line", "end_col"].contains name

/-- An offset, line or column: a whole number. -/
def Value.toOffset : Value → Except Fault Int
  | .int n => pure n
  | .bool b => pure (if b then 1 else 0)
  | _ => throw .wrongType

/-- The value under a key of a record that may be absent or empty; anything else that is not a
record has no keys to ask for. -/
def Value.entryOr (v : Value) (key : String) (default : Value) : Except Fault Value :=
  match v with
  | .dict es => pure ((es.lookup key).getD default)
  | v => if v.truthy then throw .noAttribute else pure default

/-- The value under a key, or null. -/
def Fields.getD (fs : Fields) (key : String) : Value := (fs.lookup key).getD .null

/-- The offset under a key; zero if it is absent or empty. -/
def Fields.offset (fs : Fields) (key : String) : Except Fault Int :=
  let v := fs.getD key
  if v.truthy then v.toOffset else pure 0

/-- The line and column of a point; zeros where they are absent. -/
def Value.point (v : Value) : Except Fault (Int × Int) := do
  let line ← (← v.entryOr "line" (.int 0)).toOffset
  let column ← (← v.entryOr "column" (.int 0)).toOffset
  pure (line, column)

/-- The names of a record in the order of their characters. -/
def Fields.sortedKeys (fs : Fields) : List String :=
  (fs.map Prod.fst).mergeSort fun a b => decide (a ≤ b)

mutual

/-- Reads a field's value: records with a type become nodes. -/
def Value.ofRecord : Value → Except Fault Value
  | .dict es => if (es.lookup "type").isSome then .node <$> Node.ofRecord es else pure (.dict es)
  | .list vs => .list <$> itemsOfRecords vs
  | v => pure v

/-- Reads a node. Its kind must be a text; offsets, lines and columns may be absent. -/
def Node.ofRecord (es : List (String × Value)) : Except Fault Node := do
  match Fields.getD es "type" with
  | .str kind =>
    let loc := Fields.getD es "loc"
    let first ← loc.entryOr "start" .null
    let last ← loc.entryOr "end" .null
    let fields ← fieldsOfRecords es
    let start ← Fields.offset es "start"
    let stop ← Fields.offset es "end"
    let (line, col) ← first.point
    let (endLine, endCol) ← last.point
    if fields.any fun kv => isSpanName kv.1 then throw .wrongType
    pure ⟨kind, ⟨start, stop, line, col, endLine, endCol⟩, fields⟩
  | _ => throw (.untyped (Fields.sortedKeys es))

/-- Reads the elements of a list. -/
def itemsOfRecords : List Value → Except Fault (List Value)
  | [] => pure []
  | v :: vs => do
    let w ← v.ofRecord
    let ws ← itemsOfRecords vs
    pure (w :: ws)

/-- Reads the entries that are fields. -/
def fieldsOfRecords : List (String × Value) → Except Fault (List (String × Value))
  | [] => pure []
  | (k, v) :: es =>
    if isReservedKey k then fieldsOfRecords es
    else do
      let w ← v.ofRecord
      let fs ← fieldsOfRecords es
      pure ((k, w) :: fs)

end

/-! ## Fields by name -/

/-- The value of a field that the node must have. Names that start with two underscores are never
fields. -/
def Node.field (n : Node) (name : String) : Except Fault Value :=
  if name.startsWith "__" then throw .noAttribute
  else match n.fields.lookup name with
    | some v => pure v
    | none => throw (.noField n.kind name)

/-- The node with some fields replaced or added. All fields of the new node are given by name, each
of them once, beside the parts of the span, which are given, too; and the change of a field takes
the place of the node itself if it has that name. -/
def Node.copy (n : Node) (changes : Fields) : Except Fault Node :=
  let fields := Fields.insertAll n.fields changes
  let names := fields.map Prod.fst
  if (changes.lookup "self").isSome || names.any isSpanName || !decide names.Nodup then
    throw .wrongType
  else pure { n with fields := fields }

/-! ## Comments -/

/-- Reads a comment. Everything may be absent; without a type it is a line comment. -/
def Comment.ofRecord (es : Fields) : Except Fault Comment := do
  let loc := es.getD "loc"
  let first ← loc.entryOr "start" .null
  let last ← loc.entryOr "end" .null
  let kind := [es.getD "type", es.getD "kind"].find? Value.truthy
  let text (v : Value) : Except Fault String :=
    match v with
    | .str s => pure s
    | _ => throw .wrongType
  let kind ← text (kind.getD (.str "Line"))
  let value ← text ((es.lookup "value").getD (.str ""))
  let start ← ((es.lookup "start").getD (.int 0)).toOffset
  let stop ← ((es.lookup "end").getD (.int 0)).toOffset
  let (line, col) ← first.point
  let (endLine, endCol) ← last.point
  pure ⟨kind, value, ⟨start, stop, line, col, endLine, endCol⟩⟩

end MonkeyFormat
