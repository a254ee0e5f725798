import MonkeyFormat.Format
import MonkeyFormat.Json.Reader
import MonkeyFormat.Literal.Recovery
import MonkeyFormat.Tree.Record

set_option autoImplicit false

/-! # Payloads

A tree may be handed over as JSON, on its own or on the last line behind the source text that it
was made from. Comments are kept only with a text that is long enough to cover the tree, and those
that hold the ignore directive are dropped, since the text that they would keep is out of date. -/

namespace MonkeyFormat

namespace Payload

/-- Is `c` a line break, also one of the two Unicode separators? -/
def isLineBreak (c : Char) : Bool :=
  c = '\n' || c = '\r' || c = '\u2028' || c = '\u2029'

/-- The source text and the JSON text of a payload: what stands before and behind the last line
break, if something stands behind it, else no source and all of it. -/
def split (payload : String) : String × String :=
  let cs := payload.toList.reverse
  let tree := cs.takeWhile fun c => !isLineBreak c
  match cs.drop tree.length with
  | [] => ("", payload)
  | _ :: source =>
    if tree.isEmpty then ("", payload)
    else (String.ofList source.reverse, String.ofList tree.reverse)

/-- Does `word` stand somewhere in the characters? -/
def occurs (word : List Char) : List Char → Bool
  | [] => word.isEmpty
  | c :: cs => word.isPrefixOf (c :: cs) || occurs word cs

/-- Does a comment's value, before it is read, hold the ignore directive? -/
def holdsDirective : Value → Except Fault Bool
  | .str s => pure (occurs ignoreDirective.toList s.toList)
  | .list vs => pure (vs.any fun v => v.isStr ignoreDirective)
  | .dict es => pure (es.lookup ignoreDirective).isSome
  | _ => throw .wrongType

/-- The comments of a payload that are kept. -/
def comments : List Value → Except Fault (List Comment)
  | [] => pure []
  | .dict es :: vs => do
    let ignored ← holdsDirective ((es.lookup "value").getD (.str ""))
    if ignored then comments vs
    else
      let c ← Comment.ofRecord es
      let cs ← comments vs
      pure (c :: cs)
  | _ :: _ => throw .noAttribute

/-- The records of the comments of a tree; an absent or empty list holds none. -/
def commentRecords (v : Value) : Except Fault (List Value) :=
  match v with
  | .list vs => pure vs
  | .str s => pure (s.toList.map fun c => .str (String.singleton c))
  | .dict es => pure (es.map fun kv => .str kv.1)
  | v => if v.truthy then throw .wrongType else pure []

/-- Reads the tree of a payload. -/
def readTree (es : Fields) : Except Fault Node :=
  match Node.ofRecord es with
  | .error (.untyped keys) => .error (.untypedPayload keys)
  | r => r

/-- Formats a payload. -/
def format (payload : String) (o : Options) : Except Fault Formatted := do
  let (source, json) := split payload
  match ← Json.read json with
  | .dict es =>
    let root ← readTree es
    let stop ← Fields.offset es "end"
    let covered := !source.isEmpty && decide (stop ≤ source.length)
    let cs ← if covered then do comments (← commentRecords (Fields.getD es "comments")) else pure []
    let (root, _) ← Literal.recover root
    formatTree root cs (if covered then source else "") o
  | _ => throw .notAnObject

end Payload

end MonkeyFormat
