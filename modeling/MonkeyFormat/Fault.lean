import MonkeyFormat.Token.Basic
import MonkeyFormat.Tree.Describe

set_option autoImplicit false

/-! # Faults

Everything that can go wrong, by cause. The wording of each cause stands in one function. -/

namespace MonkeyFormat

/-! ## Complaints about the source text -/

/-- What is wrong with a source text. -/
inductive Complaint where
  | unterminatedComment
  | unterminatedString
  | unterminatedCharacter
  | invalidHex
  | invalidNumber (text : String)
  | unexpectedCharacter (text : String)
  /-- A token of one kind was needed; `what` says which. -/
  | expected (what : String) (found : Token)
  /-- A token of one of several kinds was needed. -/
  | expectedOneOf (kinds : List String) (found : Token)
  | unexpected (found : Token)
  | unclosedBody
  | expectedDeclaration (found : Token)
  | typedefWithoutType
  | dictionaryType
  | unclosedGenerics
  | expectedCase
  | expectedHandler
  | invalidTarget
  | genericConstructor
deriving DecidableEq

/-- How a message names the token that was found. -/
def Token.found (t : Token) : String :=
  if t.kind = .endOfInput then "end of input" else Text.quoted t.text

/-- Quoted texts in parentheses; a single one is followed by a comma. -/
def Text.quotedTuple (ss : List String) : String :=
  match ss with
  | [s] => "(" ++ Text.quoted s ++ ",)"
  | ss => "(" ++ ", ".intercalate (ss.map Text.quoted) ++ ")"

/-- The wording of a complaint. -/
def Complaint.message : Complaint → String
  | .unterminatedComment => "Unterminated comment"
  | .unterminatedString => "Unterminated string literal"
  | .unterminatedCharacter => "Unterminated character literal"
  | .invalidHex => "Invalid hex literal"
  | .invalidNumber s => "Invalid number literal " ++ Text.quoted s
  | .unexpectedCharacter s => "Unexpected character " ++ Text.quoted s
  | .expected what t => "Expected " ++ what ++ ", found " ++ t.found
  | .expectedOneOf kinds t =>
    "Expected one of " ++ Text.quotedTuple kinds ++ ", got " ++ t.describe
  | .unexpected t => "Unexpected " ++ t.found
  | .unclosedBody => "Expected closing '\x7d', got EOF"
  | .expectedDeclaration t => "Expected a declaration, found " ++ Text.quoted t.text
  | .typedefWithoutType => "Expected 'as' in typedef"
  | .dictionaryType => "Dictionary type specs are not supported"
  | .unclosedGenerics => "Expected '>' to close the generic argument list"
  | .expectedCase => "Expected 'case' or 'default'"
  | .expectedHandler => "Expected 'catch' or 'finally' after try block"
  | .invalidTarget => "Invalid assignment target"
  | .genericConstructor => "Generic arguments are not allowed in a constructor call"

/-! ## Faults of the whole program -/

/-- A node by its kind and offsets. -/
structure Brief where
  kind : String
  start : Int
  stop : Int
deriving DecidableEq

/-- The kind and offsets of a node. -/
def Node.brief (n : Node) : Brief := ⟨n.kind, n.span.start, n.span.stop⟩

/-- A half-open interval of offsets. -/
def interval (start stop : Int) : String :=
  "[" ++ toString start ++ ", " ++ toString stop ++ ")"

/-- The kind and interval of a node. -/
def Brief.describe (b : Brief) : String := b.kind ++ " " ++ interval b.start b.stop

/-- Why a request fails. -/
inductive Fault where
  /-- The source text is malformed. -/
  | malformed (complaint : Complaint) (place : Place) (origin : Option String)
  /-- A character was asked for behind the end of the text. -/
  | readPastEnd (offset line : Int)
  /-- A child lies outside its parent. -/
  | escapes (child parent : Brief)
  /-- A child starts before its left neighbour ends. -/
  | outOfOrder (child sibling : Brief)
  /-- A comment lies across the edge of a node. -/
  | straddles (start stop : Int) (child : Brief)
  | widthNotPositive (width : Int)
  | tabNegative (width : Int)
  | unknownFragment (name : String)
  /-- A dictionary that should be a node has no kind; it has these keys. -/
  | untyped (keys : List String)
  /-- The digits of a literal are no number, or too many. -/
  | unreadableNumber
  | notADocument (v : Value)
  | noRule (kind : String)
  | noPrinter (tag : String)
  | notInitialized
  | noField (kind name : String)
  | notJson
  | notAnObject
  /-- The payload's tree has a dictionary without a kind; it has these keys. -/
  | untypedPayload (keys : List String)
  /-- A value has the wrong type for what is done with it. -/
  | wrongType
  /-- A value lacks the attribute that is asked for. -/
  | noAttribute
  | missingKey
  | outOfRange
  /-- No file can have the name that is asked for. -/
  | badName
  /-- A bounded search ended early; never answered for well-formed states. The limit that an
  interpreter sets to the depth of its calls is not modelled: no input is nested too deeply. -/
  | exhausted

/-- The keys of an untyped dictionary, in a message. -/
def untypedMessage (keys : List String) : String :=
  "Node dictionary without a type: " ++ Text.quotedList keys

/-- The wording of a fault, for the faults that have one. -/
def Fault.message? : Fault → Option String
  | .malformed c _ _ => some c.message
  | .readPastEnd offset line =>
    some ("CharacterStreamError: Attempted to read past end of source at position=<" ++
      toString offset ++ ">, line=<" ++ toString line ++ ">")
  | .escapes child parent =>
    some (child.describe ++ " escapes its parent " ++ parent.describe)
  | .outOfOrder child sibling =>
    some (child.describe ++ " overlaps or precedes its sibling " ++ sibling.describe)
  | .straddles start stop child =>
    some ("Comment at " ++ interval start stop ++ " overlaps " ++ child.describe)
  | .widthNotPositive n => some ("print_width must be positive, got " ++ toString n)
  | .tabNegative n => some ("tab_width must not be negative, got " ++ toString n)
  | .unknownFragment s => some ("Unknown alternate grammar parameter: " ++ Text.quoted s)
  | .untyped keys => some (untypedMessage keys)
  | .notADocument v => some ("Not a document: " ++ v.describe)
  | .noRule kind => some ("No printer for node kind " ++ Text.quoted kind)
  | .noPrinter tag =>
    some ("Printer setup failure: no printer registered as " ++ Text.quoted tag)
  | .notInitialized => some "Something went wrong: printer not initialized!"
  | .noField kind name => some (kind ++ " node has no field " ++ Text.quoted name)
  | .notJson => some "Malformed JSON tree"
  | .notAnObject => some "JSON tree must be an object"
  | .untypedPayload keys => some (untypedMessage keys)
  | .unreadableNumber => none
  | .wrongType => none
  | .noAttribute => none
  | .missingKey => none
  | .outOfRange => none
  | .badName => none
  | .exhausted => none

end MonkeyFormat
