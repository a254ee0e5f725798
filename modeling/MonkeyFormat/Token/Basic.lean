import MonkeyFormat.Tree.Basic

set_option autoImplicit false

/-! # Tokens

The kinds of token, the words and symbols that have a kind of their own, and tokens with the
place where they stand. -/

namespace MonkeyFormat

/-- A point of the source: line and column counted from one, offset from zero. -/
structure Place where
  line : Int := 1
  column : Int := 1
  offset : Int := 0
deriving DecidableEq, Inhabited

namespace Place

/-- The point behind a character. -/
def next (p : Place) (c : Char) : Place :=
  if c = '\n' then ⟨p.line + 1, 1, p.offset + 1⟩ else ⟨p.line, p.column + 1, p.offset + 1⟩

/-- The point behind several characters. -/
def after (p : Place) (cs : List Char) : Place := cs.foldl next p

/-- The span between two points. -/
def upTo (p q : Place) : Span := ⟨p.offset, q.offset, p.line, p.column, q.line, q.column⟩

end Place

/-- The kinds of token. Words and symbols that the grammar treats alike share a kind; `other` is
a kind the grammar gives no meaning to. -/
inductive TokenKind where
  | ident
  | number
  | float
  | string
  | char
  | endOfInput
  | unknown
  | module
  | classWord
  | extendsWord
  | function
  | var
  | const
  | enum
  | typedef
  | using
  | importWord
  | asWord
  | access
  | ifWord
  | elseWord
  | whileWord
  | doWord
  | forWord
  | switch
  | case
  | default
  | breakWord
  | continueWord
  | returnWord
  | throwWord
  | tryWord
  | catchWord
  | finallyWord
  | new
  | instanceOf
  | has
  | and
  | or
  | receiver
  | literal
  | leftBrace
  | rightBrace
  | leftParen
  | rightParen
  | leftBracket
  | rightBracket
  | semicolon
  | comma
  | dot
  | colon
  | question
  | arrow
  | assign
  | update
  | binary
  | less
  | greater
  | shiftRight
  | plus
  | minus
  | bang
  | tilde
  | other (name : String)
deriving DecidableEq, Inhabited

namespace TokenKind

/-- The name under which a kind appears in messages and answers. -/
def name : TokenKind → String
  | .ident => "IDENT"
  | .number => "NUMBER"
  | .float => "FLOAT"
  | .string => "STRING"
  | .char => "CHAR"
  | .endOfInput => "EOF"
  | .unknown => "ERROR"
  | .module => "MODULE"
  | .classWord => "CLASS"
  | .extendsWord => "EXTENDS"
  | .function => "FUNCTION"
  | .var => "VAR"
  | .const => "CONST"
  | .enum => "ENUM"
  | .typedef => "TYPEDEF"
  | .using => "USING"
  | .importWord => "IMPORT"
  | .asWord => "AS"
  | .access => "ACCESS"
  | .ifWord => "IF"
  | .elseWord => "ELSE"
  | .whileWord => "WHILE"
  | .doWord => "DO"
  | .forWord => "FOR"
  | .switch => "SWITCH"
  | .case => "CASE"
  | .default => "DEFAULT"
  | .breakWord => "BREAK"
  | .continueWord => "CONTINUE"
  | .returnWord => "RETURN"
  | .throwWord => "THROW"
  | .tryWord => "TRY"
  | .catchWord => "CATCH"
  | .finallyWord => "FINALLY"
  | .new => "NEW"
  | .instanceOf => "INSTANCEOF"
  | .has => "HAS"
  | .and => "AND"
  | .or => "OR"
  | .receiver => "THIS"
  | .literal => "LITERAL"
  | .leftBrace => "LBRACE"
  | .rightBrace => "RBRACE"
  | .leftParen => "LPAREN"
  | .rightParen => "RPAREN"
  | .leftBracket => "LBRACK"
  | .rightBracket => "RBRACK"
  | .semicolon => "SEMI"
  | .comma => "COMMA"
  | .dot => "DOT"
  | .colon => "COLON"
  | .question => "QUESTION"
  | .arrow => "ARROW"
  | .assign => "ASSIGN"
  | .update => "UPDATE"
  | .binary => "BINOP"
  | .less => "LT"
  | .greater => "GT"
  | .shiftRight => "SHR"
  | .plus => "PLUS"
  | .minus => "MINUS"
  | .bang => "BANG"
  | .tilde => "TILDE"
  | .other s => s

/-- The kind with a name. -/
def ofName : String → TokenKind
  | "IDENT" => .ident
  | "NUMBER" => .number
  | "FLOAT" => .float
  | "STRING" => .string
  | "CHAR" => .char
  | "EOF" => .endOfInput
  | "ERROR" => .unknown
  | "MODULE" => .module
  | "CLASS" => .classWord
  | "EXTENDS" => .extendsWord
  | "FUNCTION" => .function
  | "VAR" => .var
  | "CONST" => .const
  | "ENUM" => .enum
  | "TYPEDEF" => .typedef
  | "USING" => .using
  | "IMPORT" => .importWord
  | "AS" => .asWord
  | "ACCESS" => .access
  | "IF" => .ifWord
  | "ELSE" => .elseWord
  | "WHILE" => .whileWord
  | "DO" => .doWord
  | "FOR" => .forWord
  | "SWITCH" => .switch
  | "CASE" => .case
  | "DEFAULT" => .default
  | "BREAK" => .breakWord
  | "CONTINUE" => .continueWord
  | "RETURN" => .returnWord
  | "THROW" => .throwWord
  | "TRY" => .tryWord
  | "CATCH" => .catchWord
  | "FINALLY" => .finallyWord
  | "NEW" => .new
  | "INSTANCEOF" => .instanceOf
  | "HAS" => .has
  | "AND" => .and
  | "OR" => .or
  | "THIS" => .receiver
  | "LITERAL" => .literal
  | "LBRACE" => .leftBrace
  | "RBRACE" => .rightBrace
  | "LPAREN" => .leftParen
  | "RPAREN" => .rightParen
  | "LBRACK" => .leftBracket
  | "RBRACK" => .rightBracket
  | "SEMI" => .semicolon
  | "COMMA" => .comma
  | "DOT" => .dot
  | "COLON" => .colon
  | "QUESTION" => .question
  | "ARROW" => .arrow
  | "ASSIGN" => .assign
  | "UPDATE" => .update
  | "BINOP" => .binary
  | "LT" => .less
  | "GT" => .greater
  | "SHR" => .shiftRight
  | "PLUS" => .plus
  | "MINUS" => .minus
  | "BANG" => .bang
  | "TILDE" => .tilde
  | s => .other s

/-- The kind of a reserved word or a symbol. -/
def ofText? : String → Option TokenKind
  | "module" => some .module
  | "class" => some .classWord
  | "extends" => some .extendsWord
  | "function" => some .function
  | "var" => some .var
  | "const" => some .const
  | "enum" => some .enum
  | "typedef" => some .typedef
  | "using" => some .using
  | "import" => some .importWord
  | "as" => some .asWord
  | "static" => some .access
  | "private" => some .access
  | "protected" => some .access
  | "hidden" => some .access
  | "public" => some .access
  | "if" => some .ifWord
  | "else" => some .elseWord
  | "while" => some .whileWord
  | "do" => some .doWord
  | "for" => some .forWord
  | "switch" => some .switch
  | "case" => some .case
  | "default" => some .default
  | "break" => some .breakWord
  | "continue" => some .continueWord
  | "return" => some .returnWord
  | "throw" => some .throwWord
  | "try" => some .tryWord
  | "catch" => some .catchWord
  | "finally" => some .finallyWord
  | "new" => some .new
  | "instanceof" => some .instanceOf
  | "has" => some .has
  | "and" => some .and
  | "or" => some .or
  | "self" => some .receiver
  | "me" => some .receiver
  | "true" => some .literal
  | "false" => some .literal
  | "null" => some .literal
  | "NaN" => some .literal
  | "\x7b" => some .leftBrace
  | "\x7d" => some .rightBrace
  | "(" => some .leftParen
  | ")" => some .rightParen
  | "[" => some .leftBracket
  | "]" => some .rightBracket
  | ";" => some .semicolon
  | "," => some .comma
  | "." => some .dot
  | ":" => some .colon
  | "?" => some .question
  | "=>" => some .arrow
  | "=" => some .assign
  | "+=" => some .assign
  | "-=" => some .assign
  | "*=" => some .assign
  | "/=" => some .assign
  | "%=" => some .assign
  | "&=" => some .assign
  | "|=" => some .assign
  | "^=" => some .assign
  | "<<=" => some .assign
  | ">>=" => some .assign
  | "++" => some .update
  | "--" => some .update
  | "&&" => some .and
  | "||" => some .or
  | "==" => some .binary
  | "!=" => some .binary
  | "<" => some .less
  | "<=" => some .binary
  | ">" => some .greater
  | ">=" => some .binary
  | "<<" => some .binary
  | ">>" => some .shiftRight
  | "+" => some .plus
  | "-" => some .minus
  | "*" => some .binary
  | "/" => some .binary
  | "%" => some .binary
  | "&" => some .binary
  | "|" => some .binary
  | "^" => some .binary
  | "!" => some .bang
  | "~" => some .tilde
  | _ => none

end TokenKind

/-- A token: its kind, its text as written, and the stretch of source it covers. -/
structure Token where
  kind : TokenKind
  text : String
  span : Span
deriving DecidableEq, Inhabited

namespace Token

/-- Where the token starts. -/
def place (t : Token) : Place := ⟨t.span.line, t.span.col, t.span.start⟩

/-- How a message shows the token. -/
def describe (t : Token) : String := "Token(" ++ t.kind.name ++ ", " ++ t.text ++ ")"

/-- Two tokens are the same if they have the same kind and text at the same line and column. -/
def same (a b : Token) : Bool :=
  a.kind.name == b.kind.name && a.text == b.text && a.span.line == b.span.line &&
    a.span.col == b.span.col

end Token

end MonkeyFormat
