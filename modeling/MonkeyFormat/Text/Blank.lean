set_option autoImplicit false

/-! # Blanks

White space of every script, and trimming it from the ends of a text. -/

namespace MonkeyFormat

/-- Is `c` white space of any script? -/
def Text.isBlank (c : Char) : Bool :=
  let n := c.toNat
  (0x9 ≤ n && n ≤ 0xd) || (0x1c ≤ n && n ≤ 0x20) || n == 0x85 || n == 0xa0 || n == 0x1680 ||
    (0x2000 ≤ n && n ≤ 0x200a) || n == 0x2028 || n == 0x2029 || n == 0x202f || n == 0x205f ||
    n == 0x3000

/-- The text without the characters of a class at its start. -/
def Text.trimStartOf (p : Char → Bool) (s : String) : String :=
  String.ofList (s.toList.dropWhile p)

/-- The text without the characters of a class at its end. -/
def Text.trimEndOf (p : Char → Bool) (s : String) : String :=
  String.ofList (s.toList.reverse.dropWhile p).reverse

/-- The text without blanks at its start. -/
def Text.trimStart (s : String) : String := Text.trimStartOf Text.isBlank s

/-- The text without blanks at its end. -/
def Text.trimEnd (s : String) : String := Text.trimEndOf Text.isBlank s

/-- The text without blanks at either end. -/
def Text.trim (s : String) : String := Text.trimEnd (Text.trimStart s)

end MonkeyFormat
