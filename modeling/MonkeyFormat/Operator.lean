import MonkeyFormat.Tree.Basic

set_option autoImplicit false

/-! # Operator ranks

Each binary operator has two ranks; a lower one binds tighter. The source rank is that of the
language. The generic rank is that of common C-like languages, by which the generic layout leaves
out parentheses. Where the two disagree, parentheses have to be made explicit first. -/

namespace MonkeyFormat

namespace Operator

/-- The generic and the source rank of a binary operator. -/
def ranks? : String → Option (Int × Int)
  | "*" => some (0, 0)
  | "/" => some (0, 0)
  | "%" => some (0, 0)
  | "+" => some (10, 10)
  | "-" => some (10, 10)
  | "<<" => some (20, 0)
  | ">>" => some (20, 0)
  | "<" => some (30, 30)
  | "<=" => some (30, 30)
  | ">" => some (30, 30)
  | ">=" => some (30, 30)
  | "instanceof" => some (30, 5)
  | "has" => some (99, 5)
  -- a cast under a binary operator is parenthesized in the source and never generically
  | "as" => some (-1, 99)
  | "==" => some (40, 30)
  | "!=" => some (40, 30)
  | "&" => some (50, 0)
  | "^" => some (60, 10)
  | "|" => some (70, 10)
  | _ => none

/-- The rank by which the language binds the operator. -/
def sourceRank? (op : String) : Option Int := (ranks? op).map Prod.snd

/-- The rank by which C-like languages bind the operator. -/
def genericRank? (op : String) : Option Int := (ranks? op).map Prod.fst

/-- The rank of a logical operator, looser than every binary one but `has`. -/
def logicalRank? : String → Option Int
  | "&&" => some 80
  | "and" => some 80
  | "||" => some 90
  | "or" => some 90
  | _ => none

/-- The rank of a binary or logical operator in the generic layout. -/
def layoutRank? (op : String) : Option Int := (logicalRank? op).orElse fun _ => genericRank? op

/-- Is the operator one that compares for equality? -/
def isEquality (op : String) : Bool := ["==", "!="].contains op

/-- Is the operator a multiplication, a division or a remainder? -/
def isMultiplicative (op : String) : Bool := ["*", "/", "%"].contains op

/-- Is the operator a shift? -/
def isShift (op : String) : Bool := ["<<", ">>"].contains op

/-- Does the operator work on bits? -/
def isBitwise (op : String) : Bool := ["<<", ">>", "&", "|", "^"].contains op

/-- The rank of an operator field, none if it holds no known operator. -/
def rankOf (v : Value) : Option Int := v.str?.bind layoutRank?

/-- May a left operand with the operator `node` stand in the chain of the operator `parent`
without parentheses? Both must have the same rank, and chains of comparisons for equality, of
shifts, of remainders, and of mixed multiplicative operators are kept apart. -/
def flattens (parent node : Value) : Bool :=
  rankOf parent == rankOf node &&
    match parent, node with
    | .str p, .str n =>
      !(isEquality p && isEquality n) &&
      !((n == "%" && isMultiplicative p) || (p == "%" && isMultiplicative n)) &&
      !(n != p && isMultiplicative n && isMultiplicative p) &&
      !(isShift p && isShift n)
    | _, _ => true

end Operator

end MonkeyFormat
