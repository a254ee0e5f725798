import MonkeyFormat.Tree.Basic

set_option autoImplicit false

/-! # Equality of trees

Two nodes are equal if they have the same kind, the same offsets and the same fields, whatever
the order of the fields. Numbers are compared by value, so that a truth value counts as zero or
one, a whole number equals the floating point number of its value, and a NaN equals nothing. -/

namespace MonkeyFormat

/-- A value that is or counts as a whole number. -/
def Value.asInt? : Value → Option Int
  | .bool b => some (if b then 1 else 0)
  | .int n => some n
  | _ => none

mutual

/-- Are two values equal? -/
def Value.same : Value → Value → Bool
  | .null, .null => true
  | .str s, .str t => s == t
  | .float x, .float y => x.equals y
  | .float x, w => (w.asInt?.map x.equalsInt).getD false
  | .bool b, .float y => y.equalsInt (if b then 1 else 0)
  | .bool b, w => w.asInt? == some (if b then 1 else 0)
  | .int m, .float y => y.equalsInt m
  | .int m, w => w.asInt? == some m
  | .list vs, .list ws => sameItems vs ws
  | .dict es, .dict fs => es.length == fs.length && sameEntries es fs
  | .node a, .node b => a.same b
  | _, _ => false

/-- Are two nodes equal? -/
def Node.same : Node → Node → Bool
  | ⟨kind, span, fields⟩, other =>
    kind == other.kind && span.start == other.start && span.stop == other.stop &&
      fields.length == other.fields.length && sameEntries fields other.fields

/-- Are two lists equal, element by element? -/
def sameItems : List Value → List Value → Bool
  | [], [] => true
  | v :: vs, w :: ws => v.same w && sameItems vs ws
  | _, _ => false

/-- Does every entry have an equal one of the same name in `others`? -/
def sameEntries : List (String × Value) → List (String × Value) → Bool
  | [], _ => true
  | (k, v) :: es, others =>
    (match others.lookup k with
      | some w => v.same w
      | none => false) && sameEntries es others

end

end MonkeyFormat
