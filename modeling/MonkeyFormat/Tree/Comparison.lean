import MonkeyFormat.Tree.Basic

set_option autoImplicit false

/-! # Comparing trees

Whether two trees are the same can be computed. -/

namespace MonkeyFormat

mutual

/-- Are the values the same? -/
def Value.eqb : Value → Value → Bool
  | .null, .null => true
  | .bool a, .bool b => a == b
  | .int a, .int b => a == b
  | .float a, .float b => a == b
  | .str a, .str b => a == b
  | .list vs, .list ws => itemsEqb vs ws
  | .dict es, .dict fs => fieldsEqb es fs
  | .node n, .node m => n.eqb m
  | _, _ => false

/-- Are the nodes the same? -/
def Node.eqb : Node → Node → Bool
  | ⟨kind, span, fs⟩, m => kind == m.kind && decide (span = m.span) && fieldsEqb fs m.fields

/-- Are the lists of values the same? -/
def itemsEqb : List Value → List Value → Bool
  | [], [] => true
  | v :: vs, w :: ws => v.eqb w && itemsEqb vs ws
  | _, _ => false

/-- Are the lists of fields the same? -/
def fieldsEqb : List (String × Value) → List (String × Value) → Bool
  | [], [] => true
  | (k, v) :: fs, (l, w) :: gs => k == l && v.eqb w && fieldsEqb fs gs
  | _, _ => false

end

mutual

theorem Value.eqb_iff (v w : Value) : v.eqb w = true ↔ v = w := by
  match v with
  | .list vs => cases w <;> simp [Value.eqb, itemsEqb_iff vs]
  | .dict es => cases w <;> simp [Value.eqb, fieldsEqb_iff es]
  | .node n => cases w <;> simp [Value.eqb, n.eqb_iff]
  | .null | .bool _ | .int _ | .float _ | .str _ => cases w <;> simp [Value.eqb]

theorem Node.eqb_iff (n m : Node) : n.eqb m = true ↔ n = m := by
  match n with
  | ⟨kind, span, fs⟩ =>
    obtain ⟨kind', span', gs⟩ := m
    simp [Node.eqb, fieldsEqb_iff fs, and_assoc]

theorem itemsEqb_iff (vs ws : List Value) : itemsEqb vs ws = true ↔ vs = ws := by
  match vs with
  | [] => cases ws <;> simp [itemsEqb]
  | v :: vs => cases ws <;> simp [itemsEqb, v.eqb_iff, itemsEqb_iff vs]

theorem fieldsEqb_iff (fs gs : List (String × Value)) : fieldsEqb fs gs = true ↔ fs = gs := by
  match fs with
  | [] => cases gs <;> simp [fieldsEqb]
  | (k, v) :: fs =>
    cases gs with
    | nil => simp [fieldsEqb]
    | cons g gs =>
      obtain ⟨l, w⟩ := g
      simp [fieldsEqb, v.eqb_iff, fieldsEqb_iff fs]

end

instance : DecidableEq Value := fun v w => decidable_of_iff _ (v.eqb_iff w)

instance : DecidableEq Node := fun n m => decidable_of_iff _ (n.eqb_iff m)

/-- Whether a computation gives a certain result. -/
instance decidableEqOk {ε α : Type} [DecidableEq α] (m : Except ε α) (a : α) :
    Decidable (m = .ok a) :=
  match m with
  | .ok b => decidable_of_iff (b = a) (by simp)
  | .error e => isFalse (by simp)

end MonkeyFormat
