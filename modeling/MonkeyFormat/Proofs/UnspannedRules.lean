import MonkeyFormat.Proofs.Printing
import MonkeyFormat.Proofs.Unspanned

set_option autoImplicit false

/-! # Rules on trees without spans

Each rule of the layout makes the same of a node and of the node without spans, if the callbacks
agree on what it asks them for and there is nothing in the source to keep. -/

namespace MonkeyFormat

/-- The same widths, without a source text and comments. -/
def Context.free (cx : Context) : Context := { widths := cx.widths }

namespace Layout

theorem mapM_congr_map {α β : Type} {f g : α → Layout β} {u : α → α} {as : List α}
    (h : ∀ a ∈ as, f a = g (u a)) : as.mapM f = (as.map u).mapM g := by
  induction as with
  | nil => rfl
  | cons a as ih =>
    rw [List.forall_mem_cons] at h
    rw [List.map_cons, List.mapM_cons, List.mapM_cons, h.1, ih h.2]

section Bodies

variable {cx : Context} {above : List (Step × Value)}

theorem itemCursors_unspanned (whole : Value) (first : Nat) (vs : List Value) :
    itemCursors whole.unspanned (above.map fun s => (s.1, s.2.unspanned)) first
        (vs.map Value.unspanned) =
      (itemCursors whole above first vs).map Cursor.unspanned := by
  rw [itemCursors, itemCursors, List.zipIdx_map, List.map_map, List.map_map]
  rfl

theorem bodyPart_unspanned {child child' : Child} {e : Cursor}
    (hchild : child e none = child' e.unspanned none)
    (hblank : blankLineAfter cx e.focus = .ok false) (count i : Nat) :
    bodyPart cx child count e i = bodyPart cx.free child' count e.unspanned i := by
  have hfree : blankLineAfter cx.free e.unspanned.focus = .ok false := rfl
  unfold bodyPart
  rw [hchild, hblank, hfree]

end Bodies

section Rules

variable {cx : Context} {child child' : Child} {c : Cursor} {n : Node}

/-- The callbacks agree on a field. -/
abbrev Agree (child child' : Child) (c : Cursor) (name : String) : Prop :=
  child c name = child' c.unspanned name

/-- The callbacks agree on the elements of a field. -/
abbrev AgreeEach (child child' : Child) (c : Cursor) (name : String) : Prop :=
  eachOf child c name = eachOf child' c.unspanned name

theorem liftM_map_bind {α β γ : Type} (f : α → β) (m : Except Fault α) (g : β → Layout γ) :
    ((liftM (m.map f) : Layout β) >>= g) = (liftM m : Layout α) >>= fun a => g (f a) := by
  cases m with
  | error e => rfl
  | ok a => rfl

theorem liftM_ok_bind {α β : Type} (a : α) (g : α → Layout β) :
    ((liftM (Except.ok a : Except Fault α) : Layout α) >>= g) = g a := rfl

theorem Agree.bind {name : String} (h : Agree child child' c name) (f : Doc → Layout Doc) :
    (child c name >>= f) = (child' c.unspanned name >>= f) := by
  rw [h]

theorem AgreeEach.bind {name : String} (h : AgreeEach child child' c name)
    (f : List Doc → Layout Doc) :
    (eachOf child c name >>= f) = (eachOf child' c.unspanned name >>= f) := by
  rw [h]

theorem parameters_unspanned (h : AgreeEach child child' c "params") :
    parameters child c n = parameters child' c.unspanned n.unspanned := by
  simp [parameters, h]

theorem signature_unspanned (hparams : AgreeEach child child' c "params")
    (hresult : Agree child child' c "returnType") :
    signature child c n = signature child' c.unspanned n.unspanned := by
  simp [signature, parameters_unspanned hparams, hresult]

theorem initialized_unspanned (hname : Agree child child' c "id")
    (hinit : Agree child child' c "init") :
    initialized child c n = initialized child' c.unspanned n.unspanned := by
  simp [initialized, hname, hinit]

theorem testClause_unspanned (htest : Agree child child' c "test") :
    testClause child c = testClause child' c.unspanned := by
  simp [testClause, htest]

theorem ifStatement_unspanned (htest : Agree child child' c "test")
    (hconsequent : Agree child child' c "consequent")
    (halternate : Agree child child' c "alternate") :
    ifStatement child c n = ifStatement child' c.unspanned n.unspanned := by
  simp [ifStatement, testClause_unspanned htest, hconsequent, halternate]

theorem whileStatement_unspanned (htest : Agree child child' c "test")
    (hbody : Agree child child' c "body") :
    whileStatement child c n = whileStatement child' c.unspanned n.unspanned := by
  simp [whileStatement, testClause_unspanned htest, hbody]

theorem doStatement_unspanned (htest : Agree child child' c "test")
    (hbody : Agree child child' c "body") :
    doStatement child c n = doStatement child' c.unspanned n.unspanned := by
  simp [doStatement, testClause_unspanned htest, hbody]

theorem forStatement_unspanned (hinit : Agree child child' c "init")
    (htest : Agree child child' c "test") (hupdate : Agree child child' c "update")
    (hbody : Agree child child' c "body") :
    forStatement child c n = forStatement child' c.unspanned n.unspanned := by
  simp [forStatement, hinit, htest, hupdate, hbody]

theorem own_of_nil (hcx : cx.attached = []) (c : Cursor) : own cx c = [] := by
  simp [own, hcx]

theorem own_free (cx : Context) (c : Cursor) : own cx.free c = [] := rfl

/-- The elements of a field are laid out as statements alike. -/
abbrev AgreeStatements (cx : Context) (child child' : Child) (c : Cursor) (n : Node)
    (name : String) : Prop :=
  statements cx child c n name = statements cx.free child' c.unspanned n.unspanned name

theorem bracedBody_unspanned (hcx : cx.attached = [])
    (h : AgreeStatements cx child child' c n "body") :
    bracedBody cx child c n = bracedBody cx.free child' c.unspanned n.unspanned := by
  simp [bracedBody, h, own_of_nil hcx, own_free]

theorem program_unspanned (hcx : cx.attached = [])
    (h : AgreeStatements cx child child' c n "body") :
    program cx child c n = program cx.free child' c.unspanned n.unspanned := by
  simp [program, h, own_of_nil hcx, own_free]

theorem enumBody_unspanned (hcx : cx.attached = []) (h : AgreeEach child child' c "members") :
    enumBody cx child c n = enumBody cx.free child' c.unspanned n.unspanned := by
  simp [enumBody, h, own_of_nil hcx, own_free]

theorem switchStatement_unspanned (hcx : cx.attached = [])
    (hdiscriminant : Agree child child' c "discriminant")
    (hcases : AgreeStatements cx child child' c n "cases") :
    switchStatement cx child c n = switchStatement cx.free child' c.unspanned n.unspanned := by
  simp [switchStatement, hdiscriminant, hcases, own_of_nil hcx, own_free]

theorem callArguments_unspanned (hcx : cx.attached = [])
    (h : AgreeEach child child' c "arguments") :
    callArguments cx child c n = callArguments cx.free child' c.unspanned n.unspanned := by
  simp only [callArguments, h, own_of_nil hcx, own_free, Node.get_unspanned,
    Value.truthy_unspanned, Value.elements_unspanned, liftM_map_bind]
  refine ite_congr rfl (fun _ => bind_congr fun vs => bind_congr fun ds => ?_) fun _ => rfl
  match vs, ds with
  | [v], [d] => simp
  | [], _ => rfl
  | [_], [] => rfl
  | [_], _ :: _ :: _ => rfl
  | _ :: _ :: _, _ => rfl

theorem call_unspanned (hcx : cx.attached = []) (hcallee : Agree child child' c "callee")
    (harguments : AgreeEach child child' c "arguments") (f : Doc → Doc → Layout Doc) :
    (child c "callee" >>= fun callee => callArguments cx child c n >>= f callee) =
      (child' c.unspanned "callee" >>= fun callee =>
        callArguments cx.free child' c.unspanned n.unspanned >>= f callee) := by
  rw [hcallee, callArguments_unspanned hcx harguments]

theorem variableDeclaration_unspanned (h : AgreeEach child child' c "declarations") {s : String}
    (hkind : n.get "kind" = .str s) :
    variableDeclaration child c n = variableDeclaration child' c.unspanned n.unspanned := by
  simp only [variableDeclaration, h, Node.get_unspanned, Value.elements_unspanned, fieldOr, hkind,
    liftM_map_bind, anyInit_unspanned, Cursor.key_unspanned, Cursor.parent_unspanned,
    Value.unspanned_str]
  cases c.parent with
  | none => rfl
  | some p => simp only [Option.map_some, Node.kind_unspanned]

theorem functionDeclaration_unspanned (hparams : AgreeEach child child' c "params")
    (hresult : Agree child child' c "returnType") (hname : Agree child child' c "id")
    (hbody : Agree child child' c "body") :
    functionDeclaration child c n = functionDeclaration child' c.unspanned n.unspanned := by
  simp [functionDeclaration, signature_unspanned hparams hresult, hname, hbody]

theorem methodDefinition_unspanned (hparams : AgreeEach child child' c "params")
    (hresult : Agree child child' c "returnType") {s : String} (hkey : n.get "key" = .str s) :
    methodDefinition child c n = methodDefinition child' c.unspanned n.unspanned := by
  have hnot : (Value.str s).isNode = false := rfl
  simp [methodDefinition, signature_unspanned hparams hresult, fieldOr, hkey, hnot]

theorem classDeclaration_unspanned (hname : Agree child child' c "id")
    (hbase : Agree child child' c "superClass") (hbody : Agree child child' c "body") :
    classDeclaration child c n = classDeclaration child' c.unspanned n.unspanned := by
  simp [classDeclaration, hname, hbase, hbody]

theorem switchCase_unspanned (htest : Agree child child' c "test")
    (hconsequent : AgreeStatements cx child child' c n "consequent")
    (hsole : ∀ e, (c.field "consequent").down (.index 0) = .ok e →
      child e none = child' e.unspanned none) :
    switchCase cx child c n = switchCase cx.free child' c.unspanned n.unspanned := by
  simp only [switchCase, htest, hconsequent, Node.get_unspanned, Value.isNull_unspanned,
    Value.count_unspanned, Value.child_unspanned, Value.truthy_unspanned, Cursor.field_unspanned,
    Cursor.down_unspanned, liftM_map_bind, kindOf_unspanned]
  cases hdown : (c.field "consequent").down (.index 0) with
  | error e => rfl
  | ok e => simp only [liftM_ok_bind, hsole e hdown]

theorem tryStatement_unspanned (hblock : Agree child child' c "block")
    (hhandler : Agree child child' c "handler") (hfinalizer : Agree child child' c "finalizer") :
    tryStatement child c n = tryStatement child' c.unspanned n.unspanned := by
  simp [tryStatement, hblock, hhandler, hfinalizer]

theorem catchClause_unspanned (hparam : Agree child child' c "param")
    (hbody : Agree child child' c "body") :
    catchClause child c n = catchClause child' c.unspanned n.unspanned := by
  simp [catchClause, hparam, hbody]

theorem returnStatement_unspanned (h : Agree child child' c "argument") :
    returnStatement child c n = returnStatement child' c.unspanned n.unspanned := by
  simp [returnStatement, h]

theorem unaryExpression_unspanned (h : Agree child child' c "argument") {s : String}
    (hop : n.get "operator" = .str s) :
    unaryExpression child c n = unaryExpression child' c.unspanned n.unspanned := by
  simp [unaryExpression, h, hop]

theorem updateExpression_unspanned (h : Agree child child' c "argument") {s : String}
    (hop : n.get "operator" = .str s) :
    updateExpression child c n = updateExpression child' c.unspanned n.unspanned := by
  simp [updateExpression, h, hop]

theorem assignmentExpression_unspanned (hleft : Agree child child' c "left")
    (hright : Agree child child' c "right") {s : String} (hop : n.get "operator" = .str s) :
    assignmentExpression child c n = assignmentExpression child' c.unspanned n.unspanned := by
  simp [assignmentExpression, hleft, hright, hop]

theorem conditionalExpression_unspanned (htest : Agree child child' c "test")
    (hconsequent : Agree child child' c "consequent")
    (halternate : Agree child child' c "alternate") :
    conditionalExpression child c = conditionalExpression child' c.unspanned := by
  simp [conditionalExpression, htest, hconsequent, halternate]

theorem memberExpression_unspanned (hobject : Agree child child' c "object")
    (hproperty : Agree child child' c "property") :
    memberExpression child c n = memberExpression child' c.unspanned n.unspanned := by
  simp [memberExpression, hobject, hproperty]

theorem filled_cons_cons (cx : Context) (v : Value) (d : Doc) (e : Value × Doc)
    (more : List (Value × Doc)) : filled cx ((v, d) :: e :: more) =
      (do
        let blank ← blankLineAfter cx v
        let rest ← filled cx (e :: more)
        pure (.list [d, .bare ","] :: (if blank then .list [.hardline, .hardline] else .space) ::
          rest)) := by
  rw [filled]
  simp

theorem filled_unspanned {vs : List Value}
    (h : ∀ v ∈ vs, blankLineAfter cx v = .ok false) (ds : List Doc) :
    filled cx (vs.zip ds) = filled cx.free ((vs.map Value.unspanned).zip ds) := by
  induction vs generalizing ds with
  | nil => rfl
  | cons v vs ih =>
    rw [List.forall_mem_cons] at h
    have hfree : blankLineAfter cx.free v.unspanned = .ok false := rfl
    cases ds with
    | nil => rfl
    | cons d ds =>
      have hrest := ih h.2 ds
      rw [List.map_cons, List.zip_cons_cons, List.zip_cons_cons]
      cases vs with
      | nil => rfl
      | cons w vs =>
        cases ds with
        | nil => rfl
        | cons e ds =>
          rw [List.map_cons, List.zip_cons_cons, List.zip_cons_cons] at hrest ⊢
          rw [filled_cons_cons, filled_cons_cons, h.1, hfree, hrest]

theorem arrayExpression_unspanned (hcx : cx.attached = []) (h : AgreeEach child child' c "elements")
    {vs : List Value} (hget : n.get "elements" = .list vs)
    (hblank : ∀ v ∈ vs, blankLineAfter cx v = .ok false) :
    arrayExpression cx child c n = arrayExpression cx.free child' c.unspanned n.unspanned := by
  have helements : (Value.list vs).elements = .ok vs := by
    cases vs with
    | nil => rfl
    | cons v vs => rfl
  simp only [arrayExpression, h, own_of_nil hcx, own_free, Node.get_unspanned,
    Value.truthy_unspanned, Value.elements_unspanned, liftM_map_bind, allNumeric_unspanned,
    isTable_unspanned, hget, helements, liftM_ok_bind, ← filled_unspanned hblank]

theorem objectExpression_unspanned (hcx : cx.attached = [])
    (h : AgreeEach child child' c "properties")
    (hentries : (n.get "properties").truthy = true → isExpanded cx n = .ok false) :
    objectExpression cx child c n = objectExpression cx.free child' c.unspanned n.unspanned := by
  have hfree : isExpanded cx.free n.unspanned = .ok false := rfl
  simp only [objectExpression, h, own_of_nil hcx, own_free, Node.get_unspanned,
    Value.truthy_unspanned, hfree]
  refine ite_congr rfl (fun hfilled => ?_) fun _ => rfl
  rw [hentries hfilled]

/-! ### The language's own rules -/

theorem withAttrs_unspanned (h : Agree child child' c "attrs") (body : Doc) :
    withAttrs child c n body = withAttrs child' c.unspanned n.unspanned body := by
  simp [withAttrs, h]

theorem attributed_unspanned (h : Agree child child' c "attrs")
    (hbody : generic cx child c = generic cx.free child' c.unspanned) :
    attributed cx child c n = attributed cx.free child' c.unspanned n.unspanned := by
  simp only [attributed, hbody, withAttrs_unspanned h]

theorem moduleDeclaration_unspanned (hattrs : Agree child child' c "attrs")
    (hname : Agree child child' c "id") (hbody : Agree child child' c "body") :
    moduleDeclaration child c n = moduleDeclaration child' c.unspanned n.unspanned := by
  simp only [moduleDeclaration, hname, hbody, withAttrs_unspanned hattrs]

theorem typedefDeclaration_unspanned (hattrs : Agree child child' c "attrs")
    (hname : Agree child child' c "id") (htype : Agree child child' c "ts") :
    typedefDeclaration child c n = typedefDeclaration child' c.unspanned n.unspanned := by
  simp only [typedefDeclaration, hname, htype, withAttrs_unspanned hattrs]

theorem property_unspanned (hkey : Agree child child' c "key")
    (hvalue : Agree child child' c "value") :
    property child c = property child' c.unspanned := by
  simp only [property, hkey, hvalue]

theorem importModule_unspanned (hname : Agree child child' c "id") :
    importModule child c = importModule child' c.unspanned := by
  simp only [importModule, hname]

theorem usingImport_unspanned (hname : Agree child child' c "id")
    (hshort : Agree child child' c "as") :
    usingImport child c n = usingImport child' c.unspanned n.unspanned := by
  simp [usingImport, hname, hshort]

theorem identifier_unspanned {s : String} (hname : n.get "name" = .str s)
    (hearlier : n.get "original" = .null) : identifier n = identifier n.unspanned := by
  simp [identifier, hname, hearlier]

theorem typeSpecList_unspanned (h : AgreeEach child child' c "ts") :
    typeSpecList child c = typeSpecList child' c.unspanned := by
  simp only [typeSpecList, h]

theorem typeSpecPart_unspanned (hname : Agree child child' c "name")
    (hgenerics : AgreeEach child child' c "generics")
    (hcallspec : Agree child child' c "callspec") :
    typeSpecPart child c n = typeSpecPart child' c.unspanned n.unspanned := by
  simp only [typeSpecPart, hname, hgenerics, hcallspec, Node.get_unspanned, Value.truthy_unspanned,
    Value.isNull_unspanned, endsInGenerics_unspanned]

theorem fieldOr_unspanned {name : String} (h : (n.get name).unspanned = n.get name)
    (default : String) : fieldOr n name default = fieldOr n.unspanned name default := by
  simp only [fieldOr, Node.get_unspanned, h]

theorem sizedArray_unspanned (htype : Agree child child' c "ts")
    (hsize : Agree child child' c "size") (hbyte : (n.get "byte").unspanned = n.get "byte") :
    sizedArray child c n = sizedArray child' c.unspanned n.unspanned := by
  simp only [sizedArray, htype, hsize, fieldOr_unspanned hbyte, Node.get_unspanned,
    Value.isNull_unspanned]
  cases n.get "ts" with
  | node t => simp only [Value.unspanned_node, Node.get_unspanned, Value.truthy_unspanned]
  | _ => rfl

theorem enumDeclaration_unspanned (hattrs : Agree child child' c "attrs")
    (hname : Agree child child' c "id") (hbody : Agree child child' c "body") :
    enumDeclaration child c n = enumDeclaration child' c.unspanned n.unspanned := by
  simp only [enumDeclaration, hname, hbody, withAttrs_unspanned hattrs, Node.get_unspanned,
    Value.isNull_unspanned]

theorem attributes_unspanned (h : AgreeEach child child' c "elements") :
    attributes child c = attributes child' c.unspanned := by
  simp only [attributes, h]

theorem attributeList_unspanned (h : Agree child child' c "attributes") :
    attributeList child c n = attributeList child' c.unspanned n.unspanned := by
  simp only [attributeList, h, Node.get_unspanned, accessText_unspanned, Value.isNull_unspanned]

theorem parenthesizedExpression_unspanned (h : Agree child child' c "expression")
    (hgeneric : generic cx child c = generic cx.free child' c.unspanned) :
    parenthesizedExpression cx child c n =
      parenthesizedExpression cx.free child' c.unspanned n.unspanned := by
  simp only [parenthesizedExpression, h, hgeneric, Cursor.parent_unspanned, Node.get_unspanned,
    isKind_unspanned]
  cases c.parent with
  | none => rfl
  | some p =>
    simp only [Option.map_some, Node.kind_unspanned, Node.get_unspanned, Value.isStr_unspanned]

theorem literal_unspanned {s : String} (hraw : n.get "raw" = .str s) (hne : s ≠ "") :
    literal n = literal n.unspanned := by
  have htruthy : (Value.str s).truthy = true := by simpa [Value.truthy] using hne
  simp [literal, hraw, htruthy]

theorem suffixed_unspanned (hgeneric : generic cx child c = generic cx.free child' c.unspanned)
    (hbyte : (n.get "byte").unspanned = n.get "byte") :
    (generic cx child c >>= fun d => pure (.list [d, fieldOr n "byte" ""])) =
      (generic cx.free child' c.unspanned >>= fun d =>
        (pure (.list [d, fieldOr n.unspanned "byte" ""]) : Layout Doc)) := by
  rw [hgeneric, fieldOr_unspanned hbyte]

theorem monkeyLiteral_unspanned {s : String} (hraw : n.get "raw" = .str s)
    (hgeneric : generic cx child c = generic cx.free child' c.unspanned) :
    monkeyLiteral cx child c n = monkeyLiteral cx.free child' c.unspanned n.unspanned := by
  simp only [monkeyLiteral, hraw, hgeneric, Node.get_unspanned, Value.unspanned_str]
  cases n.get "value" with
  | _ => rfl

theorem generic_unspanned {above : List (Step × Value)} (rule : String)
    (hrule : snake n.kind = rule)
    (h : genericRule cx child ⟨.node n, above⟩ n rule =
      genericRule cx.free child' (Cursor.unspanned ⟨.node n, above⟩) n.unspanned rule) :
    generic cx child ⟨.node n, above⟩ =
      generic cx.free child' (Cursor.unspanned ⟨.node n, above⟩) := by
  have hplace := Nesting.parenthesized_unspanned ⟨.node n, above⟩
  simp only [generic, Cursor.unspanned_mk, Value.unspanned_node, Node.kind_unspanned] at h hplace ⊢
  rw [hrule, h]
  simp only [hplace]

end Rules

end Layout

end MonkeyFormat
