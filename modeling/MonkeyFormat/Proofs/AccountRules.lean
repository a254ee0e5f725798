import MonkeyFormat.Proofs.Accounts
import MonkeyFormat.Proofs.NumberTexts
import MonkeyFormat.Proofs.UnspannedLayout

set_option autoImplicit false

/-! # Every rule keeps account

A rule that is given accounts for the fields of its node lays out the comments of all of them. Some
rules have a place for the node's own dangling comments where a list of children would stand. -/

namespace MonkeyFormat

open Doc (Holds HoldsAll)

namespace Layout

/-! ## Small pieces -/

section Pieces

variable {d e : Doc} {fs gs : Doc.Content}

theorem holds_commaLine : commaLine.Holds 0 :=
  .list (.plain (.bare (by decide)) (.one (.line .space)))

theorem holds_enclosed {opening closing : String} (hopening : Text.opensComment opening = false)
    (hclosing : Text.opensComment closing = false) (h : d.Holds fs) :
    (enclosed opening d closing).Holds fs :=
  .group (.list (.plain (.bare hopening) (.front
    (.indent (.list (.plain (.line .soft) (.one h))))
    (.plain (.line .soft) (.one (.bare hclosing)))))) false

theorem holds_braced (h : d.Holds fs) : (braced d).Holds fs :=
  .list (.plain (.bare (by decide)) (.front (.indent (.list (.plain (.line .hard) (.one h))))
    (.plain (.line .hard) (.one (.bare (by decide))))))

theorem holds_ofText {s : String} (h : Text.opensComment s = false) :
    (Doc.ofValue (.str s)).Holds 0 := .bare h

theorem holds_fieldOr {n : Node} {name s default : String} (hget : n.get name = .str s)
    (hs : Text.opensComment s = false) (hdefault : Text.opensComment default = false) :
    (fieldOr n name default).Holds 0 := by
  unfold fieldOr
  rw [hget]
  dsimp only
  split
  · exact .bare hs
  · exact .bare hdefault

theorem holds_assignment {op : String} (hop : Text.opensComment op = false) (v : Value)
    (hd : d.Holds fs) (he : e.Holds gs) : (assignment d op v e).Holds (fs + gs) := by
  unfold assignment
  split
  · exact .group (.list (.cons (hd.group false) (.plain (.bare hop)
      (.plain (.bare (by decide)) (.one he))))) false
  · exact .group (.list (.cons (hd.group false) (.plain (.bare hop)
      (.one (.group (.indent (.list (.plain (.line .space) (.one he)))) false))))) false

end Pieces

/-! ## What rules are given -/

section Given

variable (cx : Context) (child : Child) (c : Cursor) (n : Node) (name : String)
  (as : Multiset Attached)

/-- A field holds a node, or nothing, and is laid out with the comments below it. -/
structure Gives : Prop where
  keeps : Keeps (child c name) as
  holds : n.get name = .null ∧ as = 0 ∨ ∃ m, n.get name = .node m

theorem Gives.empty {child c n name as} (h : Gives child c n name as)
    (hnull : (n.get name).isNull = true) : as = 0 := by
  rcases h.holds with ⟨_, has⟩ | ⟨m, hm⟩
  · exact has
  · rw [hm] at hnull
    cases hnull

/-- A field holds nodes, and each of them is laid out with the comments below it. -/
structure Lists (ns : List Node) : Prop where
  get : n.get name = .list (ns.map .node)
  each : Lays (eachOf child c name) as fun ds => HoldsAll ds (forms as) ∧ ds.length = ns.length
  lines : KeepsAll (statements cx child c n name) as
  empty : ns = [] → as = 0
  sole : ∀ m, ns = [m] → ∃ e, (c.field name).down (.index 0) = .ok e ∧ Keeps (child e none) as
  blank : ∀ m ∈ ns, ∃ b, blankLineAfter cx (.node m) = .ok b

/-- The rule lays out the given comments and those of the node's own that `p` holds of. -/
def Tells (m : Layout Doc) (as : Multiset Attached) : Prop :=
  ∃ p : Attached → Bool, Keeps m (↑((own cx c).filter p) + as)

end Given

section Rules

variable {cx : Context} {child : Child} {c : Cursor} {n : Node} {ns : List Node}
  {as bs cs ds : Multiset Attached}

theorem Keeps.tells {m : Layout Doc} (h : Keeps m as) : Tells cx c m as :=
  ⟨fun _ => false, by simpa using h⟩

/-- A document that is put into another one. -/
theorem Tells.map {m : Layout Doc} {f : Doc → Layout Doc} (h : Tells cx c m as)
    (hf : ∀ d fs, d.Holds fs → Lays (f d) 0 fun e => e.Holds fs) : Tells cx c (m >>= f) as := by
  obtain ⟨p, hm⟩ := h
  exact ⟨p, hm.last fun d hd => hf d _ hd⟩

theorem truthy_nodes (ns : List Node) :
    (Value.list (ns.map .node)).truthy = !ns.isEmpty := by
  cases ns with
  | nil => rfl
  | cons m ns => rfl

theorem count_nodes (ns : List Node) : (Value.list (ns.map .node)).count = .ok ns.length := by
  cases ns with
  | nil => rfl
  | cons m ns => exact congrArg Except.ok (List.length_map _)

theorem Lists.truthy {name : String} (h : Lists cx child c n name as ns) :
    (n.get name).truthy = !ns.isEmpty := by
  rw [h.get, truthy_nodes]

theorem Lists.elements {name : String} (h : Lists cx child c n name as ns) :
    (n.get name).elements = .ok (ns.map .node) := by
  rw [h.get]
  cases ns with
  | nil => rfl
  | cons m ns => rfl

theorem Lists.count {name : String} (h : Lists cx child c n name as ns) :
    (n.get name).count = .ok ns.length := by
  rw [h.get, count_nodes]

/-- A list of children, or else the node's dangling comments. -/
theorem tells_list {m : Layout (List Doc)} {name : String} {f : List Doc → Layout Doc}
    {g : Layout Doc} (h : Lists cx child c n name as ns)
    (hfilled : Keeps (m >>= f) as) (hempty : Tells cx c g 0) :
    Tells cx c (if (n.get name).truthy then m >>= f else g) as := by
  rw [h.truthy]
  cases ns with
  | nil =>
    rw [h.empty rfl]
    exact hempty
  | cons m ns => exact hfilled.tells

theorem tells_dangling {f : Option Doc → Layout Doc}
    (hf : ∀ o fs, HeldBy fs o → Lays (f o) 0 fun d => d.Holds fs) :
    Tells cx c (dangling (own cx c) >>= f) 0 := by
  refine ⟨fun a => a.role = .dangling, ?_⟩
  rw [add_zero]
  exact (lays_dangling (own cx c)).last fun o ho => hf o _ ho

theorem tells_emptyBraces : Tells cx c (emptyBraces (own cx c)) 0 := by
  refine tells_dangling fun o fs ho => ?_
  cases o with
  | none => exact .pure ((Holds.bare (by decide)).of_eq ho.symm)
  | some d => exact .pure (holds_braced ho)

theorem tells_bracedBody (h : Lists cx child c n "body" as ns) :
    Tells cx c (bracedBody cx child c n) as :=
  tells_list h (h.lines.last fun _ hds => .pure (holds_braced (.list hds))) tells_emptyBraces

theorem tells_enumBody (h : Lists cx child c n "members" as ns) :
    Tells cx c (enumBody cx child c n) as := by
  refine tells_list h (h.each.last fun ds hds => .pure (holds_braced (.join ?_ hds.1)))
    tells_emptyBraces
  exact .list (.plain (.bare (by decide)) (.one (.line .hard)))

theorem tells_program (h : Lists cx child c n "body" as ns) :
    Tells cx c (program cx child c n) as := by
  refine tells_list h (h.lines.last fun ds hds => .pure ?_) (tells_dangling fun o fs ho => ?_)
  · exact .list (.front (.list hds) (.one (.line .hard)))
  · cases o with
    | none => exact .pure ((Holds.bare (by decide)).of_eq ho.symm)
    | some d => exact .pure (.list (.front ho (.one (.line .hard))))

theorem keeps_parameters (h : Lists cx child c n "params" as ns) :
    Keeps (parameters child c n) as := by
  unfold parameters
  rw [h.truthy]
  cases ns with
  | nil =>
    rw [h.empty rfl]
    exact .pure (.bare (by decide))
  | cons m ns =>
    exact h.each.last fun ds hds => .pure (holds_enclosed (by decide) (by decide)
      (.join holds_commaLine hds.1))

theorem keeps_signature (hparams : Lists cx child c n "params" as ns)
    (hresult : Gives child c n "returnType" bs) : Keeps (signature child c n) (as + bs) := by
  simp only [Keeps, forms_add]
  exact (keeps_parameters hparams).bind fun ps hps => hresult.keeps.last fun d hd =>
    .pure (.group (.list (.cons hps (.one hd))) false)

theorem keeps_initialized (hname : Keeps (child c "id") as) (hinit : Gives child c n "init" bs) :
    Keeps (initialized child c n) (as + bs) := by
  simp only [Keeps, forms_add]
  refine hname.bind fun d hd => ?_
  rcases hinit.holds with ⟨hnull, rfl⟩ | ⟨m, hm⟩
  · rw [hnull]
    exact .pure (hd.of_eq (add_zero _).symm)
  · rw [hm]
    exact hinit.keeps.last fun e he =>
      .pure (holds_assignment (show Text.opensComment " =" = false by decide) _ hd he)

/-! ## Declarations -/

theorem anyInit_nodes (ns : List Node) : ∃ b, anyInit (ns.map .node) = .ok b := by
  induction ns with
  | nil => exact ⟨_, rfl⟩
  | cons m ns ih =>
    rw [List.map_cons, anyInit]
    split
    · exact ih
    · exact ⟨_, rfl⟩

theorem keeps_variableDeclaration {s : String} (hkind : n.get "kind" = .str s)
    (hs : Text.opensComment s = false) (h : Lists cx child c n "declarations" as ns) :
    Keeps (variableDeclaration child c n) as := by
  obtain ⟨hasValue, hvalue⟩ := anyInit_nodes ns
  refine .look h.elements (h.each.last fun ds hds => .look hvalue ?_)
  obtain ⟨fs, gs, hhead, htail, hsum⟩ :=
    hds.1.headD (.bare (show Text.opensComment "" = false by decide))
  have hbreak : (if hasValue then Doc.hardline else .space).Holds 0 := by
    split
    · exact .line .hard
    · exact .line .space
  have hrest := htail.map (f := fun d => .list [.bare ",", if hasValue then .hardline else .space,
    d]) fun d fs hd => .list (.plain (.bare (by decide)) (.plain hbreak (.one hd)))
  refine .pure (.group (.list ?_) false)
  exact HoldsAll.of_eq (.append (.plain (holds_fieldOr hkind hs (by decide)) (.plain
    (.bare (by decide)) (.cons hhead (.one (.indent (.list hrest))))))
      (.ite .nil (.one (.bare (by decide))))) (by rw [hsum, add_zero])

theorem keeps_functionDeclaration (hparams : Lists cx child c n "params" as ns)
    (hresult : Gives child c n "returnType" bs) (hname : Keeps (child c "id") cs)
    (hbody : Gives child c n "body" ds) :
    Keeps (functionDeclaration child c n) (as + bs + (cs + ds)) := by
  refine (keeps_signature hparams hresult).bind fun s hs => hname.bind fun d hd => ?_
  rcases hbody.holds with ⟨hnull, rfl⟩ | ⟨m, hm⟩
  · rw [hnull]
    refine .pure (Holds.of_eq (.list (.plain (.bare (by decide)) (.cons hd (.front hs
      (.one (.bare (by decide))))))) ?_)
    rw [add_zero, add_comm, ← forms_add]
  · rw [hm]
    refine hbody.keeps.last fun e he => .pure (Holds.of_eq (.list (.plain (.bare (by decide))
      (.cons hd (.cons hs (.plain (.bare (by decide)) (.one he)))))) ?_)
    rw [forms_add (as + bs), forms_add cs, add_left_comm]

theorem keeps_methodDefinition {s : String} (hkey : n.get "key" = .str s)
    (hs : Text.opensComment s = false) (hparams : Lists cx child c n "params" as ns)
    (hresult : Gives child c n "returnType" bs) :
    Keeps (methodDefinition child c n) (as + bs) := by
  have hnode : (n.get "key").isNode = false := by rw [hkey]; rfl
  unfold methodDefinition
  rw [hnode]
  exact .given ((keeps_signature hparams hresult).last fun d hd =>
    .pure (.list (.plain (holds_fieldOr hkey hs (by decide)) (.one hd))))

theorem keeps_classDeclaration (hname : Keeps (child c "id") as)
    (hbase : Gives child c n "superClass" bs) (hbody : Keeps (child c "body") cs) :
    Keeps (classDeclaration child c n) (as + (bs + cs)) := by
  refine hname.bind fun d hd => ?_
  rcases hbase.holds with ⟨hnull, rfl⟩ | ⟨m, hm⟩
  · rw [hnull, zero_add]
    exact .given (hbody.last fun e he => .pure (Holds.of_eq (.list (.plain (.bare (by decide))
      (.cons hd (.plain (.bare (by decide)) (.one he))))) (by simp)))
  · rw [hm]
    exact hbase.keeps.bind fun b hb => .given (hbody.last fun e he => .pure (Holds.of_eq
      (.list (.plain (.bare (by decide)) (.cons hd (.plain (.bare (by decide)) (.cons hb
        (.plain (.bare (by decide)) (.one he))))))) (by simp)))

/-! ## Statements -/

theorem keeps_testClause (htest : Keeps (child c "test") as) : Keeps (testClause child c) as :=
  htest.last fun _ hd => .pure (.group (.list (.front (.indent (.list (.plain (.line .soft)
    (.one hd)))) (.one (.line .soft)))) false)

/-- A statement behind its header. -/
theorem clause_eq_ok {d : Doc} {fs : Doc.Content} (m : Node) (hd : d.Holds fs)
    (sameLine : Bool) : ∃ e, clause (.node m) d sameLine = .ok e ∧ e.Holds fs := by
  by_cases hline : (decide (m.kind = "BlockStatement") || sameLine) = true
  · refine ⟨.list [.bare " ", d], ?_, .list (.plain (.bare (by decide)) (.one hd))⟩
    change (if _ then _ else _ : Except Fault Doc) = _
    rw [if_neg (by simp [Value.isNull])]
    change (if _ then _ else _ : Except Fault Doc) = _
    rw [if_pos hline]
    rfl
  · refine ⟨.indent (.list [.space, d]), ?_, .indent (.list (.plain (.line .space) (.one hd)))⟩
    change (if _ then _ else _ : Except Fault Doc) = _
    rw [if_neg (by simp [Value.isNull])]
    change (if _ then _ else _ : Except Fault Doc) = _
    rw [if_neg hline]
    rfl

theorem holds_gap (v : Value) : (if isBlock v then Doc.bare " " else .hardline).Holds 0 :=
  .ite (.bare (by decide)) (.line .hard)

theorem keeps_ifStatement {m : Node} (hthen : n.get "consequent" = .node m)
    (htest : Keeps (child c "test") as) (hconsequent : Keeps (child c "consequent") bs)
    (halternate : Gives child c n "alternate" cs) :
    Keeps (ifStatement child c n) (as + (bs + cs)) := by
  refine (keeps_testClause htest).bind fun t ht => hconsequent.bind fun d hd => ?_
  rw [hthen]
  obtain ⟨first, hfirst, hholds⟩ := clause_eq_ok m hd false
  refine .look hfirst ?_
  rcases halternate.holds with ⟨hnull, rfl⟩ | ⟨e, he⟩
  · rw [hnull]
    exact .pure (Holds.of_eq (.list (.one (.group (.list (.plain (.bare (by decide)) (.cons ht
      (.plain (.bare (by decide)) (.one hholds))))) false))) (by simp))
  · rw [he]
    refine halternate.keeps.last fun b hb => ?_
    obtain ⟨second, hsecond, hother⟩ := clause_eq_ok e hb (e.kind = "IfStatement")
    refine .look (a := e.kind) rfl (.look hsecond (.pure (Holds.of_eq (.list (.cons (.group
      (.list (.plain (.bare (by decide)) (.cons ht (.plain (.bare (by decide)) (.one hholds)))))
      false) (.plain (holds_gap _) (.one (.list (.plain (.bare (by decide))
        (.one (hother.group false)))))))) ?_)))
    simp [add_assoc]

theorem keeps_whileStatement {m : Node} (hget : n.get "body" = .node m)
    (htest : Keeps (child c "test") as) (hbody : Keeps (child c "body") bs) :
    Keeps (whileStatement child c n) (as + bs) := by
  refine (keeps_testClause htest).bind fun t ht => hbody.last fun d hd => ?_
  rw [hget]
  obtain ⟨b, hb, hholds⟩ := clause_eq_ok m hd false
  exact .look hb (.pure (Holds.of_eq (.group (.list (.plain (.bare (by decide)) (.cons ht (.plain
    (.bare (by decide)) (.one hholds))))) false) (by simp)))

theorem keeps_doStatement {m : Node} (hget : n.get "body" = .node m)
    (hbody : Keeps (child c "body") as) (htest : Keeps (child c "test") bs) :
    Keeps (doStatement child c n) (as + bs) := by
  refine hbody.bind fun d hd => ?_
  rw [hget]
  obtain ⟨b, hb, hholds⟩ := clause_eq_ok m hd false
  refine .look hb ((keeps_testClause htest).last fun t ht => .pure ?_)
  exact Holds.of_eq (.list (.cons (.group (.list (.plain (.bare (by decide)) (.one hholds))) false)
    (.plain (holds_gap _) (.plain (.bare (by decide)) (.front ht
      (.one (.bare (by decide)))))))) (by simp)

theorem keeps_forStatement {m : Node} (hget : n.get "body" = .node m)
    (hbody : Keeps (child c "body") as) (hinit : Gives child c n "init" bs)
    (htest : Gives child c n "test" cs) (hupdate : Gives child c n "update" ds) :
    Keeps (forStatement child c n) (as + (bs + (cs + ds))) := by
  refine hbody.bind fun d hd => ?_
  rw [hget]
  obtain ⟨b, hb, hholds⟩ := clause_eq_ok m hd false
  refine .look hb ?_
  split
  · next hnone =>
    -- a header without parts has no comments in it
    rw [Bool.and_eq_true, Bool.and_eq_true] at hnone
    rw [hinit.empty hnone.1.1, htest.empty hnone.1.2, hupdate.empty hnone.2]
    exact .pure (Holds.of_eq (.list (.plain (.bare (by decide)) (.one hholds))) (by simp))
  · refine hinit.keeps.bind fun i hi => htest.keeps.bind fun t ht => hupdate.keeps.last fun u hu =>
      .pure (Holds.of_eq (.list (.plain (.bare (by decide)) (.cons (.group (.list (.front (.indent
        (.list (.plain (.line .soft) (.cons hi (.plain (.bare (by decide)) (.plain (.line .space)
          (.cons ht (.plain (.bare (by decide)) (.plain (.line .space) (.one hu)))))))))
        ) (.one (.line .soft)))) false) (.plain (.bare (by decide)) (.one hholds))))) ?_)
    simp [add_comm]

theorem keeps_tryStatement (hblock : Keeps (child c "block") as)
    (hhandler : Gives child c n "handler" bs) (hfinalizer : Gives child c n "finalizer" cs) :
    Keeps (tryStatement child c n) (as + (bs + cs)) := by
  refine hblock.bind fun d hd => ?_
  have hlast {hs : List Doc} (hhs : HoldsAll hs (forms bs)) : Lays (do
      let finalizer ← if (n.get "finalizer").isNull then pure []
        else do
          let d ← child c "finalizer"
          pure [Doc.bare " finally ", d]
      pure (.list ([.bare "try ", d] ++ hs ++ finalizer)) : Layout Doc) cs
      fun d => d.Holds (forms (as + (bs + cs))) := by
    have hfront : HoldsAll ([.bare "try ", d] ++ hs) (forms as + forms bs) :=
      .append (.plain (.bare (by decide)) (.one hd)) hhs
    rcases hfinalizer.holds with ⟨hnull, rfl⟩ | ⟨m, hm⟩
    · rw [hnull]
      exact .given (.pure (Holds.of_eq (.list (.append hfront .nil)) (by simp)))
    · rw [hm]
      exact hfinalizer.keeps.last fun f hf => .given (.pure (Holds.of_eq (.list (.append hfront
        (.plain (.bare (by decide)) (.one hf)))) (by simp [add_assoc])))
  rcases hhandler.holds with ⟨hnull, rfl⟩ | ⟨m, hm⟩
  · rw [hnull, zero_add]
    rw [zero_add] at hlast
    exact .given (hlast .nil)
  · rw [hm]
    exact hhandler.keeps.bind fun h hh => .given (hlast (.plain (.bare (by decide)) (.one hh)))

theorem keeps_catchClause (hparam : Gives child c n "param" as)
    (hbody : Keeps (child c "body") bs) :
    Keeps (catchClause child c n) (as + bs) := by
  unfold catchClause
  rcases hparam.holds with ⟨hnull, rfl⟩ | ⟨m, hm⟩
  · rw [hnull, zero_add]
    exact hbody.last fun d hd => .pure (.list (.plain (.bare (by decide)) (.one hd)))
  · rw [hm]
    exact hparam.keeps.bind fun p hp => hbody.last fun d hd => .pure (Holds.of_eq (.list (.plain
      (.bare (by decide)) (.cons hp (.plain (.bare (by decide)) (.one hd))))) (by simp))

theorem keeps_returnStatement (h : Gives child c n "argument" as) :
    Keeps (returnStatement child c n) as := by
  unfold returnStatement
  rcases h.holds with ⟨hnull, rfl⟩ | ⟨m, hm⟩
  · rw [hnull]
    exact .pure (.bare (by decide))
  · rw [hm]
    exact h.keeps.last fun d hd => .pure (.list (.plain (.bare (by decide)) (.front hd
      (.one (.bare (by decide))))))

theorem tells_switchStatement (hdiscriminant : Keeps (child c "discriminant") as)
    (hcases : Lists cx child c n "cases" bs ns) :
    Tells cx c (switchStatement cx child c n) (as + bs) := by
  unfold switchStatement
  rw [hcases.truthy]
  cases ns with
  | nil =>
    refine ⟨fun a => a.role = .dangling, ?_⟩
    rw [hcases.empty rfl, add_zero, add_comm]
    refine hdiscriminant.bind fun d hd => (lays_dangling (own cx c)).last fun o ho => ?_
    have hhead := holds_enclosed (show Text.opensComment "switch (" = false by decide)
      (show Text.opensComment ")" = false by decide) hd
    rw [forms_add]
    cases o with
    | none =>
      rw [show forms _ = 0 from ho, add_zero]
      exact .given (.pure (.list (.front hhead (.plain (.bare (by decide))
        (.plain (.line .hard) (.one (.bare (by decide))))))))
    | some inside =>
      exact .given (.pure (.list (.cons hhead (.plain (.bare (by decide)) (.front
        (.indent (.list (.plain (.line .hard) (.one ho))))
        (.plain (.line .hard) (.one (.bare (by decide)))))))))
  | cons m ns =>
    refine Keeps.tells (hdiscriminant.bind fun d hd => hcases.lines.last fun ds hds => .given
      (.pure ?_))
    rw [forms_add]
    exact .list (.cons (holds_enclosed (by decide) (by decide) hd) (.plain (.bare (by decide))
      (.front (.indent (.list (.plain (.line .hard) (.one (.list hds)))))
        (.plain (.line .hard) (.one (.bare (by decide)))))))

/-- What stands behind the label of a case. -/
theorem lays_caseBody (h : Lists cx child c n "consequent" bs ns) {label : List Doc}
    {fs : Doc.Content} (hlabel : HoldsAll label fs) : Lays (do
      let count ← (n.get "consequent").count
      let soleBlock ← if count = 1 then do
          let first ← (n.get "consequent").child (.index 0)
          pure ((← kindOf first) == "BlockStatement")
        else pure false
      if soleBlock then
        let e ← (c.field "consequent").down (.index 0)
        let d ← child e none
        pure (.list (label ++ [.bare " ", d]))
      else if (n.get "consequent").truthy then
        let parts ← statements cx child c n "consequent"
        pure (.list (label ++ [.indent (.list [.hardline, .list parts])]))
      else pure (.list label) : Layout Doc) bs fun d => d.Holds (fs + forms bs) := by
  have hlines : Lays (do
      let parts ← statements cx child c n "consequent"
      pure (.list (label ++ [.indent (.list [.hardline, .list parts])])) : Layout Doc) bs
      fun d => d.Holds (fs + forms bs) :=
    h.lines.last fun ds hds => .pure (.list (.append hlabel
      (.one (.indent (.list (.plain (.line .hard) (.one (.list hds))))))))
  refine .look h.count ?_
  rw [h.truthy]
  match ns, h with
  | [], h =>
    rw [h.empty rfl]
    exact .given (.pure (Holds.of_eq (.list hlabel) (by simp)))
  | [m], h =>
    obtain ⟨e, he, hkeeps⟩ := h.sole m rfl
    rw [h.get]
    refine .look (a := .node m) rfl (.look (a := m.kind) rfl (.given ?_))
    cases m.kind == "BlockStatement" with
    | true =>
      change Lays (liftM _ >>= fun e => child e none >>= _) _ _
      exact .look he (hkeeps.last fun d hd => .pure (.list (.append hlabel
        (.plain (.bare (by decide)) (.one hd)))))
    | false => exact hlines
  | _ :: _ :: _, h => exact .given hlines

theorem keeps_switchCase (htest : Gives child c n "test" as)
    (hbody : Lists cx child c n "consequent" bs ns) :
    Keeps (switchCase cx child c n) (as + bs) := by
  simp only [Keeps, forms_add]
  unfold switchCase
  rcases htest.holds with ⟨hnull, rfl⟩ | ⟨m, hm⟩
  · rw [hnull, zero_add]
    exact .given (lays_caseBody hbody (.one (.bare (by decide))))
  · rw [hm]
    exact htest.keeps.bind fun d hd => .given (lays_caseBody hbody
      (.plain (.bare (by decide)) (.front hd (.one (.bare (by decide))))))

/-! ## Expressions -/

theorem tells_callArguments (h : Lists cx child c n "arguments" as ns) :
    Tells cx c (callArguments cx child c n) as := by
  unfold callArguments
  rw [h.truthy]
  cases ns with
  | nil =>
    rw [h.empty rfl]
    change Tells cx c (if hasDangling (own cx c) = true then _ else _) 0
    split
    · refine tells_dangling fun o fs ho => ?_
      have hinside : (o.getD (.bare "")).Holds fs := by
        cases o with
        | none => exact (Holds.bare (by decide)).of_eq ho.symm
        | some d => exact ho
      split
      · exact .pure (.list (.plain (.bare (by decide)) (.front hinside
          (.one (.bare (by decide))))))
      · exact .pure (.list (.plain (.bare (by decide)) (.front
          (.indent (.list (.plain (.line .hard) (.one hinside))))
          (.plain (.line .hard) (.one (.bare (by decide)))))))
    · exact Keeps.tells (.pure (.bare (by decide)))
  | cons m ns =>
    refine Keeps.tells (.look h.elements (h.each.last fun ds hds => ?_))
    have hinside : (enclosed "(" (Doc.join commaLine ds) ")").Holds (forms as) :=
      holds_enclosed (by decide) (by decide) (.join holds_commaLine hds.1)
    split
    · split
      · exact .pure (.list (.plain (.bare (by decide)) (HoldsAll.of_eq
          (.append hds.1 (.one (.bare (by decide)))) (add_zero _))))
      · exact .pure hinside
    · exact .pure hinside

theorem keeps_unaryExpression {op : String} (hget : n.get "operator" = .str op)
    (hop : Text.opensComment op = false) (h : Keeps (child c "argument") as) :
    Keeps (unaryExpression child c n) as := by
  unfold unaryExpression
  rw [hget]
  refine h.last fun d hd => .pure (.list (.plain (.bare hop) (.plain (.bare ?_) (.one hd))))
  split
  · decide
  · decide

theorem keeps_updateExpression {op : String} (hget : n.get "operator" = .str op)
    (hop : Text.opensComment op = false) (h : Keeps (child c "argument") as) :
    Keeps (updateExpression child c n) as := by
  unfold updateExpression
  rw [hget]
  exact h.last fun d hd => .pure (.list (.ite (.plain (holds_ofText hop) (.one hd))
    (.front hd (.one (holds_ofText hop)))))

theorem opensComment_space (s : String) : Text.opensComment (" " ++ s) = false := by
  simp [Text.opensComment]

theorem keeps_assignmentExpression {op : String} (hget : n.get "operator" = .str op)
    (hleft : Keeps (child c "left") as)
    (hright : Keeps (child c "right") bs) :
    Keeps (assignmentExpression child c n) (as + bs) := by
  simp only [Keeps, forms_add]
  refine hleft.bind fun l hl => ?_
  rw [hget]
  exact hright.last fun r hr => .pure (holds_assignment (opensComment_space op) _ hl hr)

theorem keeps_conditionalExpression (htest : Keeps (child c "test") as)
    (hconsequent : Keeps (child c "consequent") bs) (halternate : Keeps (child c "alternate") cs) :
    Keeps (conditionalExpression child c) (as + (bs + cs)) := by
  simp only [Keeps, forms_add]
  exact htest.bind fun t ht => hconsequent.bind fun d hd => halternate.last fun e he =>
    .pure (.group (.list (.cons ht (.one (.indent (.list (.plain (.line .space)
      (.plain (.bare (by decide)) (.cons hd (.plain (.line .space) (.plain (.bare (by decide))
        (.one he))))))))))) false)

theorem keeps_memberExpression (hobject : Keeps (child c "object") as)
    (hproperty : Keeps (child c "property") bs) :
    Keeps (memberExpression child c n) (as + bs) := by
  simp only [Keeps, forms_add]
  exact hobject.bind fun o ho => hproperty.last fun p hp => .pure (.list (.ite
    (.cons ho (.plain (.bare (by decide)) (.front hp (.one (.bare (by decide))))))
    (.cons ho (.plain (.bare (by decide)) (.one hp)))))

theorem keeps_binaryExpression (h : KeepsAll (chain cx child n.depth false c n) as) :
    Keeps (binaryExpression cx child c n) as := by
  refine h.last fun parts hparts => ?_
  have hplain : (Doc.group (.list parts) false).Holds (forms as) := .group (.list hparts) false
  split
  · exact .pure hplain
  · split
    · exact .pure (.list hparts)
    · split
      · exact .pure (.group (.list (.front (.indent (.list (.plain (.line .soft)
          (.one (.list hparts))))) (.one (.line .soft)))) false)
      · dsimp only
        split
        · exact .pure hplain
        · obtain ⟨fs, gs, hhead, htail, hsum⟩ := hparts.headD
            (Holds.bare (show Text.opensComment "" = false by decide))
          exact .pure (Holds.of_eq (.group (.list (.cons hhead
            (.one (.indent (.list htail))))) false) hsum)

/-- Numbers fill their lines with all their comments. -/
theorem filled_eq_ok {vs : List Value} (hblank : ∀ v ∈ vs, ∃ b, blankLineAfter cx v = .ok b)
    {ds : List Doc} {fs : Doc.Content} (hlength : ds.length = vs.length) (hds : HoldsAll ds fs) :
    ∃ es, filled cx (vs.zip ds) = .ok es ∧ HoldsAll es fs := by
  induction vs generalizing ds fs with
  | nil =>
    rw [List.length_eq_zero_iff.1 hlength] at hds ⊢
    exact ⟨[], rfl, hds⟩
  | cons v vs ih =>
    rw [List.forall_mem_cons] at hblank
    obtain ⟨d, ds, rfl⟩ := List.exists_cons_of_length_eq_add_one hlength
    obtain ⟨fs₁, fs₂, hd, hrest, rfl⟩ := hds.head
    simp only [List.length_cons, Nat.add_right_cancel_iff] at hlength
    cases vs with
    | nil =>
      rw [List.length_eq_zero_iff.1 hlength] at hrest ⊢
      exact ⟨[d], rfl, .cons hd hrest⟩
    | cons w vs =>
      obtain ⟨b, hb⟩ := hblank.1
      obtain ⟨es, hes, hholds⟩ := ih hblank.2 hlength hrest
      obtain ⟨e, ds, rfl⟩ := List.exists_cons_of_length_eq_add_one hlength
      rw [List.zip_cons_cons] at hes ⊢
      rw [List.zip_cons_cons, filled_cons_cons, hb]
      rw [hes]
      refine ⟨_, rfl, .cons (.list (.front hd (.one (.bare (by decide))))) (.plain ?_ hholds)⟩
      exact .ite (.list (.plain (.line .hard) (.one (.line .hard)))) (.line .space)

theorem allLarge_nodes (kind name : String) (ns : List Node)
    (h : ∀ m ∈ ns, m.kind = kind → ∃ ms : List Node, m.get name = .list (ms.map .node)) :
    ∃ b, allLarge kind name (ns.map .node) = .ok b := by
  induction ns with
  | nil => exact ⟨_, rfl⟩
  | cons m ns ih =>
    rw [List.forall_mem_cons] at h
    rw [List.map_cons, allLarge]
    split
    · next hkind =>
      obtain ⟨ms, hms⟩ := h.1 hkind
      rw [hms, count_nodes]
      change ∃ b, (if 1 < ms.length then _ else _ : Except Fault Bool) = .ok b
      split
      · exact ih h.2
      · exact ⟨_, rfl⟩
    · exact ⟨_, rfl⟩

/-- Arrays and dictionaries have entries, so that tables can be told from other arrays. -/
theorem isTable_nodes (ns : List Node)
    (hentries : ∀ m ∈ ns, m.kind = "ObjectExpression" →
      ∃ ms : List Node, m.get "properties" = .list (ms.map .node))
    (helements : ∀ m ∈ ns, m.kind = "ArrayExpression" →
      ∃ ms : List Node, m.get "elements" = .list (ms.map .node)) :
    ∃ b, isTable (ns.map .node) = .ok b := by
  unfold isTable
  split
  · exact ⟨_, rfl⟩
  · cases ns with
    | nil => exact ⟨_, rfl⟩
    | cons m ns =>
      rw [List.map_cons]
      dsimp only
      split
      · next hkind =>
        rw [hkind]
        exact allLarge_nodes _ _ (m :: ns) hentries
      · next hkind =>
        rw [hkind]
        exact allLarge_nodes _ _ (m :: ns) helements
      · exact ⟨_, rfl⟩

theorem tells_arrayExpression (h : Lists cx child c n "elements" as ns)
    (htable : ∃ b, isTable (ns.map .node) = .ok b) :
    Tells cx c (arrayExpression cx child c n) as := by
  obtain ⟨table, htable⟩ := htable
  unfold arrayExpression
  rw [h.truthy]
  cases ns with
  | nil =>
    rw [h.empty rfl]
    refine tells_dangling fun o fs ho => ?_
    cases o with
    | none => exact .pure ((Holds.bare (by decide)).of_eq ho.symm)
    | some d =>
      exact .pure (.group (.list (.plain (.bare (by decide)) (.front
        (.indent (.list (.plain (.line .soft) (.one ho))))
        (.plain (.line .soft) (.one (.bare (by decide))))))) true)
  | cons m ns =>
    refine Keeps.tells (.look h.elements (h.each.last fun ds hds => ?_))
    have hbody {body : Doc} (hbody : body.Holds (forms as)) : Lays (do
        let table ← isTable ((m :: ns).map .node)
        pure (.group (.list [.bare "[", .indent (.list [.softline, body]), .softline, .bare "]"])
          table) : Layout Doc) 0 fun d => d.Holds (forms as) :=
      .look htable (.pure (.group (.list (.plain (.bare (by decide)) (.front
        (.indent (.list (.plain (.line .soft) (.one hbody))))
        (.plain (.line .soft) (.one (.bare (by decide))))))) table))
    split
    · have hblank : ∀ v ∈ (m :: ns).map Value.node, ∃ b, blankLineAfter cx v = .ok b := by
        intro v hv
        obtain ⟨e, he, rfl⟩ := List.mem_map.1 hv
        exact h.blank e he
      obtain ⟨es, hes, hholds⟩ := filled_eq_ok hblank (by rw [hds.2, List.length_map]) hds.1
      exact .look hes (.given (hbody (.fill hholds)))
    · exact .given (hbody (.join holds_commaLine hds.1))

theorem isExpanded_eq_ok (cx : Context) {m : Node}
    (hget : n.get "properties" = .list ((m :: ns).map .node)) :
    ∃ b, isExpanded cx n = .ok b := by
  unfold isExpanded
  rw [hget]
  split
  · exact ⟨_, rfl⟩
  · exact ⟨_, rfl⟩

theorem tells_objectExpression (h : Lists cx child c n "properties" as ns) :
    Tells cx c (objectExpression cx child c n) as := by
  unfold objectExpression
  rw [h.truthy]
  cases ns with
  | nil =>
    rw [h.empty rfl]
    exact tells_emptyBraces
  | cons m ns =>
    obtain ⟨expanded, hexpanded⟩ := isExpanded_eq_ok cx h.get
    exact Keeps.tells (.look hexpanded (h.each.last fun ds hds => .pure (.group (.list
      (.plain (.bare (by decide)) (.front (.indent (.list (.plain (.line .space)
        (.one (.join holds_commaLine hds.1))))) (.plain (.line .space)
          (.one (.bare (by decide))))))) expanded)))

theorem keeps_generic {above : List (Step × Value)} {rule : String} (hrule : snake n.kind = rule)
    (h : Keeps (genericRule cx child ⟨.node n, above⟩ n rule) as) :
    Keeps (generic cx child ⟨.node n, above⟩) as := by
  subst hrule
  refine h.last fun d hd => .pure (.ite ?_ hd)
  exact .list (.plain (.bare (by decide)) (.front hd (.one (.bare (by decide)))))

theorem tells_generic {above : List (Step × Value)} {rule : String} (hrule : snake n.kind = rule)
    (h : Tells cx ⟨.node n, above⟩ (genericRule cx child ⟨.node n, above⟩ n rule) as) :
    Tells cx ⟨.node n, above⟩ (generic cx child ⟨.node n, above⟩) as := by
  subst hrule
  refine h.map fun d fs hd => .pure (.ite ?_ hd)
  exact .list (.plain (.bare (by decide)) (.front hd (.one (.bare (by decide)))))

/-! ## The language's own rules -/

theorem lays_withAttrs (hattrs : Gives child c n "attrs" as) {body : Doc} {fs : Doc.Content}
    (hbody : body.Holds fs) :
    Lays (withAttrs child c n body) as fun d => d.Holds (forms as + fs) := by
  unfold withAttrs
  rcases hattrs.holds with ⟨hnull, rfl⟩ | ⟨m, hm⟩
  · rw [hnull]
    exact .pure (hbody.of_eq (zero_add fs).symm)
  · rw [hm]
    exact hattrs.keeps.last fun d hd => .pure (.list (.cons hd (.one hbody)))

theorem keeps_attributed {above : List (Step × Value)} {rule : String} (hrule : snake n.kind = rule)
    (hattrs : Gives child ⟨.node n, above⟩ n "attrs" as)
    (h : Keeps (genericRule cx child ⟨.node n, above⟩ n rule) bs) :
    Keeps (attributed cx child ⟨.node n, above⟩ n) (as + bs) := by
  rw [add_comm]
  simp only [Keeps, forms_add, add_comm (forms bs)]
  exact (keeps_generic hrule h).bind fun d hd => lays_withAttrs hattrs hd

theorem keeps_moduleDeclaration (hattrs : Gives child c n "attrs" as)
    (hname : Keeps (child c "id") bs) (hbody : Keeps (child c "body") cs) :
    Keeps (moduleDeclaration child c n) (bs + (cs + as)) := by
  refine hname.bind fun d hd => hbody.bind fun e he => (lays_withAttrs hattrs (.group (.list (.cons
    (.group (.list (.plain (.bare (by decide)) (.plain (.line .space) (.front hd.indent
      (.one (.line .space)))))) false) (.one he))) false)).weaken fun b hb => hb.of_eq ?_
  simp [add_comm, add_left_comm]

theorem keeps_typedefDeclaration (hattrs : Gives child c n "attrs" as)
    (hname : Keeps (child c "id") bs) (htype : Keeps (child c "ts") cs) :
    Keeps (typedefDeclaration child c n) (bs + (cs + as)) := by
  refine hname.bind fun d hd => htype.bind fun e he => (lays_withAttrs hattrs (.list (.cons
    (.group (.list (.plain (.bare (by decide)) (.plain (.indent (.line .space)) (.one hd)))) false)
    (.front he (.one (.bare (by decide))))))).weaken fun b hb => hb.of_eq ?_
  simp [add_comm, add_left_comm]

theorem keeps_property (hkey : Keeps (child c "key") as) (hvalue : Keeps (child c "value") bs) :
    Keeps (property child c) (as + bs) := by
  simp only [Keeps, forms_add]
  exact hkey.bind fun k hk => hvalue.last fun v hv => .pure (.group (.list (.cons (.group (.list
    (.front hk (.plain (.line .space) (.plain (.bare (by decide)) (.one (.line .space)))))) false)
    (.one hv))) false)

theorem keeps_importModule (hname : Keeps (child c "id") as) : Keeps (importModule child c) as :=
  hname.last fun _ hd => .pure (.group (.list (.plain (.bare (by decide)) (.plain (.line .space)
    (.front hd (.one (.bare (by decide))))))) false)

theorem keeps_usingImport (hname : Keeps (child c "id") as) (hshort : Gives child c n "as" bs) :
    Keeps (usingImport child c n) (as + bs) := by
  simp only [Keeps, forms_add]
  refine hname.bind fun d hd => ?_
  rcases hshort.holds with ⟨hnull, rfl⟩ | ⟨m, hm⟩
  · rw [hnull, forms_zero, add_zero]
    exact .given (.pure (.group (.list (.plain (.bare (by decide)) (.plain (.line .space)
      (.front hd (.one (.bare (by decide))))))) false))
  · rw [hm]
    exact hshort.keeps.last fun e he => .given (.pure (.group (.list (.plain (.bare (by decide))
      (.plain (.line .space) (.cons hd (.plain (.line .space) (.plain (.bare (by decide))
        (.plain (.line .space) (.front he (.one (.bare (by decide))))))))))) false))

theorem holds_identifier {s : String} (hname : n.get "name" = .str s)
    (hs : Text.opensComment s = false) (hearlier : n.get "original" = .null) :
    (identifier n).Holds 0 := by
  unfold identifier
  rw [hname, hearlier]
  exact .bare hs

/-- A type that is only completed by the absent value: the word for it holds no comment. -/
theorem keeps_typeSpecList (h : Lists cx child c n "ts" as ns) :
    Keeps (typeSpecList child c) as := by
  refine h.each.last fun ds hds => ?_
  have hor {es : List Doc} (hes : HoldsAll es (forms as)) :
      (Doc.group (Doc.join (.list [.bare " or", .indent .space]) es) false).Holds (forms as) :=
    .group (.join (.list (.plain (.bare (by decide)) (.one (.indent (.line .space))))) hes) false
  split
  · next d e =>
    split
    · next habsent =>
      obtain ⟨fs, gs, hd, hrest, hsum⟩ := hds.1.head
      have he : e = .bare "Null" := by
        unfold Doc.isBare at habsent
        split at habsent
        · rw [of_decide_eq_true habsent]
        · cases habsent
      rw [he] at hrest
      have hnone : HoldsAll [] gs := hrest.tail rfl
      exact .pure ((hnone.drop (.list (.front hd (.one (.bare (by decide)))))).of_eq
        ((add_comm gs fs).trans hsum))
    · exact .pure (hor hds.1)
  · exact .pure (hor hds.1)

theorem keeps_parenthesizedExpression {above : List (Step × Value)}
    (hkind : n.kind = "ParenthesizedExpression")
    (h : Keeps (child ⟨.node n, above⟩ "expression") as) :
    Keeps (parenthesizedExpression cx child ⟨.node n, above⟩ n) as := by
  unfold parenthesizedExpression
  split
  · exact h
  · dsimp only
    split
    · exact h
    · have hrule : snake n.kind = "parenthesized_expression" :=
        snake_of_mem (by rw [hkind]; decide)
      exact keeps_generic hrule (h.last fun d hd => .pure
        (.list (.plain (.bare (by decide)) (.front hd (.one (.bare (by decide)))))))

theorem pickAt_last {ns : List Node} (hne : ns ≠ []) :
    ∃ m ∈ ns, pickAt (ns.map Value.node) (-1) = .ok (.node m) := by
  obtain ⟨ms, m, rfl⟩ := (List.eq_nil_or_concat' ns).resolve_left hne
  refine ⟨m, List.mem_append_right _ (List.mem_singleton_self m), ?_⟩
  rw [List.map_append]
  exact pickAt_concat _ _

theorem bind_ok {α β : Type} {m : Except Fault α} {f : α → Except Fault β} {a : α}
    (hm : m = .ok a) (hf : ∃ b, f a = .ok b) : ∃ b, (m >>= f) = .ok b := by
  subst hm
  exact hf

/-- The arguments of a generic type are lists of types. -/
theorem endsInGenerics_nodes {ns : List Node} (hne : ns ≠ [])
    (h : ∀ m ∈ ns, ∃ ps : List Node, m.get "ts" = .list (ps.map .node)) :
    ∃ b, endsInGenerics (.list (ns.map .node)) = .ok b := by
  obtain ⟨m, hm, hlast⟩ := pickAt_last hne
  obtain ⟨ps, hps⟩ := h m hm
  have hchild : (Value.list (ns.map .node)).child (.index (-1)) = .ok (.node m) := hlast
  have hfield : fieldOf (.node m) "ts" = .ok (.list (ps.map .node)) := by
    rw [← hps]
    rfl
  refine bind_ok hchild (bind_ok hfield ?_)
  rw [truthy_nodes]
  cases ps with
  | nil => exact ⟨_, rfl⟩
  | cons p ps =>
    obtain ⟨q, _, hq⟩ := pickAt_last (List.cons_ne_nil p ps)
    exact bind_ok (a := .node q) hq ⟨_, rfl⟩

/-- The parts of a type stand side by side; a sole part stands for itself. -/
theorem holds_parts {ds : List Doc} {fs : Doc.Content} : HoldsAll ds fs →
    Holds (match ds with
      | [d] => d
      | ds => .list ds) fs := by
  intro h
  split
  · obtain ⟨fs₁, fs₂, hd, hrest, hsum⟩ := h.head
    exact (hrest.drop hd).of_eq ((add_comm fs₂ fs₁).trans hsum)
  · exact .list h

theorem keeps_typeSpecPart {m : Node} (hget : n.get "name" = .node m)
    (hname : Keeps (child c "name") as)
    (hgenerics : n.get "generics" = .null ∧ bs = 0 ∨ ∃ ns, Lists cx child c n "generics" bs ns ∧
      ∀ m ∈ ns, ∃ ps : List Node, m.get "ts" = .list (ps.map .node))
    (hcallspec : Gives child c n "callspec" cs) :
    Keeps (typeSpecPart child c n) (as + (bs + cs)) := by
  unfold typeSpecPart
  rw [hget]
  refine hname.bind fun d hd => ?_
  have hrest {gs : List Doc} (hgs : HoldsAll gs (forms bs)) : Lays (do
      let body ← if (n.get "callspec").isNull then pure (d :: gs)
        else do
          let e ← child c "callspec"
          pure ([.bare "(", d] ++ gs ++ [.indent (.list [.softline, e]), .softline, .bare ")"])
      let body := if (n.get "nullable").truthy then body ++ [.bare "?"] else body
      pure (match body with
        | [d] => d
        | ds => .list ds) : Layout Doc) cs fun d => d.Holds (forms (as + (bs + cs))) := by
    have hmark {ds : List Doc} {fs : Doc.Content} (hds : HoldsAll ds fs) :
        HoldsAll (if (n.get "nullable").truthy then ds ++ [.bare "?"] else ds) fs :=
      .ite (HoldsAll.of_eq (.append hds (.one (.bare (by decide)))) (add_zero fs)) hds
    rcases hcallspec.holds with ⟨hnull, rfl⟩ | ⟨m, hm⟩
    · rw [hnull]
      exact .given (.pure (Holds.of_eq (holds_parts (hmark (.cons hd hgs))) (by simp)))
    · rw [hm]
      have hspec {e : Doc} (he : e.Holds (forms cs)) :
          HoldsAll [.indent (.list [.softline, e]), .softline, .bare ")"] (forms cs) :=
        .front (.indent (.list (.plain (.line .soft) (.one he))))
          (.plain (.line .soft) (.one (.bare (by decide))))
      refine hcallspec.keeps.last fun e he => .given (.pure (Holds.of_eq (holds_parts (hmark
        (.append (.append (.plain (.bare (by decide)) (.one hd)) hgs) (hspec he)))) ?_))
      simp [add_assoc]
  rcases hgenerics with ⟨hnull, rfl⟩ | ⟨ns, hlists, htypes⟩
  · rw [hnull, zero_add]
    rw [zero_add] at hrest
    exact .given (hrest .nil)
  · rw [hlists.truthy, hlists.get]
    cases ns with
    | nil =>
      have hbs : bs = 0 := hlists.empty rfl
      subst hbs
      rw [zero_add]
      rw [zero_add] at hrest
      exact .given (hrest .nil)
    | cons g gs =>
      obtain ⟨apart, hends⟩ := endsInGenerics_nodes (List.cons_ne_nil g gs) htypes
      refine .look hends (hlists.each.bind fun ds hds => .given (hrest (.one (.group (.list
        (.plain (.bare (by decide)) (.front (.indent (.list (.plain (.line .soft)
          (.one (.join holds_commaLine hds.1))))) (.plain ?_ (.one (.bare (by decide)))))))
          false))))
      exact .ite (.line .space) (.line .soft)

theorem keeps_sizedArray (hbyte : (fieldOr n "byte" "").Holds 0) (htype : Gives child c n "ts" as)
    (hsize : Keeps (child c "size") bs) : Keeps (sizedArray child c n) (as + bs) := by
  have hrest {type : Doc} (htype : type.Holds (forms as)) : Lays (do
      let size ← child c "size"
      pure (.group (.list [.bare "new ", type, .bare "[", .indent size, .bare "]",
        fieldOr n "byte" ""]) false) : Layout Doc) bs fun d => d.Holds (forms (as + bs)) :=
    hsize.last fun d hd => .pure (Holds.of_eq (.group (.list (.plain (.bare (by decide))
      (.cons htype (.plain (.bare (by decide)) (.front hd.indent (.plain (.bare (by decide))
        (.one hbyte))))))) false) (by simp))
  unfold sizedArray
  rcases htype.holds with ⟨hnull, rfl⟩ | ⟨m, hm⟩
  · rw [hnull, zero_add]
    rw [zero_add] at hrest
    exact .given (hrest (.bare (by decide)))
  · rw [hm]
    have hgap (b : Bool) : Text.opensComment (if b = true then "" else " ") = false := by
      cases b <;> decide
    exact htype.keeps.bind fun d hd => .given (hrest (.list (.front hd (.one (.bare (hgap _))))))

theorem keeps_enumDeclaration (hname : Gives child c n "id" as)
    (hattrs : Gives child c n "attrs" bs) (hbody : Keeps (child c "body") cs) :
    Keeps (enumDeclaration child c n) (as + (bs + cs)) := by
  have hrest {name : List Doc} (hname : HoldsAll name (forms as)) : Lays (do
      let head ← withAttrs child c n (Doc.join (.bare " ") (.bare "enum" :: name))
      let body ← child c "body"
      pure (.list [head, .bare " ", body]) : Layout Doc) (bs + cs)
      fun d => d.Holds (forms (as + (bs + cs))) := by
    have hhead : (Doc.join (.bare " ") (.bare "enum" :: name)).Holds (forms as) :=
      .join (.bare (by decide)) (.plain (.bare (by decide)) hname)
    refine (lays_withAttrs hattrs hhead).bind fun h hh => hbody.last fun d hd => .pure
      (Holds.of_eq (.list (.cons hh (.plain (.bare (by decide)) (.one hd)))) ?_)
    simp [add_comm (forms bs), add_assoc]
  unfold enumDeclaration
  rcases hname.holds with ⟨hnull, rfl⟩ | ⟨m, hm⟩
  · rw [hnull, zero_add]
    rw [zero_add] at hrest
    exact .given (hrest .nil)
  · rw [hm]
    exact hname.keeps.bind fun d hd => .given (hrest (.one hd))

theorem keeps_attributes (h : Lists cx child c n "elements" as ns) :
    Keeps (attributes child c) as :=
  h.each.last fun _ hds => .pure (holds_enclosed (by decide) (by decide)
    (.group (.join holds_commaLine hds.1) false))

theorem keeps_attributeList {access : String} (haccess : accessText (n.get "access") = .ok access)
    (hnone : Text.opensComment access = false) (h : Gives child c n "attributes" as) :
    Keeps (attributeList child c n) as := by
  refine .look haccess ?_
  rcases h.holds with ⟨hnull, rfl⟩ | ⟨m, hm⟩
  · rw [hnull]
    exact .pure (.bare hnone)
  · rw [hm]
    exact h.keeps.last fun d hd => .pure (.list (.front hd (.plain (.line .hard)
      (.one (.bare hnone)))))

/-! ## Words and literals -/

theorem mapM_words (ws : List String) : (ws.map Value.str).mapM (fun
    | .str s => pure s
    | _ => throw .wrongType : Value → Except Fault String) = .ok ws := by
  induction ws with
  | nil => rfl
  | cons w ws ih =>
    rw [List.map_cons, List.mapM_cons, ih]
    rfl

theorem not_mem_intercalate {ws : List String} (h : ∀ w ∈ ws, '/' ∉ w.toList) :
    '/' ∉ (" ".intercalate ws).toList := by
  induction ws with
  | nil => decide
  | cons w ws ih =>
    rw [List.forall_mem_cons] at h
    cases ws with
    | nil =>
      rw [String.intercalate_singleton]
      exact h.1
    | cons v ws =>
      rw [String.intercalate_cons_cons, String.toList_append, String.toList_append,
        List.mem_append, List.mem_append, not_or, not_or]
      exact ⟨⟨h.1, by decide⟩, ih h.2⟩

/-- Access words are shown, and are no comments. -/
theorem accessText_eq_ok {v : Value} {P : Node → Prop} (h : Value.Fits P .words v) :
    ∃ s, accessText v = .ok s ∧ Text.opensComment s = false := by
  cases h with
  | @words ws hws =>
    unfold accessText
    split
    · refine ⟨_, congrArg (fun r => r >>= _) (mapM_words ws), Text.opensComment_of_not_mem ?_⟩
      rw [String.toList_append, List.mem_append, not_or]
      refine ⟨not_mem_intercalate fun w hw => hws w ?_, by decide⟩
      rw [List.mem_mergeSort] at hw
      exact List.mem_eraseDups.1 hw
    · exact ⟨"", rfl, by decide⟩
  | noWords => exact ⟨"", rfl, by decide⟩

theorem literal_number {s : String} (hraw : n.get "raw" = .str s) (hne : s ≠ "")
    (hnumber : (n.get "value").isNumber = true) :
    literal n = pure (.bare (Literal.generic s)) := by
  have htruthy : (Value.str s).truthy = true := by simpa [Value.truthy] using hne
  unfold literal
  dsimp only
  rw [hraw, if_pos hnumber, if_pos htruthy]

theorem keeps_literal {s : String} (hraw : n.get "raw" = .str s)
    (hs : Text.opensComment s = false) (hne : s ≠ "")
    (number : (n.get "value").isNumber = true → '/' ∉ s.toList) : Keeps (literal n) 0 := by
  by_cases hnumber : (n.get "value").isNumber = true
  · rw [literal_number hraw hne hnumber]
    exact .pure (.bare (Text.opensComment_of_not_mem (Literal.not_mem_generic (number hnumber))))
  · have htruthy : (Value.str s).truthy = true := by simpa [Value.truthy] using hne
    unfold literal
    dsimp only
    rw [hraw, if_neg hnumber, if_pos htruthy]
    exact .pure (holds_ofText hs)

theorem keeps_monkeyLiteral {above : List (Step × Value)} {s : String} (hkind : n.kind = "Literal")
    (hraw : n.get "raw" = .str s) (hs : Text.opensComment s = false) (hne : s ≠ "")
    (number : (n.get "value").isNumber = true → '/' ∉ s.toList) :
    Keeps (monkeyLiteral cx child ⟨.node n, above⟩ n) 0 := by
  have hrule : snake n.kind = "literal" := snake_of_mem (by rw [hkind]; decide)
  have hgeneric : Keeps (generic cx child ⟨.node n, above⟩) 0 :=
    keeps_generic hrule (keeps_literal hraw hs hne number)
  have htruthy : (Value.str s).truthy = true := by simpa [Value.truthy] using hne
  by_cases hnumber : (n.get "value").isNumber = true
  · -- the generic spelling is rendered and then corrected
    have hplain : generic cx child ⟨.node n, above⟩ = pure (.bare (Literal.generic s)) := by
      have hnot : Nesting.parenthesized ⟨.node n, above⟩ = false :=
        parenthesized_of_kind (by rw [hkind]; decide) above
      unfold generic
      simp only [hrule, hnot]
      change (literal n >>= fun d => pure d) = _
      rw [bind_pure, literal_number hraw hne hnumber]
    obtain ⟨t, hrender, hsubset⟩ := Doc.render_bare cx.widths (Literal.generic s)
    obtain ⟨spelled, hspell, hslash⟩ := Literal.spell_eq_ok hnumber (number hnumber)
      fun hmem => Literal.not_mem_generic (number hnumber) (hsubset hmem)
    have hspelled : Keeps (do
        let d ← generic cx child ⟨.node n, above⟩
        let rendered ← d.render cx.widths
        let s ← Literal.spell s (n.get "value") rendered
        pure (.bare s)) 0 := by
      rw [hplain]
      exact .given (.look hrender (.look hspell (.pure (.bare
        (Text.opensComment_of_not_mem hslash)))))
    unfold monkeyLiteral
    rw [hraw]
    cases hvalue : n.get "value" with
    | int k =>
      rw [hvalue] at hspelled
      dsimp only
      rw [htruthy]
      exact hspelled
    | float x =>
      rw [hvalue] at hspelled
      dsimp only
      rw [htruthy]
      exact hspelled
    | _ =>
      rw [hvalue] at hnumber
      cases hnumber
  · unfold monkeyLiteral
    rw [hraw]
    dsimp only
    split
    · exact .pure (holds_ofText hs)
    · rw [if_neg (by simp [hnumber])]
      exact hgeneric

end Rules

end Layout

end MonkeyFormat
