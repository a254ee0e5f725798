import MonkeyFormat.Proofs.Progress

set_option autoImplicit false

/-! # What each production consumes

Every production that gives a node consumes a token at least, keeps the operands it consumes in the
order of the source, and fails with a complaint only. The fuel that a production is given exceeds
the weight of the tokens to come, and each token it consumes pays for a nested production. -/

namespace MonkeyFormat

namespace Parse

variable {α : Type} {allowed : Fault → Prop} {bound fuel j : Nat} {p q : Parser} {ns : List Node}

/-! ## Names and types -/

theorem consumes_identifier (bound : Nat) : Consumes allowed bound identifier := by
  intro q hq _
  refine meets_expect_bind hq (by decide) fun hkind => ?_
  exact meets_leaf hq (by rw [hkind]; decide) (by rw [hkind]; rfl) rfl rfl rfl rfl

theorem consumes_scopedName (fuel : Nat) : Consumes allowed fuel (scopedName fuel) := by
  intro q hq hw
  refine (consumes_identifier fuel q hq hw).bind fun first r hfirst => ?_
  refine meets_repeat (fun n r => Passes allowed 1 q r [n]) (fun n r hn => ?_) fuel hfirst
    (hfirst.within hw)
  refine (meets_skip (.refl hn.ready) rfl).bind fun b s hs => .ite (fun hb => ?_) fun _ => ?_
  · refine ((consumes_identifier fuel).after (hs.2 hb)
      ((hs.2 hb).within (hn.within hw))).bind fun property t hproperty => ?_
    exact (hn.append hproperty).finish_bind rfl rfl rfl fun m hm _ =>
      .pure (.more hm hproperty.lt)
  · exact .pure (.last (hn.append hs.1))

/-- Of a double angle the first half may be consumed alone. -/
theorem passes_half {last : Token} (hq : q.Ready allowed) (hkind : q.head.kind = .shiftRight) :
    let s := q.head.span
    Passes allowed 1 q { q with
      rest := ⟨.greater, ">", ⟨s.start + 1, s.stop, s.line, s.col + 1, s.endLine, s.endCol⟩⟩ ::
        q.rest.drop 1
      last := some last } [] := by
  have hend : q.head.kind ≠ .endOfInput := by
    rw [hkind]
    decide
  have hbehind := hq.behind hend
  refine ⟨⟨?_, ?_⟩, ?_, [], ?_, .nil⟩
  · intro t ht
    rcases List.mem_cons.1 ht with rfl | ht
    · exact ⟨hq.head.half hkind, nofun, nofun⟩
    · exact hbehind.reports t ht
  · obtain ⟨front, last, hrest, hlast, hfront⟩ := hbehind.ends
    refine ⟨_ :: front, last, congrArg _ hrest, hlast, fun t ht => ?_⟩
    rcases List.mem_cons.1 ht with rfl | ht
    · exact nofun
    · exact hfront t ht
  · -- the pair weighs two, so the half that is left still makes the weight go down
    rw [hq.weight_eq hend, Token.weight, hkind, if_pos rfl]
    show 1 + q.behind.weight + 1 ≤ 2 + q.behind.weight
    omega
  · rw [hq.operands_eq hend, hkind]
    rfl

theorem meets_closeAngle (h : Passes allowed j p q ns) :
    Meets allowed q closeAngle fun _ r => Passes allowed 1 p r ns := by
  refine .current_bind ?_
  split
  · next hkind => exact (meets_advance h (.of hkind rfl)).bind fun _ _ hr => .pure hr
  · next hkind =>
    refine .of_run rfl
      (((h.trans (passes_half h.ready hkind)).weaken (Nat.le_add_left 1 j)).congr ?_)
    rw [List.append_nil]
  · exact meets_complain h.ready _

/-- More items, each behind a comma. -/
theorem meets_more {item : Parse Node} {acc : List Node} (hitem : Consumes allowed bound item)
    (h : Passes allowed j p q acc.reverse) (hw : q.weight < bound) (hfuel : bound ≤ fuel) :
    Meets allowed q (loop (fun acc => do
      if ← skip .comma then
        let n ← item
        pure (n :: acc, true)
      else pure (acc, false)) fuel acc) fun ns r => Passes allowed j p r ns.reverse := by
  refine (meets_repeat (fun acc r => Passes allowed j p r acc.reverse ∧ r.weight < bound)
    (fun acc r hacc => ?_) fuel ⟨h, hw⟩ (by omega)).weaken fun _ _ hns => hns.1
  refine (meets_skip (.refl hacc.1.ready) rfl).bind fun b s hs => .ite (fun hb => ?_) fun _ => ?_
  · have hcomma := hs.2 hb
    refine (hitem.after hcomma (hcomma.within hacc.2)).bind fun n t hn =>
      .pure (.more ⟨?_, ?_⟩ hn.lt)
    · rw [List.reverse_cons]
      exact hacc.1.append hn
    · exact hn.within hacc.2
  · refine .pure (.last ⟨(hacc.1.append hs.1).congr ?_, hs.1.within hacc.2⟩)
    rw [List.append_nil]

section Nested

variable {types : Parse Node} (htypes : Consumes allowed bound types) (hfuel : bound < fuel)
include htypes

theorem meets_generics (hfuel : bound < fuel) (hq : q.Ready allowed) (hw : q.weight < bound + 1) :
    Meets allowed q (generics fuel types) fun o r => Passes allowed 0 q r (o.getD []) := by
  refine (meets_skip (.refl hq) rfl).bind fun b r hr => .ite (fun hb => ?_) fun _ => .pure hr.1
  have hangle := hr.2 hb
  refine (htypes.after hangle (hangle.below hw)).bind fun first s hfirst => ?_
  refine (meets_more htypes hfirst (hfirst.below hw) (by omega)).bind fun ns t hns => ?_
  exact (meets_closeAngle hns).bind fun _ u hu => .pure (hu.weaken (by omega))

theorem consumes_typedIdentifier : Consumes allowed (bound + 1) (typedIdentifier types) := by
  intro q hq hw
  refine (consumes_identifier _ q hq hw).bind fun name r hname => ?_
  refine (meets_skip hname rfl).bind fun b s hs => .ite (fun _ => ?_) fun _ => .pure hs.1
  refine (htypes.after hs.1 (hs.1.below hw)).bind fun ts t hts => ?_
  exact hts.finish rfl rfl rfl

theorem collects_params (hfuel : bound < fuel) :
    Collects allowed (bound + 1) 1 (params fuel types) := by
  intro q hq hw
  refine (meets_expect (.refl hq) _ rfl).bind fun _ r hr => ?_
  refine ((collects_commaList (consumes_typedIdentifier htypes) hfuel _).after hr
    (hr.within hw)).bind fun ns s hs => ?_
  exact (meets_expect hs _ rfl).bind fun _ t ht => .pure ht

theorem offers_returnType : Offers allowed (bound + 1) (returnType types) := by
  intro q hq hw
  refine (meets_accept (.refl hq) rfl).bind fun o r hr => ?_
  cases o with
  | none => exact .pure hr.1
  | some t =>
    have has := hr.2.2 rfl
    refine (htypes.after has (has.below hw)).bind fun ts s hs => ?_
    exact hs.finish_bind rfl rfl rfl fun n hn _ => .pure (hn.weaken (by omega))

theorem meets_callableType (hfuel : bound < fuel) (hq : q.Ready allowed) (hplain : q.Plain)
    (hw : q.weight < bound + 1) : Meets allowed q (callableType fuel types) fun n r =>
      Passes allowed 1 q r [n] ∧ n.kind = "TypeSpecPart" := by
  refine (meets_advance (.refl hq) hplain).bind fun first r hr => ?_
  refine ((consumes_identifier _).after hr (hr.within hw)).bind fun name s hname => ?_
  refine .current_bind ?_
  refine (collects_params htypes hfuel s hname.ready (hname.within hw)).bind fun ps t hps => ?_
  refine ((offers_returnType htypes).after hps (hps.within (hname.within hw))).bind
    fun result u hresult => ?_
  refine hresult.finish_bind rfl rfl (by simp [Fields.lookup_cons]) fun call hcall _ => ?_
  refine (meets_expect (hname.append hcall) _ rfl).bind fun _ v hv => ?_
  exact hv.finish_kind rfl rfl rfl

theorem consumes_singleType (hfuel : bound < fuel) :
    Consumes allowed (bound + 1) (singleType fuel types) := by
  intro q hq hw
  refine .current_bind (.second_bind fun _ => ?_)
  extract_lets nullable
  have hnullable : ∀ part r, Passes allowed 1 q r [part] ∧ part.kind = "TypeSpecPart" →
      Meets allowed r (nullable part) fun n s => Passes allowed 1 q s [n] := by
    rintro part r ⟨hpart, hkind⟩
    refine .run_bind (run_nextIs .question r) (.second_bind fun u => ?_)
    refine .ite (fun hmark => ?_) fun _ => .pure hpart
    rw [Bool.and_eq_true] at hmark
    refine (meets_advance hpart (.of (of_decide_eq_true hmark.1) rfl)).bind fun _ s hs => ?_
    -- the mark is not among the fields that hold children
    have hchildren : part.traces = part.children.flatMap Node.traces :=
      Node.traces_of_inner (by rw [hkind]; rfl)
    have hkeys : part.childKeys = ["name", "generics", "callspec"] := by
      rw [Node.childKeys, hkind]
      rfl
    have hopened : Passes allowed 1 q s part.children :=
      hs.congr (by rw [List.flatMap_singleton, hchildren])
    refine hopened.finish rfl rfl ?_
    rw [Node.children_eq, hkeys]
    simp [Fields.lookup_insert, Node.get]
  refine .ite (fun hparen => ?_) fun _ => .ite (fun _ => ?_) fun _ => ?_
  · rw [Bool.and_eq_true] at hparen
    exact (meets_callableType htypes hfuel hq (.of (of_decide_eq_true hparen.1) rfl) hw).bind
      hnullable
  · exact meets_complain_bind hq _
  · refine (consumes_scopedName fuel q hq (by omega)).bind fun name r hname => ?_
    refine (meets_generics htypes hfuel hname.ready (hname.within hw)).bind fun gs s hgs => ?_
    refine (hname.append hgs).finish_bind rfl rfl (by simp [Fields.lookup_cons]) ?_
    exact fun n hn hkind => hnullable n s ⟨hn, hkind⟩

theorem consumes_typeList (hfuel : bound < fuel) :
    Consumes allowed (bound + 1) (typeList fuel types) := by
  intro q hq hw
  have hsingle := consumes_singleType htypes hfuel
  refine .current_bind ((hsingle q hq hw).bind fun part r hpart => ?_)
  refine (meets_repeat (fun acc r => Passes allowed 1 q r acc.reverse) (fun acc r hacc => ?_) fuel
    hpart (hpart.within (by omega))).bind fun parts s hparts => ?_
  · refine .run_bind (run_atText .or "or" r) (.ite (fun hor => ?_) fun _ => .pure (.last hacc))
    rw [Bool.and_eq_true] at hor
    refine (meets_advance (.refl hacc.ready) (.of (of_decide_eq_true hor.1) rfl)).bind
      fun _ s hs => ?_
    refine (hsingle.after hs (hs.within (hacc.within hw))).bind fun n t hn => .pure (.more ?_ hn.lt)
    rw [List.reverse_cons]
    exact hacc.append hn
  · exact hparts.finish rfl rfl (by simp [Fields.lookup_cons])

end Nested

theorem consumes_types (fuel : Nat) : Consumes allowed fuel (types fuel) := by
  induction fuel with
  | zero => exact fun _ _ hw => absurd hw (Nat.not_lt_zero _)
  | succ fuel ih => exact consumes_typeList ih (Nat.lt_succ_self fuel)

/-! ## Expressions -/

/-- A suffix is an identifier that is consumed without becoming a node. -/
theorem meets_byteSuffix (hq : q.Ready allowed) : Meets allowed q byteSuffix fun o r =>
    (o = none ∧ r = q) ∨
      (q.head.kind = .ident ∧ q.head.text = "b") ∧ o = some "b" ∧ r = q.behind := by
  refine .current_bind (.get_bind ?_)
  split
  · refine .ite (fun hb => ?_) fun _ => .pure (.inl ⟨rfl, rfl⟩)
    simp only [Bool.and_eq_true, decide_eq_true_eq] at hb
    refine .run_bind (run_advance_behind hq (by rw [hb.1.1]; decide)) ?_
    exact .pure (.inr ⟨hb.1, rfl, rfl⟩)
  · exact .pure (.inl ⟨rfl, rfl⟩)

/-- An array ends with its suffix, if it has one. -/
theorem Passes.suffixed {kind : String} {first : Span} {names : List String}
    {fields : Option String → Fields} (h : Passes allowed j p q ns)
    (hoperand : Node.operandField? kind = none) (harray : Node.isArrayKind kind = true)
    (known : childFields? kind = some names)
    (hchildren : ∀ byte,
      (names.flatMap fun name => (((fields byte).lookup name).getD .null).held) = ns)
    (hbyte : ∀ byte, (fields byte).lookup "byte" = some (byteField byte)) :
    Meets allowed q (byteSuffix >>= fun byte => Parse.finish kind first (fields byte)) fun n r =>
      Passes allowed j p r [n] := by
  have htraces (byte : Option String) (last : Span) :
      (spanning kind first last (fields byte)).traces =
        ns.flatMap Node.traces ++ (byte.map fun _ => Trace.suffix last.stop).toList := by
    rw [Node.traces_of_array hoperand harray (by rw [Node.get, spanning, hbyte byte]; rfl),
      spanning, children_of_known known, hchildren byte]
  refine (meets_byteSuffix h.ready).bind ?_
  rintro byte r (⟨rfl, rfl⟩ | ⟨⟨hkind, htext⟩, rfl, rfl⟩)
  · refine .of_run (run_finish kind first _ _) (h.congr ?_)
    rw [List.flatMap_singleton, htraces]
    exact List.append_nil _
  · -- the suffix is an operand, and its trace comes behind those of the elements
    have hend : q.head.kind ≠ .endOfInput := by
      rw [hkind]
      decide
    obtain ⟨ts, hts, hleaves⟩ := h.traces
    have hweight := h.weight
    have hbehind := h.ready.weight_eq hend
    refine .of_run (run_finish kind first _ _)
      ⟨h.ready.behind hend, by omega, ts ++ [q.head], ?_, ?_⟩
    · rw [hts, h.ready.operands_eq hend, hkind, List.append_assoc]
      rfl
    · rw [List.flatMap_singleton, htraces]
      exact List.rel_append hleaves (.cons (.suffix q.head hkind htext) .nil)

theorem meets_prefixed {op : Token} {n : Node} (h : Passes allowed j p q [n]) :
    Meets allowed q (prefixed op n) fun m r => Passes allowed j p r [m] := by
  unfold prefixed
  split
  · exact h.finish rfl rfl rfl
  · exact h.finish rfl rfl rfl

theorem meets_prefixes (ops : List Token) {n : Node} (h : Passes allowed j p q [n]) :
    Meets allowed q (ops.foldlM (fun n op => prefixed op n) n) fun m r =>
      Passes allowed j p r [m] := by
  induction ops generalizing n q with
  | nil => exact .pure h
  | cons op ops ih =>
    rw [List.foldlM_cons]
    exact (meets_prefixed h).bind fun m r hm => ih hm

theorem consumes_logical {operand : Parse Node} (hoperand : Consumes allowed bound operand)
    (hfuel : bound ≤ fuel) {kind : TokenKind} (hkind : kind.isPlain = true) :
    Consumes allowed bound (logical fuel kind operand) := by
  intro q hq hw
  refine (hoperand q hq hw).bind fun first r hfirst => ?_
  refine meets_repeat (fun n r => Passes allowed 1 q r [n]) (fun left r hleft => ?_) fuel hfirst
    (hfirst.within (by omega))
  refine (meets_accept (.refl hleft.ready) hkind).bind fun o s hs => ?_
  cases o with
  | none => exact .pure (.last (hleft.append hs.1))
  | some op =>
    have hop := hs.2.2 rfl
    refine (hoperand.after hop (hop.within (hleft.within hw))).bind fun right t hright => ?_
    exact (hleft.append hright).finish_bind rfl rfl rfl fun n hn _ => .pure (.more hn hright.lt)

/-- What is taken for a binary operator is no operand. -/
theorem plain_of_operator {t : Token} {f : String → Option (String × Int)} {x : String × Int}
    (h : (if [TokenKind.binary, .less, .greater, .shiftRight, .plus, .minus, .instanceOf, .has,
      .asWord].contains t.kind then some t.text else none).bind f = some x) :
    t.kind.isPlain = true := by
  have hall : ∀ k ∈ [TokenKind.binary, .less, .greater, .shiftRight, .plus, .minus, .instanceOf,
      .has, .asWord], k.isPlain = true := by decide
  split at h
  · next hmem => exact hall _ (List.contains_iff_mem.1 hmem)
  · cases h

section Nested

variable {expr : Parse Node} (hexpr : Consumes allowed bound expr) (hfuel : bound < fuel)
include hexpr hfuel

theorem collects_arguments : Collects allowed (bound + 1) 1 (arguments fuel expr) := by
  intro q hq hw
  refine (meets_expect (.refl hq) _ rfl).bind fun _ r hr => ?_
  refine ((collects_commaList hexpr hfuel.le _).after hr (hr.below hw)).bind fun ns s hs => ?_
  exact (meets_expect hs _ rfl).bind fun _ t ht => .pure ht

theorem opens_array : Opens allowed (bound + 1) (array fuel expr) := by
  intro q hq hplain hw
  refine (meets_advance (.refl hq) hplain).bind fun first r hr => ?_
  refine ((collects_commaList hexpr hfuel.le _).after hr (hr.below hw)).bind fun ns s hs => ?_
  refine (meets_expect hs _ rfl).bind fun _ t ht => ?_
  exact ht.suffixed rfl rfl rfl (fun _ => by simp [Fields.lookup_cons]) fun _ => rfl

omit hfuel in
theorem consumes_entry : Consumes allowed bound (entry expr) := by
  intro q hq hw
  refine (hexpr q hq hw).bind fun key r hkey => (meets_expect hkey _ rfl).bind fun _ s hs => ?_
  refine (hexpr.after hs (hs.within hw)).bind fun value t hvalue => ?_
  exact hvalue.finish rfl rfl rfl

theorem opens_dictionary : Opens allowed (bound + 1) (dictionary fuel expr) := by
  intro q hq hplain hw
  refine (meets_advance (.refl hq) hplain).bind fun first r hr => ?_
  refine ((collects_commaList (consumes_entry hexpr) hfuel.le _).after hr (hr.below hw)).bind
    fun ns s hs => (meets_expect hs _ rfl).bind fun _ t ht => ?_
  exact ht.finish rfl rfl (by simp [Fields.lookup_cons])

omit hfuel in
theorem meets_sizedArray {first : Token} {ts : Option Node} (h : Passes allowed 1 p q ts.toList)
    (hw : p.weight < bound + 1) :
    Meets allowed q (sizedArray expr first ts) fun n r => Passes allowed 1 p r [n] := by
  refine (meets_expect h _ rfl).bind fun _ r hr => ?_
  refine (hexpr.after hr (hr.below hw)).bind fun size s hsize => ?_
  refine (meets_expect hsize _ rfl).bind fun _ t ht => ?_
  exact ht.suffixed rfl rfl rfl (fun _ => by simp [Fields.lookup_cons]) fun _ => rfl

theorem opens_construction : Opens allowed (bound + 1) (construction fuel expr) := by
  intro q hq hplain hw
  refine (meets_advance (.refl hq) hplain).bind fun first r hr => ?_
  refine .run_bind (run_nextIs .leftBracket r) ?_
  refine .ite (fun _ => meets_sizedArray hexpr hr hw) fun _ => .current_bind ?_
  refine ((consumes_scopedName fuel).after hr (hr.within (by omega))).bind fun name s hname => ?_
  refine (meets_generics ((consumes_types fuel).mono hfuel.le) hfuel hname.ready
    (hname.within hw)).bind fun gs t hgs => .current_bind ?_
  have htyped := hname.append hgs
  refine .ite (fun _ => ?_) fun _ => ?_
  · extract_lets call
    have hcall (x : PUnit) (hnone : gs = none) :
        Meets allowed t (call x) fun n u => Passes allowed 1 q u [n] := by
      subst hnone
      refine ((collects_arguments hexpr hfuel).after htyped (htyped.within hw)).bind
        fun args u hargs => ?_
      exact hargs.finish rfl rfl (by simp [Fields.lookup_cons])
    exact .ite (fun _ => meets_complain_bind htyped.ready _) fun hsome =>
      hcall () (by simpa using hsome)
  · refine htyped.finish_bind rfl rfl (by simp [Fields.lookup_cons]) fun ts hts _ => ?_
    exact meets_sizedArray hexpr hts hw

theorem consumes_primary : Consumes allowed (bound + 1) (primary fuel expr) := by
  intro q hq hw
  refine .current_bind ?_
  split
  · exact consumes_identifier _ q hq hw
  · next hkind =>
    have hend : q.head.kind ≠ .endOfInput := by
      rw [hkind]
      decide
    refine .run_bind (run_advance_behind hq hend) ?_
    exact meets_leaf hq hend (by rw [hkind]; rfl) rfl rfl rfl rfl
  · next hkind =>
    refine (meets_advance (.refl hq) (.of hkind rfl)).bind fun _ r hr => ?_
    refine (hexpr.after hr (hr.below hw)).bind fun n s hn => ?_
    exact (meets_expect hn _ rfl).bind fun _ t ht => .pure ht
  · next hkind => exact opens_array hexpr hfuel q hq (.of hkind rfl) hw
  · next hkind => exact opens_dictionary hexpr hfuel q hq (.of hkind rfl) hw
  · next hkind =>
    refine (meets_advance (.refl hq) (.of hkind rfl)).bind fun _ r hr => ?_
    refine ((consumes_identifier _).after hr (hr.below hw)).bind fun name s hname => ?_
    exact hname.finish rfl rfl rfl
  · next hkind => exact opens_construction hexpr hfuel q hq (.of hkind rfl) hw
  · refine .ite (fun hkind => ?_) fun _ => meets_complain hq _
    have hall : ∀ k ∈ [TokenKind.number, .float, .string, .char, .literal],
        k ≠ .endOfInput ∧ k.isOperand = true := by decide
    obtain ⟨hend, hoperand⟩ := hall _ (List.contains_iff_mem.1 hkind)
    refine .run_bind (run_advance_behind hq hend) ?_
    refine (meets_value hq (hq.behind hend) hkind).bind ?_
    rintro v _ rfl
    exact meets_leaf hq hend hoperand rfl rfl rfl rfl

theorem consumes_postfixed : Consumes allowed (bound + 1) (postfixed fuel expr) := by
  intro q hq hw
  refine (consumes_primary hexpr hfuel q hq hw).bind fun first r hfirst => ?_
  refine meets_repeat (fun n r => Passes allowed 1 q r [n]) (fun n r hn => ?_) fuel hfirst
    (hfirst.within (by omega))
  have hlow := hn.below hw
  have hself : Passes allowed 0 r r [] := .refl hn.ready
  refine .current_bind ?_
  split
  · next hkind =>
    refine (meets_advance hself (.of hkind rfl)).bind fun _ s hs => ?_
    refine ((consumes_identifier bound).after hs (hs.within hlow)).bind fun property t ht => ?_
    exact (hn.append ht).finish_bind rfl rfl rfl fun m hm _ => .pure (.more hm ht.lt)
  · next hkind =>
    refine (meets_advance hself (.of hkind rfl)).bind fun _ s hs => ?_
    refine (hexpr.after hs (hs.within hlow)).bind fun property t hproperty => ?_
    refine (meets_expect hproperty _ rfl).bind fun _ u hu => ?_
    exact (hn.append hu).finish_bind rfl rfl rfl fun m hm _ => .pure (.more hm hu.lt)
  · refine (collects_arguments hexpr hfuel r hn.ready (by omega)).bind fun args s hargs => ?_
    exact (hn.append hargs).finish_bind rfl rfl (by simp [Fields.lookup_cons]) fun m hm _ =>
      .pure (.more hm hargs.lt)
  · next hkind =>
    refine (meets_advance hself (.of hkind rfl)).bind fun _ s hs => ?_
    exact (hn.append hs).finish_bind rfl rfl rfl fun m hm _ => .pure (.more hm hs.lt)
  · exact .pure (.last hn)

theorem consumes_unary : Consumes allowed (bound + 1) (unary fuel expr) := by
  intro q hq hw
  refine (meets_repeat (fun _ r => Passes allowed 0 q r []) (fun ops r hops => ?_) fuel (.refl hq)
    (by omega)).bind fun ops r hops => ?_
  · refine .run_bind (run_atAny prefixKinds r) (.ite (fun hmem => ?_) fun _ => .pure (.last hops))
    have hall : ∀ k ∈ prefixKinds, k.isPlain = true := by decide
    refine (meets_advance (.refl hops.ready) (hall _ (List.contains_iff_mem.1 hmem))).bind
      fun op s hs => .pure (.more (hops.append hs) hs.lt)
  · refine ((consumes_postfixed hexpr hfuel).after hops (hops.within hw)).bind fun n s hn => ?_
    exact meets_prefixes ops hn

theorem consumes_binary (depth : Nat) :
    ∀ rank, Consumes allowed (min depth (bound + 1)) (binary fuel expr depth rank) := by
  induction depth with
  | zero => exact fun _ _ _ hw => absurd hw (by omega)
  | succ depth ih =>
    intro rank q hq hw
    -- the operand on the right is read one level deeper, which the operator's token pays for
    refine (consumes_unary hexpr hfuel q hq (by omega)).bind fun first r hfirst => ?_
    refine meets_repeat (fun n r => Passes allowed 1 q r [n]) (fun left r hleft => ?_) fuel hfirst
      (hfirst.within (by omega))
    refine .run_bind (show binaryOperator.run.run r = _ from rfl) ?_
    split
    · exact .pure (.last hleft)
    · next op opRank hop =>
      refine .ite (fun _ => .pure (.last hleft)) fun _ => ?_
      refine (meets_advance (.refl hleft.ready) (plain_of_operator hop)).bind fun _ s hs => ?_
      extract_lets join
      have hjoin (right : Node) (t : Parser) (hright : Passes allowed 1 r t ([] ++ [right])) :
          Meets allowed t (join right)
            (Round (fun n r => Passes allowed 1 q r [n]) (fun n r => Passes allowed 1 q r [n])
              r.weight) :=
        (hleft.append hright).finish_bind rfl rfl rfl fun n hn _ => .pure (.more hn hright.lt)
      have hlow := hs.within (hleft.within hw)
      refine .ite (fun _ => ?_) fun _ => .ite (fun _ => ?_) fun _ => ?_
      · exact ((consumes_types fuel).after hs (by omega)).bind hjoin
      · exact ((consumes_scopedName fuel).after hs (by omega)).bind hjoin
      · have hless := hleft.lt
        have hless' := hs.lt
        exact ((ih _).after hs (by omega)).bind hjoin

theorem consumes_disjunction : Consumes allowed (bound + 1) (disjunction fuel expr) := by
  have hbinary : Consumes allowed (bound + 1) (binary fuel expr fuel loosestRank) :=
    (consumes_binary hexpr hfuel fuel loosestRank).mono (by omega)
  exact consumes_logical (consumes_logical hbinary hfuel rfl) hfuel rfl

theorem consumes_conditional : Consumes allowed (bound + 1) (conditional fuel expr) := by
  intro q hq hw
  refine (consumes_disjunction hexpr hfuel q hq hw).bind fun test r htest => ?_
  refine (meets_skip htest rfl).bind fun b s hs => .ite (fun _ => ?_) fun _ => .pure hs.1
  refine (hexpr.after hs.1 (hs.1.below hw)).bind fun consequent t hconsequent => ?_
  refine (meets_expect hconsequent _ rfl).bind fun _ u hu => ?_
  refine (hexpr.after hu (hu.below hw)).bind fun alternate v halternate => ?_
  exact halternate.finish rfl rfl rfl

theorem consumes_assignment : Consumes allowed (bound + 1) (assignment fuel expr) := by
  intro q hq hw
  refine (consumes_conditional hexpr hfuel q hq hw).bind fun left r hleft => ?_
  refine .current_bind (.ite (fun hop => ?_) fun _ => .pure hleft)
  extract_lets assign
  have hassign (x : PUnit) : Meets allowed r (assign x) fun n s => Passes allowed 1 q s [n] := by
    refine (meets_advance hleft (.of hop rfl)).bind fun _ s hs => ?_
    refine (hexpr.after hs (hs.below hw)).bind fun right t hright => ?_
    exact hright.finish rfl rfl rfl
  exact .ite (fun _ => meets_complain_bind hleft.ready _) fun _ => hassign ()

end Nested

theorem consumes_expression (fuel : Nat) : Consumes allowed fuel (expression fuel) := by
  induction fuel with
  | zero => exact fun _ _ hw => absurd hw (Nat.not_lt_zero _)
  | succ fuel ih => exact consumes_assignment ih (Nat.lt_succ_self fuel)

theorem consumes_sequence (fuel : Nat) : Consumes allowed fuel (sequence fuel) := by
  intro q hq hw
  refine (consumes_expression fuel q hq hw).bind fun first r hfirst => ?_
  refine .run_bind (run_nextIs .comma r) (.ite (fun _ => ?_) fun _ => .pure hfirst)
  refine (meets_more (consumes_expression fuel) hfirst (hfirst.within hw) le_rfl).bind
    fun ns s hns => ?_
  exact hns.finish rfl rfl (by simp [Fields.lookup_cons])

/-! ## Statements -/

theorem consumes_declarator (fuel : Nat) (kind : String) :
    Consumes allowed fuel (declarator fuel kind) := by
  intro q hq hw
  refine (consumes_typedIdentifier (consumes_types fuel) q hq (by omega)).bind
    fun name r hname => ?_
  refine .run_bind (run_atText .assign "=" r) ?_
  extract_lets done
  have hdone (init : Option Node) (s : Parser)
      (hinit : Passes allowed 1 q s ([name] ++ init.toList)) :
      Meets allowed s (done init) fun n t => Passes allowed 1 q t [n] :=
    hinit.finish rfl rfl (by simp [Fields.lookup_cons])
  refine .ite (fun hassign => ?_) fun _ => (offers_none.after hname (hname.within hw)).bind hdone
  rw [Bool.and_eq_true] at hassign
  refine (meets_advance hname (.of (of_decide_eq_true hassign.1) rfl)).bind fun _ s hs => ?_
  exact ((consumes_expression fuel).some.after hs (hs.within hw)).bind hdone

/-- Variables with commas between them, of which there is at least one. -/
theorem meets_declarators (kind : String) (hq : q.Ready allowed) (hw : q.weight < fuel) :
    Meets allowed q (loop (fun acc => do
      let n ← declarator fuel kind
      pure (n :: acc, ← skip .comma)) fuel []) fun acc r => Passes allowed 1 q r acc.reverse := by
  refine meets_loop (fun acc r => Passes allowed 0 q r acc.reverse)
    (fun acc r => Passes allowed 1 q r acc.reverse) (fun acc r hacc => ?_) fuel [] q (.refl hq) hw
  refine (consumes_declarator fuel kind r hacc.ready (hacc.within hw)).bind fun n s hn => ?_
  refine (meets_skip hn rfl).bind fun b t ht => .pure ?_
  have hnext : Passes allowed 1 q t (n :: acc).reverse := by
    rw [List.reverse_cons]
    exact (hacc.trans ht.1).weaken (Nat.le_add_left 1 0)
  cases b with
  | false => exact .last hnext
  | true => exact .more (hnext.weaken (Nat.zero_le 1)) ht.1.lt

section Attributed

variable {first : Span} {attrs : Option Node} (h : Passes allowed j p q attrs.toList)
  (hplain : q.Plain) (hw : p.weight < fuel)
include h hplain hw

theorem meets_variableList : Meets allowed q (variableList fuel first attrs) fun n r =>
    Passes allowed 1 p r [n] ∧ n.kind = "VariableDeclaration" := by
  refine (meets_advance h hplain).bind fun tok r hr => ?_
  refine (meets_declarators _ hr.ready (hr.within hw)).bind fun ns s hns => ?_
  exact (hr.append hns).finish_kind rfl rfl (by simp [Fields.lookup_cons])

theorem meets_variablesStatement : Meets allowed q (variablesStatement fuel first attrs)
    fun n r => Passes allowed 1 p r [n] := by
  refine (meets_variableList h hplain hw).bind ?_
  rintro n r ⟨hn, hkind⟩
  refine (meets_expect hn _ rfl).bind fun _ s hs => ?_
  have hopened : Passes allowed 1 p s n.children := hs.congr <| by
    rw [List.flatMap_singleton, Node.traces_of_inner (by rw [hkind]; rfl)]
  refine hopened.finish rfl rfl ?_
  rw [Node.children_eq, Node.childKeys, hkind]
  rfl

end Attributed

theorem consumes_parenTest (fuel : Nat) : Consumes allowed fuel (parenTest fuel) := by
  intro q hq hw
  refine (meets_expect (.refl hq) _ rfl).bind fun _ r hr => ?_
  refine ((consumes_expression fuel).after hr (hr.within hw)).bind fun n s hn => ?_
  exact (meets_expect hn _ rfl).bind fun _ t ht => .pure ht

theorem consumes_caseTest (fuel : Nat) : Consumes allowed fuel (caseTest fuel) := by
  intro q hq hw
  refine (meets_accept (.refl hq) rfl).bind fun o r hr => ?_
  cases o with
  | none =>
    rw [hr.2.1 rfl]
    exact consumes_expression fuel q hq hw
  | some tok =>
    have hword := hr.2.2 rfl
    refine ((consumes_scopedName fuel).after hword (hword.within hw)).bind fun name s hname => ?_
    exact hname.finish rfl rfl rfl

theorem consumes_catchParam (fuel : Nat) : Consumes allowed fuel (catchParam fuel) := by
  intro q hq hw
  refine (consumes_identifier fuel q hq hw).bind fun name r hname => ?_
  refine (meets_skip hname rfl).bind fun b s hs => .ite (fun _ => ?_) fun _ => .pure hs.1
  refine ((consumes_scopedName fuel).after hs.1 (hs.1.within hw)).bind fun kind t hkind => ?_
  exact hkind.finish rfl rfl rfl

theorem opens_returnStatement (fuel : Nat) : Opens allowed fuel (returnStatement fuel) := by
  intro q hq hplain hw
  refine (meets_advance (.refl hq) hplain).bind fun first r hr => ?_
  refine .run_bind (run_nextIs .semicolon r) ?_
  refine .branch (fun _ => offers_none.after hr (hr.within hw))
    (fun _ => (consumes_expression fuel).some.after hr (hr.within hw)) fun argument s hs => ?_
  refine (meets_expect hs _ rfl).bind fun _ t ht => ?_
  exact ht.finish rfl rfl (by simp [Fields.lookup_cons])

theorem opens_throwStatement (fuel : Nat) : Opens allowed fuel (throwStatement fuel) := by
  intro q hq hplain hw
  refine (meets_advance (.refl hq) hplain).bind fun first r hr => ?_
  refine ((consumes_expression fuel).after hr (hr.within hw)).bind fun argument s hs => ?_
  refine (meets_expect hs _ rfl).bind fun _ t ht => ?_
  exact ht.finish rfl rfl rfl

theorem opens_jump (bound : Nat) : Opens allowed bound jump := by
  intro q hq hplain _
  refine (meets_advance (.refl hq) hplain).bind fun first r hr => ?_
  refine (meets_expect hr _ rfl).bind fun _ s hs => ?_
  split <;> exact hs.finish rfl rfl rfl

theorem consumes_expressionStatement (fuel : Nat) :
    Consumes allowed fuel (expressionStatement fuel) := by
  intro q hq hw
  refine .current_bind ((consumes_expression fuel q hq hw).bind fun n r hn => ?_)
  refine (meets_expect hn _ rfl).bind fun _ s hs => ?_
  exact hs.finish rfl rfl rfl

/-- Several handlers in a node of their own leave the same traces. -/
theorem traces_handlers (ns : List Node) :
    (handlers ns).toList.flatMap Node.traces = ns.flatMap Node.traces := by
  match ns with
  | [] => rfl
  | [n] => rfl
  | n :: m :: ns =>
    rw [handlers, Option.toList_some, List.flatMap_singleton]
    exact traces_of_known rfl rfl (by simp [Fields.lookup_cons])

section Nested

variable {stmt : Parse Node} (hstmt : Consumes allowed bound stmt) (hfuel : bound < fuel)
include hstmt hfuel

theorem consumes_block : Consumes allowed (bound + 1) (block fuel stmt) := by
  intro q hq hw
  refine (meets_expect (.refl hq) _ rfl).bind fun first r hr => ?_
  refine ((collects_bodyUntilBrace hstmt hfuel.le).after hr (hr.below hw)).bind fun ns s hns => ?_
  exact hns.finish rfl rfl (by simp [Fields.lookup_cons])

theorem opens_ifStatement : Opens allowed (bound + 1) (ifStatement fuel stmt) := by
  intro q hq hplain hw
  refine (meets_advance (.refl hq) hplain).bind fun first r hr => ?_
  refine ((consumes_parenTest fuel).after hr (hr.within (by omega))).bind fun test s htest => ?_
  refine (hstmt.after htest (htest.below hw)).bind fun consequent t hconsequent => ?_
  refine (meets_skip hconsequent rfl).bind fun b u hu => ?_
  refine .branch (fun _ => hstmt.some.after hu.1 (hu.1.below hw))
    (fun _ => offers_none.after hu.1 (hu.1.below hw)) fun alternate v hv => ?_
  exact hv.finish rfl rfl (by simp [Fields.lookup_cons])

theorem opens_whileStatement : Opens allowed (bound + 1) (whileStatement fuel stmt) := by
  intro q hq hplain hw
  refine (meets_advance (.refl hq) hplain).bind fun first r hr => ?_
  refine ((consumes_parenTest fuel).after hr (hr.within (by omega))).bind fun test s htest => ?_
  refine (hstmt.after htest (htest.below hw)).bind fun body t hbody => ?_
  exact hbody.finish rfl rfl rfl

theorem opens_doStatement : Opens allowed (bound + 1) (doStatement fuel stmt) := by
  intro q hq hplain hw
  refine (meets_advance (.refl hq) hplain).bind fun first r hr => ?_
  refine (hstmt.after hr (hr.below hw)).bind fun body s hbody => ?_
  refine (meets_expect hbody _ rfl).bind fun _ t ht => ?_
  refine ((consumes_parenTest fuel).after ht (ht.within (by omega))).bind fun test u htest => ?_
  refine (meets_expect htest _ rfl).bind fun _ v hv => ?_
  exact hv.finish rfl rfl rfl

theorem opens_forStatement : Opens allowed (bound + 1) (forStatement fuel stmt) := by
  intro q hq hplain hw
  have hlow : q.weight < fuel := by omega
  refine (meets_advance (.refl hq) hplain).bind fun first q₁ h₁ => ?_
  refine (meets_expect h₁ _ rfl).bind fun _ r hr => .current_bind ?_
  extract_lets rest
  have hrest (init : Option Node) (s : Parser) (hs : Passes allowed 1 q s ([] ++ init.toList)) :
      Meets allowed s (rest init) fun n t => Passes allowed 1 q t [n] := by
    refine (meets_expect hs _ rfl).bind fun _ t ht => .run_bind (run_nextIs .semicolon t) ?_
    refine .branch (fun _ => offers_none.after ht (ht.within hlow))
      (fun _ => (consumes_expression fuel).some.after ht (ht.within hlow)) fun test u htest => ?_
    refine (meets_expect htest _ rfl).bind fun _ v hv => .run_bind (run_nextIs .rightParen v) ?_
    refine .branch (fun _ => offers_none.after hv (hv.within hlow))
      (fun _ => (consumes_sequence fuel).some.after hv (hv.within hlow)) fun update x hupdate => ?_
    refine (meets_expect hupdate _ rfl).bind fun _ y hy => ?_
    refine (hstmt.after hy (hy.below hw)).bind fun body z hbody => ?_
    exact hbody.finish rfl rfl (by simp [Fields.lookup_cons])
  refine .ite (fun hvar => ?_) fun _ => .ite
    (fun _ => (offers_none.after hr (hr.within hlow)).bind hrest)
    fun _ => ((consumes_sequence fuel).some.after hr (hr.within hlow)).bind hrest
  have hlist : Meets allowed r (variableList fuel r.head.span none) fun n s =>
      Passes allowed 1 q s [n] ∧ n.kind = "VariableDeclaration" :=
    meets_variableList hr (.of hvar rfl) hlow
  exact Settles.bind (hlist.map fun n s hn => hn.1) hrest

theorem consumes_switchCase : Consumes allowed (bound + 1) (switchCase fuel stmt) := by
  intro q hq hw
  refine .current_bind ?_
  extract_lets rest
  have hrest (test : Option Node) (r : Parser) (hr : Passes allowed 1 q r ([] ++ test.toList)) :
      Meets allowed r (rest test) fun n s => Passes allowed 1 q s [n] := by
    refine (meets_expect hr _ rfl).bind fun _ s hs => ?_
    refine Settles.bind
      (meets_many (run_atAny _) (fun t ht _ hwt => hstmt t ht hwt) hfuel.le hs.ready
      (hs.below hw)) ?_
    rintro ns t ⟨hns, -⟩
    exact (hs.append hns).finish rfl rfl (by simp [Fields.lookup_cons])
  split
  · next hkind =>
    refine (meets_advance (.refl hq) (.of hkind rfl)).bind fun _ r hr => ?_
    exact ((consumes_caseTest fuel).some.after hr (hr.within (by omega))).bind hrest
  · next hkind =>
    refine (meets_advance (.refl hq) (.of hkind rfl)).bind fun _ r hr => ?_
    exact (offers_none.after hr (hr.below hw)).bind hrest
  · exact meets_complain_bind hq _

theorem opens_switchStatement : Opens allowed (bound + 1) (switchStatement fuel stmt) := by
  intro q hq hplain hw
  refine (meets_advance (.refl hq) hplain).bind fun first r hr => ?_
  refine ((consumes_parenTest fuel).after hr (hr.within (by omega))).bind fun test s htest => ?_
  refine (meets_expect htest _ rfl).bind fun _ t ht => ?_
  refine Settles.bind (meets_many (run_nextIs _)
    (fun u hu _ hwu => consumes_switchCase hstmt hfuel u hu hwu) hfuel ht.ready (ht.within hw)) ?_
  rintro cases u ⟨hcases, -⟩
  refine (meets_expect (ht.append hcases) _ rfl).bind fun _ v hv => ?_
  exact hv.finish rfl rfl (by simp [Fields.lookup_cons])

theorem opens_catchClause : Opens allowed (bound + 1) (catchClause fuel stmt) := by
  intro q hq hplain hw
  refine (meets_advance (.refl hq) hplain).bind fun first r hr => ?_
  refine (meets_skip hr rfl).bind fun b s hs => ?_
  extract_lets rest
  have hrest (param : Option Node) (t : Parser)
      (ht : Passes allowed 1 q t ([] ++ param.toList)) :
      Meets allowed t (rest param) fun n u => Passes allowed 1 q u [n] := by
    refine ((consumes_block hstmt hfuel).after ht (ht.within hw)).bind fun body u hbody => ?_
    exact hbody.finish rfl rfl (by simp [Fields.lookup_cons])
  refine .ite (fun _ => ?_) fun _ => (offers_none.after hs.1 (hs.1.below hw)).bind hrest
  refine ((consumes_catchParam fuel).after hs.1 (hs.1.within (by omega))).bind fun n t hn => ?_
  refine (meets_expect hn _ rfl).bind fun _ u hu => ?_
  exact Settles.bind (.pure hu) fun param v hv => hrest param v hv

theorem opens_tryStatement : Opens allowed (bound + 1) (tryStatement fuel stmt) := by
  intro q hq hplain hw
  refine (meets_advance (.refl hq) hplain).bind fun first r hr => ?_
  refine ((consumes_block hstmt hfuel).after hr (hr.within hw)).bind fun body s hbody => ?_
  have hstop (t : Parser) : (do pure !(← nextIs .catchWord) : Parse Bool).run.run t =
      (.ok !decide (t.head.kind = .catchWord), t) := rfl
  refine Settles.bind (meets_many hstop (fun t ht hcatch hwt => ?_) hfuel hbody.ready
    (hbody.within hw)) ?_
  · have hkind : t.head.kind = .catchWord := by simpa using hcatch
    exact opens_catchClause hstmt hfuel t ht (.of hkind rfl) hwt
  rintro catches t ⟨hcatches, -⟩
  have hhandled : Passes allowed 1 q t ([body] ++ (handlers catches).toList) :=
    hbody.append (hcatches.congr (traces_handlers catches))
  refine (meets_skip hhandled rfl).bind fun b u hu => ?_
  refine .branch (fun _ => (consumes_block hstmt hfuel).some.after hu.1 (hu.1.within hw))
    (fun _ => offers_none.after hu.1 (hu.1.within hw)) fun finalizer v hv => ?_
  refine .ite (fun _ => .current_bind (meets_complain_bind hv.ready _)) fun _ => ?_
  exact hv.finish rfl rfl (by simp [Fields.lookup_cons])

theorem consumes_statementWith : Consumes allowed (bound + 1) (statementWith fuel stmt) := by
  intro q hq hw
  have hlow : q.weight < fuel := by omega
  refine .current_bind ?_
  split
  · exact consumes_block hstmt hfuel q hq hw
  · next hkind => exact opens_ifStatement hstmt hfuel q hq (.of hkind rfl) hw
  · next hkind => exact opens_whileStatement hstmt hfuel q hq (.of hkind rfl) hw
  · next hkind => exact opens_doStatement hstmt hfuel q hq (.of hkind rfl) hw
  · next hkind => exact opens_forStatement hstmt hfuel q hq (.of hkind rfl) hw
  · next hkind => exact opens_switchStatement hstmt hfuel q hq (.of hkind rfl) hw
  · next hkind => exact opens_tryStatement hstmt hfuel q hq (.of hkind rfl) hw
  · next hkind => exact opens_returnStatement fuel q hq (.of hkind rfl) hlow
  · next hkind => exact opens_throwStatement fuel q hq (.of hkind rfl) hlow
  · next hkind => exact opens_jump fuel q hq (.of hkind rfl) hlow
  · next hkind => exact opens_jump fuel q hq (.of hkind rfl) hlow
  · next hkind => exact meets_variablesStatement (.refl hq) (.of hkind rfl) hlow
  · next hkind => exact meets_variablesStatement (.refl hq) (.of hkind rfl) hlow
  · exact consumes_expressionStatement fuel q hq hlow

end Nested

theorem consumes_statement (fuel : Nat) : Consumes allowed fuel (statement fuel) := by
  induction fuel with
  | zero => exact fun _ _ hw => absurd hw (Nat.not_lt_zero _)
  | succ fuel ih => exact consumes_statementWith ih (Nat.lt_succ_self fuel)

/-! ## Declarations -/

theorem opens_usingDeclaration (fuel : Nat) : Opens allowed fuel (usingDeclaration fuel) := by
  intro q hq hplain hw
  refine (meets_advance (.refl hq) hplain).bind fun first r hr => ?_
  refine ((consumes_scopedName fuel).after hr (hr.within hw)).bind fun name s hname => ?_
  refine (meets_skip hname rfl).bind fun b t ht => ?_
  refine .branch (fun _ => (consumes_identifier fuel).some.after ht.1 (ht.1.within hw))
    (fun _ => offers_none.after ht.1 (ht.1.within hw)) fun shortName u hu => ?_
  refine (meets_expect hu _ rfl).bind fun _ v hv => ?_
  exact hv.finish rfl rfl (by simp [Fields.lookup_cons])

theorem opens_importDeclaration (fuel : Nat) : Opens allowed fuel (importDeclaration fuel) := by
  intro q hq hplain hw
  refine (meets_advance (.refl hq) hplain).bind fun first r hr => ?_
  refine ((consumes_scopedName fuel).after hr (hr.within hw)).bind fun name s hname => ?_
  refine (meets_expect hname _ rfl).bind fun _ t ht => ?_
  exact ht.finish rfl rfl rfl

theorem opens_attributes (fuel : Nat) :
    Opens allowed (fuel + 1) (attributes (fuel + 1)) := by
  intro q hq hplain hw
  have helement : Consumes allowed (fuel + 1)
      (postfixed (fuel + 1) (expression (fuel + 1))) :=
    consumes_postfixed ((consumes_expression (fuel + 1)).mono fuel.le_succ) fuel.lt_succ_self
  refine (meets_advance (.refl hq) hplain).bind fun first r hr => ?_
  refine ((collects_commaList helement le_rfl _).after hr (hr.within hw)).bind fun ns s hs => ?_
  refine (meets_expect hs _ rfl).bind fun _ t ht => ?_
  exact ht.finish rfl rfl (by simp [Fields.lookup_cons])

theorem meets_accessWords (h : Passes allowed j p q ns) (hw : q.weight < fuel) :
    Meets allowed q (accessWords fuel) fun _ r => Passes allowed j p r ns := by
  refine (meets_repeat (fun _ r => Passes allowed j p r ns) (fun acc r hacc => ?_) fuel h hw).bind
    fun ws r hr => .pure hr
  refine (meets_accept (.refl hacc.ready) rfl).bind fun o s hs => ?_
  have hnext : Passes allowed j p s ns := (hacc.append hs.1).congr (by rw [List.append_nil])
  cases o with
  | none => exact .pure (.last hnext)
  | some t => exact .pure (.more hnext (hs.2.2 rfl).lt)

theorem offers_attributeList (fuel : Nat) :
    Offers allowed (fuel + 1) (attributeList (fuel + 1)) := by
  intro q hq hw
  refine .current_bind ?_
  have hattributes (hparen : q.head.kind = .leftParen) :
      Meets allowed q (some <$> attributes (fuel + 1)) fun o r => Passes allowed 0 q r o.toList :=
    (opens_attributes fuel q hq (.of hparen rfl) hw).map fun _ _ hr => hr.weaken (Nat.zero_le 1)
  refine .branch hattributes (fun _ => offers_none q hq hw) fun attrs r hr => ?_
  refine (meets_accessWords hr (hr.within hw)).bind fun words s hs => ?_
  refine .ite (fun hnone => ?_) fun _ => ?_
  · rw [Bool.and_eq_true, Option.isNone_iff_eq_none] at hnone
    rw [hnone.1] at hs
    exact .pure hs
  · exact (hs.finish rfl rfl (by simp [Fields.lookup_cons])).map fun _ _ hn => hn

theorem consumes_enumMember (fuel : Nat) : Consumes allowed fuel (enumMember fuel) := by
  intro q hq hw
  refine (consumes_identifier fuel q hq hw).bind fun name r hname => ?_
  refine .run_bind (run_atText .assign "=" r) (.ite (fun hassign => ?_) fun _ => .pure hname)
  rw [Bool.and_eq_true] at hassign
  refine (meets_advance hname (.of (of_decide_eq_true hassign.1) rfl)).bind fun _ s hs => ?_
  refine ((consumes_expression fuel).after hs (hs.within hw)).bind fun init t hinit => ?_
  exact hinit.finish rfl rfl rfl

section Attributed

variable {first : Span} {attrs : Option Node} {item : Parse Node}
  (h : Passes allowed 0 p q attrs.toList) (hplain : q.Plain)
include h hplain

/-- The name and the brace pay for the nested declarations, too. -/
theorem meets_moduleDeclaration (hitem : Consumes allowed bound item) (hfuel : bound < fuel)
    (hw : p.weight < bound + 2) :
    Meets allowed q (moduleDeclaration fuel item first attrs) fun n r =>
      Passes allowed 1 p r [n] := by
  refine (meets_advance h hplain).bind fun _ r hr => ?_
  refine (consumes_identifier (bound + 2) r hr.ready (hr.within hw)).bind fun name s hname => ?_
  have hnamed := hr.trans hname
  refine (meets_expect (.refl hnamed.ready) _ rfl).bind fun opening t ht => ?_
  have hopened := hnamed.trans ht
  have hweight := hopened.weight
  refine (collects_bodyUntilBrace hitem hfuel.le t ht.ready (by omega)).bind fun ns u hns => ?_
  refine (ht.append hns).finish_bind rfl rfl (by simp [Fields.lookup_cons]) fun body hbody _ => ?_
  have hall : Passes allowed 1 p u (attrs.toList ++ [name] ++ [body]) :=
    (hnamed.append hbody).weaken (by omega)
  exact hall.finish rfl rfl (by simp [Fields.lookup_cons])

theorem meets_classDeclaration (hitem : Consumes allowed bound item) (hfuel : bound < fuel)
    (hw : p.weight < bound + 1) :
    Meets allowed q (classDeclaration fuel item first attrs) fun n r =>
      Passes allowed 1 p r [n] := by
  refine (meets_advance h hplain).bind fun _ r hr => ?_
  refine ((consumes_identifier _).after hr (hr.within hw)).bind fun name s hname => ?_
  refine (meets_skip hname rfl).bind fun b t ht => ?_
  refine .branch
    (fun _ => (consumes_scopedName fuel).some.after ht.1 (ht.1.within (by omega)))
    (fun _ => offers_none.after ht.1 (ht.1.within hw)) fun base u hbase => ?_
  refine (meets_expect (.refl hbase.ready) _ rfl).bind fun opening v hv => ?_
  refine ((collects_bodyUntilBrace hitem hfuel.le).after hv
    (hv.within (hbase.below hw))).bind fun ns x hns => ?_
  refine hns.finish_bind rfl rfl (by simp [Fields.lookup_cons]) fun body hbody _ => ?_
  exact (hbase.append hbody).finish rfl rfl (by simp [Fields.lookup_cons])

theorem meets_functionDeclaration (hw : p.weight < fuel + 1) :
    Meets allowed q (functionDeclaration (fuel + 1) first attrs) fun n r =>
      Passes allowed 1 p r [n] := by
  have htypes : Consumes allowed fuel (types (fuel + 1)) := (consumes_types _).mono fuel.le_succ
  have hstatement : Consumes allowed fuel (statement (fuel + 1)) :=
    (consumes_statement _).mono fuel.le_succ
  refine (meets_advance h hplain).bind fun _ r hr => ?_
  refine ((consumes_identifier _).after hr (hr.within hw)).bind fun name s hname => ?_
  refine ((collects_params htypes fuel.lt_succ_self).after hname (hname.within hw)).bind
    fun ps t hps => ?_
  refine ((offers_returnType htypes).after hps (hps.within hw)).bind fun result u hresult => ?_
  refine (meets_skip hresult rfl).bind fun b v hv => ?_
  refine .branch (fun _ => offers_none.after hv.1 (hv.1.within hw))
    (fun _ => (consumes_block hstatement fuel.lt_succ_self).some.after hv.1 (hv.1.within hw))
    fun body x hbody => ?_
  exact hbody.finish rfl rfl (by simp [Fields.lookup_cons])

theorem meets_enumDeclaration (hw : p.weight < fuel) :
    Meets allowed q (enumDeclaration fuel first attrs) fun n r => Passes allowed 1 p r [n] := by
  refine (meets_advance h hplain).bind fun _ r hr => .run_bind (run_nextIs .ident r) ?_
  refine .branch (fun _ => (consumes_identifier fuel).some.after hr (hr.within hw))
    (fun _ => offers_none.after hr (hr.within hw)) fun name s hname => ?_
  refine (meets_expect (.refl hname.ready) _ rfl).bind fun opening t ht => ?_
  refine ((collects_commaList (consumes_enumMember fuel) le_rfl _).after ht
    (ht.within (hname.within hw))).bind fun ns u hns => ?_
  refine (meets_expect hns _ rfl).bind fun _ v hv => ?_
  refine hv.finish_bind rfl rfl (by simp [Fields.lookup_cons]) fun body hbody _ => ?_
  refine (hname.append hbody).finish_bind rfl rfl (by simp [Fields.lookup_cons]) fun n hn _ => ?_
  exact (meets_skip hn rfl).bind fun _ x hx => .pure hx.1

theorem meets_typedefDeclaration (hw : p.weight < fuel) :
    Meets allowed q (typedefDeclaration fuel first attrs) fun n r => Passes allowed 1 p r [n] := by
  refine (meets_advance h hplain).bind fun _ r hr => ?_
  refine ((consumes_identifier fuel).after hr (hr.within hw)).bind fun name s hname => ?_
  refine ((offers_returnType (consumes_types fuel)).after hname (hname.within (by omega))).bind
    fun o t ht => ?_
  cases o with
  | none => exact .current_bind (meets_complain ht.ready _)
  | some ts =>
    refine (meets_expect ht _ rfl).bind fun _ u hu => ?_
    exact hu.finish rfl rfl (by simp [Fields.lookup_cons])

end Attributed

theorem consumes_classElementOf {item : Parse Node} (hitem : Consumes allowed bound item) :
    Consumes allowed bound (classElementOf item) := fun q hq hw =>
  (hitem q hq hw).bind fun n r hn => .pure <| hn.congr <| by
    rw [List.flatMap_singleton]
    exact traces_of_known rfl rfl rfl

theorem consumes_declarations (fuel : Nat) :
    (∀ allowModule, Consumes allowed fuel (declaration allowModule fuel)) ∧
      Consumes allowed (fuel - 1) (topLevel fuel) := by
  -- modules nest declarations through `topLevel`, which takes a step of its own
  induction fuel with
  | zero => exact ⟨fun _ _ _ hw => absurd hw (by omega), fun _ _ hw => absurd hw (by omega)⟩
  | succ fuel ih =>
    constructor
    · intro allowModule q hq hw
      rw [declaration]
      refine (offers_attributeList fuel q hq hw).bind fun attrs r hattrs => .current_bind ?_
      extract_lets first
      split
      · next hkind =>
        exact meets_classDeclaration hattrs (.of hkind rfl) (consumes_classElementOf (ih.1 false))
          fuel.lt_succ_self hw
      · next hkind => exact meets_functionDeclaration hattrs (.of hkind rfl) hw
      · next hkind => exact meets_variablesStatement hattrs (.of hkind rfl) hw
      · next hkind => exact meets_variablesStatement hattrs (.of hkind rfl) hw
      · next hkind => exact meets_enumDeclaration hattrs (.of hkind rfl) hw
      · next hkind => exact meets_typedefDeclaration hattrs (.of hkind rfl) hw
      · refine .ite (fun hmodule => ?_) fun _ => meets_complain hattrs.ready _
        rw [Bool.and_eq_true] at hmodule
        exact meets_moduleDeclaration hattrs (.of (of_decide_eq_true hmodule.1) rfl) ih.2
          (by omega) (by omega)
    · intro q hq hw
      rw [topLevel]
      refine .current_bind ?_
      split
      · next hkind => exact opens_usingDeclaration (fuel + 1) q hq (.of hkind rfl) (by omega)
      · next hkind => exact opens_importDeclaration (fuel + 1) q hq (.of hkind rfl) (by omega)
      · exact ih.1 true q hq hw

/-! ## Whole sources -/

/-- The nodes up to the end, and the root over them. -/
theorem meets_whole {item : Parse Node} (hitem : Consumes allowed fuel item) (hq : q.Ready allowed)
    (hw : q.weight < fuel) :
    Meets allowed q (many fuel (nextIs .endOfInput) item >>= programOf) fun n r =>
      Passes allowed 0 q r [n] ∧ r.operands = [] := by
  refine Settles.bind (meets_many (run_nextIs .endOfInput) (fun r hr _ hwr => hitem r hr hwr) le_rfl
    hq hw) ?_
  rintro ns r ⟨hns, hend⟩
  refine .get_bind (.pure ⟨hns.congr ?_, hns.ready.operands_eq_nil (of_decide_eq_true hend)⟩)
  rw [List.flatMap_singleton]
  exact traces_of_known rfl rfl (by simp [Fields.lookup_cons])

/-- The end token stays when it is consumed. -/
theorem run_advance_end (hq : q.Ready allowed) (hend : q.head.kind = .endOfInput) :
    advance.run.run q = (.ok q.head, { q with last := some q.head }) := by
  obtain ⟨t, ts, hrest⟩ : ∃ t ts, q.rest = t :: ts := by
    obtain ⟨front, last, hrest, -⟩ := hq.ends
    cases front with
    | nil => exact ⟨last, [], hrest⟩
    | cons t front => exact ⟨t, front ++ [last], hrest⟩
  have hhead : q.head = t := by
    rw [Parser.head, hrest]
    rfl
  unfold advance
  rw [run_bind_ok _ (run_get q), hrest, hhead]
  simp only [if_pos (hhead ▸ hend)]
  rfl

theorem meets_expect_end (h : Passes allowed j p q ns) (what : String) :
    Meets allowed q (expect .endOfInput what) fun _ r =>
      Passes allowed j p r ns ∧ r.operands = [] := by
  refine .current_bind (.ite (fun hend => ?_) fun _ => meets_complain h.ready _)
  refine .of_run (run_advance_end h.ready hend)
    ⟨⟨⟨h.ready.reports, h.ready.ends⟩, h.weight, ?_⟩, ?_⟩
  · exact h.traces
  · exact h.ready.operands_eq_nil hend

/-- The names that a fragment may have. -/
def Known (fragment : Option String) : Prop :=
  fragment ∈ [none, some "", some "statements", some "class"]

theorem meets_fueled {production : Nat → Parse α} {post : α → Parser → Prop}
    (h : ∀ fuel, q.weight < fuel → Meets allowed q (production fuel) post) :
    Meets allowed q (fueled production) post := .get_bind (h _ (Nat.lt_succ_self _))

/-- What a fragment may have to report is its name. -/
theorem meets_fragment {name : Option String}
    (hname : Known name ∨ ∀ s, allowed (.unknownFragment s)) (hq : q.Ready allowed)
    (hw : q.weight < fuel) :
    Meets allowed q (fragment name fuel) fun n r => Passes allowed 0 q r [n] ∧ r.operands = [] := by
  unfold fragment
  extract_lets kind
  refine .ite (fun _ => ?_) fun hclass => .ite (fun _ => ?_) fun hstatements => ?_
  · exact meets_whole (consumes_classElementOf ((consumes_declarations fuel).1 false)) hq hw
  · exact meets_whole (consumes_statement fuel) hq hw
  · -- a known name was caught by one of the tests
    rcases hname with hname | hname
    · simp only [Known, List.mem_cons, List.not_mem_nil, or_false] at hname
      rcases hname with rfl | rfl | rfl | rfl
      · exact absurd rfl hstatements
      · exact absurd rfl hstatements
      · exact absurd rfl hstatements
      · exact absurd rfl hclass
    · exact ⟨hname _, hq⟩

/-- A start rule that succeeds has consumed all operands and gives a tree with their traces. -/
theorem meets_startRule {o : Options}
    (ho : o.rule = .fragment → Known o.fragment ∨ ∀ s, allowed (.unknownFragment s))
    (hq : q.Ready allowed) : Meets allowed q (startRule o) fun n r =>
      Passes allowed 0 q r [n] ∧ r.operands = [] := by
  unfold startRule
  split
  · exact meets_fueled fun fuel hw => meets_whole (consumes_declarations (fuel + 1)).2 hq hw
  · refine meets_fueled fun fuel hw => ?_
    refine (consumes_expression fuel q hq hw).bind fun n r hn => ?_
    refine (meets_expect_end hn _).bind ?_
    rintro _ s ⟨hs, hend⟩
    exact .pure ⟨hs.weaken (Nat.zero_le 1), hend⟩
  · next hrule => exact meets_fueled fun fuel hw => meets_fragment (ho hrule) hq hw

end Parse

end MonkeyFormat
