import MonkeyFormat.Proofs.StatementReading
import MonkeyFormat.Proofs.TypeSyntax
import MonkeyFormat.Proofs.Unspanned

set_option autoImplicit false

/-! # Reading types

The grammar reads the tokens of a type as that type. Whether a question mark belongs to a type is
decided by the token behind it, so it matters what may come behind a type. -/

namespace MonkeyFormat

namespace Parse

variable {fuel : Nat} {next : Glyph → Prop} {types : Parse Node}

/-- The token behind the next one is looked at; it is the first of those behind that one. -/
theorem Takes.second_is {β : Type} {f : Token → Parse β} {goal : β → Prop} {g : Glyph}
    {gs : List Glyph} (hf : ∀ (t : Token) (k : Glyph), next k → t.glyph = gs.headD k →
      Takes (f t) (g :: gs) next goal) : Takes (Parse.second >>= f) (g :: gs) next goal := by
  intro p k us hp hk
  obtain ⟨t, ts, hrest⟩ : ∃ t ts, (p.rest.map Token.glyph).tail = t :: ts ∧ t = gs.headD k := by
    rw [hp]
    cases gs <;> exact ⟨_, _, rfl, rfl⟩
  cases hp' : p.rest with
  | nil => simp [hp'] at hrest
  | cons s ss =>
    cases ss with
    | nil => simp [hp'] at hrest
    | cons u us' =>
      have hu : u.glyph = gs.headD k := by
        rw [hp'] at hrest
        obtain ⟨hcons, ht⟩ := hrest
        rw [← ht]
        exact (List.cons.inj hcons).1
      have hrun : Parse.second.run.run p = (.ok u, p) := by
        unfold Parse.second
        rw [run_bind_ok _ (show (get : Parse Parser).run.run p = (.ok p, p) from rfl), hp']
        rfl
      rw [run_bind_ok f hrun]
      exact hf u k hk hu p k us hp hk

/-! ## Question marks -/

/-- May the token follow a type? -/
def EndsTypes (g : Glyph) : Prop := g.kind ∈ afterType ∧ g.kind ≠ .question

/-- May the token follow an alternative, with or without a question mark? -/
def EndsPart (nullable : Bool) (g : Glyph) : Prop :=
  if nullable then g.kind ∈ afterType else g.kind ≠ .dot ∧ g.kind ≠ .less ∧ g.kind ≠ .question

theorem EndsTypes.part {g : Glyph} (h : EndsTypes g) (nullable : Bool) : EndsPart nullable g := by
  have hall : ∀ k ∈ afterType, k ≠ .dot ∧ k ≠ .less := by decide
  cases nullable with
  | true => exact h.1
  | false => exact ⟨(hall _ h.1).1, (hall _ h.1).2, h.2⟩

/-- Behind a type comes neither `or` nor `as`. -/
theorem EndsTypes.kind_ne {g : Glyph} (h : EndsTypes g) : g.kind ≠ .or ∧ g.kind ≠ .asWord := by
  have hall : ∀ k ∈ afterType, k ≠ .or ∧ k ≠ .asWord := by decide
  exact hall _ h.1

theorem endsPart_or : EndsPart false (Glyph.of "or") := ⟨by decide, by decide, by decide⟩

theorem endsTypes_of_mem : ∀ g ∈ [Glyph.of ",", Glyph.of ";", Glyph.of ")", Glyph.of ">",
    Glyph.of "=", Glyph.of "\x7b"], EndsTypes g := by
  unfold EndsTypes
  decide

/-- An alternative takes up the question mark behind it. -/
def marked (first : Span) (part : Node) : Parse Node := do
  if (← nextIs .question) && afterType.contains (← second).kind then
    let _ ← advance
    finish "TypeSpecPart" first (Fields.insert part.fields "nullable" (.bool true))
  else pure part

theorem fieldsUnspanned_append (fs gs : Fields) :
    fieldsUnspanned (fs ++ gs) = fieldsUnspanned fs ++ fieldsUnspanned gs := by
  induction fs with
  | nil => rfl
  | cons f fs ih => simp only [List.cons_append, fieldsUnspanned, ih]

theorem insert_eq_append {fs : Fields} {name : String} {v : Value}
    (h : ∀ f ∈ fieldsUnspanned fs, f.1 ≠ name) : fs.insert name v = fs ++ [(name, v)] := by
  induction fs with
  | nil => rfl
  | cons f fs ih =>
    obtain ⟨k, w⟩ := f
    rw [fieldsUnspanned, List.forall_mem_cons] at h
    rw [Fields.insert, if_neg h.1, ih h.2, List.cons_append]

/-- What is read as an alternative without its question mark is read as the alternative. -/
theorem takes_marked {first : Span} {part : Node} {p : TypePart} (nullable : Bool)
    (hpart : part.unspanned = (p.node false).unspanned) :
    Reads (marked first part) (nullableGlyphs nullable) (EndsPart nullable)
      (p.node nullable).unspanned := by
  cases nullable with
  | false =>
    refine (takes_nextIs .question false).look ?_ fun g hg => decide_eq_false hg.2.2
    rintro _ rfl
    exact Takes.second fun _ => Takes.pure hpart
  | true =>
    obtain ⟨span, fields, hnode, hfree⟩ := p.node_eq
    have hfields : fieldsUnspanned part.fields = fieldsUnspanned fields := by
      rw [hnode, nullableFields, if_neg Bool.false_ne_true, List.append_nil] at hpart
      obtain ⟨kind, span, fs⟩ := part
      exact congrArg Node.fields hpart
    refine Takes.nextIs rfl (Takes.second_is fun t k hk ht => ?_)
    have hkind : afterType.contains t.kind = true := by
      rw [show t.kind = k.kind from congrArg Glyph.kind ht]
      exact List.contains_iff_mem.2 hk
    rw [hkind]
    refine Takes.advance (by decide) fun _ _ => reads_finish ?_
    have hpartFree : ∀ f ∈ fieldsUnspanned part.fields, f.1 ≠ "nullable" := by
      rw [hfields]
      exact fun f hf => hfree f.1 (names_fieldsUnspanned fields ▸ List.mem_map_of_mem hf)
    rw [insert_eq_append hpartFree, fieldsUnspanned_append, hfields, hnode, Node.unspanned,
      fieldsUnspanned_append]
    rfl

/-! ## Parameters and results -/

theorem reads_parameter {p : Parameter}
    (h : ∀ t ∈ p.nested, Reads types t.glyphs EndsTypes t.node.unspanned) :
    Reads (typedIdentifier types) p.glyphs EndsTypes p.node.unspanned := by
  cases p with
  | plain name span =>
    refine (reads_identifier name).last (fun n hn => ?_) fun _ hg => hg
    exact Takes.skip_none (fun g hg => hg.kind_ne.2) (Takes.pure hn)
  | typed name first type span =>
    have hname : Reads identifier [name.glyph] (fun _ => True) _ := reads_identifier name
    refine hname.bind (fun n hn => ?_) fun _ _ => trivial
    refine Takes.skip rfl (by decide) ?_
    refine (h type (List.mem_singleton_self _)).last (fun ts hts => reads_finish ?_) fun _ hg => hg
    simp only [fieldsUnspanned, Value.unspanned, hn, hts]
    rfl

theorem headD_parameter (p : Parameter) (g : Glyph) : (p.glyphs.headD g).kind = .ident := by
  cases p with
  | plain name span => exact name.glyph_kind
  | typed name first type span => exact name.glyph_kind

theorem takes_parameters {ps : List Parameter}
    (h : ∀ p ∈ ps, ∀ t ∈ p.nested, Reads types t.glyphs EndsTypes t.node.unspanned)
    (hfuel : ps.length < fuel) :
    Takes (params fuel types) (listed (parametersGlyphs ps)) next
      fun ns => ns.map Node.unspanned = (parameterNodes ps).map Node.unspanned := by
  rw [parametersGlyphs_eq, parameterNodes_eq, List.map_map]
  refine takes_listed (fun p hp => reads_parameter (h p hp)) (fun p _ g => ?_)
    (endsTypes_of_mem _ (by decide)) (endsTypes_of_mem _ (by decide)) hfuel
  rw [headD_parameter]
  decide

theorem takes_result {r : TypeResult}
    (h : ∀ t ∈ r.nested, Reads types t.glyphs EndsTypes t.node.unspanned) :
    Takes (returnType types) r.glyphs EndsTypes
      fun o => o.map Node.unspanned = r.node?.map Node.unspanned := by
  cases r with
  | none =>
    refine (takes_accept_none .asWord).look ?_ fun g hg => hg.kind_ne.2
    rintro _ rfl
    exact Takes.pure rfl
  | typed type span =>
    have haccept : Takes (accept .asWord) [Glyph.of "as"] (fun _ => True) _ :=
      takes_accept rfl (by decide)
    refine haccept.bind ?_ fun _ _ => trivial
    rintro _ ⟨u, rfl, _⟩
    refine (h type (List.mem_singleton_self _)).last (fun n hn => ?_) fun _ hg => hg
    refine (takes_finish _ _ _).ahead fun m hm => Takes.pure ?_
    rw [Option.map_some, hm]
    simp only [fieldsUnspanned, Value.unspanned, hn]
    rfl

/-! ## Alternatives -/

theorem takes_closeAngle : Takes closeAngle [Glyph.of ">"] next fun _ => True := by
  refine Takes.peek fun t ht => ?_
  rw [show t.kind = .greater from congrArg Glyph.kind ht]
  exact Takes.advance (by decide) fun _ _ => Takes.pure trivial

theorem unspanned_someNodes (ns : List Node) :
    (someNodes ns).unspanned = someNodes (ns.map Node.unspanned) := by
  unfold someNodes
  cases ns with
  | nil => rfl
  | cons n ns =>
    simp only [List.isEmpty_cons, List.map_cons, Bool.false_eq_true, if_false, unspanned_nodes]

/-- One more generic argument is put before those that have been collected. -/
def genericStep (types : Parse Node) (acc : List Node) : Parse (List Node × Bool) := do
  if ← skip .comma then
    let n ← types
    pure (n :: acc, true)
  else pure (acc, false)

theorem takes_generics {ts : List TypeExpr}
    (h : ∀ t ∈ ts, Reads types t.glyphs EndsTypes t.node.unspanned) (hfuel : ts.length ≤ fuel) :
    Takes (generics fuel types) (angled (typesGlyphs ts)) (fun g => g.kind ≠ .less)
      fun o => (genericsField o).unspanned = someNodes ((typeNodes ts).map Node.unspanned) := by
  rw [typesGlyphs_eq, typeNodes_eq, List.map_map]
  cases ts with
  | nil =>
    refine (takes_generics_none types).weaken (fun _ hg => hg) ?_
    rintro _ rfl
    rfl
  | cons t ts =>
    rw [List.forall_mem_cons] at h
    have hround (u : TypeExpr) (hu : u ∈ ts) (acc : List Node) :
        Takes (genericStep types acc) (Glyph.of "," :: u.glyphs) EndsTypes
          (Adds (fun u : TypeExpr => u.node.unspanned) u acc true) := by
      refine Takes.skip rfl (by decide) ?_
      exact (h.2 u hu).last (fun m hm => Takes.pure ⟨m, hm, rfl⟩) fun _ hg => hg
    have hloop (n : Node) : Takes (loop (genericStep types) fuel [n])
        (ts.flatMap fun u => Glyph.of "," :: u.glyphs) (fun g => g = Glyph.of ">")
        (Collected (fun u : TypeExpr => u.node.unspanned) ts [n]) := by
      have hnext : ∀ g, g = Glyph.of "," ∨ g = Glyph.of ">" → EndsTypes g := by
        rintro g (rfl | rfl) <;> exact endsTypes_of_mem _ (by decide)
      refine takes_rounds (fun acc => ?_) hround (fun _ _ _ => ?_) hnext hfuel [n]
      · refine Takes.skip_none ?_ (Takes.pure rfl)
        rintro _ rfl
        decide
      · rfl
    rw [List.map_cons, angled, List.isEmpty_cons, if_neg Bool.false_ne_true, intercalate_cons,
      List.flatMap_map, List.append_assoc]
    refine Takes.skip rfl (by decide) ?_
    refine h.1.bind (fun n hn => ?_) fun g _ => ?_
    · refine (hloop n).bind (fun ns hns => ?_) fun _ _ => rfl
      refine takes_closeAngle.last (fun _ _ => Takes.pure ?_) fun _ hg => hg
      rw [genericsField, Option.map_some, Option.getD_some, unspanned_nodes, List.map_reverse, hns]
      simp [someNodes, hn, Function.comp_def]
    · cases ts with
      | nil => exact endsTypes_of_mem (Glyph.of ">") (by decide)
      | cons u us => exact endsTypes_of_mem (Glyph.of ",") (by decide)

/-- A callable type behind its opening parenthesis is read with its signature. -/
theorem takes_callable {word call span : Span} {params : List Parameter} {result : TypeResult}
    (h : ∀ t ∈ (TypePart.callable word params result call span).nested,
      Reads types t.glyphs EndsTypes t.node.unspanned)
    (hlen : (TypePart.callable word params result call span).glyphs.length ≤ fuel) :
    Reads (callableType fuel types) (TypePart.callable word params result call span).glyphs next
      ((TypePart.callable word params result call span).node false).unspanned := by
  have hcount := length_listed (parametersGlyphs params)
  simp only [TypePart.glyphs, List.length_cons, List.length_append] at hlen
  rw [parametersGlyphs_eq, List.length_map] at hcount
  rw [parametersGlyphs_eq] at hlen
  have hparams :
      Takes (Parse.params fuel types) (listed (parametersGlyphs params)) (fun _ => True) _ :=
    takes_parameters (fun p hp t ht =>
      h t (List.mem_append_left _ (List.mem_flatMap.2 ⟨p, hp, ht⟩))) (by omega)
  have hresult : Takes (returnType types) result.glyphs EndsTypes _ :=
    takes_result fun t ht => h t (List.mem_append_right _ ht)
  have hname : Reads identifier [methodName.glyph] (fun _ => True) _ := reads_identifier methodName
  refine Takes.advance (by decide) fun first _ => ?_
  refine hname.bind (fun n hn => ?_) fun _ _ => trivial
  refine (takes_current fun _ => True).look (fun t _ => ?_) fun _ _ => trivial
  refine hparams.bind (fun ns hns => ?_) fun _ _ => trivial
  refine hresult.bind (fun o ho => ?_) fun _ _ => endsTypes_of_mem (Glyph.of ")") (by decide)
  have hcall : Takes (finish _ _ _) [] (fun _ => True) _ := takes_finish "MethodDefinition" t.span
    [("kind", .str "method"), ("key", .str ""), ("params", nodes ns), ("returnType", optional o)]
  refine hcall.look (fun m hm => ?_) fun _ _ => trivial
  refine Takes.expect rfl (by decide) fun _ _ => reads_finish ?_
  simp only [fieldsUnspanned, Value.unspanned, hn, hm, unspanned_nodes, unspanned_optional, hns, ho]
  rw [TypePart.node, nullableFields, if_neg Bool.false_ne_true, Node.unspanned]
  simp only [fieldsUnspanned, Value.unspanned, Node.unspanned, unspanned_nodes, unspanned_optional]
  rfl

theorem singleType_eq (fuel : Nat) (types : Parse Node) : singleType fuel types = (do
    let first ← current
    let behind ← second
    if first.kind = .leftParen && behind.text = "Method" then
      callableType fuel types >>= marked first.span
    else if first.kind = .leftBrace then complain .dictionaryType first >>= marked first.span
    else do
      let name ← scopedName fuel
      let gs ← generics fuel types
      let part ← finish "TypeSpecPart" first.span
        [("name", .node name), ("generics", genericsField gs)]
      marked first.span part) := rfl

theorem length_angled (gss : List (List Glyph)) : gss.length ≤ (angled gss).length := by
  cases gss with
  | nil => exact Nat.zero_le _
  | cons gs gss =>
    have hcount := length_intercalate (gs :: gss) (Glyph.of ",")
    simp only [angled, List.isEmpty_cons, Bool.false_eq_true, if_false, List.length_cons,
      List.length_append] at hcount ⊢
    omega

/-- What stands behind the name of an alternative is no part of the name. -/
theorem kind_behind_name (gss : List (List Glyph)) {nullable : Bool} {g : Glyph}
    (h : EndsPart nullable g) : ((angled gss ++ nullableGlyphs nullable).headD g).kind ≠ .dot ∧
      ((nullableGlyphs nullable).headD g).kind ≠ .less := by
  have hless : (Glyph.of "<").kind ≠ .dot := by decide
  have hquestion : (Glyph.of "?").kind ≠ .dot ∧ (Glyph.of "?").kind ≠ .less := by decide
  cases gss with
  | nil =>
    cases nullable with
    | true => exact hquestion
    | false => exact ⟨h.1, h.2.1⟩
  | cons gs gss =>
    cases nullable with
    | true => exact ⟨hless, hquestion.2⟩
    | false => exact ⟨hless, h.2.1⟩

/-- The grammar reads the tokens of an alternative as that alternative. -/
theorem reads_typePart {p : TypePart}
    (h : ∀ t ∈ p.nested, Reads types t.glyphs EndsTypes t.node.unspanned)
    (hlen : p.glyphs.length ≤ fuel) (nullable : Bool) :
    Reads (singleType fuel types) (p.glyphs ++ nullableGlyphs nullable) (EndsPart nullable)
      (p.node nullable).unspanned := by
  rw [singleType_eq]
  cases p with
  | named name generics span =>
    have hcount := length_angled (typesGlyphs generics)
    rw [typesGlyphs_eq, List.length_map] at hcount
    rw [TypePart.glyphs, typesGlyphs_eq, List.length_append] at hlen
    rw [TypePart.glyphs, List.append_assoc]
    refine (takes_current (fun g => g.kind = .ident)).look (fun first hfirst => ?_)
      fun g _ => name.headD_glyphs_append _ g
    refine Takes.second fun _ => ?_
    have hkind : first.kind ≠ .leftParen ∧ first.kind ≠ .leftBrace := by
      rw [show first.kind = .ident from hfirst]
      decide
    simp only [hkind, decide_false, Bool.false_and, Bool.false_eq_true, if_false]
    refine (reads_scopedName name (by omega)).bind (fun n hn => ?_)
      fun g hg => (kind_behind_name _ hg).1
    refine (takes_generics h (by omega : generics.length ≤ fuel)).bind (fun o ho => ?_)
      fun g hg => (kind_behind_name (typesGlyphs generics) hg).2
    have hpart : Reads (finish "TypeSpecPart" first.span
        [("name", .node n), ("generics", genericsField o)]) [] (fun _ => True)
        ((TypePart.named name generics span).node false).unspanned := by
      refine reads_finish ?_
      simp only [fieldsUnspanned, Value.unspanned, hn, ho]
      rw [TypePart.node, nullableFields, if_neg Bool.false_ne_true, Node.unspanned]
      simp only [fieldsUnspanned, Value.unspanned, unspanned_someNodes]
      rfl
    exact hpart.look (fun part hpart => takes_marked nullable hpart) fun _ _ => trivial
  | callable word params result call span =>
    have hcall : Reads (callableType fuel types)
        (TypePart.callable word params result call span).glyphs (fun _ => True) _ :=
      takes_callable h hlen
    refine Takes.peek fun first hfirst => ?_
    refine Takes.second_is fun behind k _ hbehind => ?_
    have hfirst : first.kind = .leftParen := congrArg Glyph.kind hfirst
    have hbehind : behind.text = "Method" := congrArg Glyph.text hbehind
    simp only [hfirst, hbehind, decide_true, Bool.and_self, if_true]
    exact hcall.bind (fun part hpart => takes_marked nullable hpart) fun _ _ => trivial

/-! ## Types -/

/-- One more alternative is put before those that have been collected. -/
def orStep (fuel : Nat) (types : Parse Node) (acc : List Node) : Parse (List Node × Bool) := do
  if ← atText .or "or" then
    let _ ← advance
    let n ← singleType fuel types
    pure (n :: acc, true)
  else pure (acc, false)

theorem typeList_eq (fuel : Nat) (types : Parse Node) : typeList fuel types = (do
    let first ← current
    let part ← singleType fuel types
    let parts ← loop (orStep fuel types) fuel [part]
    finish "TypeSpecList" first.span [("ts", nodes parts.reverse)]) := rfl

/-- The node of an alternative with the question mark that it may carry. -/
def partTarget (p : TypePart × Bool) : Node := (p.1.node p.2).unspanned

theorem takes_orStep {p : TypePart}
    (h : ∀ t ∈ p.nested, Reads types t.glyphs EndsTypes t.node.unspanned)
    (hlen : p.glyphs.length ≤ fuel) (nullable : Bool) (acc : List Node) :
    Takes (orStep fuel types acc) (Glyph.of "or" :: (p.glyphs ++ nullableGlyphs nullable))
      (EndsPart nullable) (Adds partTarget (p, nullable) acc true) := by
  refine (takes_atText .or "or" true).look ?_ fun _ _ => rfl
  rintro _ rfl
  refine Takes.advance (by decide) fun _ _ => ?_
  exact (reads_typePart h hlen nullable).last (fun n hn => Takes.pure ⟨n, hn, rfl⟩) fun _ hg => hg

theorem takes_orRounds_none {rounds : Nat} (hrounds : 0 < rounds) (acc : List Node) :
    Takes (loop (orStep fuel types) rounds acc) [] EndsTypes (Collected partTarget [] acc) := by
  have hdone (acc : List Node) : Takes (orStep fuel types acc) [] EndsTypes (· = (acc, false)) := by
    refine (takes_atText .or "or" false).look ?_ fun g hg => ?_
    · rintro _ rfl
      exact Takes.pure rfl
    · simp [hg.kind_ne.1]
  refine (takes_loop_done hdone hrounds acc).weaken (fun _ hg => hg) ?_
  rintro _ rfl
  rfl

/-- Alternatives behind the first, of which the last may carry a question mark. -/
theorem takes_orRounds {firsts : List TypePart} {last : TypePart} (nullable : Bool)
    (h : ∀ p ∈ last :: firsts, ∀ t ∈ p.nested, Reads types t.glyphs EndsTypes t.node.unspanned)
    (hlen : ∀ p ∈ last :: firsts, p.glyphs.length ≤ fuel) {rounds : Nat}
    (hrounds : firsts.length < rounds) (acc : List Node) :
    Takes (loop (orStep fuel types) (rounds + 1) acc)
      (Glyph.of "or" :: (firstsGlyphs firsts ++ (last.glyphs ++ nullableGlyphs nullable))) EndsTypes
      (Collected partTarget (firsts.map (·, false) ++ [(last, nullable)]) acc) := by
  induction firsts generalizing acc rounds with
  | nil =>
    have hround := takes_orStep (h last List.mem_cons_self) (hlen last List.mem_cons_self) nullable
      acc
    have hloop := takes_loop_round hround (fun n => takes_orRounds_none hrounds (n :: acc))
      fun g hg => hg.part nullable
    rwa [List.append_nil] at hloop
  | cons p ps ih =>
    obtain ⟨hlast, hp, hps⟩ : _ ∧ _ ∧ _ := by simpa only [List.forall_mem_cons] using h
    obtain ⟨hlast', hp', hps'⟩ : _ ∧ _ ∧ _ := by simpa only [List.forall_mem_cons] using hlen
    rw [List.length_cons] at hrounds
    obtain ⟨rounds, rfl⟩ : ∃ m, rounds = m + 1 := ⟨rounds - 1, by omega⟩
    have hround := takes_orStep hp hp' false acc
    rw [nullableGlyphs, if_neg Bool.false_ne_true, List.append_nil] at hround
    have hrest (n : Node) := ih (List.forall_mem_cons.2 ⟨hlast, hps⟩)
      (List.forall_mem_cons.2 ⟨hlast', hps'⟩) (by omega : ps.length < rounds) (n :: acc)
    have hloop := takes_loop_round hround hrest fun _ _ => endsPart_or
    rw [firstsGlyphs, List.append_assoc]
    exact hloop

/-! ### Lengths -/

theorem length_of_mem_angled {gs : List Glyph} {gss : List (List Glyph)} (h : gs ∈ gss) :
    gs.length < (angled gss).length := by
  have hle := length_le_of_mem_intercalate (Glyph.of ",") h
  cases gss with
  | nil => cases h
  | cons hs gss =>
    simp only [angled, List.isEmpty_cons, Bool.false_eq_true, if_false, List.length_cons,
      List.length_append]
    omega

/-- A type right inside an alternative has fewer tokens. -/
theorem length_of_mem_nested {p : TypePart} {t : TypeExpr} (h : t ∈ p.nested) :
    t.glyphs.length < p.glyphs.length := by
  cases p with
  | named name generics span =>
    have hlt := length_of_mem_angled (List.mem_map_of_mem (f := TypeExpr.glyphs) h)
    rw [TypePart.glyphs, List.length_append, typesGlyphs_eq]
    exact Nat.lt_add_left _ hlt
  | callable word params result call span =>
    simp only [TypePart.glyphs, List.length_cons, List.length_append, parametersGlyphs_eq]
    rcases List.mem_append.1 h with h | h
    · obtain ⟨q, hq, ht⟩ := List.mem_flatMap.1 h
      have hlt := length_of_mem_listed (List.mem_map_of_mem (f := Parameter.glyphs) hq)
      cases q with
      | plain name span => cases ht
      | typed name first type span =>
        obtain rfl := List.mem_singleton.1 ht
        simp only [Parameter.glyphs, List.length_cons] at hlt
        omega
    · cases result with
      | none => cases h
      | typed type span =>
        obtain rfl := List.mem_singleton.1 h
        simp only [TypeResult.glyphs, List.length_cons]
        omega

/-- An alternative has at most as many tokens as its type. -/
theorem length_of_mem_parts {t : TypeExpr} {p : TypePart × Bool} (h : p ∈ t.parts) :
    p.1.glyphs.length ≤ t.glyphs.length := by
  obtain ⟨firsts, last, nullable, span⟩ := t
  rw [TypeExpr.glyphs, List.length_append, List.length_append, firstsGlyphs_eq]
  rcases List.mem_append.1 h with h | h
  · obtain ⟨q, hq, rfl⟩ := List.mem_map.1 h
    have hle := @length_le_flatMap _ (fun p : TypePart => p.glyphs ++ [Glyph.of "or"]) _ _ hq
    rw [List.length_append] at hle
    dsimp only
    omega
  · obtain rfl := List.mem_singleton.1 h
    dsimp only
    omega

theorem length_firsts_le (firsts : List TypePart) :
    firsts.length ≤ (firstsGlyphs firsts).length := by
  rw [firstsGlyphs_eq]
  exact length_flatMap firsts fun p _ => by simp

/-! ### Whole types -/

/-- The grammar reads the tokens of the type as that type. -/
def ReadsType (t : TypeExpr) : Prop :=
  ∀ fuel, t.glyphs.length ≤ fuel →
    Reads (Parse.types (fuel + 1)) t.glyphs EndsTypes t.node.unspanned

theorem reads_typeSpecList {t : TypeExpr} {first : Span} {part : Node} {parts : List Node}
    {p : TypePart × Bool} {ps : List (TypePart × Bool)} (ht : t.parts = p :: ps)
    (hpart : part.unspanned = partTarget p) (hparts : Collected partTarget ps [part] parts) :
    Reads (finish "TypeSpecList" first [("ts", nodes parts.reverse)]) [] next
      t.node.unspanned := by
  obtain ⟨span, hnode⟩ := t.node_eq
  refine reads_finish ?_
  have htargets : parts.reverse.map Node.unspanned = (p :: ps).map partTarget := by
    rw [List.map_reverse, hparts, List.map_singleton, hpart]
    simp
  rw [hnode, ht, Node.unspanned]
  simp only [fieldsUnspanned, unspanned_nodes, htargets, List.map_map]
  rfl

/-- The grammar reads the tokens of a type as that type. -/
theorem readsType (t : TypeExpr) : ReadsType t := by
  induction t using TypeExpr.induct with
  | h t ih =>
    intro fuel hlen
    have hnested : ∀ p ∈ t.parts, ∀ u ∈ p.1.nested,
        Reads (Parse.types fuel) u.glyphs EndsTypes u.node.unspanned := by
      intro p hp u hu
      have hlt := length_of_mem_nested hu
      have hle := length_of_mem_parts hp
      obtain ⟨m, rfl⟩ : ∃ m, fuel = m + 1 := ⟨fuel - 1, by omega⟩
      exact ih p hp u hu m (by omega)
    have hshort : ∀ p ∈ t.parts, p.1.glyphs.length ≤ fuel + 1 := by
      intro p hp
      have hle := length_of_mem_parts hp
      omega
    obtain ⟨firsts, last, nullable, span⟩ := t
    have hcount := length_firsts_le firsts
    rw [TypeExpr.glyphs, List.length_append] at hlen
    rw [Parse.types, typeList_eq, TypeExpr.glyphs]
    refine (takes_current fun _ => True).look (fun first _ => ?_) fun _ _ => trivial
    cases firsts with
    | nil =>
      have hmem : (last, nullable) ∈ TypeExpr.parts (.mk [] last nullable span) :=
        List.mem_singleton_self _
      refine (reads_typePart (hnested _ hmem) (hshort _ hmem) nullable).last (fun part hpart => ?_)
        fun _ hg => hg.part nullable
      exact (takes_orRounds_none (Nat.succ_pos _) [part]).ahead fun parts hparts =>
        reads_typeSpecList rfl hpart hparts
    | cons p ps =>
      have hp : (p, false) ∈ TypeExpr.parts (.mk (p :: ps) last nullable span) :=
        List.mem_cons_self
      have hlast : (last, nullable) ∈ TypeExpr.parts (.mk (p :: ps) last nullable span) :=
        List.mem_append_right _ (List.mem_singleton_self _)
      have hps (q : TypePart) (hq : q ∈ ps) :
          (q, false) ∈ TypeExpr.parts (.mk (p :: ps) last nullable span) :=
        List.mem_append_left _ (List.mem_map_of_mem (f := (·, false)) (List.mem_cons_of_mem _ hq))
      have hpart := reads_typePart (hnested _ hp) (hshort _ hp) false
      rw [nullableGlyphs, if_neg Bool.false_ne_true, List.append_nil] at hpart
      rw [List.length_cons] at hcount
      rw [firstsGlyphs, List.append_assoc]
      refine hpart.bind (fun part hpart => ?_) fun _ _ => endsPart_or
      have hrounds := takes_orRounds nullable
        (List.forall_mem_cons.2 ⟨hnested _ hlast, fun q hq => hnested _ (hps q hq)⟩)
        (List.forall_mem_cons.2 ⟨hshort _ hlast, fun q hq => hshort _ (hps q hq)⟩)
        (by omega : ps.length < fuel) [part]
      exact hrounds.last (fun parts hparts => reads_typeSpecList rfl hpart hparts) fun _ hg => hg

end Parse

end MonkeyFormat
