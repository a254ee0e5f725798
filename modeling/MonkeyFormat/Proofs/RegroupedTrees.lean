import MonkeyFormat.Proofs.ClosingAngles
import MonkeyFormat.Proofs.OperatorNesting
import MonkeyFormat.Proofs.ParsedSpans

set_option autoImplicit false

/-! # Any grouping of closing angles gives the same tree

Every production comes to the same result when closing angles are joined. Where a type or an
expression has to start, a closing angle makes it fail; behind an operand a double angle would be
taken for a shift where a single one is a comparison, but a comparison with an angle fails. -/

namespace MonkeyFormat

/-! ## The closing angles of a source -/

namespace Lexeme

/-- Only one spelling is a closing angle. -/
theorem text_of_greater {cs taken : List Char}
    (h : front? cs = some (.greater, taken)) : String.ofList taken = ">" := by
  have htext {s : String} (hs : TokenKind.ofText? s = some .greater) : s = ">" := by
    have hall : ∀ r ∈ reserved, TokenKind.ofText? r = some .greater → r = ">" := by
      decide +kernel
    exact hall s (mem_reserved_of_ofText? hs) hs
  cases cs with
  | nil => cases h
  | cons c cs =>
    rw [front?] at h
    split at h
    · cases hword : TokenKind.ofText? (String.ofList (word (c :: cs))) with
      | none =>
        rw [hword] at h
        cases h
      | some kind =>
        rw [hword] at h
        cases h
        exact htext hword
    split at h
    · next hdigit =>
      split at h
      · next hnumeral =>
        cases h
        rcases (numeral_eq hdigit hnumeral).1 with hkind | hkind <;> cases hkind
      · cases h
    split at h
    · split at h
      · split at h <;> cases h
      · cases h
    · cases hsymbol : symbol? (c :: cs) with
      | none =>
        rw [hsymbol] at h
        cases h
      | some found =>
        rw [hsymbol] at h
        cases h
        exact htext (symbol?_eq_some hsymbol)

end Lexeme

/-- Closing angles that a source has side by side, each as a token of its own, can be joined. -/
theorem adjoins_of_tokenize {source : String} {origin : Option String} {tokens : List Token}
    {comments : List Comment} (h : tokenize source origin = .ok (tokens, comments))
    {first second : Token} (hfirst : first ∈ tokens) (hsecond : second ∈ tokens)
    (hangle : first.kind = .greater) (hangle' : second.kind = .greater)
    (hnext : second.span.start = first.span.stop) : first.Adjoins second := by
  have htext {t : Token} (ht : t ∈ tokens) (hkind : t.kind = .greater) : t.text = ">" := by
    rcases tokenize_front h t ht with hend | ⟨cs, taken, hfront, htaken⟩
    · rw [hkind] at hend
      cases hend
    · rw [htaken]
      exact Lexeme.text_of_greater (hkind ▸ hfront)
  have hplaced := (tokenize_placed h).1
  have hcoherent := (hplaced first hfirst).coherent
  obtain ⟨lx, hlexes, rfl⟩ := tokenize_eq_ok.1 h
  obtain ⟨tiles, htiles⟩ := Lexer.tiling_tokensWith hlexes
  have hcovered : first.span.textIn source.toList = ['>'] := by
    have htile : first.text.toList = first.span.textIn source.toList :=
      htiles.texts _ (htiles.mem_tiles hfirst (by rw [hangle]; decide))
    rw [← htile, htext hfirst hangle]
    rfl
  obtain ⟨-, hplace⟩ := hcoherent.next hcovered (by decide)
  have hstop : first.span.stop = first.span.start + 1 := by
    have hlength := congrArg List.length hcovered
    rw [Span.textIn, List.length_take, List.length_drop, List.length_singleton] at hlength
    have hnonneg := hcoherent.nonneg
    have hwithin := hcoherent.within
    omega
  have hlast : first.span.last = ⟨first.span.line, first.span.col + 1, first.span.start + 1⟩ := by
    rw [hcoherent.last, hplace, hstop]
  have hbehind : second.span.first = first.span.last := by
    rw [(hplaced second hsecond).coherent.first, hcoherent.last, hnext]
  exact ⟨⟨hangle, htext hfirst hangle⟩, ⟨hangle', htext hsecond hangle'⟩,
    ⟨hstop, congrArg Place.line hlast, congrArg Place.column hlast⟩, hnext,
    congrArg Place.line hbehind, congrArg Place.column hbehind⟩

namespace Parse

/-! ## Names and types -/

theorem copies_identifier : Copies identifier :=
  (copies_expect (by decide)).bind fun _ => copies_finish _ _ _

theorem balks_identifier : Balks identifier := (balks_expect (by decide)).bind

theorem copies_member (object property : Node) : Copies (member object property) :=
  copies_finish _ _ _

theorem copies_scopedName (fuel : Nat) : Copies (scopedName fuel) := by
  refine copies_identifier.bind (copies_loop (fun n => ?_) fuel)
  refine (copies_skip (by decide) (by decide)).bind fun b => .ite ?_ (copies_pure _)
  exact copies_identifier.bind fun m => (copies_member n m).bind fun _ => copies_pure _

theorem balks_scopedName (fuel : Nat) : Balks (scopedName fuel) := balks_identifier.bind

/-- A double angle is taken apart into the single ones that it covers. -/
theorem copies_closeAngle : Copies closeAngle := by
  intro p q h _ a p' hrun
  refine ⟨trivial, ?_⟩
  rcases h.cases with hlevel | ⟨first, second, hadjoins, ts, us, hp, hq, rest⟩
  · unfold closeAngle at hrun ⊢
    rw [run_bind_ok _ (run_current p)] at hrun
    rw [run_bind_ok _ (run_current q), hlevel.head_eq]
    split at hrun
    · obtain ⟨t, r, hadvance, hr⟩ := run_bind_eq_ok hrun
      obtain ⟨s, hs, hrs⟩ := advance_level h hlevel hadvance
      rw [run_bind_ok _ hs]
      cases hr
      exact ⟨s, rfl, hrs⟩
    · cases hrun
      exact ⟨_, rfl, .keep _ hlevel.tail, rfl, h.source, h.origin⟩
    · cases hrun
  · -- the run on single angles consumes the first one, the other one splits the double angle
    have hp' :
        p' = { p with seen := first :: p.seen, rest := second :: ts, last := some first } := by
      unfold closeAngle at hrun
      rw [run_bind_ok _ (run_current p), Parser.head, hp, List.headD_cons, hadjoins.firstAngle.1,
        run_bind_ok _ (run_advance_cons hp (by rw [hadjoins.firstAngle.1]; decide))] at hrun
      cases hrun
      rfl
    have hq' : closeAngle.run.run q =
        (.ok (), { q with rest := second :: us, last := some first }) := by
      unfold closeAngle
      rw [run_bind_ok _ (run_current q), Parser.head, hq, List.headD_cons]
      change (Except.ok (), { q with rest := _ :: q.rest.drop 1, last := some _ }) = _
      rw [hq, ← hadjoins.firstHalf, ← hadjoins.secondHalf]
      rfl
    subst hp'
    exact ⟨_, hq', .keep second rest, rfl, h.source, h.origin⟩

theorem copies_generics {types : Parse Node} (fuel : Nat) (htypes : Copies types) :
    Copies (generics fuel types) := by
  refine (copies_skip (by decide) (by decide)).bind fun b => .ite ?_ (copies_pure none)
  refine htypes.bind fun n => (copies_loop (fun acc => ?_) fuel [n]).bind fun ns =>
    copies_closeAngle.bind fun _ => copies_pure _
  refine (copies_skip (by decide) (by decide)).bind fun b => .ite ?_ (copies_pure _)
  exact htypes.bind fun m => copies_pure _

section Nested

variable {types : Parse Node} (htypes : Copies types)
include htypes

theorem copies_typedIdentifier : Copies (typedIdentifier types) := by
  refine copies_identifier.bind fun n => ?_
  refine (copies_skip (by decide) (by decide)).bind fun b => .ite ?_ (copies_pure n)
  exact htypes.bind fun ts => copies_finish _ _ _

theorem copies_params (fuel : Nat) : Copies (params fuel types) := by
  refine (copies_expect (by decide)).bind fun _ => ?_
  refine (copies_commaList fuel (by decide) (by decide) (copies_typedIdentifier htypes)).bind ?_
  exact fun ns => (copies_expect (by decide)).bind fun _ => copies_pure ns

theorem copies_returnType : Copies (returnType types) := by
  refine (copies_accept (by decide) (by decide)).bind fun o => ?_
  cases o with
  | none => exact copies_pure none
  | some t => exact htypes.bind fun ts => (copies_finish _ _ _).bind fun n => copies_pure _

theorem copies_callableType (fuel : Nat) : CopiesWhole (callableType fuel types) := by
  refine mimics_advance.bind fun first => copies_identifier.bind fun name => ?_
  refine .current (fun t _ => (balks_expect (by decide)).bind.bind) fun t _ => ?_
  refine (copies_params htypes fuel).bind fun ps => (copies_returnType htypes).bind fun result => ?_
  exact (copies_finish _ _ _).bind fun call => (copies_expect (by decide)).bind fun _ =>
    copies_finish _ _ _

omit htypes in
theorem balks_singleType (fuel : Nat) : Balks (singleType fuel types) := by
  refine .current fun t ht => .second fun u => ?_
  rw [ht, if_neg (by simp), if_neg (by decide)]
  exact (balks_scopedName fuel).bind

theorem copies_singleType (fuel : Nat) : Copies (singleType fuel types) := by
  refine .current (fun t ht => .second fun u => ?_) fun t ht => ?_
  · rw [ht, if_neg (by simp), if_neg (by decide)]
    exact (balks_scopedName fuel).bind
  have hwhole : ∀ p : Parser, True ∧ p.head = t → p.Whole := fun p hp => by
    rw [Parser.Whole, hp.2]
    exact ht
  refine .second hwhole (fun u v _ hu _ hv => ?_) fun u => ?_
  · rw [hu, hv]
    rfl
  extract_lets nullable
  have hnullable : ∀ n, Copies (nullable n) := by
    intro n
    refine (mimics_nextIs (by decide) (by decide)).bind fun b => ?_
    have hmarked : CopiesWhole (advance >>= fun _ =>
        finish "TypeSpecPart" t.span (Fields.insert n.fields "nullable" (.bool true))) :=
      mimics_advance.bind fun _ => copies_finish _ _ _
    cases b with
    | false => exact .second_unused (fun _ => rfl) (copies_pure n)
    | true =>
      have hquestion : ∀ p : Parser, (true = true → p.head.kind = .question) → p.Whole :=
        fun p hp => by
          rw [Parser.Whole, hp rfl]
          decide
      refine .second hquestion (fun v w hv _ hw _ => by rw [hv, hw]; rfl) fun v => ?_
      exact .ite (hmarked.weaken hquestion) (copies_pure n)
  refine .ite (((copies_callableType htypes fuel).weaken hwhole).bind fun n => hnullable n) ?_
  refine .ite (Mimics.bind (mimics_complain _ _) fun n => hnullable n) ?_
  refine (copies_scopedName fuel).bind fun name => (copies_generics fuel htypes).bind fun gs => ?_
  exact (copies_finish _ _ _).bind fun n => hnullable n

theorem copies_typeList (fuel : Nat) : Copies (typeList fuel types) := by
  refine .current (fun _ _ => (balks_singleType fuel).bind) fun t ht => ?_
  refine (copies_singleType htypes fuel).bind fun part => (copies_loop (fun acc => ?_) fuel _).bind
    fun parts => copies_finish _ _ _
  refine (mimics_atText (by decide) (by decide)).bind fun b => ?_
  cases b with
  | false => exact copies_pure _
  | true =>
    refine Mimics.bind (mimics_advance.weaken fun p hp => ?_) fun _ =>
      (copies_singleType htypes fuel).bind fun n => copies_pure _
    rw [Parser.Whole, hp rfl]
    decide

end Nested

theorem copies_types (fuel : Nat) : Copies (types fuel) := by
  induction fuel with
  | zero => exact mimics_throw _
  | succ fuel ih => exact copies_typeList ih (fuel + 1)

/-! ## Expressions -/

/-- A suffix is consumed only where an identifier comes next. -/
theorem copies_byteSuffix : Copies byteSuffix := by
  refine .current_same (fun t u ht hu => by simp [ht, hu]) fun t => ?_
  refine .get (fun p q h _ => by rw [h.last]) fun r => ?_
  split
  · split
    · next hb =>
      simp only [Bool.and_eq_true, decide_eq_true_eq] at hb
      refine Mimics.bind (mimics_advance_at (t := t) ?_ fun p hp => hp.2) fun _ => copies_pure _
      rw [hb.1.1]
      decide
    · exact copies_pure none
  · exact copies_pure none

section Nested

variable {expr : Parse Node} (hexpr : Copies expr)
include hexpr

theorem copies_arguments (fuel : Nat) : Copies (arguments fuel expr) := by
  refine (copies_expect (by decide)).bind fun _ => ?_
  refine (copies_commaList fuel (by decide) (by decide) hexpr).bind fun ns => ?_
  exact (copies_expect (by decide)).bind fun _ => copies_pure ns

theorem copies_array (fuel : Nat) : CopiesWhole (array fuel expr) := by
  refine mimics_advance.bind fun first => ?_
  refine (copies_commaList fuel (by decide) (by decide) hexpr).bind fun ns => ?_
  refine (copies_expect (by decide)).bind fun _ => copies_byteSuffix.bind fun byte => ?_
  exact copies_finish _ _ _

theorem copies_entry : Copies (entry expr) := by
  refine hexpr.bind fun key => (copies_expect (by decide)).bind fun _ => ?_
  exact hexpr.bind fun value => copies_finish _ _ _

theorem copies_dictionary (fuel : Nat) : CopiesWhole (dictionary fuel expr) := by
  refine mimics_advance.bind fun first => ?_
  refine (copies_commaList fuel (by decide) (by decide) (copies_entry hexpr)).bind fun ns => ?_
  exact (copies_expect (by decide)).bind fun _ => copies_finish _ _ _

theorem copies_sizedArray (first : Token) (ts : Option Node) :
    Copies (sizedArray expr first ts) := by
  refine (copies_expect (by decide)).bind fun _ => hexpr.bind fun size => ?_
  refine (copies_expect (by decide)).bind fun _ => copies_byteSuffix.bind fun byte => ?_
  exact copies_finish _ _ _

theorem copies_construction (fuel : Nat) : CopiesWhole (construction fuel expr) := by
  refine mimics_advance.bind fun first => ?_
  refine (mimics_nextIs (by decide) (by decide)).bind fun b =>
    .ite (copies_sizedArray hexpr _ _).at ?_
  refine .current (fun _ _ => (balks_scopedName fuel).bind) fun typeFirst _ => ?_
  refine (copies_scopedName fuel).bind fun name => ?_
  refine (copies_generics fuel (copies_types fuel)).bind fun gs => ?_
  refine .current_same (fun t u ht hu => by rw [ht, hu]; rfl) fun t => .ite ?_ ?_
  · extract_lets call
    have hcall (r : PUnit) : Copies (call r) :=
      (copies_arguments hexpr fuel).bind fun args => copies_finish _ _ _
    exact .ite (Mimics.bind (mimics_complain _ _) hcall) (hcall ()).at
  · exact (copies_finish _ _ _).bind fun ts => copies_sizedArray hexpr _ _

omit hexpr in
theorem balks_primary (fuel : Nat) : Balks (primary fuel expr) := by
  refine .current fun t ht => ?_
  rw [ht]
  exact balks_complain _ _

theorem copies_primary (fuel : Nat) : Copies (primary fuel expr) := by
  refine .current (fun t ht => by rw [ht]; exact balks_complain _ _) fun t ht => ?_
  have hnext {β : Type} {f : Token → Parse β} (hf : ∀ u, Copies (f u)) :
      Mimics (fun p => True ∧ p.head = t) (advance >>= f) fun _ _ => True :=
    Mimics.bind (mimics_advance_at ht fun p hp => hp.2) hf
  have hwhole : ∀ p : Parser, True ∧ p.head = t → p.Whole := fun p hp => by
    rw [Parser.Whole, hp.2]
    exact ht
  split
  · exact copies_identifier.at
  · exact hnext fun _ => copies_finish _ _ _
  · exact hnext fun _ => hexpr.bind fun n => (copies_expect (by decide)).bind fun _ => copies_pure n
  · exact (copies_array hexpr fuel).weaken hwhole
  · exact (copies_dictionary hexpr fuel).weaken hwhole
  · exact hnext fun _ => copies_identifier.bind fun name => copies_finish _ _ _
  · exact (copies_construction hexpr fuel).weaken hwhole
  · refine .ite (hnext fun _ => ?_) (mimics_complain _ _)
    cases Literal.value t.kind t.text with
    | error e => exact mimics_throw e
    | ok v => exact copies_finish _ _ _

omit hexpr in
theorem balks_postfixed (fuel : Nat) : Balks (postfixed fuel expr) := (balks_primary fuel).bind

theorem copies_postfixed (fuel : Nat) : Copies (postfixed fuel expr) := by
  refine (copies_primary hexpr fuel).bind (copies_loop (fun n => ?_) fuel)
  refine .current_same (fun t u ht hu => by rw [ht, hu]) fun t => ?_
  have hwhole (ht : t.kind ≠ .greater) : ∀ p : Parser, True ∧ p.head = t → p.Whole := fun p hp => by
    rw [Parser.Whole, hp.2]
    exact ht
  split
  · next hkind =>
    refine Mimics.bind (mimics_advance.weaken (hwhole (by rw [hkind]; decide))) fun _ => ?_
    exact copies_identifier.bind fun m => (copies_member n m).bind fun _ => copies_pure _
  · next hkind =>
    refine Mimics.bind (mimics_advance.weaken (hwhole (by rw [hkind]; decide))) fun _ => ?_
    exact hexpr.bind fun property => (copies_expect (by decide)).bind fun _ =>
      (copies_finish _ _ _).bind fun _ => copies_pure _
  · exact (copies_arguments hexpr fuel).bind fun args => (copies_finish _ _ _).bind fun _ =>
      copies_pure _
  · next hkind =>
    refine Mimics.bind (mimics_advance.weaken (hwhole (by rw [hkind]; decide))) fun _ => ?_
    exact (copies_finish _ _ _).bind fun _ => copies_pure _
  · exact copies_pure _

omit hexpr in
theorem copies_foldl_prefixed (ops : List Token) (n : Node) :
    Copies (ops.foldlM (fun n op => prefixed op n) n) := by
  induction ops generalizing n with
  | nil => exact copies_pure n
  | cons op ops ih =>
    rw [List.foldlM_cons]
    exact (copies_finish _ _ _).bind fun m => ih m

omit hexpr in
theorem balks_unary (fuel : Nat) : Balks (unary fuel expr) := by
  refine Idles.balks_loop ?_ (balks_postfixed fuel).bind
  exact (idles_atAny (by decide) (by decide)).bind (idles_pure _)

theorem copies_unary (fuel : Nat) : Copies (unary fuel expr) := by
  refine (copies_loop (fun acc => ?_) fuel []).bind fun ops =>
    (copies_postfixed hexpr fuel).bind fun operand => copies_foldl_prefixed ops operand
  refine (mimics_atAny (by decide) (by decide)).bind fun b => ?_
  cases b with
  | false => exact copies_pure _
  | true =>
    refine Mimics.bind (mimics_advance.weaken fun p hp hgreater => ?_) fun op => copies_pure _
    have hmem := hp rfl
    rw [hgreater] at hmem
    exact absurd hmem (by decide)

/-! ### Binary operators -/

omit hexpr in
theorem balks_binary (fuel depth : Nat) (maxRank : Int) :
    Balks (binary fuel expr depth maxRank) := by
  cases depth with
  | zero => exact balks_throw _
  | succ depth => exact (balks_unary fuel).bind

end Nested

/-- A closing angle comes next, and behind it another one. -/
def Stuck (p : Parser) : Prop :=
  ∃ t u ts, p.rest = t :: u :: ts ∧ (t.kind = .greater ∧ t.text = ">") ∧ u.kind = .greater

section Stuck

variable {α β : Type} {fuel depth : Nat} {expr : Parse Node} {maxRank : Int} {left : Node}
  {p q p' : Parser}

/-- The production comes to the same result, unless it stops before two closing angles. -/
def Nears (m : Parse α) : Prop :=
  ∀ p q, p.Regroups q → ∀ a p', m.run.run p = (.ok a, p') →
    (∃ q', m.run.run q = (.ok a, q') ∧ p'.Regroups q') ∨ Stuck p'

theorem Copies.nears {m : Parse α} (hm : Copies m) : Nears m := fun p q h a p' hrun =>
  .inl (hm p q h trivial a p' hrun).2

/-- What comes behind stops where it is before two closing angles. -/
theorem Nears.bind {m : Parse α} {f : α → Parse β} (hm : Nears m) (hf : ∀ a, Nears (f a))
    (hstuck : ∀ a p b p', Stuck p → (f a).run.run p = (.ok b, p') → Stuck p') :
    Nears (m >>= f) := by
  intro p q h b p' hrun
  obtain ⟨a, r, ha, hb⟩ := run_bind_eq_ok hrun
  rcases hm p q h a r ha with ⟨s, hs, hrs⟩ | hstray
  · rw [run_bind_ok f hs]
    exact hf a r s hrs b p' hb
  · exact .inr (hstuck a r b p' hstray hb)

theorem binaryOperator_of_stuck (h : Stuck p) :
    binaryOperator.run.run p = (.ok (some ">"), p) := by
  obtain ⟨t, u, ts, hrest, ⟨hkind, htext⟩, hu⟩ := h
  unfold binaryOperator
  rw [run_bind_ok _ (run_current p), Parser.head, hrest, List.headD_cons, hkind, htext]
  rfl

/-- A comparison with a closing angle fails, so before two of them no more operators follow. -/
theorem binaryStep_of_stuck {r : Node × Bool} (h : Stuck p)
    (hrun : (binaryStep fuel expr depth maxRank left).run.run p = (.ok r, p')) :
    r = (left, false) ∧ p' = p ∧ maxRank < 30 := by
  have hop := binaryOperator_of_stuck h
  obtain ⟨t, u, ts, hrest, ⟨hkind, htext⟩, hu⟩ := h
  unfold binaryStep at hrun
  rw [run_bind_ok _ hop] at hrun
  change (if maxRank < 30 then pure (left, false) else _ : Parse (Node × Bool)).run.run p =
    _ at hrun
  by_cases hrank : maxRank < 30
  · rw [if_pos hrank] at hrun
    cases hrun
    exact ⟨rfl, rfl, hrank⟩
  · rw [if_neg hrank, run_bind_ok _ (run_advance_cons hrest (by rw [hkind]; decide))] at hrun
    exact absurd hrun ((balks_binary fuel depth 29).bind
      { p with seen := t :: p.seen, rest := u :: ts, last := some t } hu r p')

theorem loop_of_stuck (h : Stuck p) {rounds : Nat} {n : Node}
    (hrun : (loop (binaryStep fuel expr depth maxRank) rounds left).run.run p = (.ok n, p')) :
    p' = p ∧ maxRank < 30 := by
  cases rounds with
  | zero => cases hrun
  | succ rounds =>
    obtain ⟨r, p₁, hstep, hdone⟩ := run_bind_eq_ok hrun
    obtain ⟨rfl, rfl, hrank⟩ := binaryStep_of_stuck h hstep
    cases hdone
    exact ⟨rfl, hrank⟩

/-- The operator that comes next is the same in both runs, if the next token is. -/
theorem nears_binaryStep (hright : ∀ rank, Nears (binary fuel expr depth rank)) (maxRank : Int)
    (left : Node) : Nears (binaryStep fuel expr depth maxRank left) := by
  intro p q h r p' hrun
  rcases h.cases with hlevel | ⟨first, second, hsplit⟩
  · unfold binaryStep binaryOperator at hrun ⊢
    rw [bind_assoc, run_bind_ok _ (run_current p)] at hrun
    rw [bind_assoc, run_bind_ok _ (run_current q), hlevel.head_eq]
    simp only [pure_bind] at hrun ⊢
    generalize (Option.bind _ _ : Option (String × Int)) = op? at hrun ⊢
    cases op? with
    | none =>
      cases hrun
      exact .inl ⟨q, rfl, h⟩
    | some found =>
      obtain ⟨op, rank⟩ := found
      dsimp only at hrun ⊢
      split at hrun
      · next hrank =>
        cases hrun
        rw [if_pos hrank]
        exact .inl ⟨q, rfl, h⟩
      · next hrank =>
        rw [if_neg hrank]
        obtain ⟨t, p₁, hadvance, hrun⟩ := run_bind_eq_ok hrun
        obtain ⟨q₁, hq₁, h₁⟩ := advance_level h hlevel hadvance
        rw [run_bind_ok _ hq₁]
        -- what is done with the right operand is the same in all three branches
        have hrest {m : Parse Node} (hm : Nears m) : Nears (m >>= fun right =>
            finish "BinaryExpression" left.span
              [("operator", .str op), ("left", .node left), ("right", .node right)] >>=
                fun n => pure (n, true)) := by
          refine hm.bind (fun n => ?_) fun n p b p' hp hrun => ?_
          · exact Copies.nears ((copies_finish _ _ _).bind fun _ => copies_pure _)
          · cases hrun
            exact hp
        split at hrun
        · next hop =>
          rw [if_pos hop]
          exact hrest (copies_types fuel).nears p₁ q₁ h₁ r p' hrun
        · next hop =>
          rw [if_neg hop]
          split at hrun
          · next hop =>
            rw [if_pos hop]
            exact hrest (copies_scopedName fuel).nears p₁ q₁ h₁ r p' hrun
          · next hop =>
            rw [if_neg hop]
            exact hrest (hright _) p₁ q₁ h₁ r p' hrun
  · obtain ⟨ts, us, hp, hq, rest⟩ := hsplit.tokens
    have hstuck : Stuck p := ⟨first, second, ts, hp, hsplit.adjoins.firstAngle,
      hsplit.adjoins.secondAngle.1⟩
    obtain ⟨-, rfl, -⟩ := binaryStep_of_stuck hstuck hrun
    exact .inr hstuck

theorem nears_loop (hstep : ∀ n, Nears (binaryStep fuel expr depth maxRank n)) (rounds : Nat) :
    ∀ n, Nears (loop (binaryStep fuel expr depth maxRank) rounds n) := by
  induction rounds with
  | zero =>
    intro n p q _ a p' hrun
    cases hrun
  | succ rounds ih =>
    refine fun n => (hstep n).bind ?_ ?_
    · rintro ⟨m, more⟩
      cases more with
      | false => exact Copies.nears (copies_pure m)
      | true => exact ih m
    · rintro ⟨m, more⟩ p b p' hp hrun
      cases more with
      | false =>
        cases hrun
        exact hp
      | true =>
        rw [(loop_of_stuck hp hrun).1]
        exact hp

theorem nears_binary (hexpr : Copies expr) (fuel depth : Nat) :
    ∀ maxRank, Nears (binary fuel expr depth maxRank) := by
  induction depth with
  | zero =>
    intro maxRank p q _ a p' hrun
    cases hrun
  | succ depth ih =>
    intro maxRank
    refine (copies_unary hexpr fuel).nears.bind (nears_loop (nears_binaryStep ih maxRank) fuel) ?_
    intro n p m p' hp hrun
    rw [(loop_of_stuck hp hrun).1]
    exact hp

/-- Where no operator is taken, nothing is consumed. -/
theorem binaryStep_done {n : Node}
    (hrun : (binaryStep fuel expr depth maxRank left).run.run p = (.ok (n, false), p')) :
    p' = p := by
  unfold binaryStep binaryOperator at hrun
  rw [bind_assoc, run_bind_ok _ (run_current p)] at hrun
  simp only [pure_bind] at hrun
  generalize (Option.bind _ _ : Option (String × Int)) = op? at hrun
  cases op? with
  | none =>
    cases hrun
    rfl
  | some found =>
    obtain ⟨op, rank⟩ := found
    dsimp only at hrun
    split at hrun
    · cases hrun
      rfl
    · obtain ⟨t, p₁, -, hrun⟩ := run_bind_eq_ok hrun
      have hmore {m : Parse Node} {p : Parser} (hrun : (m >>= fun right =>
          finish "BinaryExpression" left.span
            [("operator", .str op), ("left", .node left), ("right", .node right)] >>=
              fun n => pure (n, true)).run.run p = (.ok (n, false), p')) : False := by
        obtain ⟨right, p₂, -, hrun⟩ := run_bind_eq_ok hrun
        cases hrun
      split at hrun
      · exact (hmore hrun).elim
      · split at hrun
        · exact (hmore hrun).elim
        · exact (hmore hrun).elim

theorem loop_not_stuck (hrank : ¬ maxRank < 30) (rounds : Nat) : ∀ {left n : Node} {p p' : Parser},
    (loop (binaryStep fuel expr depth maxRank) rounds left).run.run p = (.ok n, p') →
      ¬ Stuck p' := by
  induction rounds with
  | zero =>
    intro left n p p' hrun
    cases hrun
  | succ rounds ih =>
    intro left n p p' hrun hstuck
    obtain ⟨⟨m, more⟩, p₁, hstep, hdone⟩ := run_bind_eq_ok hrun
    cases more with
    | false =>
      cases hdone
      rw [binaryStep_done hstep] at hstuck
      exact hrank (binaryStep_of_stuck hstuck hstep).2.2
    | true => exact ih hdone hstuck

/-- Where a comparison may follow, an operand does not end before two closing angles. -/
theorem copies_binary (hexpr : Copies expr) (fuel depth : Nat) (hrank : ¬ maxRank < 30) :
    Copies (binary fuel expr depth maxRank) := by
  intro p q h _ n p' hrun
  refine ⟨trivial, (nears_binary hexpr fuel depth maxRank p q h n p' hrun).resolve_right ?_⟩
  cases depth with
  | zero => cases hrun
  | succ depth =>
    obtain ⟨first, p₁, -, hloop⟩ := run_bind_eq_ok hrun
    exact loop_not_stuck hrank fuel hloop

end Stuck

/-! ### Looser operators -/

theorem copies_logical {operand : Parse Node} (hoperand : Copies operand) (fuel : Nat)
    {kind : TokenKind} (hgreater : kind ≠ .greater) (hshift : kind ≠ .shiftRight) :
    Copies (logical fuel kind operand) := by
  refine hoperand.bind (copies_loop (fun left => ?_) fuel)
  refine (copies_accept hgreater hshift).bind fun o => ?_
  cases o with
  | none => exact copies_pure _
  | some op =>
    exact hoperand.bind fun right => (copies_finish _ _ _).bind fun _ => copies_pure _

section Nested

variable {expr : Parse Node} (hexpr : Copies expr)
include hexpr

theorem copies_disjunction (fuel : Nat) : Copies (disjunction fuel expr) := by
  refine copies_logical ?_ fuel (by decide) (by decide)
  refine copies_logical ?_ fuel (by decide) (by decide)
  exact copies_binary hexpr fuel fuel (by decide)

omit hexpr in
theorem balks_disjunction (fuel : Nat) : Balks (disjunction fuel expr) :=
  (balks_binary fuel fuel loosestRank).bind.bind

theorem copies_conditional (fuel : Nat) : Copies (conditional fuel expr) := by
  refine (copies_disjunction hexpr fuel).bind fun test => ?_
  refine (copies_skip (by decide) (by decide)).bind fun b => .ite ?_ (copies_pure test)
  refine hexpr.bind fun consequent => (copies_expect (by decide)).bind fun _ => ?_
  exact hexpr.bind fun alternate => copies_finish _ _ _

omit hexpr in
theorem balks_assignment (fuel : Nat) : Balks (assignment fuel expr) :=
  (balks_disjunction fuel).bind.bind

theorem copies_assignment (fuel : Nat) : Copies (assignment fuel expr) := by
  refine (copies_conditional hexpr fuel).bind fun left => ?_
  refine .current_same (fun t u ht hu => by rw [ht, hu]; rfl) fun op => ?_
  split
  · next hop =>
    have hwhole : ∀ p : Parser, True ∧ p.head = op → p.Whole := fun p hp => by
      rw [Parser.Whole, hp.2, hop]
      decide
    extract_lets assigned
    have hassigned (r : PUnit) : CopiesWhole (assigned r) :=
      mimics_advance.bind fun _ => hexpr.bind fun right => copies_finish _ _ _
    exact .ite (Mimics.bind (mimics_complain _ _) hassigned) ((hassigned ()).weaken hwhole)
  · exact copies_pure left

end Nested

theorem copies_expression (fuel : Nat) : Copies (expression fuel) := by
  induction fuel with
  | zero => exact mimics_throw _
  | succ fuel ih => exact copies_assignment ih (fuel + 1)

theorem balks_expression (fuel : Nat) : Balks (expression fuel) := by
  cases fuel with
  | zero => exact balks_throw _
  | succ fuel => exact balks_assignment (fuel + 1)

theorem copies_sequence (fuel : Nat) : Copies (sequence fuel) := by
  refine (copies_expression fuel).bind fun first => ?_
  refine (mimics_nextIs (by decide) (by decide)).bind fun b => .ite ?_ (copies_pure first)
  refine Copies.at ((copies_loop (fun acc => ?_) fuel [first]).bind fun ns => copies_finish _ _ _)
  refine (copies_skip (by decide) (by decide)).bind fun b => .ite ?_ (copies_pure _)
  exact (copies_expression fuel).bind fun n => copies_pure _

/-! ## Statements -/

theorem copies_some {m : Parse Node} (hm : Copies m) : Copies (some <$> m) := hm.map

theorem copies_declarator (fuel : Nat) (kind : String) : Copies (declarator fuel kind) := by
  refine (copies_typedIdentifier (copies_types fuel)).bind fun name => ?_
  refine (mimics_atText (by decide) (by decide)).bind fun b => ?_
  extract_lets declared
  have hdeclared (init : Option Node) : Copies (declared init) := copies_finish _ _ _
  cases b with
  | false => exact Copies.at (copies_pure none |>.bind hdeclared)
  | true =>
    refine Mimics.bind (mimics_advance.weaken fun p hp => ?_) fun _ =>
      (copies_some (copies_expression fuel)).bind hdeclared
    rw [Parser.Whole, hp rfl]
    decide

theorem copies_variableList (fuel : Nat) (first : Span) (attrs : Option Node) :
    CopiesWhole (variableList fuel first attrs) := by
  refine mimics_advance.bind fun kind => ?_
  refine (copies_loop (fun acc => ?_) fuel []).bind fun ns => copies_finish _ _ _
  exact (copies_declarator fuel kind.text).bind fun n =>
    (copies_skip (by decide) (by decide)).bind fun more => copies_pure _

theorem copies_variablesStatement (fuel : Nat) (first : Span) (attrs : Option Node) :
    CopiesWhole (variablesStatement fuel first attrs) :=
  (copies_variableList fuel first attrs).bind fun _ => (copies_expect (by decide)).bind fun _ =>
    copies_finish _ _ _

theorem copies_parenTest (fuel : Nat) : Copies (parenTest fuel) :=
  (copies_expect (by decide)).bind fun _ => (copies_expression fuel).bind fun n =>
    (copies_expect (by decide)).bind fun _ => copies_pure n

theorem copies_caseTest (fuel : Nat) : Copies (caseTest fuel) := by
  refine (copies_accept (by decide) (by decide)).bind fun o => ?_
  cases o with
  | none => exact copies_expression fuel
  | some t => exact (copies_scopedName fuel).bind fun name => copies_finish _ _ _

theorem copies_catchParam (fuel : Nat) : Copies (catchParam fuel) := by
  refine copies_identifier.bind fun name => ?_
  refine (copies_skip (by decide) (by decide)).bind fun b => .ite ?_ (copies_pure name)
  exact (copies_scopedName fuel).bind fun kind => copies_finish _ _ _

theorem copies_returnStatement (fuel : Nat) : CopiesWhole (returnStatement fuel) := by
  refine mimics_advance.bind fun first => (mimics_nextIs (by decide) (by decide)).bind fun b => ?_
  extract_lets returned
  have hreturned (argument : Option Node) : Copies (returned argument) :=
    (copies_expect (by decide)).bind fun _ => copies_finish _ _ _
  exact .ite ((copies_pure none).bind hreturned)
    (Copies.at ((copies_some (copies_expression fuel)).bind hreturned))

theorem copies_throwStatement (fuel : Nat) : CopiesWhole (throwStatement fuel) :=
  mimics_advance.bind fun _ => (copies_expression fuel).bind fun _ =>
    (copies_expect (by decide)).bind fun _ => copies_finish _ _ _

theorem copies_jump : CopiesWhole jump :=
  mimics_advance.bind fun _ => (copies_expect (by decide)).bind fun _ => copies_finish _ _ _

theorem copies_expressionStatement (fuel : Nat) : Copies (expressionStatement fuel) :=
  .current (fun _ _ => (balks_expression fuel).bind) fun _ _ =>
    (copies_expression fuel).bind fun _ => (copies_expect (by decide)).bind fun _ =>
      copies_finish _ _ _

section Nested

variable {stmt : Parse Node} (hstmt : Copies stmt)
include hstmt

theorem copies_block (fuel : Nat) : Copies (block fuel stmt) :=
  (copies_expect (by decide)).bind fun _ => (copies_bodyUntilBrace fuel hstmt).bind fun _ =>
    copies_finish _ _ _

theorem copies_ifStatement (fuel : Nat) : CopiesWhole (ifStatement fuel stmt) := by
  refine mimics_advance.bind fun first => (copies_parenTest fuel).bind fun test => ?_
  refine hstmt.bind fun consequent => (copies_skip (by decide) (by decide)).bind fun b => ?_
  extract_lets chosen
  have hchosen (alternate : Option Node) : Copies (chosen alternate) := copies_finish _ _ _
  exact .ite ((copies_some hstmt).bind hchosen) ((copies_pure none).bind hchosen)

theorem copies_whileStatement (fuel : Nat) : CopiesWhole (whileStatement fuel stmt) :=
  mimics_advance.bind fun _ => (copies_parenTest fuel).bind fun _ => hstmt.bind fun _ =>
    copies_finish _ _ _

theorem copies_doStatement (fuel : Nat) : CopiesWhole (doStatement fuel stmt) :=
  mimics_advance.bind fun _ => hstmt.bind fun _ => (copies_expect (by decide)).bind fun _ =>
    (copies_parenTest fuel).bind fun _ => (copies_expect (by decide)).bind fun _ =>
      copies_finish _ _ _

theorem copies_forStatement (fuel : Nat) : CopiesWhole (forStatement fuel stmt) := by
  refine mimics_advance.bind fun first => (copies_expect (by decide)).bind fun _ => ?_
  refine .current_same (fun t u ht hu => by rw [ht, hu]; rfl) fun t => ?_
  extract_lets tested
  have htested (init : Option Node) : Copies (tested init) := by
    refine (copies_expect (by decide)).bind fun _ => ?_
    refine (mimics_nextIs (by decide) (by decide)).bind fun b => ?_
    extract_lets updated
    have hupdated (test : Option Node) : Copies (updated test) := by
      refine (copies_expect (by decide)).bind fun _ => ?_
      refine (mimics_nextIs (by decide) (by decide)).bind fun b => ?_
      extract_lets closed
      have hclosed (update : Option Node) : Copies (closed update) :=
        (copies_expect (by decide)).bind fun _ => hstmt.bind fun _ => copies_finish _ _ _
      exact .ite ((copies_pure none).bind hclosed)
        (Copies.at ((copies_some (copies_sequence fuel)).bind hclosed))
    exact .ite ((copies_pure none).bind hupdated)
      (Copies.at ((copies_some (copies_expression fuel)).bind hupdated))
  split
  · next hvar =>
    refine Mimics.bind (((copies_variableList fuel t.span none).map).weaken fun p hp => ?_) htested
    rw [Parser.Whole, hp.2, hvar]
    decide
  · exact .ite ((copies_pure none).bind htested)
      (Copies.at ((copies_some (copies_sequence fuel)).bind htested))

theorem copies_switchCase (fuel : Nat) : Copies (switchCase fuel stmt) := by
  refine .current (fun t ht => ?_) fun t ht => ?_
  · rw [ht]
    exact (balks_complain _ _).bind
  extract_lets rest
  have hrest (test : Option Node) : Copies (rest test) := by
    refine (copies_expect (by decide)).bind fun _ => ?_
    exact (copies_many fuel (mimics_atAny (by decide) (by decide)) hstmt).bind fun ns =>
      copies_finish _ _ _
  have hnext : Mimics (fun p => True ∧ p.head = t) advance fun _ _ => True :=
    mimics_advance_at ht fun p hp => hp.2
  split
  · exact Mimics.bind hnext fun _ => (copies_some (copies_caseTest fuel)).bind hrest
  · exact Mimics.bind hnext fun _ => (copies_pure none).bind hrest
  · exact Mimics.bind (mimics_complain _ _) hrest

theorem copies_switchStatement (fuel : Nat) : CopiesWhole (switchStatement fuel stmt) := by
  refine mimics_advance.bind fun first => (copies_parenTest fuel).bind fun discriminant => ?_
  refine (copies_expect (by decide)).bind fun _ => ?_
  have hcases := copies_switchCase hstmt fuel
  exact (copies_many fuel (mimics_nextIs (by decide) (by decide)) hcases).bind fun cases =>
    (copies_expect (by decide)).bind fun _ => copies_finish _ _ _

theorem copies_catchClause (fuel : Nat) : CopiesWhole (catchClause fuel stmt) := by
  refine mimics_advance.bind fun first => (copies_skip (by decide) (by decide)).bind fun b => ?_
  extract_lets rest
  have hrest (param : Option Node) : Copies (rest param) :=
    (copies_block hstmt fuel).bind fun _ => copies_finish _ _ _
  refine .ite ?_ ((copies_pure none).bind hrest)
  exact (copies_catchParam fuel).bind fun n => (copies_expect (by decide)).bind fun _ =>
    (copies_pure _).bind hrest

theorem copies_tryStatement (fuel : Nat) : CopiesWhole (tryStatement fuel stmt) := by
  refine mimics_advance.bind fun first => (copies_block hstmt fuel).bind fun body => ?_
  have hstop : Mimics (fun _ => True) (do pure !(← nextIs .catchWord)) fun b p =>
      b = false → p.head.kind = .catchWord :=
    (mimics_nextIs (by decide) (by decide)).bind fun b => .pure fun p hp hb =>
      hp (by simpa using hb)
  have hclause := (copies_catchClause hstmt fuel).weaken
    fun (p : Parser) (hp : false = false → p.head.kind = .catchWord) => by
      rw [Parser.Whole, hp rfl]
      decide
  refine Mimics.bind (mimics_many fuel hstop hclause) fun catches => ?_
  refine (copies_skip (by decide) (by decide)).bind fun b => ?_
  extract_lets finalized
  have hfinalized (finalizer : Option Node) : Copies (finalized finalizer) :=
    .ite (.current (fun _ _ => (balks_complain _ _).bind) fun _ _ =>
      Mimics.bind (mimics_complain _ _) fun _ => copies_finish _ _ _) (copies_finish _ _ _)
  exact .ite ((copies_some (copies_block hstmt fuel)).bind hfinalized)
    ((copies_pure none).bind hfinalized)

theorem copies_statementWith (fuel : Nat) : Copies (statementWith fuel stmt) := by
  refine .current_same (fun t u ht hu => by rw [ht, hu]) fun t => ?_
  have hwhole (ht : t.kind ≠ .greater) : ∀ p : Parser, True ∧ p.head = t → p.Whole := fun p hp => by
    rw [Parser.Whole, hp.2]
    exact ht
  split
  · exact (copies_block hstmt fuel).at
  · next hkind => exact (copies_ifStatement hstmt fuel).weaken (hwhole (by rw [hkind]; decide))
  · next hkind => exact (copies_whileStatement hstmt fuel).weaken (hwhole (by rw [hkind]; decide))
  · next hkind => exact (copies_doStatement hstmt fuel).weaken (hwhole (by rw [hkind]; decide))
  · next hkind => exact (copies_forStatement hstmt fuel).weaken (hwhole (by rw [hkind]; decide))
  · next hkind => exact (copies_switchStatement hstmt fuel).weaken (hwhole (by rw [hkind]; decide))
  · next hkind => exact (copies_tryStatement hstmt fuel).weaken (hwhole (by rw [hkind]; decide))
  · next hkind => exact (copies_returnStatement fuel).weaken (hwhole (by rw [hkind]; decide))
  · next hkind => exact (copies_throwStatement fuel).weaken (hwhole (by rw [hkind]; decide))
  · next hkind => exact copies_jump.weaken (hwhole (by rw [hkind]; decide))
  · next hkind => exact copies_jump.weaken (hwhole (by rw [hkind]; decide))
  · next hkind =>
    exact (copies_variablesStatement fuel _ _).weaken (hwhole (by rw [hkind]; decide))
  · next hkind =>
    exact (copies_variablesStatement fuel _ _).weaken (hwhole (by rw [hkind]; decide))
  · exact (copies_expressionStatement fuel).at

end Nested

theorem copies_statement (fuel : Nat) : Copies (statement fuel) := by
  induction fuel with
  | zero => exact mimics_throw _
  | succ fuel ih => exact copies_statementWith ih (fuel + 1)

/-! ## Declarations -/

theorem copies_usingDeclaration (fuel : Nat) : CopiesWhole (usingDeclaration fuel) := by
  refine mimics_advance.bind fun first => (copies_scopedName fuel).bind fun name => ?_
  refine (copies_skip (by decide) (by decide)).bind fun b => ?_
  extract_lets named
  have hnamed (shortName : Option Node) : Copies (named shortName) :=
    (copies_expect (by decide)).bind fun _ => copies_finish _ _ _
  exact .ite ((copies_some copies_identifier).bind hnamed) ((copies_pure none).bind hnamed)

theorem copies_importDeclaration (fuel : Nat) : CopiesWhole (importDeclaration fuel) :=
  mimics_advance.bind fun _ => (copies_scopedName fuel).bind fun _ =>
    (copies_expect (by decide)).bind fun _ => copies_finish _ _ _

theorem copies_attributes (fuel : Nat) : CopiesWhole (attributes fuel) := by
  refine mimics_advance.bind fun first => ?_
  have helement := copies_postfixed (copies_expression fuel) fuel
  exact (copies_commaList fuel (by decide) (by decide) helement).bind fun ns =>
    (copies_expect (by decide)).bind fun _ => copies_finish _ _ _

theorem copies_accessWords (fuel : Nat) : Copies (accessWords fuel) := by
  refine (copies_loop (fun acc => ?_) fuel []).bind fun ws => copies_pure _
  refine (copies_accept (by decide) (by decide)).bind fun o => ?_
  cases o with
  | none => exact copies_pure _
  | some t => exact copies_pure _

theorem idles_accessWords (fuel : Nat) : Idles (accessWords (fuel + 1)) [] := by
  have hword : Idles (accept .access) none := idles_accept (by decide) (by decide)
  exact Idles.bind (Idles.bind (hword.bind (idles_pure _)) (idles_pure _)) (idles_pure _)

/-- Where closing angles come next, there are no attributes. -/
theorem copies_attributeList (fuel : Nat) : Copies (attributeList (fuel + 1)) := by
  refine .current_idles (b := none) (fun t ht => ?_) fun t => ?_
  · have hparen : t.kind ≠ .leftParen := by
      rcases ht with ht | ht <;> rw [ht] <;> decide
    rw [if_neg hparen]
    exact (idles_pure none).bind ((idles_accessWords fuel).bind (idles_pure none))
  extract_lets listed
  have hlisted (attrs : Option Node) : Copies (listed attrs) := by
    refine (copies_accessWords (fuel + 1)).bind fun words => .ite (copies_pure none) ?_
    exact copies_some (copies_finish _ _ _)
  split
  · next hparen =>
    refine Mimics.bind ((copies_attributes (fuel + 1)).map.weaken fun p hp => ?_) hlisted
    rw [Parser.Whole, hp.2, hparen]
    decide
  · exact (copies_pure none).bind hlisted

section Attributed

variable {first : Span} {attrs : Option Node}

theorem copies_moduleDeclaration {item : Parse Node} (hitem : Copies item) (fuel : Nat) :
    CopiesWhole (moduleDeclaration fuel item first attrs) :=
  mimics_advance.bind fun _ => copies_identifier.bind fun _ =>
    (copies_expect (by decide)).bind fun _ => (copies_bodyUntilBrace fuel hitem).bind fun _ =>
      (copies_finish _ _ _).bind fun _ => copies_finish _ _ _

theorem copies_classDeclaration {item : Parse Node} (hitem : Copies item) (fuel : Nat) :
    CopiesWhole (classDeclaration fuel item first attrs) := by
  refine mimics_advance.bind fun _ => copies_identifier.bind fun name => ?_
  refine (copies_skip (by decide) (by decide)).bind fun b => ?_
  extract_lets based
  have hbased (base : Option Node) : Copies (based base) :=
    (copies_expect (by decide)).bind fun _ => (copies_bodyUntilBrace fuel hitem).bind fun _ =>
      (copies_finish _ _ _).bind fun _ => copies_finish _ _ _
  exact .ite ((copies_some (copies_scopedName fuel)).bind hbased) ((copies_pure none).bind hbased)

theorem copies_functionDeclaration (fuel : Nat) :
    CopiesWhole (functionDeclaration fuel first attrs) := by
  refine mimics_advance.bind fun _ => copies_identifier.bind fun name => ?_
  refine (copies_params (copies_types fuel) fuel).bind fun ps => ?_
  refine (copies_returnType (copies_types fuel)).bind fun result => ?_
  refine (copies_skip (by decide) (by decide)).bind fun b => ?_
  extract_lets bodied
  have hbodied (body : Option Node) : Copies (bodied body) := copies_finish _ _ _
  exact .ite ((copies_pure none).bind hbodied)
    ((copies_some (copies_block (copies_statement fuel) fuel)).bind hbodied)

theorem copies_enumMember (fuel : Nat) : Copies (enumMember fuel) := by
  refine copies_identifier.bind fun name => ?_
  refine (mimics_atText (by decide) (by decide)).bind fun b => ?_
  cases b with
  | false => exact copies_pure name
  | true =>
    refine Mimics.bind (mimics_advance.weaken fun p hp => ?_) fun _ =>
      (copies_expression fuel).bind fun init => copies_finish _ _ _
    rw [Parser.Whole, hp rfl]
    decide

theorem copies_enumDeclaration (fuel : Nat) : CopiesWhole (enumDeclaration fuel first attrs) := by
  refine mimics_advance.bind fun _ => (mimics_nextIs (by decide) (by decide)).bind fun b => ?_
  extract_lets named
  have hnamed (name : Option Node) : Copies (named name) := by
    refine (copies_expect (by decide)).bind fun opening => ?_
    refine (copies_commaList fuel (by decide) (by decide) (copies_enumMember fuel)).bind
      fun ns => ?_
    exact (copies_expect (by decide)).bind fun _ => (copies_finish _ _ _).bind fun body =>
      (copies_finish _ _ _).bind fun n => (copies_skip (by decide) (by decide)).bind fun _ =>
        copies_pure n
  exact .ite (Copies.at ((copies_some copies_identifier).bind hnamed))
    ((copies_pure none).bind hnamed)

theorem copies_typedefDeclaration (fuel : Nat) :
    CopiesWhole (typedefDeclaration fuel first attrs) := by
  refine mimics_advance.bind fun _ => copies_identifier.bind fun name => ?_
  refine (copies_returnType (copies_types fuel)).bind fun o => ?_
  cases o with
  | none => exact .current (fun _ _ => balks_complain _ _) fun _ _ => mimics_complain _ _
  | some ts => exact (copies_expect (by decide)).bind fun _ => copies_finish _ _ _

end Attributed

theorem copies_classElementOf {item : Parse Node} (hitem : Copies item) :
    Copies (classElementOf item) := hitem.bind fun _ => copies_pure _

theorem copies_declarations (fuel : Nat) :
    (∀ allowModule, Copies (declaration allowModule fuel)) ∧ Copies (topLevel fuel) := by
  induction fuel with
  | zero =>
    constructor
    · intro allowModule
      rw [declaration]
      exact mimics_throw _
    · rw [topLevel]
      exact mimics_throw _
  | succ fuel ih =>
    constructor
    · intro allowModule
      rw [declaration]
      refine (copies_attributeList fuel).bind fun attrs => .current (fun t ht => ?_) fun t ht => ?_
      · rw [ht]
        exact balks_complain _ _
      extract_lets first
      have hwhole : ∀ p : Parser, True ∧ p.head = t → p.Whole := fun p hp => by
        rw [Parser.Whole, hp.2]
        exact ht
      split
      · exact (copies_classDeclaration (copies_classElementOf (ih.1 false)) _).weaken hwhole
      · exact (copies_functionDeclaration _).weaken hwhole
      · exact (copies_variablesStatement _ _ _).weaken hwhole
      · exact (copies_variablesStatement _ _ _).weaken hwhole
      · exact (copies_enumDeclaration _).weaken hwhole
      · exact (copies_typedefDeclaration _).weaken hwhole
      · exact .ite ((copies_moduleDeclaration ih.2 _).weaken hwhole) (mimics_complain _ _)
    · rw [topLevel]
      refine .current_same (fun t u ht hu => by rw [ht, hu]) fun t => ?_
      have hwhole (ht : t.kind ≠ .greater) : ∀ p : Parser, True ∧ p.head = t → p.Whole :=
        fun p hp => by
          rw [Parser.Whole, hp.2]
          exact ht
      split
      · next hkind =>
        exact (copies_usingDeclaration _).weaken (hwhole (by rw [hkind]; decide))
      · next hkind =>
        exact (copies_importDeclaration _).weaken (hwhole (by rw [hkind]; decide))
      · exact (ih.1 true).at

/-! ## Whole sources -/

theorem mimics_programOf (body : List Node) : CopiesWhole (programOf body) :=
  .get (fun p q h hp => by rw [(h.level hp).head_eq, h.source]) fun _ => copies_pure _

theorem copies_fueled {production : Nat → Parse Node} (h : ∀ fuel, Copies (production fuel)) :
    Copies (fueled production) :=
  .get (fun p q hpq _ => by rw [hpq.weight_eq]) fun _ => h _

/-- Nodes up to the end, and the root over them. -/
theorem copies_whole {item : Parse Node} (hitem : Copies item) (fuel : Nat) :
    Copies (many fuel (nextIs .endOfInput) item >>= programOf) := by
  refine Mimics.bind (mimics_many fuel (mimics_nextIs (by decide) (by decide)) hitem.at)
    fun ns => ?_
  refine (mimics_programOf ns).weaken fun p hp => ?_
  rw [Parser.Whole, hp rfl]
  decide

theorem copies_startRule (o : Options) : Copies (startRule o) := by
  unfold startRule
  split
  · exact copies_fueled fun fuel => copies_whole (copies_declarations _).2 fuel
  · refine copies_fueled fun fuel => (copies_expression fuel).bind fun n => ?_
    exact (copies_expect (by decide)).bind fun _ => copies_pure n
  · refine copies_fueled fun fuel => ?_
    refine .ite ?_ (.ite ?_ (mimics_throw _))
    · exact copies_whole (copies_classElementOf ((copies_declarations _).1 false)) fuel
    · exact copies_whole (copies_statement fuel) fuel

/-- A list of tokens that is accepted is accepted with any pairs of closing angles joined, and as
the same tree. -/
theorem startRule_regrouped {ts us : List Token} (h : Regrouped ts us) {o : Options}
    {source : String} {origin : Option String} {root : Node} {p : Parser}
    (hrun : (startRule o).run.run (.start ts source origin) = (.ok root, p)) :
    ∃ q, (startRule o).run.run (.start us source origin) = (.ok root, q) :=
  have hstart : (Parser.start ts source origin).Regroups (.start us source origin) :=
    ⟨h, rfl, rfl, rfl⟩
  have ⟨_, q, hq, _⟩ := copies_startRule o _ _ hstart trivial root p hrun
  ⟨q, hq⟩

/-- The tokens of `a as b<c<d>>`, whose closing angles are the given ones. -/
def nestedGenerics (angles : List Token) : List Token :=
  [⟨.ident, "a", ⟨0, 1, 1, 1, 1, 2⟩⟩, ⟨.asWord, "as", ⟨2, 4, 1, 3, 1, 5⟩⟩,
    ⟨.ident, "b", ⟨5, 6, 1, 6, 1, 7⟩⟩, ⟨.less, "<", ⟨6, 7, 1, 7, 1, 8⟩⟩,
    ⟨.ident, "c", ⟨7, 8, 1, 8, 1, 9⟩⟩, ⟨.less, "<", ⟨8, 9, 1, 9, 1, 10⟩⟩,
    ⟨.ident, "d", ⟨9, 10, 1, 10, 1, 11⟩⟩] ++ angles ++ [⟨.endOfInput, "", ⟨12, 12, 1, 13, 1, 13⟩⟩]

theorem startRule_regrouped_nestedGenerics :
    ∃ first second : Token, first.Adjoins second ∧
      Regrouped (nestedGenerics [first, second]) (nestedGenerics [first.joined second]) ∧
      ∃ root p q,
        (startRule { rule := .expression }).run.run
          (.start (nestedGenerics [first, second]) "a as b<c<d>>" none) = (.ok root, p) ∧
        (startRule { rule := .expression }).run.run
          (.start (nestedGenerics [first.joined second]) "a as b<c<d>>" none) = (.ok root, q) := by
  let first : Token := ⟨.greater, ">", ⟨10, 11, 1, 11, 1, 12⟩⟩
  let second : Token := ⟨.greater, ">", ⟨11, 12, 1, 12, 1, 13⟩⟩
  have hadjoins : first.Adjoins second :=
    ⟨⟨rfl, rfl⟩, ⟨rfl, rfl⟩, ⟨rfl, rfl, rfl⟩, rfl, rfl, rfl⟩
  have hgroups : Regrouped (nestedGenerics [first, second])
      (nestedGenerics [first.joined second]) :=
    .keep _ (.keep _ (.keep _ (.keep _ (.keep _ (.keep _ (.keep _
      (.join hadjoins (.refl _))))))))
  refine ⟨first, second, hadjoins, hgroups, ?_⟩
  have hparses : ((startRule { rule := .expression }).run.run
      (.start (nestedGenerics [first, second]) "a as b<c<d>>" none)).1.toBool = true := by
    decide +kernel
  cases h : (startRule { rule := .expression }).run.run
      (.start (nestedGenerics [first, second]) "a as b<c<d>>" none) with
  | mk outcome p =>
    cases outcome with
    | error fault =>
      rw [h] at hparses
      cases hparses
    | ok root =>
      obtain ⟨q, hq⟩ := startRule_regrouped hgroups h
      exact ⟨root, p, q, rfl, hq⟩

end Parse

end MonkeyFormat
