import MonkeyFormat.Proofs.AlikeParses

set_option autoImplicit false

/-! # The same tokens give the same tree

Every production goes the same way over the same tokens, places aside; those that can end in a
bracket may stop before a `b` that only one run takes. -/

namespace MonkeyFormat

namespace Parse

/-! ## Names and types -/

theorem matches_identifier : Matches identifier identifier Node.Like := by
  refine (matches_expect _ _).bind fun t t' ht => ?_
  rw [ht.text]
  exact agree_node ⟨rfl, .str _, trivial⟩ (by decide) rfl

theorem matches_member {n n' m m' : Node} (hn : n.Like n') (hm : m.Like m') :
    Matches (member n m) (member n' m') Node.Like :=
  agree_node ⟨rfl, .node hn, rfl, .node hm, rfl, .bool _, trivial⟩ (by decide) rfl

theorem matches_scopedName (fuel : Nat) :
    Matches (scopedName fuel) (scopedName fuel) Node.Like := by
  refine matches_identifier.bind (matches_loop _ (fun n n' hn => ?_) fuel)
  refine (matches_skip _).bind ?_
  rintro b _ rfl
  refine .ite Iff.rfl ?_ (.pure ⟨hn, rfl⟩)
  refine matches_identifier.bind fun m m' hm => ?_
  exact (matches_member hn hm).bind fun _ _ h => .pure ⟨h, rfl⟩

theorem matches_closeAngle : Matches closeAngle closeAngle fun _ _ => True := by
  refine matches_current.bind fun t t' ht => ?_
  rw [← ht.kind]
  split
  · exact matches_advance.bind fun _ _ _ => .pure trivial
  · intro p p' hp a q a' q' hrun hrun'
    cases hrun
    cases hrun'
    have hsound : Glyph.Sound ⟨.greater, ">"⟩ := fun hkind => absurd hkind (by decide)
    exact .inl ⟨List.Forall₂.cons ⟨rfl, hsound⟩ (List.forall₂_drop 1 hp), trivial⟩
  · exact agree_complain _ _ _ _

/-- Generic arguments that are alike, or none in both places. -/
abbrev GenericsLike (o o' : Option (List Node)) : Prop := Option.Rel AllLike o o'

theorem matches_generics {types types' : Parse Node} (fuel : Nat)
    (htypes : Matches types types' Node.Like) :
    Matches (generics fuel types) (generics fuel types') GenericsLike := by
  refine (matches_skip _).bind ?_
  rintro b _ rfl
  refine .ite Iff.rfl ?_ (.pure .none)
  refine htypes.bind fun n n' hn => ?_
  refine (matches_loop AllLike (fun acc acc' hacc => ?_) fuel [n] [n'] (.cons hn .nil)).bind
    fun ns ns' hns => matches_closeAngle.bind fun _ _ _ => .pure (.some hns.reverse)
  refine (matches_skip _).bind ?_
  rintro b _ rfl
  refine .ite Iff.rfl ?_ (.pure ⟨hacc, rfl⟩)
  exact htypes.bind fun m m' hm => .pure ⟨.cons hm hacc, rfl⟩

theorem like_generics {o o' : Option (List Node)} (h : GenericsLike o o') :
    (genericsField o).Like (genericsField o') := by
  cases h with
  | none => exact .null
  | some h => exact .nodes h

/-- Parts of types that are alike. -/
abbrev PartLike (n m : Node) : Prop := n.Like m ∧ n.kind = "TypeSpecPart"

theorem agree_part {S : Node → Parser → Prop} {first first' : Span} {fs gs : Fields}
    (h : Fields.Like fs gs) (hfields : properFields "TypeSpecPart" fs = true) :
    Agree S (finish "TypeSpecPart" first fs) (finish "TypeSpecPart" first' gs) PartLike :=
  agree_finish fun s t => ⟨.of_fields h (by decide) hfields s t, rfl⟩

section Nested

variable {types types' : Parse Node} (htypes : Matches types types' Node.Like)
include htypes

theorem matches_typedIdentifier :
    Matches (typedIdentifier types) (typedIdentifier types') Node.Like := by
  refine matches_identifier.bind fun n n' hn => ?_
  refine (matches_skip _).bind ?_
  rintro b _ rfl
  refine .ite Iff.rfl ?_ (.pure hn)
  refine htypes.bind fun ts ts' hts => ?_
  exact agree_node ⟨rfl, .str _, rfl, .node hn, rfl, .node hts, trivial⟩ (by decide) rfl

theorem matches_params (fuel : Nat) : Matches (params fuel types) (params fuel types') AllLike := by
  refine (matches_expect _ _).bind fun _ _ _ => ?_
  refine (nearly_commaList fuel _ (matches_typedIdentifier htypes).loosen).close (by decide) ?_
  exact fun ns ns' hns => (matches_expect _ _).bind fun _ _ _ => .pure hns

theorem matches_returnType : Matches (returnType types) (returnType types') OptionLike := by
  refine (matches_accept _).bind fun o o' ho => ?_
  cases ho with
  | none => exact .pure .none
  | some ht =>
    refine htypes.bind fun ts ts' hts => ?_
    refine Matches.bind (agree_node ⟨rfl, .str _, rfl, .node hts, rfl, .bool _, trivial⟩
      (by decide) rfl) fun n n' hn => .pure (.some hn)

theorem matches_callableType (fuel : Nat) :
    Matches (callableType fuel types) (callableType fuel types') PartLike := by
  refine matches_advance.bind fun _ _ _ => matches_identifier.bind fun n n' hn => ?_
  refine matches_current.bind fun _ _ _ => (matches_params htypes fuel).bind fun ps ps' hps => ?_
  refine (matches_returnType htypes).bind fun o o' ho => ?_
  refine Matches.bind (agree_node ⟨rfl, .str _, rfl, .str _, rfl, .nodes hps, rfl, .optional ho,
    trivial⟩ (by decide) rfl) fun c c' hc => ?_
  exact (matches_expect _ _).bind fun _ _ _ =>
    agree_part ⟨rfl, .node hn, rfl, .node hc, trivial⟩ rfl

theorem matches_singleType (fuel : Nat) :
    Matches (singleType fuel types) (singleType fuel types') Node.Like := by
  refine matches_current.bind fun t t' ht => matches_second.bind fun u u' hu => ?_
  extract_lets nullable nullable'
  have hnullable : ∀ n n', PartLike n n' → Matches (nullable n) (nullable' n') Node.Like := by
    rintro n n' ⟨hn, hpart⟩
    refine (matches_nextIs _).bind ?_
    rintro b _ rfl
    refine matches_second.bind fun v v' hv => ?_
    refine .ite (by rw [hv.kind]) ?_ (.pure hn)
    refine matches_advance.bind fun _ _ _ => agree_finish fun s s' => ?_
    rw [← hpart]
    exact hn.insert (v := .bool true) (by rw [hpart]; decide) (by decide) trivial rfl s s'
  refine .ite (by rw [ht.kind, hu.text]) ((matches_callableType htypes fuel).bind hnullable) ?_
  refine .ite (by rw [ht.kind]) (Matches.bind (agree_complain _ _ _ _) hnullable) ?_
  refine (matches_scopedName fuel).bind fun n n' hn => ?_
  refine (matches_generics fuel htypes).bind fun gs gs' hgs => ?_
  exact Matches.bind (agree_part ⟨rfl, .node hn, rfl, like_generics hgs, trivial⟩ rfl) hnullable

theorem matches_typeList (fuel : Nat) :
    Matches (typeList fuel types) (typeList fuel types') Node.Like := by
  refine matches_current.bind fun _ _ _ => (matches_singleType htypes fuel).bind fun n n' hn => ?_
  refine (matches_loop AllLike (fun acc acc' hacc => ?_) fuel [n] [n'] (.cons hn .nil)).bind
    fun ns ns' hns => ?_
  · refine (matches_atText _ _).bind ?_
    rintro b _ rfl
    refine .ite Iff.rfl (matches_advance.bind fun _ _ _ => ?_) (.pure ⟨hacc, rfl⟩)
    exact (matches_singleType htypes fuel).bind fun m m' hm => .pure ⟨.cons hm hacc, rfl⟩
  · exact agree_node ⟨rfl, .nodes hns.reverse, trivial⟩ (by decide) rfl

end Nested

theorem matches_types (fuel : Nat) : Matches (types fuel) (types fuel) Node.Like := by
  induction fuel with
  | zero => exact agree_throw _ _
  | succ fuel ih => exact matches_typeList ih (fuel + 1)

/-! ## Expressions -/

/-- A byte suffix is taken from a state in which an identifier comes next, or the state stays. -/
theorem run_byteSuffix {p q : Parser} {o : Option String}
    (hrun : byteSuffix.run.run p = (.ok o, q)) :
    (o = none ∧ q = p) ∨
      (o = some "b" ∧ p.AtName ∧ ∃ t : Token, advance.run.run p = (.ok t, q)) := by
  unfold byteSuffix at hrun
  rw [run_bind_ok _ (run_current p)] at hrun
  obtain ⟨_, _, hget, hrun⟩ := run_bind_eq_ok hrun
  cases hget
  split at hrun
  · split at hrun
    · next hb =>
      obtain ⟨t, r, hadvance, hr⟩ := run_bind_eq_ok hrun
      cases hr
      simp only [Bool.and_eq_true, decide_eq_true_eq] at hb
      exact .inr ⟨rfl, hb.1.1, t, hadvance⟩
    · cases hrun
      exact .inl ⟨rfl, rfl⟩
  · cases hrun
    exact .inl ⟨rfl, rfl⟩

/-- Of two runs behind a bracket, one may leave a `b` that the other takes. -/
theorem nearly_byteSuffix : Nearly byteSuffix byteSuffix Eq := by
  intro p p' hp o q o' q' hrun hrun'
  have hname : p.AtName ↔ p'.AtName := by rw [Parser.AtName, Parser.AtName, hp.head.kind]
  rcases run_byteSuffix hrun with ⟨rfl, rfl⟩ | ⟨rfl, hat, t, ht⟩
  · rcases run_byteSuffix hrun' with ⟨rfl, rfl⟩ | ⟨rfl, hat', t', ht'⟩
    · exact .inl ⟨hp, rfl⟩
    · exact .inr (.inl (hname.2 hat'))
  · rcases run_byteSuffix hrun' with ⟨rfl, rfl⟩ | ⟨rfl, hat', t', ht'⟩
    · exact .inr (.inr (hname.1 hat))
    · rcases matches_advance p p' hp t q t' q' ht ht' with ⟨hq, _⟩ | h | h
      · exact .inl ⟨hq, rfl⟩
      · exact h.elim
      · exact h.elim

/-- The value of a literal is no tree. -/
theorem value_eq_ok {kind : TokenKind} {raw : String} {v : Value}
    (h : Literal.value kind raw = .ok v) : v.Plain ∧ v.holdsNode = false := by
  unfold Literal.value at h
  split at h
  · obtain ⟨digits, _, h⟩ := bind_eq_ok h
    obtain ⟨n, _, h⟩ := bind_eq_ok h
    cases h
    exact ⟨trivial, rfl⟩
  · obtain ⟨digits, _, h⟩ := bind_eq_ok h
    obtain ⟨x, _, h⟩ := bind_eq_ok h
    cases h
    exact ⟨trivial, rfl⟩
  · cases h
    exact ⟨trivial, rfl⟩
  · cases h
    exact ⟨trivial, rfl⟩
  · split at h
    all_goals cases h
    all_goals exact ⟨trivial, rfl⟩

/-- Of literals only numbers are spelled like whole numbers, and these hold what they spell. -/
theorem kept_literal {t : Token} (ht : t.glyph.Sound)
    (hkind : t.kind ∈ [TokenKind.number, .float, .string, .char, .literal]) {v : Value}
    (hv : Literal.value t.kind t.text = .ok v) (span : Span) :
    Literal.Kept ⟨"Literal", span, [("value", v), ("raw", .str t.text)]⟩ := by
  intro _ raw hraw hshape
  obtain rfl : t.text = raw := Value.str.inj hraw
  rcases List.mem_cons.1 hkind with hnumber | hother
  · rw [hnumber] at hv
    exact Literal.value_whole hv hshape
  · rw [show Literal.isWholeShaped t.text = false from ht hother] at hshape
    cases hshape

theorem matches_literal {t t' : Token} (ht : t.Like t')
    (hkind : t.kind ∈ [TokenKind.number, .float, .string, .char, .literal]) :
    Matches (do
        let v ← Literal.value t.kind t.text
        finish "Literal" t.span [("value", v), ("raw", .str t.text)])
      (do
        let v ← Literal.value t'.kind t'.text
        finish "Literal" t'.span [("value", v), ("raw", .str t'.text)]) Node.Like := by
  rw [← ht.kind, ← ht.text]
  cases hv : Literal.value t.kind t.text with
  | error e => exact agree_throw e e
  | ok v =>
    change Matches (finish "Literal" t.span [("value", v), ("raw", .str t.text)])
      (finish "Literal" t'.span [("value", v), ("raw", .str t.text)]) Node.Like
    obtain ⟨hplain, hnone⟩ := value_eq_ok hv
    have hfields : properFields "Literal" [("value", v), ("raw", .str t.text)] = true := by
      have hraw : (Value.str t.text).holdsNode = false := rfl
      exact (properFields_iff rfl).2 ⟨rfl, by simp [hnone, hraw]⟩
    refine agree_finish fun s s' => ⟨⟨hfields, kept_literal ht.sound hkind hv s, ?_⟩, rfl⟩
    exact ⟨hplain, trivial, trivial⟩

theorem matches_prefixed {op op' : Token} (hop : op.Like op') {n n' : Node} (hn : n.Like n') :
    Matches (prefixed op n) (prefixed op' n') Node.Like := by
  unfold prefixed
  rw [hop.kind, hop.text]
  split <;>
    exact agree_node ⟨rfl, .str _, rfl, .node hn, rfl, .bool _, trivial⟩ (by decide) rfl

theorem matches_binaryOperator : Matches binaryOperator binaryOperator Eq :=
  matches_current.bind fun t t' ht => .pure (by rw [ht.kind, ht.text])

theorem nearly_logical {operand operand' : Parse Node}
    (hoperand : Nearly operand operand' Node.Like) (fuel : Nat) {kind : TokenKind}
    (hkind : kind ≠ .ident) :
    Nearly (logical fuel kind operand) (logical fuel kind operand') Node.Like := by
  refine nearly_chain Node.Like hoperand (fun n n' hn => ?_) (fun n => ?_) (fun n => ?_) fuel
  · refine (matches_accept kind).bind fun o o' ho => ?_
    cases ho with
    | none => exact .pure ⟨hn, rfl⟩
    | some ht =>
      dsimp only
      rw [ht.text]
      refine Nearly.bind hoperand (fun m m' hm => ?_) (fun _ => ?_) fun _ => ?_
      · exact Matches.bind (agree_node ⟨rfl, .str _, rfl, .node hn, rfl, .node hm, trivial⟩
          (by decide) rfl) fun _ _ h => .pure ⟨h, rfl⟩
      · exact (stays_finish _ _ _).bind fun _ => .pure fun _ h => h
      · exact (stays_finish _ _ _).bind fun _ => .pure fun _ h => h
  · exact .accept hkind (.pure fun p hp => ⟨rfl, hp⟩)
  · exact .accept hkind (.pure fun p hp => ⟨rfl, hp⟩)

theorem like_byte (o : Option String) : (byteField o).Like (byteField o) := by
  cases o with
  | none => exact .null
  | some s => exact .str s

section Nested

variable {expr expr' : Parse Node} (hexpr : Nearly expr expr' Node.Like)
include hexpr

theorem matches_arguments (fuel : Nat) :
    Matches (arguments fuel expr) (arguments fuel expr') AllLike := by
  refine (matches_expect _ _).bind fun _ _ _ => ?_
  refine (nearly_commaList fuel _ hexpr).close (by decide) fun ns ns' hns => ?_
  exact (matches_expect _ _).bind fun _ _ _ => .pure hns

theorem nearly_array (fuel : Nat) : Nearly (array fuel expr) (array fuel expr') Node.Like := by
  refine matches_advance.bind fun _ _ _ => ?_
  refine (nearly_commaList fuel _ hexpr).close (by decide) fun ns ns' hns => ?_
  refine (matches_expect _ _).bind fun _ _ _ => ?_
  refine nearly_byteSuffix.bind ?_ (fun _ => stays_finish _ _ _) fun _ => stays_finish _ _ _
  rintro o _ rfl
  exact agree_node ⟨rfl, .nodes hns, rfl, like_byte o, trivial⟩ (by decide) (by cases o <;> rfl)

theorem nearly_entry : Nearly (entry expr) (entry expr') Node.Like := by
  refine Nearly.close hexpr (by decide) fun key key' hkey =>
    (matches_expect _ _).bind fun _ _ _ => ?_
  refine Nearly.bind hexpr (fun v v' hv => ?_) (fun _ => stays_finish _ _ _) fun _ =>
    stays_finish _ _ _
  exact agree_node ⟨rfl, .node hkey, rfl, .node hv, rfl, .str _, trivial⟩ (by decide) rfl

theorem matches_dictionary (fuel : Nat) :
    Matches (dictionary fuel expr) (dictionary fuel expr') Node.Like := by
  refine matches_advance.bind fun _ _ _ => ?_
  refine (nearly_commaList fuel _ (nearly_entry hexpr)).close (by decide) fun ns ns' hns => ?_
  refine (matches_expect _ _).bind fun _ _ _ => ?_
  exact agree_node ⟨rfl, .nodes hns, trivial⟩ (by decide) rfl

theorem nearly_sizedArray {first first' : Token} {ts ts' : Option Node} (hts : OptionLike ts ts') :
    Nearly (sizedArray expr first ts) (sizedArray expr' first' ts') Node.Like := by
  refine (matches_expect _ _).bind fun _ _ _ => ?_
  refine Nearly.close hexpr (by decide) fun n n' hn => (matches_expect _ _).bind fun _ _ _ => ?_
  refine nearly_byteSuffix.bind ?_ (fun _ => stays_finish _ _ _) fun _ => stays_finish _ _ _
  rintro o _ rfl
  exact agree_node ⟨rfl, .node hn, rfl, .optional hts, rfl, like_byte o, trivial⟩ (by decide)
    (by cases o <;> rfl)

theorem nearly_construction (fuel : Nat) :
    Nearly (construction fuel expr) (construction fuel expr') Node.Like := by
  refine matches_advance.bind fun _ _ _ => (matches_nextIs _).bind ?_
  rintro b _ rfl
  refine .ite Iff.rfl (nearly_sizedArray hexpr .none) ?_
  refine matches_current.bind fun _ _ _ => (matches_scopedName fuel).bind fun n n' hn => ?_
  refine (matches_generics fuel (matches_types fuel)).bind fun gs gs' hgs => ?_
  refine matches_current.bind fun t t' ht => .ite (by rw [ht.kind]) ?_ ?_
  · extract_lets call call'
    have hcall (r r' : PUnit) : Nearly (call r) (call' r') Node.Like := by
      refine (matches_arguments hexpr fuel).bind fun args args' hargs => ?_
      exact agree_node ⟨rfl, .node hn, rfl, .nodes hargs, trivial⟩ (by decide) rfl
    have hsome : gs.isSome = gs'.isSome := by cases hgs <;> rfl
    refine .ite (by rw [hsome]) ?_ (hcall () ())
    exact agree_complained fun r r' => hcall r r'
  · refine Matches.bind (agree_node ⟨rfl, .node hn, rfl, like_generics hgs, trivial⟩ (by decide)
      rfl) fun ts ts' hts => ?_
    exact nearly_sizedArray hexpr (.some hts)

theorem nearly_primary (fuel : Nat) :
    Nearly (primary fuel expr) (primary fuel expr') Node.Like := by
  refine matches_current.bind fun t t' ht => ?_
  have hkind := ht.kind
  rw [← hkind]
  split
  · exact matches_identifier.loosen
  · rw [ht.text]
    refine matches_advance.bind fun _ _ _ => ?_
    exact agree_node ⟨rfl, .str _, trivial⟩ (by decide) rfl
  · refine matches_advance.bind fun _ _ _ => ?_
    refine Nearly.close hexpr (by decide) fun n n' hn => ?_
    exact (matches_expect _ _).bind fun _ _ _ => .pure hn
  · exact nearly_array hexpr fuel
  · exact (matches_dictionary hexpr fuel).loosen
  · refine matches_advance.bind fun _ _ _ => matches_identifier.bind fun n n' hn => ?_
    exact agree_node ⟨rfl, .str _, rfl, .node hn, rfl, .bool _, trivial⟩ (by decide) rfl
  · exact nearly_construction hexpr fuel
  · split
    · next h =>
      have hliteral := matches_literal ht (by simpa using h)
      rw [← hkind] at hliteral
      exact matches_advance.bind fun _ _ _ => hliteral.loosen
    · exact agree_complain _ _ _ _

theorem nearly_postfixed (fuel : Nat) :
    Nearly (postfixed fuel expr) (postfixed fuel expr') Node.Like := by
  refine nearly_chain Node.Like (nearly_primary hexpr fuel) (fun n n' hn => ?_) (fun n => ?_)
    (fun n => ?_) fuel
  · refine matches_current.bind fun t t' ht => ?_
    rw [← ht.kind]
    split
    · refine matches_advance.bind fun _ _ _ => matches_identifier.bind fun m m' hm => ?_
      exact (matches_member hn hm).bind fun _ _ h => .pure ⟨h, rfl⟩
    · refine matches_advance.bind fun _ _ _ => ?_
      refine Nearly.close hexpr (by decide) fun m m' hm => (matches_expect _ _).bind fun _ _ _ => ?_
      exact Matches.bind (agree_node ⟨rfl, .node hn, rfl, .node hm, rfl, .bool _, trivial⟩
        (by decide) rfl) fun _ _ h => .pure ⟨h, rfl⟩
    · refine (matches_arguments hexpr fuel).bind fun args args' hargs => ?_
      exact Matches.bind (agree_node ⟨rfl, .node hn, rfl, .nodes hargs, trivial⟩ (by decide) rfl)
        fun _ _ h => .pure ⟨h, rfl⟩
    · rw [ht.text]
      refine matches_advance.bind fun _ _ _ => ?_
      exact Matches.bind (agree_node ⟨rfl, .str _, rfl, .node hn, rfl, .bool _, trivial⟩
        (by decide) rfl) fun _ _ h => .pure ⟨h, rfl⟩
    · exact .pure ⟨hn, rfl⟩
  · refine .current fun t ht => ?_
    rw [ht]
    exact .pure fun p hp => ⟨rfl, hp⟩
  · refine .current fun t ht => ?_
    rw [ht]
    exact .pure fun p hp => ⟨rfl, hp⟩

omit hexpr in
/-- Operators before an operand take no token. -/
theorem stays_prefixed (ops : List Token) (n : Node) :
    Stays (ops.foldlM (fun n op => prefixed op n) n) := by
  induction ops generalizing n with
  | nil => exact .pure fun _ h => h
  | cons op ops ih =>
    rw [List.foldlM_cons]
    exact (stays_finish _ _ _).bind fun n => ih n

theorem nearly_unary (fuel : Nat) : Nearly (unary fuel expr) (unary fuel expr') Node.Like := by
  refine Matches.bind (matches_loop (List.Forall₂ Token.Like) (fun acc acc' hacc => ?_) fuel [] []
    .nil) fun ops ops' hops => Nearly.bind (nearly_postfixed hexpr fuel) ?_
      (fun _ => stays_prefixed _ _) fun _ => stays_prefixed _ _
  · refine (matches_atAny _).bind ?_
    rintro b _ rfl
    refine .ite Iff.rfl (matches_advance.bind fun op op' hop => ?_) (.pure ⟨hacc, rfl⟩)
    exact .pure ⟨.cons hop hacc, rfl⟩
  · induction hops with
    | nil => exact fun n n' hn => .pure hn
    | cons hop _ ih =>
      intro n n' hn
      rw [List.foldlM_cons, List.foldlM_cons]
      exact (matches_prefixed hop hn).bind ih

theorem nearly_binary (fuel : Nat) (depth : Nat) :
    ∀ rank, Nearly (binary fuel expr depth rank) (binary fuel expr' depth rank) Node.Like := by
  induction depth with
  | zero => exact fun rank => agree_throw _ _
  | succ depth ih =>
    intro rank
    refine nearly_chain Node.Like (nearly_unary hexpr fuel) (fun n n' hn => ?_) (fun n => ?_)
      (fun n => ?_) fuel
    · refine matches_binaryOperator.bind ?_
      rintro op? _ rfl
      split
      · exact .pure ⟨hn, rfl⟩
      · next op r hop =>
        refine .ite Iff.rfl (.pure ⟨hn, rfl⟩) (matches_advance.bind fun _ _ _ => ?_)
        extract_lets join join'
        have hjoin : ∀ m m', m.Like m' → Nearly (join m) (join' m') fun r r' =>
            r.1.Like r'.1 ∧ r.2 = r'.2 := by
          intro m m' hm
          exact Matches.bind (agree_node ⟨rfl, .str _, rfl, .node hn, rfl, .node hm, trivial⟩
            (by decide) rfl) fun _ _ h => .pure ⟨h, rfl⟩
        refine .ite Iff.rfl ((matches_types fuel).bind hjoin)
          (.ite Iff.rfl ((matches_scopedName fuel).bind hjoin) ?_)
        have hstays (m : Node) : Stays (join m) ∧ Stays (join' m) :=
          ⟨(stays_finish _ _ _).bind fun _ => .pure fun _ h => h,
            (stays_finish _ _ _).bind fun _ => .pure fun _ h => h⟩
        exact (ih _).bind hjoin (fun m => (hstays m).1) fun m => (hstays m).2
    all_goals
      refine Keeps.bind (Keeps.current fun t ht => .pure (S := fun o p => o = none ∧ p.AtName)
        fun p hp => ⟨?_, hp⟩) ?_
      · rw [ht]
        rfl
      · rintro o p ⟨rfl, hp⟩ a q hrun
        cases hrun
        exact ⟨rfl, hp⟩

theorem nearly_disjunction (fuel : Nat) :
    Nearly (disjunction fuel expr) (disjunction fuel expr') Node.Like :=
  nearly_logical (nearly_logical (nearly_binary hexpr fuel fuel _) fuel (by decide)) fuel
    (by decide)

theorem nearly_conditional (fuel : Nat) :
    Nearly (conditional fuel expr) (conditional fuel expr') Node.Like := by
  refine Nearly.bind (nearly_disjunction hexpr fuel) (fun n n' hn => ?_)
    (fun _ => .skip (by decide) (.pure fun _ h => h)) fun _ =>
      .skip (by decide) (.pure fun _ h => h)
  refine (matches_skip _).bind ?_
  rintro b _ rfl
  refine .ite Iff.rfl (Nearly.close hexpr (by decide) fun m m' hm => ?_) (.pure hn)
  refine (matches_expect _ _).bind fun _ _ _ => ?_
  refine Nearly.bind hexpr (fun k k' hk => ?_) (fun _ => stays_finish _ _ _) fun _ =>
    stays_finish _ _ _
  exact agree_node ⟨rfl, .node hn, rfl, .node hm, rfl, .node hk, trivial⟩ (by decide) rfl

theorem nearly_assignment (fuel : Nat) :
    Nearly (assignment fuel expr) (assignment fuel expr') Node.Like := by
  refine Nearly.bind (nearly_conditional hexpr fuel) (fun n n' hn => ?_) (fun _ => ?_) fun _ => ?_
  · refine matches_current.bind fun t t' ht => .ite (by rw [ht.kind]) ?_ (.pure hn)
    extract_lets assign assign'
    have hassign (r r' : PUnit) : Nearly (assign r) (assign' r') Node.Like := by
      refine matches_advance.bind fun _ _ _ => Nearly.bind hexpr (fun m m' hm => ?_)
        (fun _ => stays_finish _ _ _) fun _ => stays_finish _ _ _
      rw [ht.text]
      exact agree_node ⟨rfl, .str _, rfl, .node hn, rfl, .node hm, trivial⟩ (by decide) rfl
    refine .ite (by rw [hn.kind]) ?_ (hassign () ())
    exact agree_complained fun r r' => hassign r r'
  all_goals
    refine .current fun t ht => ?_
    rw [if_neg (by rw [ht]; decide)]
    exact .pure fun _ h => h

end Nested

theorem nearly_expression (fuel : Nat) :
    Nearly (expression fuel) (expression fuel) Node.Like := by
  induction fuel with
  | zero => exact agree_throw _ _
  | succ fuel ih => exact nearly_assignment ih (fuel + 1)

theorem nearly_sequence (fuel : Nat) : Nearly (sequence fuel) (sequence fuel) Node.Like := by
  refine Nearly.bind (nearly_expression fuel) (fun n n' hn => ?_)
    (fun _ => .nextIs (by decide) (.pure fun _ h => h)) fun _ =>
      .nextIs (by decide) (.pure fun _ h => h)
  refine (matches_nextIs _).bind ?_
  rintro b _ rfl
  refine .ite Iff.rfl ?_ (.pure hn)
  refine Nearly.bind (nearly_loop AllLike (fun acc acc' hacc => ?_) (fun acc => ?_) (fun acc => ?_)
    fuel [n] [n'] (.cons hn .nil)) (fun ns ns' hns => ?_) (fun _ => stays_finish _ _ _)
      fun _ => stays_finish _ _ _
  · refine (matches_skip _).bind ?_
    rintro b _ rfl
    refine .ite Iff.rfl ?_ (.pure ⟨hacc, rfl⟩)
    exact Nearly.bind (nearly_expression fuel) (fun m m' hm => .pure ⟨.cons hm hacc, rfl⟩)
      (fun _ => .pure fun _ h => h) fun _ => .pure fun _ h => h
  · exact .skip (by decide) (.pure fun p hp => ⟨rfl, hp⟩)
  · exact .skip (by decide) (.pure fun p hp => ⟨rfl, hp⟩)
  · exact agree_node ⟨rfl, .nodes hns.reverse, trivial⟩ (by decide) rfl

/-! ## Statements -/

/-- A part that is read only if something comes next that announces it. -/
theorem Matches.some {m m' : Parse Node} (hm : Matches m m' Node.Like) :
    Matches (Option.some <$> m) (Option.some <$> m') OptionLike := hm.map fun _ _ => .some

theorem Nearly.some {m m' : Parse Node} (hm : Nearly m m' Node.Like) :
    Nearly (Option.some <$> m) (Option.some <$> m') OptionLike := hm.map fun _ _ => .some

theorem matches_none :
    Matches (pure none : Parse (Option Node)) (pure none) OptionLike := .pure .none

theorem nearly_declarator (fuel : Nat) (kind : String) :
    Nearly (declarator fuel kind) (declarator fuel kind) Node.Like := by
  refine (matches_typedIdentifier (matches_types fuel)).bind fun n n' hn => ?_
  refine (matches_atText _ _).bind ?_
  rintro b _ rfl
  extract_lets done done'
  have hdone (o o' : Option Node) (ho : OptionLike o o') :
      Nearly (done o) (done' o') Node.Like := by
    refine agree_node ?_ (by decide) rfl
    exact ⟨rfl, .node hn, rfl, .optional ho, rfl, .str _, trivial⟩
  refine .ite Iff.rfl (matches_advance.bind fun _ _ _ => ?_) (hdone _ _ .none)
  exact Nearly.bind (nearly_expression fuel).some hdone (fun _ => stays_finish _ _ _) fun _ =>
    stays_finish _ _ _

theorem nearly_variableList (fuel : Nat) {first first' : Span} {attrs attrs' : Option Node}
    (hattrs : OptionLike attrs attrs') :
    Nearly (variableList fuel first attrs) (variableList fuel first' attrs') fun n n' =>
      n.Like n' ∧ n.kind = "VariableDeclaration" := by
  refine matches_advance.bind fun t t' ht => ?_
  dsimp only
  rw [← ht.text]
  refine Nearly.bind (nearly_separated AllLike (fun acc acc' hacc => ?_) fuel [] [] .nil)
    (fun ns ns' hns => ?_) (fun _ => stays_finish _ _ _) fun _ => stays_finish _ _ _
  · exact agree_separated (nearly_declarator fuel _) hacc
  · refine agree_finish fun s s' => ⟨.of_fields ?_ (by decide) rfl s s', rfl⟩
    exact ⟨rfl, .optional hattrs, rfl, .nodes hns.reverse, rfl, .str _, trivial⟩

theorem matches_variablesStatement (fuel : Nat) {first first' : Span} {attrs attrs' : Option Node}
    (hattrs : OptionLike attrs attrs') :
    Matches (variablesStatement fuel first attrs) (variablesStatement fuel first' attrs')
      Node.Like := by
  refine (nearly_variableList fuel hattrs).close (by decide) fun n n' hn => ?_
  refine (matches_expect _ _).bind fun _ _ _ => agree_finish fun s s' => ?_
  have hspanned := hn.1.respan s s'
  rwa [← hn.1.kind, hn.2] at hspanned

theorem matches_parenTest (fuel : Nat) : Matches (parenTest fuel) (parenTest fuel) Node.Like := by
  refine (matches_expect _ _).bind fun _ _ _ => ?_
  exact (nearly_expression fuel).close (by decide) fun n n' hn =>
    (matches_expect _ _).bind fun _ _ _ => .pure hn

theorem nearly_caseTest (fuel : Nat) : Nearly (caseTest fuel) (caseTest fuel) Node.Like := by
  refine (matches_accept _).bind fun o o' ho => ?_
  cases ho with
  | none => exact nearly_expression fuel
  | some ht =>
    refine (matches_scopedName fuel).bind fun n n' hn => ?_
    exact agree_node ⟨rfl, .node hn, trivial⟩ (by decide) rfl

theorem matches_catchParam (fuel : Nat) :
    Matches (catchParam fuel) (catchParam fuel) Node.Like := by
  refine matches_identifier.bind fun n n' hn => (matches_skip _).bind ?_
  rintro b _ rfl
  refine .ite Iff.rfl ((matches_scopedName fuel).bind fun m m' hm => ?_) (.pure hn)
  exact agree_node ⟨rfl, .str _, rfl, .node hn, rfl, .node hm, trivial⟩ (by decide) rfl

theorem matches_returnStatement (fuel : Nat) :
    Matches (returnStatement fuel) (returnStatement fuel) Node.Like := by
  refine matches_advance.bind fun _ _ _ => (matches_nextIs _).bind ?_
  rintro b _ rfl
  extract_lets done done'
  have hdone (o o' : Option Node) (ho : OptionLike o o') : Matches (done o) (done' o') Node.Like :=
    (matches_expect _ _).bind fun _ _ _ =>
      agree_node ⟨rfl, .optional ho, trivial⟩ (by decide) rfl
  refine .ite Iff.rfl (matches_none.bind hdone) ?_
  exact Nearly.close (nearly_expression fuel).some (by decide) hdone

theorem matches_throwStatement (fuel : Nat) :
    Matches (throwStatement fuel) (throwStatement fuel) Node.Like := by
  refine matches_advance.bind fun _ _ _ => ?_
  refine (nearly_expression fuel).close (by decide) fun n n' hn => ?_
  exact (matches_expect _ _).bind fun _ _ _ => agree_node ⟨rfl, .node hn, trivial⟩ (by decide) rfl

theorem matches_jump : Matches jump jump Node.Like := by
  refine matches_advance.bind fun t t' ht => ?_
  rw [ht.text]
  refine (matches_expect _ _).bind fun _ _ _ => ?_
  rw [ht.kind]
  split <;> exact agree_node trivial (by decide) rfl

theorem matches_expressionStatement (fuel : Nat) :
    Matches (expressionStatement fuel) (expressionStatement fuel) Node.Like := by
  refine matches_current.bind fun _ _ _ => ?_
  refine (nearly_expression fuel).close (by decide) fun n n' hn => ?_
  exact (matches_expect _ _).bind fun _ _ _ => agree_node ⟨rfl, .node hn, trivial⟩ (by decide) rfl

theorem like_handlers {ns ns' : List Node} (h : AllLike ns ns') :
    OptionLike (handlers ns) (handlers ns') := by
  cases h with
  | nil => exact .none
  | cons hn hns =>
    cases hns with
    | nil => exact .some hn
    | cons hm hms =>
      refine .some (.of_fields ?_ (by decide) rfl _ _)
      exact ⟨rfl, .nodes (.cons hn (.cons hm hms)), trivial⟩

section Nested

variable {stmt stmt' : Parse Node} (hstmt : Matches stmt stmt' Node.Like)
include hstmt

theorem matches_block (fuel : Nat) : Matches (block fuel stmt) (block fuel stmt') Node.Like := by
  refine (matches_expect _ _).bind fun _ _ _ => ?_
  refine (matches_bodyUntilBrace fuel hstmt).bind fun ns ns' hns => ?_
  exact agree_node ⟨rfl, .nodes hns, trivial⟩ (by decide) rfl

theorem matches_ifStatement (fuel : Nat) :
    Matches (ifStatement fuel stmt) (ifStatement fuel stmt') Node.Like := by
  refine matches_advance.bind fun _ _ _ => (matches_parenTest fuel).bind fun t t' ht => ?_
  refine hstmt.bind fun n n' hn => (matches_skip _).bind ?_
  rintro b _ rfl
  extract_lets done done'
  have hdone (o o' : Option Node) (ho : OptionLike o o') :
      Matches (done o) (done' o') Node.Like := by
    refine agree_node ?_ (by decide) rfl
    exact ⟨rfl, .node ht, rfl, .node hn, rfl, .optional ho, trivial⟩
  exact .ite Iff.rfl ((Matches.some hstmt).bind hdone) (matches_none.bind hdone)

theorem matches_whileStatement (fuel : Nat) :
    Matches (whileStatement fuel stmt) (whileStatement fuel stmt') Node.Like := by
  refine matches_advance.bind fun _ _ _ => (matches_parenTest fuel).bind fun t t' ht => ?_
  refine hstmt.bind fun n n' hn => ?_
  exact agree_node ⟨rfl, .node ht, rfl, .node hn, trivial⟩ (by decide) rfl

theorem matches_doStatement (fuel : Nat) :
    Matches (doStatement fuel stmt) (doStatement fuel stmt') Node.Like := by
  refine matches_advance.bind fun _ _ _ => hstmt.bind fun n n' hn => ?_
  refine (matches_expect _ _).bind fun _ _ _ => (matches_parenTest fuel).bind fun t t' ht => ?_
  refine (matches_expect _ _).bind fun _ _ _ => ?_
  exact agree_node ⟨rfl, .node hn, rfl, .node ht, trivial⟩ (by decide) rfl

theorem matches_forStatement (fuel : Nat) :
    Matches (forStatement fuel stmt) (forStatement fuel stmt') Node.Like := by
  refine matches_advance.bind fun _ _ _ => (matches_expect _ _).bind fun _ _ _ => ?_
  refine matches_current.bind fun t t' ht => ?_
  extract_lets rest rest'
  have hrest (i i' : Option Node) (hi : OptionLike i i') :
      Matches (rest i) (rest' i') Node.Like := by
    refine (matches_expect _ _).bind fun _ _ _ => (matches_nextIs _).bind ?_
    rintro b _ rfl
    extract_lets tested tested'
    have htested (t t' : Option Node) (ht : OptionLike t t') :
        Matches (tested t) (tested' t') Node.Like := by
      refine (matches_expect _ _).bind fun _ _ _ => (matches_nextIs _).bind ?_
      rintro b _ rfl
      extract_lets updated updated'
      have hupdated (u u' : Option Node) (hu : OptionLike u u') :
          Matches (updated u) (updated' u') Node.Like := by
        refine (matches_expect _ _).bind fun _ _ _ => hstmt.bind fun n n' hn => ?_
        exact agree_node ⟨rfl, .optional hi, rfl, .optional ht, rfl, .optional hu, rfl, .node hn,
          trivial⟩ (by decide) rfl
      refine .ite Iff.rfl (matches_none.bind hupdated) ?_
      exact Nearly.close (nearly_sequence fuel).some (by decide) hupdated
    refine .ite Iff.rfl (matches_none.bind htested) ?_
    exact Nearly.close (nearly_expression fuel).some (by decide) htested
  have hlist : Nearly (variableList fuel t.span none) (variableList fuel t'.span none) Node.Like :=
    (nearly_variableList fuel .none).weaken fun _ _ h => h.1
  refine .ite (by rw [ht.kind]) (Nearly.close hlist.some (by decide) hrest) ?_
  refine .ite (by rw [ht.kind]) (matches_none.bind hrest) ?_
  exact Nearly.close (nearly_sequence fuel).some (by decide) hrest

theorem matches_switchCase (fuel : Nat) :
    Matches (switchCase fuel stmt) (switchCase fuel stmt') Node.Like := by
  refine matches_current.bind fun t t' ht => ?_
  extract_lets rest rest'
  have hrest (o o' : Option Node) (ho : OptionLike o o') :
      Matches (rest o) (rest' o') Node.Like := by
    refine (matches_expect _ _).bind fun _ _ _ => ?_
    refine (matches_many fuel (matches_atAny _) hstmt).bind fun ns ns' hns => ?_
    exact agree_node ⟨rfl, .optional ho, rfl, .nodes hns, trivial⟩ (by decide) rfl
  rw [← ht.kind]
  split
  · refine matches_advance.bind fun _ _ _ => ?_
    exact Nearly.close (nearly_caseTest fuel).some (by decide) hrest
  · exact matches_advance.bind fun _ _ _ => matches_none.bind hrest
  · exact Matches.bind (agree_complain _ _ _ _) hrest

theorem matches_switchStatement (fuel : Nat) :
    Matches (switchStatement fuel stmt) (switchStatement fuel stmt') Node.Like := by
  refine matches_advance.bind fun _ _ _ => (matches_parenTest fuel).bind fun t t' ht => ?_
  refine (matches_expect _ _).bind fun _ _ _ => ?_
  refine (matches_many fuel (matches_nextIs _) (matches_switchCase hstmt fuel)).bind
    fun ns ns' hns => (matches_expect _ _).bind fun _ _ _ => ?_
  exact agree_node ⟨rfl, .node ht, rfl, .nodes hns, trivial⟩ (by decide) rfl

theorem matches_catchClause (fuel : Nat) :
    Matches (catchClause fuel stmt) (catchClause fuel stmt') Node.Like := by
  refine matches_advance.bind fun _ _ _ => (matches_skip _).bind ?_
  rintro b _ rfl
  extract_lets rest rest'
  have hrest (o o' : Option Node) (ho : OptionLike o o') :
      Matches (rest o) (rest' o') Node.Like := by
    refine (matches_block hstmt fuel).bind fun n n' hn => ?_
    exact agree_node ⟨rfl, .optional ho, rfl, .node hn, trivial⟩ (by decide) rfl
  refine .ite Iff.rfl ?_ (matches_none.bind hrest)
  refine (matches_catchParam fuel).bind fun n n' hn => (matches_expect _ _).bind fun _ _ _ => ?_
  exact Matches.bind (.pure (.some hn)) hrest

theorem matches_tryStatement (fuel : Nat) :
    Matches (tryStatement fuel stmt) (tryStatement fuel stmt') Node.Like := by
  refine matches_advance.bind fun _ _ _ => (matches_block hstmt fuel).bind fun n n' hn => ?_
  have hstop : Matches (do pure !(← nextIs .catchWord)) (do pure !(← nextIs .catchWord)) Eq :=
    (matches_nextIs _).bind fun _ _ h => .pure (congrArg _ h)
  refine (matches_many fuel hstop (matches_catchClause hstmt fuel)).bind fun ns ns' hns => ?_
  have hhandler := like_handlers hns
  refine (matches_skip _).bind ?_
  rintro b _ rfl
  extract_lets finalized finalized'
  have hfinalized (o o' : Option Node) (ho : OptionLike o o') :
      Matches (finalized o) (finalized' o') Node.Like := by
    have hlike : Fields.Like
        [("block", .node n), ("handler", optional (handlers ns)), ("finalizer", optional o)]
        [("block", .node n'), ("handler", optional (handlers ns')), ("finalizer", optional o')] :=
      ⟨rfl, .node hn, rfl, .optional hhandler, rfl, .optional ho, trivial⟩
    refine .ite (by rw [hhandler.isNone_eq, ho.isNone_eq]) (matches_current.bind fun _ _ _ => ?_)
      (agree_node hlike (by decide) rfl)
    exact agree_complained fun _ _ => agree_node hlike (by decide) rfl
  exact .ite Iff.rfl ((Matches.some (matches_block hstmt fuel)).bind hfinalized)
    (matches_none.bind hfinalized)

theorem matches_statementWith (fuel : Nat) :
    Matches (statementWith fuel stmt) (statementWith fuel stmt') Node.Like := by
  refine matches_current.bind fun t t' ht => ?_
  rw [← ht.kind]
  split
  · exact matches_block hstmt fuel
  · exact matches_ifStatement hstmt fuel
  · exact matches_whileStatement hstmt fuel
  · exact matches_doStatement hstmt fuel
  · exact matches_forStatement hstmt fuel
  · exact matches_switchStatement hstmt fuel
  · exact matches_tryStatement hstmt fuel
  · exact matches_returnStatement fuel
  · exact matches_throwStatement fuel
  · exact matches_jump
  · exact matches_jump
  · exact matches_variablesStatement fuel .none
  · exact matches_variablesStatement fuel .none
  · exact matches_expressionStatement fuel

end Nested

theorem matches_statement (fuel : Nat) : Matches (statement fuel) (statement fuel) Node.Like := by
  induction fuel with
  | zero => exact agree_throw _ _
  | succ fuel ih => exact matches_statementWith ih (fuel + 1)

/-! ## Declarations -/

theorem matches_usingDeclaration (fuel : Nat) :
    Matches (usingDeclaration fuel) (usingDeclaration fuel) Node.Like := by
  refine matches_advance.bind fun _ _ _ => (matches_scopedName fuel).bind fun n n' hn => ?_
  refine (matches_skip _).bind ?_
  rintro b _ rfl
  extract_lets named named'
  have hnamed (o o' : Option Node) (ho : OptionLike o o') :
      Matches (named o) (named' o') Node.Like := by
    refine (matches_expect _ _).bind fun _ _ _ => ?_
    exact agree_node ⟨rfl, .node hn, rfl, .optional ho, trivial⟩ (by decide) rfl
  exact .ite Iff.rfl ((Matches.some matches_identifier).bind hnamed) (matches_none.bind hnamed)

theorem matches_importDeclaration (fuel : Nat) :
    Matches (importDeclaration fuel) (importDeclaration fuel) Node.Like := by
  refine matches_advance.bind fun _ _ _ => (matches_scopedName fuel).bind fun n n' hn => ?_
  refine (matches_expect _ _).bind fun _ _ _ => ?_
  exact agree_node ⟨rfl, .node hn, trivial⟩ (by decide) rfl

theorem matches_attributes (fuel : Nat) :
    Matches (attributes fuel) (attributes fuel) Node.Like := by
  refine matches_advance.bind fun _ _ _ => ?_
  refine (nearly_commaList fuel _ (nearly_postfixed (nearly_expression fuel) fuel)).close
    (by decide) fun ns ns' hns => (matches_expect _ _).bind fun _ _ _ => ?_
  exact agree_node ⟨rfl, .nodes hns, trivial⟩ (by decide) rfl

theorem matches_accessWords (fuel : Nat) :
    Matches (accessWords fuel) (accessWords fuel) Eq := by
  refine (matches_loop Eq (fun acc acc' hacc => ?_) fuel [] [] rfl).bind
    fun ws ws' hws => .pure (congrArg _ hws)
  refine (matches_accept _).bind fun o o' ho => ?_
  cases ho with
  | none => exact .pure ⟨hacc, rfl⟩
  | some ht => exact .pure ⟨by rw [hacc, ht.text], rfl⟩

theorem matches_attributeList (fuel : Nat) :
    Matches (attributeList fuel) (attributeList fuel) OptionLike := by
  refine matches_current.bind fun t t' ht => ?_
  extract_lets listed listed'
  have hlisted (o o' : Option Node) (ho : OptionLike o o') :
      Matches (listed o) (listed' o') OptionLike := by
    refine (matches_accessWords fuel).bind ?_
    rintro ws _ rfl
    refine .ite (by rw [ho.isNone_eq]) matches_none ?_
    have haccess : ∀ v : Value, v.Like v → v.holdsNode = false →
        Matches (finish "AttributeList" t.span [("attributes", optional o), ("access", v)])
          (finish "AttributeList" t'.span [("attributes", optional o'), ("access", v)])
          Node.Like := by
      intro v hv hnone
      refine agree_node ⟨rfl, .optional ho, rfl, hv, trivial⟩ (by decide) ?_
      exact (properFields_iff rfl).2 ⟨rfl, by simp [hnone]⟩
    refine Matches.some (haccess _ ?_ ?_)
    · split
      · exact .null
      · exact .words ws
    · split
      · rfl
      · exact Value.holdsNode_words ws
  refine .ite (by rw [ht.kind]) ?_ (matches_none.bind hlisted)
  exact (Matches.some (matches_attributes fuel)).bind hlisted

section Attributed

variable {first first' : Span} {attrs attrs' : Option Node} (hattrs : OptionLike attrs attrs')
include hattrs

theorem matches_moduleDeclaration {item item' : Parse Node} (hitem : Matches item item' Node.Like)
    (fuel : Nat) : Matches (moduleDeclaration fuel item first attrs)
      (moduleDeclaration fuel item' first' attrs') Node.Like := by
  refine matches_advance.bind fun _ _ _ => matches_identifier.bind fun n n' hn => ?_
  refine (matches_expect _ _).bind fun _ _ _ => ?_
  refine (matches_bodyUntilBrace fuel hitem).bind fun ns ns' hns => ?_
  refine Matches.bind (agree_node ⟨rfl, .nodes hns, trivial⟩ (by decide) rfl) fun b b' hb => ?_
  exact agree_node ⟨rfl, .optional hattrs, rfl, .node hn, rfl, .node hb, trivial⟩ (by decide) rfl

theorem matches_classDeclaration {item item' : Parse Node} (hitem : Matches item item' Node.Like)
    (fuel : Nat) : Matches (classDeclaration fuel item first attrs)
      (classDeclaration fuel item' first' attrs') Node.Like := by
  refine matches_advance.bind fun _ _ _ => matches_identifier.bind fun n n' hn => ?_
  refine (matches_skip _).bind ?_
  rintro b _ rfl
  extract_lets based based'
  have hbased (o o' : Option Node) (ho : OptionLike o o') :
      Matches (based o) (based' o') Node.Like := by
    refine (matches_expect _ _).bind fun _ _ _ => ?_
    refine (matches_bodyUntilBrace fuel hitem).bind fun ns ns' hns => ?_
    refine Matches.bind (agree_node ⟨rfl, .nodes hns, trivial⟩ (by decide) rfl) fun b b' hb => ?_
    exact agree_node ⟨rfl, .optional hattrs, rfl, .node hn, rfl, .optional ho, rfl, .node hb,
      trivial⟩ (by decide) rfl
  exact .ite Iff.rfl ((Matches.some (matches_scopedName fuel)).bind hbased)
    (matches_none.bind hbased)

theorem matches_functionDeclaration (fuel : Nat) :
    Matches (functionDeclaration fuel first attrs) (functionDeclaration fuel first' attrs')
      Node.Like := by
  refine matches_advance.bind fun _ _ _ => matches_identifier.bind fun n n' hn => ?_
  refine (matches_params (matches_types fuel) fuel).bind fun ps ps' hps => ?_
  refine (matches_returnType (matches_types fuel)).bind fun r r' hr => (matches_skip _).bind ?_
  rintro b _ rfl
  extract_lets bodied bodied'
  have hbodied (o o' : Option Node) (ho : OptionLike o o') :
      Matches (bodied o) (bodied' o') Node.Like := by
    refine agree_node ?_ (by decide) rfl
    exact ⟨rfl, .optional hattrs, rfl, .node hn, rfl, .nodes hps, rfl, .optional hr, rfl,
      .optional ho, trivial⟩
  exact .ite Iff.rfl (matches_none.bind hbodied)
    ((Matches.some (matches_block (matches_statement fuel) fuel)).bind hbodied)

omit hattrs in
theorem nearly_enumMember (fuel : Nat) : Nearly (enumMember fuel) (enumMember fuel) Node.Like := by
  refine matches_identifier.bind fun n n' hn => (matches_atText _ _).bind ?_
  rintro b _ rfl
  refine .ite Iff.rfl (matches_advance.bind fun _ _ _ => ?_) (.pure hn)
  refine Nearly.bind (nearly_expression fuel) (fun m m' hm => ?_) (fun _ => stays_finish _ _ _)
    fun _ => stays_finish _ _ _
  exact agree_node ⟨rfl, .node hn, rfl, .node hm, trivial⟩ (by decide) rfl

theorem matches_enumDeclaration (fuel : Nat) :
    Matches (enumDeclaration fuel first attrs) (enumDeclaration fuel first' attrs') Node.Like := by
  refine matches_advance.bind fun _ _ _ => (matches_nextIs _).bind ?_
  rintro b _ rfl
  extract_lets named named'
  have hnamed (o o' : Option Node) (ho : OptionLike o o') :
      Matches (named o) (named' o') Node.Like := by
    refine (matches_expect _ _).bind fun _ _ _ => ?_
    refine (nearly_commaList fuel _ (nearly_enumMember fuel)).close (by decide) fun ns ns' hns => ?_
    refine (matches_expect _ _).bind fun _ _ _ => ?_
    refine Matches.bind (agree_node ⟨rfl, .nodes hns, trivial⟩ (by decide) rfl) fun b b' hb => ?_
    refine Matches.bind (agree_node ⟨rfl, .optional hattrs, rfl, .optional ho, rfl, .node hb,
      trivial⟩ (by decide) rfl) fun e e' he => ?_
    exact (matches_skip _).bind fun _ _ _ => .pure he
  exact .ite Iff.rfl ((Matches.some matches_identifier).bind hnamed) (matches_none.bind hnamed)

theorem matches_typedefDeclaration (fuel : Nat) :
    Matches (typedefDeclaration fuel first attrs) (typedefDeclaration fuel first' attrs')
      Node.Like := by
  refine matches_advance.bind fun _ _ _ => matches_identifier.bind fun n n' hn => ?_
  refine (matches_returnType (matches_types fuel)).bind fun o o' ho => ?_
  cases ho with
  | none => exact matches_current.bind fun _ _ _ => agree_complain _ _ _ _
  | some hts =>
    refine (matches_expect _ _).bind fun _ _ _ => ?_
    exact agree_node ⟨rfl, .optional hattrs, rfl, .node hn, rfl, .node hts, trivial⟩ (by decide) rfl

end Attributed

theorem matches_classElementOf {item item' : Parse Node} (hitem : Matches item item' Node.Like) :
    Matches (classElementOf item) (classElementOf item') Node.Like := by
  refine hitem.bind fun n n' hn => .pure (.of_fields ?_ (by decide) rfl _ _)
  exact ⟨rfl, .node hn, trivial⟩

theorem matches_declarations (fuel : Nat) :
    (∀ allowModule,
      Matches (declaration allowModule fuel) (declaration allowModule fuel) Node.Like) ∧
      Matches (topLevel fuel) (topLevel fuel) Node.Like := by
  induction fuel with
  | zero =>
    constructor
    · intro allowModule
      rw [declaration]
      exact agree_throw _ _
    · rw [topLevel]
      exact agree_throw _ _
  | succ fuel ih =>
    constructor
    · intro allowModule
      rw [declaration]
      refine (matches_attributeList _).bind fun attrs attrs' hattrs => ?_
      refine matches_current.bind fun t t' ht => ?_
      extract_lets first first'
      rw [← ht.kind]
      split
      · exact matches_classDeclaration hattrs (matches_classElementOf (ih.1 false)) _
      · exact matches_functionDeclaration hattrs _
      · exact matches_variablesStatement _ hattrs
      · exact matches_variablesStatement _ hattrs
      · exact matches_enumDeclaration hattrs _
      · exact matches_typedefDeclaration hattrs _
      · exact .ite Iff.rfl (matches_moduleDeclaration hattrs ih.2 _) (agree_complain _ _ _ _)
    · rw [topLevel]
      refine matches_current.bind fun t t' ht => ?_
      rw [← ht.kind]
      split
      · exact matches_usingDeclaration _
      · exact matches_importDeclaration _
      · exact ih.1 true

/-! ## Whole sources -/

theorem matches_programOf {ns ns' : List Node} (h : AllLike ns ns') :
    Matches (programOf ns) (programOf ns') Node.Like := by
  refine matches_get.bind fun _ _ _ => .pure (.of_fields ?_ (by decide) rfl _ _)
  exact ⟨rfl, .nodes h, trivial⟩

theorem weight_eq {p p' : Parser} (h : p.Like p') : p.weight = p'.weight := by
  unfold Parser.Like at h
  unfold Parser.weight
  generalize p.rest = ts, p'.rest = ts' at h ⊢
  induction h with
  | nil => rfl
  | cons ht _ ih => rw [List.foldr_cons, List.foldr_cons, ih, Token.weight, Token.weight, ht.kind]

theorem matches_fueled {production : Nat → Parse Node}
    (h : ∀ fuel, Matches (production fuel) (production fuel) Node.Like) :
    Matches (fueled production) (fueled production) Node.Like := by
  refine matches_get.bind fun p p' hp => ?_
  rw [weight_eq hp]
  exact h _

theorem matches_startRule (o : Options) : Matches (startRule o) (startRule o) Node.Like := by
  unfold startRule
  split
  · refine matches_fueled fun fuel => ?_
    exact (matches_many fuel (matches_nextIs _) (matches_declarations _).2).bind
      fun _ _ hns => matches_programOf hns
  · refine matches_fueled fun fuel => (nearly_expression fuel).close (by decide) fun n n' hn => ?_
    exact (matches_expect _ _).bind fun _ _ _ => .pure hn
  · refine matches_fueled fun fuel => ?_
    refine .ite Iff.rfl ?_ (.ite Iff.rfl ?_ (agree_throw _ _))
    · exact (matches_many fuel (matches_nextIs _)
        (matches_classElementOf ((matches_declarations _).1 false))).bind
          fun _ _ hns => matches_programOf hns
    · exact (matches_many fuel (matches_nextIs _) (matches_statement fuel)).bind
        fun _ _ hns => matches_programOf hns

end Parse

end MonkeyFormat
