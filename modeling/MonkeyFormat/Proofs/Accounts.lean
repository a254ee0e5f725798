import MonkeyFormat.Proofs.Printing
import MonkeyFormat.Proofs.Remarks
import MonkeyFormat.Proofs.TokenPlaces

set_option autoImplicit false

/-! # Accounts of comments

A layout keeps account of the comments it has laid out. A layout that is given some comments to lay
out, none of them laid out before, enters each of them once, and its document holds each of them
once. Accounts add up when one layout comes behind another. -/

namespace MonkeyFormat

namespace Layout

/-- What is known of a document that has a comment in it: the document of the comment. One that
keeps its owner as it is brings a stretch of the source along. -/
def form (a : Attached) : Doc.Content :=
  if Text.trim a.comment.value = ignoreDirective then ⊤
  else (({comment a.comment} : Multiset Doc) : Doc.Content)

/-- What is known of documents that have some comments in them. -/
def forms (as : Multiset Attached) : Doc.Content := (as.map form).sum

@[simp] theorem forms_zero : forms 0 = 0 := rfl

@[simp] theorem forms_add (as bs : Multiset Attached) : forms (as + bs) = forms as + forms bs := by
  rw [forms, Multiset.map_add, Multiset.sum_add]
  rfl

@[simp] theorem forms_singleton (a : Attached) : forms {a} = form a := by
  rw [forms, Multiset.map_singleton, Multiset.sum_singleton]

/-- The document of a comment holds that comment. -/
theorem holds_form (a : Attached) : (comment a.comment).Holds (form a) := by
  have h := holds_comment a.comment
  unfold form
  split
  · exact .unknown h.solid
  · exact h

/-- With a comment that keeps its owner nothing is known. -/
theorem forms_eq_top {as : Multiset Attached} {a : Attached} (ha : a ∈ as)
    (hkeeps : Text.trim a.comment.value = ignoreDirective) : forms as = ⊤ := by
  obtain ⟨rest, rfl⟩ := Multiset.exists_cons_of_mem ha
  rw [← Multiset.singleton_add, forms_add, forms_singleton, form, if_pos hkeeps, WithTop.top_add]

/-- Without such comments all are known. -/
theorem forms_eq_coe {as : Multiset Attached}
    (h : ∀ a ∈ as, Text.trim a.comment.value ≠ ignoreDirective) :
    forms as = ((as.map fun a => comment a.comment : Multiset Doc) : Doc.Content) := by
  induction as using Multiset.induction_on with
  | empty => rfl
  | cons a as ih =>
    rw [Multiset.forall_mem_cons] at h
    rw [← Multiset.singleton_add, forms_add, forms_singleton, ih h.2, form, if_neg h.1,
      Multiset.map_add, Multiset.map_singleton, WithTop.coe_add]

/-- The layout enters the given comments, none of which is entered yet, each once, and has a result
that `post` holds of. -/
def Lays {α : Type} (m : Layout α) (as : Multiset Attached) (post : α → Prop) : Prop :=
  ∀ s : List Nat, (as.map Attached.id + (s : Multiset Nat)).Nodup →
    ∃ x s', m.run s = .ok (x, s') ∧ (s' : Multiset Nat) = as.map Attached.id + s ∧ post x

/-- The layout enters the comments, and its document holds them. -/
abbrev Keeps (m : Layout Doc) (as : Multiset Attached) : Prop :=
  Lays m as fun d => d.Holds (forms as)

/-- The layout enters the comments, and its documents hold them. -/
abbrev KeepsAll (m : Layout (List Doc)) (as : Multiset Attached) : Prop :=
  Lays m as fun ds => Doc.HoldsAll ds (forms as)

section Rules

variable {α β : Type} {m : Layout α} {f : α → Layout β} {as bs : Multiset Attached}
  {P : α → Prop} {Q : β → Prop}

theorem Lays.pure {a : α} (h : P a) : Lays (Pure.pure a) 0 P := by
  intro s _
  exact ⟨a, s, rfl, by simp, h⟩

theorem Lays.bind (hm : Lays m as P) (hf : ∀ a, P a → Lays (f a) bs Q) :
    Lays (m >>= f) (as + bs) Q := by
  intro s hs
  rw [Multiset.map_add, add_assoc, add_left_comm] at hs
  have hfirst : (as.map Attached.id + (s : Multiset Nat)).Nodup :=
    (Multiset.nodup_add.1 hs).2.1
  obtain ⟨a, s', hrun, hs', ha⟩ := hm s hfirst
  rw [← hs'] at hs
  obtain ⟨b, s'', hrun', hs'', hb⟩ := hf a ha s' hs
  refine ⟨b, s'', ?_, ?_, hb⟩
  · rw [StateT.run_bind, hrun]
    exact hrun'
  · rw [hs'', hs', Multiset.map_add, add_assoc, add_left_comm]

theorem Lays.of_eq (h : Lays m as P) (heq : as = bs) : Lays m bs P := heq ▸ h

theorem Lays.weaken {P' : α → Prop} (h : Lays m as P) (hpost : ∀ a, P a → P' a) :
    Lays m as P' := by
  intro s hs
  obtain ⟨a, s', hrun, hs', ha⟩ := h s hs
  exact ⟨a, s', hrun, hs', hpost a ha⟩

/-- The last step enters nothing. -/
theorem Lays.last (hm : Lays m as P) (hf : ∀ a, P a → Lays (f a) 0 Q) : Lays (m >>= f) as Q :=
  (hm.bind hf).of_eq (add_zero as)

/-- A step that only looks at something. -/
theorem Lays.look {e : Except Fault α} {a : α} (he : e = .ok a) (hf : Lays (f a) as Q) :
    Lays ((liftM e : Layout α) >>= f) as Q := by
  subst he
  exact hf

/-- Two ways to a result that goes on in one way. -/
theorem Lays.fork {γ : Type} {p : Prop} [Decidable p] {m' : Layout γ} {g : γ → α}
    (hm : p → Lays m as P) (hm' : Lays m' as fun c => P (g c))
    (hf : ∀ a, P a → Lays (f a) bs Q) :
    Lays (if p then m >>= f else m' >>= fun c => Pure.pure (g c) >>= f) (as + bs) Q := by
  split
  · next hp => exact (hm hp).bind hf
  · refine hm'.bind fun c hc => ?_
    rw [pure_bind]
    exact hf _ hc

/-- A step whose result is there already. -/
theorem Lays.given {a : α} (h : Lays (f a) as Q) : Lays (Pure.pure a >>= f) as Q := by
  rwa [pure_bind]

end Rules

theorem Keeps.of_eq {m : Layout Doc} {as bs : Multiset Attached} (h : Keeps m as) (heq : as = bs) :
    Keeps m bs := heq ▸ h

/-! ## Lists -/

section Lists

variable {ι : Type} {as : ι → Multiset Attached}

theorem keepsAll_mapM {f : ι → Layout Doc} {l : List ι} (h : ∀ x ∈ l, Keeps (f x) (as x)) :
    Lays (l.mapM f) (l.map as).sum fun ds =>
      Doc.HoldsAll ds (forms (l.map as).sum) ∧ ds.length = l.length := by
  induction l with
  | nil => exact .pure ⟨.nil, rfl⟩
  | cons x l ih =>
    rw [List.forall_mem_cons] at h
    rw [List.mapM_cons, List.map_cons, List.sum_cons]
    refine h.1.bind fun d hd => (ih h.2).last fun ds hds => .pure ⟨?_, ?_⟩
    · rw [forms_add]
      exact .cons hd hds.1
    · rw [List.length_cons, List.length_cons, hds.2]

theorem keepsAll_flatten {f : ι → Layout (List Doc)} {l : List ι}
    (h : ∀ x ∈ l, KeepsAll (f x) (as x)) :
    KeepsAll (l.mapM f >>= fun parts => pure parts.flatten) (l.map as).sum := by
  refine Lays.last (P := fun parts => Doc.HoldsAll parts.flatten (forms (l.map as).sum)) ?_
    fun parts hparts => .pure hparts
  induction l with
  | nil => exact .pure .nil
  | cons x l ih =>
    rw [List.forall_mem_cons] at h
    rw [List.mapM_cons, List.map_cons, List.sum_cons]
    refine h.1.bind fun ds hds => (ih h.2).last fun parts hparts => .pure ?_
    rw [forms_add, List.flatten_cons]
    exact hds.append hparts

end Lists

/-! ## The comments around a node -/

section Around

variable {cx : Context} {a : Attached} {own : List Attached}

/-- A comment stands in the text that the layout looks at. -/
abbrev InSource (cx : Context) (a : Attached) : Prop := a.comment.Within cx.source.size

theorem lays_markPrinted (a : Attached) : Lays (markPrinted a) {a} fun _ => True := by
  intro s _
  exact ⟨(), a.id :: s, rfl, rfl, trivial⟩

theorem keeps_leadingComment (h : InSource cx a) : Keeps (leadingComment cx a) {a} := by
  obtain ⟨_, hfirst, horder, hlast⟩ := h
  have hstop : 0 ≤ a.comment.span.stop := by omega
  obtain ⟨after, hafter⟩ := cx.source.newlineAfter_eq_ok hstop
  obtain ⟨before, hbefore⟩ := cx.source.newlineBefore_eq_ok hfirst (by omega)
  obtain ⟨behind, hbehind, hnonneg⟩ :=
    cx.source.skipNewline_eq_ok (cx.source.skipSpaces_nonneg hstop)
  obtain ⟨blank, hblank⟩ := cx.source.newlineAfter_eq_ok hnonneg
  -- what stands between the comment and its owner is no comment, whichever it is
  have hseparated {sep : Doc} (hsep : sep.Holds 0) : (Doc.list ([comment a.comment, sep] ++
      if blank then [.hardline] else [])).Holds (forms {a}) := by
    have hblankLine : Doc.HoldsAll (if blank then [Doc.hardline] else []) 0 := by
      split
      · exact .one (.line .hard)
      · exact .nil
    have hcomment : Doc.HoldsAll [comment a.comment, sep] (forms {a}) :=
      (Doc.HoldsAll.front (holds_form a) (.one hsep)).of_eq (forms_singleton a).symm
    exact .list ((hcomment.append hblankLine).of_eq (add_zero _))
  have htail {sep : Doc} (hsep : sep.Holds 0) : Lays (do
      let behind ← cx.source.skipNewline (cx.source.skipSpaces a.comment.span.stop false)
      let blank ← cx.source.newlineAfter behind
      pure (.list ([comment a.comment, sep] ++ if blank then [.hardline] else [])) : Layout Doc)
      0 fun d => d.Holds (forms {a}) := .look hbehind (.look hblank (.pure (hseparated hsep)))
  unfold leadingComment
  simp only [pure_bind]
  refine (lays_markPrinted a).last fun _ _ => .look hafter ?_
  split
  · exact htail (.line .hard)
  · split
    · refine .look hbefore (htail ?_)
      split
      · exact .line .hard
      · exact .line .space
    · exact htail (.bare (by decide))

theorem lays_trailingComment (h : InSource cx a) (waiting : Bool) :
    Lays (trailingComment cx a waiting) {a} fun r => r.1.Holds (forms {a}) := by
  obtain ⟨_, hfirst, horder, hlast⟩ := h
  obtain ⟨before, hbefore⟩ := cx.source.newlineBefore_eq_ok hfirst (by omega)
  obtain ⟨blank, hblank⟩ := cx.source.previousLineEmpty_eq_ok hfirst (by omega)
  have hcomment : (comment a.comment).Holds (forms {a}) :=
    (holds_form a).of_eq (forms_singleton a).symm
  have hspaced : (Doc.list [.bare " ", comment a.comment]).Holds (forms {a}) :=
    .list (.plain (.bare (by decide)) (.one hcomment))
  refine (lays_markPrinted a).last fun _ _ => .look hbefore ?_
  split
  · refine .look hblank (.pure (.lineSuffix (.list (.plain (.line .hard)
      (.plain ?_ (.one hcomment))))))
    split
    · exact .line .hard
    · exact .bare (by decide)
  · split
    · refine .pure (.list ((Doc.HoldsAll.cons hspaced.lineSuffix (.one ?_)).of_eq (add_zero _)))
      split
      · exact .bare (by decide)
      · exact .breakParent
    · exact .pure hspaced

/-- The comments around a node, with the state and the accounts that they leave. -/
def Surrounded (cx : Context) (own : List Attached) (waiting : Bool) (s : List Nat) : Prop :=
  ∃ leading trailing s' fs gs, (around cx own waiting).run s = .ok ((leading, trailing), s') ∧
    (s' : Multiset Nat) = (own.filter (·.id ∉ s) : Multiset Attached).map Attached.id + s ∧
    Doc.HoldsAll leading fs ∧ Doc.HoldsAll trailing gs ∧
    fs + gs = forms (own.filter (·.id ∉ s) : List Attached)

theorem filter_fresh {s s' : List Nat} (ha : a.id ∉ own.map Attached.id)
    (hs' : (s' : Multiset Nat) = {a.id} + (s : Multiset Nat)) :
    own.filter (·.id ∉ s') = own.filter (·.id ∉ s) := by
  refine List.filter_congr fun b hb => ?_
  have hne : b.id ≠ a.id := by
    rintro heq
    exact ha (heq ▸ List.mem_map_of_mem hb)
  have hmem : b.id ∈ s' ↔ b.id ∈ s := by
    rw [← Multiset.mem_coe, hs', Multiset.singleton_add, Multiset.mem_cons, Multiset.mem_coe]
    simp [hne]
  simp [hmem]

/-- Around a node stand those of its comments that are not laid out yet. -/
theorem surrounded (hin : ∀ a ∈ own, InSource cx a) (hown : (own.map Attached.id).Nodup)
    (waiting : Bool) {s : List Nat} (hs : s.Nodup) : Surrounded cx own waiting s := by
  induction own generalizing waiting s with
  | nil => exact ⟨[], [], s, 0, 0, rfl, by simp, .nil, .nil, by simp⟩
  | cons a own ih =>
    rw [List.forall_mem_cons] at hin
    rw [List.map_cons, List.nodup_cons] at hown
    have hcontains : (isPrinted a).run s = .ok (s.contains a.id, s) := rfl
    unfold Surrounded
    rw [around, StateT.run_bind, hcontains]
    change ∃ leading trailing s' fs gs, (ite _ _ _ : Layout _).run s = _ ∧ _
    by_cases hprinted : a.id ∈ s
    · rw [List.filter_cons_of_neg (by simpa using hprinted), if_pos (by simpa using hprinted)]
      exact ih hin.2 hown.2 waiting hs
    · rw [List.filter_cons_of_pos (by simpa using hprinted), if_neg (by simpa using hprinted)]
      have hfresh : (({a} : Multiset Attached).map Attached.id + (s : Multiset Nat)).Nodup := by
        simpa using ⟨hprinted, hs⟩
      split
      · obtain ⟨d, s₁, hfirst, hs₁, hd⟩ := keeps_leadingComment hin.1 s hfresh
        have hnodup : s₁.Nodup := by
          rw [← Multiset.coe_nodup, hs₁]
          exact hfresh
        obtain ⟨leading, trailing, s', fs, gs, hrun, hs', hleading, htrailing, hsum⟩ :=
          ih hin.2 hown.2 waiting hnodup
        rw [filter_fresh hown.1 hs₁] at hs' hsum
        refine ⟨d :: leading, trailing, s', forms {a} + fs, gs, ?_, ?_, .cons hd hleading,
          htrailing, ?_⟩
        · rw [StateT.run_bind, hfirst]
          change (around cx own waiting >>= fun x => pure (d :: x.1, x.2)).run s₁ = _
          rw [StateT.run_bind, hrun]
          rfl
        · rw [hs', hs₁]
          simp
        · rw [add_assoc, hsum, ← Multiset.cons_coe, ← Multiset.singleton_add, forms_add]
      · obtain ⟨⟨d, waits⟩, s₁, hfirst, hs₁, hd⟩ := lays_trailingComment hin.1 waiting s hfresh
        have hnodup : s₁.Nodup := by
          rw [← Multiset.coe_nodup, hs₁]
          exact hfresh
        obtain ⟨leading, trailing, s', fs, gs, hrun, hs', hleading, htrailing, hsum⟩ :=
          ih hin.2 hown.2 waits hnodup
        rw [filter_fresh hown.1 hs₁] at hs' hsum
        refine ⟨leading, d :: trailing, s', fs, forms {a} + gs, ?_, ?_, hleading,
          .cons hd htrailing, ?_⟩
        · rw [StateT.run_bind, hfirst]
          change (around cx own waits >>= fun x => pure (x.1, d :: x.2)).run s₁ = _
          rw [StateT.run_bind, hrun]
          rfl
        · rw [hs', hs₁]
          simp
        · rw [add_left_comm, hsum, ← Multiset.cons_coe, ← Multiset.singleton_add, forms_add]

/-- A node's rule may lay out some of the node's own comments; the others come around it. -/
theorem lays_withComments {m : Layout Doc} {below : Multiset Attached} {fs : Doc.Content}
    (p : Attached → Bool) (hin : ∀ a ∈ own, InSource cx a)
    (hm : Lays m (↑(own.filter p) + below) fun d => d.Holds (forms ↑(own.filter p) + fs)) :
    Lays (m >>= withComments cx own) (↑own + below) fun d => d.Holds (forms ↑own + fs) := by
  intro s hs
  rw [Multiset.map_add, add_assoc] at hs
  obtain ⟨hown, hrest, hdisjoint⟩ := Multiset.nodup_add.1 hs
  have hids : (own.map Attached.id).Nodup := by simpa using hown
  have hkept : (↑(own.filter p) : Multiset Attached) ≤ ↑own := List.filter_sublist.subperm
  have hfirst : ((↑(own.filter p) + below).map Attached.id + (s : Multiset Nat)).Nodup := by
    refine Multiset.nodup_of_le ?_ hs
    rw [Multiset.map_add, add_assoc]
    exact Multiset.add_le_add_right (Multiset.map_le_map hkept)
  obtain ⟨d, s₁, hrun, hs₁, hd⟩ := hm s hfirst
  have hs₁nodup : s₁.Nodup := by
    rw [← Multiset.coe_nodup, hs₁]
    exact hfirst
  -- the rule has laid out just those of the node's comments that `p` holds of
  have hleft : own.filter (·.id ∉ s₁) = own.filter fun a => !p a := by
    refine List.filter_congr fun a ha => ?_
    have hmem : a.id ∈ s₁ ↔ p a = true := by
      rw [← Multiset.mem_coe, hs₁, Multiset.map_add, add_assoc, Multiset.mem_add]
      constructor
      · rintro (h | h)
        · obtain ⟨b, hb, hid⟩ := Multiset.mem_map.1 h
          rw [Multiset.mem_coe, List.mem_filter] at hb
          rw [← List.inj_on_of_nodup_map hids hb.1 ha hid]
          exact hb.2
        · exact absurd h (Multiset.disjoint_left.1 hdisjoint
            (Multiset.mem_map_of_mem _ (Multiset.mem_coe.2 ha)))
      · intro h
        exact .inl (Multiset.mem_map_of_mem _ (Multiset.mem_coe.2 (List.mem_filter.2 ⟨ha, h⟩)))
    simp [hmem]
  have hparts : (↑(own.filter fun a => !p a) : Multiset Attached) + ↑(own.filter p) = ↑own := by
    rw [Multiset.coe_add, Multiset.coe_eq_coe]
    exact (List.perm_append_comm.trans (List.filter_append_perm p own))
  have haround : Surrounded cx own false s₁ := surrounded hin hids false hs₁nodup
  obtain ⟨leading, trailing, s₂, front, back, haround, hs₂, hleading, htrailing, hsum⟩ := haround
  rw [hleft] at hs₂ hsum
  refine ⟨if leading.isEmpty && trailing.isEmpty then d else
    .list [.list leading, d, .list trailing], s₂, ?_, ?_, ?_⟩
  · rw [StateT.run_bind, hrun]
    change (around cx own false >>= fun x => if x.1.isEmpty && x.2.isEmpty then pure d
      else pure (.list [.list x.1, d, .list x.2])).run s₁ = _
    rw [StateT.run_bind, haround]
    change StateT.run (if leading.isEmpty && trailing.isEmpty then pure d else _) s₂ = _
    split
    · rfl
    · rfl
  · rw [hs₂, hs₁, ← add_assoc, ← Multiset.map_add, ← add_assoc, hparts]
  · have htotal : front + (forms ↑(own.filter p) + fs + back) = forms ↑own + fs := by
      rw [add_left_comm, hsum, add_comm, ← add_assoc, ← forms_add, hparts]
    split
    · next hempty =>
      rw [Bool.and_eq_true, List.isEmpty_iff, List.isEmpty_iff] at hempty
      rw [hempty.1] at hleading
      rw [hempty.2] at htrailing
      refine (hleading.drop (htrailing.drop hd)).of_eq ?_
      rw [add_comm back]
      exact htotal
    · exact (Doc.Holds.list (.cons (.list hleading) (.cons hd (.one (.list htrailing))))).of_eq
        htotal

/-- All comments of a node come around its document. -/
theorem lays_allAround (hin : ∀ a ∈ own, InSource cx a) {d : Doc} {fs : Doc.Content}
    (hd : d.Holds fs) : Lays (withComments cx own d) ↑own fun e => e.Holds (forms ↑own + fs) := by
  have hnone : (own.filter fun _ => false) = [] := List.filter_eq_nil_iff.2 (by simp)
  have h : Lays (pure d >>= withComments cx own) (↑own + 0) fun e => e.Holds (forms ↑own + fs) := by
    refine lays_withComments (fun _ => false) hin ?_
    rw [hnone]
    exact .pure (hd.of_eq (zero_add fs).symm)
  rwa [pure_bind, add_zero] at h

/-! ## The comments inside a node -/

/-- The document, if there is one, holds the comments; without one there are none. -/
def HeldBy (fs : Doc.Content) : Option Doc → Prop
  | none => fs = 0
  | some d => d.Holds fs

theorem holdsAll_comments (l : List Attached) :
    Doc.HoldsAll (l.map fun a => comment a.comment) (forms l) := by
  induction l with
  | nil => exact .nil
  | cons a l ih =>
    rw [← Multiset.cons_coe, ← Multiset.singleton_add, forms_add, forms_singleton]
    exact .cons (holds_form a) ih

theorem filterM_run {l : List Attached} {f : Attached → Layout Bool} {p : Attached → Bool}
    {s : List Nat} (h : ∀ a ∈ l, (f a).run s = .ok (p a, s)) :
    (l.filterM f).run s = .ok (l.filter p, s) := by
  have haux (acc : List Attached) : (l.filterAuxM f acc).run s =
      .ok ((l.filter p).reverse ++ acc, s) := by
    induction l generalizing acc with
    | nil => rfl
    | cons a l ih =>
      rw [List.forall_mem_cons] at h
      rw [List.filterAuxM, StateT.run_bind, h.1]
      change (l.filterAuxM f (cond (p a) (a :: acc) acc)).run s = _
      rw [ih h.2]
      cases hp : p a with
      | true => simp [hp]
      | false => simp [hp]
  rw [List.filterM, StateT.run_bind, haux]
  simp

theorem lays_forM_markPrinted (l : List Attached) :
    Lays (l.forM markPrinted) l fun _ => True := by
  induction l with
  | nil => exact .pure trivial
  | cons a l ih => exact (lays_markPrinted a).bind fun _ _ => ih

/-- Inside a node stand its dangling comments. -/
theorem lays_dangling (own : List Attached) :
    Lays (dangling own) (own.filter (·.role = .dangling) : List Attached)
      (HeldBy (forms (own.filter (·.role = .dangling) : List Attached))) := by
  intro s hs
  have hfresh : ∀ a ∈ own, StateT.run (do
      pure (decide (a.role = .dangling) && !(← isPrinted a)) : Layout Bool) s =
        .ok (decide (a.role = .dangling), s) := by
    intro a ha
    change Except.ok (decide (a.role = .dangling) && !s.contains a.id, s) = _
    by_cases hrole : a.role = .dangling
    · have hid : a.id ∈ (↑(own.filter (·.role = .dangling)) : Multiset Attached).map Attached.id :=
        Multiset.mem_map_of_mem _ (Multiset.mem_coe.2 (by simp [ha, hrole]))
      have hnot : a.id ∉ s := fun h =>
        Multiset.disjoint_left.1 (Multiset.nodup_add.1 hs).2.2 hid (Multiset.mem_coe.2 h)
      simp [hrole, hnot]
    · simp [hrole]
  have hinside := filterM_run hfresh
  generalize own.filter (·.role = .dangling) = inside at hs hinside ⊢
  obtain ⟨_, s', hmark, hs', _⟩ := lays_forM_markPrinted inside s hs
  refine ⟨if inside.isEmpty then none else
    some (Doc.join .hardline (inside.map fun a => comment a.comment)), s', ?_, hs', ?_⟩
  · unfold dangling
    rw [StateT.run_bind, hinside]
    change (inside.forM markPrinted >>= fun _ => if inside.isEmpty then pure none else _).run s = _
    rw [StateT.run_bind, hmark]
    change StateT.run (if inside.isEmpty then pure none else _) s' = _
    split
    · rfl
    · rfl
  · split
    · next hempty =>
      rw [List.isEmpty_iff.1 hempty]
      rfl
    · exact .join (.line .hard) (holdsAll_comments inside)

end Around

end Layout

end MonkeyFormat
