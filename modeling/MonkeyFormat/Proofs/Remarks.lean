import Mathlib
import MonkeyFormat.Layout.Comments
import MonkeyFormat.Proofs.Shape

set_option autoImplicit false

/-! # Comments in documents

A document holds comments as parts of their own: a text that starts like a comment, or the lines of
a starred block. Every other text of a layout starts in another way, so the comments of a document
can be counted without knowing how it was made, unless it has a stretch of the source in it. A
document without alien parts can be rendered. -/

namespace MonkeyFormat

namespace Doc

/-! ## Alien parts -/

mutual

/-- Is every part of the document one that can be rendered? -/
def solid : Doc → Bool
  | .list parts => solidAll parts
  | .concat parts => solidAll parts
  | .fill parts => solidAll parts
  | .indent d => d.solid
  | .group d _ => d.solid
  | .lineSuffix d => d.solid
  | .alien _ => false
  | _ => true

/-- Are the documents all without alien parts? -/
def solidAll : List Doc → Bool
  | [] => true
  | d :: ds => d.solid && solidAll ds

end

theorem solidAll_iff {ds : List Doc} : solidAll ds = true ↔ ∀ d ∈ ds, d.solid = true := by
  induction ds with
  | nil => simp [solidAll]
  | cons d ds ih => simp [solidAll, ih]

mutual

theorem propagate_solid : ∀ d : Doc, d.solid = true → ∃ r, d.propagate = .ok r
  | .bare _, _ | .text _, _ | .line _, _ | .breakParent, _ => ⟨_, rfl⟩
  | .list parts, h | .concat parts, h | .fill parts, h => by
    obtain ⟨r, hr⟩ := propagateAll_solid parts h
    rw [propagate, hr]
    exact ⟨_, rfl⟩
  | .group d _, h | .indent d, h | .lineSuffix d, h => by
    obtain ⟨r, hr⟩ := propagate_solid d h
    rw [propagate, hr]
    exact ⟨_, rfl⟩
  | .alien _, h => by cases h

theorem propagateAll_solid : ∀ ds : List Doc, solidAll ds = true → ∃ r, propagateAll ds = .ok r
  | [], _ => ⟨_, rfl⟩
  | d :: ds, h => by
    rw [solidAll, Bool.and_eq_true] at h
    obtain ⟨r, hr⟩ := propagate_solid d h.1
    obtain ⟨rs, hrs⟩ := propagateAll_solid ds h.2
    rw [propagateAll, hr]
    change ∃ q, (propagateAll ds >>= fun x => pure (r.1 :: x.1, r.2 || x.2)) = .ok q
    rw [hrs]
    exact ⟨_, rfl⟩

end

theorem solidAll_bare (xs : List String) : solidAll (xs.map .bare) = true := by
  induction xs with
  | nil => rfl
  | cons x xs ih => rw [List.map_cons, solidAll, ih]; rfl

theorem solidAll_intersperse (sep : Doc) (hsep : sep.solid = true) {ds : List Doc}
    (h : solidAll ds = true) : solidAll (ds.intersperse sep) = true := by
  induction ds with
  | nil => rfl
  | cons d ds ih =>
    cases ds with
    | nil => exact h
    | cons e ds =>
      rw [solidAll, Bool.and_eq_true] at h
      change (d.solid && (sep.solid && solidAll ((e :: ds).intersperse sep))) = true
      rw [h.1, hsep, ih h.2]
      rfl

/-- A document without alien parts is rendered within any widths. -/
theorem render_solid (w : Widths) {d : Doc} (h : d.solid = true) :
    ∃ text, d.render w = .ok text := by
  obtain ⟨r, hr⟩ := propagate_solid d h
  rw [render, propagateBreaks, hr]
  exact ⟨_, rfl⟩

/-! ## Remarks -/

/-- Do the parts start with the opening of a block comment that has its lines on their own? -/
def opensBlock : List Doc → Bool
  | .bare s :: _ => s = "/*"
  | _ => false

mutual

/-- The comments in a document, in order: texts that start like one, and starred blocks. -/
def remarks : Doc → List Doc
  | .bare s => if Text.opensComment s then [.bare s] else []
  | .text s => if Text.opensComment s then [.text s] else []
  | .list parts => if opensBlock parts then [.list parts] else remarksAll parts
  | .concat parts => remarksAll parts
  | .fill parts => remarksAll parts
  | .indent d => d.remarks
  | .group d _ => d.remarks
  | .lineSuffix d => d.remarks
  | .line _ => []
  | .breakParent => []
  | .alien _ => []

/-- The comments in several documents, in order. -/
def remarksAll : List Doc → List Doc
  | [] => []
  | d :: ds => d.remarks ++ remarksAll ds

end

/-- The comments that a document is known to hold; of a document with a stretch of the source in it
nothing is known. -/
abbrev Content := WithTop (Multiset Doc)

/-- The document can be rendered. If its comments are known, they are the given ones, and it does
not open a starred block. -/
structure Holds (d : Doc) (fs : Content) : Prop where
  solid : d.solid = true
  known : ∀ gs : Multiset Doc, fs = gs → d ≠ .bare "/*" ∧ (d.remarks : Multiset Doc) = gs

/-- The documents can be rendered and together hold the given comments, if these are known. -/
structure HoldsAll (ds : List Doc) (fs : Content) : Prop where
  solid : solidAll ds = true
  known : ∀ gs : Multiset Doc, fs = gs →
    (∀ d ∈ ds, d ≠ .bare "/*") ∧ (remarksAll ds : Multiset Doc) = gs

variable {d e sep : Doc} {ds es : List Doc} {fs gs : Content}

namespace HoldsAll

theorem nil : HoldsAll [] 0 := ⟨rfl, fun gs hgs => ⟨by simp, WithTop.coe_inj.1 hgs⟩⟩

theorem cons (h : d.Holds fs) (hs : HoldsAll ds gs) : HoldsAll (d :: ds) (fs + gs) where
  solid := by rw [solidAll, h.solid, hs.solid]; rfl
  known := by
    intro total htotal
    obtain ⟨first, rest, rfl, rfl, rfl⟩ := WithTop.add_eq_coe.1 htotal
    obtain ⟨hclosed, hremarks⟩ := h.known first rfl
    obtain ⟨hclosedAll, hremarksAll⟩ := hs.known rest rfl
    refine ⟨List.forall_mem_cons.2 ⟨hclosed, hclosedAll⟩, ?_⟩
    rw [remarksAll, ← Multiset.coe_add, hremarks, hremarksAll]

theorem of_eq (h : HoldsAll ds fs) (heq : fs = gs) : HoldsAll ds gs := heq ▸ h

/-- A document without comments in front. -/
theorem plain (h : d.Holds 0) (hs : HoldsAll ds fs) : HoldsAll (d :: ds) fs :=
  (cons h hs).of_eq (zero_add fs)

/-- A document in front of documents without comments. -/
theorem front (h : d.Holds fs) (hs : HoldsAll ds 0) : HoldsAll (d :: ds) fs :=
  (cons h hs).of_eq (add_zero fs)

theorem head (h : HoldsAll (d :: ds) fs) : ∃ fs₁ fs₂, d.Holds fs₁ ∧ HoldsAll ds fs₂ ∧
    fs₁ + fs₂ = fs := by
  obtain ⟨hsolid, hknown⟩ := h
  rw [solidAll, Bool.and_eq_true] at hsolid
  cases fs using WithTop.recTopCoe with
  | top =>
    exact ⟨⊤, ⊤, ⟨hsolid.1, fun _ h => absurd h WithTop.top_ne_coe⟩,
      ⟨hsolid.2, fun _ h => absurd h WithTop.top_ne_coe⟩, rfl⟩
  | coe fs =>
    obtain ⟨hclosed, hremarks⟩ := hknown fs rfl
    rw [List.forall_mem_cons] at hclosed
    rw [remarksAll, ← Multiset.coe_add] at hremarks
    refine ⟨_, _, ⟨hsolid.1, fun _ h => ⟨hclosed.1, WithTop.coe_inj.1 h⟩⟩,
      ⟨hsolid.2, fun _ h => ⟨hclosed.2, WithTop.coe_inj.1 h⟩⟩, ?_⟩
    rw [← WithTop.coe_add, hremarks]

/-- A document without comments in front may be left out. -/
theorem tail (h : HoldsAll (d :: ds) fs) (hd : d.remarks = []) : HoldsAll ds fs := by
  refine ⟨?_, fun gs hgs => ?_⟩
  · have hsolid := h.solid
    rw [solidAll, Bool.and_eq_true] at hsolid
    exact hsolid.2
  · obtain ⟨hclosed, hremarks⟩ := h.known gs hgs
    rw [remarksAll, hd, List.nil_append] at hremarks
    exact ⟨fun e he => hclosed e (List.mem_cons_of_mem d he), hremarks⟩

theorem one (h : d.Holds fs) : HoldsAll [d] fs := (cons h nil).of_eq (add_zero fs)

/-- Of documents that can be rendered nothing need be known. -/
theorem unknown (h : solidAll ds = true) : HoldsAll ds ⊤ :=
  ⟨h, fun _ h => absurd h WithTop.top_ne_coe⟩

theorem eq_of_nil (h : HoldsAll [] fs) : fs = ⊤ ∨ fs = 0 := by
  cases fs using WithTop.recTopCoe with
  | top => exact .inl rfl
  | coe fs => exact .inr (congrArg _ (h.known fs rfl).2.symm)

/-- No documents hold no comments, so they may be left out. -/
theorem drop (h : HoldsAll [] fs) (h' : d.Holds gs) : d.Holds (fs + gs) := by
  rcases h.eq_of_nil with rfl | rfl
  · rw [WithTop.top_add]
    exact ⟨h'.solid, fun _ h => absurd h WithTop.top_ne_coe⟩
  · rwa [zero_add]

theorem append (h : HoldsAll ds fs) (h' : HoldsAll es gs) : HoldsAll (ds ++ es) (fs + gs) := by
  induction ds generalizing fs with
  | nil =>
    rcases h.eq_of_nil with rfl | rfl
    · rw [WithTop.top_add]
      exact unknown h'.solid
    · rwa [zero_add]
  | cons d ds ih =>
    obtain ⟨fs₁, fs₂, hd, hds, rfl⟩ := h.head
    rw [add_assoc]
    exact cons hd (ih hds)

/-- Documents that are each put into another one. -/
theorem map {f : Doc → Doc} (hf : ∀ d fs, d.Holds fs → (f d).Holds fs) (h : HoldsAll ds fs) :
    HoldsAll (ds.map f) fs := by
  induction ds generalizing fs with
  | nil => exact h
  | cons d ds ih =>
    obtain ⟨fs₁, fs₂, hd, hds, rfl⟩ := h.head
    exact cons (hf d fs₁ hd) (ih hds)

theorem intersperse (hsep : sep.Holds 0) (h : HoldsAll ds fs) :
    HoldsAll (ds.intersperse sep) fs := by
  induction ds generalizing fs with
  | nil => exact h
  | cons d ds ih =>
    cases ds with
    | nil => exact h
    | cons e ds =>
      obtain ⟨fs₁, fs₂, hd, hds, rfl⟩ := h.head
      exact cons hd ((cons hsep (ih hds)).of_eq (zero_add fs₂))

/-- The first document, or another one that holds nothing, and the rest. -/
theorem headD (h : HoldsAll ds fs) (he : e.Holds 0) :
    ∃ fs₁ fs₂, (ds.headD e).Holds fs₁ ∧ HoldsAll (ds.drop 1) fs₂ ∧ fs₁ + fs₂ = fs := by
  cases ds with
  | nil => exact ⟨0, fs, he, h, zero_add fs⟩
  | cons d ds => exact h.head

/-- One of two lists of documents that hold the same. -/
theorem ite {p : Prop} [Decidable p] (h : HoldsAll ds fs) (h' : HoldsAll es fs) :
    HoldsAll (if p then ds else es) fs := by
  split
  · exact h
  · exact h'

end HoldsAll

namespace Holds

theorem of_eq (h : d.Holds fs) (heq : fs = gs) : d.Holds gs := heq ▸ h

/-- A document whose comments are known, and which is no text. -/
theorem of_remarks {fs : Multiset Doc} (hsolid : d.solid = true) (hclosed : d ≠ .bare "/*")
    (hremarks : (d.remarks : Multiset Doc) = fs) : d.Holds fs :=
  ⟨hsolid, fun _ h => ⟨hclosed, hremarks.trans (WithTop.coe_inj.1 h)⟩⟩

/-- Of any document that can be rendered nothing need be known. -/
theorem unknown (h : d.solid = true) : d.Holds ⊤ := ⟨h, fun _ h => absurd h WithTop.top_ne_coe⟩

/-- A text that does not start like a comment. -/
theorem bare {s : String} (h : Text.opensComment s = false) : (Doc.bare s).Holds 0 := by
  have hremarks : ((Doc.bare s).remarks : Multiset Doc) = 0 := by
    rw [Doc.remarks, h]
    rfl
  refine of_remarks rfl ?_ hremarks
  intro hs
  rw [Doc.bare.inj hs] at h
  exact absurd h (by decide)

theorem list (h : HoldsAll ds fs) : (Doc.list ds).Holds fs := by
  refine ⟨h.solid, fun gs hgs => ⟨by rintro ⟨⟩, ?_⟩⟩
  -- no part opens a starred block, so the comments are those of the parts
  obtain ⟨hclosed, hremarks⟩ := h.known gs hgs
  have hopens : opensBlock ds = false := by
    unfold opensBlock
    split
    · next s rest =>
      have hne := hclosed _ List.mem_cons_self
      simpa using hne
    · rfl
  rw [Doc.remarks, hopens]
  exact hremarks

theorem fill (h : HoldsAll ds fs) : (Doc.fill ds).Holds fs :=
  ⟨h.solid, fun gs hgs => ⟨by rintro ⟨⟩, (h.known gs hgs).2⟩⟩

theorem indent (h : d.Holds fs) : (Doc.indent d).Holds fs :=
  ⟨h.solid, fun gs hgs => ⟨by rintro ⟨⟩, (h.known gs hgs).2⟩⟩

theorem group (h : d.Holds fs) (broken : Bool) : (Doc.group d broken).Holds fs :=
  ⟨h.solid, fun gs hgs => ⟨by rintro ⟨⟩, (h.known gs hgs).2⟩⟩

theorem lineSuffix (h : d.Holds fs) : (Doc.lineSuffix d).Holds fs :=
  ⟨h.solid, fun gs hgs => ⟨by rintro ⟨⟩, (h.known gs hgs).2⟩⟩

theorem line (kind : LineKind) : (Doc.line kind).Holds 0 := of_remarks rfl (by rintro ⟨⟩) rfl

theorem breakParent : Doc.breakParent.Holds 0 := of_remarks rfl (by rintro ⟨⟩) rfl

theorem join (hsep : sep.Holds 0) (h : HoldsAll ds fs) : (Doc.join sep ds).Holds fs :=
  list (h.intersperse hsep)

/-- One of two documents that hold the same. -/
theorem ite {p : Prop} [Decidable p] (h : d.Holds fs) (h' : e.Holds fs) :
    (if p then d else e).Holds fs := by
  split
  · exact h
  · exact h'

end Holds

end Doc

/-! ## The document of a comment -/

namespace Layout

/-- The document of a comment holds just that comment. -/
theorem holds_comment (c : Comment) :
    (comment c).Holds (({comment c} : Multiset Doc) : Doc.Content) := by
  unfold comment
  split
  · have hopens : Text.opensComment ("//" ++ Text.trimEnd c.value) = true := by
      simp [Text.opensComment]
    refine .of_remarks rfl ?_ (by rw [Doc.remarks, hopens]; rfl)
    intro h
    have := congrArg String.toList (Doc.bare.inj h)
    simp at this
  · split
    · -- the lines between the delimiters are part of the comment
      refine .of_remarks ?_ (by rintro ⟨⟩) (by rw [Doc.remarks]; rfl)
      have hlines := Doc.solidAll_intersperse .hardline rfl
        (Doc.solidAll_bare (starredLines c.value))
      simp [Doc.solid, Doc.solidAll, Doc.join, hlines]
    · have hopens : Text.opensComment ("/*" ++ c.value ++ "*/") = true := by
        simp [Text.opensComment]
      refine .of_remarks rfl ?_ (by rw [Doc.remarks, hopens]; rfl)
      intro h
      have := congrArg (fun s => s.toList.length) (Doc.bare.inj h)
      simp at this

end Layout

end MonkeyFormat
