import MonkeyFormat.Doc.Render

set_option autoImplicit false

/-! # What rendering can write

A document without line suffixes is laid out as its characters in order; rendering only decides
which of its lines break, how far they are indented, and which blanks at the end of a line go.
The layouts that this leaves are described without the renderer's state, so that what holds of all
of them holds at every width. -/

namespace MonkeyFormat

/-! ## The pieces of a document -/

/-- A document without its groups and indentations: characters, and places where a line may
break. -/
inductive Piece where
  | char (c : Char)
  | line (kind : LineKind)
deriving DecidableEq

/-- The pieces of a text. -/
def textPieces (s : String) : List Piece := s.toList.map .char

namespace Doc

mutual

/-- The pieces of a document in order. -/
def pieces : Doc → List Piece
  | .bare s => textPieces s
  | .text s => textPieces s
  | .list parts => piecesAll parts
  | .concat parts => piecesAll parts
  | .fill parts => piecesAll parts
  | .indent d => d.pieces
  | .group d _ => d.pieces
  | .line kind => [.line kind]
  | .lineSuffix d => d.pieces
  | .breakParent => []
  | .alien _ => []

/-- The pieces of several documents in order. -/
def piecesAll : List Doc → List Piece
  | [] => []
  | d :: ds => d.pieces ++ piecesAll ds

end

mutual

/-- Is the document free of line suffixes, of texts that run over a line break, and of values that
are no documents? -/
def plain : Doc → Bool
  | .bare s => !isMultiline s
  | .text s => !isMultiline s
  | .list parts => plainAll parts
  | .concat parts => plainAll parts
  | .fill parts => plainAll parts
  | .indent d => d.plain
  | .group d _ => d.plain
  | .lineSuffix _ => false
  | .alien _ => false
  | _ => true

/-- Are all of several documents plain? -/
def plainAll : List Doc → Bool
  | [] => true
  | d :: ds => d.plain && plainAll ds

end

@[simp] theorem piecesAll_append (ds es : List Doc) :
    piecesAll (ds ++ es) = piecesAll ds ++ piecesAll es := by
  induction ds with
  | nil => rfl
  | cons d ds ih => simp [piecesAll, ih]

@[simp] theorem plainAll_append (ds es : List Doc) :
    plainAll (ds ++ es) = (plainAll ds && plainAll es) := by
  induction ds with
  | nil => rfl
  | cons d ds ih => simp [plainAll, ih, Bool.and_assoc]

mutual

/-- Marking broken groups keeps the pieces of a plain document. -/
theorem propagate_plain : ∀ d : Doc, d.plain = true →
    ∃ e b, d.propagate = .ok (e, b) ∧ e.pieces = d.pieces ∧ e.plain = true
  | .bare s, h => ⟨_, _, rfl, rfl, h⟩
  | .text s, h => ⟨_, _, rfl, rfl, h⟩
  | .line k, _ => ⟨_, _, rfl, rfl, rfl⟩
  | .breakParent, _ => ⟨_, _, rfl, rfl, rfl⟩
  | .list parts, h => by
    obtain ⟨es, b, hrun, hp, hq⟩ := propagateAll_plain parts h
    exact ⟨.list es, b, by rw [propagate, hrun]; rfl, hp, hq⟩
  | .concat parts, h => by
    obtain ⟨es, b, hrun, hp, hq⟩ := propagateAll_plain parts h
    exact ⟨.concat es, b, by rw [propagate, hrun]; rfl, hp, hq⟩
  | .fill parts, h => by
    obtain ⟨es, b, hrun, hp, hq⟩ := propagateAll_plain parts h
    exact ⟨.fill es, b, by rw [propagate, hrun]; rfl, hp, hq⟩
  | .group d broken, h => by
    obtain ⟨e, b, hrun, hp, hq⟩ := propagate_plain d h
    exact ⟨.group e (b || broken), b || broken, by rw [propagate, hrun]; rfl, hp, hq⟩
  | .indent d, h => by
    obtain ⟨e, b, hrun, hp, hq⟩ := propagate_plain d h
    exact ⟨.indent e, b, by rw [propagate, hrun]; rfl, hp, hq⟩
  | .lineSuffix _, h => by cases h
  | .alien _, h => by cases h

theorem propagateAll_plain : ∀ ds : List Doc, plainAll ds = true →
    ∃ es b, propagateAll ds = .ok (es, b) ∧ piecesAll es = piecesAll ds ∧ plainAll es = true
  | [], _ => ⟨_, _, rfl, rfl, rfl⟩
  | d :: ds, h => by
    rw [plainAll, Bool.and_eq_true] at h
    obtain ⟨e, b, hrun, hp, hq⟩ := propagate_plain d h.1
    obtain ⟨es, bs, hruns, hps, hqs⟩ := propagateAll_plain ds h.2
    refine ⟨e :: es, b || bs, ?_, ?_, ?_⟩
    · rw [propagateAll, hrun]
      change (propagateAll ds >>= fun x => pure (e :: x.1, b || x.2)) = _
      rw [hruns]
      rfl
    · rw [piecesAll, piecesAll, hp, hps]
    · rw [plainAll, hq, hqs]
      rfl

end

/-! ## Layouts of pieces -/

/-- Is the text empty, or does it start with a line break? Blanks before such a text are trimmed. -/
def endsLine : List Char → Bool
  | [] => true
  | c :: _ => c = '\n'

/-- The texts that pieces may be laid out as: a line break is taken or not, with any indentation,
and blanks at the end of a line are left out. -/
inductive Expands : List Piece → List Char → Prop
  | nil : Expands [] []
  | char (c : Char) (ps : List Piece) (cs : List Char) : Expands ps cs →
      Expands (.char c :: ps) (c :: cs)
  | trimmed (c : Char) (ps : List Piece) (cs : List Char) : Output.isTrailing c = true →
      endsLine cs = true → Expands ps cs → Expands (.char c :: ps) cs
  | flat (ps : List Piece) (cs : List Char) : Expands ps cs → Expands (.line .soft :: ps) cs
  | space (ps : List Piece) (cs : List Char) : Expands ps cs →
      Expands (.line .space :: ps) (' ' :: cs)
  | spaceTrimmed (ps : List Piece) (cs : List Char) : endsLine cs = true → Expands ps cs →
      Expands (.line .space :: ps) cs
  | broken (kind : LineKind) (n : Nat) (ps : List Piece) (cs : List Char) : Expands ps cs →
      Expands (.line kind :: ps) ('\n' :: (List.replicate n ' ' ++ cs))

/-- The pieces of the frames of a stack. -/
def framePieces (fs : List Frame) : List Piece := piecesAll (fs.map Frame.doc)

/-- Are the documents of all frames plain? -/
def framesPlain (fs : List Frame) : Bool := plainAll (fs.map Frame.doc)

theorem map_doc_framesOf_append (i : Int) (m : Mode) (ds : List Doc) (fs : List Frame) :
    (framesOf i m ds ++ fs).map Frame.doc = ds ++ fs.map Frame.doc := by
  simp [framesOf, Function.comp_def]

theorem piecesAll_fillFrames (i : Int) (m : Mode) (width : Int) (parts : List Doc) :
    piecesAll ((fillFrames i m width parts).map Frame.doc) = piecesAll parts := by
  unfold fillFrames
  split <;> simp [piecesAll, pieces]

theorem plainAll_fillFrames (i : Int) (m : Mode) (width : Int) (parts : List Doc) :
    plainAll ((fillFrames i m width parts).map Frame.doc) = plainAll parts := by
  unfold fillFrames
  split <;> simp [plainAll, plain]

/-! ## Outputs before a text -/

/-- What an output becomes before a text: trimmed if the text ends the line. -/
def Output.before (out : Output) (cs : List Char) : Output := if endsLine cs then out.trim else out

theorem before_of_endsLine {out : Output} {cs : List Char} (h : endsLine cs = true) :
    Output.before out cs = out.trim := if_pos h

theorem before_of_not_endsLine {out : Output} {cs : List Char} (h : ¬ endsLine cs = true) :
    Output.before out cs = out := if_neg h

/-- A character written before a layout goes on it, unless it is trimmed. -/
theorem expands_char {c : Char} {ps : List Piece} {cs : List Char} (hc : c ≠ '\n')
    (h : Expands ps cs) (out : Output) :
    ∃ ds, Expands (.char c :: ps) ds ∧
      cs.reverse ++ Output.before (c :: out) cs = ds.reverse ++ Output.before out ds := by
  have hkept : ¬ endsLine (c :: cs) = true := by simpa [endsLine] using hc
  by_cases hends : endsLine cs = true
  · by_cases hblank : Output.isTrailing c = true
    · refine ⟨cs, .trimmed c ps cs hblank hends h, ?_⟩
      rw [before_of_endsLine hends, before_of_endsLine hends, Output.trim,
        List.dropWhile_cons_of_pos hblank]
      rfl
    · refine ⟨c :: cs, .char c ps cs h, ?_⟩
      rw [before_of_endsLine hends, before_of_not_endsLine hkept, Output.trim,
        List.dropWhile_cons_of_neg hblank, List.reverse_cons, List.append_assoc]
      rfl
  · refine ⟨c :: cs, .char c ps cs h, ?_⟩
    rw [before_of_not_endsLine hends, before_of_not_endsLine hkept, List.reverse_cons,
      List.append_assoc]
    rfl

theorem expands_text (t : List Char) {ps : List Piece} {cs : List Char} (ht : '\n' ∉ t)
    (h : Expands ps cs) (out : Output) :
    ∃ ds, Expands (t.map .char ++ ps) ds ∧
      cs.reverse ++ Output.before (t.reverse ++ out) cs = ds.reverse ++ Output.before out ds := by
  induction t generalizing out with
  | nil => exact ⟨cs, h, rfl⟩
  | cons c t ih =>
    rw [List.mem_cons, not_or] at ht
    obtain ⟨ds, hds, hout⟩ := ih ht.2 (c :: out)
    obtain ⟨es, hes, hout'⟩ := expands_char (Ne.symm ht.1) hds out
    refine ⟨es, hes, ?_⟩
    rw [← hout', ← hout, List.reverse_cons, List.append_assoc]
    rfl

theorem trim_replicate (n : Nat) (out : Output) :
    Output.trim (List.replicate n ' ' ++ '\n' :: out) = '\n' :: out := by
  induction n with
  | zero => rfl
  | succ n ih => exact ih

/-- A line break written before a layout goes on it with its indentation. -/
theorem expands_break (kind : LineKind) {ps : List Piece} {cs : List Char}
    (h : Expands ps cs) (out : Output) (ind : Int) :
    ∃ ds, Expands (.line kind :: ps) ds ∧
      cs.reverse ++ Output.before (out.newline ind) cs = ds.reverse ++ Output.before out ds := by
  by_cases hends : endsLine cs = true
  · refine ⟨'\n' :: cs, .broken kind 0 ps cs h, ?_⟩
    rw [before_of_endsLine hends, before_of_endsLine (by simp [endsLine]), Output.newline,
      trim_replicate, List.reverse_cons, List.append_assoc]
    rfl
  · refine ⟨_, .broken kind ind.toNat ps cs h, ?_⟩
    rw [before_of_not_endsLine hends, before_of_endsLine (by simp [endsLine]), Output.newline]
    simp

theorem expands_space {ps : List Piece} {cs : List Char} (h : Expands ps cs) (out : Output) :
    ∃ ds, Expands (.line .space :: ps) ds ∧
      cs.reverse ++ Output.before (out.push " ") cs = ds.reverse ++ Output.before out ds := by
  have hkept : ¬ endsLine (' ' :: cs) = true := by simp [endsLine]
  by_cases hends : endsLine cs = true
  · refine ⟨cs, .spaceTrimmed ps cs hends h, ?_⟩
    rw [before_of_endsLine hends, before_of_endsLine hends]
    rfl
  · refine ⟨' ' :: cs, .space ps cs h, ?_⟩
    rw [before_of_not_endsLine hends, before_of_not_endsLine hkept, List.reverse_cons,
      List.append_assoc]
    rfl

/-! ## The renderer -/

theorem not_mem_of_not_multiline {s : String} (h : (!isMultiline s) = true) :
    '\n' ∉ s.toList := by
  simpa [isMultiline] using h

theorem soft_of_ne {kind : LineKind} (hhard : kind ≠ .hard) (hspace : ¬ kind = .space) :
    kind = .soft := by
  cases kind with
  | space => exact absurd rfl hspace
  | soft => rfl
  | hard => exact absurd rfl hhard

/-- Working off plain frames appends one of the layouts of their pieces, whatever breaks are
taken. -/
theorem run_expands (w : Widths) (out : Output) (col : Int) (suffixes stack : List Frame)
    (hs : suffixes = []) (hplain : framesPlain stack = true) :
    ∃ cs, Expands (framePieces stack) cs ∧
      Output.trim (run w out col suffixes stack) = cs.reverse ++ Output.before out cs := by
  fun_induction run w out col suffixes stack
  case case1 => exact ⟨[], .nil, rfl⟩
  case case2 => cases hs
  case case3 ih | case4 ih =>
    rw [framesPlain, List.map_cons, plainAll, Bool.and_eq_true] at hplain
    obtain ⟨cs, hcs, hrun⟩ := ih hs hplain.2
    rw [hrun]
    exact expands_text _ (not_mem_of_not_multiline hplain.1) hcs _
  case case5 ih | case6 ih =>
    rw [framesPlain, map_doc_framesOf_append, plainAll_append, framePieces,
      map_doc_framesOf_append, piecesAll_append] at ih
    exact ih hs hplain
  case case7 ih | case8 ih => exact ih hs hplain
  case case9 ih =>
    rw [framesPlain, List.map_append, plainAll_append, plainAll_fillFrames, framePieces,
      List.map_append, piecesAll_append, piecesAll_fillFrames] at ih
    exact ih hs hplain
  case case10 | case12 => cases hplain
  case case11 ih => exact ih hs hplain
  case case13 ih =>
    obtain ⟨cs, hcs, hrun⟩ := ih hs hplain
    rw [hrun]
    exact expands_space hcs _
  case case14 hflat hspace ih =>
    have hsoft := soft_of_ne hflat.2 hspace
    obtain ⟨cs, hcs, hrun⟩ := ih hs hplain
    subst hsoft
    exact ⟨cs, .flat _ _ hcs, hrun⟩
  case case15 ih =>
    obtain ⟨cs, hcs, hrun⟩ := ih rfl hplain
    rw [hrun]
    exact expands_break _ hcs _ _
  case case16 => cases hs

/-- Rendering a plain document succeeds, and the text is one of the layouts of its pieces. -/
theorem render_plain (w : Widths) {d : Doc} (h : d.plain = true) :
    ∃ text, d.render w = .ok text ∧ Expands d.pieces text.toList := by
  obtain ⟨e, b, hrun, hpieces, hplain⟩ := propagate_plain d h
  have hstack : framesPlain [⟨0, .breaking, e⟩] = true := by
    simp [framesPlain, plainAll, hplain]
  obtain ⟨cs, hcs, hout⟩ := run_expands w [] 0 [] _ rfl hstack
  refine ⟨(run w [] 0 [] [⟨0, .breaking, e⟩]).toText, ?_, ?_⟩
  · rw [render, propagateBreaks, hrun]
    rfl
  · have hnil : Output.before [] cs = [] := by
      unfold Output.before
      split <;> rfl
    rw [framePieces, List.map_cons, List.map_nil, piecesAll, piecesAll, List.append_nil,
      hpieces] at hcs
    rw [Output.toText, String.toList_ofList, hout, hnil, List.append_nil, List.reverse_reverse]
    exact hcs

end Doc

end MonkeyFormat
