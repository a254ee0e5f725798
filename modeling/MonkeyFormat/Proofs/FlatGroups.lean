import MonkeyFormat.Proofs.Turns

set_option autoImplicit false

/-! # A flat group fits

A group is laid out flat when the lookahead says that it fits together with what follows. The
lookahead takes a later group that is not broken in the mode of the group around it, while the
renderer decides about it when it gets there. If the renderer then finds that the later group does
not fit, it is laid out as the first lookahead took it; if it fits, the second lookahead vouches for
the rest of the line. So every turn keeps it true that the rest of the line fits, up to the next
line break. -/

namespace MonkeyFormat

namespace Doc

/-! ## The lookahead -/

/-- The frame with its indentation taken away. -/
def Frame.level (f : Frame) : Frame := { f with indent := 0 }

theorem level_framesOf (ind : Int) (mode : Mode) (ds : List Doc) :
    (framesOf ind mode ds).map Frame.level = framesOf 0 mode ds := by
  simp [framesOf, Frame.level]

/-- Looking ahead goes through both lists of frames as one, and no indentation counts. -/
theorem fits_level (strict pending : Bool) (width : Int) (probe rest : List Frame) :
    fits strict pending width probe rest =
      fits strict pending width ((probe ++ rest).map Frame.level) [] := by
  -- One step of the lookahead is the same on both sides, whatever command it takes.
  fun_induction fits strict pending width probe rest
  case case1 hwidth => rw [fits.eq_def, if_pos hwidth]
  case case2 hwidth => simp [fits, hwidth]
  case case3 ih => simpa using ih
  case case4 hwidth _ _ _ onText s ih | case5 hwidth _ _ _ onText s ih =>
    conv_rhs => rw [fits.eq_def]
    simp only [List.cons_append, List.map_cons, Frame.level, hwidth, if_false, onText, ih]
  all_goals
    conv_rhs => rw [fits.eq_def]
    simp_all only [List.map_append, List.map_cons, level_framesOf, List.append_assoc, Frame.level,
      List.cons_append, if_false, if_true, dite_eq_ite]
    try rfl

/-- What fits depends on the modes and the documents of the frames in their order, and on nothing
else. -/
theorem fits_congr {strict pending : Bool} {width : Int} {probe rest probe' rest' : List Frame}
    (h : (probe ++ rest).map Frame.level = (probe' ++ rest').map Frame.level) :
    fits strict pending width probe rest = fits strict pending width probe' rest' := by
  rw [fits_level, h, ← fits_level]

theorem nonneg_of_fits {strict pending : Bool} {width : Int} {probe rest : List Frame}
    (h : fits strict pending width probe rest = true) : 0 ≤ width := by
  rw [fits.eq_def] at h
  by_contra hneg
  rw [if_pos (not_le.mp hneg)] at h
  cases h

/-! ## The rest of the line -/

/-- Is the document itself no fill, no line suffix and no text of several lines? -/
def isLined : Doc → Bool
  | .bare s => !isMultiline s
  | .text s => !isMultiline s
  | .fill _ => false
  | .lineSuffix _ => false
  | _ => true

theorem shallow_isLined : Shallow isLined where
  list _ _ := rfl
  concat _ _ := rfl
  fill _ _ := rfl
  indent _ _ := rfl
  group _ _ _ _ := rfl
  lineSuffix _ _ := rfl

theorem firstBreak?_of_not_multiline {s : String} (h : (!isMultiline s) = true) :
    firstBreak? s = none := by
  have hmem := not_mem_of_not_multiline h
  simp only [firstBreak?, List.findIdx?_eq_none_iff]
  intro c hc
  simpa using fun heq : c = '\n' => hmem (heq ▸ hc)

/-- A text of one line moves the column by its length. -/
theorem columnAfter_of_not_multiline {s : String} (col : Int) (h : (!isMultiline s) = true) :
    columnAfter col s = col + s.length := by
  have hsingle : isMultiline s = false := by simpa using h
  simp [columnAfter, hsingle]

/-- In a document of that kind, what is still to be worked off fits into the line up to the next
line break. -/
structure Rendering.RestFits (w : Widths) (r : Rendering) : Prop where
  lined : r.Unsuffixed isLined
  fits : fits false false (w.line - r.col) r.stack [] = true

variable {w : Widths} {r s : Rendering} {cs : List Char} {n : Nat}

/-- A turn breaks the line, or what comes behind its characters fits behind them. -/
theorem Turn.restFits (h : Turn w r cs s) (hr : r.RestFits w) :
    cs.head? = some '\n' ∨ '\n' ∉ cs ∧ s.col = r.col + cs.length ∧ s.RestFits w := by
  have hlined : s.Unsuffixed isLined := h.unsuffixed shallow_isLined (fun _ => rfl) hr.lined
  have hwidth : ¬ w.line - r.col < 0 := not_lt.mpr (nonneg_of_fits hr.fits)
  obtain ⟨⟨hsuffixes, hparts⟩, hfits⟩ := hr
  rw [fits.eq_def, if_neg hwidth] at hfits
  cases h with
  | flush | release => cases hsuffixes
  | newline => exact .inl rfl
  | fill parts | lineSuffix d => cases hparts.top
  | bare t | text t =>
    have hcol : ∀ col, columnAfter col t = col + t.length := fun col =>
      columnAfter_of_not_multiline col hparts.top
    simp only [firstBreak?_of_not_multiline hparts.top] at hfits
    refine .inr ⟨not_mem_of_not_multiline hparts.top, ?_, hlined, ?_⟩
    · rw [String.length_toList]
      exact hcol _
    · simpa [hcol, Int.sub_sub] using hfits
  | space =>
    refine .inr ⟨by decide, rfl, hlined, ?_⟩
    simpa [Int.sub_sub] using hfits
  | soft =>
    refine .inr ⟨List.not_mem_nil, (Int.add_zero _).symm, hlined, ?_⟩
    simpa using hfits
  | indent d =>
    refine .inr ⟨List.not_mem_nil, (Int.add_zero _).symm, hlined, ?_⟩
    rw [← hfits]
    exact fits_congr rfl
  | group d broken =>
    rename_i out col suffixes ind mode stack
    refine .inr ⟨List.not_mem_nil, (Int.add_zero _).symm, hlined, ?_⟩
    change suffixes = [] at hsuffixes
    subst hsuffixes
    unfold groupMode
    cases broken with
    | true => exact hfits
    | false =>
      cases mode with
      | flat => exact hfits
      | breaking =>
        -- The lookahead took this group as breaking. The renderer asks anew, and takes it as flat
        -- only if that fits as well.
        by_cases hown : fits false false (w.line - col) [⟨ind, .flat, d⟩] stack = true
        · have hflat : fits false false (w.line - col) (⟨ind, .flat, d⟩ :: stack) [] = true :=
            (fits_congr (by simp)).trans hown
          simp [hown, hflat]
        · simpa [hown] using hfits
  | list parts | concat parts | breakParent | alien v =>
    exact .inr ⟨List.not_mem_nil, (Int.add_zero _).symm, hlined, hfits⟩

/-- What a run writes, up to its first line break, is no longer than the rest of the line. -/
theorem Turns.length_le (h : Turns w n r cs s) (hr : r.RestFits w) :
    ((cs.takeWhile (· ≠ '\n')).length : Int) ≤ w.line - r.col := by
  -- A turn that does not break the line moves the column by what it writes.
  induction h with
  | none r => exact nonneg_of_fits hr.fits
  | @next n r s t cs cs' hturn _ ih =>
    rcases hturn.restFits hr with hbreak | ⟨hline, hcol, hs⟩
    · obtain ⟨rest, rfl⟩ : ∃ rest, cs = '\n' :: rest := by
        cases cs <;> simp_all
      simpa using nonneg_of_fits hr.fits
    · have hlater := ih hs
      have hkept : ∀ c ∈ cs, decide (c ≠ '\n') = true := by
        intro c hc
        rw [decide_eq_true_eq]
        rintro rfl
        exact hline hc
      rw [hcol] at hlater
      rw [List.takeWhile_append_of_pos hkept]
      simp only [List.length_append, Nat.cast_add]
      omega

/-- When the renderer comes to a group that is not broken, in a document without fills, line
suffixes and texts of several lines, and the lookahead says that the group fits, then the group is
laid out flat, and from there to the next line break or to the end no more characters are written
than there are columns left, with all that follows the group. -/
theorem flat_group_fits {w : Widths} {d e child : Doc} (hd : d.every isLined = true)
    (he : d.propagateBreaks = .ok e) {n : Nat} {before : List Char} {out : Output} {col ind : Int}
    {suffixes stack : List Frame}
    (hr : Turns w n (.start e) before
      ⟨out, col, suffixes, ⟨ind, .breaking, .group child false⟩ :: stack⟩)
    (hfits : fits false (!suffixes.isEmpty) (w.line - col) [⟨ind, .flat, child⟩] stack = true) :
    Turn w ⟨out, col, suffixes, ⟨ind, .breaking, .group child false⟩ :: stack⟩ []
        ⟨out, col, suffixes, ⟨ind, .flat, child⟩ :: stack⟩ ∧
      (∃ m after last, Turns w m ⟨out, col, suffixes, ⟨ind, .flat, child⟩ :: stack⟩ after last ∧
        last.Done ∧ d.render w = .ok last.out.toText) ∧
      ∀ m after s, Turns w m ⟨out, col, suffixes, ⟨ind, .flat, child⟩ :: stack⟩ after s →
        ((after.takeWhile (· ≠ '\n')).length : Int) ≤ w.line - col := by
  have hmarked := propagateBreaks_marked he
  have hstart : (Rendering.start e).Unsuffixed isLined :=
    Rendering.unsuffixed_start (by rw [hmarked.every _ shallow_isLined, hd])
  -- Without line suffixes the lookahead has none to heed.
  obtain ⟨hsuffixes, hparts⟩ := hr.unsuffixed shallow_isLined (fun _ => rfl) hstart
  change suffixes = [] at hsuffixes
  subst hsuffixes
  have hturn : Turn w ⟨out, col, [], ⟨ind, .breaking, .group child false⟩ :: stack⟩ []
      ⟨out, col, [], ⟨ind, .flat, child⟩ :: stack⟩ := by
    have hmode : groupMode w col ⟨ind, .breaking, child⟩ false false stack = .flat := by
      simp_all [groupMode]
    rw [← hmode]
    exact .group child false
  have hflat : Rendering.RestFits w ⟨out, col, [], ⟨ind, .flat, child⟩ :: stack⟩ :=
    ⟨hturn.unsuffixed shallow_isLined (fun _ => rfl) ⟨rfl, hparts⟩,
      (fits_congr (by simp)).trans hfits⟩
  refine ⟨hturn, ?_, fun m after s hrun => hrun.length_le hflat⟩
  obtain ⟨m, after, last, hrun, hdone⟩ :=
    Rendering.exists_turns w ⟨out, col, [], ⟨ind, .flat, child⟩ :: stack⟩
  refine ⟨m, after, last, hrun, hdone, ?_⟩
  rw [render, he, ← Rendering.finish_of_done w hdone, ← hrun.finish_eq, ← hturn.finish_eq,
    ← hr.finish_eq]
  rfl

/-- A group of three columns, with a text behind it that takes the last column of the line. -/
theorem flat_group_fits_to_the_edge :
    let child := Doc.concat [.bare "a", .line .space, .bare "b"]
    let stack : List Frame := framesOf 0 .breaking [.bare ";", .line .hard, .bare "c"]
    fits false false 4 [⟨0, .flat, child⟩] stack = true ∧
      ∀ m after s, Turns ⟨4, 2⟩ m ⟨[], 0, [], ⟨0, .flat, child⟩ :: stack⟩ after s →
        (after.takeWhile (· ≠ '\n')).length ≤ 4 := by
  intro child stack
  have hfits : fits false false 4 [⟨0, .flat, child⟩] stack = true := by
    simp [fits, firstBreak?, child, stack, framesOf]
    decide
  let d := Doc.list [.group child false, .bare ";", .line .hard, .bare "c"]
  have hlined : d.every isLined = true := rfl
  have hmarks : d.propagateBreaks = .ok d := rfl
  have hreached : Turns ⟨4, 2⟩ 1 (.start d) []
      ⟨[], 0, [], ⟨0, .breaking, .group child false⟩ :: stack⟩ := .next (.list _) (.none _)
  obtain ⟨-, -, hlength⟩ := flat_group_fits hlined hmarks hreached hfits
  refine ⟨hfits, fun m after s hrun => ?_⟩
  simpa using hlength m after s hrun

end Doc

end MonkeyFormat
