import MonkeyFormat.Proofs.ExplicitShape
import MonkeyFormat.Proofs.Ordinary
import MonkeyFormat.Proofs.Ownership
import MonkeyFormat.Proofs.TreeAccounts
import MonkeyFormat.Proofs.Turns

set_option autoImplicit false

/-! # Formatting keeps every comment

A source that can be parsed is formatted without a fault, and none of its comments is reported as
lost. If no comment keeps a node as it is, the document that the source becomes holds each of its
comments once, in a form with all that the comment says. -/

namespace MonkeyFormat

/-! ## What is laid out of a comment -/

/-- The characters of a text that are no blanks. -/
def Text.unblanked (s : String) : List Char := s.toList.filter fun c => !isBlank c

namespace Text

theorem unblanked_append (s t : String) : unblanked (s ++ t) = unblanked s ++ unblanked t := by
  rw [unblanked, String.toList_append, List.filter_append]
  rfl

theorem filter_dropWhile_isBlank (cs : List Char) :
    (cs.dropWhile isBlank).filter (fun c => !isBlank c) = cs.filter fun c => !isBlank c := by
  induction cs with
  | nil => rfl
  | cons c cs ih =>
    by_cases hblank : isBlank c = true
    · rw [List.dropWhile_cons_of_pos hblank, ih, List.filter_cons_of_neg (by simp [hblank])]
    · rw [List.dropWhile_cons_of_neg hblank]

theorem unblanked_trimStart (s : String) : unblanked (trimStart s) = unblanked s := by
  rw [unblanked, trimStart, trimStartOf, String.toList_ofList, filter_dropWhile_isBlank]
  rfl

theorem unblanked_trimEnd (s : String) : unblanked (trimEnd s) = unblanked s := by
  rw [unblanked, trimEnd, trimEndOf, String.toList_ofList, List.filter_reverse,
    filter_dropWhile_isBlank, List.filter_reverse, List.reverse_reverse]
  rfl

/-- The lines of a text have all its characters that are no blanks. -/
theorem unblanked_lines (s : String) : (s.splitOn "\n").flatMap unblanked = unblanked s := by
  have hjoined (ls : List (List Char)) :
      (['\n'].intercalate ls).filter (fun c => !isBlank c) =
        ls.flatMap (List.filter fun c => !isBlank c) := by
    induction ls with
    | nil => rfl
    | cons l ls ih =>
      cases ls with
      | nil => simp
      | cons m ls =>
        have hnewline : ['\n'].filter (fun c => !isBlank c) = [] := by decide
        rw [List.intercalate_cons_cons, List.filter_append, List.filter_append, ih, hnewline,
          List.append_nil, ← List.flatMap_cons]
  have hline (l : List Char) : unblanked (String.ofList l) = l.filter fun c => !isBlank c := by
    rw [unblanked, String.toList_ofList]
  rw [splitOn_newline, List.flatMap_map, unblanked]
  simp only [hline]
  rw [← hjoined, List.intercalate_splitOn]

end Text

namespace Layout

theorem unblanked_starredLines (value : String) :
    (starredLines value).flatMap Text.unblanked = Text.unblanked value := by
  have hline (x : String × Nat) : Text.unblanked (if x.2 = 0 then Text.trimEnd x.1
      else if x.2 + 1 < (value.splitOn "\n").length then " " ++ Text.trim x.1
      else " " ++ Text.trimStart x.1) = Text.unblanked x.1 := by
    have hspace : Text.unblanked " " = [] := by decide
    split
    · exact Text.unblanked_trimEnd x.1
    · split
      · rw [Text.unblanked_append, hspace, Text.trim, Text.unblanked_trimEnd,
          Text.unblanked_trimStart]
        rfl
      · rw [Text.unblanked_append, hspace, Text.unblanked_trimStart]
        rfl
  rw [starredLines, List.flatMap_map]
  refine (List.flatMap_congr fun x _ => hline x).trans ?_
  rw [← List.flatMap_map, List.zipIdx_map_fst, Text.unblanked_lines]

theorem leavesAll_lines (ls : List String) :
    Doc.leavesAll ((ls.map Doc.bare).intersperse .hardline) = ls := by
  induction ls with
  | nil => rfl
  | cons l ls ih =>
    cases ls with
    | nil => rfl
    | cons m ls =>
      rw [List.map_cons, List.map_cons, List.intersperse_cons_cons, ← List.map_cons,
        Doc.leavesAll, Doc.leavesAll, ih]
      rfl

/-- The form of a comment says what the comment says: up to blanks, it has the characters of the
comment in their order. -/
theorem unblanked_comment (c : Comment) :
    (comment c).leaves.flatMap Text.unblanked = Text.unblanked c.text := by
  rw [comment, Comment.text]
  cases c.isBlock with
  | false =>
    simp [Doc.leaves, Text.unblanked_append, Text.unblanked_trimEnd]
  | true =>
    simp only [Bool.not_true, Bool.false_eq_true, if_false, if_true]
    split
    · simp [Doc.leaves, Doc.leavesAll, Doc.join, leavesAll_lines, Text.unblanked_append,
        unblanked_starredLines]
    · simp [Doc.leaves, Text.unblanked_append]

end Layout

/-! ## The tree that is laid out -/

/-- Parentheses and blocks that are made explicit have the edges of what they are put around. -/
theorem kept_bounded (edge : Int → Prop) : Parentheses.Kept fun m => m.span.Bounded edge where
  made n hn := by
    rw [Parentheses.made_span]
    exact hn.here
  wrap n hn := hn
  wrapBody n hn := by
    unfold Parentheses.wrapBody
    split
    · exact hn
    · exact hn

theorem beside_of_clear {comments : List Comment} {n : Node} (h : n.span.Bounded (Clear comments))
    {c : Comment} (hc : c ∈ comments) : n.Beside c.span.start c.span.stop :=
  ⟨h.1.2 c hc, h.2.2 c hc⟩

/-! ## Formatting -/

section Formatting

variable {source : String} {o : Options} {root : Node} {comments : List Comment}

theorem size_ofString (s : String) : (Source.ofString s).size = s.length := by
  rw [Source.size, Source.ofString, List.size_toArray, String.length_toList]

/-- The comments that are attached have the numbers of the comments of the source, each once. -/
theorem nodup_ids {attached : List Attached}
    (h : (attached.map fun a => (a.comment, a.id)).Perm comments.zipIdx) :
    (attached.map Attached.id).Nodup := by
  have hids : (attached.map Attached.id).Perm (List.range' 0 comments.length) := by
    have hsnd := h.map Prod.snd
    rw [List.map_map, List.zipIdx_map_snd] at hsnd
    exact hsnd
  exact hids.nodup_iff.2 (List.nodup_range' ..)

/-- The document of a tree holds the comments that are attached to its nodes, and all of them are
entered as printed. -/
theorem document_eq_ok (cx : Context) {P : Node → Prop} (hroot : root.Shaped P)
    (hP : ∀ m, P m → 0 ≤ m.stop) (hin : ∀ a ∈ cx.attached, Layout.InSource cx a)
    (hplaces : ∀ a ∈ cx.attached, a.owner ∈ (root.places []).map Prod.fst)
    (hids : (cx.attached.map Attached.id).Nodup) :
    ∃ doc printed, Layout.document cx root = .ok (doc, printed) ∧
      printed.Perm (cx.attached.map Attached.id) ∧ doc.Holds (Layout.forms ↑cx.attached) := by
  have hsite : Layout.SiteOf cx P root [] := ⟨hroot, fun a ha _ => hplaces a ha⟩
  have hkeeps : Layout.Keeps (Layout.tree cx (root.depth + 1) (.root (.node root)))
      (Layout.entrusted cx root []) :=
    Layout.accounted hP hin (root.depth + 1) root [] hsite (Nat.lt_succ_self root.depth)
  have hall : Layout.entrusted cx root [] = ↑(cx.attached.filter fun a => [].isPrefixOf a.owner) :=
    hsite.entrusted_eq_filter
  rw [hall, List.filter_eq_self.2 fun a _ => List.isPrefixOf_nil_left] at hkeeps
  obtain ⟨doc, printed, hrun, hprinted, hdoc⟩ := hkeeps [] (by simpa using hids)
  refine ⟨doc, printed, hrun, ?_, hdoc⟩
  rw [← Multiset.coe_eq_coe, hprinted]
  simp

/-- The comments of a source are attached, laid out and entered without a fault. -/
theorem formatSource_accounts (hparse : parse source o = .ok (root, comments)) :
    ∃ attached doc printed text,
      attach Layout.mayOwn (Parentheses.explicit root).result (Source.ofString source) comments =
        .ok attached ∧
      Layout.document ⟨o.widths, Source.ofString source, attached⟩
        (Parentheses.explicit root).result = .ok (doc, printed) ∧
      (attached.map Attached.comment).Perm comments ∧
      doc.Holds (Layout.forms ↑attached) ∧
      doc.render o.widths = .ok text ∧
      formatSource source o = .ok ⟨text, []⟩ := by
  obtain ⟨hclear, hwithin⟩ := parse_clear hparse
  have hrun := Parentheses.run_of_parse hparse
  have hmade : (Parentheses.explicit root).result.Edged (Clear comments) :=
    Parentheses.shaped_made (kept_bounded _) hclear
  have hin : ∀ c ∈ comments, c.Within (Source.ofString source).size := by
    rw [size_ofString]
    exact hwithin
  obtain ⟨attached, hattach, hperm, hplaces⟩ := attach_eq_ok Layout.mayOwn hmade
    (fun c hc p hp => beside_of_clear (hmade.places hp).here hc) hin
  have hcomments : (attached.map Attached.comment).Perm comments := by
    have hfst := hperm.map Prod.fst
    rw [List.map_map, List.zipIdx_map_fst] at hfst
    exact hfst
  have hmem : ∀ a ∈ attached, a.comment ∈ comments := fun a ha =>
    hcomments.mem_iff.1 (List.mem_map_of_mem ha)
  obtain ⟨doc, printed, hdoc, hprinted, hholds⟩ :=
    document_eq_ok ⟨o.widths, Source.ofString source, attached⟩ hmade
      (fun m hm => hm.2.1) (fun a ha => hin a.comment (hmem a ha)) hplaces (nodup_ids hperm)
  obtain ⟨text, htext⟩ := Doc.render_solid o.widths hholds.solid
  have hlost : (comments.zipIdx.filterMap fun x =>
      if printed.contains x.2 then none else some x.1) = [] := by
    rw [List.filterMap_eq_nil_iff]
    intro x hx
    obtain ⟨a, ha, rfl⟩ := List.mem_map.1 (hperm.mem_iff.2 hx)
    have hid : a.id ∈ printed := hprinted.mem_iff.2 (List.mem_map_of_mem ha)
    simp [hid]
  refine ⟨attached, doc, printed, text, hattach, hdoc, hcomments, hholds, htext, ?_⟩
  simp only [formatSource, formatTree, hparse, hrun, hattach, hdoc, hlost, htext, bind, Except.bind]
  rfl

/-- Every source that can be parsed is formatted, and none of its comments is reported as lost,
also where a comment keeps a node as it is. -/
theorem formatSource_eq_ok (hparse : parse source o = .ok (root, comments)) :
    ∃ text, formatSource source o = .ok ⟨text, []⟩ := by
  obtain ⟨_, _, _, text, _, _, _, _, _, hformat⟩ := formatSource_accounts hparse
  exact ⟨text, hformat⟩

/-- A source is formatted without a fault: the text is that of a document with all its comments,
each once, and none is reported as lost. -/
theorem formatSource_keeps_comments (hparse : parse source o = .ok (root, comments))
    (hquiet : ∀ c ∈ comments, Text.trim c.value ≠ ignoreDirective) :
    ∃ attached doc printed text,
      attach Layout.mayOwn (Parentheses.explicit root).result (Source.ofString source) comments =
        .ok attached ∧
      Layout.document ⟨o.widths, Source.ofString source, attached⟩
        (Parentheses.explicit root).result = .ok (doc, printed) ∧
      doc.remarks.Perm (comments.map Layout.comment) ∧
      doc.render o.widths = .ok text ∧
      formatSource source o = .ok ⟨text, []⟩ ∧
      (⟨text, []⟩ : Formatted).warning? = none := by
  obtain ⟨attached, doc, printed, text, hattach, hdoc, hcomments, hholds, htext, hformat⟩ :=
    formatSource_accounts hparse
  refine ⟨attached, doc, printed, text, hattach, hdoc, ?_, htext, hformat, rfl⟩
  have hforms : Layout.forms ↑attached = _ := Layout.forms_eq_coe fun a ha =>
    hquiet a.comment (hcomments.mem_iff.1 (List.mem_map_of_mem ha))
  rw [← Multiset.coe_eq_coe, (hholds.known _ hforms).2, Multiset.map_coe, Multiset.coe_eq_coe]
  have hmapped := hcomments.map Layout.comment
  rw [List.map_map] at hmapped
  exact hmapped

/-- A list with a comment inside it and one behind an element. -/
theorem formatSource_keeps_comments_list :
    ∃ root comments, parse "[/* a */ 1, // b\n2]" { rule := .expression } = .ok (root, comments) ∧
      (∀ c ∈ comments, Text.trim c.value ≠ ignoreDirective) ∧ comments.length = 2 ∧
      ∃ attached doc printed text,
        attach Layout.mayOwn (Parentheses.explicit root).result
          (Source.ofString "[/* a */ 1, // b\n2]") comments = .ok attached ∧
        Layout.document ⟨({ rule := .expression } : Options).widths,
          Source.ofString "[/* a */ 1, // b\n2]", attached⟩ (Parentheses.explicit root).result =
            .ok (doc, printed) ∧
        doc.remarks.Perm (comments.map Layout.comment) ∧
        doc.render ({ rule := .expression } : Options).widths = .ok text ∧
        formatSource "[/* a */ 1, // b\n2]" { rule := .expression } = .ok ⟨text, []⟩ ∧
        (⟨text, []⟩ : Formatted).warning? = none := by
  have hparses : ((parse "[/* a */ 1, // b\n2]" { rule := .expression }).toOption.any fun p =>
      p.2.length = 2 && p.2.all fun c => Text.trim c.value ≠ ignoreDirective) = true := by
    decide +kernel
  cases h : parse "[/* a */ 1, // b\n2]" { rule := .expression } with
  | error fault =>
    rw [h] at hparses
    cases hparses
  | ok parsed =>
    obtain ⟨root, comments⟩ := parsed
    rw [h] at hparses
    obtain ⟨hlength, hquiet⟩ : comments.length = 2 ∧
        ∀ c ∈ comments, Text.trim c.value ≠ ignoreDirective := by
      simpa [Except.toOption] using hparses
    exact ⟨root, comments, rfl, hquiet, hlength, formatSource_keeps_comments h hquiet⟩

end Formatting

end MonkeyFormat
