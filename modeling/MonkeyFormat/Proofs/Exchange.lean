import MonkeyFormat.Payload
import MonkeyFormat.Proofs.ParsedSpans
import MonkeyFormat.Proofs.Records
import MonkeyFormat.Proofs.Recovering
import MonkeyFormat.Tree.Comparison

set_option autoImplicit false

/-! # Formatting a tree that was handed over

A parsed tree comes back unchanged from its record, its whole numbers included. So a payload of a
source and the record of its tree is formatted like the tree itself, with those comments that do
not hold the ignore directive. -/

namespace MonkeyFormat

/-! ## Comments -/

/-- A comment of a known kind is read back. -/
theorem Comment.ofRecord_toRecord {c : Comment} (h : c.kind = "Line" ∨ c.kind = "Block") :
    Comment.ofRecord c.toRecord = .ok c := by
  obtain ⟨kind, value, span⟩ := c
  have hkind : kind = "Line" ∨ kind = "Block" := h
  rcases hkind with rfl | rfl
  · rfl
  · rfl

namespace Payload

theorem occurs_iff {word cs : List Char} : occurs word cs = true ↔ word <:+: cs := by
  induction cs with
  | nil =>
    rw [occurs, List.isEmpty_iff, List.infix_nil]
  | cons c cs ih =>
    rw [occurs, Bool.or_eq_true, ih, List.isPrefixOf_iff_prefix, List.infix_cons_iff]

/-- Does the comment hold the directive to keep what it stands at? -/
def isDirective (c : Comment) : Bool := decide (ignoreDirective.toList <:+: c.value.toList)

/-- Of the comments of a source, those without the directive are kept. -/
theorem comments_toRecord {cs : List Comment}
    (h : ∀ c ∈ cs, c.kind = "Line" ∨ c.kind = "Block") :
    comments (cs.map fun c => .dict c.toRecord) = .ok (cs.filter fun c => !isDirective c) := by
  induction cs with
  | nil => rfl
  | cons c cs ih =>
    have hrest := ih fun d hd => h d (by simp [hd])
    have hdirective : holdsDirective ((List.lookup "value" c.toRecord).getD (.str "")) =
        .ok (isDirective c) := by
      have hoccurs : occurs ignoreDirective.toList c.value.toList = isDirective c := by
        rw [isDirective, Bool.eq_iff_iff, occurs_iff, decide_eq_true_eq]
      rw [← hoccurs]
      rfl
    rw [List.map_cons, comments, hdirective, hrest, Comment.ofRecord_toRecord (h c (by simp))]
    cases hc : isDirective c with
    | true =>
      rw [List.filter_cons_of_neg (by simp [hc])]
      rfl
    | false =>
      rw [List.filter_cons_of_pos (by simp [hc])]
      rfl

/-! ## The two parts of a payload -/

/-- A text that is not empty and has no line breaks is split off behind one. -/
theorem split_append {source tree : String} (hne : tree ≠ "")
    (hline : ∀ c ∈ tree.toList, isLineBreak c = false) :
    split (source ++ "\n" ++ tree) = (source, tree) := by
  have hreverse : (source ++ "\n" ++ tree).toList.reverse =
      tree.toList.reverse ++ '\n' :: source.toList.reverse := by
    simp [String.toList_append]
  have htree : (tree.toList.reverse ++ '\n' :: source.toList.reverse).takeWhile
      (fun c => !isLineBreak c) = tree.toList.reverse := by
    rw [List.takeWhile_append_of_pos]
    · rw [List.takeWhile_cons_of_neg (by decide), List.append_nil]
    · intro c hc
      rw [hline c (List.mem_reverse.1 hc)]
      rfl
  have hempty : tree.toList.reverse.isEmpty = false := by
    rw [List.isEmpty_reverse, List.isEmpty_eq_false_iff]
    intro hnil
    exact hne (String.toList_eq_nil_iff.1 hnil)
  unfold split
  simp only [hreverse, htree, List.drop_left, hempty, List.reverse_reverse, String.ofList_toList]
  rfl

/-- The record of a tree with those of its comments. -/
def record (root : Node) (comments : List Comment) : Fields :=
  Fields.insert root.toRecord "comments" (.list (comments.map fun c => .dict c.toRecord))

theorem record_eq {root : Node} (h : root.Plain) (comments : List Comment) :
    record root comments =
      root.toRecord ++ [("comments", .list (comments.map fun c => .dict c.toRecord))] := by
  refine Fields.insert_of_not_mem _ ?_
  obtain ⟨kind, span, fs⟩ := root
  have hnames := properNames_of_properFields h.1
  rw [Node.toRecord_eq hnames, List.map_append, names_fieldsToRecords, List.mem_append]
  rintro (hmem | hmem)
  · exact absurd hmem (show "comments" ∉ ["type", "start", "end", "loc"] by decide)
  · obtain ⟨f, hf, hname⟩ := List.mem_map.1 hmem
    have hreserved := not_reserved_of_properNames hnames f hf
    rw [hname] at hreserved
    exact absurd hreserved (by decide)

/-- The tree, its end and its comments are read back from a record. -/
theorem readTree_record {root : Node} (h : root.Plain) (comments : List Comment) :
    readTree (record root comments) = .ok root := by
  have hread : Node.ofRecord (record root comments) = .ok root := by
    rw [record_eq h]
    refine Node.ofRecord_append (Node.Plain.recordable root h) ?_
    intro e he
    rw [List.mem_singleton.1 he]
    rfl
  rw [readTree, hread]

theorem offset_end_record {root : Node} (h : root.Plain) (comments : List Comment) :
    Fields.offset (record root comments) "end" = .ok root.stop := by
  rw [record_eq h]
  obtain ⟨kind, span, fs⟩ := root
  rw [Node.toRecord_eq (properNames_of_properFields h.1)]
  exact offset_int rfl

theorem commentRecords_record (root : Node) (comments : List Comment) :
    commentRecords (Fields.getD (record root comments) "comments") =
      .ok (comments.map fun c => .dict c.toRecord) := by
  rw [Fields.getD, record, Fields.lookup_insert, if_pos rfl]
  rfl

end Payload

/-! ## Payloads of parsed sources -/

theorem Json.read_ne_empty {json : String} {v : Value} (h : Json.read json = .ok v) :
    json ≠ "" := by
  rintro rfl
  cases h

/-- Nothing stands in an empty text. -/
theorem comments_eq_nil {comments : List Comment} (h : ∀ c ∈ comments, c.Within "".length) :
    comments = [] := by
  cases comments with
  | nil => rfl
  | cons c cs =>
    obtain ⟨_, hfirst, horder, hlast⟩ := h c List.mem_cons_self
    have hempty : (("".length : Nat) : Int) = 0 := rfl
    omega

/-- A source with the record of its tree behind it is formatted like that tree, with the comments
that do not hold the ignore directive. -/
theorem format_payload {source json : String} {o : Options} {root : Node}
    {comments : List Comment} (h : parse source o = .ok (root, comments))
    (hjson : Json.read json = .ok (.dict (Payload.record root comments)))
    (hline : ∀ c ∈ json.toList, Payload.isLineBreak c = false) :
    Payload.format (source ++ "\n" ++ json) o =
      formatTree root (comments.filter fun c => !Payload.isDirective c) source o := by
  have hplain := parse_plain h
  have hwithin := (parse_clear h).2
  have hstop : root.stop ≤ source.length := by
    have hlast := (placed_of_parse h).coherent.within
    rwa [String.length_toList] at hlast
  have hcomments := Payload.comments_toRecord fun c hc => (hwithin c hc).known
  unfold Payload.format
  rw [Payload.split_append (Json.read_ne_empty hjson) hline]
  simp only [hjson]
  change (do
    let root' ← Payload.readTree (Payload.record root comments)
    let stop ← Fields.offset (Payload.record root comments) "end"
    let covered := !source.isEmpty && decide (stop ≤ source.length)
    let cs ← if covered then do
        Payload.comments (← Payload.commentRecords
          (Fields.getD (Payload.record root comments) "comments"))
      else pure []
    let recovered ← Literal.recover root'
    formatTree recovered.1 cs (if covered then source else "") o) = _
  rw [Payload.readTree_record hplain, Payload.offset_end_record hplain,
    Payload.commentRecords_record]
  change (do
    let cs ← if !source.isEmpty && decide (root.stop ≤ source.length) then
        Payload.comments (comments.map fun c : Comment => .dict c.toRecord)
      else pure []
    let recovered ← Literal.recover root
    formatTree recovered.1 cs
      (if !source.isEmpty && decide (root.stop ≤ source.length) then source else "") o) = _
  rw [hcomments, Literal.recover_plain root hplain]
  by_cases hempty : source = ""
  · -- an empty text has no comments that could be dropped
    subst hempty
    rw [comments_eq_nil hwithin]
    rfl
  · have hcovered : (!source.isEmpty && decide (root.stop ≤ source.length)) = true := by
      simp [hempty, hstop]
    simp only [hcovered, if_true]
    rfl

/-- The record of the tree of `a//x` and of its comment. -/
def commentedName : String :=
    "\x7b\"type\":\"Identifier\",\"start\":0,\"end\":1,\"loc\":\x7b\"start\":\x7b\"line\":1," ++
    "\"column\":1\x7d,\"end\":\x7b\"line\":1,\"column\":2\x7d\x7d,\"name\":\"a\"," ++
    "\"comments\":[\x7b\"type\":\"Line\",\"value\":\"x\",\"start\":1,\"end\":4," ++
    "\"loc\":\x7b\"start\":\x7b\"line\":1,\"column\":2\x7d,\"end\":\x7b\"line\":1," ++
    "\"column\":5\x7d\x7d\x7d]\x7d"

/-- The payload of an identifier with a comment behind it. -/
theorem format_payload_identifier :
    ∃ root comments, parse "a//x" { rule := .expression } = .ok (root, comments) ∧
      Json.read commentedName = .ok (.dict (Payload.record root comments)) ∧
        Payload.format ("a//x" ++ "\n" ++ commentedName) { rule := .expression } =
          formatTree root (comments.filter fun c => !Payload.isDirective c) "a//x"
            { rule := .expression } := by
  let root : Node := ⟨"Identifier", ⟨0, 1, 1, 1, 1, 2⟩, [("name", .str "a")]⟩
  let comments : List Comment := [⟨"Line", "x", ⟨1, 4, 1, 2, 1, 5⟩⟩]
  have hparse : parse "a//x" { rule := .expression } = .ok (root, comments) := by decide +kernel
  have hjson : Json.read commentedName = .ok (.dict (Payload.record root comments)) := by
    unfold Json.read commentedName
    simp only [String.toList_append]
    repeat rw [String.toList_ofList]
    decide +kernel
  have hline : (commentedName.toList.all fun c => !Payload.isLineBreak c) = true := by
    unfold commentedName
    simp only [String.toList_append]
    repeat rw [String.toList_ofList]
    decide +kernel
  refine ⟨root, comments, hparse, hjson, format_payload hparse hjson fun c hc => ?_⟩
  simpa using List.all_eq_true.1 hline c hc

end MonkeyFormat
