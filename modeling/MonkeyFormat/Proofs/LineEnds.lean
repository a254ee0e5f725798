import Mathlib.Data.List.Chain
import MonkeyFormat.Proofs.TextKept

set_option autoImplicit false

/-! # No blanks at the ends of lines

Blanks can come to stand at the end of a line from many places: from a text, from the space of a
line that went flat, from the indentation of a line that stays empty, from a line suffix that was
put off to there. The renderer removes them wherever it breaks a line and once more at the very end.
So before every line break that it has written stands no blank, and this stays so with every turn,
as long as no text brings a line break of its own. -/

namespace MonkeyFormat

namespace Doc

/-! ## Line breaks without blanks before them -/

/-- No blank stands before a line break in what has been written. The character before another one
is the next one here, since the last character stands first. -/
def Output.Tidy (out : Output) : Prop :=
  out.IsChain fun c before => c = '\n' → isTrailing before = false

namespace Output

variable {out : Output}

theorem tidy_nil : Tidy [] := List.isChain_nil

theorem tidy_cons_of_ne {c : Char} (hc : c ≠ '\n') (h : out.Tidy) : Tidy (c :: out) := by
  rw [Tidy, List.isChain_cons]
  exact ⟨fun before _ hbreak => absurd hbreak hc, h⟩

/-- Characters other than line breaks can be written in any number. -/
theorem tidy_append {cs : List Char} (hcs : '\n' ∉ cs) (h : out.Tidy) : Tidy (cs ++ out) := by
  induction cs with
  | nil => exact h
  | cons c cs ih =>
    rw [List.mem_cons, not_or] at hcs
    exact tidy_cons_of_ne (Ne.symm hcs.1) (ih hcs.2)

theorem tidy_push {s : String} (hs : '\n' ∉ s.toList) (h : out.Tidy) : (out.push s).Tidy :=
  tidy_append (by simpa using hs) h

theorem tidy_trim (h : out.Tidy) : out.trim.Tidy :=
  h.suffix (List.dropWhile_suffix isTrailing)

/-- The trimmed output does not end in a blank. -/
theorem head?_trim (out : Output) : ∀ c ∈ out.trim.head?, isTrailing c = false := by
  intro c hc
  have hkept := List.head?_dropWhile_not isTrailing out
  rw [← trim, hc] at hkept
  simpa using hkept

theorem tidy_newline (indent : Int) (h : out.Tidy) : (out.newline indent).Tidy := by
  have hbreak : Tidy ('\n' :: out.trim) := by
    rw [Tidy, List.isChain_cons]
    exact ⟨fun c hc _ => head?_trim out c hc, tidy_trim h⟩
  have hspaces : '\n' ∉ List.replicate indent.toNat ' ' := by simp [List.mem_replicate]
  exact tidy_append hspaces hbreak

end Output

/-! ## Every turn keeps the ends of lines clean -/

variable {w : Widths} {r s : Rendering} {cs : List Char} {n : Nat}

/-- The lines that have been written are clean, and no text that is still to be written breaks a
line. -/
structure Rendering.Trimmed (r : Rendering) : Prop where
  tidy : r.out.Tidy
  single : ∀ t ∈ r.waiting, '\n' ∉ t.toList

theorem Rendering.trimmed_start {d : Doc} (h : ∀ t ∈ d.leaves, '\n' ∉ t.toList) :
    (start d).Trimmed where
  tidy := Output.tidy_nil
  single := by rwa [waiting_start]

theorem Turn.trimmed (h : Turn w r cs s) (hr : r.Trimmed) : s.Trimmed := by
  constructor
  · obtain ⟨htidy, hsingle⟩ := hr
    cases h with
    | bare t | text t =>
      have ht : '\n' ∉ t.toList := hsingle t (by simp [Rendering.waiting, leaves])
      exact Output.tidy_push ht htidy
    | space => exact Output.tidy_push (by decide) htidy
    -- The only turn that writes a line break removes the blanks before it.
    | newline kind _ => exact Output.tidy_newline _ htidy
    | _ => exact htidy
  · -- What waits after a turn has waited before it.
    obtain ⟨now, hnow⟩ := h.writes
    intro t ht
    exact hr.single t (hnow.perm.mem_iff.mpr (List.mem_append_right now ht))

theorem Turns.trimmed (h : Turns w n r cs s) (hr : r.Trimmed) : s.Trimmed := by
  induction h with
  | none r => exact hr
  | next hturn _ ih => exact ih (hturn.trimmed hr)

/-! ## Lines of a text -/

/-- Where no blank stands before a line break or at the end of a text, no line of the text ends in
a blank. -/
theorem not_isTrailing_getLast {lines : List (List Char)}
    (hchain : (['\n'].intercalate lines).IsChain
      fun c behind => behind = '\n' → Output.isTrailing c = false)
    (hlast : ∀ c ∈ (['\n'].intercalate lines).getLast?, Output.isTrailing c = false) :
    ∀ line ∈ lines, ∀ c ∈ line.getLast?, Output.isTrailing c = false := by
  induction lines with
  | nil => simp
  | cons line lines ih =>
    by_cases hmore : lines = []
    · subst hmore
      simpa using hlast
    · rw [List.intercalate_cons_of_ne_nil hmore] at hchain hlast
      rw [List.append_assoc, List.singleton_append] at hchain hlast
      rw [List.isChain_append, List.isChain_cons] at hchain
      obtain ⟨-, ⟨-, hrest⟩, hbreak⟩ := hchain
      rw [List.forall_mem_cons]
      refine ⟨fun c hc => hbreak c hc '\n' rfl rfl, ih hrest fun c hc => ?_⟩
      -- The end of the other lines is the end of the whole text.
      apply hlast c
      rw [List.getLast?_append, List.getLast?_cons, Option.mem_def.mp hc]
      rfl

/-- Text that the renderer has written has no line with a blank at its end. -/
theorem Output.Tidy.lines {out : Output} (h : out.Tidy) :
    ∀ line ∈ out.toText.toList.splitOn '\n', ∀ c ∈ line.getLast?, isTrailing c = false := by
  rw [toText, String.toList_ofList]
  apply not_isTrailing_getLast
  · rw [List.intercalate_splitOn, List.isChain_reverse]
    exact tidy_trim h
  · rw [List.intercalate_splitOn, List.getLast?_reverse]
    exact head?_trim out

/-- A document whose texts break no line is rendered to a text in which no line, the last one
included, ends in a space or a tab. -/
theorem render_trims_lines (w : Widths) {d : Doc} (hsolid : d.solid = true)
    (hsingle : ∀ t ∈ d.leaves, '\n' ∉ t.toList) :
    ∃ text, d.render w = .ok text ∧
      ∀ line ∈ text.toList.splitOn '\n', ∀ c ∈ line.getLast?, c ≠ ' ' ∧ c ≠ '\t' := by
  obtain ⟨e, n, cs, last, hmarks, hturns, -, hrender⟩ := render_turns w hsolid
  have hleaves : ∀ t ∈ e.leaves, '\n' ∉ t.toList := by
    rwa [(propagateBreaks_marked hmarks).leaves]
  have htidy : last.out.Tidy := (hturns.trimmed (Rendering.trimmed_start hleaves)).tidy
  refine ⟨_, hrender, fun line hline c hc => ?_⟩
  have hkept := htidy.lines line hline c hc
  simpa [Output.isTrailing] using hkept

/-- Texts that end in blanks or hold nothing else, a line suffix with a blank at its end, an empty
line between nested indentations, and a fill with a blank before its break. -/
theorem render_trims_lines_suffixes :
    let d := Doc.list [.bare "a \t", .lineSuffix (.bare " // b "), .bare "",
      .indent (.list [.line .hard, .indent (.list [.line .hard, .bare "\t", .line .hard]),
        .fill [.text "ccc ", .line .space, .bare "ddd\t "]]), .line .space]
    d.solid = true ∧ (∀ t ∈ d.leaves, '\n' ∉ t.toList) ∧ ∃ text, d.render ⟨4, 2⟩ = .ok text ∧
      ∀ line ∈ text.toList.splitOn '\n', ∀ c ∈ line.getLast?, c ≠ ' ' ∧ c ≠ '\t' := by
  intro d
  have hsolid : d.solid = true := rfl
  have hsingle : ∀ t ∈ d.leaves, '\n' ∉ t.toList := by decide
  exact ⟨hsolid, hsingle, render_trims_lines ⟨4, 2⟩ hsolid hsingle⟩

end Doc

end MonkeyFormat
