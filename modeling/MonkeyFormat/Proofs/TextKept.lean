import MonkeyFormat.Proofs.Turns

set_option autoImplicit false

/-! # Rendering loses no text

What a document has to say stands in its texts; blanks and line breaks are the renderer's own. At
every place where the renderer stands, the texts that it has written and those that are still to be
written are together the texts of the document. A turn takes one of them from the second list to the
first, or changes the order of the second where a line suffix is put off or comes back. Without line
suffixes the order never changes. -/

namespace MonkeyFormat

namespace Doc

/-! ## Characters that are no layout -/

/-- The characters of a text without its spaces, tabs and line breaks. -/
def ink (cs : List Char) : List Char := cs.filter fun c => !(Output.isTrailing c || c = '\n')

/-- The characters of several texts, one after the other, without spaces, tabs and line breaks. -/
def inkOf (texts : List String) : List Char := texts.flatMap fun s => ink s.toList

@[simp] theorem ink_nil : ink [] = [] := rfl

@[simp] theorem ink_append (cs ds : List Char) : ink (cs ++ ds) = ink cs ++ ink ds :=
  List.filter_append ..

@[simp] theorem ink_reverse (cs : List Char) : ink cs.reverse = (ink cs).reverse :=
  List.filter_reverse ..

theorem ink_space : ink [' '] = [] := by decide

theorem ink_newline (n : Nat) : ink ('\n' :: List.replicate n ' ') = [] := by
  simp [ink, Output.isTrailing]

/-- Trimming an output takes blanks away only. -/
theorem ink_trim (out : Output) : ink out.trim = ink out := by
  induction out with
  | nil => rfl
  | cons c out ih =>
    by_cases hblank : Output.isTrailing c = true
    · rw [Output.trim, List.dropWhile_cons_of_pos hblank, ← Output.trim, ih]
      simp [ink, hblank]
    · rw [Output.trim, List.dropWhile_cons_of_neg hblank]

@[simp] theorem inkOf_nil : inkOf [] = [] := rfl

theorem inkOf_singleton (s : String) : inkOf [s] = ink s.toList := by simp [inkOf]

@[simp] theorem inkOf_append (xs ys : List String) : inkOf (xs ++ ys) = inkOf xs ++ inkOf ys :=
  List.flatMap_append

/-! ## Texts still to be written -/

/-- The texts in the documents of several frames, in order. -/
def frameLeaves (fs : List Frame) : List String := leavesAll (fs.map Frame.doc)

@[simp] theorem frameLeaves_nil : frameLeaves [] = [] := rfl

@[simp] theorem frameLeaves_cons (f : Frame) (fs : List Frame) :
    frameLeaves (f :: fs) = f.doc.leaves ++ frameLeaves fs := rfl

@[simp] theorem frameLeaves_append (fs gs : List Frame) :
    frameLeaves (fs ++ gs) = frameLeaves fs ++ frameLeaves gs := by
  induction fs with
  | nil => rfl
  | cons f fs ih => simp [ih]

@[simp] theorem frameLeaves_framesOf (ind : Int) (mode : Mode) (ds : List Doc) :
    frameLeaves (framesOf ind mode ds) = leavesAll ds := by
  induction ds with
  | nil => rfl
  | cons d ds ih =>
    rw [leavesAll, ← ih]
    rfl

@[simp] theorem frameLeaves_fillFrames (ind : Int) (mode : Mode) (width : Int)
    (parts : List Doc) : frameLeaves (fillFrames ind mode width parts) = leavesAll parts := by
  unfold fillFrames
  split <;> simp [leavesAll, leaves]

/-- The texts that the renderer has still to write; those that wait in line suffixes stand last. -/
def Rendering.waiting (r : Rendering) : List String :=
  frameLeaves r.stack ++ frameLeaves r.suffixes

theorem Rendering.waiting_start (d : Doc) : (start d).waiting = d.leaves := by
  simp [waiting, start]

theorem Rendering.waiting_of_done {r : Rendering} (h : r.Done) : r.waiting = [] := by
  simp [waiting, h.1, h.2]

/-- Is the document itself no line suffix? -/
def isUnsuffixed : Doc → Bool
  | .lineSuffix _ => false
  | _ => true

theorem shallow_isUnsuffixed : Shallow isUnsuffixed where
  list _ _ := rfl
  concat _ _ := rfl
  fill _ _ := rfl
  indent _ _ := rfl
  group _ _ _ _ := rfl
  lineSuffix _ _ := rfl

variable {w : Widths} {r s : Rendering} {cs : List Char} {n : Nat}

/-- What is written between two places, up to blanks and line breaks: texts that were waiting at the
first place and are no longer waiting at the second. -/
structure Writes (r : Rendering) (cs : List Char) (s : Rendering) (now : List String) : Prop where
  ink : ink cs = inkOf now
  perm : r.waiting.Perm (now ++ s.waiting)
  inOrder : r.Unsuffixed isUnsuffixed → s.Unsuffixed isUnsuffixed ∧ r.waiting = now ++ s.waiting

namespace Writes

variable {now : List String}

/-- A turn on the stack alone. -/
theorem of_stack (hink : Doc.ink cs = inkOf now) (hsuffixes : s.suffixes = r.suffixes)
    (hstack : frameLeaves r.stack = now ++ frameLeaves s.stack)
    (hkept : r.Unsuffixed isUnsuffixed → s.Unsuffixed isUnsuffixed) : Writes r cs s now where
  ink := hink
  perm := by simp [Rendering.waiting, hsuffixes, hstack]
  inOrder hr := ⟨hkept hr, by simp [Rendering.waiting, hsuffixes, hstack]⟩

/-- A turn that moves line suffixes writes nothing. -/
theorem of_perm (hmoved : ¬ r.Unsuffixed isUnsuffixed) (hperm : r.waiting.Perm s.waiting) :
    Writes r [] s [] where
  ink := rfl
  perm := hperm
  inOrder hr := absurd hr hmoved

theorem trans {t : Rendering} {cs' : List Char} {now' : List String} (h : Writes r cs s now)
    (h' : Writes s cs' t now') : Writes r (cs ++ cs') t (now ++ now') where
  ink := by simp [h.ink, h'.ink]
  perm := by
    rw [List.append_assoc]
    exact h.perm.trans (h'.perm.append_left now)
  inOrder hr := by
    obtain ⟨hs, hrs⟩ := h.inOrder hr
    obtain ⟨ht, hst⟩ := h'.inOrder hs
    exact ⟨ht, by rw [hrs, hst, List.append_assoc]⟩

end Writes

/-- One turn writes texts that were waiting, or none. -/
theorem Turn.writes (h : Turn w r cs s) : ∃ now, Writes r cs s now := by
  have hkept : r.Unsuffixed isUnsuffixed → s.Unsuffixed isUnsuffixed :=
    h.unsuffixed shallow_isUnsuffixed fun _ => rfl
  cases h with
  | bare t | text t => exact ⟨[t], .of_stack (inkOf_singleton t).symm rfl rfl hkept⟩
  | newline kind _ => exact ⟨[], .of_stack (ink_newline _) rfl rfl hkept⟩
  | space => exact ⟨[], .of_stack ink_space rfl rfl hkept⟩
  | flush =>
    exact ⟨[], .of_perm (fun hr => by cases hr.suffixes) (by simp [Rendering.waiting])⟩
  -- Line suffixes stand last among the waiting texts, and first when they come back.
  | @release kind _ _ f more _ _ stack _ =>
    have hcomm : (frameLeaves stack ++ frameLeaves (f :: more)).Perm
        (frameLeaves (f :: more) ++ frameLeaves stack) := List.perm_append_comm
    exact ⟨[], .of_perm (fun hr => by cases hr.suffixes) (by
      simpa [Rendering.waiting, leaves] using hcomm)⟩
  | @lineSuffix d _ _ suffixes _ _ stack =>
    have hcomm : (d.leaves ++ (frameLeaves stack ++ frameLeaves suffixes)).Perm
        (frameLeaves stack ++ frameLeaves suffixes ++ d.leaves) := List.perm_append_comm
    exact ⟨[], .of_perm (fun hr => by cases hr.every.top) (by
      simpa [Rendering.waiting, leaves] using hcomm)⟩
  | _ => exact ⟨[], .of_stack rfl rfl (by simp [leaves]) hkept⟩

theorem Turns.writes (h : Turns w n r cs s) : ∃ now, Writes r cs s now := by
  induction h with
  | none r => exact ⟨[], rfl, .refl _, fun hr => ⟨hr, rfl⟩⟩
  | next hturn _ ih =>
    obtain ⟨now, hnow⟩ := hturn.writes
    obtain ⟨later, hlater⟩ := ih
    exact ⟨now ++ later, hnow.trans hlater⟩

/-- The ink of the output is that of the characters that the turns have written. -/
theorem Turns.ink_out (h : Turns w n r cs s) :
    ink s.out.reverse = ink r.out.reverse ++ ink cs := by
  induction h with
  | none r => simp
  | next hturn _ ih =>
    rw [ih, ink_append, ← List.append_assoc]
    congr 1
    rcases hturn.out_eq with hout | ⟨_, hout⟩ <;> simp [hout, ink_trim]

/-- The renderer never takes more turns on a document than twice its size, and comes to an end. What
it has then written is the texts of the document and nothing else but blanks and line breaks: in the
order of the document if there are no line suffixes in it, and each text exactly as often as it
stands there in any case. -/
theorem render_keeps_text (w : Widths) {d : Doc} (h : d.solid = true) :
    ∃ e text, d.propagateBreaks = .ok e ∧ d.render w = .ok text ∧
      (∀ n cs s, Turns w n (.start e) cs s → n ≤ 2 * d.size) ∧
      (∃ n cs last, Turns w n (.start e) cs last ∧ last.Done ∧ text = last.out.toText) ∧
      (∃ order : List String, order.Perm d.leaves ∧ ink text.toList = inkOf order) ∧
      (d.every isUnsuffixed = true → ink text.toList = inkOf d.leaves) := by
  obtain ⟨e, n, cs, last, hmarks, hturns, hdone, hrender⟩ := render_turns w h
  have hmarked := propagateBreaks_marked hmarks
  obtain ⟨now, hnow⟩ := hturns.writes
  -- Nothing is left at the end, so all texts of the document have been written.
  have hink : ink last.out.toText.toList = inkOf now := by
    rw [Output.toText, String.toList_ofList, ink_reverse, ink_trim, ← ink_reverse, hturns.ink_out,
      ← hnow.ink]
    rfl
  have hperm : now.Perm d.leaves := by
    have hall := hnow.perm
    rw [Rendering.waiting_start, Rendering.waiting_of_done hdone, List.append_nil,
      hmarked.leaves] at hall
    exact hall.symm
  have hbound : ∀ n cs s, Turns w n (.start e) cs s → n ≤ 2 * d.size := by
    intro n cs s hturns
    have hload := hturns.load_le
    rw [Rendering.load_start, hmarked.size] at hload
    omega
  refine ⟨e, _, hmarks, hrender, hbound, ⟨n, cs, last, hturns, hdone, rfl⟩, ⟨now, hperm, hink⟩, ?_⟩
  intro hplain
  have hstart : (Rendering.start e).Unsuffixed isUnsuffixed :=
    Rendering.unsuffixed_start (by rw [hmarked.every _ shallow_isUnsuffixed, hplain])
  have horder := (hnow.inOrder hstart).2
  rw [Rendering.waiting_start, Rendering.waiting_of_done hdone, List.append_nil,
    hmarked.leaves] at horder
  rw [hink, horder]

/-- A line suffix inside another one, and a fill, on lines of four columns. -/
theorem render_keeps_text_suffixes :
    let d := Doc.list [.bare "a", .lineSuffix (.list [.bare " // b", .lineSuffix (.bare "c")]),
      .fill [.bare "d e", .line .space, .group (.bare "f") false], .line .hard, .text "g"]
    d.solid = true ∧ ∃ text order, d.render ⟨4, 2⟩ = .ok text ∧
      List.Perm order ["a", " // b", "c", "d e", "f", "g"] ∧ ink text.toList = inkOf order := by
  intro d
  have hsolid : d.solid = true := rfl
  obtain ⟨_, text, _, hrender, _, _, ⟨order, hperm, hink⟩, _⟩ := render_keeps_text ⟨4, 2⟩ hsolid
  exact ⟨hsolid, text, order, hrender, hperm, hink⟩

end Doc

end MonkeyFormat
