import MonkeyFormat.Proofs.Effects
import MonkeyFormat.Proofs.Remarks
import MonkeyFormat.Proofs.Rendering

set_option autoImplicit false

/-! # The renderer turn by turn

The renderer takes one turn after the other: it takes the frame on top of its stack away, and writes
something, or puts other frames in its place. What one turn does is set down as a step between the
places where the renderer can stand, so that it can be asked what it writes from one of them to
another. Line suffixes go back to the stack when a line break is about to be written, and fills put
their own rest back, so no single size goes down at every turn; the sizes of all frames, counted
twice, and the number of waiting line suffixes together do. -/

namespace MonkeyFormat

namespace Doc

/-! ## The parts of a document -/

mutual

/-- Does the test hold of the document and of all its parts? -/
def every (p : Doc → Bool) : Doc → Bool
  | .list parts => p (.list parts) && everyAll p parts
  | .concat parts => p (.concat parts) && everyAll p parts
  | .fill parts => p (.fill parts) && everyAll p parts
  | .indent d => p (.indent d) && every p d
  | .group d broken => p (.group d broken) && every p d
  | .lineSuffix d => p (.lineSuffix d) && every p d
  | d => p d

/-- Does the test hold of all the documents and of all their parts? -/
def everyAll (p : Doc → Bool) : List Doc → Bool
  | [] => true
  | d :: ds => every p d && everyAll p ds

end

theorem everyAll_iff {p : Doc → Bool} {ds : List Doc} :
    everyAll p ds = true ↔ ∀ d ∈ ds, d.every p = true := by
  induction ds with
  | nil => simp [everyAll]
  | cons d ds ih => simp [everyAll, ih]

theorem every_self {p : Doc → Bool} {d : Doc} (h : d.every p = true) : p d = true := by
  cases d <;> simp_all [every]

/-- A test that looks at the kind of a document and at its own text, and not at its parts. -/
structure Shallow (p : Doc → Bool) : Prop where
  list : ∀ ds es, p (.list ds) = p (.list es)
  concat : ∀ ds es, p (.concat ds) = p (.concat es)
  fill : ∀ ds es, p (.fill ds) = p (.fill es)
  indent : ∀ d e, p (.indent d) = p (.indent e)
  group : ∀ d e b c, p (.group d b) = p (.group e c)
  lineSuffix : ∀ d e, p (.lineSuffix d) = p (.lineSuffix e)

mutual

/-- The texts in a document, in order. -/
def leaves : Doc → List String
  | .bare s => [s]
  | .text s => [s]
  | .list parts => leavesAll parts
  | .concat parts => leavesAll parts
  | .fill parts => leavesAll parts
  | .indent d => d.leaves
  | .group d _ => d.leaves
  | .lineSuffix d => d.leaves
  | .line _ => []
  | .breakParent => []
  | .alien _ => []

/-- The texts in several documents, in order. -/
def leavesAll : List Doc → List String
  | [] => []
  | d :: ds => d.leaves ++ leavesAll ds

end

/-! ## Marking broken groups -/

/-- The document `e` is `d` but for the marks on its groups, as far as its size, its texts and the
tests on its parts can tell. -/
structure Marked (d e : Doc) : Prop where
  size : e.size = d.size
  leaves : e.leaves = d.leaves
  every : ∀ p : Doc → Bool, Shallow p → e.every p = d.every p

/-- The same of several documents. -/
structure MarkedAll (ds es : List Doc) : Prop where
  sizes : Doc.sizes es = Doc.sizes ds
  leavesAll : Doc.leavesAll es = Doc.leavesAll ds
  everyAll : ∀ p : Doc → Bool, Shallow p → Doc.everyAll p es = Doc.everyAll p ds

mutual

theorem propagate_marked : ∀ (d e : Doc) (b : Bool), d.propagate = .ok (e, b) → Marked d e
  | .bare _, _, _, h | .text _, _, _, h | .line _, _, _, h | .breakParent, _, _, h => by
    cases h
    exact ⟨rfl, rfl, fun _ _ => rfl⟩
  | .list ds, _, _, h | .concat ds, _, _, h | .fill ds, _, _, h => by
    rw [propagate] at h
    obtain ⟨⟨es, _⟩, hes, hout⟩ := bind_eq_ok h
    cases hout
    have hall := propagateAll_marked ds es _ hes
    exact ⟨by simp [size, hall.sizes], by simp [leaves, hall.leavesAll], fun p hp => by
      simp [every, hall.everyAll p hp, hp.list es ds, hp.concat es ds, hp.fill es ds]⟩
  | .indent d, _, _, h | .lineSuffix d, _, _, h => by
    rw [propagate] at h
    obtain ⟨⟨e, _⟩, he, hout⟩ := bind_eq_ok h
    cases hout
    have hd := propagate_marked d e _ he
    exact ⟨by simp [size, hd.size], by simp [leaves, hd.leaves], fun p hp => by
      simp [every, hd.every p hp, hp.indent e d, hp.lineSuffix e d]⟩
  | .group d broken, _, _, h => by
    rw [propagate] at h
    obtain ⟨⟨e, _⟩, he, hout⟩ := bind_eq_ok h
    cases hout
    have hd := propagate_marked d e _ he
    exact ⟨by simp [size, hd.size], by simp [leaves, hd.leaves], fun p hp => by
      simp [every, hd.every p hp, hp.group e d _ broken]⟩
  | .alien _, _, _, h => by cases h

theorem propagateAll_marked : ∀ (ds es : List Doc) (b : Bool), propagateAll ds = .ok (es, b) →
    MarkedAll ds es
  | [], _, _, h => by
    cases h
    exact ⟨rfl, rfl, fun _ _ => rfl⟩
  | d :: ds, _, _, h => by
    rw [propagateAll] at h
    obtain ⟨⟨e, _⟩, he, h⟩ := bind_eq_ok h
    obtain ⟨⟨es, _⟩, hes, hout⟩ := bind_eq_ok h
    cases hout
    have hd := propagate_marked d e _ he
    have hall := propagateAll_marked ds es _ hes
    exact ⟨by simp [sizes, hd.size, hall.sizes], by simp [leavesAll, hd.leaves, hall.leavesAll],
      fun p hp => by simp [everyAll, hd.every p hp, hall.everyAll p hp]⟩

end

/-- Marking changes neither the size of a document nor its texts nor what its parts are. -/
theorem propagateBreaks_marked {d e : Doc} (h : d.propagateBreaks = .ok e) : Marked d e := by
  rw [propagateBreaks, ← bind_pure_comp] at h
  obtain ⟨⟨e', b⟩, he, hout⟩ := bind_eq_ok h
  cases hout
  exact propagate_marked d e' b he

/-! ## One turn -/

/-- Where the renderer stands: what it has written, the column behind it, the line suffixes that
wait, and the frames that are still to be worked off. -/
structure Rendering where
  out : Output
  col : Int
  suffixes : List Frame
  stack : List Frame

/-- The renderer before its first turn on a document. -/
def Rendering.start (d : Doc) : Rendering := ⟨[], 0, [], [⟨0, .breaking, d⟩]⟩

/-- The renderer is done: no frame is left and no line suffix waits. -/
def Rendering.Done (r : Rendering) : Prop := r.stack = [] ∧ r.suffixes = []

/-- What the renderer has written when it has worked off everything. -/
def Rendering.finish (w : Widths) (r : Rendering) : Output :=
  run w r.out r.col r.suffixes r.stack

/-- One turn of the renderer: where it stands, the characters it writes, and where it then stands.
There is one rule for each branch of `run` that goes on. `Turn.finish_eq` and `Turn.exists_turn` say
that running is taking turns as long as there is one to take, and `Turn.deterministic` that there is
only one way to do so. -/
inductive Turn (w : Widths) : Rendering → List Char → Rendering → Prop
  | flush {out col f more} : Turn w ⟨out, col, f :: more, []⟩ [] ⟨out, col, [], f :: more⟩
  | bare (s : String) {out col suffixes ind mode stack} :
      Turn w ⟨out, col, suffixes, ⟨ind, mode, .bare s⟩ :: stack⟩ s.toList
        ⟨out.push s, columnAfter col s, suffixes, stack⟩
  | text (s : String) {out col suffixes ind mode stack} :
      Turn w ⟨out, col, suffixes, ⟨ind, mode, .text s⟩ :: stack⟩ s.toList
        ⟨out.push s, columnAfter col s, suffixes, stack⟩
  | list (parts : List Doc) {out col suffixes ind mode stack} :
      Turn w ⟨out, col, suffixes, ⟨ind, mode, .list parts⟩ :: stack⟩ []
        ⟨out, col, suffixes, framesOf ind mode parts ++ stack⟩
  | concat (parts : List Doc) {out col suffixes ind mode stack} :
      Turn w ⟨out, col, suffixes, ⟨ind, mode, .concat parts⟩ :: stack⟩ []
        ⟨out, col, suffixes, framesOf ind mode parts ++ stack⟩
  | fill (parts : List Doc) {out col suffixes ind mode stack} :
      Turn w ⟨out, col, suffixes, ⟨ind, mode, .fill parts⟩ :: stack⟩ []
        ⟨out, col, suffixes, fillFrames ind mode (w.line - col) parts ++ stack⟩
  | indent (d : Doc) {out col suffixes ind mode stack} :
      Turn w ⟨out, col, suffixes, ⟨ind, mode, .indent d⟩ :: stack⟩ []
        ⟨out, col, suffixes, ⟨ind + w.tab, mode, d⟩ :: stack⟩
  | group (d : Doc) (broken : Bool) {out col suffixes ind mode stack} :
      Turn w ⟨out, col, suffixes, ⟨ind, mode, .group d broken⟩ :: stack⟩ []
        ⟨out, col, suffixes,
          ⟨ind, groupMode w col ⟨ind, mode, d⟩ broken (!suffixes.isEmpty) stack, d⟩ :: stack⟩
  | lineSuffix (d : Doc) {out col suffixes ind mode stack} :
      Turn w ⟨out, col, suffixes, ⟨ind, mode, .lineSuffix d⟩ :: stack⟩ []
        ⟨out, col, suffixes ++ [⟨ind, mode, d⟩], stack⟩
  | breakParent {out col suffixes ind mode stack} :
      Turn w ⟨out, col, suffixes, ⟨ind, mode, .breakParent⟩ :: stack⟩ []
        ⟨out, col, suffixes, stack⟩
  | alien (v : Value) {out col suffixes ind mode stack} :
      Turn w ⟨out, col, suffixes, ⟨ind, mode, .alien v⟩ :: stack⟩ [] ⟨out, col, suffixes, stack⟩
  | space {out col suffixes ind stack} :
      Turn w ⟨out, col, suffixes, ⟨ind, .flat, .line .space⟩ :: stack⟩ [' ']
        ⟨out.push " ", col + 1, suffixes, stack⟩
  | soft {out col suffixes ind stack} :
      Turn w ⟨out, col, suffixes, ⟨ind, .flat, .line .soft⟩ :: stack⟩ []
        ⟨out, col, suffixes, stack⟩
  | newline (kind : LineKind) {out col ind mode stack} : ¬ (mode = .flat ∧ kind ≠ .hard) →
      Turn w ⟨out, col, [], ⟨ind, mode, .line kind⟩ :: stack⟩
        ('\n' :: List.replicate ind.toNat ' ') ⟨out.newline ind, ind, [], stack⟩
  | release (kind : LineKind) {out col f more ind mode stack} : ¬ (mode = .flat ∧ kind ≠ .hard) →
      Turn w ⟨out, col, f :: more, ⟨ind, mode, .line kind⟩ :: stack⟩ []
        ⟨out, col, [], f :: more ++ ⟨ind, mode, .line kind⟩ :: stack⟩

variable {w : Widths}

namespace Turn

variable {r s : Rendering} {cs : List Char}

/-- Working everything off is taking one turn and going on from there. -/
theorem finish_eq (h : Turn w r cs s) : r.finish w = s.finish w := by
  unfold Rendering.finish
  cases h with
  | newline kind hmode | release kind hmode => simp only [run, if_neg hmode]
  | space | soft =>
    rw [run.eq_def]
    simp
  | _ => simp [run]

/-- There is never a choice between two turns. -/
theorem deterministic {s' : Rendering} {cs' : List Char} (h : Turn w r cs s)
    (h' : Turn w r cs' s') : cs = cs' ∧ s = s' := by
  cases h <;> cases h' <;> simp_all

/-- The renderer has a turn to take as long as a frame or a line suffix is left. -/
theorem exists_turn (w : Widths) (r : Rendering) (h : ¬ r.Done) :
    ∃ cs s, Turn w r cs s := by
  obtain ⟨out, col, suffixes, stack⟩ := r
  rcases stack with _ | ⟨⟨ind, mode, d⟩, stack⟩
  · cases suffixes with
    | nil => exact absurd ⟨rfl, rfl⟩ h
    | cons f more => exact ⟨_, _, flush⟩
  cases d with
  | line kind =>
    by_cases hmode : mode = .flat ∧ kind ≠ .hard
    · obtain ⟨rfl, hhard⟩ := hmode
      cases kind with
      | space => exact ⟨_, _, space⟩
      | soft => exact ⟨_, _, soft⟩
      | hard => exact absurd rfl hhard
    · cases suffixes with
      | nil => exact ⟨_, _, newline kind hmode⟩
      | cons f more => exact ⟨_, _, release kind hmode⟩
  | _ => exact ⟨_, _, by constructor⟩

/-- A turn writes its characters behind what was there, but that a line break removes the blanks
before it. -/
theorem out_eq (h : Turn w r cs s) : s.out = cs.reverse ++ r.out ∨
    cs.head? = some '\n' ∧ s.out = cs.reverse ++ r.out.trim := by
  cases h with
  | newline kind hmode =>
    right
    simp [Output.newline]
  | bare | text =>
    left
    rfl
  | _ => simp [Output.push]

end Turn

/-! ## A bound on the turns -/

/-- A bound on the turns still to be taken: the sizes of all frames, counted twice, and the number
of waiting line suffixes. A line suffix that starts to wait has lost its command, which pays for
its way back to the stack. -/
def Rendering.load (r : Rendering) : Nat :=
  2 * (frameSizes r.suffixes + frameSizes r.stack) + r.suffixes.length

theorem Rendering.load_start (d : Doc) : (start d).load = 2 * d.size := by
  simp [load, start, frameSizes]

theorem Turn.load_lt {r s : Rendering} {cs : List Char} (h : Turn w r cs s) : s.load < r.load := by
  unfold Rendering.load
  cases h with
  -- The frames of the parts are smaller than the command that held them.
  | list parts | concat parts =>
    rename_i ind mode stack
    have hparts := frameSizes_framesOf_le ind mode parts
    simp only [frameSizes, frameSizes_append, size]
    omega
  | fill parts =>
    rename_i out col suffixes ind mode stack
    have hparts := frameSizes_fillFrames_le ind mode (w.line - col) parts
    simp only [frameSizes, frameSizes_append, size]
    omega
  | _ =>
    simp [frameSizes, frameSizes_append, size]
    try omega

/-! ## Runs -/

/-- The renderer gets from one place to another in so many turns, and writes the characters. -/
inductive Turns (w : Widths) : Nat → Rendering → List Char → Rendering → Prop
  | none (r : Rendering) : Turns w 0 r [] r
  | next {n : Nat} {r s t : Rendering} {cs cs' : List Char} :
      Turn w r cs s → Turns w n s cs' t → Turns w (n + 1) r (cs ++ cs') t

namespace Turns

variable {r s : Rendering} {cs : List Char} {n : Nat}

theorem finish_eq (h : Turns w n r cs s) : r.finish w = s.finish w := by
  induction h with
  | none r => rfl
  | next hturn _ ih => rw [hturn.finish_eq, ih]

/-- A run takes no more turns than the load goes down. -/
theorem load_le (h : Turns w n r cs s) : n + s.load ≤ r.load := by
  induction h with
  | none r => omega
  | next hturn _ ih =>
    have hlt := hturn.load_lt
    omega

end Turns

/-- From every place the renderer comes to an end. -/
theorem Rendering.exists_turns (w : Widths) (r : Rendering) :
    ∃ n cs s, Turns w n r cs s ∧ s.Done := by
  induction hload : r.load using Nat.strong_induction_on generalizing r with
  | _ load ih =>
    by_cases hdone : r.Done
    · exact ⟨0, [], r, .none r, hdone⟩
    · obtain ⟨cs, s, hturn⟩ := Turn.exists_turn w r hdone
      obtain ⟨n, cs', t, hturns, ht⟩ := ih s.load (hload ▸ hturn.load_lt) s rfl
      exact ⟨n + 1, cs ++ cs', t, .next hturn hturns, ht⟩

theorem Rendering.finish_of_done (w : Widths) {r : Rendering} (h : r.Done) :
    r.finish w = r.out := by
  obtain ⟨out, col, suffixes, stack⟩ := r
  obtain ⟨rfl, rfl⟩ := h
  simp [finish, run]

/-- Rendering a document is running from its start to an end. -/
theorem render_turns (w : Widths) {d : Doc} (h : d.solid = true) :
    ∃ e n cs s, d.propagateBreaks = .ok e ∧ Turns w n (.start e) cs s ∧ s.Done ∧
      d.render w = .ok s.out.toText := by
  obtain ⟨⟨e, b⟩, he⟩ := propagate_solid d h
  have hmarks : d.propagateBreaks = .ok e := by
    rw [propagateBreaks, he]
    rfl
  obtain ⟨n, cs, s, hturns, hdone⟩ := (Rendering.start e).exists_turns w
  refine ⟨e, n, cs, s, hmarks, hturns, hdone, ?_⟩
  rw [← Rendering.finish_of_done w hdone, ← hturns.finish_eq, render, hmarks]
  rfl

/-! ## Tests on all parts of the frames -/

/-- Does the test hold of all parts of the documents that are still to be worked off? -/
def Rendering.Every (p : Doc → Bool) (r : Rendering) : Prop :=
  ∀ f ∈ r.suffixes ++ r.stack, f.doc.every p = true

theorem Rendering.Every.top {p : Doc → Bool} {out : Output} {col : Int} {f : Frame}
    {suffixes stack : List Frame} (h : Every p ⟨out, col, suffixes, f :: stack⟩) :
    p f.doc = true :=
  every_self (h f (List.mem_append_right _ List.mem_cons_self))

theorem every_framesOf {p : Doc → Bool} {ind : Int} {mode : Mode} {ds : List Doc}
    (h : everyAll p ds = true) : ∀ f ∈ framesOf ind mode ds, f.doc.every p = true := by
  intro f hf
  obtain ⟨d, hd, rfl⟩ := List.mem_map.mp hf
  exact everyAll_iff.mp h d hd

theorem every_fillFrames {p : Doc → Bool} (hp : Shallow p) {ind width : Int} {mode : Mode}
    {parts : List Doc} (h : (Doc.fill parts).every p = true) :
    ∀ f ∈ fillFrames ind mode width parts, f.doc.every p = true := by
  rw [every, Bool.and_eq_true] at h
  obtain ⟨hself, hparts⟩ := h
  unfold fillFrames
  split
  case h_1 => simp
  case h_2 | h_3 => simp_all [everyAll]
  case h_4 content sep next more =>
    -- The rest of the fill is a new fill, which the test cannot tell from the old one.
    have hrest := hp.fill (next :: more) (content :: sep :: next :: more)
    simp_all [everyAll, every]

/-- A turn puts parts of the documents of the frames in their place. -/
theorem Turn.every {p : Doc → Bool} (hp : Shallow p) {r s : Rendering} {cs : List Char}
    (h : Turn w r cs s) (hr : r.Every p) : s.Every p := by
  unfold Rendering.Every at hr ⊢
  rw [List.forall_mem_append] at hr ⊢
  cases h with
  | list parts | concat parts =>
    simp only [List.forall_mem_cons, Doc.every, Bool.and_eq_true] at hr
    exact ⟨hr.1, List.forall_mem_append.mpr ⟨every_framesOf hr.2.1.2, hr.2.2⟩⟩
  | fill parts =>
    rw [List.forall_mem_cons] at hr
    exact ⟨hr.1, List.forall_mem_append.mpr ⟨every_fillFrames hp hr.2.1, hr.2.2⟩⟩
  | release kind _ =>
    refine ⟨by simp, ?_⟩
    rw [List.forall_mem_append]
    exact hr
  | _ =>
    simp only [List.forall_mem_append, List.forall_mem_cons, Doc.every, Bool.and_eq_true] at hr ⊢
    simp_all

/-- No line suffix waits, and the test holds of all parts that are still to be worked off. -/
structure Rendering.Unsuffixed (p : Doc → Bool) (r : Rendering) : Prop where
  suffixes : r.suffixes = []
  every : r.Every p

theorem Rendering.unsuffixed_start {p : Doc → Bool} {d : Doc} (h : d.every p = true) :
    (start d).Unsuffixed p :=
  ⟨rfl, by simpa [Every, start] using h⟩

section

variable {p : Doc → Bool} {r s : Rendering} {cs : List Char} {n : Nat}

/-- Under a test that no line suffix passes, none comes to wait. -/
theorem Turn.unsuffixed (hp : Shallow p) (hnone : ∀ d, p (.lineSuffix d) = false)
    (h : Turn w r cs s) (hr : r.Unsuffixed p) : s.Unsuffixed p := by
  refine ⟨?_, h.every hp hr.every⟩
  cases h with
  | lineSuffix d =>
    have htop := hr.every.top
    rw [hnone] at htop
    cases htop
  | flush | release => rfl
  | _ => exact hr.suffixes

theorem Turns.unsuffixed (hp : Shallow p) (hnone : ∀ d, p (.lineSuffix d) = false)
    (h : Turns w n r cs s) (hr : r.Unsuffixed p) : s.Unsuffixed p := by
  induction h with
  | none r => exact hr
  | next hturn _ ih => exact ih (hturn.unsuffixed hp hnone hr)

end

end Doc

end MonkeyFormat
