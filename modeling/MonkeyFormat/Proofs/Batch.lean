import MonkeyFormat.CommandLine.Run

set_option autoImplicit false

/-! # Runs over several files

What a run makes of a file is what it would make of it alone: files that the command line names are
read, formatted and written one after the other, and none of them is affected by what came of those
before it, as long as no fault ends the run. -/

namespace MonkeyFormat

namespace CommandLine

/-! ## Files with another text -/

namespace Files

variable {fs : Files} {path text : String}

/-- A file, with another text if it is at the path. -/
def retext (path text : String) (f : String × String) : String × String :=
  if f.1 = path then (path, text) else f

theorem retext_fst (f : String × String) : (retext path text f).1 = f.1 := by
  unfold retext
  split
  · next h => exact h.symm
  · rfl

theorem replace_eq (fs : Files) (path text : String) :
    fs.replace path text = fs.map (retext path text) :=
  rfl

/-- Where a path leads does not depend on what the files hold. -/
theorem follow_replace (here rest : List String) :
    follow (fs.replace path text) here rest = retext path text <$> follow fs here rest := by
  induction rest generalizing here with
  | nil => rfl
  | cons part rest ih =>
    -- the walk looks at the addresses only, and these stay as they are
    have hfind (there : List String) : (fs.replace path text).find? (fun f => address f.1 = there) =
        (fs.find? fun f => address f.1 = there).map (retext path text) := by
      rw [replace_eq, List.find?_map]
      simp only [Function.comp_def, retext_fst]
    have hany (there : List String) : (fs.replace path text).any (fun f =>
        there.isPrefixOf (address f.1)) = fs.any fun f => there.isPrefixOf (address f.1) := by
      rw [replace_eq, List.any_map]
      simp only [Function.comp_def, retext_fst]
    unfold follow
    simp only [hfind, hany, ih]
    split
    · rfl
    · split
      · split <;> rfl
      · split
        · rfl
        · cases fs.find? fun f => address f.1 = here ++ [part] with
          | none =>
            simp only [Option.map_none]
            split <;> rfl
          | some f =>
            simp only [Option.map_some]
            split <;> rfl

theorem find_replace (fs : Files) (path text name : String) :
    (fs.replace path text).find name = retext path text <$> fs.find name := by
  unfold find
  split
  · rfl
  · split
    · rfl
    · split
      · rfl
      · exact follow_replace _ _

/-- The files after something has been written, if something has. -/
def update (fs : Files) : Option (String × String) → Files
  | none => fs
  | some (path, text) => fs.replace path text

/-- Do two names lead to different files, if to any? -/
def Apart (fs : Files) (m n : String) : Prop :=
  ∀ f g, fs.find m = .ok f → fs.find n = .ok g → f.1 ≠ g.1

/-- Another text in a file leads a name to the same file as before. -/
theorem find_update_eq_ok {name : String} {f : String × String} (hf : fs.find name = .ok f)
    (u : Option (String × String)) : ∃ raw, (fs.update u).find name = .ok (f.1, raw) ∧
      ((∀ w ∈ u, w.1 ≠ f.1) → raw = f.2) ∧ ∀ s, u = some (f.1, s) → raw = s := by
  cases u with
  | none => exact ⟨f.2, hf, fun _ => rfl, by rintro s ⟨⟩⟩
  | some w =>
    refine ⟨(retext w.1 w.2 f).2, ?_, fun hne => ?_, ?_⟩
    · rw [update, find_replace, hf]
      exact congrArg Except.ok (Prod.ext (retext_fst f) rfl)
    · rw [retext, if_neg fun heq => hne w rfl heq.symm]
    · rintro s ⟨⟩
      rw [retext, if_pos rfl]

theorem find_update_of_ne {name : String} {u : Option (String × String)}
    (h : ∀ f, fs.find name = .ok f → ∀ w ∈ u, w.1 ≠ f.1) :
    (fs.update u).find name = fs.find name := by
  cases hf : fs.find name with
  | error e =>
    cases u with
    | none => exact hf
    | some w =>
      rw [update, find_replace, hf]
      rfl
  | ok f =>
    obtain ⟨raw, hfind, hkept, -⟩ := find_update_eq_ok hf u
    rw [hfind, hkept (h f hf)]

/-- Other texts in other files leave a file as it is. -/
theorem find_updates {name : String} {us : List (Option (String × String))}
    (h : ∀ u ∈ us, ∀ f, fs.find name = .ok f → ∀ w ∈ u, w.1 ≠ f.1) :
    (us.foldl update fs).find name = fs.find name := by
  induction us generalizing fs with
  | nil => rfl
  | cons u us ih =>
    rw [List.forall_mem_cons] at h
    have hfind := find_update_of_ne h.1
    rw [List.foldl_cons, ih fun u hu f hf => h.2 u hu f (hfind ▸ hf), hfind]

theorem Apart.update {m n : String} (h : fs.Apart m n) (u : Option (String × String)) :
    (fs.update u).Apart m n := by
  intro f g hf hg
  cases u with
  | none => exact h f g hf hg
  | some w =>
    rw [Files.update, find_replace] at hf hg
    cases hm : fs.find m with
    | error e => rw [hm] at hf; cases hf
    | ok f' =>
      cases hn : fs.find n with
      | error e => rw [hn] at hg; cases hg
      | ok g' =>
        rw [hm] at hf
        rw [hn] at hg
        cases hf
        cases hg
        rw [retext_fst, retext_fst]
        exact h f' g' hm hn

end Files

/-! ## What runs have done -/

namespace Progress

/-- What two runs have done one after the other. -/
def andThen (p q : Progress) : Progress where
  output := p.output ++ q.output
  errors := p.errors ++ q.errors
  warnings := p.warnings ++ q.warnings
  failed := p.failed || q.failed
  changed := p.changed || q.changed
  fault? := p.fault?.or q.fault?

theorem andThen_assoc (p q r : Progress) : (p.andThen q).andThen r = p.andThen (q.andThen r) := by
  simp [andThen, String.append_assoc, Bool.or_assoc, Option.or_assoc]

theorem andThen_empty (p : Progress) : p.andThen {} = p := by
  simp [andThen]

theorem empty_andThen (p : Progress) : ({} : Progress).andThen p = p := by
  simp [andThen]

theorem report_eq (p : Progress) (line : String) :
    p.report line = p.andThen (({} : Progress).report line) := by
  simp [andThen, report, String.append_assoc]

/-- What several runs have done one after the other. -/
def all (ps : List Progress) : Progress := ps.foldr andThen {}

theorem failed_all (ps : List Progress) : (all ps).failed = (ps.map failed).any id := by
  induction ps with
  | nil => rfl
  | cons p ps ih =>
    rw [List.map_cons, List.any_cons, ← ih]
    rfl

theorem changed_all (ps : List Progress) : (all ps).changed = (ps.map changed).any id := by
  induction ps with
  | nil => rfl
  | cons p ps ih =>
    rw [List.map_cons, List.any_cons, ← ih]
    rfl

theorem fault?_all {ps : List Progress} (h : ∀ p ∈ ps, p.fault? = none) :
    (all ps).fault? = none := by
  induction ps with
  | nil => rfl
  | cons p ps ih =>
    rw [List.forall_mem_cons] at h
    change p.fault?.or (all ps).fault? = none
    rw [h.1, ih h.2]
    rfl

/-- What is printed is printed in order. -/
theorem output_all (ps : List Progress) : (all ps).output = String.join (ps.map output) := by
  induction ps with
  | nil => rfl
  | cons p ps ih =>
    rw [List.map_cons, String.join_cons, ← ih]
    rfl

theorem errors_all (ps : List Progress) : (all ps).errors = String.join (ps.map errors) := by
  induction ps with
  | nil => rfl
  | cons p ps ih =>
    rw [List.map_cons, String.join_cons, ← ih]
    rfl

end Progress

/-! ## One input -/

variable (a : Arguments) (o : Options)

/-- What becomes of a named text, and what is to be written for it. -/
def treat (name text : String) : Progress × Option String :=
  match formatText a o name text with
  | .error fault => (match reportLine? name fault with
    | some line => ({} : Progress).report line
    | none => { fault? := some fault }, none)
  | .ok formatted =>
    let done : Progress :=
      { warnings := formatted.warning?.toList, changed := formatted.text ≠ text }
    match deliver a name text formatted.text with
    | .print s => ({ done with output := s }, none)
    | .store s => (done, some s)

/-- What becomes of a named file, and what is to be written where. -/
def treatFile (fs : Files) (name : String) : Progress × Option (String × String) :=
  if isName name then
    match fs.find name with
    | .error e => (({} : Progress).report (name ++ ": " ++ e.message name), none)
    | .ok (path, raw) =>
      let r := treat a o name (Text.unifyBreaks raw)
      (r.1, r.2.map (path, ·))
  else ({ fault? := some .badName }, none)

variable {a o} {fs : Files} {name : String} {p : Progress}

/-- A text is treated as it would be by itself. -/
theorem run_runText {path raw : String} (hfind : fs.find name = .ok (path, raw)) (text : String)
    (hp : p.fault? = none) : (runText Files.storage a o name text p).run fs =
      (p.andThen (treat a o name text).1, fs.update ((treat a o name text).2.map (path, ·))) := by
  unfold runText treat
  cases formatText a o name text with
  | error fault =>
    dsimp only
    cases reportLine? name fault with
    | some line => exact congrArg (·, fs) (p.report_eq line)
    | none =>
      refine congrArg (·, fs) ?_
      simp [Progress.andThen, hp]
  | ok formatted =>
    dsimp only
    cases deliver a name text formatted.text with
    | print s =>
      refine congrArg (·, fs) ?_
      simp [Progress.andThen]
    | store s =>
      have hwrite : (Files.storage.write name s).run fs = (.ok (), fs.replace path s) := by
        simp only [Files.storage, StateT.run_bind, StateT.run_get, pure_bind, hfind]
        rfl
      dsimp only
      rw [StateT.run_bind, hwrite]
      refine congrArg (·, fs.replace path s) ?_
      simp [Progress.andThen]

/-- Reads and formats one file. -/
def runFile {m : Type → Type} [Monad m] (storage : Storage m) (a : Arguments) (o : Options)
    (name : String) (p : Progress) : m Progress := do
  if isName name then
    match ← storage.read name with
    | .ok text => runText storage a o name (Text.unifyBreaks text) p
    | .error e => pure (p.report (name ++ ": " ++ e.message name))
  else pure { p with fault? := some .badName }

/-- Files are treated one after the other until a fault ends the run. -/
theorem runFiles_cons {m : Type → Type} [Monad m] [LawfulMonad m] (storage : Storage m)
    (names : List String) : runFiles storage a o (name :: names) p =
      runFile storage a o name p >>= fun q =>
        if q.fault?.isSome then pure q else runFiles storage a o names q := by
  rw [runFiles, runFile]
  cases isName name with
  | false => simp
  | true =>
    simp only [Bool.not_true, Bool.false_eq_true, if_false, if_true, bind_assoc]
    refine bind_congr fun r => ?_
    cases r <;> rfl

/-- A file is treated as it would be by itself. -/
theorem run_runFile (hp : p.fault? = none) : (runFile Files.storage a o name p).run fs =
    (p.andThen (treatFile a o fs name).1, fs.update (treatFile a o fs name).2) := by
  have hread : (Files.storage.read name).run fs = (Prod.snd <$> fs.find name, fs) := rfl
  unfold runFile treatFile
  cases isName name with
  | false =>
    refine congrArg (·, fs) ?_
    simp [Progress.andThen, hp]
  | true =>
    simp only [if_true]
    rw [StateT.run_bind, hread]
    cases hfind : fs.find name with
    | error e => exact congrArg (·, fs) (p.report_eq _)
    | ok f => exact run_runText hfind _ hp

/-- Until a fault ends the run, it does for each file what it would do for the file by itself. -/
theorem run_runFiles_cons (names : List String) (hp : p.fault? = none) :
    (runFiles Files.storage a o (name :: names) p).run fs =
      if (treatFile a o fs name).1.fault?.isSome then
        (p.andThen (treatFile a o fs name).1, fs.update (treatFile a o fs name).2)
      else (runFiles Files.storage a o names (p.andThen (treatFile a o fs name).1)).run
        (fs.update (treatFile a o fs name).2) := by
  have hfault :
      (p.andThen (treatFile a o fs name).1).fault? = (treatFile a o fs name).1.fault? := by
    rw [Progress.andThen, hp, Option.none_or]
  rw [runFiles_cons, StateT.run_bind, run_runFile hp]
  change StateT.run (if (p.andThen (treatFile a o fs name).1).fault?.isSome then _ else _) _ = _
  rw [hfault]
  split <;> rfl

/-! ## Several inputs -/

/-- What is written for a name is written to the file that it leads to. -/
theorem find_of_treatFile {w : String × String} (h : (treatFile a o fs name).2 = some w) :
    ∃ raw, fs.find name = .ok (w.1, raw) := by
  unfold treatFile at h
  split at h
  · split at h
    · cases h
    · next path raw hfind =>
      obtain ⟨s, -, rfl⟩ := Option.map_eq_some_iff.1 h
      exact ⟨raw, hfind⟩
  · cases h

/-- What is written for one name leaves the file of another as it is. -/
theorem find_update_treatFile {m : String} (h : fs.Apart m name) :
    (fs.update (treatFile a o fs m).2).find name = fs.find name := by
  refine Files.find_update_of_ne fun f hf w hw => ?_
  obtain ⟨raw, hm⟩ := find_of_treatFile hw
  exact h (w.1, raw) f hm hf

theorem treatFile_congr {gs : Files} (h : gs.find name = fs.find name) :
    treatFile a o gs name = treatFile a o fs name := by
  unfold treatFile
  rw [h]

/-- What becomes of a file does not depend on what came of another. -/
theorem treatFile_update {m : String} (h : fs.Apart m name) :
    treatFile a o (fs.update (treatFile a o fs m).2) name = treatFile a o fs name :=
  treatFile_congr (find_update_treatFile h)

/-- What becomes of several files, one after the other. -/
def treatAll (a : Arguments) (o : Options) (fs : Files) (names : List String) : Progress × Files :=
  (.all (names.map fun n => (treatFile a o fs n).1),
    (names.map fun n => (treatFile a o fs n).2).foldl Files.update fs)

/-- A run does for each file what it would do for the file by itself. -/
theorem run_runFiles {names : List String} (hdistinct : names.Pairwise fs.Apart)
    (hgoes : ∀ n ∈ names, (treatFile a o fs n).1.fault? = none) (hp : p.fault? = none) :
    (runFiles Files.storage a o names p).run fs =
      (p.andThen (treatAll a o fs names).1, (treatAll a o fs names).2) := by
  induction names generalizing fs p with
  | nil => exact congrArg (·, fs) p.andThen_empty.symm
  | cons name names ih =>
    obtain ⟨hapart, hdistinct⟩ := List.pairwise_cons.1 hdistinct
    rw [List.forall_mem_cons] at hgoes
    -- what is written for the first name is in none of the files behind it
    have hsame : ∀ n ∈ names, treatFile a o (fs.update (treatFile a o fs name).2) n =
        treatFile a o fs n := fun n hn => treatFile_update (hapart n hn)
    have hp' : (p.andThen (treatFile a o fs name).1).fault? = none := by
      rw [Progress.andThen, hp, hgoes.1]
      rfl
    rw [run_runFiles_cons names hp, hgoes.1, Option.isSome_none, if_neg Bool.false_ne_true,
      ih (hdistinct.imp fun h => h.update _) (fun n hn => by rw [hsame n hn, hgoes.2 n hn]) hp']
    unfold treatAll
    rw [List.map_congr_left fun n hn => congrArg Prod.fst (hsame n hn),
      List.map_congr_left fun n hn => congrArg Prod.snd (hsame n hn), Progress.andThen_assoc]
    rfl

/-! ## What is left of each file -/

/-- A run leaves the files that it is not given. -/
theorem find_treatAll_of_apart {names : List String} (h : ∀ m ∈ names, fs.Apart m name) :
    (treatAll a o fs names).2.find name = fs.find name := by
  refine Files.find_updates ?_
  simp only [List.forall_mem_map]
  intro m hm f hf w hw
  obtain ⟨raw, hfind⟩ := find_of_treatFile hw
  exact h m hm (w.1, raw) f hfind hf

/-- A run leaves in each file what it would leave there if it were given nothing else. -/
theorem find_treatAll {names : List String} {f : String × String}
    (hdistinct : names.Pairwise fs.Apart) (hname : name ∈ names) (hf : fs.find name = .ok f) :
    (treatAll a o fs names).2.find name =
      .ok (f.1, ((treatFile a o fs name).2.map Prod.snd).getD f.2) := by
  -- the file is written at its own turn at most: not before, and not behind
  obtain ⟨pre, post, rfl⟩ := List.append_of_mem hname
  rw [List.pairwise_append, List.pairwise_cons] at hdistinct
  obtain ⟨-, ⟨hpost, -⟩, hpre⟩ := hdistinct
  have hbefore : (treatAll a o fs pre).2.find name = .ok f := by
    rw [find_treatAll_of_apart fun m hm => hpre m hm name List.mem_cons_self, hf]
  have hhere : ((treatAll a o fs pre).2.update (treatFile a o fs name).2).find name =
      .ok (f.1, ((treatFile a o fs name).2.map Prod.snd).getD f.2) := by
    obtain ⟨raw, hfind, hkept, hwritten⟩ :=
      Files.find_update_eq_ok hbefore (treatFile a o fs name).2
    rw [hfind]
    cases hw : (treatFile a o fs name).2 with
    | none => rw [hkept (by simp [hw])]; rfl
    | some w =>
      obtain ⟨old, hold⟩ := find_of_treatFile hw
      rw [hf] at hold
      cases hold
      rw [hwritten w.2 hw]
      rfl
  have hsplit : (treatAll a o fs (pre ++ name :: post)).2 =
      (post.map fun n => (treatFile a o fs n).2).foldl Files.update
        ((treatAll a o fs pre).2.update (treatFile a o fs name).2) := by
    simp only [treatAll, List.map_append, List.map_cons, List.foldl_append, List.foldl_cons]
  rw [hsplit, Files.find_updates, hhere]
  simp only [List.forall_mem_map]
  intro m hm g hg w hw
  rw [hhere] at hg
  cases hg
  obtain ⟨raw, hfind⟩ := find_of_treatFile hw
  exact (hpost m hm f (w.1, raw) hf hfind).symm

/-! ## What a run amounts to -/

/-- Is the formatted form of the named text to be written? -/
def writes (a : Arguments) (name : String) : Bool :=
  a.write && !a.check && name ≠ inputName && name ≠ stringName

/-- What a file gets. -/
def Delivery.stored? : Delivery → Option String
  | .print _ => none
  | .store s => some s

/-- Only a text that differs is written. -/
theorem stored?_deliver (text formatted : String) : (deliver a name text formatted).stored? =
    if writes a name && formatted ≠ text then some formatted else none := by
  unfold deliver writes
  cases a.check with
  | true => simp [Delivery.stored?]
  | false =>
    simp only [Bool.false_eq_true, if_false, Bool.not_false, Bool.and_true]
    cases a.write && name ≠ inputName && name ≠ stringName with
    | false => rfl
    | true => by_cases hchanged : formatted = text <;> simp [hchanged, Delivery.stored?]

/-- A text is reported if it cannot be formatted. -/
theorem treat_progress {text : String} (h : ∀ fault, formatText a o name text = .error fault →
      (reportLine? name fault).isSome) :
    (treat a o name text).1.fault? = none ∧
      (treat a o name text).1.failed = (formatText a o name text).toOption.isNone ∧
      (treat a o name text).1.changed =
        (formatText a o name text).toOption.any fun formatted => formatted.text ≠ text := by
  unfold treat
  cases hformat : formatText a o name text with
  | error fault =>
    obtain ⟨line, hline⟩ := Option.isSome_iff_exists.1 (h fault hformat)
    dsimp only
    rw [hline]
    exact ⟨rfl, rfl, rfl⟩
  | ok formatted =>
    dsimp only
    cases deliver a name text formatted.text <;> exact ⟨rfl, rfl, rfl⟩

/-- The formatted form of a text is written if it differs. -/
theorem treat_written (text : String) : (treat a o name text).2 =
    (formatText a o name text).toOption.bind fun formatted =>
      if writes a name && formatted.text ≠ text then some formatted.text else none := by
  unfold treat
  cases formatText a o name text with
  | error fault =>
    dsimp only
    cases reportLine? name fault <;> rfl
  | ok formatted =>
    change _ = if writes a name && formatted.text ≠ text then some formatted.text else none
    rw [← stored?_deliver]
    dsimp only
    cases deliver a name text formatted.text <;> rfl

/-- What is read from the named file and its formatted form, if it can be read and formatted. -/
def formatFile (a : Arguments) (o : Options) (fs : Files) (name : String) :
    Option (String × String) :=
  (fs.find name).toOption.bind fun f =>
    let text := Text.unifyBreaks f.2
    (formatText a o name text).toOption.map fun formatted => (text, formatted.text)

/-- Does the run go on after the named file, whatever becomes of it? -/
structure GoesOn (a : Arguments) (o : Options) (fs : Files) (name : String) : Prop where
  named : isName name = true
  reported : ∀ path raw fault, fs.find name = .ok (path, raw) →
    formatText a o name (Text.unifyBreaks raw) = .error fault → (reportLine? name fault).isSome

/-- Is a file different from its formatted form? -/
def differs (r : String × String) : Bool := r.2 ≠ r.1

theorem GoesOn.progress (h : GoesOn a o fs name) :
    (treatFile a o fs name).1.fault? = none ∧
      (treatFile a o fs name).1.failed = (formatFile a o fs name).isNone ∧
      (treatFile a o fs name).1.changed = (formatFile a o fs name).any differs := by
  unfold treatFile formatFile
  rw [if_pos h.named]
  cases hfind : fs.find name with
  | error e => exact ⟨rfl, rfl, rfl⟩
  | ok f =>
    have hok : (Except.ok f : Except FileFault (String × String)).toOption = some f := rfl
    rw [hok, Option.bind_some, Option.isNone_map, Option.any_map]
    exact treat_progress (h.reported f.1 f.2 · hfind)

/-- A file gets its formatted form if that differs. -/
theorem GoesOn.written (h : GoesOn a o fs name) {path raw : String}
    (hf : fs.find name = .ok (path, raw)) : (treatFile a o fs name).2 =
      ((formatFile a o fs name).filter fun r => writes a name && differs r).map
        fun r => (path, r.2) := by
  have hformat : formatFile a o fs name = (formatText a o name (Text.unifyBreaks raw)).toOption.map
      fun formatted => (Text.unifyBreaks raw, formatted.text) := by
    rw [formatFile, hf]
    rfl
  unfold treatFile
  rw [if_pos h.named, hf, hformat]
  dsimp only
  rw [treat_written]
  cases formatText a o name (Text.unifyBreaks raw) with
  | error e => rfl
  | ok formatted =>
    simp only [Except.toOption, Option.bind_some, Option.map_some, Option.filter_some, differs]
    split <;> rfl

/-! ## Whole runs -/

/-- Nothing is written where texts are only checked. -/
theorem treatFile_checked (hcheck : a.check = true) : (treatFile a o fs name).2 = none := by
  have htext (text : String) : (treat a o name text).2 = none := by
    rw [treat_written, writes, hcheck]
    cases formatText a o name text <;> simp [Except.toOption]
  unfold treatFile
  split
  · split
    · rfl
    · exact congrArg (Option.map _) (htext _)
  · rfl

/-- A run that only checks writes nothing, whatever ends it. -/
theorem run_runFiles_checked (hcheck : a.check = true) (names : List String)
    (hp : p.fault? = none) : ((runFiles Files.storage a o names p).run fs).2 = fs := by
  induction names generalizing p with
  | nil => rfl
  | cons name names ih =>
    rw [run_runFiles_cons names hp, treatFile_checked hcheck]
    split
    · rfl
    · next hfault =>
      refine ih ?_
      rw [Progress.andThen, hp, Option.none_or]
      simpa using hfault

/-- A fault that is not reported ends the run: the files behind are not even read. -/
theorem run_runFiles_append {names : List String} (more : List String) (hp : p.fault? = none)
    (h : ((runFiles Files.storage a o names p).run fs).1.fault?.isSome) :
    (runFiles Files.storage a o (names ++ more) p).run fs =
      (runFiles Files.storage a o names p).run fs := by
  induction names generalizing fs p with
  | nil =>
    change p.fault?.isSome at h
    rw [hp] at h
    cases h
  | cons name names ih =>
    rw [run_runFiles_cons names hp] at h
    rw [List.cons_append, run_runFiles_cons _ hp, run_runFiles_cons names hp]
    split
    · rfl
    · next hfault =>
      rw [if_neg hfault] at h
      refine ih ?_ h
      rw [Progress.andThen, hp, Option.none_or]
      simpa using hfault

/-- A job over different files that goes on after each of them. -/
structure Job.IsBatch (j : Job) (fs : Files) : Prop where
  source : j.arguments.source? = none
  files : j.arguments.files ≠ []
  distinct : j.arguments.files.Pairwise fs.Apart
  goesOn : ∀ n ∈ j.arguments.files, GoesOn j.arguments j.options fs n

variable {j : Job} {input : String}

theorem runInMemory_eq (hsource : j.arguments.source? = none) (hfiles : j.arguments.files ≠ []) :
    j.runInMemory input fs =
      (runFiles Files.storage j.arguments j.options j.arguments.files {}).run fs := by
  unfold Job.runInMemory Job.run runArguments
  rw [hsource]
  cases hnames : j.arguments.files with
  | nil => exact absurd hnames hfiles
  | cons name names => rfl

/-- A run over files that only checks leaves them all as they are. -/
theorem runInMemory_checked (hsource : j.arguments.source? = none)
    (hfiles : j.arguments.files ≠ []) (hcheck : j.arguments.check = true) :
    (j.runInMemory input fs).2 = fs := by
  rw [runInMemory_eq hsource hfiles]
  exact run_runFiles_checked hcheck _ rfl

/-- A run treats each of its files as it would treat it by itself. -/
theorem runInMemory_batch (h : j.IsBatch fs) :
    j.runInMemory input fs = treatAll j.arguments j.options fs j.arguments.files := by
  rw [runInMemory_eq h.source h.files,
    run_runFiles h.distinct (fun n hn => (h.goesOn n hn).progress.1) rfl, Progress.empty_andThen]

/-- The exit status says whether a file could not be formatted, or else whether one differs. -/
theorem status_batch (h : j.IsBatch fs) :
    (j.runInMemory input fs).1.fault? = none ∧
      (j.runInMemory input fs).1.status j.arguments.check =
        if j.arguments.files.any fun n => (formatFile j.arguments j.options fs n).isNone then 2
        else if j.arguments.check &&
          j.arguments.files.any fun n => (formatFile j.arguments j.options fs n).any differs then 1
        else 0 := by
  have hprogress (n : String) (hn : n ∈ j.arguments.files) := (h.goesOn n hn).progress
  rw [runInMemory_batch h]
  unfold treatAll Progress.status
  constructor
  · refine Progress.fault?_all ?_
    simp only [List.forall_mem_map]
    exact fun n hn => (hprogress n hn).1
  · have hfailed := List.map_congr_left fun n hn => (hprogress n hn).2.1
    have hchanged := List.map_congr_left fun n hn => (hprogress n hn).2.2
    rw [Progress.failed_all, Progress.changed_all, List.map_map, List.map_map,
      Function.comp_def, Function.comp_def, hfailed, hchanged, List.any_map, List.any_map]
    rfl

/-- What is printed and reported comes in the order of the files. -/
theorem output_batch (h : j.IsBatch fs) :
    (j.runInMemory input fs).1.output = String.join
        (j.arguments.files.map fun n => (treatFile j.arguments j.options fs n).1.output) ∧
      (j.runInMemory input fs).1.errors = String.join
        (j.arguments.files.map fun n => (treatFile j.arguments j.options fs n).1.errors) := by
  rw [runInMemory_batch h]
  unfold treatAll
  rw [Progress.output_all, Progress.errors_all, List.map_map, List.map_map]
  exact ⟨rfl, rfl⟩

/-- A run that writes leaves in each file its formatted form if it has one that differs, or else
what was there before. -/
theorem find_batch (h : j.IsBatch fs) (hwrite : j.arguments.write = true)
    (hcheck : j.arguments.check = false) (hname : name ∈ j.arguments.files)
    (hfile : name ≠ inputName ∧ name ≠ stringName) {path raw : String}
    (hf : fs.find name = .ok (path, raw)) : (j.runInMemory input fs).2.find name = .ok (path,
      (((formatFile j.arguments j.options fs name).filter differs).map Prod.snd).getD raw) := by
  have hwrites : writes j.arguments name = true := by
    simp [writes, hwrite, hcheck, hfile]
  rw [runInMemory_batch h, find_treatAll h.distinct hname hf, (h.goesOn name hname).written hf]
  simp only [hwrites, Bool.true_and, Option.map_map]
  rfl

/-- Files that are not named are left alone. -/
theorem find_batch_of_apart (h : j.IsBatch fs) (hother : ∀ m ∈ j.arguments.files, fs.Apart m name) :
    (j.runInMemory input fs).2.find name = fs.find name := by
  rw [runInMemory_batch h, find_treatAll_of_apart hother]

end CommandLine

end MonkeyFormat
