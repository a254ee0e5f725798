import MonkeyFormat.Text.Quoted

set_option autoImplicit false

/-! # Files

What a run reads and writes. A `Storage` gives access to named texts in some monad; the one over a
list of files in memory resolves paths as a file system does, from the folder that holds the list.
Outside that folder there are folders on the way to it, and nothing else is known. -/

namespace MonkeyFormat

/-- The text with every line break, `\r\n` and `\r` too, as `\n`. -/
def Text.unifyBreaks (s : String) : String :=
  String.ofList (go s.toList)
where
  /-- The same on characters. -/
  go : List Char → List Char
    | '\r' :: '\n' :: cs => '\n' :: go cs
    | '\r' :: cs => '\n' :: go cs
    | c :: cs => c :: go cs
    | [] => []

namespace CommandLine

/-- Why a file cannot be read or written. -/
structure FileFault where
  number : Nat
  reason : String
deriving DecidableEq

namespace FileFault

/-- There is no such file. -/
def missing : FileFault := ⟨2, "No such file or directory"⟩

/-- The file may not be touched. -/
def forbidden : FileFault := ⟨13, "Permission denied"⟩

/-- A file stands where the path needs a folder. -/
def notFolder : FileFault := ⟨20, "Not a directory"⟩

/-- The path leads to a folder. -/
def folder : FileFault := ⟨21, "Is a directory"⟩

/-- The path or a part of it has too many bytes. -/
def tooLong : FileFault := ⟨36, "File name too long"⟩

/-- The wording of a fault of the named file. -/
def message (f : FileFault) (name : String) : String :=
  "[Errno " ++ toString f.number ++ "] " ++ f.reason ++ ": " ++ Text.quoted name

end FileFault

/-- Access to named texts. -/
structure Storage (m : Type → Type) where
  read : String → m (Except FileFault String)
  write : String → String → m (Except FileFault Unit)

/-- Files in memory: a text for each path, in order. -/
abbrev Files := List (String × String)

namespace Files

/-- The parts of a path. -/
def parts (path : String) : List String := path.splitOn "/"

/-- Does a part of a path stay in the folder? -/
def isIdle (part : String) : Bool := part = "" || part = "."

/-- The names that lead from the top to a file. -/
def address (path : String) : List String := (parts path).filter fun p => !isIdle p

/-- Does a part of a path name no file or folder? -/
def isStep (part : String) : Bool := isIdle part || part = ".."

/-- Is a part of a path too long for a name? -/
def isLong (part : String) : Bool := decide (255 < part.utf8ByteSize)

/-- Why the rest of a path that leaves the top leads to no file. -/
def outside (rest : List String) : FileFault :=
  match rest.dropWhile isStep with
  | [] => .folder
  | part :: _ => if isLong part then .tooLong else .missing

/-- Follows the rest of a path from a folder. -/
def follow (fs : Files) : List String → List String → Except FileFault (String × String)
  | _, [] => throw .folder
  | here, part :: rest =>
    if isIdle part then follow fs here rest
    else if part = ".." then
      if here.isEmpty then throw (outside rest)
      else follow fs here.dropLast rest
    else if isLong part then throw .tooLong
    else
      let there := here ++ [part]
      match fs.find? fun f => address f.1 = there with
      | some f => if rest.isEmpty then pure f else throw .notFolder
      | none =>
        if fs.any fun f => there.isPrefixOf (address f.1) then follow fs there rest
        else throw .missing

/-- The file at a path. -/
def find (fs : Files) (path : String) : Except FileFault (String × String) :=
  if path = "" then throw .missing
  else if 4096 ≤ path.utf8ByteSize then throw .tooLong
  else if path.startsWith "/" then throw (outside (parts path))
  else follow fs [] (parts path)

/-- The files with another text in one of them. -/
def replace (fs : Files) (path text : String) : Files :=
  fs.map fun f => if f.1 = path then (path, text) else f

/-- Access to files in memory. -/
def storage : Storage (StateM Files) where
  read path := do
    let fs ← get
    pure (Prod.snd <$> fs.find path)
  write path text := do
    let fs ← get
    match fs.find path with
    | .ok (stored, _) => set (fs.replace stored text); pure (pure ())
    | .error e => pure (throw e)

end Files

end CommandLine

end MonkeyFormat
