import Reckon.Source.LineTable

/-!
# Files

The sources that have been read, each under its name. A name that is used again keeps its id and stands for the new
source from then on. The id of a name is found in an index beside the files. Lines and locations are looked up in the
table a file was given, or in the table of its text if it was given none.
-/

namespace Reckon

structure File where
  name : String
  source : String
  lines? : Option LineTable
deriving Repr, Inhabited

def File.lines (f : File) : LineTable :=
  f.lines?.getD (.ofText f.source.toList)

structure FileId where
  index : Nat
deriving DecidableEq, Repr, Inhabited

inductive FileError where
  | fileMissing
  | indexTooLarge (given max : Nat)
  | lineTooLarge (given max : Nat)
deriving DecidableEq, Repr

def FileError.message : FileError → String
  | .fileMissing => "file missing"
  | .indexTooLarge given max => "invalid index " ++ toString given ++ ", maximum index is " ++ toString max
  | .lineTooLarge given max => "invalid line " ++ toString given ++ ", maximum line is " ++ toString max

/-- A line and a column, both counted from one. -/
structure Location where
  line : Nat
  column : Nat
deriving DecidableEq, Repr

structure Files where
  /-- The file with an id stands at its index. -/
  files : List File
  /-- The names in use, each with its id, the latest one first. -/
  ids : List (String × FileId)
deriving Repr, Inhabited

namespace Files

def empty : Files := ⟨[], []⟩

def firstId : FileId := ⟨0⟩

/-- Enters a source under a name, in place of the one that had this name. It has no table of its own yet. -/
def upsert (fs : Files) (name source : String) : FileId × Files :=
  let file : File := ⟨name, source, none⟩
  match fs.ids.lookup name with
  | some id => (id, { fs with files := fs.files.set id.index file })
  | none =>
      let id : FileId := ⟨fs.files.length⟩
      (id, ⟨fs.files ++ [file], (name, id) :: fs.ids⟩)

def get (fs : Files) (id : FileId) : Except FileError File :=
  match fs.files[id.index]? with
  | some file => .ok file
  | none => .error .fileMissing

def setLines (fs : Files) (id : FileId) (lines : LineTable) : Except FileError Files := do
  let file ← fs.get id
  .ok { fs with files := fs.files.set id.index { file with lines? := some lines } }

/-- Enters a source under a name together with the table of its lines. -/
def enter (fs : Files) (name source : String) (lines : LineTable) : Except FileError (FileId × Files) := do
  let (id, entered) := fs.upsert name source
  let files ← entered.setLines id lines
  .ok (id, files)

def name (fs : Files) (id : FileId) : Except FileError String := do
  let file ← fs.get id
  .ok file.name

def source (fs : Files) (id : FileId) : Except FileError String := do
  let file ← fs.get id
  .ok file.source

def lineIndex (fs : Files) (id : FileId) (offset : Nat) : Except FileError Nat := do
  let file ← fs.get id
  match file.lines.lineAt offset with
  | .ok line => .ok line
  | .error _ => .error (.indexTooLarge offset (Text.byteLength file.source.toList))

def lineRange (fs : Files) (id : FileId) (line : Nat) : Except FileError Span := do
  let file ← fs.get id
  match file.lines.range line with
  | .ok range => .ok range
  | .error _ => .error (.lineTooLarge line file.lines.size)

/-- One more than the number of characters that end after `start` and not after `stop`. -/
def columnOf (cs : List Char) (start stop : Nat) : Nat :=
  (Text.ends 0 cs).countP (fun place => start < place && place ≤ stop) + 1

/-- Where an offset is. On its line, the characters that end at or before it count. -/
def location (fs : Files) (id : FileId) (offset : Nat) : Except FileError Location := do
  let line ← fs.lineIndex id offset
  let source ← fs.source id
  let range ← fs.lineRange id line
  .ok ⟨line + 1, columnOf source.toList range.start (min offset range.stop)⟩

end Files
end Reckon
