import Reckon.Text.Utf8

/-!
# Folders

A folder of files in memory, and what comes of reading a path in it.
-/

namespace Reckon

inductive ReadFailure where
  | notFound
  | notDirectory
  | isDirectory
  | notUtf8
  | other (message : String)
deriving DecidableEq, Repr

def ReadFailure.message : ReadFailure → String
  | .notFound => "No such file or directory (os error 2)"
  | .notDirectory => "Not a directory (os error 20)"
  | .isDirectory => "Is a directory (os error 21)"
  | .notUtf8 => "stream did not contain valid UTF-8"
  | .other message => message

inductive Entry where
  | file (bytes : List UInt8)
  | directory
deriving Repr

/-- The entries of a folder and of the folders in it, each with the names that lead to it. -/
structure Folder where
  entries : List (List String × Entry)
deriving Repr

namespace Folder

def names (path : String) : List String :=
  path.splitOn "/"

def ofFiles (files : List (String × Entry)) : Folder :=
  ⟨files.map fun (path, entry) => (names path, entry)⟩

/-- What is at the end of the way. A folder is there if something is in it. -/
def lookup (f : Folder) (way : List String) : Option Entry :=
  if way.isEmpty then some .directory
  else
    match f.entries.find? fun (place, _) => place = way with
    | some (_, entry) => some entry
    | none => if f.entries.any fun (place, _) => way.isPrefixOf place then some .directory else none

/-- Goes on from a place by the names of a path. Outside the folder there are only directories above it. -/
def walk (f : Folder) (way : List String) : List String → Except ReadFailure Entry
  | [] =>
      match f.lookup way with
      | some entry => .ok entry
      | none => .error .notFound
  | name :: path =>
      match f.lookup way with
      | none => .error .notFound
      | some (.file _) => .error .notDirectory
      | some .directory =>
          if name = "" ∨ name = "." then f.walk way path
          else if name = ".." then
            if way.isEmpty then
              if path.all fun name => name = "" ∨ name = "." ∨ name = ".." then .ok .directory
              else .error .notFound
            else f.walk way.dropLast path
          else f.walk (way ++ [name]) path

def read (f : Folder) (path : String) : Except ReadFailure String :=
  if path = "" then .error .notFound
  else if path.startsWith "/" then
    if (names path).all (· = "") then .error .isDirectory else .error .notFound
  else
    match f.walk [] (names path) with
    | .error failure => .error failure
    | .ok .directory => .error .isDirectory
    | .ok (.file bytes) =>
        match Text.decode? bytes with
        | some text => .ok text
        | none => .error .notUtf8

end Folder
end Reckon
