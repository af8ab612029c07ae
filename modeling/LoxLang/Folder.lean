/-!
# Folders

A folder of files with empty folders in it, and the files that paths lead to from there.
-/

namespace LoxLang

structure Folder where
  files : List (String × List UInt8)
  subfolders : List String

namespace Folder

inductive ReadError where
  | missing
  | isFolder
  | notFolder
  | tooLong
  | hasNul
deriving DecidableEq

def ReadError.message : ReadError → String
  | missing => "No such file or directory (os error 2)"
  | isFolder => "Is a directory (os error 21)"
  | notFolder => "Not a directory (os error 20)"
  | tooLong => "File name too long (os error 36)"
  | hasNul => "file name contained an unexpected NUL byte"

/-- Where a path has led so far. -/
inductive Spot where
  | here
  | subfolder
  | outside
  | file (content : List UInt8)

/-- Names have at most this many bytes. -/
def maxName : Nat := 255

/-- Paths have fewer bytes than this. -/
def maxPath : Nat := 4096

/-- What a name stands for in the folder. -/
def find (folder : Folder) (name : String) : Except ReadError Spot :=
  if folder.subfolders.contains name then .ok .subfolder
  else
    match folder.files.lookup name with
    | some content => .ok (.file content)
    | none => .error .missing

/-- One step along a path. An empty name is what a repeated or final slash leaves. -/
def enter (folder : Folder) : Spot → String → Except ReadError Spot
  | .file _, _ => .error .notFolder
  | spot, "" => .ok spot
  | spot, "." => .ok spot
  | .here, ".." => .ok .outside
  | .subfolder, ".." => .ok .here
  | .outside, ".." => .ok .outside
  | spot, name =>
    if maxName < name.utf8ByteSize then .error .tooLong
    else if spot matches .here then folder.find name
    else .error .missing

def read (folder : Folder) (path : String) : Except ReadError (List UInt8) := do
  if path.isEmpty then throw .missing
  if path.toList.contains '\x00' then throw .hasNul
  if maxPath ≤ path.utf8ByteSize then throw .tooLong
  let start := if path.startsWith "/" then Spot.outside else Spot.here
  match ← (path.splitOn "/").foldlM folder.enter start with
  | .file content => return content
  | _ => throw .isFolder

end Folder

end LoxLang
