import WireSchema.Finding.SchemaError
import WireSchema.Text.Split

/-! # Reading files

A directory holds files under their names. A path is a row of names; `.` stays where it is, and what
lies above the directory is not known but for being a directory.
-/

namespace WireSchema

/-- The files of a directory with their bytes. -/
structure Directory where
  files : List (String × ByteArray)

namespace Directory

/-- Where the first names of a path lead. -/
inductive Place
  | inside
  | above
  | file (content : ByteArray)

/-- The text that the bytes of a file encode. -/
def decode (content : ByteArray) : Except FileFault String :=
  match String.fromUTF8? content with
  | some text => .ok text
  | none => .error .notText

/-- The file with the name. -/
def file? (d : Directory) (name : String) : Option ByteArray :=
  (d.files.find? (·.1 == name)).map (·.2)

/-- One name further on. -/
def enter (d : Directory) (place : Place) (name : String) : Except FileFault Place :=
  match place with
  | .file _ => .error .notDirectory
  | .inside =>
    if name.isEmpty || name == "." then .ok .inside
    else if name == ".." then .ok .above
    else match d.file? name with
      | some content => .ok (.file content)
      | none => .error .notFound
  | .above =>
    if name.isEmpty || name == "." || name == ".." then .ok .above else .error .notFound

/-- The text of the file that a path leads to. -/
def read (d : Directory) (path : String) : Except FileFault String :=
  if path.isEmpty then .error .notFound
  else match d.file? path with
    | some content => decode content
    | none =>
      let start : Place := if path.toList.head? == some '/' then .above else .inside
      match (Text.pieceStrings '/' path).foldlM d.enter start with
      | .error fault => .error fault
      | .ok (.file content) => decode content
      | .ok _ => .error .isDirectory

end Directory

end WireSchema
