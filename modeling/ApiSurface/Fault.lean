import ApiSurface.Json.Reader
import ApiSurface.Node
import ApiSurface.Text.Utf8

/-! Everything that can go wrong, by cause, and the wording of it. -/

namespace ApiSurface

namespace Text

def Utf8Reason.message : Utf8Reason → String
  | .startByte => "invalid start byte"
  | .continuationByte => "invalid continuation byte"
  | .endOfData => "unexpected end of data"

def Utf8Fault.message (f : Utf8Fault) : String :=
  let place :=
    if f.length = 1 then
      "byte 0x" ++ String.ofList (hex 2 f.lead.toNat) ++ " in position " ++ toString f.position
    else
      "bytes in position " ++ toString f.position ++ "-" ++ toString (f.position + f.length - 1)
  "'utf-8' codec can't decode " ++ place ++ ": " ++ f.reason.message

end Text

/-- Why a file cannot be read as text. -/
inductive ReadFault where
  | missing
  | directory
  | nameTooLong
  | encoding (fault : Text.Utf8Fault)

def ReadFault.message (path : String) : ReadFault → String
  | .missing => "[Errno 2] No such file or directory: " ++ Text.quoted path
  | .directory => "[Errno 21] Is a directory: " ++ Text.quoted path
  | .nameTooLong => "[Errno 36] File name too long: " ++ Text.quoted path
  | .encoding fault => fault.message

/-- The kinds of entry that need certain members. -/
inductive EntryKind where
  | symbol | file | resolution

def EntryKind.label : EntryKind → String
  | .symbol => "Symbol"
  | .file => "File"
  | .resolution => "Resolution"

/-- Why a snapshot describes no program. -/
inductive SnapshotFault where
  | unreadable (path : String) (why : ReadFault)
  | notJson (path : String) (why : Json.Malformed)
  | notObject (path : String)
  | missingMember (entry : EntryKind) (member : String)
  | duplicateSymbol (id : Json)
  | unknownSymbol (id : Json)
  | unknownFlag (flag : String) (symbol : Json)
  | unknownDeclaration (symbol id : Json)
  | missingKind (file : Name)
  | unknownKind (kind : Json) (file : Name)
  | noOwner (file : Name)

def SnapshotFault.message : SnapshotFault → String
  | .unreadable path why => "Cannot read " ++ path ++ ": " ++ why.message path
  | .notJson path why => "Invalid JSON in " ++ path ++ ": " ++ why.message
  | .notObject path => "Snapshot " ++ path ++ " must be a JSON object"
  | .missingMember entry member =>
    entry.label ++ " entry is missing " ++ Text.quoted member
  | .duplicateSymbol id => "Duplicate symbol id '" ++ id.shown ++ "'"
  | .unknownSymbol id => "Unknown symbol id '" ++ id.shown ++ "'"
  | .unknownFlag flag symbol => "Unknown flag '" ++ flag ++ "' on symbol '" ++ symbol.shown ++ "'"
  | .unknownDeclaration symbol id =>
    "Symbol '" ++ symbol.shown ++ "' declares unknown node '" ++ id.shown ++ "'"
  | .missingKind file => "Node in " ++ file.shown ++ " has no kind"
  | .unknownKind kind file => "Unknown node kind '" ++ kind.shown ++ "' in " ++ file.shown
  | .noOwner file => "No module owns the wildcard re-export in " ++ file.shown

/-- Why there is nothing to collect for an entry file. -/
inductive EntryFault where
  | notInProgram (name : Name)
  | noModule (file : Name)

def EntryFault.message : EntryFault → String
  | .notInProgram name => "Entry file '" ++ name.shown ++ "' is not part of the program"
  | .noModule file => "No module symbol for entry file " ++ file.shown

/-- Why a wildcard re-export leads nowhere. -/
inductive WildcardFault where
  | noSpecifier (file : Name) (start : Json)
  | fileNotFound (file : Name)
  | unresolved (specifier : String)
  | fileNotModule (file : Name)
  | symbolNotModule (specifier : String)

def WildcardFault.message : WildcardFault → String
  | .noSpecifier file start =>
    "Could not get module specifier from export declaration at " ++ file.shown ++ ":" ++
      start.shown
  | .fileNotFound file => "Could not locate file: " ++ file.shown
  | .unresolved specifier => "Could not resolve module: " ++ specifier
  | .fileNotModule file => "File is not a module: " ++ file.shown
  | .symbolNotModule specifier => "Could not resolve symbol of module: " ++ specifier

/-- A use of a program that it is not made for. -/
inductive Misuse where
  | detached (kind : NodeKind) (start : Json)
  | parentRequired

def Misuse.message : Misuse → String
  | .detached kind start =>
    kind.label ++ " node at " ++ start.shown ++ " is not attached to a file"
  | .parentRequired => "a parent node is required for non-file modules"

/-- A value of a kind that its place does not allow. These have no wording. -/
inductive Defect where
  /-- A value that is no list, no object or no key where one is needed, or values without
  an order where they are to be sorted. -/
  | wrongShape
  /-- An export table that is no object. -/
  | tableNotObject
  /-- A flag that is no string. -/
  | flagNotText
  /-- A module specifier that is no string. -/
  | specifierNotText
  /-- Something that is no symbol, no node or no file where one is looked at. -/
  | wrongEntity
  /-- An export to a file that is not bound. -/
  | notBound
  /-- An argument that a tool needs and did not get. -/
  | missingArgument
  /-- A position beyond the end of a list. -/
  | outOfRange
  /-- A closing tag without an opening one. -/
  | unbalancedMarkup
  /-- A document that is nested too deep. -/
  | tooDeep
  /-- A path with a name that is too long to be looked up. -/
  | nameTooLong

/-- The wording for an integer of a document that has too many digits to be read. -/
def digitsMessage (digits : Nat) : String :=
  "Exceeds the limit (" ++ toString Json.mostDigits ++
    " digits) for integer string conversion: value has " ++ toString digits ++
    " digits; use sys.set_int_max_str_digits() to increase the limit"

inductive Fault where
  | snapshot (why : SnapshotFault)
  | entry (why : EntryFault)
  | wildcard (why : WildcardFault)
  | misuse (why : Misuse)
  /-- An integer of a document with so many digits that it is not read. -/
  | digits (count : Nat)
  | defect (why : Defect)

/-- A value as a name, where only a name will do. -/
def nameOf (j : Json) : Except Fault Name :=
  match j.name? with
  | some n => .ok n
  | none => .error (.defect .wrongShape)

namespace Fault

/-- The wording of a fault that has one. -/
def message? : Fault → Option String
  | .snapshot why => some why.message
  | .entry why => some why.message
  | .wildcard why => some why.message
  | .misuse why => some why.message
  | .digits count => some (digitsMessage count)
  | .defect _ => none

/-- The faults of the input that are reported to the user: those of a snapshot, of an
entry file and of a wildcard re-export. -/
def report? : Fault → Option String
  | .snapshot why => some why.message
  | .entry why => some why.message
  | .wildcard why => some why.message
  | .misuse _ => none
  | .digits _ => none
  | .defect _ => none

end Fault

end ApiSurface
