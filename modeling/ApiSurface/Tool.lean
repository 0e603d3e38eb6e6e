import ApiSurface.Json.Writer
import ApiSurface.Path
import ApiSurface.Report.View
import ApiSurface.Snapshot.File

/-! The tools: named operations with documents as arguments and results. -/

namespace ApiSurface

/-- A tool as it is announced, with the form of its arguments. -/
structure Tool where
  name : String
  description : String
  schema : Json

namespace Tool

def property (type description : String) : Json :=
  .obj [("type", .str type), ("description", .str description)]

def snapshotProperty : String × Json :=
  ("snapshot", property "string" "Path to the program snapshot (JSON)")

def entryProperty : String × Json :=
  ("entry", property "string" "Entry file name as it appears in the snapshot")

/-- The form of arguments with the given properties, some of which are required. -/
def form (properties : List (String × Json)) (required : List String) : Json :=
  .obj [("type", .str "object"), ("properties", .obj properties),
    ("required", .arr (required.map .str))]

def exportsName : String := "declbundle_exports"

def referencesName : String := "declbundle_references"

def globalsName : String := "declbundle_globals"

/-- The number of levels shown when none is asked for. -/
def defaultDepth : Int := 5

def all : List Tool :=
  [{ name := exportsName
     description := "List the exports a bundled declaration file needs, in source order, " ++
       "with their reference trees and external pass-through modules."
     schema := form
       [snapshotProperty, entryProperty,
        ("max_depth", .obj [("type", .str "integer"),
          ("description", .str "Maximum reference depth (default: 5)"),
          ("default", .int defaultDepth)])]
       ["snapshot", "entry"] },
   { name := referencesName
     description := "Show the type references of one export, followed transitively " ++
       "through the declarations they point to."
     schema := form
       [snapshotProperty, entryProperty, ("name", property "string" "Export name")]
       ["snapshot", "entry", "name"] },
   { name := globalsName
     description := "List global-scope symbol names, used to avoid name collisions."
     schema := form [snapshotProperty] ["snapshot"] }]

/-! ### Arguments -/

def argument (arguments : List (String × Json)) (name : String) : Except Fault Json :=
  match Json.member? arguments name with
  | some j => .ok j
  | none => .error (.defect .missingArgument)

/-! ### Results -/

/-- Where snapshots are looked for. -/
structure Place where
  directory : String
  look : String → Snapshot.Content

/-- Why a tool gives an error as its result. -/
inductive Refusal where
  | noSnapshot (path : String)
  | fault (why : Fault)

/-- The program of the snapshot that an argument names. -/
def program (place : Place) (half : Nat → Char) : Json → Except Refusal Program
  | .str s =>
    let path := Path.within place.directory s
    match place.look path with
    | .missing => .error (.noSnapshot path)
    | .nameTooLong => .error (.fault (.defect .nameTooLong))
    | content => (Snapshot.read path content half).mapError .fault
  | _ => .error (.fault (.defect .wrongShape))

/-- An error as a result. -/
def errorJson (message : String) : Json := .obj [("error", .str message)]

/-- All exports. -/
def exportsResult (p : Program) (s : Surface) (depth : Json) : Except Fault Json := do
  p.surfaceJson (← limitFor depth (s.exports.values.flatMap Export.references)) s

/-- One export by its name. -/
def referencesResult (p : Program) (s : Surface) (name : Json) : Except Fault Json :=
  match s.findExport? p name with
  | some (symbol, e) => p.exportJson none symbol e
  | none => .ok (errorJson ("No export named '" ++ name.shown ++ "'"))

def globalsResult (p : Program) : Except Fault Json := do
  return .obj [("globals", ← p.namesJson p.globalScope)]

/-- The result of a tool on its arguments. -/
def result (place : Place) (name : String) (arguments : List (String × Json))
    (half : Nat → Char) : Except Refusal Json :=
  if name = exportsName then do
    let snapshot ← (argument arguments "snapshot").mapError .fault
    let entry ← (argument arguments "entry").mapError .fault
    let depth := (Json.member? arguments "max_depth").getD (.int defaultDepth)
    let p ← program place half snapshot
    ((p.surfaceOf entry).bind fun s => exportsResult p s depth).mapError .fault
  else if name = referencesName then do
    let snapshot ← (argument arguments "snapshot").mapError .fault
    let entry ← (argument arguments "entry").mapError .fault
    let wanted ← (argument arguments "name").mapError .fault
    let p ← program place half snapshot
    ((p.surfaceOf entry).bind fun s => referencesResult p s wanted).mapError .fault
  else if name = globalsName then do
    let snapshot ← (argument arguments "snapshot").mapError .fault
    let p ← program place half snapshot
    (globalsResult p).mapError .fault
  else return errorJson ("Unknown tool: " ++ name)

/-- The text that a tool answers with: its result over several lines, or the wording of a
fault of the input on one line. Other faults are passed on. -/
def call (place : Place) (name : String) (arguments : List (String × Json))
    (half : Nat → Char := Json.privateHalf) : Except Fault String :=
  match result place name arguments half with
  | .ok j => .ok j.toLines
  | .error (.noSnapshot path) =>
    .ok (errorJson ("No program snapshot found at " ++ path)).toLine
  | .error (.fault why) =>
    match why.report? with
    | some message => .ok (errorJson message).toLine
    | none => .error why

end Tool

end ApiSurface
