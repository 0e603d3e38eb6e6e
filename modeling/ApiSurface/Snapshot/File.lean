import ApiSurface.Snapshot.Load

/-! Snapshots in files. -/

namespace ApiSurface.Snapshot

/-- What is found at a path. -/
inductive Content where
  | missing
  | directory
  | nameTooLong
  | bytes (bytes : List UInt8)

/-- The text of a file, with its line ends folded. -/
def text (path : String) : Content → Except Fault (List Char)
  | .missing => .error (.snapshot (.unreadable path .missing))
  | .directory => .error (.snapshot (.unreadable path .directory))
  | .nameTooLong => .error (.snapshot (.unreadable path .nameTooLong))
  | .bytes bytes =>
    match Text.utf8Decode bytes with
    | .ok cs => .ok (Text.foldLineEnds cs)
    | .error fault => .error (.snapshot (.unreadable path (.encoding fault)))

/-- The program that a file describes. What stands for half of a pair in a text is up to the
reader. -/
def read (path : String) (content : Content) (half : Nat → Char := Json.privateHalf) :
    Except Fault Program := do
  match Json.parse (← text path content) half with
  | .error (.malformed why) => throw (.snapshot (.notJson path why))
  | .error (.digits count) => throw (.digits count)
  | .error .tooDeep => throw (.defect .tooDeep)
  | .ok (.obj members) => load (.obj members)
  | .ok _ => throw (.snapshot (.notObject path))

end ApiSurface.Snapshot
