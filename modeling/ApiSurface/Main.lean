import ApiSurface.Command

/-! The program: a command line that looks at the files it is given. -/

open ApiSurface

/-- What is found at a path. -/
def lookAt (path : String) : IO Snapshot.Content := do
  try
    let bytes ← IO.FS.readBinFile path
    return .bytes bytes.toList
  catch _ => return .missing

def main (words : List String) : IO UInt32 := do
  match Command.parse? words with
  | none => return Command.usageStatus.toUInt32
  | some command =>
    match ← lookAt command.snapshot with
    | .bytes bytes =>
      match command.run (.bytes bytes) with
      | .ok output =>
        (← IO.getStderr).putStr output.err
        IO.print output.out
        return output.status.toUInt32
      | .error _ => return 1
    | _ => return Command.usageStatus.toUInt32
