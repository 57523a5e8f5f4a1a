import FlatGraph.Arguments

/-!
# The program

Reads the files that the arguments name, replies to the arguments, and ends with the code of the
reply.
-/

open FlatGraph

/-- What a file holds, if it can be read. -/
def readFile? (path : String) : IO (Option Bytes) := do
  try pure (some (← IO.FS.readBinFile path).toList) catch _ => pure none

/-- The files that the arguments name, as far as they can be read. -/
def readFiles (args : List String) : IO Files := do
  match Invocation.ofArguments args with
  | .ok i =>
    let contents ← i.paths.mapM fun path => do pure (path, ← readFile? path)
    pure fun path => (contents.lookup path).join
  | .error _ => pure fun _ => none

def main (args : List String) : IO UInt32 := do
  let reply := Reply.ofArguments (← readFiles args) args
  IO.print reply.output
  IO.eprint reply.complaint
  pure reply.code.toUInt32
