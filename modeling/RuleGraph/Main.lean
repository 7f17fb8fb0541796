import RuleGraph.CommandLine

/-!
# The program

Reads the files that a run needs, prints and writes what the run says, and sets the exit code.
-/

namespace RuleGraph

namespace CommandLine

def readText (path : String) : IO (Except String String) := do
  try
    let bytes ← IO.FS.readBinFile path
    match String.fromUTF8? bytes with
    | some text => return .ok text
    | none => return .error "stream did not contain valid UTF-8"
  catch
    | .noFileOrDirectory _ _ _ => return .error "No such file or directory (os error 2)"
    | .permissionDenied _ _ _ => return .error "Permission denied (os error 13)"
    | e => return .error e.toString

/-- The keys of a run, from a random start. -/
def keysFrom (start : Nat) (n : Nat) : Key :=
  Key.ofNat ((start + n) * UInt64.size + (start + n) * 0x9E3779B97F4A7C15)

def fail (reason : String) : IO UInt32 := do
  IO.eprint (failureText reason)
  return 1

def carryOut (options : Options) : IO UInt32 := do
  let document ← readText options.documentPath
  let config ← match options.configPath with
    | some path => readText path
    | none => pure (.ok "")
  let read := fun path =>
    if path = options.documentPath then document else config
  let start ← IO.rand 0 (UInt64.size / 4)
  let outcome := run read (keysFrom start) options
  IO.print outcome.output
  match outcome.written with
  | some (path, graph) =>
    try
      IO.FS.writeFile path graph.pretty
    catch e =>
      return ← fail ("Failed to write '" ++ path ++ "': " ++ e.toString)
    IO.print (writtenText path)
  | none => pure ()
  match outcome.rest with
  | .error reason => fail reason
  | .ok text =>
    IO.print text
    return 0

end CommandLine

end RuleGraph

open RuleGraph.CommandLine in
def main (arguments : List String) : IO UInt32 := do
  match parseArguments arguments with
  | .run options => carryOut options
  | .help =>
    IO.print usage
    return 0
  | .version =>
    IO.print "rulegraph\n"
    return 0
  | .misuse reason =>
    IO.eprint ("error: " ++ reason ++ "\n\n" ++ usage)
    return 2
