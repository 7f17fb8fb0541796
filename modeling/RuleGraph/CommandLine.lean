import RuleGraph.Decimal.Binary64
import RuleGraph.Document.Policy
import RuleGraph.Expression.Display
import RuleGraph.Graph.Json
import RuleGraph.Graph.Rebuild
import RuleGraph.Layout
import RuleGraph.Registry.Standard

/-!
# Command line

Checks a document, shows its drawing as a table, and rebuilds the document from the drawing. What a
run prints and writes is computed here from the texts of the files; reading, writing and printing
are done elsewhere.
-/

namespace RuleGraph

def padRight (width : Nat) (s : String) : String :=
  s ++ String.ofList (List.replicate (width - s.length) ' ')

def padLeft (width : Nat) (s : String) : String :=
  String.ofList (List.replicate (width - s.length) ' ') ++ s

namespace CommandLine

/-- The policies that can be asked for. -/
inductive PolicyChoice where
  | studyRule
  | knownOperations
  | strict
  deriving DecidableEq

def PolicyChoice.ofName? : String → Option PolicyChoice
  | "study-rule" => some .studyRule
  | "known-ops" => some .knownOperations
  | "strict" => some .strict
  | _ => none

def PolicyChoice.policy (registry : Registry) : PolicyChoice → Policy
  | studyRule => .studyRule
  | knownOperations => .knownOperations registry
  | strict => .all [.studyRule, .knownOperations registry]

/-- What a run is asked to do. -/
structure Options where
  documentPath : String
  policy : Option PolicyChoice
  configPath : Option String
  graphPath : Option String
  tree : Bool

inductive Request where
  | run (options : Options)
  | help
  | version
  /-- The arguments make no sense, for the given reason. -/
  | misuse (reason : String)

/-- The options found so far, each given at most once. -/
structure Collected where
  documentPath : Option String
  policy : Option PolicyChoice
  configPath : Option String
  graphPath : Option String
  tree : Bool

def Collected.start : Collected :=
  ⟨none, none, none, none, false⟩

/-- The name of an option and the value attached to it by an equals sign. -/
def splitOption (argument : String) : String × Option String :=
  let cs := argument.toList
  match cs.dropWhile (fun c => c != '=') with
  | [] => (argument, none)
  | _ :: value => (String.ofList (cs.takeWhile fun c => c != '='), some (String.ofList value))

def Collected.put (found : Collected) (option value : String) : Except String Collected :=
  match option with
  | "--policy" =>
    match PolicyChoice.ofName? value with
    | none => .error ("invalid value '" ++ value ++ "' for '--policy'")
    | some choice =>
      if found.policy.isSome then .error "'--policy' is given twice"
      else .ok { found with policy := some choice }
  | "--layout-config" =>
    if found.configPath.isSome then .error "'--layout-config' is given twice"
    else .ok { found with configPath := some value }
  | "--graph-out" =>
    if found.graphPath.isSome then .error "'--graph-out' is given twice"
    else .ok { found with graphPath := some value }
  | _ => .error ("unexpected argument '" ++ option ++ "'")

def Collected.putDocument (found : Collected) (path : String) : Except String Collected :=
  if found.documentPath.isSome then .error ("unexpected argument '" ++ path ++ "'")
  else .ok { found with documentPath := some path }

def Collected.putTree (found : Collected) : Except String Collected :=
  if found.tree then .error "'--tree' is given twice" else .ok { found with tree := true }

def Collected.finish (found : Collected) : Request :=
  match found.documentPath with
  | some path => .run ⟨path, found.policy, found.configPath, found.graphPath, found.tree⟩
  | none => .misuse "the path of a document is missing"

/-- The request of some arguments behind options that are already found. -/
def Collected.request : Collected → List String → Request
  | found, [] => found.finish
  | found, "--" :: rest =>
    match rest.foldlM Collected.putDocument found with
    | .ok found => found.finish
    | .error reason => .misuse reason
  | _, "--help" :: _ => .help
  | _, "-h" :: _ => .help
  | _, "--version" :: _ => .version
  | _, "-V" :: _ => .version
  | found, argument :: rest =>
    if argument = "--tree" ∨ argument = "-t" then
      match found.putTree with
      | .ok found => found.request rest
      | .error reason => .misuse reason
    else if "-".isPrefixOf argument && argument != "-" then
      let (name, attached) := splitOption argument
      let name := if name = "-p" then "--policy" else name
      match attached, rest with
      | some value, rest =>
        match found.put name value with
        | .ok found => found.request rest
        | .error reason => .misuse reason
      | none, value :: rest =>
        match found.put name value with
        | .ok found => found.request rest
        | .error reason => .misuse reason
      | none, [] => .misuse ("a value is missing for '" ++ name ++ "'")
    else
      match found.putDocument argument with
      | .ok found => found.request rest
      | .error reason => .misuse reason

def parseArguments (arguments : List String) : Request :=
  Collected.start.request arguments

/-- What a run does: it prints, may write a graph to a file, and then prints the rest or fails. -/
structure Run where
  output : String
  written : Option (String × Json)
  rest : Except String String

def Run.failed (reason : String) : Run :=
  ⟨"", none, .error reason⟩

def failureText (reason : String) : String :=
  "\nError: " ++ reason ++ "\n"

def writtenText (path : String) : String :=
  "Graph written to '" ++ path ++ "'\n"

def tableLine (id kind x y slots name : String) : String :=
  padRight 24 id ++ " " ++ padRight 14 kind ++ " " ++ padLeft 9 x ++ " " ++ padLeft 9 y ++ " " ++
    padLeft 7 slots ++ "  " ++ name ++ "\n"

def nodeLine (node : Node Float) : String :=
  tableLine node.id node.kind.name (fixedText 1 node.position.x) (fixedText 1 node.position.y)
    (toString node.slots.length) (node.name?.getD "<constant>")

def table (graph : Graph Float) : String :=
  "\n--- Graph ---\n" ++ tableLine "ID" "KIND" "X" "Y" "SLOTS" "NAME" ++
    String.join (graph.nodes.map nodeLine) ++ "Edges: " ++ toString graph.edges.length ++ "\n"

def trees (document : Document) : String :=
  String.join (document.zipIdx.map fun entry =>
    "\n[" ++ toString entry.2 ++ "] " ++ entry.1.displayTree ++ "\n")

/-- What is left to say once the graph is shown: whether it shows the document. -/
def roundTrip (document : Document) (graph : Graph Float) : Except String String :=
  match graph.document with
  | .error e => .error ("Reconstruction failed: " ++ e.message)
  | .ok rebuilt =>
    if Document.same rebuilt document then
      .ok ("\nRound trip: OK (" ++ toString rebuilt.length ++ " expressions)\n")
    else .error "Round trip produced a different document"

def configuration (read : String → Except String String) (options : Options) :
    Except String (LayoutConfig Float) :=
  match options.configPath with
  | none => .ok .standard
  | some path =>
    match read path with
    | .error reason =>
      .error ("Failed to read layout config '" ++ path ++ "': " ++ reason)
    | .ok text =>
      match LayoutConfig.parse? text with
      | none => .error "Invalid layout config: not a record of measures"
      | some config => .ok config

def accepted (registry : Registry) (options : Options) (v : Json) : Except DocumentError Document :=
  match options.policy with
  | none => Document.ofJson v
  | some choice => Document.ofJsonUnder (choice.policy registry) v

def present (options : Options) (layout : Layout Float) (keys : Nat → Key) (document : Document) :
    Run :=
  let graph := layout.document keys document
  ⟨(if options.tree then trees document else "") ++ table graph,
    options.graphPath.map fun path => (path, graph.toJson),
    roundTrip document graph⟩

/-- The run that the options ask for, given how to read files and keys for the nodes. -/
def run (read : String → Except String String) (keys : Nat → Key) (options : Options) : Run :=
  match read options.documentPath with
  | .error reason =>
    .failed ("Failed to read document '" ++ options.documentPath ++ "': " ++ reason)
  | .ok text =>
    match Json.parse? text with
    | none => .failed "Failed to parse document JSON: not a readable JSON text"
    | some v =>
      match configuration read options with
      | .error reason => .failed reason
      | .ok config =>
        match accepted .standard options v with
        | .error e => .failed ("Document rejected: " ++ e.message)
        | .ok document => present options ⟨.standard, config⟩ keys document

def usage : String :=
  "Usage: rulegraph [OPTIONS] <DOCUMENT_PATH>\n\n" ++
    "Validate, lay out and round-trip an expression document\n\n" ++
    "Options:\n" ++
    "  -p, --policy <POLICY>           study-rule, known-ops or strict\n" ++
    "      --layout-config <PATH>      a JSON layout configuration\n" ++
    "      --graph-out <PATH>          write the laid-out graph as JSON\n" ++
    "  -t, --tree                      print each expression as an indented tree\n" ++
    "  -h, --help                      print help\n" ++
    "  -V, --version                   print version\n"

end CommandLine

end RuleGraph
