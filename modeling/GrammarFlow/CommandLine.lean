import GrammarFlow.Grammar.Document
import GrammarFlow.Derivation.Count
import GrammarFlow.Text.Blank
import GrammarFlow.Tree.Build
import GrammarFlow.Tree.Display

namespace GrammarFlow.CommandLine

def usage : String :=
  "usage: gfg-earley <grammar.json> <input-file> [--json]\n\n" ++
  "Each non-empty line of the input file is parsed on its own. Words are\n" ++
  "separated by whitespace and every word names the terminal it stands for.\n" ++
  "Set RUST_LOG=debug (or trace) for engine diagnostics."

structure Options where
  grammarPath : String
  inputPath : String
  json : Bool
deriving DecidableEq, Repr

/-- Two paths, with `--json` anywhere among them; a request for help is no run. -/
def options? (args : List String) : Option Options :=
  if args.contains "-h" || args.contains "--help" then none
  else
    match args.filter (· ≠ "--json") with
    | [grammarPath, inputPath] => some ⟨grammarPath, inputPath, args.contains "--json"⟩
    | _ => none

/-- What the program needs of the world: texts of files, the time that a computation takes in
microseconds, and two places to write lines to. -/
structure Console (m : Type → Type) where
  readText : String → m (Except FileFault String)
  timed : {α : Type} → (Unit → α) → m (α × String)
  out : String → m Unit
  err : String → m Unit

inductive Attempt where
  | accepted (p : Parsing) (t : Tree)
  | rejected (f : ParseFailure)
  | broken (e : DerivationError)

def attempt (g : Graph) (line : String) : Attempt :=
  match g.parse (Token.ofWords line) with
  | .error failure => .rejected failure
  | .ok p =>
    match p.tree with
    | .error fault => .broken fault
    | .ok t => .accepted p t

def derivationsText : Option Nat → String
  | some n => toString n
  | none => "infinitely many"

def acceptance (p : Parsing) (elapsed : String) : String :=
  "[✓] " ++ toString p.tokens.size ++ " tokens in " ++ elapsed ++ "us, " ++
    derivationsText p.derivationCount ++ " derivation(s)"

def treeText (json : Bool) (t : Tree) : String := if json then t.toJson else t.display

/-- The lines with anything but blanks in them. -/
def inputLines (text : String) : List String := (Text.lines text).filter (!Text.isBlankText ·)

def rule : String := String.ofList (List.replicate 60 '=')

variable {m : Type → Type} [Monad m]

/-- Reports on the lines from number `i` on, and returns how many of them are accepted. -/
def reportLines (c : Console m) (g : Graph) (json : Bool) :
    Nat → List String → m (Except DerivationError Nat)
  | _, [] => pure (.ok 0)
  | i, line :: rest => do
    c.out ("\nInput #" ++ toString i ++ ": " ++ Text.trim line)
    let (outcome, elapsed) ← c.timed fun _ => attempt g line
    match outcome with
    | .broken fault => pure (.error fault)
    | .rejected failure => do
      c.out ("[✗] " ++ failure.message)
      reportLines c g json (i + 1) rest
    | .accepted p t => do
      c.out (acceptance p elapsed)
      c.out (treeText json t)
      let accepted ← reportLines c g json (i + 1) rest
      pure (accepted.map (· + 1))

def reportInput (c : Console m) (g : Graph) (json : Bool) (text : String) : m UInt32 := do
  let lines := inputLines text
  c.out ("Found " ++ toString lines.length ++ " inputs")
  c.out rule
  match ← reportLines c g json 1 lines with
  | .error fault => do
    c.err ("Internal error while building the tree: " ++ fault.message)
    pure 1
  | .ok accepted => do
    c.out ("\n" ++ rule)
    c.out (toString accepted ++ "/" ++ toString lines.length ++ " inputs accepted")
    pure (if accepted = lines.length then 0 else 1)

def runWith (c : Console m) (o : Options) : m UInt32 := do
  match Grammar.ofFile (← c.readText o.grammarPath) with
  | .error e => do
    c.err ("Error loading grammar: " ++ e.message)
    pure 1
  | .ok g => do
    c.out g.text
    match ← c.readText o.inputPath with
    | .error fault => do
      c.err ("Failed to read input file '" ++ o.inputPath ++ "': " ++ fault.message)
      pure 1
    | .ok text => reportInput c (Graph.ofGrammar g) o.json text

def run (c : Console m) (args : List String) : m UInt32 :=
  match options? args with
  | none => do
    c.err usage
    pure 2
  | some o => runWith c o

structure Transcript where
  out : String := ""
  err : String := ""
deriving DecidableEq, Repr

/-- A console over given files that records what is written; every computation takes `elapsed`. -/
def recorder (files : String → Except FileFault String) (elapsed : String) :
    Console (StateM Transcript) where
  readText path := pure (files path)
  timed f := pure (f (), elapsed)
  out line := modify fun t => { t with out := t.out ++ line ++ "\n" }
  err line := modify fun t => { t with err := t.err ++ line ++ "\n" }

def transcribe (files : String → Except FileFault String) (elapsed : String)
    (args : List String) : UInt32 × Transcript :=
  (run (recorder files elapsed) args).run {}

end GrammarFlow.CommandLine
