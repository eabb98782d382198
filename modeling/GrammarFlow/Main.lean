import GrammarFlow.CommandLine

namespace GrammarFlow.CommandLine

def faultOf : IO.Error → FileFault
  | .noFileOrDirectory .. => .missing
  | .inappropriateType .. => .directory
  | e => .other (toString e)

def readText (path : String) : IO (Except FileFault String) := do
  match ← (IO.FS.readBinFile path).toBaseIO with
  | .error e => return .error (faultOf e)
  | .ok bytes =>
    match String.fromUTF8? bytes with
    | some text => return .ok text
    | none => return .error .notText

def timed {α : Type} (f : Unit → α) : IO (α × String) := do
  let before ← IO.monoNanosNow
  let x ← IO.lazyPure f
  let after ← IO.monoNanosNow
  return (x, toString ((after - before) / 1000))

def console : Console IO where
  readText := readText
  timed := timed
  out line := IO.println line
  err line := IO.eprintln line

end GrammarFlow.CommandLine

def main (args : List String) : IO UInt32 :=
  GrammarFlow.CommandLine.run GrammarFlow.CommandLine.console args
