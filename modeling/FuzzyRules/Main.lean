import FuzzyRules.CommandLine.Program

open FuzzyRules

def readFault : IO.Error → ReadFault
  | .noFileOrDirectory .. => .notFound
  | .inappropriateType _ code _ => if code = 21 then .isDirectory else .notDirectory
  | e => .other (toString e)

def fetch (path : String) : IO (Except ReadFault String) := do
  match ← (IO.FS.readBinFile path).toBaseIO with
  | .error e => return .error (readFault e)
  | .ok content =>
    match String.fromUTF8? content with
    | some s => return .ok s
    | none => return .error .notText

def complaint : Failure → String
  | .settings fault => (fault.message?).getD fault.help
  | .grammar fault => (fault.message?).getD fault.help
  | .model fault => fault.message
  | .endless => "the grammar loops without consuming input"

def main (words : List String) : IO UInt32 := do
  let ending ← CommandLine.run fetch words
  IO.print ending.output
  if let some failure := ending.failure then IO.eprintln (complaint failure)
  return ending.status.toUInt32
