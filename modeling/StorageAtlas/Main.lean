import StorageAtlas.CommandLine.Run

/-!
# The command

Runs the command on the files of the disk. It has no access to a network: every node is out of
reach.
-/

namespace StorageAtlas.CommandLine

/-- The fault that an error of the system tells. -/
def fileFault (e : IO.Error) : FileFault :=
  match e with
  | .noFileOrDirectory .. => .notFound
  | other => .reported (toString other)

def readFile (path : String) : IO (Except FileFault String) := do
  try
    return .ok (← IO.FS.readFile path)
  catch e => return .error (fileFault e)

def writeFile (path text : String) : IO (Except FileFault Unit) := do
  try
    return .ok (← IO.FS.writeFile path text)
  catch e => return .error (fileFault e)

/-- Carries out a request. -/
def carryOut : (r : Request) → IO r.Answer
  | .find path => do
    match ← readFile path with
    | .error .notFound => return false
    | _ => return true
  | .read path => readFile path
  | .write path text => writeFile path text
  | .print line => IO.println line
  | .exchange _ => return .unreachable

def wait (ms : Nat) : IO Unit := IO.sleep (UInt32.ofNat ms)

def usage : String :=
  "Usage: storageatlas MODEL [ADDRESS] [--contract-name NAME]\n" ++
  "    [--variable-name NAME [--key KEY] [--deep-key KEY] [--struct-var NAME] | --query PATH]\n" ++
  "    [--layout] [--value] [--table-storage-layout] [--table-storage-value]\n" ++
  "    [--rpc-url URL] [--storage-address ADDRESS] [--block BLOCK] [--expand-arrays]\n" ++
  "    [--max-depth N] [--concurrency N] [--retries N] [--timeout-ms N] [--config FILE]\n" ++
  "    [-o FILE] [--format json|toml] [--silent | -v]"

/-- Says why the words of a command cannot be read. -/
def usageText : UsageFault → String
  | .missingRequiredArgument => "error: MODEL is required"
  | .unknownArgument => "error: unexpected argument"
  | .argumentConflict => "error: arguments exclude each other"
  | .invalidValue => "error: a value is missing or not possible"
  | .valueValidation => "error: a value has the wrong form"
  | .tooManyValues => "error: unexpected value"
  | .help => usage
  | .version => "storageatlas 0.1.0"

end StorageAtlas.CommandLine

open StorageAtlas StorageAtlas.CommandLine

def main (words : List String) : IO UInt32 := do
  match Options.parse words with
  | .error .help => do
    IO.println usage
    return 0
  | .error .version => do
    IO.println (usageText .version)
    return 0
  | .error fault => do
    IO.eprintln (usageText fault ++ "\n\n" ++ usage)
    return 2
  | .ok o =>
    match ← o.run.perform carryOut wait with
    | .ok () => return 0
    | .error e => do
      let context := match e.context? with
        | some text => text ++ ": "
        | none => ""
      IO.eprintln ("Error: " ++ context ++ e.message)
      return 1
