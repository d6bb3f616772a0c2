import StorageAtlas.CommandLine.Options
import StorageAtlas.LayoutDocument.Toml
import StorageAtlas.Model.Document
import StorageAtlas.Node.Reader
import StorageAtlas.Report

/-!
# A run of the command

A run reads settings and model, resolves what is asked for, reads values where they are wanted,
prints, and writes the layout if it has more than one record. Files, output and the node are asked
for (`Request`), so a run is the same whether the files are on a disk or at hand.
-/

namespace StorageAtlas.CommandLine

/-- What a run asks of its surroundings. -/
inductive Request
  /-- Whether there is something at a path. -/
  | find (path : String)
  | read (path : String)
  | write (path text : String)
  /-- Prints a line. -/
  | print (line : String)
  | exchange (e : Node.Exchange)

/-- What a request is answered with. -/
abbrev Request.Answer : Request → Type
  | find _ => Bool
  | read _ => Except FileFault String
  | write _ _ => Except FileFault Unit
  | print _ => Unit
  | exchange _ => Node.Reply

/-- A step of a run. -/
abbrev Program (α : Type) := Dialogue Request Request.Answer α

/-- Why a run fails. -/
inductive CommandError
  /-- Neither a value nor a layout is asked for. -/
  | nothingSought
  | noAddress
  | invalidAddress (raw : String) (fault : Address.Fault)
  | settingsNotFound (path : String)
  | file (fault : FileFault)
  | malformedSettings
  /-- The model cannot be loaded. -/
  | model (path : String) (e : Error)
  | other (e : Error)
deriving DecidableEq

namespace CommandError

def message : CommandError → String
  | nothingSought => "Invalid argument: " ++
      "--variable-name or --query is required unless a layout or table is requested"
  | noAddress => "Invalid argument: ADDRESS is required to read values"
  | invalidAddress raw fault =>
    "Invalid argument: Invalid address '" ++ raw ++ "': " ++ fault.message
  | settingsNotFound path => "File not found: " ++ path
  | file fault => "IO error: " ++ fault.message
  | malformedSettings => "Configuration error"
  | model _ e | other e => e.message

/-- What the message is about, where that is not told by it. -/
def context? : CommandError → Option String
  | model path _ => some ("Failed to load contract model " ++ path)
  | _ => none

end CommandError

/-- A step that may fail. -/
abbrev Step (α : Type) := Program (Except CommandError α)

namespace Step

def fail {α : Type} (e : CommandError) : Step α := .done (.error e)

def succeed {α : Type} (a : α) : Step α := .done (.ok a)

/-- Goes on unless the first step failed. -/
def andThen {α β : Type} (first : Step α) (next : α → Step β) : Step β :=
  first.bind fun
    | .ok a => next a
    | .error e => fail e

/-- A result that is at hand. -/
def ofResult {α : Type} : Except Error α → Step α
  | .ok a => succeed a
  | .error e => fail (.other e)

end Step

namespace Options

open Step

/-- Reads the settings file, if one is named, and puts the options of the command over it. -/
def readSettings (o : Options) : Step Settings :=
  match o.config with
  | none => succeed (o.override {})
  | some path => .ask (.find path) fun found =>
    if found then .ask (.read path) fun
      | .error fault => fail (.file fault)
      | .ok text =>
        match Settings.parse text with
        | some s => succeed (o.override s)
        | none => fail .malformedSettings
    else fail (.settingsNotFound path)

/-- Reads the model. -/
def readModel (path : String) : Step Model :=
  .ask (.read path) fun
    | .error fault => fail (.model path (.file fault))
    | .ok text =>
      match Model.parse text with
      | .ok m => succeed m
      | .error e => fail (.model path e)

/-- The contract that is named, or all of them. -/
def selected (o : Options) (m : Model) : Except Error (List String) :=
  match o.contractName with
  | none => .ok m.names
  | some name =>
    match m.contract name with
    | .ok _ => .ok [name]
    | .error e => .error e

/-- The records that are asked for. -/
def records (o : Options) (r : Resolver) (contracts : List String) :
    Except CommandError LayoutStore :=
  let result := if o.wantsFullLayout then some (r.fullLayout contracts)
    else o.sought.map fun s => r.search s contracts
  match result with
  | none => .error .nothingSought
  | some (.ok s) => .ok s
  | some (.error e) => .error (.other e)

/-- Reads an address behind an optional network name and a colon. -/
def readAddress (raw : String) : Except CommandError Address :=
  let bare := Text.trim (raw.toList.reverse.takeWhile (· != ':')).reverse
  match Address.read bare with
  | .ok a => .ok a
  | .error fault => .error (.invalidAddress raw fault)

/-- Where values are read. -/
def chainContext (o : Options) (s : Settings) : Except CommandError ChainContext :=
  match o.address with
  | none => .error .noAddress
  | some raw =>
    match readAddress raw with
    | .error e => .error e
    | .ok address =>
      let context : ChainContext :=
        { address, rpcUrl := s.rpcUrl, block := o.block.getD .latest }
      match o.storageAddress with
      | none => .ok context
      | some raw =>
        match readAddress raw with
        | .error e => .error e
        | .ok storage => .ok { context with storageAddress := some storage }

/-- Reads the values of the records, where they are wanted. -/
def readValues (o : Options) (s : Settings) (store : LayoutStore) : Step LayoutStore :=
  if o.wantsValues then
    match o.chainContext s with
    | .error e => fail e
    | .ok context =>
      ((Node.fetch s.reader context store).through fun e => .question (.exchange e)).map fun
        | (store, .ok _) => .ok store
        | (_, .error e) => .error (.other e)
  else succeed store

/-- Prints lines in order. -/
def printLines : List String → Program Unit
  | [] => .done ()
  | line :: rest => .ask (.print line) fun () => printLines rest

/-- The layout in the format of the artifact. -/
def artifact (o : Options) (store : LayoutStore) : String :=
  match o.artifactFormat with
  | .json => store.document.toJson.pretty
  | .toml => store.document.toToml

/-- Writes a layout of more than one record. -/
def writeArtifact (o : Options) (store : LayoutStore) : Step Unit :=
  if store.size ≤ 1 then succeed ()
  else .ask (.write o.artifactPath (o.artifact store)) fun
    | .ok () => succeed ()
    | .error fault => fail (.file fault)

/-- Prints a table, or the records unless the layout is wanted, and writes the artifact. -/
def report (o : Options) (store : LayoutStore) : Step Unit :=
  if o.has .tableStorageLayout then (printLines [store.layoutTable]).map .ok
  else if o.has .tableStorageValue then (printLines [store.valueTable]).map .ok
  else
    let lines := if o.has .layout then [] else store.records.map (·.line)
    (printLines lines).bind fun () => o.writeArtifact store

/-- Runs the command. -/
def run (o : Options) : Step Unit :=
  andThen o.readSettings fun settings =>
  andThen (readModel (o.model.getD "")) fun model =>
  andThen (ofResult (o.selected model)) fun contracts =>
    match o.records ⟨model, settings.resolver⟩ contracts with
    | .error e => fail e
    | .ok store => andThen (o.readValues settings store) o.report

end Options

end StorageAtlas.CommandLine
