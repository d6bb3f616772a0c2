import StorageAtlas.Chain
import StorageAtlas.CommandLine.Settings
import StorageAtlas.Layout.Search

/-!
# Options of the command line

The words of a command are read from left to right. A word that starts with a dash names options
or switches; an option takes the word behind it, or the text behind an equals sign. Other words,
and all words behind `--`, are the model and the address. A value is looked at when the next option
or plain word comes, so of two faults not always the first one is told.
-/

namespace StorageAtlas.CommandLine

open Text

/-- Why the words of a command cannot be read, or what they ask for instead of a run. -/
inductive UsageFault
  | missingRequiredArgument
  | unknownArgument
  /-- Two words that exclude each other, or an option given twice. -/
  | argumentConflict
  /-- A value that is missing, empty or not one of those that are possible. -/
  | invalidValue
  /-- A value that does not have the form of its type. -/
  | valueValidation
  /-- A value for a switch. -/
  | tooManyValues
  | help
  | version
deriving DecidableEq, Repr

/-- The format of the written layout. -/
inductive ArtifactFormat
  | json
  | toml
deriving DecidableEq, Repr

def ArtifactFormat.defaultFileName : ArtifactFormat → String
  | json => "storage_layout.json"
  | toml => "storage_layout.toml"

/-- Places for values. -/
inductive Slot
  | model
  | address
  | contractName
  | variableName
  | key
  | deepKey
  | structVar
  | query
  | rpcUrl
  | storageAddress
  | block
  | maxDepth
  | concurrency
  | retries
  | timeoutMs
  | config
  | output
  | format
deriving DecidableEq, Repr

/-- Options without a value. -/
inductive Switch
  | layout
  | value
  | tableStorageLayout
  | tableStorageValue
  | expandArrays
  | silent
  | verbose
deriving DecidableEq, Repr

/-- What an option name stands for. -/
inductive Meaning
  | slot (s : Slot)
  | switch (s : Switch)
  | help
  | version
deriving DecidableEq, Repr

/-- The names behind two dashes. -/
def longNames : List (String × Meaning) :=
  [("contract-name", .slot .contractName), ("variable-name", .slot .variableName),
    ("key", .slot .key), ("deep-key", .slot .deepKey), ("struct-var", .slot .structVar),
    ("query", .slot .query), ("rpc-url", .slot .rpcUrl),
    ("storage-address", .slot .storageAddress), ("block", .slot .block),
    ("layout", .switch .layout), ("value", .switch .value),
    ("table-storage-layout", .switch .tableStorageLayout),
    ("table-storage-value", .switch .tableStorageValue),
    ("expand-arrays", .switch .expandArrays), ("silent", .switch .silent),
    ("verbose", .switch .verbose), ("max-depth", .slot .maxDepth),
    ("concurrency", .slot .concurrency), ("retries", .slot .retries),
    ("timeout-ms", .slot .timeoutMs), ("config", .slot .config), ("output", .slot .output),
    ("format", .slot .format), ("help", .help), ("version", .version)]

/-- The letters behind one dash. -/
def shortNames : List (Char × Meaning) :=
  [('v', .switch .verbose), ('o', .slot .output), ('h', .help), ('V', .version)]

/-- The words of a command, read. -/
structure Options where
  /-- The file of the model. -/
  model : Option String := none
  address : Option String := none
  contractName : Option String := none
  variableName : Option String := none
  key : Option String := none
  deepKey : Option String := none
  structVar : Option String := none
  query : Option String := none
  rpcUrl : Option String := none
  storageAddress : Option String := none
  block : Option BlockTag := none
  maxDepth : Option Nat := none
  concurrency : Option Nat := none
  retries : Option Nat := none
  timeoutMs : Option Nat := none
  config : Option String := none
  output : Option String := none
  format : Option ArtifactFormat := none
  switches : List Switch := []
deriving DecidableEq

namespace Options

def has (o : Options) (s : Switch) : Bool := o.switches.contains s

/-! ## Values -/

/-- Puts a value in a place that is free. -/
def fill {α : Type} (current : Option α) (value : Except UsageFault α) (store : α → Options) :
    Except UsageFault Options :=
  match current with
  | some _ => .error .argumentConflict
  | none =>
    match value with
    | .ok a => .ok (store a)
    | .error fault => .error fault

/-- A path must not be empty. -/
def pathValue (raw : String) : Except UsageFault String :=
  if raw.isEmpty then .error .invalidValue else .ok raw

def numberValue (limit : Nat) (raw : String) : Except UsageFault Nat :=
  match readInteger 10 limit raw.toList with
  | .ok n => .ok n
  | .error _ => .error .valueValidation

/-- A number that may have a minus sign if it is zero. -/
def signedNumberValue (limit : Nat) (raw : String) : Except UsageFault Nat :=
  match raw.toList with
  | '-' :: c :: rest =>
    if c != '+' && readInteger 10 1 (c :: rest) matches .ok _ then .ok 0
    else .error .valueValidation
  | _ => numberValue limit raw

def blockValue (raw : String) : Except UsageFault BlockTag :=
  match BlockTag.parse raw with
  | .ok b => .ok b
  | .error _ => .error .valueValidation

def formatValue (raw : String) : Except UsageFault ArtifactFormat :=
  if raw = "json" then .ok .json
  else if raw = "toml" then .ok .toml
  else .error .invalidValue

/-- Takes the value of a place. -/
def assign (o : Options) (s : Slot) (raw : String) : Except UsageFault Options :=
  match s with
  | .model => fill o.model (pathValue raw) fun v => { o with model := some v }
  | .address => fill o.address (.ok raw) fun v => { o with address := some v }
  | .contractName => fill o.contractName (.ok raw) fun v => { o with contractName := some v }
  | .variableName => fill o.variableName (.ok raw) fun v => { o with variableName := some v }
  | .key => fill o.key (.ok raw) fun v => { o with key := some v }
  | .deepKey => fill o.deepKey (.ok raw) fun v => { o with deepKey := some v }
  | .structVar => fill o.structVar (.ok raw) fun v => { o with structVar := some v }
  | .query => fill o.query (.ok raw) fun v => { o with query := some v }
  | .rpcUrl => fill o.rpcUrl (.ok raw) fun v => { o with rpcUrl := some v }
  | .storageAddress => fill o.storageAddress (.ok raw) fun v => { o with storageAddress := some v }
  | .block => fill o.block (blockValue raw) fun v => { o with block := some v }
  | .maxDepth =>
    fill o.maxDepth (numberValue UInt64.size raw) fun v => { o with maxDepth := some v }
  | .concurrency =>
    fill o.concurrency (numberValue UInt64.size raw) fun v => { o with concurrency := some v }
  | .retries =>
    fill o.retries (signedNumberValue UInt32.size raw) fun v => { o with retries := some v }
  | .timeoutMs =>
    fill o.timeoutMs (numberValue UInt64.size raw) fun v => { o with timeoutMs := some v }
  | .config => fill o.config (pathValue raw) fun v => { o with config := some v }
  | .output => fill o.output (pathValue raw) fun v => { o with output := some v }
  | .format => fill o.format (formatValue raw) fun v => { o with format := some v }

/-- Turns a switch on, once. -/
def turnOn (o : Options) (s : Switch) : Except UsageFault Options :=
  if o.has s then .error .argumentConflict else .ok { o with switches := o.switches ++ [s] }

/-! ## Words -/

/-- A place whose value is still to be taken, and the value if it is there. -/
abbrev Waiting := Option (Slot × Option String)

/-- Takes the value that waits. -/
def takeWaiting (o : Options) : Waiting → Except UsageFault Options
  | none => .ok o
  | some (_, none) => .error .invalidValue
  | some (s, some raw) => o.assign s raw

/-- Follows an option name without a value of its own. -/
def follow (o : Options) (waiting : Waiting) (m : Meaning) :
    Except UsageFault (Options × Waiting) :=
  match o.takeWaiting waiting with
  | .error fault => .error fault
  | .ok o =>
    match m with
    | .slot s => .ok (o, some (s, none))
    | .switch s =>
      match o.turnOn s with
      | .ok o => .ok (o, none)
      | .error fault => .error fault
    | .help => .error .help
    | .version => .error .version

/-- Follows an option name with a value. -/
def followWith (o : Options) (waiting : Waiting) (m : Meaning) (raw : String) :
    Except UsageFault (Options × Waiting) :=
  match m with
  | .slot s =>
    match o.takeWaiting waiting with
    | .error fault => .error fault
    | .ok o =>
      match o.assign s raw with
      | .ok o => .ok (o, none)
      | .error fault => .error fault
  | _ => .error .tooManyValues

/-- Reads what stands behind two dashes. -/
def readLong (o : Options) (waiting : Waiting) (word : List Char) :
    Except UsageFault (Options × Waiting) :=
  let name := String.ofList (word.takeWhile (· != '='))
  match longNames.lookup name, word.dropWhile (· != '=') with
  | none, _ => .error .unknownArgument
  | some m, [] => o.follow waiting m
  | some m, _ :: raw => o.followWith waiting m (String.ofList raw)

/-- Reads the letters behind one dash. A letter that takes a value takes the rest of the word. -/
def readShort (o : Options) (waiting : Waiting) : List Char → Except UsageFault (Options × Waiting)
  | [] => .ok (o, waiting)
  | c :: rest =>
    match shortNames.lookup c, rest with
    | none, _ => .error .unknownArgument
    | some (.slot s), '=' :: raw => o.followWith waiting (.slot s) (String.ofList raw)
    | some (.slot s), c :: raw => o.followWith waiting (.slot s) (String.ofList (c :: raw))
    | some m, rest =>
      match o.follow waiting m with
      | .error fault => .error fault
      | .ok (o, waiting) => o.readShort waiting rest

/-- The place of the plain word that comes after `count` others. -/
def plainSlot? (count : Nat) : Option Slot :=
  match count with
  | 0 => some .model
  | 1 => some .address
  | _ => none

/-- Reads a plain word. -/
def readPlain (o : Options) (waiting : Waiting) (count : Nat) (word : String) :
    Except UsageFault (Options × Waiting) :=
  match plainSlot? count with
  | none => .error .unknownArgument
  | some s =>
    match o.takeWaiting waiting with
    | .error fault => .error fault
    | .ok o => .ok (o, some (s, some word))

/-- What kind of word it is. -/
inductive WordKind
  | separator
  | long (body : List Char)
  | short (letters : List Char)
  | plain

/-- Behind a separator all words are plain. -/
def kindOf (behindSeparator : Bool) (word : String) : WordKind :=
  if behindSeparator then .plain
  else match word.toList with
    | ['-', '-'] => .separator
    | '-' :: '-' :: body => .long body
    | '-' :: c :: letters => .short (c :: letters)
    | _ => .plain

/-- Reads words. `count` plain ones and maybe a separator came before. -/
def readWords (o : Options) (waiting : Waiting) (count : Nat) (behindSeparator : Bool) :
    List String → Except UsageFault Options
  | [] => o.takeWaiting waiting
  | word :: rest =>
    match kindOf behindSeparator word with
    | .separator => o.readWords waiting count true rest
    | .long body =>
      match o.readLong waiting body with
      | .error fault => .error fault
      | .ok (o, waiting) => o.readWords waiting count false rest
    | .short letters =>
      match o.readShort waiting letters with
      | .error fault => .error fault
      | .ok (o, waiting) => o.readWords waiting count false rest
    | .plain =>
      match waiting, behindSeparator with
      | some (s, none), false => o.readWords (some (s, some word)) count false rest
      | waiting, _ =>
        match o.readPlain waiting count word with
        | .error fault => .error fault
        | .ok (o, waiting) => o.readWords waiting (count + 1) behindSeparator rest

/-- Whether words were given that exclude each other. -/
def hasConflict (o : Options) : Bool :=
  (o.query.isSome &&
    (o.variableName.isSome || o.key.isSome || o.deepKey.isSome || o.structVar.isSome)) ||
  (o.has .silent && o.has .verbose)

/-- Reads the words of a command. -/
def parse (words : List String) : Except UsageFault Options :=
  match readWords {} none 0 false words with
  | .error fault => .error fault
  | .ok o =>
    if o.hasConflict then .error .argumentConflict
    else if o.model.isNone then .error .missingRequiredArgument
    else .ok o

/-! ## What is asked for -/

/-- Whether values are to be read from a node. -/
def wantsValues (o : Options) : Bool := o.has .value || o.has .tableStorageValue

/-- Whether the whole layout is wanted rather than one value. -/
def wantsFullLayout (o : Options) : Bool :=
  o.has .layout || o.has .tableStorageLayout || o.has .tableStorageValue

/-- How much is logged. -/
def logLevel (o : Options) : String :=
  if o.has .verbose then "DEBUG" else if o.has .silent then "ERROR" else "INFO"

def artifactFormat (o : Options) : ArtifactFormat := o.format.getD .json

/-- Where the layout is written. -/
def artifactPath (o : Options) : String := o.output.getD o.artifactFormat.defaultFileName

/-- The settings of a file with those of the command in their place. -/
def override (o : Options) (s : Settings) : Settings where
  rpcUrl := o.rpcUrl <|> s.rpcUrl
  resolver := { s.resolver with maxDepth := o.maxDepth.getD s.resolver.maxDepth }
  reader := { s.reader with
    concurrency := o.concurrency.getD s.reader.concurrency
    retries := o.retries.getD s.reader.retries
    timeoutMs := o.timeoutMs.getD s.reader.timeoutMs
    expandDynamicArrays := o.has .expandArrays || s.reader.expandDynamicArrays }

/-- The value that is asked for. -/
def sought (o : Options) : Option Sought :=
  match o.query, o.variableName with
  | some text, _ => some (.query text)
  | none, some name => some (.target ⟨name, o.key, o.deepKey, o.structVar⟩)
  | none, none => none

end Options

end StorageAtlas.CommandLine
