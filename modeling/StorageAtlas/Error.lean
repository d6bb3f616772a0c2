import StorageAtlas.Path
import StorageAtlas.Text.Integer
import StorageAtlas.Ty

/-!
# Errors

Every way a request can fail, as causes; `Error.message` gives the one wording of each. Only
failures of the transport are worth another attempt (`Error.isTransient`).
-/

namespace StorageAtlas

open Text (decimal)

/-- Why a type, or the data under it, cannot be decoded. -/
inductive UnresolvedCause
  | code (type : Ty)
  | undefinedStruct (name : String)
  | notValueType (type : Ty)
  /-- A head word that announces more bytes than fit beside the announcement. -/
  | shortLength (length : Nat)
  | notExpanded (name : String)
  | noMembers (type : Ty)
  /-- Told by a source of storage words. -/
  | reported (message : String)
deriving DecidableEq

def UnresolvedCause.message : UnresolvedCause → String
  | code t => t.spelling ++ " refers to code, not data"
  | undefinedStruct name => "struct " ++ name ++ " is not defined in the model"
  | notValueType t => t.spelling ++ " is not a value type"
  | shortLength n => "short-form length " ++ decimal n ++ " does not fit in a slot"
  | notExpanded name => "struct " ++ name ++ " was not expanded before decoding"
  | noMembers t => t.spelling ++ " has no members"
  | reported text => text

/-- Why a node gave no usable answer. -/
inductive NodeFault
  /-- The endpoint is no URL that requests can be sent to. -/
  | unusable (url : Option String)
  | unreachable (url : String)
  /-- The answer is not of the expected shape. -/
  | undecodable (url : String)
  /-- The node answered with an error of its own. -/
  | refused (code : Int) (message : String)
  | neitherResultNorError
  | wrongBatchSize (requests responses : Nat)
  | unexpectedId (id : Option Nat)
  /-- A block number that is no string; the JSON text of what came instead. -/
  | blockNotString (json : String)
  | invalidBlock (text : String) (fault : Text.IntegerFault)
  | wordNotString (json : String)
  | wordNotHex (text : String) (fault : Text.HexFault)
  | wordTooLong (text : String)
deriving DecidableEq

def NodeFault.message : NodeFault → String
  | unusable none => "RPC request failed: builder error"
  | unusable (some url) => "RPC request failed: builder error for url (" ++ url ++ ")"
  | unreachable url => "RPC request failed: error sending request for url (" ++ url ++ ")"
  | undecodable url => "RPC request failed: error decoding response body for url (" ++ url ++ ")"
  | refused code text => "RPC error " ++ toString code ++ ": " ++ text
  | neitherResultNorError => "Malformed RPC response: response has neither result nor error"
  | wrongBatchSize requests responses =>
    "Malformed RPC response: batch of " ++ decimal requests ++ " requests returned " ++
      decimal responses ++ " responses"
  | unexpectedId id =>
    let shown := match id with
      | none => "None"
      | some n => "Some(" ++ decimal n ++ ")"
    "Malformed RPC response: unexpected response id " ++ shown
  | blockNotString json => "Malformed RPC response: block number is not a string: " ++ json
  | invalidBlock text fault =>
    "Malformed RPC response: invalid block number " ++ text ++ ": " ++ fault.message
  | wordNotString json => "Malformed RPC response: storage value is not a string: " ++ json
  | wordNotHex text fault =>
    "Malformed RPC response: invalid hex " ++ text ++ ": " ++ fault.message
  | wordTooLong text =>
    "Malformed RPC response: storage value longer than 32 bytes: " ++ text

/-- Why words could not be read. -/
inductive TransportFault
  | node (fault : NodeFault)
  | noWord
  | readTimeout (ms : Nat)
  | blockTimeout (ms : Nat)
  | wrongCount (requested received : Nat)
  /-- Told by a source of storage words. -/
  | reported (message : String)
deriving DecidableEq

def TransportFault.message : TransportFault → String
  | node fault => fault.message
  | noWord => "no storage word returned"
  | readTimeout ms => "read timed out after " ++ Text.span ms
  | blockTimeout ms => "block number request timed out after " ++ Text.span ms
  | wrongCount requested received =>
    "requested " ++ decimal requested ++ " words, received " ++ decimal received
  | reported text => text

/-- Why a path does not lead to a value. -/
inductive PathFault
  | invalidName (query : String)
  | unclosedBracket (query : String)
  | invalidField (query : String)
  | unexpectedInput (rest query : String)
  | emptyBrackets
  | deepKeyAlone
  | outOfBounds (index : Word) (type : Ty)
  | noMember (struct member : String)
  | notApplicable (step : AccessStep) (type : Ty)
  | notANumber (literal : String)
  /-- No record is stored under this key. -/
  | noRecord (key : String)
  | outsideSlot (offset : Nat)
  | crossesSlot (size offset : Nat)
deriving DecidableEq

def PathFault.message : PathFault → String
  | invalidName query => "Invalid variable name in query: " ++ query
  | unclosedBracket query => "Unclosed bracket in query: " ++ query
  | invalidField query => "Invalid struct field access in query: " ++ query
  | unexpectedInput rest query => "Unexpected input '" ++ rest ++ "' in query: " ++ query
  | emptyBrackets => "Empty brackets in query"
  | deepKeyAlone => "A deep key requires a key for the first level"
  | outOfBounds index t => "Index " ++ Word.text index ++ " out of bounds for " ++ t.spelling
  | noMember struct member => "Struct " ++ struct ++ " has no member '" ++ member ++ "'"
  | notApplicable step t =>
    "Cannot apply '" ++ step.text ++ "' to a value of type " ++ t.spelling
  | notANumber literal => "Array index '" ++ literal ++ "' is not a number"
  | noRecord key => "No record for " ++ key
  | outsideSlot offset => "offset " ++ decimal offset ++ " outside a slot"
  | crossesSlot size offset =>
    decimal size ++ " bytes at offset " ++ decimal offset ++ " cross a slot"

/-- Why a literal is no mapping key of a type. -/
inductive KeyFault
  | notAnInteger (literal : String) (fault : Text.NumeralFault)
  | doesNotFit (literal type : String)
  | notABool (literal : String)
  | tooLong (literal : String) (width : Nat)
  | wrongAddressLength (literal : String) (bytes : Nat)
  | notHex (literal : String) (fault : Text.HexFault)
  | notAKeyType (type : Ty)
  /-- Told by a source of storage words. -/
  | reported (message : String)
deriving DecidableEq

def KeyFault.message : KeyFault → String
  | notAnInteger literal fault =>
    "Could not parse '" ++ literal ++ "' as an integer: " ++ fault.message
  | doesNotFit literal type => "Key '" ++ literal ++ "' does not fit in " ++ type
  | notABool literal => "Invalid bool key '" ++ literal ++ "'"
  | tooLong literal width => "Key '" ++ literal ++ "' is longer than bytes" ++ decimal width
  | wrongAddressLength literal bytes =>
    "Address key '" ++ literal ++ "' must be 20 bytes, got " ++ decimal bytes
  | notHex literal fault => "Invalid hex key '" ++ literal ++ "': " ++ fault.message
  | notAKeyType t => "Type '" ++ t.spelling ++ "' cannot be used as a mapping key"
  | reported text => text

/-- Why two placements cannot stand side by side. -/
inductive ConflictFault
  /-- A record key is taken by another placement. -/
  | otherPlacement (key : String) (storedSlot : Word) (storedOffset : Nat) (newSlot : Word)
      (newOffset : Nat)
  | exceedsSlot (key : String) (offset size : Nat)
  | overlap (first second contract : String) (slot : Word)
deriving DecidableEq

def ConflictFault.message : ConflictFault → String
  | otherPlacement key storedSlot storedOffset newSlot newOffset =>
    key ++ ": stored at slot " ++ Word.text storedSlot ++ " offset " ++ decimal storedOffset ++
      ", new placement slot " ++ Word.text newSlot ++ " offset " ++ decimal newOffset
  | exceedsSlot key offset size =>
    key ++ " with offset " ++ decimal offset ++ " and size " ++ decimal size ++
      " exceeds slot boundary"
  | overlap first second contract slot =>
    "Fields '" ++ first ++ "' and '" ++ second ++ "' overlap in contract " ++ contract ++
      " at slot " ++ Word.text slot

/-- Why a text is no type under the declarations of a model. -/
inductive TypeFault
  | empty
  | unbalancedBrackets (text : String)
  | invalidLength (text : String)
  | malformedMapping (text : String)
  | mappingWithoutArrow (text : String)
  | unknownType (text : String)
  | unknownStruct (name : String)
  | wrapsNonValue (name : String) (underlying : Ty)
  /-- The struct lies inside itself, so it has no size. -/
  | containsItself (name : String)
  | noMembers (name : String)
  /-- The name leads back to itself through value types, so that reading it never ends. -/
  | endless (name : String)
deriving DecidableEq

def TypeFault.message : TypeFault → String
  | empty => "empty type"
  | unbalancedBrackets text => "unbalanced brackets in '" ++ text ++ "'"
  | invalidLength text => "invalid array length '" ++ text ++ "'"
  | malformedMapping text => "malformed mapping '" ++ text ++ "'"
  | mappingWithoutArrow text => "mapping without '=>' in '" ++ text ++ "'"
  | unknownType text => "unknown type '" ++ text ++ "'"
  | unknownStruct name => "unknown struct '" ++ name ++ "'"
  | wrapsNonValue name underlying =>
    "value type '" ++ name ++ "' wraps non-value type " ++ underlying.spelling
  | containsItself name =>
    "struct '" ++ name ++ "' contains itself without a mapping or dynamic array in between"
  | noMembers name => "struct '" ++ name ++ "' has no members"
  | endless name => "type '" ++ name ++ "' never ends"

/-- Where in a model a type cannot be read. -/
inductive ModelFault
  | struct (name : String) (fault : TypeFault)
  | declaration (contract name : String) (fault : TypeFault)
deriving DecidableEq

def ModelFault.message : ModelFault → String
  | struct name fault => "struct " ++ name ++ ": " ++ fault.message
  | declaration contract name fault => contract ++ "." ++ name ++ ": " ++ fault.message

/-- Why a file cannot be read or written. -/
inductive FileFault
  | notFound
  | notADirectory
  | isADirectory
  | nameTooLong
  | nulCharacter
  /-- Told by the system in its own words. -/
  | reported (message : String)
deriving DecidableEq

def FileFault.message : FileFault → String
  | notFound => "No such file or directory (os error 2)"
  | notADirectory => "Not a directory (os error 20)"
  | isADirectory => "Is a directory (os error 21)"
  | nameTooLong => "File name too long (os error 36)"
  | nulCharacter => "file name contained an unexpected NUL byte"
  | reported text => text

/-- Everything that can go wrong while layouts are resolved and values are read. -/
inductive Error
  | unresolvedType (cause : UnresolvedCause)
  | depthExceeded (depth limit : Nat)
  | variableNotFound (contract name : String)
  | contractNotFound (name : String)
  | transport (fault : TransportFault)
  | missingEndpoint
  /-- A separate storage address, and no layout to read from it. -/
  | proxyWithoutLayout
  | invalidPath (fault : PathFault)
  | invalidKey (fault : KeyFault)
  | conflict (fault : ConflictFault)
  | invalidModel (fault : ModelFault)
  /-- The model document is no JSON text of the expected shape. -/
  | malformedDocument
  | file (fault : FileFault)
deriving DecidableEq

namespace Error

def message : Error → String
  | unresolvedType cause => "Unresolved type: " ++ cause.message
  | depthExceeded depth limit =>
    "Max depth exceeded: path has " ++ decimal depth ++ " steps, limit is " ++ decimal limit
  | variableNotFound contract name =>
    "Variable '" ++ name ++ "' not found in contract '" ++ contract ++ "'"
  | contractNotFound name => "Contract not found: " ++ name
  | transport fault => "Transport failure: " ++ fault.message
  | missingEndpoint => "Missing endpoint: value retrieval requires an RPC URL"
  | proxyWithoutLayout => "Inconsistent proxy configuration: " ++
      "a storage address was given but no logic-contract layout was resolved"
  | invalidPath fault => "Invalid access path: " ++ fault.message
  | invalidKey fault => "Invalid key: " ++ fault.message
  | conflict fault => "Conflicting record for " ++ fault.message
  | invalidModel fault => "Invalid contract model: " ++ fault.message
  | malformedDocument => "Serialization error"
  | file fault => "IO error: " ++ fault.message

/-- Whether the same attempt may succeed when it is made again. -/
def isTransient : Error → Bool
  | transport _ => true
  | _ => false

end Error

end StorageAtlas
