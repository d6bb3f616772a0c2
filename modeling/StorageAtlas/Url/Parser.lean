import StorageAtlas.Url
import StorageAtlas.Url.Domain
import StorageAtlas.Url.Percent

/-!
# Reading URLs

Blanks around a URL do not count, and tabs and line breaks nowhere in it. For the schemes that are
known a backslash is a slash and a host has to be there, any number of slashes before it; for `file`
the host may be left out, and a path may start with a drive. Any other scheme has a host behind two
slashes only, which is taken as it is. Dots in a path lead to the place they stand for.
-/

namespace StorageAtlas.Url

open Text

/-! ## Schemes -/

/-- The schemes that are known, with their ports. -/
def knownPorts : List (String × Option Nat) :=
  [("http", some 80), ("https", some 443), ("ws", some 80), ("wss", some 443), ("ftp", some 21),
    ("file", none)]

def isKnown (scheme : String) : Bool := (knownPorts.lookup scheme).isSome

/-- Splits off the scheme before the first colon. -/
def readScheme? (cs : List Char) : Option (String × List Char) :=
  let scheme := cs.takeWhile (· != ':')
  let isScheme := match scheme with
    | [] => false
    | c :: rest => c.isAlpha && rest.all fun c => c.isAlphanum || c == '+' || c == '-' || c == '.'
  match cs.dropWhile (· != ':') with
  | _ :: rest => if isScheme then some (String.ofList (scheme.map Char.toLower), rest) else none
  | [] => none

/-- Whether a character parts a path. -/
def isSlash (known : Bool) (c : Char) : Bool := c == '/' || (known && c == '\\')

/-! ## Credentials, host and port -/

/-- Who asks: a name, and a password behind the first colon, unless it is empty. -/
def readCredentials (cs : List Char) : String × Option String :=
  let encoded (cs : List Char) : String := String.ofList (percentEncode inUserSet cs)
  match cs.dropWhile (· != ':') with
  | _ :: c :: rest => (encoded (cs.takeWhile (· != ':')), some (encoded (c :: rest)))
  | _ => (encoded (cs.takeWhile (· != ':')), none)

/-- What stands before and behind the last `@`. -/
def cutAtLastAt (cs : List Char) : Option (List Char) × List Char :=
  let behind := (cs.reverse.takeWhile (· != '@')).reverse
  if behind.length < cs.length then (some (cs.take (cs.length - behind.length - 1)), behind)
  else (none, cs)

/-- How many characters stand before the first colon that is not between brackets. -/
def hostLength (inside : Bool) : List Char → Nat
  | [] => 0
  | c :: rest =>
    if c = ':' && !inside then 0
    else 1 + hostLength (if c = '[' then true else if c = ']' then false else inside) rest

/-- A number between brackets. -/
def bracketed? (cs : List Char) : Option Host :=
  match cs, cs.getLast? with
  | '[' :: rest, some ']' => (readV6? rest.dropLast).map Host.v6
  | _, _ => none

/-- The host of a scheme that is known: a number, or a domain name. -/
def knownHost? (cs : List Char) : Option Host :=
  if cs.head? = some '[' then bracketed? cs
  else match (percentDecodeText? cs).bind Domain.toAscii? with
    | none | some [] => none
    | some name =>
      if endsInNumber name then (readV4? name).map Host.v4
      else some (.name (String.ofList name))

/-- Whether a host cannot hold a character, whatever the scheme. -/
def isHostDelimiter (c : Char) : Bool := c.toNat == 0 || " #/:<>?@[\\]^|".toList.contains c

/-- The host of any other scheme, which may be empty. -/
def otherHost? (cs : List Char) : Option Host :=
  if cs.head? = some '[' then bracketed? cs
  else if cs.any isHostDelimiter then none
  else some (.name (String.ofList (percentEncode isControl cs)))

/-- Reads a port below 65536; none if there are no digits. -/
def readPort? (cs : List Char) : Option (Option Nat) :=
  if cs.isEmpty then some none
  else match readInteger 10 65536 ('0' :: cs) with
    | .ok n => some (some n)
    | .error _ => none

/-! ## Paths -/

/-- Whether a name leads nowhere. -/
def isSingleDot (name : String) : Bool := [".", "%2e"].contains name.toLower

/-- Whether a name leads one up. -/
def isDoubleDot (name : String) : Bool :=
  ["..", ".%2e", "%2e.", "%2e%2e"].contains name.toLower

/-- Whether a name starts with a drive, and nothing but a backslash follows. -/
def startsWithDrive (name : String) : Bool :=
  match name.toList with
  | letter :: mark :: rest =>
    letter.isAlpha && (mark == ':' || mark == '|') && (rest.isEmpty || rest.head? == some '\\')
  | _ => false

/-- Whether a name is a drive: a letter and its mark. -/
def isDrive (name : String) : Bool := startsWithDrive name && name.length == 2

/-- How far a path leads. -/
structure Walk where
  /-- The names so far, last first. -/
  names : List String := []
  /-- Whether the path was found to start with a drive. -/
  onDrive : Bool := false

namespace Walk

/-- One up; a drive is not left. -/
def up (w : Walk) : Walk :=
  match w.names with
  | [] => w
  | name :: rest => if startsWithDrive name then w else { w with names := rest }

/-- Goes on to a name. A drive that a file starts with is written with a colon. -/
def step (isFile : Bool) (w : Walk) (name : String) : Walk :=
  if isDoubleDot name then w.up
  else if isSingleDot name then w
  else if isFile && w.names.isEmpty && isDrive name then
    ⟨[String.ofList (name.toList.take 1 ++ [':'])], true⟩
  else { w with names := name :: w.names }

/-- Goes on to the last name; a path that ends in dots ends in a slash. -/
def finish (isFile : Bool) (w : Walk) (name : String) : Walk :=
  let w := w.step isFile name
  if isDoubleDot name || isSingleDot name then { w with names := "" :: w.names } else w

/-- Goes along some names. -/
def along (isFile : Bool) (w : Walk) : List String → Walk
  | [] => w
  | [name] => w.finish isFile name
  | name :: rest => (w.step isFile name).along isFile rest

end Walk

/-- Goes along the path behind a slash. -/
def walk (isFile known : Bool) (cs : List Char) : Walk :=
  Walk.along isFile {} ((cs.splitOnP (isSlash known)).map fun part =>
    String.ofList (percentEncode inPathSet part))

/-- The names of a path behind the host of a scheme that is known; a slash is always there. -/
def knownNames (cs : List Char) : List String := (walk false true cs.tail).names.reverse

/-- The names of a path behind any other host. -/
def otherNames (cs : List Char) : List String :=
  match cs with
  | [] => []
  | '/' :: rest => (walk false false rest).names.reverse
  | rest => (walk false false rest).names.reverse

/-- Names without empty ones in front; an empty one is left if there is no other. -/
def dropEmptyNames (names : List String) : List String :=
  match names.dropWhile (·.isEmpty) with
  | [] => [""]
  | rest => rest

/-! ## URLs -/

/-- A URL with an authority, which ends before `path`. Nothing else follows if `isEnd`. -/
def readAuthority? (scheme : String) (cs path : List Char) (isEnd : Bool) : Option Url :=
  let known := isKnown scheme
  let (credentials, cs) := cutAtLastAt cs
  let length := hostLength false cs
  let afterHost := cs.drop length
  let port := afterHost.tail.takeWhile (· != '\\')
  let path := afterHost.tail.dropWhile (· != '\\') ++ path
  let (user, password) := readCredentials (credentials.getD [])
  let isStray := credentials = some [] && cs.isEmpty && !isEnd
  let host? := if known then knownHost? (cs.take length) else otherHost? (cs.take length)
  match host?, readPort? port with
  | some host, some port =>
    let isNameless := length = 0 && (!afterHost.isEmpty || !user.isEmpty || password.isSome)
    if isStray || isNameless then none
    else some {
      scheme, user, password
      host := some host
      port := port.filter fun n => knownPorts.lookup scheme != some (some n)
      path := .names (if known then knownNames path else otherNames path) }
  | _, _ => none

/-- A URL of a file. -/
def readFile? (cs : List Char) : Option Url :=
  let url (host : Host) (w : Walk) : Url :=
    { scheme := "file", host := some host, path := .names (dropEmptyNames w.names.reverse) }
  let nowhere : Host := .name ""
  match cs with
  | a :: b :: rest =>
    if isSlash true a && isSlash true b then
      let name := rest.takeWhile (!isSlash true ·)
      let behind := rest.dropWhile (!isSlash true ·)
      if isDrive (String.ofList name) then some (url nowhere (walk true true rest))
      else if name.isEmpty then some (url nowhere (walk true true behind.tail))
      else match knownHost? name with
        | none => none
        | some host =>
          let w := walk true true behind.tail
          some (url (if w.onDrive || host = .name "localhost" then nowhere else host) w)
    else some (url nowhere (walk true true (if isSlash true a then b :: rest else cs)))
  | [a] => some (url nowhere (walk true true (if isSlash true a then [] else [a])))
  | [] => some (url nowhere (walk true true []))

/-- A URL without its query and fragment, of which there are none if `isEnd`. -/
def readHierarchy? (scheme : String) (cs : List Char) (isEnd : Bool) : Option Url :=
  let known := isKnown scheme
  let authority? (cs : List Char) : Option Url :=
    let path := cs.dropWhile (!isSlash known ·)
    readAuthority? scheme (cs.takeWhile (!isSlash known ·)) path (isEnd && path.isEmpty)
  if scheme = "file" then readFile? cs
  else if known then authority? (cs.dropWhile (isSlash true))
  else match cs with
    | '/' :: '/' :: rest => authority? rest
    | '/' :: rest => some { scheme, path := .names (walk false false rest).names.reverse }
    | _ => some { scheme, path := .plain (String.ofList (percentEncode isControl cs)) }

/-- Splits at the first of a character; the second part is there if the character is. -/
def cutAt (mark : Char) (cs : List Char) : List Char × Option (List Char) :=
  match cs.dropWhile (· != mark) with
  | [] => (cs, none)
  | _ :: behind => (cs.takeWhile (· != mark), some behind)

/-- A text without blanks around it, and without tabs and line breaks. -/
def cleaned (cs : List Char) : List Char :=
  let isAround (c : Char) : Bool := c.toNat ≤ 32
  ((cs.dropWhile isAround).reverse.dropWhile isAround).reverse.filter
    fun c => c != '\t' && c != '\n' && c != '\r'

/-- Reads a URL. -/
def parse (text : String) : Option Url :=
  match readScheme? (cleaned text.toList) with
  | none => none
  | some (scheme, cs) =>
    let (cs, fragment) := cutAt '#' cs
    let (cs, query) := cutAt '?' cs
    let querySet := if isKnown scheme then inSpecialQuerySet else inQuerySet
    (readHierarchy? scheme cs (fragment.isNone && query.isNone)).map fun u =>
      { u with
        query := query.map fun q => String.ofList (percentEncode querySet q)
        fragment := fragment.map fun f => String.ofList (percentEncode inFragmentSet f) }

end StorageAtlas.Url
