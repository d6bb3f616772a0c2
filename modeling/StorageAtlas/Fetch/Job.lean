import StorageAtlas.Decode
import StorageAtlas.Fetch.Reading
import StorageAtlas.Record

/-!
# Read jobs

A job reads the words of one record, and settles with them that record and those that lie within
its slots. Byte strings that lie elsewhere cost one more read. Every record that a job settles gets
one outcome.
-/

namespace StorageAtlas

/-- A record that waits for its value. -/
structure Pending where
  key : RecordKey
  location : Location
  type : Ty
  /-- How many slots it takes. -/
  slots : Nat
deriving DecidableEq

/-- What became of a record. -/
inductive Outcome
  | decoded (raw : Bytes) (value : Option Value) (wordsRead : Nat)
  | incomplete (raw : Bytes) (reason : String) (wordsRead : Nat)
  | unresolved (reason : String)
  | failed (reason : String)
deriving DecidableEq

/-- A record and what became of it. -/
abbrev Settled := RecordKey × Outcome

/-- The bytes of words, one word after the other. -/
def wordBytes (words : List Word) : Bytes := words.flatMap Word.toBytes

namespace Outcome

/-- An error while decoding: the type cannot be decoded, or the reading went wrong. -/
def ofError (e : Error) : Outcome :=
  match e with
  | .unresolvedType _ => unresolved e.message
  | _ => failed e.message

end Outcome

namespace Pending

/-- Whether another record lies within the slots of this one. -/
def contains (p q : Pending) : Bool :=
  p.location.slot ≤ q.location.slot &&
    q.location.slot.toNat - p.location.slot.toNat + q.slots ≤ p.slots

/-- The slots of a record. -/
def slotList (p : Pending) : List Word := Word.consecutive p.location.slot p.slots

/-- Told of a byte string that is too long to be read. -/
def tooLong (length : Word) (limit : Nat) : String :=
  "long-form data of " ++ Word.text length ++ " bytes exceeds the limit of " ++ Text.decimal limit

/-- Reads a byte string of `length` bytes that lies elsewhere. -/
def settleLong (p : Pending) (config : ReaderConfig) (address : Address) (words : List Word)
    (headWords : Nat) (length : Word) : Reading Outcome :=
  if config.maxDynamicBytes < length.toNat then
    .done (.incomplete (wordBytes words) (tooLong length config.maxDynamicBytes) headWords)
  else
    (Reading.words config address (longSlots p.location.slot length.toNat)).map fun
      | .error e => .failed e.message
      | .ok data =>
        let bs := (wordBytes data).take length.toNat
        .decoded (wordBytes words ++ bs) (some (bytesValue p.type bs)) (headWords + data.length)

/-- Settles a record with its words, of which `headWords` were read for it. -/
def settle (p : Pending) (config : ReaderConfig) (address : Address) (words : List Word)
    (headWords : Nat) : Reading Outcome :=
  match decode p.type words p.location.offset.toNat with
  | .error e => .done (.ofError e)
  | .ok value =>
    let isByteString := match p.type.stored with
      | .bytes | .string => true
      | _ => false
    if value.isSome || !isByteString then .done (.decoded (wordBytes words) value headWords)
    else match words with
      | [] => .done (.failed TransportFault.noWord.message)
      | head :: _ =>
        match classifyBytes head with
        | .error e => .done (.unresolved e.message)
        | .ok (.short bs) =>
          .done (.decoded (wordBytes words) (some (bytesValue p.type bs)) headWords)
        | .ok (.long length) => p.settleLong config address words headWords length

variable {p : Pending} {config : ReaderConfig} {address : Address} {head : Word} {rest : List Word}
  {headWords : Nat}

/-- A byte string is decoded from its head word alone. -/
theorem decode_byteString {t : Ty} (h : t.stored = .bytes ∨ t.stored = .string) (offset : Nat) :
    decode t (head :: rest) offset = match classifyBytes head with
      | .ok (.short bs) => .ok (some (bytesValue t bs))
      | .ok (.long _) => .ok none
      | .error e => .error e := by
  rcases h with h | h <;> simp only [decode, Ty.isComposite, decodeSimple, h] <;> rfl

theorem settle_byteString (h : p.type.stored = .bytes ∨ p.type.stored = .string) :
    p.settle config address (head :: rest) headWords = match classifyBytes head with
      | .ok (.short bs) =>
        .done (.decoded (wordBytes (head :: rest)) (some (bytesValue p.type bs)) headWords)
      | .ok (.long length) => p.settleLong config address (head :: rest) headWords length
      | .error e => .done (.ofError e) := by
  rw [settle, decode_byteString h]
  cases hform : classifyBytes head with
  | error e => rfl
  | ok form =>
    cases form with
    | short bs => rfl
    | long length => rcases h with h | h <;> simp only [h] <;> rfl

theorem settle_other (h : ¬(p.type.stored = .bytes ∨ p.type.stored = .string)) {words : List Word} :
    p.settle config address words headWords =
      match decode p.type words p.location.offset.toNat with
      | .ok value => .done (.decoded (wordBytes words) value headWords)
      | .error e => .done (.ofError e) := by
  unfold settle
  cases decode p.type words p.location.offset.toNat with
  | error e => rfl
  | ok value =>
    simp only
    split
    · next hs => exact absurd (.inl hs) h
    · next hs => exact absurd (.inr hs) h
    · rw [Bool.not_false, Bool.or_true, if_pos rfl]

/-- **To settle a record** takes no further read, or that of a long byte string. How many words were
read for it is counted, and matters for nothing else. -/
theorem exists_settle_eq (p : Pending) (config : ReaderConfig) (address : Address)
    (words : List Word) :
    (∃ raw value, ∀ headWords,
      p.settle config address words headWords = .done (.decoded raw value headWords)) ∨
    (∃ o, ∀ headWords, p.settle config address words headWords = .done o) ∨
    ∃ length, ∀ headWords, p.settle config address words headWords =
      p.settleLong config address words headWords length := by
  by_cases h : p.type.stored = .bytes ∨ p.type.stored = .string
  · cases words with
    | nil => exact .inr (.inl ⟨.ofError (.transport .noWord), fun _ => rfl⟩)
    | cons head rest =>
      simp only [settle_byteString h]
      cases classifyBytes head with
      | error e => exact .inr (.inl ⟨_, fun _ => rfl⟩)
      | ok form =>
        cases form with
        | short bs => exact .inl ⟨_, _, fun _ => rfl⟩
        | long length => exact .inr (.inr ⟨length, fun _ => rfl⟩)
  · simp only [settle_other h]
    cases decode p.type words p.location.offset.toNat with
    | error e => exact .inr (.inl ⟨_, fun _ => rfl⟩)
    | ok value => exact .inl ⟨_, _, fun _ => rfl⟩

end Pending

/-- A record that is read, and those within its slots. -/
structure Job where
  reader : Pending
  covered : List Pending
deriving DecidableEq

namespace Job

/-- Told of a record that was to be settled with words that do not hold it. -/
def outside (member reader : RecordKey) : String :=
  member.text ++ " lies outside the slots read for " ++ reader.text

/-- Settles a covered record with the words of the reader. -/
def settleMember (j : Job) (config : ReaderConfig) (address : Address) (words : List Word)
    (m : Pending) : Reading Settled :=
  let start := (m.location.slot - j.reader.location.slot).toNat
  if start + m.slots ≤ words.length then
    (m.settle config address ((words.drop start).take m.slots) 0).map fun o => (m.key, o)
  else .done (m.key, .failed (outside m.key j.reader.key))

/-- Settles covered records in order. -/
def settleMembers (j : Job) (config : ReaderConfig) (address : Address) (words : List Word) :
    List Pending → Reading (List Settled)
  | [] => .done []
  | m :: rest =>
    (j.settleMember config address words m).bind fun settled =>
      (j.settleMembers config address words rest).map (settled :: ·)

/-- All records of a job after the read has failed. -/
def allFailed (j : Job) (reason : String) : List Settled :=
  (j.reader :: j.covered).map fun p => (p.key, .failed reason)

/-- Reads the words of a job and settles its records. -/
def run (j : Job) (config : ReaderConfig) (address : Address) : Reading (List Settled) :=
  (Reading.words config address j.reader.slotList).bind fun
    | .error e => .done (j.allFailed e.message)
    | .ok words =>
      (j.reader.settle config address words words.length).bind fun o =>
        (j.settleMembers config address words j.covered).map ((j.reader.key, o) :: ·)

end Job

end StorageAtlas
