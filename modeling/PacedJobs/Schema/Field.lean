import PacedJobs.Job.Id
import PacedJobs.Json.Fault

/-!
# Fields of a record

A field has a name, a kind of value and perhaps a default. Records are read from members in any
order, where a name that is no field is passed over and a field may not come twice, or from
elements in the order of the fields. `Slots` holds what has been read so far, `Record` a value for
every field.
-/

namespace PacedJobs

namespace Kind

/-- What is read where an unsigned integer below `2 ^ bits` is expected. -/
def readUnsigned (bits : Nat) (name : String) (v : Json) : Except Json.Mismatch Nat :=
  match v with
  | .integer n =>
    if 0 ≤ n ∧ n < Int.pow 2 bits then .ok n.toNat else .error (.range v.shape name)
  | v => .error (.shape v.shape name)

def readId (v : Json) : Except Json.Mismatch JobId :=
  (readUnsigned 64 "u64" v).map fun n => ⟨UInt64.ofNat n⟩

def readText (v : Json) : Except Json.Mismatch String :=
  match v with
  | .string s => .ok s
  | v => .error (.shape v.shape "a string")

end Kind

inductive Kind where
  | word16
  | word32
  | size
  | id
  | ids
  | flag
  | text
  | payload
  | optionalText
  | optionalPayload
deriving DecidableEq, Repr

namespace Kind

abbrev Carrier : Kind → Type
  | word16 => UInt16
  | word32 => UInt32
  | size => UInt64
  | id => JobId
  | ids => List JobId
  | flag => Bool
  | text => String
  | payload => Json
  | optionalText => Option String
  | optionalPayload => Option Json

/-- Reads a value of a kind. What is optional may be null, which counts as absent. -/
def read : (k : Kind) → Json → Except Json.Mismatch k.Carrier
  | word16, v => (readUnsigned 16 "u16" v).map UInt16.ofNat
  | word32, v => (readUnsigned 32 "u32" v).map UInt32.ofNat
  | size, v => (readUnsigned 64 "usize" v).map UInt64.ofNat
  | id, v => readId v
  | ids, .array vs => vs.mapM readId
  | ids, v => .error (.shape v.shape "a sequence")
  | flag, .bool b => .ok b
  | flag, v => .error (.shape v.shape "a boolean")
  | text, v => readText v
  | payload, v => .ok v.sorted
  | optionalText, .null => .ok none
  | optionalText, v => (readText v).map some
  | optionalPayload, .null => .ok none
  | optionalPayload, v => .ok (some v.sorted)

end Kind

structure Field where
  name : String
  kind : Kind
  default : Option kind.Carrier

def Record : List Field → Type
  | [] => Unit
  | f :: fs => f.kind.Carrier × Record fs

def Slots : List Field → Type
  | [] => Unit
  | f :: fs => Option f.kind.Carrier × Slots fs

namespace Slots

def empty : (fs : List Field) → Slots fs
  | [] => ()
  | _ :: fs => (none, empty fs)

/-- Puts the value of a member into the slot of its name, if there is one. -/
def put (k : String) (v : Json) : (fs : List Field) → Slots fs → Except Json.Mismatch (Slots fs)
  | [], () => .ok ()
  | f :: fs, (slot, slots) =>
    if k = f.name then
      match slot with
      | some _ => .error (.duplicateField k)
      | none => (f.kind.read v).map fun x => (some x, slots)
    else (put k v fs slots).map fun slots => (slot, slots)

/-- The record of the slots, with the defaults of fields that are missing. -/
def complete : (fs : List Field) → Slots fs → Except Json.Mismatch (Record fs)
  | [], () => .ok ()
  | f :: fs, (slot, slots) => do
    match slot <|> f.default with
    | some x => return (x, ← complete fs slots)
    | none => throw (.missingField f.name)

end Slots

namespace Record

def ofMembers (fs : List Field) (members : List (String × Json)) :
    Except Json.Mismatch (Record fs) := do
  let slots ← members.foldlM (fun slots m => Slots.put m.1 m.2 fs slots) (Slots.empty fs)
  slots.complete fs

/-- Reads values for the fields from the elements, and gives the elements left over. `count` is
the number of elements read before. -/
def ofLeading (expected : String) (count : Nat) :
    (fs : List Field) → List Json → Except Json.Mismatch (Record fs × List Json)
  | [], vs => .ok ((), vs)
  | f :: fs, v :: vs => do
    let x ← f.kind.read v
    let (r, rest) ← ofLeading expected (count + 1) fs vs
    return ((x, r), rest)
  | f :: fs, [] => do
    match f.default with
    | some x =>
      let (r, rest) ← ofLeading expected (count + 1) fs []
      return ((x, r), rest)
    | none => throw (.length count expected)

def elementsText (n : Nat) : String :=
  if n = 1 then "1 element" else toString n ++ " elements"

/-- Reads a record from elements. `owner` names what the record belongs to. -/
def ofItems (owner : String) (fs : List Field) (items : List Json) :
    Except Json.Mismatch (Record fs) := do
  let elements := elementsText fs.length
  let (r, rest) ← ofLeading ("struct variant " ++ owner ++ " with " ++ elements) 0 fs items
  if rest.isEmpty then return r
  else throw (.length items.length (elements ++ " in sequence"))

end Record
end PacedJobs
