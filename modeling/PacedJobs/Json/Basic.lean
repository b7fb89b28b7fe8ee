import PacedJobs.Decimal.Double

/-!
# JSON values

One type serves for documents as they are read, with their members in the order of the text and
keys that may repeat, and for values whose members are in order. `sorted` takes the first to the
second. A number is an integer or a double, and the two never count as the same.
-/

namespace PacedJobs

inductive Json where
  | null
  | bool (b : Bool)
  | integer (n : Int)
  | double (x : Double)
  | string (s : String)
  | array (items : List Json)
  | object (members : List (String × Json))
deriving Inhabited, Repr

namespace Json

mutual

/-- Compares values by a relation on their doubles. -/
def equalBy (r : Double → Double → Bool) : Json → Json → Bool
  | .null, .null => true
  | .bool a, .bool b => a == b
  | .integer a, .integer b => a == b
  | .double a, .double b => r a b
  | .string a, .string b => a == b
  | .array as, .array bs => equalItemsBy r as bs
  | .object as, .object bs => equalMembersBy r as bs
  | _, _ => false

def equalItemsBy (r : Double → Double → Bool) : List Json → List Json → Bool
  | [], [] => true
  | a :: as, b :: bs => equalBy r a b && equalItemsBy r as bs
  | _, _ => false

def equalMembersBy (r : Double → Double → Bool) :
    List (String × Json) → List (String × Json) → Bool
  | [], [] => true
  | (k, a) :: as, (l, b) :: bs => k == l && equalBy r a b && equalMembersBy r as bs
  | _, _ => false

end

mutual

theorem equalBy_beq_iff : ∀ {a b : Json}, equalBy (· == ·) a b = true ↔ a = b
  | .null, b | .bool _, b | .integer _, b | .double _, b | .string _, b => by
    cases b <;> simp [equalBy]
  | .array as, b => by cases b <;> simp [equalBy, equalItemsBy_beq_iff]
  | .object as, b => by cases b <;> simp [equalBy, equalMembersBy_beq_iff]

theorem equalItemsBy_beq_iff : ∀ {as bs : List Json}, equalItemsBy (· == ·) as bs = true ↔ as = bs
  | [], bs => by cases bs <;> simp [equalItemsBy]
  | a :: as, bs => by cases bs <;> simp [equalItemsBy, equalBy_beq_iff, equalItemsBy_beq_iff]

theorem equalMembersBy_beq_iff : ∀ {as bs : List (String × Json)},
    equalMembersBy (· == ·) as bs = true ↔ as = bs
  | [], bs => by cases bs <;> simp [equalMembersBy]
  | (k, a) :: as, bs => by
    cases bs <;> simp [equalMembersBy, equalBy_beq_iff, equalMembersBy_beq_iff, Prod.ext_iff]

end

instance : DecidableEq Json := fun _ _ => decidable_of_iff _ equalBy_beq_iff

/-- Equality of values, in which the two zeros among the doubles are one. -/
def same (a b : Json) : Bool :=
  equalBy Double.same a b

/-- Adds a member at its place among members with ascending keys, unless its key is there. -/
def insertIfAbsent (k : String) (v : Json) : List (String × Json) → List (String × Json)
  | [] => [(k, v)]
  | (l, w) :: ms =>
    if k < l then (k, v) :: (l, w) :: ms
    else if k = l then (l, w) :: ms
    else (l, w) :: insertIfAbsent k v ms

mutual

/-- The same value with ascending keys. Of several members with one key the last stays. -/
def sorted : Json → Json
  | .array items => .array (sortedItems items)
  | .object members => .object (sortedMembers members)
  | v => v

def sortedItems : List Json → List Json
  | [] => []
  | v :: vs => v.sorted :: sortedItems vs

def sortedMembers : List (String × Json) → List (String × Json)
  | [] => []
  | (k, v) :: ms => insertIfAbsent k v.sorted (sortedMembers ms)

end

def member? (v : Json) (k : String) : Option Json :=
  match v with
  | .object members => (members.find? (·.1 == k)).map (·.2)
  | _ => none

def text? : Json → Option String
  | .string s => some s
  | _ => none

end Json
end PacedJobs
