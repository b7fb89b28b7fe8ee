import Mathlib.Data.List.Basic
import Mathlib.Order.Lattice
import PacedJobs.Json.Reader
import PacedJobs.Proofs.Decimal.Rounding

/-!
# The grammar of documents

Which texts denote which values, by the grammar alone and without a reader. A text may spell a
character in several ways and set any white space between tokens, so a value has many texts. A
number without a fraction and an exponent denotes an integer if that fits 64 bits, a sign counted
in; every other number denotes a double, and one that is too large for a double denotes nothing.

Which double is a parameter of the grammar. The nearest one is what a number means by itself. What
readers agree on is a double that is rounded in steps, from the digits in front that fit 64 bits.
-/

namespace PacedJobs
namespace Json

def White (s : List Char) : Prop :=
  ∀ c ∈ s, Reader.isSpace c = true

theorem white_nil : White [] :=
  List.forall_mem_nil _

/-- The letters that a backslash may stand before, and what they stand for then. -/
def shortEscapes : List (Char × Char) :=
  [('"', '"'), ('\\', '\\'), ('/', '/'), ('b', '\x08'), ('f', '\x0c'), ('n', '\n'), ('r', '\r'),
    ('t', '\t')]

/-- The spellings of a character in a string. -/
inductive Spelled : List Char → Char → Prop
  | plain {c : Char} : 0x20 ≤ c.toNat → c ≠ '"' → c ≠ '\\' → Spelled [c] c
  | short {e c : Char} : (e, c) ∈ shortEscapes → Spelled ['\\', e] c
  | code {hs : List Char} {n : Nat} : Escaped.hexValue? hs = some n →
      Escaped.isLeading n = false → Escaped.isTrailing n = false →
      Spelled ('\\' :: 'u' :: hs) (Char.ofNat n)
  /-- A character above the basic plane as two surrogates. -/
  | pair {hs hs' : List Char} {n m : Nat} : Escaped.hexValue? hs = some n →
      Escaped.hexValue? hs' = some m → Escaped.isLeading n = true → Escaped.isTrailing m = true →
      Spelled ('\\' :: 'u' :: hs ++ '\\' :: 'u' :: hs')
        (Char.ofNat ((n - 0xD800) * 0x400 + (m - 0xDC00) + 0x10000))

/-- A string between its quotation marks. -/
inductive Quoted : List Char → String → Prop
  | mk {ts : List (List Char)} {cs : List Char} : List.Forall₂ Spelled ts cs →
      Quoted ('"' :: ts.flatten ++ ['"']) (String.ofList cs)

/-- The integers that documents hold. -/
def Fits (n : Int) : Prop :=
  -Int.pow 2 63 ≤ n ∧ n < Int.pow 2 64

theorem fits_iff {n : Int} :
    Fits n ↔ -9223372036854775808 ≤ n ∧ n < 18446744073709551616 :=
  Iff.rfl

namespace Literal

/-- At least one digit. -/
def Run (ds : List Char) : Prop :=
  ds ≠ [] ∧ ∀ c ∈ ds, Digits.isDigit c = true

/-- A zero begins no other whole part than itself. -/
def Whole (ds : List Char) : Prop :=
  Run ds ∧ (ds.head? = some '0' → ds = ['0'])

inductive FractionText : List Char → List Char → Prop
  | absent : FractionText [] []
  | present {ds : List Char} : Run ds → FractionText ds ('.' :: ds)

inductive SignText : Bool → List Char → Prop
  | absent : SignText false []
  | plus : SignText false ['+']
  | minus : SignText true ['-']

inductive ExponentText : Option (Bool × List Char) → List Char → Prop
  | absent : ExponentText none []
  | present {e : Char} {negative : Bool} {sign ds : List Char} : e = 'e' ∨ e = 'E' →
      SignText negative sign → Run ds → ExponentText (some (negative, ds)) (e :: sign ++ ds)

/-- The texts of a literal. -/
inductive Written : Literal → List Char → Prop
  | mk {l : Literal} {fraction exponent : List Char} : Whole l.whole →
      FractionText l.fraction fraction → ExponentText l.exponent exponent →
      Written l ((if l.negative then ['-'] else []) ++ l.whole ++ fraction ++ exponent)

/-- The integer that a literal denotes. The literal `-0` denotes none. -/
structure Integral (l : Literal) (n : Int) : Prop where
  fraction_eq : l.fraction = []
  exponent_eq : l.exponent = none
  value_eq : n = if l.negative then -(Digits.value l.whole : Int) else Digits.value l.whole
  signed : l.negative = true → n < 0
  fits : Fits n

/-- The number that a literal states. -/
def exact (l : Literal) : ℚ :=
  Digits.value (l.whole ++ l.fraction) * 10 ^ (l.stated - l.fraction.length)

def Nearest (l : Literal) (m : Magnitude) : Prop :=
  Magnitude.Nearest l.exact m

/-- Digits that fit 64 bits, where the next one no longer fits with them. -/
def Fills (kept rest : List Char) : Prop :=
  Digits.value kept < Nat.pow 2 64 ∧
    ∀ c ∈ rest.head?, Nat.pow 2 64 ≤ Digits.value (kept ++ [c])

/-- The double that the digits in front round to in steps. Digits of the whole part that do not fit
still count as places; those of the fraction are dropped. -/
inductive Rounded (l : Literal) (m : Magnitude) : Prop
  | mk {kept excess taken dropped : List Char} : l.whole = kept ++ excess → Fills kept excess →
      l.fraction = taken ++ dropped → Fills (kept ++ taken) dropped →
      Magnitude.Scaled (Digits.value (kept ++ taken)) (l.stated + excess.length - taken.length) m →
      Rounded l m

/-- The numbers that literals denote, if these are their doubles. -/
inductive DenotesBy (D : Literal → Magnitude → Prop) (l : Literal) : Json → Prop
  | integer {n : Int} : l.Integral n → DenotesBy D l (.integer n)
  | double {m : Magnitude} : (∀ n, ¬ l.Integral n) → D l m →
      DenotesBy D l (.double ⟨l.negative, m⟩)

abbrev Denotes : Literal → Json → Prop :=
  DenotesBy Rounded

end Literal

section

variable {α : Type} (R : List Char → α → Prop)

/-- A text with white space on both sides. -/
inductive Padded : List Char → α → Prop
  | mk {w t w' : List Char} {x : α} : White w → R t x → White w' → Padded (w ++ t ++ w') x

/-- What stands between two brackets: white space, or texts with commas between them. -/
inductive Series : List Char → List α → Prop
  | none {w : List Char} : White w → Series w []
  | some {t : List Char} {ts : List (List Char)} {x : α} {xs : List α} : Padded R t x →
      List.Forall₂ (Padded R) ts xs → Series (t ++ ts.flatMap (',' :: ·)) (x :: xs)

/-- A key and a value with a colon between them. -/
inductive Paired : List Char → String × α → Prop
  | mk {key w w' t : List Char} {k : String} {x : α} : Quoted key k → White w → White w' → R t x →
      Paired (key ++ w ++ ':' :: w' ++ t) (k, x)

end

/-- The values that texts denote, without white space around the text. -/
inductive DenotesBy (D : Literal → Magnitude → Prop) : List Char → Json → Prop
  | null : DenotesBy D "null".toList null
  | bool (b : Bool) : DenotesBy D (if b then "true" else "false").toList (bool b)
  | number {l : Literal} {t : List Char} {v : Json} : l.Written t → l.DenotesBy D v →
      DenotesBy D t v
  | string {t : List Char} {s : String} : Quoted t s → DenotesBy D t (string s)
  | array {t : List Char} {vs : List Json} : Series (DenotesBy D) t vs →
      DenotesBy D ('[' :: t ++ [']']) (array vs)
  | object {t : List Char} {ms : List (String × Json)} : Series (Paired (DenotesBy D)) t ms →
      DenotesBy D ('\x7b' :: t ++ ['\x7d']) (object ms)

abbrev Denotes : List Char → Json → Prop :=
  DenotesBy Literal.Rounded

mutual

/-- The number of brackets that are open at once in the texts of a value. -/
def depth : Json → Nat
  | .array vs => itemsDepth vs + 1
  | .object ms => membersDepth ms + 1
  | _ => 0

def itemsDepth : List Json → Nat
  | [] => 0
  | v :: vs => max v.depth (itemsDepth vs)

def membersDepth : List (String × Json) → Nat
  | [] => 0
  | (_, v) :: ms => max v.depth (membersDepth ms)

end

/-- A whole text of a value. -/
def IsTextBy (D : Literal → Magnitude → Prop) (text : List Char) (v : Json) : Prop :=
  Padded (DenotesBy D) text v

abbrev IsText : List Char → Json → Prop :=
  IsTextBy Literal.Rounded

theorem itemsDepth_le_iff {vs : List Json} {d : Nat} :
    itemsDepth vs ≤ d ↔ ∀ v ∈ vs, v.depth ≤ d := by
  induction vs with
  | nil => simp [itemsDepth]
  | cons v vs ih => simp [itemsDepth, ih]

theorem membersDepth_le_iff {ms : List (String × Json)} {d : Nat} :
    membersDepth ms ≤ d ↔ ∀ m ∈ ms, m.2.depth ≤ d := by
  induction ms with
  | nil => simp [membersDepth]
  | cons m ms ih => simp [membersDepth, ih]

end Json
end PacedJobs
