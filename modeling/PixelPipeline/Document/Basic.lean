import PixelPipeline.Power
import PixelPipeline.Text.Named

/-!
# Documents

Configuration is exchanged as documents: trees of records, lists, texts,
numbers and switches.  A type that can be exchanged says how it is read and
written.  Records may have further fields, absent fields are `null`, and a
record may also be written as the list of its fields in order.  Where every
field has a default, a list may stop early.
-/

namespace PixelPipeline

/-- A configuration tree. -/
inductive Document where
  | null
  | switch (value : Bool)
  | number (value : Int)
  /-- A number that is not written as an integer. -/
  | fraction
  | text (value : String)
  | list (items : List Document)
  | record (fields : List (String × Document))

namespace Document

instance : Inhabited Document := ⟨null⟩

/-- The characters that numerals consist of. -/
def inNumeral (c : Char) : Bool := c.isDigit || ['+', '-', '.', 'e', 'E'].contains c

/-- Whether a numeral writes an integer.  A point or an exponent makes it a
fraction whatever its value, and so does the sign of a negative zero. -/
def isInteger (numeral : List Char) : Bool :=
  numeral != ['-', '0'] && !numeral.any ['.', 'e', 'E'].contains

/-- The field of a record with this name. -/
def field? (d : Document) (name : String) : Option Document :=
  match d with
  | .record fields => (fields.find? fun f => f.1 == name).map Prod.snd
  | _ => none

/-- The values of the named fields, in order. -/
def fields? (names : List String) (d : Document) : Option (List Document) :=
  match d with
  | .record _ => some (names.map fun name => (d.field? name).getD .null)
  | .list items => if items.length = names.length then some items else none
  | _ => none

/-- The values of the named fields, in order, where each may be missing. -/
def partialFields? (names : List String) (d : Document) : Option (List (Option Document)) :=
  match d with
  | .record _ => some (names.map d.field?)
  | .list items =>
    if items.length ≤ names.length then some (names.mapIdx fun i _ => items[i]?) else none
  | _ => none

/-- A natural number below a bound. -/
def nat? (bound : Nat) : Document → Option Nat
  | .number i => if 0 ≤ i ∧ i < bound then some i.toNat else none
  | _ => none

/-- An integer of a signed word. -/
def int? (bits : Nat) : Document → Option Int
  | .number i => if -(2 ^ (bits - 1) : Int) ≤ i ∧ i < 2 ^ (bits - 1) then some i else none
  | _ => none

/-- A byte. -/
def byte? (d : Document) : Option UInt8 := (d.nat? 256).map Nat.toUInt8

/-- A 32-bit natural number. -/
def word? : Document → Option Nat := nat? (2 ^ 32)

/-- A switch. -/
def switch? : Document → Option Bool
  | .switch b => some b
  | _ => none

/-- A value that may be absent. -/
def optional? {α : Type} (read : Document → Option α) : Document → Option (Option α)
  | .null => some none
  | d => (read d).map some

/-- A value that has a default. -/
def orDefault? {α : Type} (base : α) (read : Document → Option α) :
    Option Document → Option α
  | none => some base
  | some d => read d

/-- A value that may be absent, as a document. -/
def ofOptional {α : Type} (write : α → Document) : Option α → Document
  | none => .null
  | some x => write x

/-- A natural number as a document. -/
def ofNat (n : Nat) : Document := .number n

end Document

/-- Types that can be exchanged as documents. -/
class Documented (α : Type) where
  read? : Document → Option α
  write : α → Document

namespace Documented

/-- The canonical form of a document: what is written for the value it reads as. -/
def canonical? (α : Type) [Documented α] (d : Document) : Option Document :=
  (read? d : Option α).map write

/-- An element of an enumeration is its name; a record with the name as its
only field and no value stands for it too. -/
instance ofNamed {α : Type} [Named α] : Documented α where
  read?
    | .text name => Named.ofName? name
    | .record [(name, .null)] => Named.ofName? name
    | _ => none
  write x := .text (Named.name x)

end Documented

end PixelPipeline
