/-!
# Enumerations with written names

Every enumeration that a user configures has a fixed order and one name per
element.  Listings, messages and documents all use that name, and reading a
name back is a search through the order.
-/

namespace PixelPipeline

/-- A finite type whose elements are listed once each and have a written name. -/
class Named (α : Type) where
  /-- Every element, in the order of the numeric codes. -/
  all : List α
  /-- The written name. -/
  name : α → String

namespace Named

/-- The element with this exact name. -/
def ofName? {α : Type} [Named α] (text : String) : Option α :=
  all.find? fun x => name x == text

/-- The element with this numeric code, which is its position. -/
def ofCode? {α : Type} [Named α] (code : Nat) : Option α :=
  (all : List α)[code]?

/-- The numeric code of an element. -/
def code {α : Type} [Named α] [BEq α] (x : α) : Nat := all.idxOf x

end Named

end PixelPipeline
