import PixelPipeline.Fault

/-!
# Handles and arenas

An arena keeps values in numbered slots and hands out handles.  It follows the
documented behaviour of a slot map with versioned keys:

* a handle names a slot, counted from one, and the version of its occupant;
* a slot's first occupant has version one, and the version grows by two with
  each new occupant, so that the handle of a removed value does not resolve
  again;
* freed slots are used again, the last freed first, and a new slot is added only
  when none is free;
* filtering and clearing free their slots in slot order.

A slot map keeps versions in words of 32 bits, so that a version comes again
after 2^31 occupants of one slot.  Versions are unbounded here: what is proved
holds of runs that use no slot that often.
-/

namespace PixelPipeline

/-- The handle of a resource of one kind: slots count from one. -/
structure Handle (kind : ResourceKind) where
  index : Nat
  version : Nat
  deriving DecidableEq, Repr

namespace Handle

/-- The handle that no arena ever gives out. -/
def null {kind : ResourceKind} : Handle kind := ⟨0, 0⟩

instance {kind : ResourceKind} : Inhabited (Handle kind) := ⟨null⟩

/-- Slot and version of a handle. -/
def text {kind : ResourceKind} (h : Handle kind) : String := s!"{h.index}v{h.version}"

end Handle

/-- A slot: the version of its latest occupant, and the occupant if it is still
there. -/
structure ArenaSlot (α : Type) where
  version : Nat
  content : Option α

/-- Values under handles. -/
structure Arena (kind : ResourceKind) (α : Type) where
  slots : Array (ArenaSlot α)
  /-- The positions of the free slots, the next to be used first. -/
  free : List Nat

namespace Arena

variable {kind : ResourceKind} {α : Type}

/-- No slots. -/
def empty : Arena kind α := ⟨#[], []⟩

instance : Inhabited (Arena kind α) := ⟨empty⟩

/-- The value under a handle: the occupant of its slot, if the version is that
of the handle. -/
def get? (a : Arena kind α) (h : Handle kind) : Option α :=
  if h.index = 0 then none
  else
    match a.slots[h.index - 1]? with
    | some slot => if slot.version = h.version then slot.content else none
    | none => none

/-- The number of values. -/
def size (a : Arena kind α) : Nat := a.slots.countP fun slot => slot.content.isSome

/-- Stores a value in the slot freed last, or in a new one. -/
def insert (a : Arena kind α) (value : α) : Arena kind α × Handle kind :=
  match a.free with
  | [] => (⟨a.slots.push ⟨1, some value⟩, []⟩, ⟨a.slots.size + 1, 1⟩)
  | i :: rest =>
    let version := (a.slots[i]?.elim 0 ArenaSlot.version) + 2
    (⟨a.slots.setIfInBounds i ⟨version, some value⟩, rest⟩, ⟨i + 1, version⟩)

/-- Replaces the value under a handle. -/
def modify (a : Arena kind α) (h : Handle kind) (f : α → α) : Arena kind α :=
  if h.index = 0 then a
  else
    { a with slots := a.slots.modify (h.index - 1) fun slot =>
        if slot.version = h.version then { slot with content := slot.content.map f } else slot }

/-- Empties the slot at a position. -/
def release (a : Arena kind α) (i : Nat) : Arena kind α :=
  ⟨a.slots.modify i fun slot => { slot with content := none }, i :: a.free⟩

/-- Removes the value under a handle. -/
def remove (a : Arena kind α) (h : Handle kind) : Arena kind α :=
  if (a.get? h).isSome then a.release (h.index - 1) else a

/-- Removes, in slot order, the values that do not satisfy a condition. -/
def filter (a : Arena kind α) (keep : α → Bool) : Arena kind α :=
  let drops (slot : ArenaSlot α) : Bool := slot.content.any fun value => !keep value
  (List.range a.slots.size).foldl (fun (b : Arena kind α) i =>
    if a.slots[i]?.any drops then b.release i else b) a

/-- Removes every value, in slot order. -/
def clear (a : Arena kind α) : Arena kind α := a.filter fun _ => false

end Arena

end PixelPipeline
