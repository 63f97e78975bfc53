import PixelPipeline.Blend.Unit
import PixelPipeline.Handle
import PixelPipeline.Reply
import PixelPipeline.Settings

/-!
# The unit cache

The cache keeps at most `capacity` units, at most one per state, and gives up
the least recently used one.  Its entries live in an arena.  A fixed array of
buckets, indexed by fingerprint, leads from a state to its entry; the entries
also form a doubly linked list from the least to the most recently used.

* A hit moves its entry to the end of the list.
* A miss compiles first and links an entry only if that succeeds, so a refusal
  changes nothing but the count of misses.
* A miss that exceeds the capacity evicts the first entry of the list.
-/

namespace PixelPipeline

/-- The handle of a cached unit. -/
abbrev UnitHandle : Type := Handle .blendUnit

/-- A cached unit and its neighbours in the order of use. -/
structure CacheEntry where
  hash : UInt32
  state : PipelineState
  unit : BlendUnit
  prev : Option UnitHandle
  next : Option UnitHandle

/-- What was counted since the cache was created or cleared. -/
structure CacheStats where
  hits : Nat
  misses : Nat
  evictions : Nat
  deriving DecidableEq, Repr

/-- All counts zero. -/
instance : Inhabited CacheStats := ⟨⟨0, 0, 0⟩⟩

/-- A bounded cache of units around a compiler. -/
structure UnitCache (γ : Type) where
  compiler : γ
  entries : Arena .blendUnit CacheEntry
  buckets : Array (List UnitHandle)
  /-- The least recently used entry. -/
  head : Option UnitHandle
  /-- The most recently used entry. -/
  tail : Option UnitHandle
  capacity : Nat
  stats : CacheStats

namespace UnitCache

variable {γ : Type}

/-- An empty cache; a capacity or bucket count of zero is raised to one. -/
def create (compiler : γ) (capacity buckets : Nat) : UnitCache γ :=
  { compiler
    entries := .empty
    buckets := Array.replicate (max buckets 1) []
    head := none
    tail := none
    capacity := max capacity 1
    stats := default }

/-- The cache that settings describe, around the blend compiler. -/
def ofSettings (s : Settings) : Except Fault (UnitCache BlendCompiler) := do
  s.validate
  return create (.new s.traceGeneratedCode) s.cacheCapacity s.cacheBuckets

/-! ## Looking up -/

/-- The number of cached units. -/
def size (c : UnitCache γ) : Nat := c.entries.size

/-- The bucket of a fingerprint. -/
def bucketIndex (c : UnitCache γ) (hash : UInt32) : Nat := hash.toNat % c.buckets.size

/-- The handles in the bucket of a fingerprint. -/
def bucket (c : UnitCache γ) (hash : UInt32) : List UnitHandle :=
  c.buckets[c.bucketIndex hash]?.getD []

/-- Whether a handle leads to the entry of a state with this fingerprint. -/
def isEntryOf (c : UnitCache γ) (hash : UInt32) (s : PipelineState) (h : UnitHandle) : Bool :=
  (c.entries.get? h).any fun e => e.hash == hash && e.state == s

/-- The handle of a state with this fingerprint. -/
def find? (c : UnitCache γ) (hash : UInt32) (s : PipelineState) : Option UnitHandle :=
  (c.bucket hash).find? (c.isEntryOf hash s)

/-- The handle of a cached state; nothing is compiled or moved. -/
def lookup? (c : UnitCache γ) (s : PipelineState) : Option UnitHandle := c.find? s.fingerprint s

/-- The unit under a handle, as long as it is cached. -/
def unit? (c : UnitCache γ) (h : UnitHandle) : Option BlendUnit :=
  (c.entries.get? h).map CacheEntry.unit

/-- The entries after `h` along the list, `h` first, at most `fuel` of them. -/
def chainFrom (c : UnitCache γ) : (fuel : Nat) → Option UnitHandle → List UnitHandle
  | 0, _ => []
  | _, none => []
  | fuel + 1, some h => h :: c.chainFrom fuel ((c.entries.get? h).bind CacheEntry.next)

/-- The cached units from the least to the most recently used. -/
def recency (c : UnitCache γ) : List UnitHandle := c.chainFrom (c.size + 1) c.head

/-! ## The order of use -/

/-- Changes an entry. -/
def modifyEntry (c : UnitCache γ) (h : UnitHandle) (f : CacheEntry → CacheEntry) : UnitCache γ :=
  { c with entries := c.entries.modify h f }

/-- Whether a handle leads to an entry. -/
def holds (c : UnitCache γ) (h : UnitHandle) : Bool := (c.entries.get? h).isSome

/-- Makes `next` follow `prev`; the start of the list if there is no entry
`prev`. -/
def linkForward (c : UnitCache γ) (prev next : Option UnitHandle) : UnitCache γ :=
  match prev.filter c.holds with
  | some p => c.modifyEntry p fun e => { e with next }
  | none => { c with head := next }

/-- Makes `prev` precede `next`; the end of the list if there is no entry
`next`. -/
def linkBackward (c : UnitCache γ) (prev next : Option UnitHandle) : UnitCache γ :=
  match next.filter c.holds with
  | some n => c.modifyEntry n fun e => { e with prev }
  | none => { c with tail := prev }

/-- Takes an entry out of the list. -/
def unlink (c : UnitCache γ) (h : UnitHandle) : UnitCache γ :=
  match c.entries.get? h with
  | none => c
  | some e =>
    let c := c.modifyEntry h fun e => { e with prev := none, next := none }
    (c.linkForward e.prev e.next).linkBackward e.prev e.next

/-- Puts an entry at the end of the list. -/
def pushBack (c : UnitCache γ) (h : UnitHandle) : UnitCache γ :=
  let last := c.tail
  let c := c.modifyEntry h fun e => { e with prev := last, next := none }
  { c.linkForward last (some h) with tail := some h }

/-- Marks an entry as the most recently used. -/
def touch (c : UnitCache γ) (h : UnitHandle) : UnitCache γ :=
  if c.tail = some h then c else (c.unlink h).pushBack h

/-! ## Changing the contents -/

/-- Adds an entry, most recently used. -/
def insert (c : UnitCache γ) (hash : UInt32) (s : PipelineState) (u : BlendUnit) :
    UnitCache γ × UnitHandle :=
  let (entries, h) := c.entries.insert ⟨hash, s, u, none, none⟩
  let buckets := c.buckets.modify (c.bucketIndex hash) fun handles => handles ++ [h]
  (({ c with entries, buckets } : UnitCache γ).pushBack h, h)

/-- The record of an eviction. -/
def evictionRecord (e : CacheEntry) : LogRecord :=
  ⟨.debug, "Evicted blend unit " ++ Hex.hash e.hash
    ++ s!" ({e.unit.program.codeSize} bytes of code)"⟩

/-- The handles of a bucket without one of them, whose place the last takes. -/
def swapRemove (handles : List UnitHandle) (h : UnitHandle) : List UnitHandle :=
  match handles.idxOf? h, handles.getLast? with
  | some i, some last => (handles.set i last).dropLast
  | _, _ => handles

/-- Removes an entry that is no longer in the list. -/
def discard (c : UnitCache γ) (h : UnitHandle) (e : CacheEntry) : UnitCache γ :=
  { c with
    entries := c.entries.remove h
    buckets := c.buckets.modify (c.bucketIndex e.hash) fun handles => swapRemove handles h
    stats := { c.stats with evictions := c.stats.evictions + 1 } }

/-- Gives up the least recently used unit. -/
def evictOldest (c : UnitCache γ) : UnitCache γ × Log :=
  match c.head with
  | none => (c, [])
  | some h =>
    let c := c.unlink h
    match c.entries.get? h with
    | none => (c, [])
    | some e => (c.discard h e, [evictionRecord e])

/-- Evicts once if there are more units than the capacity allows. -/
def trim (c : UnitCache γ) : UnitCache γ × Log :=
  if c.capacity < c.size then c.evictOldest else (c, [])

/-- Counts a hit. -/
def countHit (c : UnitCache γ) : UnitCache γ :=
  { c with stats := { c.stats with hits := c.stats.hits + 1 } }

/-- Counts a miss. -/
def countMiss (c : UnitCache γ) : UnitCache γ :=
  { c with stats := { c.stats with misses := c.stats.misses + 1 } }

/-- Drops every unit and resets the counts. -/
def clear (c : UnitCache γ) : UnitCache γ :=
  { c with
    entries := c.entries.clear
    buckets := c.buckets.map fun _ => []
    head := none
    tail := none
    stats := default }

/-- The record of a refused state. -/
def refusalRecord (hash : UInt32) (fault : Fault) : LogRecord :=
  ⟨.warn, "Blend unit compilation failed for " ++ Hex.hash hash ++ ": " ++ fault.message⟩

variable [UnitCompiler γ]

/-- Compiles a state that is not cached and adds its unit. -/
def compileMissing (c : UnitCache γ) (hash : UInt32) (s : PipelineState) :
    Reply (UnitCache γ) UnitHandle :=
  let compilation := UnitCompiler.compile c.compiler s
  let c := { c with compiler := compilation.compiler }
  match compilation.result with
  | .error cause =>
    let fault := Fault.compile cause
    ⟨.error fault, c, compilation.log ++ [refusalRecord hash fault]⟩
  | .ok u =>
    let (c, h) := c.insert hash s u
    let (c, evictionLog) := c.trim
    ⟨.ok h, c, compilation.log ++ evictionLog⟩

/-- The handle of the unit of a state with this fingerprint, compiled on first
use. -/
def ensureHashed (c : UnitCache γ) (hash : UInt32) (s : PipelineState) :
    Reply (UnitCache γ) UnitHandle :=
  match c.find? hash s with
  | some h => .quiet (.ok h) (c.countHit.touch h)
  | none => c.countMiss.compileMissing hash s

/-- The handle of a state's unit, compiled on first use. -/
def ensure (c : UnitCache γ) (s : PipelineState) : Reply (UnitCache γ) UnitHandle :=
  c.ensureHashed s.fingerprint s

/-- The handle and the unit of a state, compiled on first use. -/
def ensureUnit (c : UnitCache γ) (s : PipelineState) :
    Reply (UnitCache γ) (UnitHandle × BlendUnit) :=
  (c.ensure s).andThen fun h c =>
    match c.unit? h with
    | some u => .quiet (.ok (h, u)) c
    | none => .quiet (.error (.invalidHandle .blendUnit)) c

end UnitCache

end PixelPipeline
