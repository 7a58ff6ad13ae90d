import Std.Data.HashMap
import Std.Data.TreeSet
import Recompiler.CodeCache.Arena
import Recompiler.Emit.Program
import Recompiler.EventQueue.Savestate
import Recompiler.Ir.Machine

/-!
The cache of traces with their programs. Blocks lie one behind the other in a ring, and the
oldest ones are evicted first. Each block starts with a header of two words: the guest address it
was made from, zero once it is retired, and the offset of the next header. A map of pages leads
from guest addresses to blocks.

Exits of traces have link cells. A cell whose target has a block enters it; the others wait for
their target.
-/

namespace Recompiler

open Ir Emit

/-- The number of a block, in the order of insertion. -/
abbrev BlockId := Nat

/-- The trace at a guest address. -/
structure Block where
  /-- The address of the trace while the block is mapped, else zero. -/
  origin : UInt32
  /-- Where the header is. -/
  offset : Nat
  /-- The bytes that the block takes in the ring. -/
  size : Nat
  /-- The number of guest instructions. -/
  count : Nat
  program : Program
  exits : List Exit
  /-- The cells that enter the block. -/
  links : List Nat
  deriving Inhabited, Repr

namespace Block

/-- The bytes before the code of a block. -/
def headerSize : Nat := 16

/-- Where the code is. -/
def entry (b : Block) : Nat := b.offset + headerSize

end Block

/-- What the map knows about a guest address. -/
inductive Mapping where
  | notCompiled
  | invalidated
  | live (id : BlockId)
  deriving DecidableEq, Inhabited, Repr

namespace Mapping

def name : Mapping → String
  | .notCompiled => "not compiled"
  | .invalidated => "invalidated"
  | .live _ => "live"

def block? : Mapping → Option BlockId
  | .live id => some id
  | _ => none

end Mapping

/-- A page of the map. A released page had a table before. -/
inductive Page where
  | released
  | table (live : Int) (slots : Vector Mapping 1024)
  deriving Inhabited, Repr

namespace Page

def isTable : Page → Bool
  | .table .. => true
  | .released => false

def mapping : Page → Fin 1024 → Mapping
  | .released, _ => .invalidated
  | .table _ slots, k => slots.get k

/-- A table without the live slot `k`. With its last one the page is released. -/
def without (live : Int) (slots : Vector Mapping 1024) (k : Fin 1024) : Page :=
  if live - 1 = 0 then .released else .table (live - 1) (slots.put k .invalidated)

end Page

/-- A link cell. -/
structure Cell where
  /-- Does the cell belong to an exit of a block? -/
  bound : Bool
  target : UInt32
  linked : Option BlockId
  deriving DecidableEq, Inhabited, Repr

namespace Cell

def empty : Cell := ⟨false, 0, none⟩

end Cell

inductive CodeCacheError where
  | tooLarge (size : Int)
  | pageLimit (pages : Nat)
  | unaligned (pc : UInt32)
  | write (e : ArenaError)
  /-- An empty ring has no room. -/
  | cannotFit
  /-- A block that should be mapped is not. -/
  | notMapped
  deriving DecidableEq, Repr

namespace CodeCacheError

/-- The cause, without its circumstances. -/
def cause : CodeCacheError → String
  | .tooLarge _ => "trace does not fit in the code cache"
  | .pageLimit _ => "page table limit reached"
  | .unaligned _ => "unaligned trace address"
  | .write e => e.message
  | .cannotFit => "codecache: empty cache cannot fit the block"
  | .notMapped => "codecache: live block is not mapped"

def message (e : CodeCacheError) : String :=
  match e with
  | .tooLarge size => Text.signed size ++ " bytes: " ++ e.cause
  | .pageLimit pages => Text.decimal pages ++ " pages: " ++ e.cause
  | .unaligned pc => Text.address pc ++ ": " ++ e.cause
  | _ => e.cause

/-- Errors that mean that the cache itself went wrong. -/
def isFault : CodeCacheError → Bool
  | .cannotFit | .notMapped => true
  | _ => false

/-- What is logged about a trace that could not be inserted. -/
def report (e : CodeCacheError) (pc : UInt32) : LogRecord :=
  let pc := ("pc", Text.decimal pc.toNat)
  let err := ("err", e.message)
  match e with
  | .tooLarge size =>
    ⟨.error, "codecache: cannot allocate trace", [pc, ("size", Text.signed size), err]⟩
  | .write _ => ⟨.error, "codecache: cannot write trace", [pc, err]⟩
  | _ => ⟨.error, "codecache: cannot map trace", [pc, err]⟩

end CodeCacheError

structure CodeCache where
  arena : Arena
  /-- The bytes that blocks take. -/
  used : Nat
  /-- Where the oldest block is. -/
  first : Nat
  /-- Where the newest block ends. -/
  next : Nat
  /-- The blocks in the ring, oldest first. -/
  ring : List BlockId
  /-- Every block that was ever inserted. -/
  blocks : Array Block
  /-- The blocks in the ring, by where their code is. -/
  entries : Std.HashMap Nat BlockId
  pages : Std.HashMap UInt32 Page
  /-- The pages that have tables. -/
  occupied : Std.TreeSet UInt32
  maxPages : Nat
  cells : Array Cell
  /-- What link instructions read: where the code is that a cell enters, or zero. -/
  words : Array Nat
  /-- The cells that are free, next one first. -/
  free : List Nat
  /-- The bound cells that wait for a block, by their target. -/
  waiting : Std.HashMap UInt32 (List Nat)
  evictions : Nat
  invalidations : Nat
  supersedes : Nat
  /-- The number of linked cells. -/
  links : Int

namespace CodeCache

def defaultMaxPages : Nat := 4096

def defaultMaxCells : Nat := 65536

/-- An empty cache. Limits that are not positive become the defaults. -/
def create (arena : Arena) (maxPages maxCells : Int) : CodeCache :=
  let pages := if maxPages ≤ 0 then defaultMaxPages else maxPages.toNat
  let cells := if maxCells ≤ 0 then defaultMaxCells else maxCells.toNat
  { arena, used := 0, first := 0, next := 0, ring := [], blocks := #[], entries := ∅
    pages := ∅, occupied := ∅, maxPages := pages, cells := Array.replicate cells .empty
    words := Array.replicate cells 0
    free := List.range cells, waiting := ∅
    evictions := 0, invalidations := 0, supersedes := 0, links := 0 }

def block (c : CodeCache) (id : BlockId) : Block := c.blocks.getD id default

def modifyBlock (c : CodeCache) (id : BlockId) (f : Block → Block) : CodeCache :=
  { c with blocks := c.blocks.modify id f }

def cell (c : CodeCache) (n : Nat) : Cell := c.cells.getD n .empty

def modifyCell (c : CodeCache) (n : Nat) (f : Cell → Cell) : CodeCache :=
  { c with cells := c.cells.modify n f }

/-- The word of a cell. -/
def word (c : CodeCache) (n : Nat) : Nat := c.words.getD n 0

/-- The entry that a cell leads to. An entry is never zero. -/
def cellEntry? (c : CodeCache) (n : Nat) : Option Nat :=
  if c.word n = 0 then none else some (c.word n)

def capacity (c : CodeCache) : Nat := c.arena.size

def bytesAvailable (c : CodeCache) : Int := c.capacity - c.used

/-- The largest block, with its header, that fits without an eviction. -/
def contiguousFree (c : CodeCache) : Nat :=
  if c.ring.isEmpty then c.capacity
  else if c.first < c.next then max (c.capacity - c.next) c.first
  else c.first - c.next

/-- The largest program that fits without an eviction. -/
def budget (c : CodeCache) : Nat := c.contiguousFree - Block.headerSize

/-- Sizes are multiples of 16. -/
def align (n : Nat) : Nat := (n + 15) / 16 * 16

/-- Where a block of `size` bytes goes, if it fits without an eviction. -/
def fit? (c : CodeCache) (size : Int) : Option Nat :=
  if c.ring.isEmpty then if size ≤ c.capacity then some 0 else none
  else if c.first < c.next then
    if size ≤ (c.capacity - c.next : Int) then some c.next
    else if size ≤ c.first then some 0
    else none
  else if c.next < c.first then
    if size ≤ (c.first - c.next : Int) then some c.next else none
  else none

/-- Writes the header of a block. -/
def tag (c : CodeCache) (b : Block) (origin : UInt32) : CodeCache :=
  let next := UInt32.ofNat ((b.offset + b.size) % c.capacity)
  let bytes := Savestate.wordBytes origin ++ Savestate.wordBytes next
  { c with arena := c.arena.poke b.offset bytes }

/-- Gives a block an origin, also in its header. -/
def setOrigin (c : CodeCache) (id : BlockId) (pc : UInt32) : CodeCache :=
  (c.modifyBlock id fun b => { b with origin := pc }).tag (c.block id) pc

/-- The word at an offset, low byte first. -/
def wordAt (c : CodeCache) (off : Nat) : UInt32 :=
  Savestate.wordOf (c.arena.byte off) (c.arena.byte (off + 1)) (c.arena.byte (off + 2))
    (c.arena.byte (off + 3))

/-- The origin and the next offset in the header at an offset. -/
def header (c : CodeCache) (off : Nat) : UInt32 × Nat := (c.wordAt off, (c.wordAt (off + 4)).toNat)

/-- The offsets and origins of `n` headers, each found through the one before it. -/
def walkFrom (c : CodeCache) : Nat → Nat → List (Nat × UInt32)
  | 0, _ => []
  | n + 1, off => (off, (c.header off).1) :: c.walkFrom n (c.header off).2

/-- The headers of the ring, oldest first. -/
def walk (c : CodeCache) : List (Nat × UInt32) := c.walkFrom c.ring.length c.first

def pageOf (pc : UInt32) : UInt32 := pc >>> 12

def slotOf (pc : UInt32) : Fin 1024 := Fin.ofNat 1024 (pc >>> 2).toNat

def lookup (c : CodeCache) (pc : UInt32) : Mapping :=
  match c.pages[pageOf pc]? with
  | none => .notCompiled
  | some p => p.mapping (slotOf pc)

/-- The pages that have tables, in ascending order. -/
def tables (c : CodeCache) : List UInt32 := c.occupied.toList

/-- The program of the block in the ring whose code is at an entry. -/
def resolve? (c : CodeCache) (entry : Nat) : Option Program :=
  match c.entries[entry]? with
  | none => none
  | some id =>
    let p := (c.block id).program
    if p.code.isEmpty then none else some p

/-- Takes a free cell. -/
def allocCell (c : CodeCache) : Option Nat × CodeCache :=
  match c.free with
  | [] => (none, c)
  | n :: free => (some n, { c with free })

/-- Takes the next `n` free cells. -/
def takeCells (c : CodeCache) (n : Nat) : CodeCache := { c with free := c.free.drop n }

/-- Adds a cell to a set of cells. -/
def addCell (n : Nat) (s : List Nat) : List Nat := if s.contains n then s else n :: s

/-- Has a bound cell wait for its target. -/
def wait (c : CodeCache) (n : Nat) : CodeCache :=
  let target := (c.cell n).target
  { c with waiting := c.waiting.insert target (addCell n (c.waiting.getD target [])) }

/-- No longer waits. -/
def unwait (c : CodeCache) (n : Nat) : CodeCache :=
  let target := (c.cell n).target
  let left := (c.waiting.getD target []).erase n
  if left.isEmpty then { c with waiting := c.waiting.erase target }
  else { c with waiting := c.waiting.insert target left }

/-- Has a cell lead to the entry of a block. -/
def enter (c : CodeCache) (n : Nat) (id : BlockId) (entry : Nat) : CodeCache :=
  { c.modifyCell n fun cell => { cell with linked := some id } with
    words := c.words.setIfInBounds n entry }

/-- Lets a cell enter a block. -/
def link (c : CodeCache) (n : Nat) (id : BlockId) : CodeCache :=
  let c := c.enter n id (c.block id).entry
  let c := c.modifyBlock id fun b => { b with links := addCell n b.links }
  { c with links := c.links + 1 }

/-- Gives a cell to an exit. -/
def bind (c : CodeCache) (x : Exit) : CodeCache :=
  let c := c.modifyCell x.cell fun cell => { cell with bound := true, target := x.target }
  match c.lookup x.target with
  | .live id => c.link x.cell id
  | _ => c.wait x.cell

/-- A cell whose block is gone waits again. -/
def unlinkCell (c : CodeCache) (n : Nat) : CodeCache :=
  let c := c.modifyCell n fun cell => { cell with linked := none }
  { c with words := c.words.setIfInBounds n 0, links := c.links - 1 }.wait n

/-- Sends every cell that enters a block back to the dispatcher. -/
def unlink (c : CodeCache) (id : BlockId) : CodeCache :=
  let c := (c.block id).links.foldl unlinkCell c
  c.modifyBlock id fun b => { b with links := [] }

/-- Takes a bound cell away from the block it enters, or from its waiting set. -/
def detach (c : CodeCache) (n : Nat) : CodeCache :=
  match (c.cell n).linked with
  | some id =>
    { c.modifyBlock id fun b => { b with links := b.links.erase n } with links := c.links - 1 }
  | none => c.unwait n

def freeCell (c : CodeCache) (n : Nat) : CodeCache :=
  let c := if (c.cell n).bound then c.detach n else c
  { c.modifyCell n fun _ => .empty with
    words := c.words.setIfInBounds n 0
    free := n :: c.free }

def freeCells (c : CodeCache) (ns : List Nat) : CodeCache := ns.foldl freeCell c

/-- Unmaps a block that is still mapped, and releases its page with the last one. -/
def retire (c : CodeCache) (id : BlockId) : Except CodeCacheError CodeCache :=
  let pc := (c.block id).origin
  if pc = 0 then .ok c
  else
    match c.pages[pageOf pc]? with
    | some (.table live slots) =>
      if slots.get (slotOf pc) ≠ .live id then .error .notMapped
      else
        let page := Page.without live slots (slotOf pc)
        let occupied := if live - 1 = 0 then c.occupied.erase (pageOf pc) else c.occupied
        let c := { c with pages := c.pages.insert (pageOf pc) page, occupied }
        .ok (c.modifyBlock id fun b => { b with origin := 0 })
    | _ => .error .notMapped

/-- Drops what a block holds once it has left the ring. -/
def release (c : CodeCache) (id : BlockId) : CodeCache :=
  let b := c.block id
  let c := (c.unlink id).freeCells (b.exits.map (·.cell))
  let c := c.modifyBlock id fun b => { b with exits := [], program := default }
  { c with
    entries := c.entries.erase b.entry
    used := c.used - b.size
    evictions := c.evictions + 1 }

/-- Lets the ring start at its oldest block. -/
def settle (c : CodeCache) : CodeCache :=
  match c.ring with
  | [] => { c with first := 0, next := 0 }
  | id :: _ => { c with first := (c.block id).offset }

/-- Evicts the oldest block, if there is one. -/
def evict (c : CodeCache) : Except CodeCacheError CodeCache :=
  match c.ring with
  | [] => .ok c
  | id :: rest =>
    match ({ c with ring := rest }).retire id with
    | .ok c => .ok (c.release id).settle
    | .error e => .error e

/-- Evicts up to `n` blocks. -/
def evictMany : Nat → CodeCache → Except CodeCacheError CodeCache
  | 0, c => .ok c
  | n + 1, c =>
    match c.evict with
    | .ok c => evictMany n c
    | .error e => .error e

/-- Evicts every block. -/
def flush (c : CodeCache) : Except CodeCacheError CodeCache := evictMany c.ring.length c

/-- Evicts blocks, at most `n`, until `size` bytes fit. -/
def makeRoom (size : Int) : Nat → CodeCache → Except CodeCacheError Nat × CodeCache
  | n, c =>
    match c.fit? size with
    | some off => (.ok off, c)
    | none =>
      match n with
      | 0 => (.error .cannotFit, c)
      | n + 1 =>
        match c.evict with
        | .ok c => makeRoom size n c
        | .error e => (.error e, c)

/-- Evicts the oldest blocks until a block of `size` bytes fits, for a program of `n` bytes.
Returns where its header goes. -/
def allocate (c : CodeCache) (n size : Int) : Except CodeCacheError Nat × CodeCache :=
  if (c.capacity : Int) < size then (.error (.tooLarge n), c)
  else c.makeRoom size c.ring.length

/-- The bytes of a block for a program of `n` bytes, in signed words: close to the largest one
the sum wraps around. -/
def wordSize (n : Int64) : Int := (n + .ofNat Block.headerSize + 15).toInt / 16 * 16

/-- Evicts the oldest blocks until a program of `n` bytes fits. Returns where its header
goes. -/
def reserve (c : CodeCache) (n : Int64) : Except CodeCacheError Nat × CodeCache :=
  c.allocate n.toInt (wordSize n)

/-- Unmaps a block, which stays in the ring. -/
def unmap (c : CodeCache) (id : BlockId) : CodeCache := (c.setOrigin id 0).unlink id

/-- Unmaps every block of a page and releases its table. Returns the number of blocks. -/
def invalidatePage (c : CodeCache) (page : UInt32) : Nat × CodeCache :=
  match c.pages[page]? with
  | some (.table _ slots) =>
    let ids := slots.toList.filterMap Mapping.block?
    let c := ids.foldl unmap c
    (ids.length, { c with
      pages := c.pages.insert page .released
      occupied := c.occupied.erase page
      invalidations := c.invalidations + 1 })
  | _ => (0, c)

/-- Unmaps every block. -/
def invalidateAll (c : CodeCache) : CodeCache :=
  c.tables.foldl (fun c page => (c.invalidatePage page).2) c

def hasTable (c : CodeCache) (page : UInt32) : Bool := (c.pages[page]?).any Page.isTable

/-- May a trace at `pc` be mapped? -/
def check (c : CodeCache) (pc : UInt32) : Except CodeCacheError Unit :=
  if pc &&& 3 ≠ 0 then .error (.unaligned pc)
  else if c.hasTable (pageOf pc) then .ok ()
  else if c.maxPages ≤ c.tables.length then .error (.pageLimit c.maxPages)
  else .ok ()

/-- The newest block takes the rest of the arena when the ring wraps around. -/
def absorbTail (c : CodeCache) (off : Nat) : CodeCache :=
  match c.ring.getLast? with
  | none => { c with first := off }
  | some last =>
    if off = c.next then c
    else
      let tail := c.capacity - c.next
      let c := c.modifyBlock last fun b => { b with size := b.size + tail }
      { c.tag (c.block last) (c.block last).origin with used := c.used + tail }

/-- Appends a block to the ring. -/
def push (c : CodeCache) (b : Block) : CodeCache :=
  let c := c.absorbTail b.offset
  let id := c.blocks.size
  { c with
    ring := c.ring ++ [id]
    blocks := c.blocks.push b
    entries := c.entries.insert b.entry id
    used := c.used + b.size
    next := (b.offset + b.size) % c.capacity }.tag b 0

/-- Moves what a block had at its address to the block that replaces it. -/
def supersede (c : CodeCache) (old new : BlockId) : CodeCache :=
  let cells := (c.block old).links
  let c := (c.setOrigin old 0).modifyBlock old fun b => { b with links := [] }
  let entry := (c.block new).entry
  let c := cells.foldl (fun c n => c.enter n new entry) c
  let c := c.modifyBlock new fun b => { b with links := cells.foldr addCell b.links }
  { c with supersedes := c.supersedes + 1 }

/-- Has the block `id` replace the one that is live at `pc`, if there is one. -/
def displace (c : CodeCache) (pc : UInt32) (id : BlockId) : CodeCache :=
  match c.lookup pc with
  | .live old => c.supersede old id
  | _ => c

/-- The number of live slots of a page and its table, a new one if it has none. -/
def tableAt (c : CodeCache) (page : UInt32) : Int × Vector Mapping 1024 :=
  match c.pages[page]? with
  | none => (0, Vector.replicate 1024 .notCompiled)
  | some .released => (0, Vector.replicate 1024 .invalidated)
  | some (.table live slots) => (live, slots)

/-- Maps a block. -/
def place (c : CodeCache) (pc : UInt32) (id : BlockId) : CodeCache :=
  let (live, slots) := c.tableAt (pageOf pc)
  let live := if (c.lookup pc).block?.isSome then live else live + 1
  { c.displace pc id with
    occupied := if c.hasTable (pageOf pc) then c.occupied else c.occupied.insert (pageOf pc)
    pages := c.pages.insert (pageOf pc) (.table live (slots.put (slotOf pc) (.live id))) }

/-- Maps a block, and links it with the others. -/
def publish (c : CodeCache) (pc : UInt32) (id : BlockId) (exits : List Exit) : CodeCache :=
  let c := (c.place pc id).setOrigin id pc
  let waiting := c.waiting.getD pc []
  let c := waiting.foldl (fun c n => c.link n id) { c with waiting := c.waiting.erase pc }
  let c := c.modifyBlock id fun b => { b with exits }
  exits.foldl bind c

/-- The number of bytes that a trace takes: those of its native code, or else the estimate. -/
def codeSize (t : TraceProgram) (code : Option ByteArray) : Nat :=
  code.elim t.program.size ByteArray.size

/-- Inserts the trace at `pc`. If that fails its cells are free again. -/
def insert (c : CodeCache) (pc : UInt32) (t : TraceProgram) (code : Option ByteArray) :
    Except CodeCacheError BlockId × CodeCache :=
  let cells := t.exits.map (·.cell)
  let n := codeSize t code
  let size := align (Block.headerSize + n)
  match c.check pc with
  | .error e => (.error e, c.freeCells cells)
  | .ok () =>
    match c.allocate n size with
    | (.error e, c) => (.error e, c.freeCells cells)
    | (.ok off, c) =>
      let id := c.blocks.size
      let c := c.push ⟨0, off, size, t.count, t.program, [], []⟩
      match c.arena.write (off + Block.headerSize) (code.getD .empty) with
      | .error e => (.error (.write e), c.freeCells cells)
      | .ok arena => (.ok id, ({ c with arena }).publish pc id t.exits)

/-- Evicts every block and gives the memory back. -/
def close (c : CodeCache) : Except CodeCacheError CodeCache :=
  match c.flush with
  | .ok c => .ok { c with arena := .create 0 }
  | .error e => .error e

/-- What the link instructions of programs see. -/
def linkTable (c : CodeCache) : Links where
  cell n := c.word n.toNat
  resolve := some c.resolve?

end CodeCache

end Recompiler
