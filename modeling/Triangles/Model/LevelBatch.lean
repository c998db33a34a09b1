import Mathlib.Logic.Function.Basic
import Triangles.Lib.Linked
import Triangles.Model.Serialize

/-! The skip list of the database's memory table (skiplist.h). Nodes are numbered as the arena gives
them out, the head is node 0. -/

namespace Triangles.LevelDb

open Linked

def kMaxHeight : Nat := 12

structure SkipList (Key : Type) where
  keys : List Key
  next : Nat → Nat → Option Nat
  maxHeight : Nat

namespace SkipList

variable {Key : Type} (compare_ : Key → Key → Ordering)

def empty : SkipList Key := ⟨[], fun _ _ => none, 1⟩

def key? (list : SkipList Key) : Nat → Option Key
  | 0 => none
  | n + 1 => list.keys[n]?

/-- `KeyIsAfterNode` for a node that is there. -/
def keyIsAfterNode (list : SkipList Key) (key : Key) (n : Nat) : Bool :=
  match list.key? n with
  | none => false
  | some k => compare_ k key == .lt

/-- `FindGreaterOrEqual` from a node and a level on: the node found, and the predecessors of the
levels up to this one. On each level there are no more links to follow than nodes. -/
def findFrom (list : SkipList Key) (key : Key) : Nat → Nat → Option Nat × List Nat
  | 0, x =>
    let x := Linked.walk (list.next 0) (list.keyIsAfterNode compare_ key) list.keys.length x
    (list.next 0 x, [x])
  | level + 1, x =>
    let x := Linked.walk (list.next (level + 1)) (list.keyIsAfterNode compare_ key) list.keys.length x
    let found := findFrom list key level x
    (found.1, found.2 ++ [x])

def findGreaterOrEqual (list : SkipList Key) (key : Key) : Option Nat × List Nat :=
  list.findFrom compare_ key (list.maxHeight - 1) 0

def linkLevel (x : Nat) (prev : List Nat) (next : Nat → Nat → Option Nat) (i : Nat) :
    Nat → Nat → Option Nat :=
  let p := prev.getD i 0
  Function.update next i (Function.update (Function.update (next i) x (next i p)) p (some x))

def insert (list : SkipList Key) (height : Nat) (key : Key) : SkipList Key :=
  let prev := (list.findGreaterOrEqual compare_ key).2
  let x := list.keys.length + 1
  { keys := list.keys ++ [key]
    next := (List.range height).foldl (linkLevel x prev) list.next
    maxHeight := max list.maxHeight height }

def contains (list : SkipList Key) (key : Key) : Bool :=
  match (list.findGreaterOrEqual compare_ key).1.bind list.key? with
  | none => false
  | some k => compare_ key k == .eq

def seek (list : SkipList Key) (target : Key) : Option Key :=
  (list.findGreaterOrEqual compare_ target).1.bind list.key?

end SkipList

end Triangles.LevelDb

/-! What the database writes in one step (coding.cc, write_batch.cc) and the table in memory that
it looks keys up in first (dbformat.cc, memtable.cc). -/

namespace Triangles.LevelDb

/-- `Status`, as far as the calls here return it. -/
inductive Status where
  | ok
  | notFound
  | corruption (msg : String)
deriving DecidableEq, Repr

def byte (n : Nat) : UInt8 := UInt8.ofNat n

/-! coding.cc. -/

def encodeVarint32 (v : Nat) : List UInt8 :=
  let B := 128
  if v < 1 <<< 7 then [byte v]
  else if v < 1 <<< 14 then [byte (v ||| B), byte (v >>> 7)]
  else if v < 1 <<< 21 then [byte (v ||| B), byte (v >>> 7 ||| B), byte (v >>> 14)]
  else if v < 1 <<< 28 then
    [byte (v ||| B), byte (v >>> 7 ||| B), byte (v >>> 14 ||| B), byte (v >>> 21)]
  else
    [byte (v ||| B), byte (v >>> 7 ||| B), byte (v >>> 14 ||| B), byte (v >>> 21 ||| B),
      byte (v >>> 28)]

def varint32Rounds : Nat → Nat → Nat → List UInt8 → Option (Nat × List UInt8)
  | 0, _, _, _ => none
  | _ + 1, _, _, [] => none
  | rounds + 1, shift, result, c :: p =>
    if c.toNat &&& 128 ≠ 0 then
      varint32Rounds rounds (shift + 7) (result ||| ((c.toNat &&& 127) <<< shift) % 2 ^ 32) p
    else some (result ||| (c.toNat <<< shift) % 2 ^ 32, p)

def getVarint32 (input : List UInt8) : Option (Nat × List UInt8) := varint32Rounds 5 0 0 input

def putLengthPrefixedSlice (value : List UInt8) : List UInt8 :=
  encodeVarint32 (value.length % 2 ^ 32) ++ value

def getLengthPrefixedSlice (input : List UInt8) : Option (List UInt8 × List UInt8) :=
  match getVarint32 input with
  | none => none
  | some (len, input) => if len ≤ input.length then some (input.take len, input.drop len) else none

/-! write_batch.cc. -/

def kTypeDeletion : UInt8 := 0
def kTypeValue : UInt8 := 1

inductive BatchOp where
  | put (key value : List UInt8)
  | delete (key : List UInt8)
deriving DecidableEq, Repr

def kHeader : Nat := 12

structure WriteBatch where
  rep_ : List UInt8
deriving DecidableEq, Repr

namespace WriteBatch

def clear : WriteBatch := ⟨List.replicate kHeader 0⟩

def count (b : WriteBatch) : Int :=
  ((leValue ((b.rep_.drop 8).take 4) : Nat) : Int).bmod (2 ^ 32)

def setCount (b : WriteBatch) (n : Int) : WriteBatch :=
  ⟨b.rep_.take 8 ++ wordBytes 4 (n % 2 ^ 32).toNat ++ b.rep_.drop 12⟩

def sequence (b : WriteBatch) : Nat := leValue (b.rep_.take 8)

def setSequence (b : WriteBatch) (seq : Nat) : WriteBatch :=
  ⟨wordBytes 8 seq ++ b.rep_.drop 8⟩

def put (b : WriteBatch) (key value : List UInt8) : WriteBatch :=
  ⟨(b.setCount (b.count + 1)).rep_ ++ kTypeValue ::
    (putLengthPrefixedSlice key ++ putLengthPrefixedSlice value)⟩

def delete (b : WriteBatch) (key : List UInt8) : WriteBatch :=
  ⟨(b.setCount (b.count + 1)).rep_ ++ kTypeDeletion :: putLengthPrefixedSlice key⟩

def change (b : WriteBatch) : BatchOp → WriteBatch
  | .put key value => b.put key value
  | .delete key => b.delete key

def nextOp (tag : UInt8) (input : List UInt8) : Except String (BatchOp × List UInt8) :=
  if tag = kTypeValue then
    match getLengthPrefixedSlice input with
    | none => .error "bad WriteBatch Put"
    | some (key, input) =>
      match getLengthPrefixedSlice input with
      | none => .error "bad WriteBatch Put"
      | some (value, input) => .ok (.put key value, input)
  else if tag = kTypeDeletion then
    match getLengthPrefixedSlice input with
    | none => .error "bad WriteBatch Delete"
    | some (key, input) => .ok (.delete key, input)
  else .error "unknown WriteBatch tag"

/-- The loop of `Iterate`: what was wrong, how many records were found, and what the handler has
made of them. A record is a byte at least. -/
def iterateLoop {σ : Type} (handler : σ → BatchOp → σ) :
    Nat → List UInt8 → Nat → σ → Option String × Nat × σ
  | 0, _, found, s => (none, found, s)
  | _ + 1, [], found, s => (none, found, s)
  | rounds + 1, tag :: input, found, s =>
    match nextOp tag input with
    | .error msg => (some msg, found + 1, s)
    | .ok (op, input) => iterateLoop handler rounds input (found + 1) (handler s op)

def iterate {σ : Type} (b : WriteBatch) (handler : σ → BatchOp → σ) (s : σ) : Status × σ :=
  if b.rep_.length < kHeader then (.corruption "malformed WriteBatch (too small)", s)
  else
    let input := b.rep_.drop kHeader
    match iterateLoop handler input.length input 0 s with
    | (some msg, _, s) => (.corruption msg, s)
    | (none, found, s) =>
      if (found : Int) ≠ b.count then (.corruption "WriteBatch has wrong count", s) else (.ok, s)

def append (dst src : WriteBatch) : WriteBatch :=
  ⟨(dst.setCount (dst.count + src.count)).rep_ ++ src.rep_.drop kHeader⟩

def setContents (contents : List UInt8) : WriteBatch := ⟨contents⟩

end WriteBatch

/-! dbformat.cc, memtable.cc. -/

def packSequenceAndType (seq : Nat) (t : UInt8) : Nat := seq <<< 8 ||| t.toNat

def tagOf (internalKey : List UInt8) : Nat :=
  leValue (internalKey.drop (internalKey.length - 8)) % 2 ^ 64

def extractUserKey (internalKey : List UInt8) : List UInt8 :=
  internalKey.take (internalKey.length - 8)

/-- `InternalKeyComparator::Compare` over the bytewise comparator: user keys upwards, tags
downwards. -/
def compareInternal (akey bkey : List UInt8) : Ordering :=
  (compare (extractUserKey akey) (extractUserKey bkey)).then (compare (tagOf bkey) (tagOf akey))

def entrySlice (data : List UInt8) : List UInt8 := ((getLengthPrefixedSlice data).map (·.1)).getD []

def entryRest (data : List UInt8) : List UInt8 := ((getLengthPrefixedSlice data).map (·.2)).getD []

def compareEntries (aptr bptr : List UInt8) : Ordering :=
  compareInternal (entrySlice aptr) (entrySlice bptr)

abbrev MemTable := SkipList (List UInt8)

namespace MemTable

def entry (seq : Nat) (type : UInt8) (key value : List UInt8) : List UInt8 :=
  putLengthPrefixedSlice (key ++ wordBytes 8 (packSequenceAndType seq type)) ++
    putLengthPrefixedSlice value

def add (mem : MemTable) (height seq : Nat) (type : UInt8) (key value : List UInt8) : MemTable :=
  mem.insert compareEntries height (entry seq type key value)

def lookupKey (userKey : List UInt8) (seq : Nat) : List UInt8 :=
  putLengthPrefixedSlice (userKey ++ wordBytes 8 (packSequenceAndType seq kTypeValue))

/-- `Get`: nothing when the table does not know the key, else its value, or that it is deleted. -/
def get (mem : MemTable) (userKey : List UInt8) (seq : Nat) : Option (Option (List UInt8)) :=
  match mem.seek compareEntries (lookupKey userKey seq) with
  | none => none
  | some e =>
    let internalKey := entrySlice e
    if extractUserKey internalKey = userKey then
      let type := tagOf internalKey % 256
      if type = kTypeValue.toNat then some (some (entrySlice (entryRest e)))
      else if type = kTypeDeletion.toNat then some none
      else none
    else none

structure Inserter where
  sequence_ : Nat
  mem_ : MemTable
  heights : List Nat

def Inserter.handle (s : Inserter) (op : BatchOp) : Inserter :=
  let height := s.heights.headD 1
  let mem := match op with
    | .put key value => s.mem_.add height s.sequence_ kTypeValue key value
    | .delete key => s.mem_.add height s.sequence_ kTypeDeletion key []
  ⟨s.sequence_ + 1, mem, s.heights.tail⟩

def insertInto (b : WriteBatch) (mem : MemTable) (heights : List Nat) :
    Status × MemTable × List Nat :=
  let r := b.iterate Inserter.handle ⟨b.sequence, mem, heights⟩
  (r.1, r.2.mem_, r.2.heights)

end MemTable

end Triangles.LevelDb
