import Triangles.Lib.Cursor
import Triangles.Model.LevelBatch

/-! The blocks of a table file (block_builder.cc, block.cc): entries that share the beginnings of
their keys, and the iterator over them. Offsets are in the block. -/

namespace Triangles.LevelDb

def fixed32Bytes (v : Nat) : List UInt8 := wordBytes 4 v

def uint32_t (n : Nat) : Nat := n % 2 ^ 32

def sharedLength : List UInt8 → List UInt8 → Nat
  | a :: as, b :: bs => if a = b then sharedLength as bs + 1 else 0
  | _, _ => 0

structure BlockBuilder where
  buffer_ : List UInt8
  restarts_ : List Nat
  counter_ : Nat
  last_key_ : List UInt8
deriving DecidableEq

namespace BlockBuilder

def reset : BlockBuilder := ⟨[], [0], 0, []⟩

/-- `Add`. Its assertions are that the key is above the last one and the block is not finished. -/
def add (block_restart_interval : Nat) (b : BlockBuilder) (key value : List UInt8) : BlockBuilder :=
  let restart := ¬ b.counter_ < block_restart_interval
  let shared := if restart then 0 else sharedLength b.last_key_ key
  let restarts_ := if restart then b.restarts_ ++ [uint32_t b.buffer_.length] else b.restarts_
  let counter_ := if restart then 0 else b.counter_
  let non_shared := key.length - shared
  { buffer_ := b.buffer_ ++ (encodeVarint32 (uint32_t shared) ++ (encodeVarint32 (uint32_t non_shared) ++
      (encodeVarint32 (uint32_t value.length) ++ ((key.drop shared).take non_shared ++ value))))
    restarts_ := restarts_
    counter_ := counter_ + 1
    last_key_ := b.last_key_.take shared ++ (key.drop shared).take non_shared }

def finish (b : BlockBuilder) : List UInt8 :=
  b.buffer_ ++ (b.restarts_.flatMap fixed32Bytes ++ fixed32Bytes (uint32_t b.restarts_.length))

end BlockBuilder

structure Block where
  data_ : List UInt8
  size_ : Nat
  restart_offset_ : Nat
deriving DecidableEq

def numRestarts (data_ : List UInt8) (size_ : Nat) : Nat := leValue ((data_.drop (size_ - 4)).take 4)

def Block.new (data_ : List UInt8) : Block :=
  let size_ := data_.length
  if size_ < 4 then ⟨data_, 0, 0⟩
  else
    let max_restarts_allowed := (size_ - 4) / 4
    if numRestarts data_ size_ > max_restarts_allowed then ⟨data_, 0, 0⟩
    else ⟨data_, size_, size_ - (1 + numRestarts data_ size_) * 4⟩

def decodeLengths (p : List UInt8) : Option (Nat × Nat × Nat × List UInt8) := do
  let (shared, p) ← getVarint32 p
  let (non_shared, p) ← getVarint32 p
  let (value_length, p) ← getVarint32 p
  some (shared, non_shared, value_length, p)

/-- `DecodeEntry` of what there is up to the limit. -/
def decodeEntry (p : List UInt8) : Option (Nat × Nat × Nat × List UInt8) := do
  let (shared, non_shared, value_length, p) ←
    match p with
    | a :: b :: c :: rest =>
      -- the fast path: all three are encoded in one byte each
      if a.toNat ||| b.toNat ||| c.toNat < 128 then some (a.toNat, b.toNat, c.toNat, rest)
      else decodeLengths p
    | _ => none
  if uint32_t p.length < uint32_t (non_shared + value_length) then none
  else some (shared, non_shared, value_length, p)

structure BlockIter where
  data_ : List UInt8
  restarts_ : Nat
  num_restarts_ : Nat
  current_ : Nat
  restart_index_ : Nat
  key_ : List UInt8 := []
  value_ : Nat × Nat := (0, 0)
  status_ : Status := .ok
deriving DecidableEq

def Block.newIterator (b : Block) : Except Status (Option BlockIter) :=
  if b.size_ < 4 then .error (.corruption "bad block contents")
  else
    let num_restarts := numRestarts b.data_ b.size_
    if num_restarts = 0 then .ok none
    else .ok (some { data_ := b.data_, restarts_ := b.restart_offset_, num_restarts_ := num_restarts,
                     current_ := b.restart_offset_, restart_index_ := num_restarts })

namespace BlockIter

def valid (it : BlockIter) : Bool := it.current_ < it.restarts_

def value (it : BlockIter) : List UInt8 := (it.data_.drop it.value_.1).take it.value_.2

def nextEntryOffset (it : BlockIter) : Nat := uint32_t (it.value_.1 + it.value_.2)

def getRestartPoint (it : BlockIter) (index : Nat) : Nat :=
  leValue ((it.data_.drop (it.restarts_ + index * 4)).take 4)

def seekToRestartPoint (it : BlockIter) (index : Nat) : BlockIter :=
  { it with key_ := [], restart_index_ := index, value_ := (it.getRestartPoint index, 0) }

def corruptionError (it : BlockIter) : BlockIter :=
  { it with
    current_ := it.restarts_
    restart_index_ := it.num_restarts_
    status_ := .corruption "bad entry in block"
    key_ := []
    value_ := (0, 0) }

def restartLoop (it : BlockIter) : Nat → Nat → Nat
  | 0, restart_index => restart_index
  | rounds + 1, restart_index =>
    if restart_index + 1 < it.num_restarts_ ∧ it.getRestartPoint (restart_index + 1) < it.current_ then
      restartLoop it rounds (restart_index + 1)
    else restart_index

def parseNextKey (it : BlockIter) : Bool × BlockIter :=
  let it := { it with current_ := it.nextEntryOffset }
  if it.current_ ≥ it.restarts_ then
    (false, { it with current_ := it.restarts_, restart_index_ := it.num_restarts_ })
  else
    match decodeEntry ((it.data_.take it.restarts_).drop it.current_) with
    | none => (false, it.corruptionError)
    | some (shared, non_shared, value_length, p) =>
      if it.key_.length < shared then (false, it.corruptionError)
      else
        let it := { it with
          key_ := it.key_.take shared ++ p.take non_shared
          value_ := (it.restarts_ - p.length + non_shared, value_length) }
        (true, { it with restart_index_ := restartLoop it it.num_restarts_ it.restart_index_ })

def prevLoop (it : BlockIter) (original : Nat) : Nat → Option Nat
  | 0 => if it.getRestartPoint 0 ≥ original then none else some 0
  | restart_index + 1 =>
    if it.getRestartPoint (restart_index + 1) ≥ original then prevLoop it original restart_index
    else some (restart_index + 1)

/-- `do { } while (ParseNextKey() && NextEntryOffset() < limit)`. In a block that was built every round
goes on by an entry. -/
def skipTo (limit : Nat) : Nat → BlockIter → BlockIter
  | 0, it => it
  | rounds + 1, it =>
    let (more, it) := it.parseNextKey
    if more ∧ it.nextEntryOffset < limit then skipTo limit rounds it else it

def prev (it : BlockIter) : BlockIter :=
  let original := it.current_
  match prevLoop it original it.restart_index_ with
  | none => { it with current_ := it.restarts_, restart_index_ := it.num_restarts_ }
  | some restart_index =>
    skipTo original (it.restarts_ + 1) (it.seekToRestartPoint restart_index)

def next (it : BlockIter) : BlockIter := it.parseNextKey.2

def seekToFirst (it : BlockIter) : BlockIter := (it.seekToRestartPoint 0).parseNextKey.2

def seekToLast (it : BlockIter) : BlockIter :=
  skipTo it.restarts_ (it.restarts_ + 1) (it.seekToRestartPoint (it.num_restarts_ - 1))

section Seek

variable (compare : List UInt8 → List UInt8 → Ordering)

/-- The binary search of `Seek`; nothing stands for a bad entry. -/
def seekLoop (it : BlockIter) (target : List UInt8) : Nat → Nat → Nat → Option Nat
  | 0, left, _ => some left
  | rounds + 1, left, right =>
    if left < right then
      let mid := (left + right + 1) / 2
      let region_offset := it.getRestartPoint mid
      match decodeEntry ((it.data_.take it.restarts_).drop region_offset) with
      | none => none
      | some (shared, non_shared, _, key_ptr) =>
        if shared ≠ 0 then none
        else if compare (key_ptr.take non_shared) target = .lt then
          seekLoop it target rounds mid right
        else seekLoop it target rounds left (mid - 1)
    else some left

def seekScan (target : List UInt8) : Nat → BlockIter → BlockIter
  | 0, it => it
  | rounds + 1, it =>
    let (more, it) := it.parseNextKey
    if more = false then it
    else if compare it.key_ target ≠ .lt then it
    else seekScan target rounds it

def seek (it : BlockIter) (target : List UInt8) : BlockIter :=
  match seekLoop compare it target it.num_restarts_ 0 (it.num_restarts_ - 1) with
  | none => it.corruptionError
  | some left => seekScan compare target (it.restarts_ + 1) (it.seekToRestartPoint left)

end Seek

/-- A move of the iterator. It asserts that it stands at an entry before `Next` and `Prev`. -/
def move (compare : List UInt8 → List UInt8 → Ordering) (it : BlockIter) :
    Cursors.Move (List UInt8) → BlockIter
  | .first => it.seekToFirst
  | .last => it.seekToLast
  | .seek target => it.seek compare target
  | .next => if it.valid then it.next else it
  | .prev => if it.valid then it.prev else it

def entry (it : BlockIter) : Option (List UInt8 × List UInt8) :=
  if it.valid then some (it.key_, it.value) else none

def iterator (compare : List UInt8 → List UInt8 → Ordering) :
    Cursors.Iterator BlockIter (List UInt8) (List UInt8) Status where
  move := move compare
  entry := entry
  status := status_

end BlockIter

def buildBlock (block_restart_interval : Nat) (entries : List (List UInt8 × List UInt8)) : BlockBuilder :=
  entries.foldl (fun b e => b.add block_restart_interval e.1 e.2) .reset

end Triangles.LevelDb
