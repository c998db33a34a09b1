import Triangles.Model.LevelBatch

/-! The log of the database (log_writer.cc, log_reader.cc), a commit, and what the next start makes
of the log (db_impl.cc). The checksum is an argument. The reader starts at offset 0 and no read of
the file fails. -/

namespace Triangles.LevelDb

def kZeroType : Nat := 0
def kFullType : Nat := 1
def kFirstType : Nat := 2
def kMiddleType : Nat := 3
def kLastType : Nat := 4
def kMaxRecordType : Nat := kLastType

def kEof : Nat := kMaxRecordType + 1
def kBadRecord : Nat := kMaxRecordType + 2

def kBlockSize : Nat := 32768

def kHeaderSize : Nat := 4 + 2 + 1

/-! crc32c.h. -/

def kMaskDelta : UInt32 := 0xa282ead8

def mask (crc : UInt32) : UInt32 := ((crc >>> 15) ||| (crc <<< 17)) + kMaskDelta

def unmask (maskedCrc : UInt32) : UInt32 :=
  let rot := maskedCrc - kMaskDelta
  (rot >>> 17) ||| (rot <<< 15)

/-! log_writer.cc. -/

/-- What has been appended to the file, and where in its last block that ends. -/
structure LogWriter where
  dest_ : List UInt8
  block_offset_ : Nat
deriving DecidableEq, Repr

section Checksum

-- `crc32c::Value`
variable (crc : List UInt8 → UInt32)

def physicalRecord (t : Nat) (ptr : List UInt8) : List UInt8 :=
  let n := ptr.length
  wordBytes 4 (mask (crc (byte t :: ptr))).toNat ++ [byte (n &&& 0xff), byte (n >>> 8), byte t] ++ ptr

namespace LogWriter

def empty : LogWriter := ⟨[], 0⟩

def emitPhysicalRecord (w : LogWriter) (t : Nat) (ptr : List UInt8) : LogWriter :=
  ⟨w.dest_ ++ physicalRecord crc t ptr, w.block_offset_ + (kHeaderSize + ptr.length)⟩

/-- Switching to a new block where no header fits into this one. -/
def switchBlock (w : LogWriter) : LogWriter :=
  let leftover := kBlockSize - w.block_offset_
  if leftover < kHeaderSize then ⟨w.dest_ ++ List.replicate leftover 0, 0⟩ else w

def recordType (begin_ end_ : Bool) : Nat :=
  if begin_ && end_ then kFullType
  else if begin_ then kFirstType
  else if end_ then kLastType
  else kMiddleType

def addRounds : Nat → Bool → List UInt8 → LogWriter → LogWriter
  | 0, _, _, w => w
  | rounds + 1, begin_, ptr, w =>
    let w := w.switchBlock
    let avail := kBlockSize - w.block_offset_ - kHeaderSize
    let fragment_length := if ptr.length < avail then ptr.length else avail
    let type := recordType begin_ (ptr.length == fragment_length)
    let w := w.emitPhysicalRecord crc type (ptr.take fragment_length)
    let left := ptr.drop fragment_length
    if left.isEmpty then w else addRounds rounds false left w

/-- `AddRecord`. A round takes a byte at least, except the first, which may fill a block with an
empty fragment. -/
def addRecord (w : LogWriter) (slice : List UInt8) : LogWriter :=
  w.addRounds crc (slice.length + 2) true slice

end LogWriter

/-! log_reader.cc. -/

/-- A reader: what is left of the file behind the buffer, the buffer, and the corruptions that were
reported. -/
structure LogReader where
  file_ : List UInt8
  buffer_ : List UInt8 := []
  eof_ : Bool := false
  reports : List (Nat × String) := []
deriving DecidableEq, Repr

namespace LogReader

def reportCorruption (r : LogReader) (bytes : Nat) (reason : String) : LogReader :=
  { r with reports := r.reports ++ [(bytes, reason)] }

def dropBuffer (r : LogReader) (reason : String) : LogReader :=
  { r with buffer_ := [] }.reportCorruption r.buffer_.length reason

def readBlock (r : LogReader) : LogReader :=
  let buffer := r.file_.take kBlockSize
  { r with
    file_ := r.file_.drop kBlockSize
    buffer_ := buffer
    eof_ := r.eof_ || decide (buffer.length < kBlockSize) }

def typeOf (c : UInt8) : Nat := if c.toNat < 128 then c.toNat else c.toNat + 2 ^ 32 - 256

/-- `ReadPhysicalRecord`: the type or what stands for it, and the fragment. A block that was read in
full holds a header, so that the loop of the source reads a block at most once. -/
def readPhysicalRecord (r : LogReader) : (Nat × List UInt8) × LogReader :=
  let r := if r.buffer_.length < kHeaderSize ∧ r.eof_ = false then r.readBlock else r
  if r.buffer_.length < kHeaderSize then
    if r.buffer_.length = 0 then ((kEof, []), r)
    else ((kEof, []), r.dropBuffer "truncated record at end of file")
  else
    let header := r.buffer_
    let a := (header.getD 4 0).toNat
    let b := (header.getD 5 0).toNat
    let type := typeOf (header.getD 6 0)
    let length := a ||| b <<< 8
    if r.buffer_.length < kHeaderSize + length then
      ((kBadRecord, []), r.dropBuffer "bad record length")
    else if type = kZeroType ∧ length = 0 then ((kBadRecord, []), { r with buffer_ := [] })
    else if crc ((header.drop 6).take (1 + length)) ≠
        unmask (UInt32.ofNat (leValue (header.take 4))) then
      ((kBadRecord, []), r.dropBuffer "checksum mismatch")
    else
      ((type, (header.drop kHeaderSize).take length),
        { r with buffer_ := r.buffer_.drop (kHeaderSize + length) })

/-- The loop of `ReadRecord`, one round for a fragment: the fragments so far, when a record has been
begun. -/
def readRounds : Nat → Option (List UInt8) → LogReader → Option (List UInt8) × LogReader
  | 0, _, r => (none, r)
  | rounds + 1, scratch, r =>
    let ((record_type, fragment), r) := r.readPhysicalRecord crc
    let partialRecord (reason : String) : LogReader :=
      match scratch with
      | some (c :: cs) => r.reportCorruption (c :: cs).length reason
      | _ => r
    if record_type = kFullType then (some fragment, partialRecord "partial record without end(1)")
    else if record_type = kFirstType then
      readRounds rounds (some fragment) (partialRecord "partial record without end(2)")
    else if record_type = kMiddleType then
      match scratch with
      | none =>
        readRounds rounds none
          (r.reportCorruption fragment.length "missing start of fragmented record(1)")
      | some s => readRounds rounds (some (s ++ fragment)) r
    else if record_type = kLastType then
      match scratch with
      | none =>
        readRounds rounds none
          (r.reportCorruption fragment.length "missing start of fragmented record(2)")
      | some s => (some (s ++ fragment), r)
    else if record_type = kEof then
      match scratch with
      | none => (none, r)
      | some s => (none, r.reportCorruption s.length "partial record without end(3)")
    else if record_type = kBadRecord then
      match scratch with
      | none => readRounds rounds none r
      | some s => readRounds rounds none (r.reportCorruption s.length "error in middle of record")
    else
      readRounds rounds none
        (r.reportCorruption (fragment.length + (scratch.getD []).length)
          ("unknown record type " ++ toString record_type))

def readRecord (r : LogReader) : Option (List UInt8) × LogReader :=
  r.readRounds crc (r.file_.length + r.buffer_.length + 1) none

end LogReader

/-! db_impl.cc. -/

structure Recovered where
  mem : MemTable
  max_sequence : Nat
  heights : List Nat

/-- A record of the log, replayed. `paranoid_checks` is off, so that errors are ignored. -/
def Recovered.replay (s : Recovered) (record : List UInt8) : Recovered :=
  if record.length < kHeader then s
  else
    let batch := WriteBatch.setContents record
    let (_, mem, heights) := MemTable.insertInto batch s.mem s.heights
    let last_seq := (((batch.sequence : Int) + batch.count - 1) % 2 ^ 64).toNat
    ⟨mem, max s.max_sequence last_seq, heights⟩

def recoverRounds : Nat → LogReader → Recovered → Recovered
  | 0, _, s => s
  | rounds + 1, r, s =>
    match r.readRecord crc with
    | (none, _) => s
    | (some record, r) => recoverRounds rounds r (s.replay record)

def recoverLogFile (file : List UInt8) (heights : List Nat) : Recovered :=
  recoverRounds crc (file.length + 1) { file_ := file } ⟨SkipList.empty, 0, heights⟩

structure DBImpl where
  last_sequence : Nat
  log_ : LogWriter
  mem_ : MemTable

def DBImpl.new : DBImpl := ⟨0, LogWriter.empty, SkipList.empty⟩

structure Writer where
  batch : WriteBatch
  sync : Bool

/-- The loop of `BuildBatchGroup`: the batches that go with the first, and the writers behind
them. -/
def groupLoop (first : Writer) (max_size : Nat) : Nat → List Writer → List WriteBatch × List Writer
  | _, [] => ([], [])
  | size, w :: rest =>
    if w.sync ∧ ¬ first.sync then ([], w :: rest)
    else
      let size := size + w.batch.rep_.length
      if size > max_size then ([], w :: rest)
      else
        let (batches, behind) := groupLoop first max_size size rest
        (w.batch :: batches, behind)

/-- `BuildBatchGroup`: one batch for the first writer and those that go with it, and the writers
that are left waiting. -/
def buildBatchGroup (first : Writer) (writers : List Writer) : WriteBatch × List Writer :=
  let size := first.batch.rep_.length
  let max_size := if size ≤ 128 <<< 10 then size + 128 <<< 10 else 1 <<< 20
  let (batches, behind) := groupLoop first max_size size writers
  if batches.isEmpty then (first.batch, behind)
  else (batches.foldl WriteBatch.append (WriteBatch.clear.append first.batch), behind)

def write_buffer_size : Nat := 4 <<< 20

/-- What the first writer in the queue writes for those that go with it. No write fails. -/
def DBImpl.writeGroup (db : DBImpl) (first : Writer) (writers : List Writer)
    (heights : List Nat) : DBImpl × List Writer :=
  let (group, behind) := buildBatchGroup first writers
  let updates := group.setSequence (db.last_sequence + 1)
  ({ last_sequence := db.last_sequence + updates.count.toNat
     log_ := db.log_.addRecord crc updates.rep_
     mem_ := (MemTable.insertInto updates db.mem_ heights).2.1 }, behind)

variable (usage : MemTable → Nat)

/-- `MakeRoomForWrite` where the table has room, by its `ApproximateMemoryUsage`. Nothing where it
is full: there log and table are changed for new ones, which is not followed. -/
def DBImpl.makeRoomForWrite (db : DBImpl) : Option DBImpl :=
  if usage db.mem_ ≤ write_buffer_size then some db else none

def DBImpl.write (db : DBImpl) (first : Writer) (writers : List Writer) (heights : List Nat) :
    Option (DBImpl × List Writer) :=
  (db.makeRoomForWrite usage).map fun db => db.writeGroup crc first writers heights

/-- As long as the first table has room there is no other one to look a key up in. -/
def DBImpl.get (db : DBImpl) (key : List UInt8) : Option (Option (List UInt8)) :=
  db.mem_.get key db.last_sequence

structure WriteQueue where
  db : DBImpl
  writers_ : List Writer

/-- A writer comes to the end of the queue with its changes, or the first in the queue writes, with
the heights that the skip list draws. -/
inductive WriteEvent where
  | arrive (changes : List BatchOp) (sync : Bool)
  | write (heights : List Nat)

def WriteQueue.step (q : WriteQueue) : WriteEvent → Option WriteQueue
  | .arrive changes sync =>
    some { q with
      writers_ := q.writers_ ++ [⟨changes.foldl WriteBatch.change WriteBatch.clear, sync⟩] }
  | .write heights =>
    match q.writers_ with
    | [] => some q
    | first :: writers =>
      (q.db.write crc usage first writers heights).map fun r => ⟨r.1, r.2⟩

def WriteQueue.run (events : List WriteEvent) : Option WriteQueue :=
  events.foldlM (WriteQueue.step crc usage) ⟨DBImpl.new, []⟩

end Checksum

end Triangles.LevelDb
