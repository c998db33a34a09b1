import Mathlib.Logic.Function.Basic
import Triangles.Lib.Lz77
import Triangles.Model.Serialize
import Triangles.Model.SmsgStore

/-! XXH32 as the secure messages use it (xxhash.c, smessage.cpp): the hash in one call, the hash of
a stream that comes in pieces, and the loop over the tokens of a bucket. A little-endian processor
and one that swaps its words read the same numbers. -/

namespace Triangles.XXH

def PRIME32_1 : UInt32 := 2654435761
def PRIME32_2 : UInt32 := 2246822519
def PRIME32_3 : UInt32 := 3266489917
def PRIME32_4 : UInt32 := 668265263
def PRIME32_5 : UInt32 := 374761393

def rotl32 (x r : UInt32) : UInt32 := (x <<< r) ||| (x >>> (32 - r))

def readLE32 (p : List UInt8) : UInt32 := UInt32.ofNat (leValue (p.take 4))

structure Lanes where
  v1 : UInt32
  v2 : UInt32
  v3 : UInt32
  v4 : UInt32
deriving DecidableEq, Repr

def Lanes.start (seed : UInt32) : Lanes where
  v1 := seed + PRIME32_1 + PRIME32_2
  v2 := seed + PRIME32_2
  v3 := seed + 0
  v4 := seed - PRIME32_1

def mix (v lane : UInt32) : UInt32 := rotl32 (v + lane * PRIME32_2) 13 * PRIME32_1

def Lanes.stripe (v : Lanes) (p : List UInt8) : Lanes where
  v1 := mix v.v1 (readLE32 p)
  v2 := mix v.v2 (readLE32 (p.drop 4))
  v3 := mix v.v3 (readLE32 (p.drop 8))
  v4 := mix v.v4 (readLE32 (p.drop 12))

def Lanes.merge (v : Lanes) : UInt32 :=
  rotl32 v.v1 1 + rotl32 v.v2 7 + rotl32 v.v3 12 + rotl32 v.v4 18

def tailWord (h32 : UInt32) (p : List UInt8) : UInt32 :=
  rotl32 (h32 + readLE32 p * PRIME32_3) 17 * PRIME32_4

def tailByte (h32 : UInt32) (c : UInt8) : UInt32 :=
  rotl32 (h32 + c.toUInt32 * PRIME32_5) 11 * PRIME32_1

def avalanche (h32 : UInt32) : UInt32 :=
  let h32 := (h32 ^^^ (h32 >>> 15)) * PRIME32_2
  let h32 := (h32 ^^^ (h32 >>> 13)) * PRIME32_3
  h32 ^^^ (h32 >>> 16)

def finish (h32 : UInt32) (p : List UInt8) : UInt32 :=
  let words := Absorb.eat 4 tailWord h32 p
  avalanche (words.2.foldl tailByte words.1)

def xxh32 (input : List UInt8) (seed : UInt32) : UInt32 :=
  if 16 ≤ input.length then
    let stripes := Absorb.eat 16 Lanes.stripe (Lanes.start seed) input
    finish (stripes.1.merge + UInt32.ofNat input.length) stripes.2
  else finish (seed + PRIME32_5 + UInt32.ofNat input.length) input

/-- `XXH_state32_t`. Of `memory` its first `memsize` bytes are kept; the others are never read. -/
structure State where
  total_len : UInt64
  seed : UInt32
  v : Lanes
  memory : List UInt8
deriving DecidableEq, Repr

def State.memsize (s : State) : Nat := s.memory.length

def State.init (seed : UInt32) : State := ⟨0, seed, Lanes.start seed, []⟩

def State.update (s : State) (input : List UInt8) : State :=
  let total_len := s.total_len + UInt64.ofNat input.length
  if s.memsize + input.length < 16 then
    { s with total_len := total_len, memory := s.memory ++ input }
  else
    let fill := 16 - s.memsize
    let v := if s.memsize = 0 then s.v else s.v.stripe (s.memory ++ input.take fill)
    let p := if s.memsize = 0 then input else input.drop fill
    let stripes := Absorb.eat 16 Lanes.stripe v p
    { s with total_len := total_len, v := stripes.1, memory := stripes.2 }

def State.digest (s : State) : UInt32 :=
  let h32 := if 16 ≤ s.total_len then s.v.merge else s.seed + PRIME32_5
  finish (h32 + s.total_len.toUInt32) s.memory

def bucketDigest (setTokens : TokenSet) : UInt32 :=
  (setTokens.keys.foldl (fun state t => state.update t.sample) (State.init 1)).digest

end Triangles.XXH

/-! LZ4 (lz4.c) as the secure messages use it: `LZ4_compress` and `LZ4_decompress_safe` on a machine
of 64 bits. Pointers are offsets in their buffers. -/

namespace Triangles.LZ4

def MINMATCH : Nat := 4
def COPYLENGTH : Nat := 8
def LASTLITERALS : Nat := 5
def MFLIMIT : Nat := COPYLENGTH + MINMATCH
def LZ4_minLength : Nat := MFLIMIT + 1
def LZ4_64KLIMIT : Nat := 65536 + (MFLIMIT - 1)
def SKIPSTRENGTH : Nat := 6
def MAX_DISTANCE : Nat := 65535
def LZ4_HASHLOG : Nat := 12
def LZ4_MAX_INPUT_SIZE : Nat := 0x7E000000
def STEPSIZE : Nat := 8

def LZ4_compressBound (isize : Nat) : Nat :=
  if isize > LZ4_MAX_INPUT_SIZE then 0 else isize + isize / 255 + 16

def ML_BITS : Nat := 4
def ML_MASK : Nat := 15
def RUN_MASK : Nat := 15

inductive TableType where
  | byU32
  | byU16
deriving DecidableEq, Repr

/-! Compression. -/

section Compress

-- `source`
variable (src : List UInt8)

/-- Two, four or eight bytes of the source as a number (`A16`, `A32`, `AARCH`). -/
def wordAt (width p : Nat) : Nat := leValue ((src.drop p).take width)

def trailingZeros : Nat → Nat → Nat
  | 0, _ => 0
  | bits + 1, v => if v % 2 = 1 then 0 else trailingZeros bits (v / 2) + 1

def nbCommonBytes (val : Nat) : Nat := trailingZeros 64 val >>> 3

def hashSequence (sequence : Nat) : TableType → Nat
  | .byU16 => (sequence * 2654435761 % 2 ^ 32) >>> (MINMATCH * 8 - (LZ4_HASHLOG + 1))
  | .byU32 => (sequence * 2654435761 % 2 ^ 32) >>> (MINMATCH * 8 - LZ4_HASHLOG)

def hashPosition (p : Nat) (tableType : TableType) : Nat :=
  hashSequence (wordAt src 4 p) tableType

def putPositionOnHash (p h : Nat) (table : Nat → Nat) : TableType → Nat → Nat
  | .byU32 => Function.update table h (p % 2 ^ 32)
  | .byU16 => Function.update table h (p % 2 ^ 16)

def putPosition (p : Nat) (table : Nat → Nat) (tableType : TableType) : Nat → Nat :=
  putPositionOnHash p (hashPosition src p tableType) table tableType

def getPosition (p : Nat) (table : Nat → Nat) (tableType : TableType) : Nat :=
  table (hashPosition src p tableType)

/-- The search for a match: where it is, what it repeats and the table, or nothing when the end comes
too near. -/
def findMatch (tableType : TableType) : Nat → Nat → Nat → Nat → (Nat → Nat) →
    Option (Nat × Nat × (Nat → Nat))
  | 0, _, _, _, _ => none
  | rounds + 1, findMatchAttempts, forwardIp, forwardH, table =>
    let h := forwardH
    let step := findMatchAttempts >>> SKIPSTRENGTH
    let ip := forwardIp
    let forwardIp := ip + step
    if forwardIp > src.length - MFLIMIT then none
    else
      let forwardH := hashPosition src forwardIp tableType
      let ref := table h
      let table := putPositionOnHash ip h table tableType
      if ref + MAX_DISTANCE < ip ∨ wordAt src 4 ref ≠ wordAt src 4 ip then
        findMatch tableType rounds (findMatchAttempts + 1) forwardIp forwardH table
      else some (ip, ref, table)

def catchUp (anchor : Nat) : Nat → Nat → Nat × Nat
  | 0, ref => (0, ref)
  | ip + 1, ref =>
    if ip + 1 > anchor ∧ ref > 0 ∧ src.getD ip 0 = src.getD (ref - 1) 0 then
      catchUp anchor ip (ref - 1)
    else (ip + 1, ref)

def runBytes : Nat → Nat → List UInt8
  | 0, len => [UInt8.ofNat len]
  | rounds + 1, len =>
    if len ≥ 255 then 255 :: runBytes rounds (len - 255) else [UInt8.ofNat len]

/-- The same for a match, where two bytes are written at a time. -/
def matchBytes : Nat → Nat → List UInt8
  | 0, length => [UInt8.ofNat length]
  | rounds + 1, length =>
    if length > 509 then 255 :: 255 :: matchBytes rounds (length - 510)
    else if length ≥ 255 then [255, UInt8.ofNat (length - 255)]
    else [UInt8.ofNat length]

def countSteps : Nat → Nat → Nat → Nat × Nat × Bool
  | 0, ip, ref => (ip, ref, false)
  | rounds + 1, ip, ref =>
    if ip < src.length - LASTLITERALS - (STEPSIZE - 1) then
      let diff := wordAt src 8 ref ^^^ wordAt src 8 ip
      if diff = 0 then countSteps rounds (ip + STEPSIZE) (ref + STEPSIZE)
      else (ip + nbCommonBytes diff, ref, true)
    else (ip, ref, false)

def countWord (width limit ip ref : Nat) : Nat × Nat :=
  if ip < limit ∧ wordAt src width ref = wordAt src width ip then (ip + width, ref + width)
  else (ip, ref)

def countMatch (ip ref : Nat) : Nat :=
  let matchlimit := src.length - LASTLITERALS
  let (ip, ref, endCount) := countSteps src src.length ip ref
  if endCount then ip
  else
    let (ip, ref) := countWord src 4 (matchlimit - 3) ip ref
    let (ip, ref) := countWord src 2 (matchlimit - 1) ip ref
    if ip < matchlimit ∧ src.getD ref 0 = src.getD ip 0 then ip + 1 else ip

/-- Where the main loop goes on: to look for a match, or at `_next_match`. -/
inductive Point where
  | search (ip anchor forwardH : Nat)
  | nextMatch (ip ref token : Nat)

/-- The literals of a sequence, with the token in front of them. Copying them in steps of eight
bytes writes beyond their end, where the next bytes are written over it. -/
def literals (anchor ip : Nat) (op : List UInt8) : List UInt8 :=
  let length := ip - anchor
  let head :=
    if length ≥ RUN_MASK then
      UInt8.ofNat (RUN_MASK <<< ML_BITS) :: runBytes length (length - RUN_MASK)
    else [UInt8.ofNat (length <<< ML_BITS)]
  op ++ head ++ (src.drop anchor).take length

def matchCode (offset length token : Nat) (op : List UInt8) : List UInt8 :=
  let op := op ++ wordBytes 2 offset
  if length ≥ ML_MASK then
    op.modify token (· + UInt8.ofNat ML_MASK) ++ matchBytes length (length - ML_MASK)
  else op.modify token (· + UInt8.ofNat length)

def mainLoop (tableType : TableType) : Nat → Point → (Nat → Nat) → List UInt8 →
    Option (Nat × List UInt8)
  | 0, _, _, _ => none
  | rounds + 1, .search ip anchor forwardH, table, op =>
    let findMatchAttempts := 1 <<< SKIPSTRENGTH + 3
    match findMatch src tableType src.length findMatchAttempts ip forwardH table with
    | none => some (anchor, op)
    | some (ip, ref, table) =>
      let (ip, ref) := catchUp src anchor ip ref
      mainLoop tableType rounds (.nextMatch ip ref op.length) table (literals src anchor ip op)
  | rounds + 1, .nextMatch ip ref token, table, op =>
    let offset := ip - ref
    let anchor := ip + MINMATCH
    let ip := countMatch src anchor (ref + MINMATCH)
    let op := matchCode offset (ip - anchor) token op
    if ip > src.length - MFLIMIT then some (ip, op)
    else
      let table := putPosition src (ip - 2) table tableType
      let ref := getPosition src ip table tableType
      let table := putPosition src ip table tableType
      if ref + MAX_DISTANCE ≥ ip ∧ wordAt src 4 ref = wordAt src 4 ip then
        mainLoop tableType rounds (.nextMatch ip ref op.length) table (op ++ [0])
      else
        mainLoop tableType rounds (.search (ip + 1) ip (hashPosition src (ip + 1) tableType)) table op

def lastLiterals (anchor : Nat) (op : List UInt8) : List UInt8 := literals src anchor src.length op

/-- `LZ4_compress_generic` without a prefix and without a limit of the output; nothing is written
where it returns 0. A round of the loop finds a match or goes over one. -/
def compressGeneric (tableType : TableType) : Option (List UInt8) :=
  if src.length > LZ4_MAX_INPUT_SIZE then some []
  else if tableType = .byU16 ∧ src.length ≥ LZ4_64KLIMIT then some []
  else if src.length < LZ4_minLength then some (lastLiterals src 0 [])
  else
    let table := putPosition src 0 (fun _ => 0) tableType
    (mainLoop src tableType (2 * src.length) (.search 1 0 (hashPosition src 1 tableType)) table
      []).map fun (anchor, op) => lastLiterals src anchor op

def compress : Option (List UInt8) :=
  if src.length < LZ4_64KLIMIT then compressGeneric src .byU16 else compressGeneric src .byU32

end Compress

/-! Decompression. A buffer is its bytes by their places; there is nothing outside of it. -/

def load (size : Nat) (mem : Nat → UInt8) (p width : Nat) : Option (List UInt8) :=
  if p + width ≤ size then some ((List.range width).map fun i => mem (p + i)) else none

def store (size : Nat) (mem : Nat → UInt8) (p : Nat) (bytes : List UInt8) : Option (Nat → UInt8) :=
  if p + bytes.length ≤ size then
    some fun i => if p ≤ i ∧ i < p + bytes.length then bytes.getD (i - p) 0 else mem i
  else none

def memcpy (size : Nat) (mem : Nat → UInt8) (op : Nat) (srcSize : Nat) (src : Nat → UInt8)
    (ip width : Nat) : Option (Nat → UInt8) :=
  (load srcSize src ip width).bind (store size mem op)

/-- `LZ4_WILDCOPY` from the source: eight bytes at a time, until `e` is reached. -/
def wildCopySource (size srcSize : Nat) (src : Nat → UInt8) (e : Nat) :
    Nat → (Nat → UInt8) → Nat → Nat → Option ((Nat → UInt8) × Nat)
  | 0, _, _, _ => none
  | rounds + 1, mem, d, s => do
    let mem ← memcpy size mem d srcSize src s COPYLENGTH
    let d := d + COPYLENGTH
    let s := s + COPYLENGTH
    if d < e then wildCopySource size srcSize src e rounds mem d s else some (mem, d)

def wildCopy (size e : Nat) :
    Nat → (Nat → UInt8) → Nat → Nat → Option ((Nat → UInt8) × Nat × Nat)
  | 0, _, _, _ => none
  | rounds + 1, mem, d, s => do
    let mem ← memcpy size mem d size mem s COPYLENGTH
    let d := d + COPYLENGTH
    let s := s + COPYLENGTH
    if d < e then wildCopy size e rounds mem d s else some (mem, d, s)

def secureCopy (size e : Nat) (mem : Nat → UInt8) (d s : Nat) :
    Option ((Nat → UInt8) × Nat × Nat) :=
  if d < e then wildCopy size e size mem d s else some (mem, d, s)

def byteCopy (size cpy : Nat) : Nat → (Nat → UInt8) → Nat → Nat → Option (Nat → UInt8)
  | 0, mem, _, _ => some mem
  | rounds + 1, mem, op, ref =>
    if op < cpy then do
      let mem ← memcpy size mem op size mem ref 1
      byteCopy size cpy rounds mem (op + 1) (ref + 1)
    else some mem

def dec32table : List Nat := [4 - 0, 4 - 3, 4 - 2, 4 - 3, 4 - 0, 4 - 0, 4 - 0, 4 - 0]

def dec64table : List Int := [0, 0, 0, -1, 0, 1, 2, 3]

def runLength (srcSize : Nat) (src : Nat → UInt8) : Nat → Nat → Nat → Option (Nat × Nat)
  | 0, ip, length => some (ip, length)
  | rounds + 1, ip, length =>
    if ip < srcSize then do
      let s ← load srcSize src ip 1
      let s := (s.getD 0 0).toNat
      if s = 255 then runLength srcSize src rounds (ip + 1) (length + s)
      else some (ip + 1, length + s)
    else some (ip, length)

def matchLength (srcSize : Nat) (src : Nat → UInt8) : Nat → Nat → Nat → Option (Nat × Nat)
  | 0, ip, length => some (ip, length)
  | rounds + 1, ip, length =>
    if ip + (LASTLITERALS + 1) < srcSize then do
      let s ← load srcSize src ip 1
      let s := (s.getD 0 0).toNat
      if s = 255 then matchLength srcSize src rounds (ip + 1) (length + s)
      else some (ip + 1, length + s)
    else some (ip, length)

def getRunLength (srcSize : Nat) (src : Nat → UInt8) (token ip : Nat) : Option (Nat × Nat) :=
  if token >>> ML_BITS = RUN_MASK then runLength srcSize src srcSize ip RUN_MASK
  else some (ip, token >>> ML_BITS)

def getMatchLength (srcSize : Nat) (src : Nat → UInt8) (token ip : Nat) : Option (Nat × Nat) :=
  if token &&& ML_MASK = ML_MASK then matchLength srcSize src srcSize ip ML_MASK
  else some (ip, token &&& ML_MASK)

/-- The first eight bytes of a match: the output, and where the copying goes on. Where the match
overlaps them they are written one by one, and the source is set back by a multiple of the distance. -/
def firstCopy (size : Nat) (mem : Nat → UInt8) (op ref : Nat) :
    Option ((Nat → UInt8) × Nat × Nat) :=
  if op - ref < STEPSIZE then do
    let dec64 := dec64table.getD (op - ref) 0
    let mem ← memcpy size mem op size mem ref 1
    let mem ← memcpy size mem (op + 1) size mem (ref + 1) 1
    let mem ← memcpy size mem (op + 2) size mem (ref + 2) 1
    let mem ← memcpy size mem (op + 3) size mem (ref + 3) 1
    let ref := ref + dec32table.getD (op - ref) 0
    let mem ← memcpy size mem (op + 4) size mem ref 4
    some (mem, op + STEPSIZE, ((ref : Int) - dec64).toNat)
  else do
    let mem ← memcpy size mem op size mem ref STEPSIZE
    some (mem, op + STEPSIZE, ref + STEPSIZE)

/-- A match of a length above the least is copied: the output, and where it goes on. That is nowhere
if the match would reach into the last five bytes. -/
def copyMatch (size : Nat) (mem : Nat → UInt8) (op ref length : Nat) :
    Option ((Nat → UInt8) × Option Nat) := do
  let (mem, op, ref) ← firstCopy size mem op ref
  let cpy := op + length - (STEPSIZE - 4)
  if cpy + COPYLENGTH + (STEPSIZE - 4) > size then
    if cpy + LASTLITERALS > size then some (mem, none)
    else
      let (mem, op, ref) ← secureCopy size (size - COPYLENGTH) mem op ref
      let mem ← byteCopy size cpy size mem op ref
      some (mem, some cpy)
  else
    let (mem, _, _) ← wildCopy size cpy size mem op ref
    some (mem, some cpy)

/-- The main loop of `LZ4_decompress_generic`, one round for a sequence: what it returns and the
output. Nothing stands for an access outside of a buffer. -/
def decodeLoop (srcSize : Nat) (src : Nat → UInt8) (size : Nat) :
    Nat → (Nat → UInt8) → Nat → Nat → Option (Int × (Nat → UInt8))
  | 0, _, _, _ => none
  | rounds + 1, mem, ip, op => do
    let token ← load srcSize src ip 1
    let token := (token.getD 0 0).toNat
    let ip := ip + 1
    let (ip, length) ← getRunLength srcSize src token ip
    let cpy := op + length
    if cpy + MFLIMIT > size ∨ ip + length + (2 + 1 + LASTLITERALS) > srcSize then
      if ip + length ≠ srcSize ∨ cpy > size then some (-(ip : Int) - 1, mem)
      else
        let mem ← memcpy size mem op srcSize src ip length
        some ((cpy : Int), mem)
    else
      let (mem, _) ← wildCopySource size srcSize src cpy size mem op ip
      let ip := ip + length
      let op := cpy
      let offset ← load srcSize src ip 2
      let offset := leValue offset
      let ip := ip + 2
      if cpy < offset then some (-(ip : Int) - 1, mem)
      else
        let ref := cpy - offset
        let (ip, length) ← getMatchLength srcSize src token ip
        let (mem, op) ← copyMatch size mem op ref length
        match op with
        | none => some (-(ip : Int) - 1, mem)
        | some op => decodeLoop srcSize src size rounds mem ip op

/-- `LZ4_decompress_safe` into a buffer with something in it: what it returns and leaves there. -/
def decompressSafe (src : List UInt8) (size : Nat) (mem : Nat → UInt8) :
    Option (Int × (Nat → UInt8)) :=
  let source := fun i => src.getD i 0
  if size = 0 then some (if src.length = 1 ∧ source 0 = 0 then 0 else -1, mem)
  else decodeLoop src.length source size src.length mem 0 0

end Triangles.LZ4
