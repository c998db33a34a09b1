import Mathlib.Data.List.Sort
import Triangles.Lib.Codec
import Triangles.Model.AddrMan
import Triangles.Model.Base58
import Triangles.Model.SmsgSettings
import Triangles.Model.SmsgStore

/-! Text helpers (util.cpp): the base 64 and base 32 codecs and wildcard masks. A C string is the list of
its characters before the final zero. -/

namespace Triangles

/-! Encoders. -/

structure EncodeState where
  strRet : List UInt8 := []
  mode : Nat := 0
  left : Nat := 0

def letter (alphabet : List UInt8) (i : Nat) : UInt8 := alphabet.getD i 0

def pbase64 : List UInt8 := ascii "ABCDEFGHIJKLMNOPQRSTUVWXYZabcdefghijklmnopqrstuvwxyz0123456789+/"

def encode64Step (s : EncodeState) (enc : Nat) : EncodeState :=
  match s.mode with
  | 0 => ⟨s.strRet ++ [letter pbase64 (enc >>> 2)], 1, (enc &&& 3) <<< 4⟩
  | 1 => ⟨s.strRet ++ [letter pbase64 (s.left ||| enc >>> 4)], 2, (enc &&& 15) <<< 2⟩
  | 2 => ⟨s.strRet ++ [letter pbase64 (s.left ||| enc >>> 6), letter pbase64 (enc &&& 63)], 0, s.left⟩
  | _ => s

def encodeBase64 (pch : List UInt8) : List UInt8 :=
  let s := pch.foldl (fun s c => encode64Step s c.toNat) {}
  if s.mode = 0 then s.strRet
  else s.strRet ++ [letter pbase64 s.left] ++ ascii "=" ++ if s.mode = 1 then ascii "=" else []

def pbase32 : List UInt8 := ascii "abcdefghijklmnopqrstuvwxyz234567"

def encode32Step (s : EncodeState) (enc : Nat) : EncodeState :=
  match s.mode with
  | 0 => ⟨s.strRet ++ [letter pbase32 (enc >>> 3)], 1, (enc &&& 7) <<< 2⟩
  | 1 => ⟨s.strRet ++ [letter pbase32 (s.left ||| enc >>> 6), letter pbase32 ((enc >>> 1) &&& 31)], 2,
      (enc &&& 1) <<< 4⟩
  | 2 => ⟨s.strRet ++ [letter pbase32 (s.left ||| enc >>> 4)], 3, (enc &&& 15) <<< 1⟩
  | 3 => ⟨s.strRet ++ [letter pbase32 (s.left ||| enc >>> 7), letter pbase32 ((enc >>> 2) &&& 31)], 4,
      (enc &&& 3) <<< 3⟩
  | 4 => ⟨s.strRet ++ [letter pbase32 (s.left ||| enc >>> 5), letter pbase32 (enc &&& 31)], 0, s.left⟩
  | _ => s

def nPadding : List Nat := [0, 6, 4, 3, 1]

def encodeBase32 (pch : List UInt8) : List UInt8 :=
  let s := pch.foldl (fun s c => encode32Step s c.toNat) {}
  if s.mode = 0 then s.strRet
  else s.strRet ++ [letter pbase32 s.left] ++ List.replicate (nPadding.getD s.mode 0) 0x3d

/-! Decoders. -/

def decode64_table : List Int :=
  let no := -1
  [
    no, no, no, no, no, no, no, no, no, no, no, no, no, no, no, no, no, no, no, no,
    no, no, no, no, no, no, no, no, no, no, no, no, no, no, no, no, no, no, no, no,
    no, no, no, 62, no, no, no, 63, 52, 53, 54, 55, 56, 57, 58, 59, 60, 61, no, no,
    no, no, no, no, no, 0, 1, 2, 3, 4, 5, 6, 7, 8, 9, 10, 11, 12, 13, 14,
    15, 16, 17, 18, 19, 20, 21, 22, 23, 24, 25, no, no, no, no, no, no, 26, 27, 28,
    29, 30, 31, 32, 33, 34, 35, 36, 37, 38, 39, 40, 41, 42, 43, 44, 45, 46, 47, 48,
    49, 50, 51, no, no, no, no, no, no, no, no, no, no, no, no, no, no, no, no, no,
    no, no, no, no, no, no, no, no, no, no, no, no, no, no, no, no, no, no, no, no,
    no, no, no, no, no, no, no, no, no, no, no, no, no, no, no, no, no, no, no, no,
    no, no, no, no, no, no, no, no, no, no, no, no, no, no, no, no, no, no, no, no,
    no, no, no, no, no, no, no, no, no, no, no, no, no, no, no, no, no, no, no, no,
    no, no, no, no, no, no, no, no, no, no, no, no, no, no, no, no, no, no, no, no,
    no, no, no, no, no, no, no, no, no, no, no, no, no, no, no, no
  ]

def decode32_table : List Int :=
  let no := -1
  [
    no, no, no, no, no, no, no, no, no, no, no, no, no, no, no, no, no, no, no, no,
    no, no, no, no, no, no, no, no, no, no, no, no, no, no, no, no, no, no, no, no,
    no, no, no, no, no, no, no, no, no, no, 26, 27, 28, 29, 30, 31, no, no, no, no,
    no, no, no, no, no, 0, 1, 2, 3, 4, 5, 6, 7, 8, 9, 10, 11, 12, 13, 14,
    15, 16, 17, 18, 19, 20, 21, 22, 23, 24, 25, no, no, no, no, no, no, 0, 1, 2,
    3, 4, 5, 6, 7, 8, 9, 10, 11, 12, 13, 14, 15, 16, 17, 18, 19, 20, 21, 22,
    23, 24, 25, no, no, no, no, no, no, no, no, no, no, no, no, no, no, no, no, no,
    no, no, no, no, no, no, no, no, no, no, no, no, no, no, no, no, no, no, no, no,
    no, no, no, no, no, no, no, no, no, no, no, no, no, no, no, no, no, no, no, no,
    no, no, no, no, no, no, no, no, no, no, no, no, no, no, no, no, no, no, no, no,
    no, no, no, no, no, no, no, no, no, no, no, no, no, no, no, no, no, no, no, no,
    no, no, no, no, no, no, no, no, no, no, no, no, no, no, no, no, no, no, no, no,
    no, no, no, no, no, no, no, no, no, no, no, no, no, no, no, no
  ]

structure DecodeState where
  vchRet : List UInt8 := []
  mode : Nat := 0
  left : Nat := 0

def lookup (table : List Int) (c : UInt8) : Int := table.getD c.toNat (-1)

def charAt (p : List UInt8) (i : Nat) : UInt8 := p.getD i 0

/-- The loop of a decoder stops at the first character that is not of the alphabet, which the zero at the
end is not. What follows is left in `p`. -/
def decodeLoop (table : List Int) (step : DecodeState → Nat → DecodeState) :
    List UInt8 → DecodeState → List UInt8 × DecodeState
  | [], s => ([], s)
  | c :: p, s =>
    let dec := lookup table c
    if dec = -1 then (c :: p, s) else decodeLoop table step p (step s dec.toNat)

def decode64Step (s : DecodeState) (dec : Nat) : DecodeState :=
  match s.mode with
  | 0 => ⟨s.vchRet, 1, dec⟩
  | 1 => ⟨s.vchRet ++ [UInt8.ofNat (s.left <<< 2 ||| dec >>> 4)], 2, dec &&& 15⟩
  | 2 => ⟨s.vchRet ++ [UInt8.ofNat (s.left <<< 4 ||| dec >>> 2)], 3, dec &&& 3⟩
  | 3 => ⟨s.vchRet ++ [UInt8.ofNat (s.left <<< 6 ||| dec)], 0, s.left⟩
  | _ => s

def isPadded (table : List Int) (n : Nat) (p : List UInt8) : Bool :=
  (List.range n).all (fun i => charAt p i = 0x3d) && lookup table (charAt p n) = -1

def invalid64 (s : DecodeState) (p : List UInt8) : Bool :=
  match s.mode with
  | 0 => false
  | 1 => true
  | 2 => s.left ≠ 0 || !isPadded decode64_table 2 p
  | 3 => s.left ≠ 0 || !isPadded decode64_table 1 p
  | _ => false

def decodeBase64 (p : List UInt8) : List UInt8 × Bool :=
  let (p, s) := decodeLoop decode64_table decode64Step p {}
  (s.vchRet, invalid64 s p)

def decode32Step (s : DecodeState) (dec : Nat) : DecodeState :=
  match s.mode with
  | 0 => ⟨s.vchRet, 1, dec⟩
  | 1 => ⟨s.vchRet ++ [UInt8.ofNat (s.left <<< 3 ||| dec >>> 2)], 2, dec &&& 3⟩
  | 2 => ⟨s.vchRet, 3, s.left <<< 5 ||| dec⟩
  | 3 => ⟨s.vchRet ++ [UInt8.ofNat (s.left <<< 1 ||| dec >>> 4)], 4, dec &&& 15⟩
  | 4 => ⟨s.vchRet ++ [UInt8.ofNat (s.left <<< 4 ||| dec >>> 1)], 5, dec &&& 1⟩
  | 5 => ⟨s.vchRet, 6, s.left <<< 5 ||| dec⟩
  | 6 => ⟨s.vchRet ++ [UInt8.ofNat (s.left <<< 2 ||| dec >>> 3)], 7, dec &&& 7⟩
  | 7 => ⟨s.vchRet ++ [UInt8.ofNat (s.left <<< 5 ||| dec)], 0, s.left⟩
  | _ => s

def invalid32 (s : DecodeState) (p : List UInt8) : Bool :=
  match s.mode with
  | 0 => false
  | 1 | 3 | 6 => true
  | 2 => s.left ≠ 0 || !isPadded decode32_table 6 p
  | 4 => s.left ≠ 0 || !isPadded decode32_table 4 p
  | 5 => s.left ≠ 0 || !isPadded decode32_table 3 p
  | 7 => s.left ≠ 0 || !isPadded decode32_table 1 p
  | _ => false

def decodeBase32 (p : List UInt8) : List UInt8 × Bool :=
  let (p, s) := decodeLoop decode32_table decode32Step p {}
  (s.vchRet, invalid32 s p)

/-! Masks. -/

def wildcardMatch (psz mask : List UInt8) : Bool :=
  match mask with
  | [] => psz.isEmpty
  | m :: mask' =>
    if m = 0x2a then
      wildcardMatch psz mask' ||
        match psz with
        | [] => false
        | _ :: psz' => wildcardMatch psz' (m :: mask')
    else if m = 0x3f then
      match psz with
      | [] => false
      | _ :: psz' => wildcardMatch psz' mask'
    else
      match psz with
      | [] => false
      | c :: psz' => if c ≠ m then false else wildcardMatch psz' mask'
termination_by psz.length + mask.length

def wildcardMatchString (str mask : List UInt8) : Bool := wildcardMatch (cStr str) (cStr mask)

end Triangles

/-! Host names and ports, and the addresses of overlay networks (netbase.cpp). -/

namespace Triangles

open Decimal

/-! `SplitHostPort`. -/

def findLastOf (c : UInt8) (s : List UInt8) : Option Nat :=
  (s.reverse.findIdx? fun d => d = c).map fun i => s.length - 1 - i

/-- `strtol` in base 10, with a `long` of 64 bits: the number, and where it stops reading, which is where
the text starts when there is no number. -/
def strtol (text : List UInt8) : Int × List UInt8 :=
  let number := text.dropWhile isSpace
  if (unsigned number).takeWhile isDigit = [] then (0, text)
  else (max (-2 ^ 63) (min (2 ^ 63 - 1) (readInt number)), (unsigned number).dropWhile isDigit)

def toInt32 (n : Int) : Int := n.bmod (2 ^ 32)

/-- The port and the host. `portOut` stays when there is none. -/
def splitHostPort (input : List UInt8) (portOut : Int) : Int × List UInt8 :=
  let (input, portOut) :=
    match findLastOf 0x3a input with
    | none => (input, portOut)
    | some colon =>
      let fBracketed := charAt input 0 = 0x5b ∧ charAt input (colon - 1) = 0x5d
      -- `colon - 1` is the whole string when the colon comes first
      let fMultiColon := (findLastOf 0x3a (if colon = 0 then input else input.take colon)).isSome
      if colon = 0 ∨ fBracketed ∨ fMultiColon = false then
        let (long, endp) := strtol (cStr (input.drop (colon + 1)))
        let n := toInt32 long
        if endp = [] ∧ 0 ≤ n then (input.take colon, if 0 < n ∧ n < 0x10000 then n else portOut)
        else (input, portOut)
      else (input, portOut)
  let hostOut :=
    if 0 < input.length ∧ charAt input 0 = 0x5b ∧ charAt input (input.length - 1) = 0x5d then
      (input.drop 1).take (input.length - 2)
    else input
  (portOut, hostOut)

/-! Overlay addresses. -/

def pchIPv4 : List UInt8 := [0, 0, 0, 0, 0, 0, 0, 0, 0, 0, 0xff, 0xff]

def pchOnionCat : List UInt8 := [0xfd, 0x87, 0xd8, 0x7e, 0xeb, 0x43]

def pchGarliCat : List UInt8 := [0xfd, 0x60, 0xdb, 0x4d, 0xdd, 0xb5]

namespace CNetAddr

def isIPv4 (addr : CNetAddr) : Bool := addr.ip.take 12 = pchIPv4

def isTor (addr : CNetAddr) : Bool := addr.ip.take 6 = pchOnionCat

def isI2P (addr : CNetAddr) : Bool := addr.ip.take 6 = pchGarliCat

/-- The name ends so, and there is something before that. -/
def hasEnding (strName ending : List UInt8) : Bool :=
  ending.length < strName.length && strName.drop (strName.length - ending.length) = ending

/-- The bytes that a name stands for, when there are as many as an address has behind its prefix. -/
def special (prefixBytes strName ending : List UInt8) (addr : CNetAddr) : Bool × CNetAddr :=
  let vchAddr := (decodeBase32 (cStr (strName.take (strName.length - ending.length)))).1
  if vchAddr.length ≠ 16 - prefixBytes.length then (false, addr)
  else (true, ⟨prefixBytes ++ vchAddr⟩)

def setSpecial (strName : List UInt8) (addr : CNetAddr) : Bool × CNetAddr :=
  if hasEnding strName (ascii ".onion") then special pchOnionCat strName (ascii ".onion") addr
  else if hasEnding strName (ascii ".oc.b32.i2p") then
    special pchOnionCat strName (ascii ".oc.b32.i2p") addr
  else (false, addr)

def toStringIP (numeric : CNetAddr → List UInt8) (addr : CNetAddr) : List UInt8 :=
  if addr.isTor then encodeBase32 ((addr.ip.drop 6).take 10) ++ ascii ".onion"
  else if addr.isI2P then encodeBase32 ((addr.ip.drop 6).take 10) ++ ascii ".oc.b32.i2p"
  else numeric addr

end CNetAddr

def CService.toStringIPPort (numeric : CNetAddr → List UInt8) (service : CService) : List UInt8 :=
  let addr := service.toCNetAddr
  if addr.isIPv4 || addr.isTor || addr.isI2P then
    addr.toStringIP numeric ++ ascii ":" ++ natText service.port.toNat
  else ascii "[" ++ addr.toStringIP numeric ++ ascii "]:" ++ natText service.port.toNat

end Triangles

/-! The time that peers tell: the median filter (util.h) and `AddTimeData` (util.cpp). -/

namespace Triangles

structure CMedianFilter (T : Type) where
  vValues : List T
  vSorted : List T
  nSize : Nat
deriving DecidableEq

namespace CMedianFilter

variable {T : Type}

def new (size : Nat) (initial_value : T) : CMedianFilter T where
  vValues := [initial_value]
  vSorted := [initial_value]
  nSize := size

def input [LinearOrder T] (f : CMedianFilter T) (value : T) : CMedianFilter T :=
  let vValues := (if f.vValues.length = f.nSize then f.vValues.drop 1 else f.vValues) ++ [value]
  { f with vValues := vValues, vSorted := vValues.insertionSort (· ≤ ·) }

def median (mid : T → T → T) (f : CMedianFilter T) : Option T :=
  let size := f.vSorted.length
  if size % 2 = 1 then f.vSorted[size / 2]?
  else if size = 0 then none
  else do
    let low ← f.vSorted[size / 2 - 1]?
    let high ← f.vSorted[size / 2]?
    some (mid low high)

def size (f : CMedianFilter T) : Nat := f.vValues.length

def sorted (f : CMedianFilter T) : List T := f.vSorted

end CMedianFilter

def wrapInt64 (n : Int) : Int := n.bmod (2 ^ 64)

def abs64 (n : Int) : Int := if 0 ≤ n then n else wrapInt64 (-n)

structure TimeData where
  vTimeOffsets : CMedianFilter Int := .new 200 0
  setKnown : Finset CNetAddr := ∅
  nTimeOffset : Int := 0
  fDone : Bool := false
  strMiscWarning : String := ""
deriving DecidableEq

namespace TimeData

def strMessage : String :=
  "Warning: Please check that your computer's date and time are correct! If your clock is wrong Triangles will not work properly."

structure Call where
  now : Int
  ip : CNetAddr
  nTime : Int
deriving DecidableEq

def adjust (t : TimeData) : Option TimeData := do
  let nMedian ← t.vTimeOffsets.median fun a b => (wrapInt64 (a + b)).tdiv 2
  let vSorted := t.vTimeOffsets.sorted
  if abs64 nMedian < 70 * 60 then some { t with nTimeOffset := nMedian }
  else
    let t := { t with nTimeOffset := 0 }
    if !t.fDone then
      -- somebody has a time different than ours but within 5 minutes of ours
      let fMatch := vSorted.any fun nOffset => nOffset != 0 && decide (abs64 nOffset < 5 * 60)
      if !fMatch then some { t with fDone := true, strMiscWarning := strMessage } else some t
    else some t

def addTimeData (t : TimeData) (call : Call) : Option TimeData :=
  let nOffsetSample := wrapInt64 (call.nTime - call.now)
  if call.ip ∈ t.setKnown then some t
  else
    let t := { t with
      setKnown := insert call.ip t.setKnown
      vTimeOffsets := t.vTimeOffsets.input nOffsetSample }
    if 5 ≤ t.vTimeOffsets.size ∧ t.vTimeOffsets.size % 2 = 1 then t.adjust else some t

def run (calls : List Call) : Option TimeData := calls.foldlM addTimeData {}

end TimeData

end Triangles
