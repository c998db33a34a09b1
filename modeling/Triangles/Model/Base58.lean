import Triangles.Model.Standard

/-! Base58 text and addresses (base58.h). Strings are lists of bytes. -/

namespace Triangles

/-- `pszBase58`: the digits, the upper case letters without I and O, the lower case letters
without l. -/
def pszBase58 : List UInt8 :=
  [0x31, 0x32, 0x33, 0x34, 0x35, 0x36, 0x37, 0x38, 0x39,
   0x41, 0x42, 0x43, 0x44, 0x45, 0x46, 0x47, 0x48, 0x4a, 0x4b, 0x4c, 0x4d, 0x4e,
   0x50, 0x51, 0x52, 0x53, 0x54, 0x55, 0x56, 0x57, 0x58, 0x59, 0x5a,
   0x61, 0x62, 0x63, 0x64, 0x65, 0x66, 0x67, 0x68, 0x69, 0x6a, 0x6b, 0x6d, 0x6e, 0x6f,
   0x70, 0x71, 0x72, 0x73, 0x74, 0x75, 0x76, 0x77, 0x78, 0x79, 0x7a]

def isSpace (c : UInt8) : Bool := c == 0x20 || decide (0x09 ≤ c ∧ c ≤ 0x0d)

def cStr (str : List UInt8) : List UInt8 := str.takeWhile (· != 0)

def base58Digits : Nat → Nat → List UInt8
  | 0, _ => []
  | rounds + 1, bn =>
    if bn = 0 then [] else pszBase58.getD (bn % 58) 0 :: base58Digits rounds (bn / 58)

/-- `EncodeBase58`. A byte is less than two digits, so twice the length bounds the rounds. -/
def encodeBase58 (vch : List UInt8) : List UInt8 :=
  let bn := leValue vch.reverse
  (base58Digits (2 * vch.length) bn ++
    List.replicate (vch.takeWhile (· == 0)).length (pszBase58.getD 0 0)).reverse

/-- The conversion loop of `DecodeBase58`. White space may only follow the digits. -/
def base58Value : List UInt8 → Nat → Option Nat
  | [], bn => some bn
  | c :: p, bn =>
    match pszBase58.idxOf? c with
    | none => if ((c :: p).dropWhile isSpace).isEmpty then some bn else none
    | some digit => base58Value p (bn * 58 + digit)

/-- `DecodeBase58`. A digit is less than a byte, so the length bounds the number of bytes. -/
def decodeBase58 (str : List UInt8) : Option (List UInt8) :=
  let psz := (cStr str).dropWhile isSpace
  match base58Value psz 0 with
  | none => none
  | some bn =>
    let nLeadingZeros := (psz.takeWhile (· == pszBase58.getD 0 0)).length
    some (List.replicate nLeadingZeros 0 ++ (leBytes psz.length bn).reverse)

/-! The same through the vectors of `CBigNum`, which keep a sign bit. -/

def CBigNum.setvch (vch : List UInt8) : Int :=
  let top := vch.getLastD 0
  if 128 ≤ top.toNat then -(leValue (vch.dropLast ++ [top - 128]) : Int) else leValue vch

/-- `CBigNum::getvch` of a nonnegative number below 256 to the `width`: a zero byte keeps the
sign bit clear. -/
def CBigNum.getvch (width n : Nat) : List UInt8 :=
  let vch := leBytes width n
  if 128 ≤ (vch.getLastD 0).toNat then vch ++ [0] else vch

def trimSignByte (vchTmp : List UInt8) : List UInt8 :=
  if 2 ≤ vchTmp.length ∧ vchTmp.getLastD 0 = 0 ∧ 128 ≤ (vchTmp.dropLast.getLastD 0).toNat then
    vchTmp.dropLast
  else vchTmp

def encodeBase58Check (hash : List UInt8 → List UInt8) (vchIn : List UInt8) : List UInt8 :=
  encodeBase58 (vchIn ++ (hash vchIn).take 4)

def decodeBase58Check (hash : List UInt8 → List UInt8) (str : List UInt8) : Option (List UInt8) :=
  match decodeBase58 str with
  | none => none
  | some vch =>
    if vch.length < 4 then none
    else
      let data := vch.take (vch.length - 4)
      if (hash data).take 4 ≠ vch.drop (vch.length - 4) then none else some data

structure CTrianglesAddress where
  nVersion : UInt8 := 0
  vchData : List UInt8 := []
deriving DecidableEq, Repr

namespace CTrianglesAddress

def PUBKEY_ADDRESS : UInt8 := 65
def SCRIPT_ADDRESS : UInt8 := 28
def PUBKEY_ADDRESS_TEST : UInt8 := 111
def SCRIPT_ADDRESS_TEST : UInt8 := 196

def ofKeyID (fTestNet : Bool) (id : uint160) : CTrianglesAddress :=
  ⟨if fTestNet then PUBKEY_ADDRESS_TEST else PUBKEY_ADDRESS, id⟩

def ofDestination (fTestNet : Bool) : CTxDestination → CTrianglesAddress
  | .noDestination => {}
  | .keyID id => ofKeyID fTestNet id
  | .scriptID id => ⟨if fTestNet then SCRIPT_ADDRESS_TEST else SCRIPT_ADDRESS, id⟩

/-- `SetString`: text that does not decode, or decodes to nothing, leaves version 0 and no data. -/
def setString (hash : List UInt8 → List UInt8) (str : List UInt8) : CTrianglesAddress :=
  match decodeBase58Check hash (cStr str) with
  | some (nVersion :: vchData) => ⟨nVersion, vchData⟩
  | _ => {}

def setStringOk (hash : List UInt8 → List UInt8) (str : List UInt8) : Bool :=
  match decodeBase58Check hash (cStr str) with
  | some (_ :: _) => true
  | _ => false

def isValid (fTestNet : Bool) (addr : CTrianglesAddress) : Bool :=
  (if addr.nVersion = PUBKEY_ADDRESS ∨ addr.nVersion = SCRIPT_ADDRESS then !fTestNet
    else if addr.nVersion = PUBKEY_ADDRESS_TEST ∨ addr.nVersion = SCRIPT_ADDRESS_TEST then fTestNet
    else false) && addr.vchData.length == 20

def getKeyID (fTestNet : Bool) (addr : CTrianglesAddress) : Option uint160 :=
  if !addr.isValid fTestNet then none
  else if addr.nVersion = PUBKEY_ADDRESS ∨ addr.nVersion = PUBKEY_ADDRESS_TEST then
    some addr.vchData
  else none

def get (fTestNet : Bool) (addr : CTrianglesAddress) : CTxDestination :=
  if !addr.isValid fTestNet then .noDestination
  else if addr.nVersion = PUBKEY_ADDRESS ∨ addr.nVersion = PUBKEY_ADDRESS_TEST then
    .keyID addr.vchData
  else if addr.nVersion = SCRIPT_ADDRESS ∨ addr.nVersion = SCRIPT_ADDRESS_TEST then
    .scriptID addr.vchData
  else .noDestination

def toString (hash : List UInt8 → List UInt8) (addr : CTrianglesAddress) : List UInt8 :=
  encodeBase58Check hash (addr.nVersion :: addr.vchData)

end CTrianglesAddress

abbrev CTrianglesSecret := CTrianglesAddress

namespace CTrianglesSecret

def setSecret (fTestNet : Bool) (vchSecret : List UInt8) (fCompressed : Bool) :
    CTrianglesSecret where
  nVersion := 128 + if fTestNet then CTrianglesAddress.PUBKEY_ADDRESS_TEST
    else CTrianglesAddress.PUBKEY_ADDRESS
  vchData := vchSecret ++ if fCompressed then [1] else []

def getSecret (secret : CTrianglesSecret) : List UInt8 × Bool :=
  (secret.vchData.take 32, secret.vchData.length == 33)

def isValidSecret (fTestNet : Bool) (secret : CTrianglesSecret) : Bool :=
  (if secret.nVersion = 128 + CTrianglesAddress.PUBKEY_ADDRESS then !fTestNet
    else if secret.nVersion = 128 + CTrianglesAddress.PUBKEY_ADDRESS_TEST then fTestNet
    else false) &&
  (secret.vchData.length == 32 ||
    (secret.vchData.length == 33 && secret.vchData.getD 32 0 == 1))

def setSecretStringOk (hash : List UInt8 → List UInt8) (fTestNet : Bool) (str : List UInt8) :
    Bool :=
  CTrianglesAddress.setStringOk hash str &&
    isValidSecret fTestNet (CTrianglesAddress.setString hash str)

end CTrianglesSecret

end Triangles
