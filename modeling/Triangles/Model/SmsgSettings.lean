import Triangles.Model.SmsgInbox

/-! The settings of secure messaging (smessage.cpp): `smsg.ini`, and enabling and disabling at
runtime. File operations succeed; messages to peers and to the log are left out. -/

namespace Triangles

structure SecMsgOptions where
  fNewAddressRecv : Bool := true
  fNewAddressAnon : Bool := true
deriving DecidableEq

/-- A text of the source as bytes. -/
def ascii (s : String) : List UInt8 := s.toList.map fun c => UInt8.ofNat c.toNat

/-! Reading. -/

/-- `fgets` into 512 bytes: a line with its end, or as much of it as there is room for, and what is
left. -/
def fgets (text : List UInt8) : List UInt8 × List UInt8 :=
  let n := min 511 ((text.takeWhile (· != 0x0a)).length + 1)
  (text.take n, text.drop n)

/-- The lines of a text as C strings, without their ends. -/
def iniLines : Nat → List UInt8 → List (List UInt8)
  | 0, _ => []
  | rounds + 1, text =>
    if text.isEmpty then []
    else
      let (cLine, text) := fgets text
      cLine.takeWhile (fun c => c != 0 && c != 0x0a && c != 0x0d) :: iniLines rounds text

/-- `pName` and `pValue` of a line; comments, section headers and lines without a value have
none. -/
def iniPair (cLine : List UInt8) : Option (List UInt8 × List UInt8) :=
  -- `#`, `[` and `=` in front
  if cLine.isEmpty || [0x23, 0x5b, 0x3d].contains (cLine.headD 0) then none
  else
    let rest := (cLine.dropWhile (· != 0x3d)).dropWhile (· == 0x3d)
    if rest.isEmpty then none
    else some (cLine.takeWhile (· != 0x3d), rest.takeWhile (· != 0x3d))

def isDigitByte (c : UInt8) : Bool := decide (0x30 ≤ c ∧ c ≤ 0x39)

def scanInt (s : List UInt8) : Option (Int × List UInt8) :=
  let s := s.dropWhile isSpace
  let digits := if [0x2b, 0x2d].contains (s.headD 0) then s.drop 1 else s
  let n : Int := (digits.takeWhile isDigitByte).foldl (fun n c => n * 10 + (c.toNat - 0x30)) 0
  if (digits.takeWhile isDigitByte).isEmpty then none
  else some (if s.headD 0 = 0x2d then -n else n, digits.dropWhile isDigitByte)

/-- `sscanf(pValue, "%64[^|]|%d|%d", ...)` when it converts all three. A 64th character of the
address would leave no room for its end. -/
def scanKey (pValue : List UInt8) : Option SecMsgAddress :=
  let cAddress := (pValue.take 64).takeWhile (· != 0x7c)
  let rest := pValue.drop cAddress.length
  if cAddress.isEmpty || rest.headD 0 != 0x7c then none
  else
    match scanInt (rest.drop 1) with
    | none => none
    | some (addrRecv, rest) =>
      if rest.headD 0 != 0x7c then none
      else
        match scanInt (rest.drop 1) with
        | none => none
        | some (addrRecvAnon, _) => some ⟨cAddress, addrRecv != 0, addrRecvAnon != 0⟩

def readIniLine (s : SecMsgOptions × List SecMsgAddress) (cLine : List UInt8) :
    SecMsgOptions × List SecMsgAddress :=
  match iniPair cLine with
  | none => s
  | some (pName, pValue) =>
    if pName = ascii "newAddressRecv" then
      ({ s.1 with fNewAddressRecv := pValue == ascii "true" }, s.2)
    else if pName = ascii "newAddressAnon" then
      ({ s.1 with fNewAddressAnon := pValue == ascii "true" }, s.2)
    else if pName = ascii "key" then
      match scanKey pValue with
      | none => s
      | some address => (s.1, s.2 ++ [address])
    else s

/-! Writing. -/

def boolText (b : Bool) : List UInt8 := if b then ascii "true" else ascii "false"

def flagText (b : Bool) : List UInt8 := if b then ascii "1" else ascii "0"

def iniText (smsgOptions : SecMsgOptions) (smsgAddresses : List SecMsgAddress) : List UInt8 :=
  ascii "[Options]\n" ++
    (ascii "newAddressRecv=" ++ boolText smsgOptions.fNewAddressRecv ++ ascii "\n") ++
    (ascii "newAddressAnon=" ++ boolText smsgOptions.fNewAddressAnon ++ ascii "\n") ++
    ascii "\n[Keys]\n" ++
    smsgAddresses.flatMap fun it =>
      ascii "key=" ++ cStr it.sAddress ++ ascii "|" ++ flagText it.fReceiveEnabled ++ ascii "|" ++
        flagText it.fReceiveAnon ++ ascii "\n"

/-! The calls. -/

/-- The settings in memory and on disk: `smsg.ini`, when there is one. -/
structure SmsgSettings where
  fSecMsgEnabled : Bool
  smsgOptions : SecMsgOptions := {}
  smsgAddresses : List SecMsgAddress := []
  ini : Option (List UInt8) := none
deriving DecidableEq

structure AddressBook where
  hash : List UInt8 → List UInt8
  fTestNet : Bool
  isMine : CTxDestination → Bool
  mapAddressBook : List CTxDestination

def addWalletAddress (book : AddressBook) (smsgAddresses : List SecMsgAddress)
    (entry : CTxDestination) : List SecMsgAddress :=
  let coinAddress := CTrianglesAddress.ofDestination book.fTestNet entry
  let address := coinAddress.toString book.hash
  if !book.isMine entry || !coinAddress.isValid book.fTestNet ||
      smsgAddresses.any (fun it => it.sAddress == address) then smsgAddresses
  else smsgAddresses ++ [⟨address, true, true⟩]

def addWalletAddresses (book : AddressBook) (smsgAddresses : List SecMsgAddress) :
    List SecMsgAddress :=
  book.mapAddressBook.foldl (addWalletAddress book) smsgAddresses

namespace SmsgSettings

def readIni (s : SmsgSettings) : Nat × SmsgSettings :=
  if !s.fSecMsgEnabled then (0, s)
  else
    match s.ini with
    | none => (1, s)
    | some text =>
      let (smsgOptions, smsgAddresses) :=
        (iniLines text.length text).foldl readIniLine (s.smsgOptions, s.smsgAddresses)
      (0, { s with smsgOptions, smsgAddresses })

def writeIni (s : SmsgSettings) : Nat × SmsgSettings :=
  if !s.fSecMsgEnabled then (0, s)
  else (0, { s with ini := some (iniText s.smsgOptions s.smsgAddresses) })

def load (book : AddressBook) (s : SmsgSettings) : SmsgSettings :=
  let s := s.readIni.2
  if s.smsgAddresses.length < 1 then
    { s with smsgAddresses := addWalletAddresses book s.smsgAddresses }
  else s

/-- `SecureMsgStart` of a process that has just been started. `fStarted` is whether the bucket sets
are loaded and the threads start. -/
def start (book : AddressBook) (fStarted : Bool) (s : SmsgSettings) : Bool × SmsgSettings :=
  let s := load book { s with fSecMsgEnabled := true }
  (fStarted, { s with fSecMsgEnabled := fStarted })

def shutdown (s : SmsgSettings) : Bool × SmsgSettings :=
  if !s.fSecMsgEnabled then (false, s)
  else
    let s := s.writeIni.2
    (true, { s with fSecMsgEnabled := false })

def enable (book : AddressBook) (fStarted : Bool) (s : SmsgSettings) : Bool × SmsgSettings :=
  if s.fSecMsgEnabled then (false, s)
  else
    let s := load book { s with fSecMsgEnabled := true, smsgAddresses := [] }
    (fStarted, { s with fSecMsgEnabled := fStarted })

def disable (s : SmsgSettings) : Bool × SmsgSettings :=
  if !s.fSecMsgEnabled then (false, s)
  else
    let s := { s with fSecMsgEnabled := false }
    let s := s.writeIni.2
    (true, { s with smsgAddresses := [] })

end SmsgSettings

end Triangles
