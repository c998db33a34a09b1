import Mathlib.Data.List.Basic

/-! The version handshake (net.h, net.cpp, main.cpp): what a `CNode` sends when it is made and what
its `version` message does. What the handler does with the peer's address, services, clock and
height, and what it asks or relays afterwards, is left out. -/

namespace Triangles.Handshake

def PROTOCOL_VERSION : Int := 70204

def MIN_PROTO_VERSION : Int := 70204

def INIT_PROTO_VERSION : Int := 209

/-- A version message as far as it goes: nothing of it, `nVersion`, the fields up to `addrMe`, the
nonce, the rest. Reading past its end throws. -/
structure VersionMessage where
  nVersion : Option Int
  fHeader : Bool
  nNonce : Option UInt64
  fRest : Bool
deriving DecidableEq

inductive NetMessage where
  | version (m : VersionMessage)
  | verack
  | other
deriving DecidableEq

def NetMessage.isVersion : NetMessage → Bool
  | .version _ => true
  | _ => false

/-- A connection. `vSend` is what has been pushed on it, `nCalls` how often `Misbehaving` has been
called for it. -/
structure CNode where
  fInbound : Bool
  fLocal : Bool
  nVersion : Int := 0
  nRecvVersion : Int := INIT_PROTO_VERSION
  fSuccessfullyConnected : Bool := false
  fDisconnect : Bool := false
  nMisbehavior : Int := 0
  nCalls : Nat := 0
  vSend : List NetMessage := []
deriving DecidableEq

/-- The version that a node sends: only its nonce changes. -/
def ownVersion (nNonce : UInt64) : VersionMessage :=
  ⟨some PROTOCOL_VERSION, true, some nNonce, true⟩

namespace CNode

def pushMessage (pfrom : CNode) (m : NetMessage) : CNode :=
  { pfrom with vSend := pfrom.vSend ++ [m] }

def pushVersion (nNonce : UInt64) (pfrom : CNode) : CNode :=
  pfrom.pushMessage (.version (ownVersion nNonce))

def new (nNonce : UInt64) (fInbound fLocal : Bool) : CNode :=
  pushVersion nNonce { fInbound := fInbound, fLocal := fLocal }

def misbehaving (nBanScore : Int) (howmuch : Int) (pfrom : CNode) : CNode :=
  let called := { pfrom with nCalls := pfrom.nCalls + 1 }
  if pfrom.fLocal then called
  else
    { called with
      nMisbehavior := pfrom.nMisbehavior + howmuch
      fDisconnect :=
        if nBanScore ≤ pfrom.nMisbehavior + howmuch then true else pfrom.fDisconnect }

/-- The `version` branch of `ProcessMessage`, with `nLocalHostNonce` and the nonce it would draw: the
new `nLocalHostNonce` and the connection. -/
def processVersion (nBanScore : Int) (nLocalHostNonce nDrawn : UInt64) (pfrom : CNode)
    (m : VersionMessage) : UInt64 × CNode :=
  -- Each connection can only send one version message
  if pfrom.nVersion ≠ 0 then (nLocalHostNonce, pfrom.misbehaving nBanScore 1)
  else
    match m.nVersion with
    | none => (nLocalHostNonce, pfrom)
    | some nVersion =>
      let read := { pfrom with nVersion := nVersion }
      if !m.fHeader then (nLocalHostNonce, read)
      else if nVersion < MIN_PROTO_VERSION then
        (nLocalHostNonce, { read with fDisconnect := true })
      else
        let read := if nVersion = 10300 then { read with nVersion := 300 } else read
        let nNonce := m.nNonce.getD 1
        if !m.fRest then (nLocalHostNonce, read)
        -- Disconnect if we connected to ourself
        else if nNonce = nLocalHostNonce ∧ 1 < nNonce then
          (nLocalHostNonce, { read with fDisconnect := true })
        else
          let answered := if read.fInbound then read.pushVersion nDrawn else read
          (if read.fInbound then nDrawn else nLocalHostNonce,
            { answered.pushMessage .verack with fSuccessfullyConnected := true })

def processMessage (nBanScore : Int) (nLocalHostNonce nDrawn : UInt64) (pfrom : CNode) :
    NetMessage → UInt64 × CNode
  | .version m => pfrom.processVersion nBanScore nLocalHostNonce nDrawn m
  | .verack =>
    if pfrom.nVersion = 0 then (nLocalHostNonce, pfrom.misbehaving nBanScore 1)
    else (nLocalHostNonce, { pfrom with nRecvVersion := min pfrom.nVersion PROTOCOL_VERSION })
  | .other =>
    if pfrom.nVersion = 0 then (nLocalHostNonce, pfrom.misbehaving nBanScore 1)
    else (nLocalHostNonce, pfrom)

end CNode

/-! One node and its connections. -/

/-- `created` is the version messages of the node, `heardSelf` the connections on which one of them
has been processed. -/
structure SelfNet where
  nLocalHostNonce : UInt64 := 0
  vNodes : List CNode := []
  created : List VersionMessage := []
  heardSelf : List Nat := []

/-- What happens on a node: a connection is made, a message on one of them is processed, or a
connection closes. Nonces are what `RAND_bytes` gives at each step. -/
inductive NetEvent where
  | connect (nNonce : UInt64) (fLocal : Bool)
  | accept (nNonce : UInt64) (fLocal : Bool)
  | process (i : Nat) (m : NetMessage) (nNonce : UInt64)
  | close (i : Nat)

namespace SelfNet

def addNode (s : SelfNet) (nNonce : UInt64) (fInbound fLocal : Bool) : SelfNet :=
  { s with
    nLocalHostNonce := nNonce
    vNodes := s.vNodes ++ [CNode.new nNonce fInbound fLocal]
    created := ownVersion nNonce :: s.created }

def isOwn (s : SelfNet) : NetMessage → Bool
  | .version m => m ∈ s.created
  | _ => false

def event (nBanScore : Int) (s : SelfNet) : NetEvent → SelfNet
  | .connect nNonce fLocal => s.addNode nNonce false fLocal
  | .accept nNonce fLocal => s.addNode nNonce true fLocal
  | .process i m nNonce =>
    match s.vNodes[i]? with
    | none => s
    | some pfrom =>
      if pfrom.fDisconnect then s
      else
        let (nLocal, pfrom') := pfrom.processMessage nBanScore s.nLocalHostNonce nNonce m
        { nLocalHostNonce := nLocal
          vNodes := s.vNodes.set i pfrom'
          created :=
            if pfrom'.vSend.countP NetMessage.isVersion = pfrom.vSend.countP NetMessage.isVersion
            then s.created
            else ownVersion nNonce :: s.created
          heardSelf := if s.isOwn m then i :: s.heardSelf else s.heardSelf }
  | .close i =>
    match s.vNodes[i]? with
    | none => s
    | some pfrom => { s with vNodes := s.vNodes.set i { pfrom with fDisconnect := true } }

end SelfNet

/-! Two nodes and a connection between them. -/

/-- One end of the connection: the nonce of its node, its `CNode` once it is there, and how many
messages of the other end it has processed. -/
structure End where
  nLocalHostNonce : UInt64 := 0
  pnode : Option CNode := none
  nProcessed : Nat := 0

structure Pair where
  connector : End := {}
  acceptor : End := {}

/-- What happens on either side: its `CNode` is made, it processes the next message, it pushes
something that is no part of the handshake, it pushes a version on another connection of its own. -/
inductive PairEvent where
  | new (nNonce : UInt64) (fLocal : Bool)
  | process (nNonce : UInt64)
  | push
  | draw (nNonce : UInt64)

namespace End

def sent (e : End) : List NetMessage := (e.pnode.map CNode.vSend).getD []

def event (nBanScore : Int) (fInbound : Bool) (e other : End) : PairEvent → End
  | .new nNonce fLocal =>
    match e.pnode with
    | none =>
      { e with nLocalHostNonce := nNonce, pnode := some (CNode.new nNonce fInbound fLocal) }
    | some _ => e
  | .process nNonce =>
    match e.pnode, other.sent[e.nProcessed]? with
    | some pfrom, some m =>
      if pfrom.fDisconnect then e
      else
        let (nLocal, pfrom') := pfrom.processMessage nBanScore e.nLocalHostNonce nNonce m
        { nLocalHostNonce := nLocal, pnode := some pfrom', nProcessed := e.nProcessed + 1 }
    | _, _ => e
  | .push => { e with pnode := e.pnode.map (CNode.pushMessage · .other) }
  | .draw nNonce => { e with nLocalHostNonce := nNonce }

end End

def Pair.event (nBanScore : Int) (p : Pair) : Bool × PairEvent → Pair
  | (false, e) => { p with connector := p.connector.event nBanScore false p.acceptor e }
  | (true, e) => { p with acceptor := p.acceptor.event nBanScore true p.connector e }

end Triangles.Handshake
