import Mathlib.Data.Finset.Max
import Mathlib.Logic.Function.Basic

/-! The key pool of the wallet (wallet.cpp) and the objects that hold a key of it. Each call has
`cs_wallet` from its first access to its last; `KeepKey` alone does not take it, and is one write.
The wallet has a file, and its database does what it is asked to. -/

namespace Triangles.Keypool

structure CKeyPool (K : Type) where
  nTime : Int
  vchPubKey : K
deriving DecidableEq

/-- The setting and what `GenerateNewKey` draws: the key of each call, and the clock then. -/
structure KeyEnv (K : Type) where
  /-- `GetArg("-keypool", 100)`. -/
  nKeypool : Int
  newKey : Nat → K
  newTime : Nat → Int

/-- What the pool is made of: the indices in memory, the "pool" records of the database, the keys in
the key store. -/
structure PoolWallet (K : Type) where
  setKeyPool : Finset Int := ∅
  pool : Int → Option (CKeyPool K) := fun _ => none
  keys : Finset K := ∅
  nGenerated : Nat := 0
  fLocked : Bool := false
  vchDefaultKey : Option K := none

namespace PoolWallet

variable {K : Type} [DecidableEq K]

def writePool (w : PoolWallet K) (nPool : Int) (keypool : CKeyPool K) : PoolWallet K :=
  { w with pool := Function.update w.pool nPool (some keypool) }

def erasePool (w : PoolWallet K) (nPool : Int) : PoolWallet K :=
  { w with pool := Function.update w.pool nPool none }

def newKeyPoolEntry (env : KeyEnv K) (w : PoolWallet K) : CKeyPool K :=
  ⟨env.newTime w.nGenerated, env.newKey w.nGenerated⟩

def generateNewKey (env : KeyEnv K) (w : PoolWallet K) : PoolWallet K :=
  { w with keys := insert (env.newKey w.nGenerated) w.keys, nGenerated := w.nGenerated + 1 }

def addNewKey (env : KeyEnv K) (w : PoolWallet K) (nIndex : Int) : PoolWallet K :=
  let written := (w.generateNewKey env).writePool nIndex (w.newKeyPoolEntry env)
  { written with setKeyPool := insert nIndex written.setKeyPool }

def nKeys (env : KeyEnv K) : Nat := (max env.nKeypool 0).toNat

def newKeyPool (env : KeyEnv K) (w : PoolWallet K) : Bool × PoolWallet K :=
  let erased : PoolWallet K :=
    { w with
      pool := fun nIndex => if nIndex ∈ w.setKeyPool then none else w.pool nIndex
      setKeyPool := ∅ }
  if w.fLocked then (false, erased)
  else (true, (List.range (nKeys env)).foldl (fun w (i : Nat) => w.addNewKey env (i + 1)) erased)

def nEnd (w : PoolWallet K) : Int :=
  if h : w.setKeyPool.Nonempty then w.setKeyPool.max' h + 1 else 1

def targetSize (env : KeyEnv K) (nSize : UInt32) : Nat :=
  ((if 0 < nSize then nSize else UInt32.ofNat (nKeys env)) + 1).toNat

def topUpLoop (env : KeyEnv K) (nTarget : Nat) : Nat → PoolWallet K → PoolWallet K
  | 0, w => w
  | rounds + 1, w =>
    if w.setKeyPool.card < nTarget then topUpLoop env nTarget rounds (w.addNewKey env w.nEnd)
    else w

def topUpKeyPool (env : KeyEnv K) (w : PoolWallet K) (nSize : UInt32) : Bool × PoolWallet K :=
  if w.fLocked then (false, w)
  else (true, topUpLoop env (targetSize env nSize) (targetSize env nSize) w)

/-- What `ReserveKeyFromKeyPool` leaves in its two arguments, and what it throws. -/
structure Reservation (K : Type) where
  nIndex : Int := -1
  keypool : Option (CKeyPool K) := none
  thrown : Option String := none
deriving DecidableEq

/-- `ReserveKeyFromKeyPool` after its `TopUpKeyPool`. What it throws finds the index taken. -/
def takeKey (w : PoolWallet K) : Reservation K × PoolWallet K :=
  if h : w.setKeyPool.Nonempty then
    let nIndex := w.setKeyPool.min' h
    let erased := { w with setKeyPool := w.setKeyPool.erase nIndex }
    match w.pool nIndex with
    | none => (⟨nIndex, none, some "ReserveKeyFromKeyPool() : read failed"⟩, erased)
    | some keypool =>
      if keypool.vchPubKey ∈ w.keys then (⟨nIndex, some keypool, none⟩, erased)
      else (⟨nIndex, some keypool,
        some "ReserveKeyFromKeyPool() : unknown key in key pool"⟩, erased)
  else ({}, w)

def reserveKeyFromKeyPool (env : KeyEnv K) (w : PoolWallet K) : Reservation K × PoolWallet K :=
  takeKey (w.topUpKeyPool env 0).2

def keepKey (w : PoolWallet K) (nIndex : Int) : PoolWallet K := w.erasePool nIndex

def returnKey (w : PoolWallet K) (nIndex : Int) : PoolWallet K :=
  { w with setKeyPool := insert nIndex w.setKeyPool }

/-- What `GetKeyFromPool` gives: a key of the pool or a new one, the default key, nothing, or what
`ReserveKeyFromKeyPool` throws. -/
inductive PoolKey (K : Type) where
  | handed (key : K)
  | defaultKey (key : K)
  | none
  | thrown (what : String)
deriving DecidableEq

def getKeyFromPool (env : KeyEnv K) (w : PoolWallet K) (fAllowReuse : Bool) :
    PoolKey K × PoolWallet K :=
  let (r, reserved) := w.reserveKeyFromKeyPool env
  match r.thrown, r.keypool with
  | some what, _ => (.thrown what, reserved)
  | none, some keypool => (.handed keypool.vchPubKey, reserved.keepKey r.nIndex)
  | none, none =>
    match fAllowReuse, reserved.vchDefaultKey with
    | true, some key => (.defaultKey key, reserved)
    | _, _ =>
      if reserved.fLocked then (.none, reserved)
      else (.handed (env.newKey reserved.nGenerated), reserved.generateNewKey env)

end PoolWallet

structure CReserveKey (K : Type) where
  nIndex : Int := -1
  vchPubKey : Option K := none
deriving DecidableEq

/-- `GetReservedKey`: what it throws, the object and the wallet after it. The index is the argument
of `ReserveKeyFromKeyPool`, so that it stays when that throws; without an index the key is the
default key. -/
def CReserveKey.getReservedKey {K : Type} [DecidableEq K] (env : KeyEnv K) (r : CReserveKey K)
    (w : PoolWallet K) : Option String × CReserveKey K × PoolWallet K :=
  if r.nIndex = -1 then
    let (taken, w') := w.reserveKeyFromKeyPool env
    match taken.thrown with
    | some what => (some what, ⟨taken.nIndex, r.vchPubKey⟩, w')
    | none =>
      if taken.nIndex ≠ -1 then (none, ⟨taken.nIndex, taken.keypool.map CKeyPool.vchPubKey⟩, w')
      else (none, ⟨-1, w.vchDefaultKey⟩, w')
  else (none, r, w)

def CReserveKey.keepKey {K : Type} (r : CReserveKey K) (w : PoolWallet K) :
    CReserveKey K × PoolWallet K :=
  ({}, if r.nIndex ≠ -1 then w.keepKey r.nIndex else w)

def CReserveKey.returnKey {K : Type} (r : CReserveKey K) (w : PoolWallet K) :
    CReserveKey K × PoolWallet K :=
  ({}, if r.nIndex ≠ -1 then w.returnKey r.nIndex else w)

/-! The wallet with its holders. -/

inductive PoolCall (H : Type) where
  | lock
  | unlock
  | topUpKeyPool (nSize : UInt32)
  | newKeyPool
  | getReservedKey (h : H)
  | keepKey (h : H)
  | returnKey (h : H)
  | getKeyFromPool (h : H) (fAllowReuse : Bool)

structure PoolState (H K : Type) where
  wallet : PoolWallet K
  holder : H → CReserveKey K := fun _ => {}
  handed : List (H × K) := []

variable {H K : Type} [DecidableEq H] [DecidableEq K]

def CReserveKey.reserved (h : H) (r : CReserveKey K) : List (H × K) :=
  if r.nIndex = -1 then [] else r.vchPubKey.toList.map (Prod.mk h)

namespace PoolState

def call (env : KeyEnv K) (s : PoolState H K) : PoolCall H → PoolState H K
  | .lock => { s with wallet := { s.wallet with fLocked := true } }
  | .unlock => { s with wallet := { s.wallet with fLocked := false } }
  | .topUpKeyPool nSize => { s with wallet := (s.wallet.topUpKeyPool env nSize).2 }
  | .newKeyPool => { s with wallet := (s.wallet.newKeyPool env).2 }
  | .getReservedKey h =>
    let (thrown, r, w) := (s.holder h).getReservedKey env s.wallet
    { wallet := w
      holder := Function.update s.holder h r
      handed :=
        if thrown = none ∧ (s.holder h).nIndex = -1 then r.reserved h ++ s.handed else s.handed }
  | .keepKey h =>
    let (r, w) := (s.holder h).keepKey s.wallet
    { s with wallet := w, holder := Function.update s.holder h r }
  | .returnKey h =>
    let (r, w) := (s.holder h).returnKey s.wallet
    { wallet := w
      holder := Function.update s.holder h r
      handed := s.handed.filter (· ∉ (s.holder h).reserved h) }
  | .getKeyFromPool h fAllowReuse =>
    match s.wallet.getKeyFromPool env fAllowReuse with
    | (.handed key, w) => { s with wallet := w, handed := (h, key) :: s.handed }
    | (_, w) => { s with wallet := w }

def run (env : KeyEnv K) (s : PoolState H K) (calls : List (PoolCall H)) : PoolState H K :=
  calls.foldl (call env) s

end PoolState

end Triangles.Keypool
