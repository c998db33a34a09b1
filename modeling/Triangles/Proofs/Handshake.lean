import Triangles.Lib.Trace
import Triangles.Model.Handshake

/-! The version handshake: how many versions a connection carries, and when a node notices that it
talks to itself. -/

namespace Triangles.Handshake

open CNode

/-! What one message does. -/

@[simp] theorem ownVersion_inj {n m : UInt64} : ownVersion n = ownVersion m ↔ n = m := by
  simp [ownVersion]

/-- The version of a node, processed first. -/
theorem processVersion_own {nBanScore : Int} {g d n : UInt64} {pfrom : CNode}
    (h : pfrom.nVersion = 0) :
    pfrom.processVersion nBanScore g d (ownVersion n) =
      if n = g ∧ 1 < n then
        (g, { pfrom with nVersion := PROTOCOL_VERSION, fDisconnect := true })
      else if pfrom.fInbound then
        (d, { pfrom with
          nVersion := PROTOCOL_VERSION
          fSuccessfullyConnected := true
          vSend := pfrom.vSend ++ [.version (ownVersion d), .verack] })
      else
        (g, { pfrom with
          nVersion := PROTOCOL_VERSION
          fSuccessfullyConnected := true
          vSend := pfrom.vSend ++ [.verack] }) := by
  have hmin : ¬PROTOCOL_VERSION < MIN_PROTO_VERSION := by decide
  have hold : PROTOCOL_VERSION ≠ 10300 := by decide
  simp only [processVersion, h, ne_eq, not_true_eq_false, ↓reduceIte, ownVersion, Bool.not_true,
    Bool.false_eq_true, hmin, hold, Option.getD_some]
  split
  · rfl
  · cases hin : pfrom.fInbound <;> simp [pushVersion, pushMessage, ownVersion]

theorem processVersion_own_kept (nBanScore : Int) (g d n : UInt64) {pfrom : CNode}
    (h : pfrom.nVersion = 0) :
    (pfrom.processVersion nBanScore g d (ownVersion n)).2.nVersion = PROTOCOL_VERSION ∧
      (pfrom.processVersion nBanScore g d (ownVersion n)).2.fInbound = pfrom.fInbound ∧
      pfrom.vSend <+: (pfrom.processVersion nBanScore g d (ownVersion n)).2.vSend := by
  rw [processVersion_own h]
  split
  · exact ⟨rfl, rfl, List.prefix_rfl⟩
  · split
    · exact ⟨rfl, rfl, List.prefix_append _ _⟩
    · exact ⟨rfl, rfl, List.prefix_append _ _⟩

/-- A message that is no version, after the version. -/
theorem processMessage_after (nBanScore : Int) (g d : UInt64) {pfrom : CNode} {m : NetMessage}
    (h : pfrom.nVersion ≠ 0) (hm : m.isVersion = false) :
    ∃ nRecvVersion, pfrom.processMessage nBanScore g d m =
      (g, { pfrom with nRecvVersion := nRecvVersion }) := by
  cases m with
  | version m => simp [NetMessage.isVersion] at hm
  | verack => exact ⟨min pfrom.nVersion PROTOCOL_VERSION, by simp [processMessage, h]⟩
  | other => exact ⟨pfrom.nRecvVersion, by simp [processMessage, h]⟩

/-! Two nodes. -/

/-- An end that has sent one version, and has not called `Misbehaving`. -/
def End.Clean (e : End) : Prop :=
  ∀ pnode, e.pnode = some pnode →
    pnode.vSend.countP NetMessage.isVersion = 1 ∧ pnode.nCalls = 0

/-- What every step keeps of an end: its first message is a version, and so is the first that it
processes. -/
structure End.Kept (fInbound : Bool) (e : End) : Prop where
  absent : e.pnode = none → e.nProcessed = 0
  inbound : ∀ pnode, e.pnode = some pnode → pnode.fInbound = fInbound
  first : ∀ pnode, e.pnode = some pnode →
    ∃ n rest, pnode.vSend = .version (ownVersion n) :: rest
  version : ∀ pnode, e.pnode = some pnode →
    pnode.nVersion = if e.nProcessed = 0 then 0 else PROTOCOL_VERSION

/-- The accepting side answers a version: it is the first on the connection, and does not look like
its own. -/
def End.Answers (e other : End) : PairEvent → Prop
  | .process _ => ∃ pnode m, e.pnode = some pnode ∧ pnode.fDisconnect = false ∧
      pnode.nVersion = 0 ∧ other.sent[e.nProcessed]? = some (.version m) ∧
      ¬(m.nNonce = some e.nLocalHostNonce ∧ 1 < e.nLocalHostNonce)
  | _ => False

/-- The messages of an end, once it is there. -/
theorem End.Kept.sent_cases {fInbound : Bool} {e : End} (h : e.Kept fInbound) (hc : e.Clean) :
    e.sent = [] ∨ ∃ n rest, e.sent = .version (ownVersion n) :: rest ∧
      ∀ m ∈ rest, m.isVersion = false := by
  cases hp : e.pnode with
  | none => exact .inl (by simp [End.sent, hp])
  | some pnode =>
    obtain ⟨n, rest, hs⟩ := h.first pnode hp
    refine .inr ⟨n, rest, by simp [End.sent, hp, hs], ?_⟩
    have hcount := (hc pnode hp).1
    rw [hs, List.countP_cons_of_pos rfl] at hcount
    have hnone : rest.countP NetMessage.isVersion = 0 := by omega
    intro m hm
    simpa using List.countP_eq_zero.mp hnone m hm

/-- What a processed message leaves: nothing happens, the version is the first message, or the
version is known and stays. -/
theorem End.process_cases (nBanScore : Int) {fInbound : Bool} {e other : End} (h : e.Kept fInbound)
    (ho : other.Kept !fInbound) (d : UInt64) :
    (e.event nBanScore fInbound other (.process d) = e ∧ ¬e.Answers other (.process d)) ∨
    ∃ pnode m, e.pnode = some pnode ∧ pnode.fDisconnect = false ∧
      other.sent[e.nProcessed]? = some m ∧
      e.event nBanScore fInbound other (.process d) =
        { nLocalHostNonce := (pnode.processMessage nBanScore e.nLocalHostNonce d m).1
          pnode := some (pnode.processMessage nBanScore e.nLocalHostNonce d m).2
          nProcessed := e.nProcessed + 1 } ∧
      ((e.nProcessed = 0 ∧ pnode.nVersion = 0 ∧ ∃ n, m = .version (ownVersion n)) ∨
        (e.nProcessed ≠ 0 ∧ pnode.nVersion = PROTOCOL_VERSION ∧ m ∈ other.sent.tail)) := by
  cases hp : e.pnode with
  | none => exact .inl ⟨by simp [End.event, hp], by rintro ⟨pnode, m, hpn, -⟩; simp [hp] at hpn⟩
  | some pnode =>
    cases hm : other.sent[e.nProcessed]? with
    | none =>
      refine .inl ⟨by simp [End.event, hp, hm], ?_⟩
      rintro ⟨pnode, m, -, -, -, hmn, -⟩
      simp [hm] at hmn
    | some m =>
      cases hd : pnode.fDisconnect with
      | true =>
        refine .inl ⟨by simp [End.event, hp, hm, hd], ?_⟩
        rintro ⟨pnode', m, hpn, hdn, -⟩
        rw [hp, Option.some.injEq] at hpn
        simp [← hpn, hd] at hdn
      | false =>
        refine .inr ⟨pnode, m, rfl, hd, rfl, by simp [End.event, hp, hm, hd], ?_⟩
        have hv := h.version pnode hp
        obtain ⟨q, hq⟩ : ∃ q, other.pnode = some q := by
          cases hq : other.pnode with
          | none => simp [End.sent, hq] at hm
          | some q => exact ⟨q, rfl⟩
        obtain ⟨n, rest, hs⟩ := ho.first q hq
        have hsent : other.sent = .version (ownVersion n) :: rest := by simp [End.sent, hq, hs]
        by_cases h0 : e.nProcessed = 0
        · rw [h0, hsent] at hm
          exact .inl ⟨h0, by rw [hv, if_pos h0], n, by simpa using hm.symm⟩
        · refine .inr ⟨h0, by rw [hv, if_neg h0], ?_⟩
          rw [hsent, List.tail_cons]
          obtain ⟨k, hk⟩ := Nat.exists_eq_succ_of_ne_zero h0
          rw [hk, hsent, List.getElem?_cons_succ] at hm
          exact List.mem_of_getElem? hm

/-- A message, a version or not, once the version is known. -/
theorem processMessage_known (nBanScore : Int) (g d : UInt64) {pfrom : CNode} {m : NetMessage}
    (h : pfrom.nVersion ≠ 0) :
    (pfrom.processMessage nBanScore g d m).2.nVersion = pfrom.nVersion ∧
      (pfrom.processMessage nBanScore g d m).2.fInbound = pfrom.fInbound ∧
      (pfrom.processMessage nBanScore g d m).2.vSend = pfrom.vSend := by
  cases m with
  | version m =>
    simp only [processMessage, processVersion, h, ne_eq, not_false_eq_true, ↓reduceIte,
      misbehaving]
    split <;> simp
  | verack => simp [processMessage, h]
  | other => simp [processMessage, h]

theorem End.Kept.event {nBanScore : Int} {fInbound : Bool} {e other : End} (h : e.Kept fInbound)
    (ho : other.Kept !fInbound) (ev : PairEvent) :
    (e.event nBanScore fInbound other ev).Kept fInbound := by
  cases ev with
  | draw n => exact ⟨h.absent, h.inbound, h.first, h.version⟩
  | push =>
    cases hp : e.pnode with
    | none =>
      have heq : e.event nBanScore fInbound other .push = e := by
        rw [End.event, hp, Option.map_none, ← hp]
      exact heq.symm ▸ h
    | some pnode =>
      obtain ⟨n, rest, hs⟩ := h.first pnode hp
      constructor
      case absent => simp [End.event, hp]
      case inbound => simpa [End.event, hp, pushMessage] using h.inbound pnode hp
      case first => simp [End.event, hp, pushMessage, hs, ownVersion]
      case version => simpa [End.event, hp, pushMessage] using h.version pnode hp
  | new n fLocal =>
    cases hp : e.pnode with
    | some pnode => simpa [End.event, hp] using h
    | none =>
      have h0 := h.absent hp
      constructor
      case absent => simp [End.event, hp]
      case inbound => simp [End.event, hp, CNode.new, pushVersion, pushMessage]
      case first => simp [End.event, hp, CNode.new, pushVersion, pushMessage, ownVersion]
      case version => simp [End.event, hp, CNode.new, pushVersion, pushMessage, h0]
  | process d =>
    obtain ⟨heq, -⟩ | ⟨pnode, m, hp, -, -, heq, ⟨-, hv, n, rfl⟩ | ⟨-, hv, -⟩⟩ :=
      End.process_cases nBanScore h ho d
    · rw [heq]
      exact h
    · obtain ⟨n', rest, hs⟩ := h.first pnode hp
      obtain ⟨hkv, hki, l, hl⟩ := processVersion_own_kept nBanScore e.nLocalHostNonce d n hv
      rw [heq, processMessage]
      constructor
      case absent => simp
      case inbound => simpa [hki] using h.inbound pnode hp
      case first =>
        intro q hq
        rw [← Option.some.inj hq, ← hl, hs]
        exact ⟨n', rest ++ l, rfl⟩
      case version => simp [hkv]
    · obtain ⟨n', rest, hs⟩ := h.first pnode hp
      have hne : pnode.nVersion ≠ 0 := by rw [hv]; decide
      obtain ⟨hkv, hki, hks⟩ := processMessage_known nBanScore e.nLocalHostNonce d (m := m) hne
      rw [heq]
      constructor
      case absent => simp
      case inbound => simpa [hki] using h.inbound pnode hp
      case first => simp [hks, hs, ownVersion]
      case version => simp [hkv, hv]

/-- The first message is answered when it does not look like the end's own. -/
theorem End.answers_first_iff {e other : End} {pnode : CNode} {n : UInt64} (d : UInt64)
    (hp : e.pnode = some pnode) (hd : pnode.fDisconnect = false) (hv : pnode.nVersion = 0)
    (hm : other.sent[e.nProcessed]? = some (.version (ownVersion n))) :
    e.Answers other (.process d) ↔ ¬(n = e.nLocalHostNonce ∧ 1 < n) := by
  constructor
  · rintro ⟨_, m, -, -, -, hmn, hno⟩ ⟨rfl, hlt⟩
    rw [hm, Option.some.injEq, NetMessage.version.injEq] at hmn
    subst hmn
    exact hno ⟨rfl, hlt⟩
  · intro hno
    refine ⟨pnode, _, hp, hd, hv, hm, ?_⟩
    rintro ⟨he, hlt⟩
    simp only [ownVersion, Option.some.injEq] at he
    exact hno ⟨he, he ▸ hlt⟩

theorem End.Clean.event_iff (nBanScore : Int) {fInbound : Bool} {e other : End}
    (h : e.Kept fInbound) (ho : other.Kept !fInbound) (hc : e.Clean) (hco : other.Clean)
    (ev : PairEvent) :
    (e.event nBanScore fInbound other ev).Clean ↔ ¬(fInbound = true ∧ e.Answers other ev) := by
  cases ev with
  | draw n => simpa [End.Answers, End.event, End.Clean] using hc
  | push =>
    cases hp : e.pnode with
    | none => simp [End.Answers, End.event, hp, End.Clean]
    | some pnode =>
      have := hc pnode hp
      simpa [End.Answers, End.event, hp, End.Clean, pushMessage, NetMessage.isVersion] using this
  | new n fLocal =>
    cases hp : e.pnode with
    | none =>
      simp [End.Answers, End.event, hp, End.Clean, CNode.new, pushVersion, pushMessage,
        NetMessage.isVersion]
    | some pnode =>
      have := hc pnode hp
      simpa [End.Answers, End.event, hp, End.Clean] using this
  | process d =>
    obtain ⟨heq, hno⟩ | ⟨pnode, m, hp, hd, hm, heq, ⟨-, hv, n, rfl⟩ | ⟨-, hv, htail⟩⟩ :=
      End.process_cases nBanScore h ho d
    · simp [heq, hno, hc]
    · -- the first message: an answer is a second version
      obtain ⟨hcount, hcalls⟩ := hc pnode hp
      have hin := h.inbound pnode hp
      have hans := End.answers_first_iff d hp hd hv hm
      rw [heq, processMessage, processVersion_own hv, hin]
      by_cases hself : n = e.nLocalHostNonce ∧ 1 < n
      · have hno : ¬e.Answers other (.process d) := fun ha => hans.mp ha hself
        rw [if_pos hself]
        simp [End.Clean, hcount, hcalls, hno]
      · have hyes : e.Answers other (.process d) := hans.mpr hself
        rw [if_neg hself]
        cases fInbound <;> simp [End.Clean, hcount, hcalls, hyes, NetMessage.isVersion]
    · -- later messages are no versions
      have hne : pnode.nVersion ≠ 0 := by rw [hv]; decide
      have hmv : m.isVersion = false := by
        obtain hs | ⟨n, rest, hs, hrest⟩ := ho.sent_cases hco
        · simp [hs] at htail
        · exact hrest m (by simpa [hs] using htail)
      obtain ⟨r, hr⟩ := processMessage_after nBanScore e.nLocalHostNonce d hne hmv
      have hno : ¬e.Answers other (.process d) := by
        rintro ⟨q, m', hq, -, hq0, -⟩
        rw [hp, Option.some.injEq] at hq
        exact hne (hq ▸ hq0)
      have := hc pnode hp
      simpa [heq, hr, End.Clean, hno] using this

/-- Both ends that are there have sent one version, and neither has called `Misbehaving`. -/
def Pair.Clean (p : Pair) : Prop := p.connector.Clean ∧ p.acceptor.Clean

/-- The accepting side answers the version of the connecting side. -/
def Pair.Answers (p : Pair) (x : Bool × PairEvent) : Prop :=
  x.1 = true ∧ p.acceptor.Answers p.connector x.2

theorem End.kept_empty (fInbound : Bool) : (({} : End)).Kept fInbound where
  absent _ := rfl
  inbound _ h := by simp at h
  first _ h := by simp at h
  version _ h := by simp at h

/-- A run between two nodes has one version on each side, and no call of `Misbehaving`, exactly as
long as the accepting side has not answered a version. -/
theorem honest_handshake_iff (nBanScore : Int) (events : List (Bool × PairEvent)) :
    (∀ p, p <+: events → (p.foldl (Pair.event nBanScore) {}).Clean) ↔
      ∀ x ∈ Trace.trace (Pair.event nBanScore) {} events, ¬x.1.Answers x.2 := by
  apply Trace.prefixes_iff (K := fun p : Pair => p.connector.Kept false ∧ p.acceptor.Kept true)
    (P := fun p x => ¬p.Answers x)
  · rintro p ⟨side, ev⟩ ⟨hc, ha⟩ ⟨hkc, hka⟩
    cases side with
    | false =>
      have hiff := hc.event_iff nBanScore hkc hka ha ev
      simp only [Pair.Clean, Pair.Answers, Pair.event, hiff, ha]
      simp
    | true =>
      have hiff := ha.event_iff nBanScore hka hkc hc ev
      simp only [Pair.Clean, Pair.Answers, Pair.event, hiff, hc]
      simp
  · rintro p ⟨side, ev⟩ ⟨hkc, hka⟩
    cases side with
    | false => exact ⟨hkc.event hka ev, hka⟩
    | true => exact ⟨hkc, hka.event hkc ev⟩
  · exact ⟨fun _ h => by simp at h, fun _ h => by simp at h⟩
  · exact ⟨End.kept_empty false, End.kept_empty true⟩

/-- The constructor of the accepting side pushes a version, the handler pushes another, and the
connecting side calls `Misbehaving` for it. -/
theorem accepting_side_sends_two_versions :
    let p : Pair := [(false, PairEvent.new 5 false), (true, .new 7 false), (true, .process 9),
      (false, .process 0), (false, .process 0)].foldl (Pair.event 100) {}
    ¬p.Clean ∧ p.acceptor.sent = [.version (ownVersion 7), .version (ownVersion 9), .verack] ∧
      p.connector.pnode.map CNode.nCalls = some 1 := by
  intro p
  have hsent : p.acceptor.sent =
      [.version (ownVersion 7), .version (ownVersion 9), .verack] := by decide
  have hcalls : p.connector.pnode.map CNode.nCalls = some 1 := by decide
  refine ⟨fun hclean => ?_, hsent, hcalls⟩
  obtain ⟨pnode, hp, hone⟩ := Option.map_eq_some_iff.mp hcalls
  have := (hclean.1 pnode hp).2
  omega

/-! One node that may reach itself. -/

/-- Every connection on which a version of the node itself has been processed is to be disconnected,
and is not connected. -/
def SelfNet.SelfCut (s : SelfNet) : Prop :=
  ∀ i ∈ s.heardSelf, ∃ pfrom, s.vNodes[i]? = some pfrom ∧ pfrom.fDisconnect = true ∧
    pfrom.fSuccessfullyConnected = false

/-- One more call of `Misbehaving` bans the peer. -/
def CNode.Bans (nBanScore : Int) (pfrom : CNode) : Prop :=
  pfrom.fLocal = false ∧ nBanScore ≤ pfrom.nMisbehavior + 1

/-- A version of the node itself that is about to be processed is noticed: it is the first on its
connection and the last that the node has pushed. Otherwise the connection, on which a version broke
off before, is about to be banned. -/
def SelfNet.Notices (nBanScore : Int) (s : SelfNet) : NetEvent → Prop
  | .process i m _ => s.isOwn m = true → ∀ pfrom, s.vNodes[i]? = some pfrom →
      pfrom.fDisconnect = false →
      (pfrom.nVersion = 0 ∧ m = .version (ownVersion s.nLocalHostNonce) ∧ 1 < s.nLocalHostNonce) ∨
      (pfrom.nVersion ≠ 0 ∧ pfrom.fSuccessfullyConnected = false ∧ pfrom.Bans nBanScore)
  | _ => True

structure SelfNet.Kept (s : SelfNet) : Prop where
  versions : ∀ m ∈ s.created, ∃ n, m = ownVersion n
  connected : ∀ pfrom ∈ s.vNodes, pfrom.fSuccessfullyConnected = true → pfrom.nVersion ≠ 0

theorem SelfNet.Kept.own {s : SelfNet} (h : s.Kept) {m : NetMessage} (hm : s.isOwn m = true) :
    ∃ n, m = .version (ownVersion n) := by
  cases m with
  | version m =>
    obtain ⟨n, rfl⟩ := h.versions m (by simpa [isOwn] using hm)
    exact ⟨n, rfl⟩
  | verack => simp [isOwn] at hm
  | other => simp [isOwn] at hm

/-- A version of the node itself cuts the connection exactly when it is noticed. -/
theorem own_version_cut_iff (nBanScore : Int) (g d n : UInt64) {pfrom : CNode}
    (hlive : pfrom.fDisconnect = false)
    (hconn : pfrom.fSuccessfullyConnected = true → pfrom.nVersion ≠ 0) :
    ((pfrom.processVersion nBanScore g d (ownVersion n)).2.fDisconnect = true ∧
        (pfrom.processVersion nBanScore g d (ownVersion n)).2.fSuccessfullyConnected = false) ↔
      (pfrom.nVersion = 0 ∧ n = g ∧ 1 < g) ∨
        (pfrom.nVersion ≠ 0 ∧ pfrom.fSuccessfullyConnected = false ∧ pfrom.Bans nBanScore) := by
  by_cases hv : pfrom.nVersion = 0
  · have hnot : pfrom.fSuccessfullyConnected = false := by
      simpa using fun h => hconn h hv
    rw [processVersion_own hv]
    by_cases hself : n = g ∧ 1 < n
    · obtain ⟨rfl, hlt⟩ := hself
      simp [hv, hnot, hlt]
    · have hself' : ¬(n = g ∧ 1 < g) := fun h => hself ⟨h.1, h.1 ▸ h.2⟩
      rw [if_neg hself]
      cases pfrom.fInbound <;> simp [hv, hself']
  · simp only [processVersion, hv, ne_eq, not_false_eq_true, ↓reduceIte, misbehaving, Bans]
    cases hl : pfrom.fLocal
    · by_cases hb : nBanScore ≤ pfrom.nMisbehavior + 1 <;> simp [hb, hlive]
    · simp [hlive]

/-- A version that is read to its end is at least `MIN_PROTO_VERSION`. -/
theorem processVersion_connected {nBanScore : Int} {g d : UInt64} {pfrom : CNode}
    {m : VersionMessage} (hv : pfrom.nVersion = 0) (h : pfrom.fSuccessfullyConnected = false)
    (hc : (pfrom.processVersion nBanScore g d m).2.fSuccessfullyConnected = true) :
    (pfrom.processVersion nBanScore g d m).2.nVersion ≠ 0 := by
  obtain ⟨nVersion, fHeader, nNonce, fRest⟩ := m
  have hmin : MIN_PROTO_VERSION = 70204 := rfl
  cases nVersion with
  | none => simp [processVersion, hv, h] at hc
  | some v =>
    have hold : v ≠ 10300 ∨ v < MIN_PROTO_VERSION := by omega
    simp only [processVersion, hv, ne_eq, not_true_eq_false, ↓reduceIte] at hc ⊢
    cases fHeader with
    | false => simp [h] at hc
    | true =>
      by_cases hlt : v < MIN_PROTO_VERSION
      · simp [hlt, h] at hc
      · have hne : v ≠ 10300 := hold.resolve_right hlt
        simp only [hlt, hne, Bool.not_true, Bool.false_eq_true, ↓reduceIte] at hc ⊢
        cases fRest with
        | false => simp [h] at hc
        | true =>
          simp only [Bool.not_true, Bool.false_eq_true, ↓reduceIte] at hc ⊢
          split at hc
          · simp [h] at hc
          · rename_i hself
            rw [if_neg hself]
            cases pfrom.fInbound <;> simp [pushVersion, pushMessage] <;> omega

theorem processMessage_connected {nBanScore : Int} {g d : UInt64} {pfrom : CNode} {m : NetMessage}
    (h : pfrom.fSuccessfullyConnected = true → pfrom.nVersion ≠ 0)
    (hc : (pfrom.processMessage nBanScore g d m).2.fSuccessfullyConnected = true) :
    (pfrom.processMessage nBanScore g d m).2.nVersion ≠ 0 := by
  by_cases hv : pfrom.nVersion = 0
  · have hnot : pfrom.fSuccessfullyConnected = false := by
      simpa using fun hs => h hs hv
    cases m with
    | version m => exact processVersion_connected hv hnot hc
    | verack =>
      simp only [processMessage, hv, ↓reduceIte, misbehaving] at hc
      split at hc <;> simp [hnot] at hc
    | other =>
      simp only [processMessage, hv, ↓reduceIte, misbehaving] at hc
      split at hc <;> simp [hnot] at hc
  · rw [(processMessage_known _ _ _ hv).1]
    exact hv

theorem SelfNet.Kept.addNode {s : SelfNet} (h : s.Kept) (n : UInt64) (fInbound fLocal : Bool) :
    (s.addNode n fInbound fLocal).Kept where
  versions m hm := by
    rcases List.mem_cons.mp hm with rfl | hm
    · exact ⟨n, rfl⟩
    · exact h.versions m hm
  connected pfrom hp := by
    rcases List.mem_append.mp hp with hp | hp
    · exact h.connected pfrom hp
    · rw [List.mem_singleton.mp hp]
      simp [CNode.new, pushVersion, pushMessage]

theorem SelfNet.Kept.event {nBanScore : Int} {s : SelfNet} (h : s.Kept) (ev : NetEvent) :
    (s.event nBanScore ev).Kept := by
  cases ev with
  | connect n fLocal => exact h.addNode n false fLocal
  | accept n fLocal => exact h.addNode n true fLocal
  | close i =>
    cases hi : s.vNodes[i]? with
    | none => simpa [SelfNet.event, hi] using h
    | some pfrom =>
      simp only [SelfNet.event, hi]
      refine ⟨h.versions, fun q hq => ?_⟩
      rcases List.mem_or_eq_of_mem_set hq with hq | rfl
      · exact h.connected q hq
      · exact h.connected pfrom (List.mem_of_getElem? hi)
  | process i m d =>
    cases hi : s.vNodes[i]? with
    | none => simpa [SelfNet.event, hi] using h
    | some pfrom =>
      cases hd : pfrom.fDisconnect with
      | true => simpa [SelfNet.event, hi, hd] using h
      | false =>
        simp only [SelfNet.event, hi, hd, Bool.false_eq_true, ↓reduceIte]
        constructor
        · intro m' hm'
          simp only at hm'
          split at hm'
          · exact h.versions m' hm'
          · rcases List.mem_cons.mp hm' with rfl | hm'
            · exact ⟨d, rfl⟩
            · exact h.versions m' hm'
        · intro q hq
          rcases List.mem_or_eq_of_mem_set hq with hq | rfl
          · exact h.connected q hq
          · exact processMessage_connected (h.connected pfrom (List.mem_of_getElem? hi))

theorem SelfNet.SelfCut.addNode {s : SelfNet} (hs : s.SelfCut) (n : UInt64)
    (fInbound fLocal : Bool) : (s.addNode n fInbound fLocal).SelfCut := by
  intro i hi
  obtain ⟨pfrom, hp, hcut⟩ := hs i hi
  refine ⟨pfrom, ?_, hcut⟩
  obtain ⟨hlt, -⟩ := List.getElem?_eq_some_iff.mp hp
  simpa [SelfNet.addNode, List.getElem?_append_left hlt] using hp

theorem SelfNet.SelfCut.close {nBanScore : Int} {s : SelfNet} (hs : s.SelfCut) (i : Nat) :
    (s.event nBanScore (.close i)).SelfCut := by
  cases hi : s.vNodes[i]? with
  | none => simpa [SelfNet.event, hi] using hs
  | some pfrom =>
    simp only [SelfNet.event, hi]
    intro j hj
    obtain ⟨q, hq, hcut⟩ := hs j hj
    by_cases hij : i = j
    · subst hij
      rw [hi, Option.some.injEq] at hq
      subst hq
      obtain ⟨hlt, -⟩ := List.getElem?_eq_some_iff.mp hi
      refine ⟨{ pfrom with fDisconnect := true }, ?_, rfl, hcut.2⟩
      simp [hlt]
    · exact ⟨q, by simpa [hij] using hq, hcut⟩

/-- A connection that is not to be disconnected is none of those that are cut, and may change. -/
theorem SelfNet.SelfCut.set {s : SelfNet} (hs : s.SelfCut) {i : Nat} {pfrom : CNode}
    (hi : s.vNodes[i]? = some pfrom) (hd : pfrom.fDisconnect = false) (pfrom' : CNode) :
    ∀ j ∈ s.heardSelf, ∃ q, (s.vNodes.set i pfrom')[j]? = some q ∧ q.fDisconnect = true ∧
      q.fSuccessfullyConnected = false := by
  intro j hj
  obtain ⟨q, hq, hcut⟩ := hs j hj
  have hij : i ≠ j := by
    rintro rfl
    rw [hi, Option.some.injEq] at hq
    rw [← hq, hd] at hcut
    simp at hcut
  exact ⟨q, by simpa [hij] using hq, hcut⟩

theorem SelfNet.SelfCut.event_iff {nBanScore : Int} {s : SelfNet} (hk : s.Kept) (hs : s.SelfCut)
    (ev : NetEvent) : (s.event nBanScore ev).SelfCut ↔ s.Notices nBanScore ev := by
  cases ev with
  | connect n fLocal => exact iff_of_true (hs.addNode n false fLocal) trivial
  | accept n fLocal => exact iff_of_true (hs.addNode n true fLocal) trivial
  | close i => exact iff_of_true (hs.close i) trivial
  | process i m d =>
    cases hi : s.vNodes[i]? with
    | none =>
      simp only [SelfNet.event, hi, Notices, hs, true_iff]
      simp
    | some pfrom =>
      cases hd : pfrom.fDisconnect with
      | true =>
        simp only [SelfNet.event, hi, hd, Notices, hs, true_iff, ↓reduceIte]
        simp [hd]
      | false =>
        obtain ⟨hlt, -⟩ := List.getElem?_eq_some_iff.mp hi
        -- the connections that are cut are as they were
        have hrest := hs.set hi hd (pfrom.processMessage nBanScore s.nLocalHostNonce d m).2
        cases hown : s.isOwn m with
        | false =>
          refine iff_of_true ?_ fun h => absurd (hown.symm.trans h) (by simp)
          intro j hj
          simp only [SelfNet.event, hi, hd, hown, Bool.false_eq_true, ↓reduceIte] at hj ⊢
          exact hrest j hj
        | true =>
          obtain ⟨n, rfl⟩ := hk.own hown
          have hiff := own_version_cut_iff nBanScore s.nLocalHostNonce d n hd
            (hk.connected pfrom (List.mem_of_getElem? hi))
          have hsplit : (s.event nBanScore (.process i (.version (ownVersion n)) d)).SelfCut ↔
              (pfrom.processVersion nBanScore s.nLocalHostNonce d
                (ownVersion n)).2.fDisconnect = true ∧
              (pfrom.processVersion nBanScore s.nLocalHostNonce d
                (ownVersion n)).2.fSuccessfullyConnected = false := by
            simp only [SelfNet.event, hi, hd, hown, Bool.false_eq_true, ↓reduceIte, SelfCut,
              List.forall_mem_cons]
            rw [and_iff_left hrest]
            simp [hlt, processMessage]
          rw [hsplit, hiff]
          simp [Notices, hown, hi, hd]

/-- In a run of a node, every connection on which a version of the node itself is processed is cut
and stays so, exactly when each such version is noticed. -/
theorem self_connections_cut_iff (nBanScore : Int) (events : List NetEvent) :
    (∀ p, p <+: events → (p.foldl (SelfNet.event nBanScore) {}).SelfCut) ↔
      ∀ x ∈ Trace.trace (SelfNet.event nBanScore) {} events, x.1.Notices nBanScore x.2 := by
  apply Trace.prefixes_iff (K := SelfNet.Kept) (P := SelfNet.Notices nBanScore)
  · exact fun s ev hs hk => hs.event_iff hk ev
  · exact fun s ev hk => hk.event ev
  · exact fun i hi => absurd hi (List.not_mem_nil)
  · exact ⟨fun m hm => absurd hm (List.not_mem_nil), fun p hp => absurd hp (List.not_mem_nil)⟩

/-- The accepted end of a connection to itself has pushed a version too before it processes the one
of the other end, whose nonce is then no longer the last. -/
theorem self_connection_completes :
    let s : SelfNet := [NetEvent.connect 5 false, .accept 7 false,
      .process 1 (.version (ownVersion 5)) 9].foldl (SelfNet.event 100) {}
    ¬s.SelfCut ∧ s.heardSelf = [1] ∧
      s.vNodes[1]?.map (fun pfrom => (pfrom.fDisconnect, pfrom.fSuccessfullyConnected)) =
        some (false, true) := by
  intro s
  have hheard : s.heardSelf = [1] := by decide
  have hnode : s.vNodes[1]?.map
      (fun pfrom => (pfrom.fDisconnect, pfrom.fSuccessfullyConnected)) = some (false, true) := by
    decide
  refine ⟨fun hcut => ?_, hheard, hnode⟩
  obtain ⟨pfrom, hp, hd, -⟩ := hcut 1 (by simp [hheard])
  simp [hp, hd] at hnode

end Triangles.Handshake
