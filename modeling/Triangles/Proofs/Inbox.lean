import Triangles.Model.SmsgInbox
import Triangles.Proofs.MessageIntegrity

/-! Which messages reach the inbox. -/

namespace Triangles

open Std (ExtTreeMap)
open Outcome

section Key

theorem inboxKey_inj {header : SmsgHeader} {x y : List UInt8}
    (h : inboxKey header x = inboxKey header y) : x = y :=
  List.append_cancel_left (List.append_cancel_left h)

variable {db : InboxDb} {k k' : List UInt8} {v v' : SecMsgStored}

theorem mem_addSmesg : k' ∈ addSmesg db k v ↔ k' = k ∨ k' ∈ db := by
  unfold addSmesg
  split
  · rename_i hk
    rw [← ExtTreeMap.mem_iff_contains] at hk
    constructor
    · exact .inr
    · rintro (rfl | h)
      · exact hk
      · exact h
  · rw [ExtTreeMap.mem_insert, Std.LawfulEqCmp.compare_eq_iff_eq, eq_comm]

theorem addSmesg_known (h : k ∈ db) : addSmesg db k v = db := by
  rw [addSmesg, if_pos (ExtTreeMap.mem_iff_contains.mp h)]

/-- A record is added exactly when its key is not there. -/
theorem addSmesg_eq_self : addSmesg db k v = db ↔ k ∈ db := by
  refine ⟨fun h => ?_, addSmesg_known⟩
  rw [← h]
  exact mem_addSmesg.mpr (.inl rfl)

/-- Two records under different keys do the same only when both keys are there. -/
theorem addSmesg_eq_of_ne (hne : k ≠ k') (h : addSmesg db k v = addSmesg db k' v') :
    k ∈ db ∧ k' ∈ db := by
  have hk : k ∈ addSmesg db k' v' := h ▸ mem_addSmesg.mpr (.inl rfl)
  have hk' : k' ∈ addSmesg db k v := h ▸ mem_addSmesg.mpr (.inl rfl)
  exact ⟨(mem_addSmesg.mp hk).resolve_left hne, (mem_addSmesg.mp hk').resolve_left hne.symm⟩

end Key

section Scan

variable (lib : SmsgLib) (host : SmsgHost) (m : Smsg)

def decryptWith (fTestOnly : Bool) (it : SecMsgAddress) :
    Except SmsgFailure (Option (MessageData × Option (uint160 × List UInt8))) :=
  secureMsgDecrypt lib host fTestOnly (it.addressTo lib) m.header.message m.payload

/-- The MAC of the message is right with the key of an address. -/
def Authenticates (it : SecMsgAddress) : Prop := decryptWith lib host m true it = .ok none

/-- The message decrypts with an address, and names a sender. -/
def NamesSender (it : SecMsgAddress) : Prop :=
  ∃ r, decryptWith lib host m false it = .ok (some r) ∧ r.1.sFromAddress ≠ anonAddress

/-- The message decrypts with an address, and names no sender. -/
def NamesNone (it : SecMsgAddress) : Prop :=
  ∃ r, decryptWith lib host m false it = .ok (some r) ∧ r.1.sFromAddress = anonAddress

structure Receives (it : SecMsgAddress) : Prop where
  enabled : it.fReceiveEnabled = true
  authentic : Authenticates lib host m it
  sender : it.fReceiveAnon = true ∨ NamesSender lib host m it

/-- The message goes no further than an address: decrypting with it does not end with an error
code. -/
def takes (it : SecMsgAddress) : Bool :=
  it.fReceiveEnabled &&
    match decryptWith lib host m it.fReceiveAnon it with
    | .error (.code _) => false
    | _ => true

def firstTaken (smsgAddresses : List SecMsgAddress) : Option SecMsgAddress :=
  smsgAddresses.find? (takes lib host m)

variable {lib host m}

theorem decryptWith_test_of_full {it : SecMsgAddress}
    {r : Option (MessageData × Option (uint160 × List UInt8))}
    (h : decryptWith lib host m false it = .ok r) : Authenticates lib host m it := by
  unfold Authenticates
  unfold decryptWith secureMsgDecrypt at *
  simp only [bind_ok, check_ok, Bool.false_eq_true, ↓reduceIte, pure_ok] at h ⊢
  obtain ⟨hu, hver, keyDest, hdest, keys, hkeys, MAC, hmac, hu', hmatch, -⟩ := h
  exact ⟨hu, hver, keyDest, hdest, keys, hkeys, MAC, hmac, hu', hmatch, trivial⟩

theorem decryptWith_test {it : SecMsgAddress}
    {r : Option (MessageData × Option (uint160 × List UInt8))}
    (h : decryptWith lib host m true it = .ok r) : r = none := by
  unfold decryptWith secureMsgDecrypt at h
  simp only [bind_ok, ↓reduceIte, pure_ok] at h
  obtain ⟨-, -, keyDest, -, keys, -, MAC, -, -, -, h⟩ := h
  exact h.symm

theorem decryptWith_full {it : SecMsgAddress}
    {r : Option (MessageData × Option (uint160 × List UInt8))}
    (h : decryptWith lib host m false it = .ok r) : ∃ msg, r = some msg := by
  unfold decryptWith secureMsgDecrypt at h
  simp only [bind_ok, Bool.false_eq_true, ↓reduceIte, pure_ok] at h
  obtain ⟨-, -, keyDest, -, keys, -, MAC, -, -, -, msg, -, h⟩ := h
  exact ⟨msg, h.symm⟩

/-- An address that takes the message lets it go no further. -/
theorem Receives.takes {it : SecMsgAddress} (h : Receives lib host m it) :
    takes lib host m it = true := by
  obtain ⟨henabled, hauthentic, hsender⟩ := h
  unfold Triangles.takes
  cases hanon : it.fReceiveAnon with
  | true => rw [henabled, hauthentic]; rfl
  | false =>
    rw [hanon] at hsender
    obtain ⟨r, hr, -⟩ := hsender.resolve_left Bool.false_ne_true
    rw [henabled, hr]
    rfl

variable (lib host m) in
def endWith (it : SecMsgAddress) : Except SmsgFailure (Option (List UInt8)) :=
  match decryptWith lib host m it.fReceiveAnon it with
  | .error e => .error e
  | .ok msg =>
    .ok (if it.fReceiveAnon || msg.any (fun r => r.1.sFromAddress != anonAddress) then
      some (it.addressTo lib) else none)

/-- An address that the message passes, and one that it does not. -/
theorem scanAddresses_cons (it : SecMsgAddress) (smsgAddresses : List SecMsgAddress) :
    scanAddresses lib host m (it :: smsgAddresses) =
      if takes lib host m it then endWith lib host m it
      else scanAddresses lib host m smsgAddresses := by
  unfold takes endWith decryptWith
  rw [scanAddresses]
  cases it.fReceiveEnabled with
  | false => rfl
  | true =>
    cases it.fReceiveAnon with
    | false =>
      cases secureMsgDecrypt lib host false (it.addressTo lib) m.header.message m.payload with
      | error e => cases e <;> rfl
      | ok msg => rfl
    | true =>
      cases secureMsgDecrypt lib host true (it.addressTo lib) m.header.message m.payload with
      | error e => cases e <;> rfl
      | ok msg => rfl

/-- The loop is a search for the first address that the message goes no further than. -/
theorem scanAddresses_eq (smsgAddresses : List SecMsgAddress) :
    scanAddresses lib host m smsgAddresses =
      match firstTaken lib host m smsgAddresses with
      | none => .ok none
      | some it => endWith lib host m it := by
  unfold firstTaken
  induction smsgAddresses with
  | nil => rfl
  | cons it smsgAddresses ih =>
    rw [scanAddresses_cons]
    cases htakes : takes lib host m it with
    | true => rw [List.find?_cons_of_pos htakes, if_pos rfl]
    | false => rw [List.find?_cons_of_neg (by simp [htakes]), if_neg Bool.false_ne_true, ih]

/-- An address that asks for a sender does not receive a message from nobody. -/
theorem not_receives_of_anon {it : SecMsgAddress} (hanon : it.fReceiveAnon = false)
    (h : NamesNone lib host m it) : ¬Receives lib host m it := by
  intro hreceives
  obtain ⟨r, hr, hnobody⟩ := h
  rcases hreceives.sender with hyes | ⟨r', hr', hsender⟩
  · rw [hanon] at hyes
    cases hyes
  · rw [hr] at hr'
    cases hr'
    exact hsender hnobody

/-- The message is the node's own, it names no sender where one is asked for, or decrypting fails
without an error code. -/
theorem endWith_cases {it : SecMsgAddress} (h : takes lib host m it = true) :
    (Receives lib host m it ∧ endWith lib host m it = .ok (some (it.addressTo lib))) ∨
      (¬Receives lib host m it ∧ NamesNone lib host m it ∧ it.fReceiveAnon = false ∧
        endWith lib host m it = .ok none) ∨
      (¬Receives lib host m it ∧ ¬NamesNone lib host m it ∧
        ∃ e, endWith lib host m it = .error e) := by
  obtain ⟨henabled, -⟩ := Bool.and_eq_true_iff.mp h
  unfold endWith
  cases hanon : it.fReceiveAnon with
  | true =>
    cases hdec : decryptWith lib host m true it with
    | ok r =>
      obtain rfl := decryptWith_test hdec
      exact .inl ⟨⟨henabled, hdec, .inl hanon⟩, rfl⟩
    | error e =>
      have hnot : ¬Authenticates lib host m it := by
        unfold Authenticates
        rw [hdec]
        nofun
      exact .inr (.inr ⟨fun hreceives => hnot hreceives.authentic,
        fun ⟨r, hr, _⟩ => hnot (decryptWith_test_of_full hr), e, rfl⟩)
  | false =>
    cases hdec : decryptWith lib host m false it with
    | ok r =>
      obtain ⟨msg, rfl⟩ := decryptWith_full hdec
      by_cases hsender : msg.1.sFromAddress = anonAddress
      · exact .inr (.inl ⟨not_receives_of_anon hanon ⟨msg, hdec, hsender⟩,
          ⟨msg, hdec, hsender⟩, rfl, by simp [hsender]⟩)
      · exact .inl ⟨⟨henabled, decryptWith_test_of_full hdec, .inr ⟨msg, hdec, hsender⟩⟩,
          by simp [hsender]⟩
    | error e =>
      refine .inr (.inr ⟨fun hreceives => ?_, fun ⟨r, hr, _⟩ => ?_, e, rfl⟩)
      · rcases hreceives.sender with hyes | ⟨msg, hdec', -⟩
        · rw [hanon] at hyes
          cases hyes
        · rw [hdec] at hdec'
          cases hdec'
      · rw [hdec] at hr
        cases hr

/-- A message that some address receives goes no further than some address. -/
theorem firstTaken_isSome {smsgAddresses : List SecMsgAddress} {it : SecMsgAddress}
    (hmem : it ∈ smsgAddresses) (h : Receives lib host m it) :
    ∃ it', firstTaken lib host m smsgAddresses = some it' := by
  cases hfirst : firstTaken lib host m smsgAddresses with
  | some it' => exact ⟨it', rfl⟩
  | none => exact absurd h.takes (List.find?_eq_none.mp hfirst it hmem)

end Scan

section Delivery

variable (lib : SmsgLib) (host : SmsgHost) (smsgAddresses : List SecMsgAddress) (now : Int)
  (folderId : UInt16) (m : Smsg)

/-- A message that some address of the list receives. -/
def IsOwn : Prop := ∃ it ∈ smsgAddresses, Receives lib host m it

def KeptFor (inbox : SmsgInbox) (it : SecMsgAddress) : SmsgInbox :=
  { inbox with
    db := addSmesg inbox.db (inboxKey m.header m.token.sample)
      (inboxRecord now folderId (it.addressTo lib) m) }

/-- What scanning a message is for: one that is the node's own goes to the inbox, and 0 says so;
any other leaves it alone, and 2 says that it is for no address. -/
structure ScannedRight (inbox : SmsgInbox) (r : Except SmsgFailure (Nat × SmsgInbox)) : Prop where
  own : IsOwn lib host smsgAddresses m → ∃ it ∈ smsgAddresses, Receives lib host m it ∧
    r = .ok (0, KeptFor lib now folderId m inbox it)
  other : ¬IsOwn lib host smsgAddresses m → ∃ code, code ≠ 0 ∧ r = .ok (code, inbox)
  noMatch : (∀ it ∈ smsgAddresses, it.fReceiveEnabled = true → ¬Authenticates lib host m it) →
    r = .ok (2, inbox)

def HasRoom : Prop :=
  host.resizes ((SMSG_HDR_LEN + m.payload.length) % 2 ^ 32) = true ∧
    SMSG_HDR_LEN + m.payload.length < 2 ^ 32

/-- The key of a message is in the inbox. -/
def KnownUnder (sample : List UInt8) (inbox : SmsgInbox) : Prop :=
  inboxKey m.header sample ∈ inbox.db

variable (behind : Nat → UInt8) (inbox : SmsgInbox)

/-- The first address that a message goes no further than receives it, its copy can be made, and
the eight bytes at its payload are its sample. Or nothing has to be done for a message that is the
node's own, as it is in the inbox. -/
def ReachesInbox : Prop :=
  ∃ it, firstTaken lib host m smsgAddresses = some it ∧
    ((Receives lib host m it ∧ HasRoom host m ∧
        (readMemory m.payload behind 0 8 = m.token.sample ∨
          KnownUnder m m.token.sample inbox ∧
            KnownUnder m (readMemory m.payload behind 0 8) inbox)) ∨
      (NamesNone lib host m it ∧ it.fReceiveAnon = false ∧ IsOwn lib host smsgAddresses m ∧
        KnownUnder m m.token.sample inbox))

/-- How the scan ends for a wallet that is not locked. -/
theorem secureMsgScanMessage_cases :
    (¬IsOwn lib host smsgAddresses m ∧ firstTaken lib host m smsgAddresses = none ∧
        secureMsgScanMessage lib host false smsgAddresses now folderId m behind inbox =
          .ok (0, inbox)) ∨
      ∃ it, it ∈ smsgAddresses ∧ firstTaken lib host m smsgAddresses = some it ∧
        ((Receives lib host m it ∧ HasRoom host m ∧
            secureMsgScanMessage lib host false smsgAddresses now folderId m behind inbox =
              .ok (0, { inbox with
                db := addSmesg inbox.db (inboxKey m.header (readMemory m.payload behind 0 8))
                  (inboxRecord now folderId (it.addressTo lib) m) })) ∨
          (Receives lib host m it ∧ ¬HasRoom host m ∧
            ∀ inbox', secureMsgScanMessage lib host false smsgAddresses now folderId m behind
              inbox ≠ .ok (0, inbox')) ∨
          (¬Receives lib host m it ∧ NamesNone lib host m it ∧ it.fReceiveAnon = false ∧
            secureMsgScanMessage lib host false smsgAddresses now folderId m behind inbox =
              .ok (0, inbox)) ∨
          (¬Receives lib host m it ∧ ¬NamesNone lib host m it ∧
            ∃ e, secureMsgScanMessage lib host false smsgAddresses now folderId m behind inbox =
              .error e)) := by
  unfold secureMsgScanMessage
  simp only [Bool.false_eq_true, if_false, scanAddresses_eq]
  cases hfirst : firstTaken lib host m smsgAddresses with
  | none =>
    refine .inl ⟨fun ⟨it, hmem, h⟩ => ?_, rfl, rfl⟩
    obtain ⟨it', hit'⟩ := firstTaken_isSome hmem h
    rw [hfirst] at hit'
    cases hit'
  | some it =>
    refine .inr ⟨it, List.mem_of_find?_eq_some hfirst, rfl, ?_⟩
    rcases endWith_cases (List.find?_some hfirst) with
      ⟨hreceives, hend⟩ | ⟨hnot, hnone, hanon, hend⟩ | ⟨hnot, hnone, e, hend⟩
    · by_cases hroom : HasRoom host m
      · refine .inl ⟨hreceives, hroom, ?_⟩
        simp only [hend, hroom.1, hroom.2, check, bind, Except.bind, decide_true, Bool.not_true,
          Bool.false_eq_true, ↓reduceIte]
        rfl
      · refine .inr (.inl ⟨hreceives, hroom, fun inbox' h => hroom ?_⟩)
        simp only [hend, bind_ok, Except.ok.injEq, exists_eq_left'] at h
        split at h
        · simp [pure_ok] at h
        · rename_i hresizes
          obtain ⟨hlt, -⟩ := check_bind.mp h
          exact ⟨by simpa using hresizes, of_decide_eq_true hlt⟩
    · exact .inr (.inr (.inl ⟨hnot, hnone, hanon, by simp only [hend]; rfl⟩))
    · exact .inr (.inr (.inr ⟨hnot, hnone, e, by simp only [hend]; rfl⟩))

variable {lib host smsgAddresses now folderId m behind inbox}

theorem ScannedRight.of_own {r : Except SmsgFailure (Nat × SmsgInbox)}
    (hown : IsOwn lib host smsgAddresses m)
    (h : ∃ it ∈ smsgAddresses, Receives lib host m it ∧
      r = .ok (0, KeptFor lib now folderId m inbox it)) :
    ScannedRight lib host smsgAddresses now folderId m inbox r where
  own _ := h
  other hnot := absurd hown hnot
  noMatch hnone := by
    obtain ⟨it, hmem, hreceives⟩ := hown
    exact absurd hreceives.authentic (hnone it hmem hreceives.enabled)

/-- A scan that returns 0 is right only for a message that is the node's own, and which it keeps. -/
theorem ScannedRight.zero {inbox' : SmsgInbox}
    (h : ScannedRight lib host smsgAddresses now folderId m inbox (.ok (0, inbox'))) :
    IsOwn lib host smsgAddresses m ∧ ∃ it, inbox' = KeptFor lib now folderId m inbox it := by
  by_cases hown : IsOwn lib host smsgAddresses m
  · obtain ⟨it, -, -, heq⟩ := h.own hown
    cases heq
    exact ⟨hown, it, rfl⟩
  · obtain ⟨code, hcode, heq⟩ := h.other hown
    cases heq
    exact absurd rfl hcode

theorem keptFor_known (h : KnownUnder m m.token.sample inbox) (it : SecMsgAddress) :
    KeptFor lib now folderId m inbox it = inbox := by
  unfold KeptFor
  rw [addSmesg_known h]

/-- The scan keeps a message right exactly when its first bytes are its sample, or nothing has to be
added under either key. -/
theorem kept_iff {it : SecMsgAddress} (hmem : it ∈ smsgAddresses)
    (hreceives : Receives lib host m it) :
    ScannedRight lib host smsgAddresses now folderId m inbox
        (.ok (0, { inbox with
          db := addSmesg inbox.db (inboxKey m.header (readMemory m.payload behind 0 8))
            (inboxRecord now folderId (it.addressTo lib) m) })) ↔
      (readMemory m.payload behind 0 8 = m.token.sample ∨
        KnownUnder m m.token.sample inbox ∧ KnownUnder m (readMemory m.payload behind 0 8) inbox) := by
  constructor
  · intro h
    obtain ⟨-, it', heq⟩ := h.zero
    by_cases hsample : readMemory m.payload behind 0 8 = m.token.sample
    · exact .inl hsample
    · obtain ⟨hread, hknown⟩ := addSmesg_eq_of_ne (fun hkey => hsample (inboxKey_inj hkey))
        (congrArg SmsgInbox.db heq)
      exact .inr ⟨hknown, hread⟩
  · intro h
    refine .of_own ⟨it, hmem, hreceives⟩ ⟨it, hmem, hreceives, ?_⟩
    rcases h with hsample | ⟨hknown, hread⟩
    · rw [hsample]
      rfl
    · rw [addSmesg_known hread, keptFor_known hknown]

variable (lib host smsgAddresses now folderId m behind inbox) in
/-- A message is delivered, and the code says so, exactly when it reaches the inbox. -/
theorem scan_delivers_iff :
    ScannedRight lib host smsgAddresses now folderId m inbox
        (secureMsgScanMessage lib host false smsgAddresses now folderId m behind inbox) ↔
      ReachesInbox lib host smsgAddresses m behind inbox := by
  unfold ReachesInbox
  rcases secureMsgScanMessage_cases lib host smsgAddresses now folderId m behind inbox with
    ⟨hother, hfirst, hscan⟩ | ⟨it, hmem, hfirst, hends⟩
  · -- the message passes every address
    rw [hscan, hfirst]
    constructor
    · exact fun h => absurd h.zero.1 hother
    · rintro ⟨it, hit, -⟩
      cases hit
  · simp only [hfirst, Option.some.injEq, exists_eq_left']
    rcases hends with ⟨hreceives, hroom, hscan⟩ | ⟨hreceives, hroom, hscan⟩ |
      ⟨hnot, hnone, hanon, hscan⟩ | ⟨hnot, hnone, e, hscan⟩
    · rw [hscan, kept_iff hmem hreceives]
      constructor
      · exact fun h => .inl ⟨hreceives, hroom, h⟩
      · rintro (⟨-, -, h⟩ | ⟨hnone, hanon, -⟩)
        · exact h
        · exact absurd hreceives (not_receives_of_anon hanon hnone)
    · constructor
      · intro h
        obtain ⟨it', -, -, heq⟩ := h.own ⟨it, hmem, hreceives⟩
        exact absurd heq (hscan _)
      · rintro (⟨-, h, -⟩ | ⟨hnone, hanon, -⟩)
        · exact absurd h hroom
        · exact absurd hreceives (not_receives_of_anon hanon hnone)
    · -- the loop ends at a message from nobody, though a later address may receive it
      rw [hscan]
      constructor
      · intro h
        obtain ⟨hown, it', heq⟩ := h.zero
        exact .inr ⟨hnone, hanon, hown, addSmesg_eq_self.mp (congrArg SmsgInbox.db heq).symm⟩
      · rintro (⟨h, -⟩ | ⟨-, -, ⟨it', hmem', hreceives'⟩, hknown⟩)
        · exact absurd h hnot
        · exact .of_own ⟨it', hmem', hreceives'⟩
            ⟨it', hmem', hreceives', by rw [keptFor_known hknown]⟩
    · rw [hscan]
      constructor
      · intro h
        by_cases hown : IsOwn lib host smsgAddresses m
        · obtain ⟨it', -, -, heq⟩ := h.own hown
          cases heq
        · obtain ⟨code, -, heq⟩ := h.other hown
          cases heq
      · rintro (⟨h, -⟩ | ⟨h, -⟩)
        · exact absurd h hnot
        · exact absurd h hnone

end Delivery

namespace Sample

def hiHeader : SmsgHeader where
  bytes := List.replicate 4 0 ++ [1, 1, 0] ++ List.replicate 8 0 ++ List.replicate 16 0 ++
    keyBytes true 3 ++ hiMac ++ List.replicate 4 0 ++ [16, 0, 0, 0]
  length := by decide

def hiSmsg : Smsg := ⟨hiHeader, hiPayload, by decide⟩

/-- Address 5 twice in the list: first without anonymous messages, then with. -/
def fiveTwice : List SecMsgAddress :=
  [⟨addressOfFive, true, false⟩, ⟨addressOfFive, true, true⟩]

theorem hiSmsg_not_kept : scanAddresses smsgLib smsgHost hiSmsg fiveTwice = .ok none := by
  decide

theorem hiSmsg_authentic :
    Authenticates smsgLib smsgHost hiSmsg ⟨addressOfFive, true, true⟩ := by
  unfold Authenticates
  decide

end Sample

/-- A message for nobody gives 0, and a message that the second entry of an address receives stays
out of the inbox because of the first. -/
theorem scan_misses_second_entry :
    ¬ScannedRight Sample.smsgLib Sample.smsgHost [] 0 0 Sample.hiSmsg {}
        (secureMsgScanMessage Sample.smsgLib Sample.smsgHost false [] 0 0 Sample.hiSmsg
          (fun _ => 0) {}) ∧
      IsOwn Sample.smsgLib Sample.smsgHost Sample.fiveTwice Sample.hiSmsg ∧
      ¬ScannedRight Sample.smsgLib Sample.smsgHost Sample.fiveTwice 0 0 Sample.hiSmsg {}
        (secureMsgScanMessage Sample.smsgLib Sample.smsgHost false Sample.fiveTwice 0 0
          Sample.hiSmsg (fun _ => 0) {}) := by
  refine ⟨fun h => ?_, ?_, fun h => ?_⟩
  · have hzero : secureMsgScanMessage Sample.smsgLib Sample.smsgHost false [] 0 0 Sample.hiSmsg
        (fun _ => 0) {} = .ok (0, {}) := rfl
    rw [hzero] at h
    obtain ⟨it, hmem, -⟩ := h.zero.1
    cases hmem
  · exact ⟨⟨Sample.addressOfFive, true, true⟩, List.mem_cons_of_mem _ List.mem_cons_self, rfl,
      Sample.hiSmsg_authentic, .inl rfl⟩
  · have hzero : secureMsgScanMessage Sample.smsgLib Sample.smsgHost false Sample.fiveTwice 0 0
        Sample.hiSmsg (fun _ => 0) {} = .ok (0, {}) := by
      simp only [secureMsgScanMessage, Bool.false_eq_true, if_false, Sample.hiSmsg_not_kept]
      rfl
    rw [hzero] at h
    obtain ⟨-, it, heq⟩ := h.zero
    have hdb : addSmesg ∅ _ _ = ∅ := (congrArg SmsgInbox.db heq).symm
    have hmem := addSmesg_eq_self.mp hdb
    simp at hmem

end Triangles
