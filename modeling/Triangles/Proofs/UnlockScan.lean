import Triangles.Lib.Slots
import Triangles.Model.SmsgInbox
import Triangles.Proofs.Inbox
import Triangles.Proofs.MessageFile

/-! What becomes of the messages of a locked wallet's file, wherever the wallet is locked again while
the file is scanned. -/

namespace Triangles

open Std (ExtTreeMap)
open Slots
open Outcome

/-- A file as `SecureMsgStoreUnscanned` leaves it: whole messages of its bucket. -/
structure WellFormedWl (fileTime : Int) (file : List UInt8) (ms : List Smsg) : Prop where
  bytes : file = ms.flatMap Smsg.bytes
  bucket : ∀ m ∈ ms, bucketOf m.header.timestamp = fileTime

/-- The time of a message is one that `SecureMsgStoreUnscanned` does not take. -/
def Refused (now : Int) (m : Smsg) : Prop :=
  now + SMSG_TIME_LEEWAY < m.header.timestamp ∨ m.header.timestamp < now - SMSG_RETENTION

instance (now : Int) (m : Smsg) : Decidable (Refused now m) :=
  inferInstanceAs (Decidable (_ ∨ _))

/-- A record of the inbox holds the message. -/
def InInbox (m : Smsg) (inbox : SmsgInbox) : Prop :=
  ∃ (chKey : List UInt8) (stored : SecMsgStored), inbox.db[chKey]? = some stored ∧
    stored.vchMessage = m.bytes

/-- A file of a locked wallet holds the message. -/
def InWlFile (m : Smsg) (inbox : SmsgInbox) : Prop :=
  ∃ (fileTime : Int) (file : List UInt8), inbox.wl[fileTime]? = some file ∧
    m ∈ scanFile file file.length 0

section Scan

variable {lib : SmsgLib} {host : SmsgHost} {smsgAddresses : List SecMsgAddress} {now : Int}
  {folderId : UInt16} {behind : Nat → UInt8} {m : Smsg} {inbox : SmsgInbox}

variable (lib host smsgAddresses folderId behind) in
theorem scan_locked_refused (h : Refused now m) :
    secureMsgScanMessage lib host true smsgAddresses now folderId m behind inbox =
      .ok (1, inbox) := by
  simp only [secureMsgScanMessage, if_true, secureMsgStoreUnscanned]
  rcases h with hnew | hold
  · rw [if_pos hnew]
  · by_cases hnew : now + SMSG_TIME_LEEWAY < m.header.timestamp
    · rw [if_pos hnew]
    · rw [if_neg hnew, if_pos hold]

variable (lib host smsgAddresses folderId behind inbox) in
/-- A locked wallet adds a message to the file of its bucket. -/
theorem scan_locked_taken (h : ¬Refused now m) :
    secureMsgScanMessage lib host true smsgAddresses now folderId m behind inbox =
      .ok (3, { inbox with
        wl := inbox.wl.insert (bucketOf m.header.timestamp)
          ((inbox.wl[bucketOf m.header.timestamp]?).getD [] ++ m.bytes) }) := by
  obtain ⟨hnew, hold⟩ := not_or.mp h
  simp only [secureMsgScanMessage, if_true, secureMsgStoreUnscanned, if_neg hnew, if_neg hold]

/-- What is in the inbox stays there. -/
theorem InInbox.add {m' : Smsg} (h : InInbox m' inbox) (chKey : List UInt8)
    (stored : SecMsgStored) :
    InInbox m' { inbox with db := addSmesg inbox.db chKey stored } := by
  obtain ⟨k, stored', hk, hbytes⟩ := h
  refine ⟨k, stored', ?_, hbytes⟩
  unfold addSmesg
  split
  · exact hk
  · rename_i hnew
    have hne : chKey ≠ k := by
      rintro rfl
      rw [← ExtTreeMap.mem_iff_contains, ExtTreeMap.mem_iff_isSome_getElem?, hk] at hnew
      exact hnew rfl
    simpa [getElem?_insert_eq, hne] using hk

/-- A message is in the inbox once it is added, unless another one has its key. -/
theorem inInbox_add {chKey : List UInt8} {stored : SecMsgStored}
    (hbytes : stored.vchMessage = m.bytes)
    (hfree : ∀ other, inbox.db[chKey]? = some other → other.vchMessage = m.bytes) :
    InInbox m { inbox with db := addSmesg inbox.db chKey stored } := by
  unfold addSmesg
  split
  · rename_i hknown
    obtain ⟨other, hother⟩ := Option.isSome_iff_exists.mp
      (ExtTreeMap.mem_iff_isSome_getElem?.mp (ExtTreeMap.mem_iff_contains.mpr hknown))
    exact ⟨chKey, other, hother, hfree other hother⟩
  · exact ⟨chKey, stored, ExtTreeMap.getElem?_insert_self, hbytes⟩

end Scan

section Rounds

variable (lib : SmsgLib) (host : SmsgHost) (smsgAddresses : List SecMsgAddress)
  (folderId : UInt16) (behind : Nat → UInt8)

/-- A scan by the unlocked wallet that does its work: no address takes the message; or the first
that does receives it, there is room for the copy, and no other message has the key; or that address
asks for a sender where the message names none, and nobody else wants it. -/
def Delivers (m : Smsg) (inbox : SmsgInbox) : Prop :=
  firstTaken lib host m smsgAddresses = none ∨
    ∃ it, firstTaken lib host m smsgAddresses = some it ∧
      ((Receives lib host m it ∧ HasRoom host m ∧
          ∀ other, inbox.db[inboxKey m.header (readMemory m.payload behind 0 8)]? = some other →
            other.vchMessage = m.bytes) ∨
        (NamesNone lib host m it ∧ it.fReceiveAnon = false ∧
          (IsOwn lib host smsgAddresses m → InInbox m inbox)))

/-- What makes the scan of a message harmless: the wallet is unlocked and the scan does its work; or
it is locked, but does not store a message of this time again, and does not need to. -/
def ScanKeeps (s : WlScan) (m : Smsg) : Prop :=
  host.resizes m.header.nPayload = true ∧
    if s.fLocked then Refused s.now m ∧ (IsOwn lib host smsgAddresses m → InInbox m s.inbox)
    else Delivers lib host smsgAddresses behind m s.inbox

/-- The messages of the file that were read, and those that were not. -/
structure Scanning (done rest : List Smsg) (s : WlScan) : Prop where
  file : s.inbox.wl[s.fileTime]? = some ((done ++ rest).flatMap Smsg.bytes)
  offset : s.offset = (done.flatMap Smsg.bytes).length
  count : s.count.nMessages = done.length
  running : s.ended = none

variable {lib host smsgAddresses folderId behind} {done rest : List Smsg} {s : WlScan} {m : Smsg}

/-- The lock and the time are not part of where the loop is. -/
theorem Scanning.meanwhile (h : Scanning done rest s) (fLocked : Bool) (now : Int) :
    Scanning done rest { s with fLocked, now } :=
  ⟨h.file, h.offset, h.count, h.running⟩

theorem Scanning.file_eq (h : Scanning done rest s) :
    s.file = done.flatMap Smsg.bytes ++ rest.flatMap Smsg.bytes := by
  rw [WlScan.file, h.file, Option.getD_some, List.flatMap_append]

theorem Scanning.reads (h : Scanning done (m :: rest) s) : readFile s.file s.offset = some m := by
  rw [h.file_eq, h.offset, List.flatMap_cons, readFile_append]

/-- At the end nothing is read. -/
theorem Scanning.reads_end (h : Scanning done [] s) :
    slice s.file s.offset SMSG_HDR_LEN = [] := by
  rw [h.file_eq, h.offset, List.flatMap_nil, List.append_nil, slice, List.drop_length, List.take_nil]

theorem Scanning.reads_none (h : Scanning done [] s) : readFile s.file s.offset = none := by
  unfold readFile
  rw [dif_neg]
  rw [h.reads_end]
  decide

theorem Scanning.next_end (h : Scanning done [] s) :
    s.next lib host smsgAddresses folderId behind = s.remove := by
  rw [WlScan.next, h.running, if_neg (by decide), dif_neg]
  rw [h.reads_end]
  decide

theorem Scanning.next_eq (h : Scanning done (m :: rest) s)
    (hroom : host.resizes m.header.nPayload = true) {rv : Nat} {inbox : SmsgInbox}
    (hscan : secureMsgScanMessage lib host s.fLocked smsgAddresses s.now folderId m behind s.inbox =
      .ok (rv, inbox)) :
    s.next lib host smsgAddresses folderId behind = s.advance m rv inbox := by
  have hheader : slice s.file s.offset SMSG_HDR_LEN = m.header.bytes := by
    rw [h.file_eq, h.offset, List.flatMap_cons, slice_header]
  have hlen : (slice s.file s.offset SMSG_HDR_LEN).length = SMSG_HDR_LEN := by
    rw [hheader, m.header.length]
  have hpayload : host.resizes (SmsgHeader.nPayload ⟨_, hlen⟩) = true := by
    simpa only [SmsgHeader.nPayload, hheader] using hroom
  rw [WlScan.next, h.running, if_neg (by decide), dif_pos hlen]
  simp only [hpayload, Bool.not_true, Bool.false_eq_true, if_false, h.reads, hscan]

/-- The message was read, and some may have been added to the file. -/
theorem Scanning.advance (h : Scanning done (m :: rest) s) (inbox : SmsgInbox) (added : List Smsg)
    (hwl : inbox.wl[s.fileTime]? = some ((done ++ m :: rest ++ added).flatMap Smsg.bytes))
    (rv : Nat) : Scanning (done ++ [m]) (rest ++ added) (s.advance m rv inbox) where
  file := by
    rw [show done ++ [m] ++ (rest ++ added) = done ++ m :: rest ++ added by simp]
    exact hwl
  offset := by
    rw [WlScan.advance, h.offset]
    simp
  count := by
    rw [WlScan.advance, h.count]
    simp
  running := h.running

/-- An unlocked wallet keeps its own messages, and leaves the files alone. -/
theorem scan_delivers {now : Int} {inbox : SmsgInbox}
    (h : Delivers lib host smsgAddresses behind m inbox) :
    ∃ inbox', secureMsgScanMessage lib host false smsgAddresses now folderId m behind inbox =
        .ok (0, inbox') ∧ inbox'.wl = inbox.wl ∧
      (∀ m', InInbox m' inbox → InInbox m' inbox') ∧
      (IsOwn lib host smsgAddresses m → InInbox m inbox') := by
  rcases secureMsgScanMessage_cases lib host smsgAddresses now folderId m behind inbox with
    ⟨hother, -, hscan⟩ | ⟨it, -, hfirst, hends⟩
  · exact ⟨inbox, hscan, rfl, fun _ h => h, fun hown => absurd hown hother⟩
  · rcases h with hnone | ⟨it', hit', hdelivers⟩
    · rw [hfirst] at hnone
      cases hnone
    · rw [hfirst] at hit'
      cases hit'
      rcases hends with ⟨hreceives, hroom, hscan⟩ | ⟨hreceives, hroom, -⟩ |
        ⟨hnot, hnobody, hanon, hscan⟩ | ⟨hnot, hnobody, -⟩
      · refine ⟨_, hscan, rfl, fun _ h => h.add _ _, fun _ => ?_⟩
        rcases hdelivers with ⟨-, -, hfree⟩ | ⟨hnobody, hanon, -⟩
        · exact inInbox_add rfl hfree
        · exact absurd hreceives (not_receives_of_anon hanon hnobody)
      · rcases hdelivers with ⟨-, h, -⟩ | ⟨hnobody, hanon, -⟩
        · exact absurd h hroom
        · exact absurd hreceives (not_receives_of_anon hanon hnobody)
      · refine ⟨inbox, hscan, rfl, fun _ h => h, fun hown => ?_⟩
        rcases hdelivers with ⟨h, -⟩ | ⟨-, -, hknown⟩
        · exact absurd h hnot
        · exact hknown hown
      · rcases hdelivers with ⟨h, -⟩ | ⟨h, -⟩
        · exact absurd h hnot
        · exact absurd h hnobody

variable (folderId) in
/-- A harmless scan leaves the files alone, and the wallet's own messages in the inbox. -/
theorem scan_keeps (h : ScanKeeps lib host smsgAddresses behind s m) :
    ∃ rv inbox, secureMsgScanMessage lib host s.fLocked smsgAddresses s.now folderId m behind
        s.inbox = .ok (rv, inbox) ∧ inbox.wl = s.inbox.wl ∧
      (∀ m', InInbox m' s.inbox → InInbox m' inbox) ∧
      (IsOwn lib host smsgAddresses m → InInbox m inbox) := by
  obtain ⟨-, h⟩ := h
  cases hlocked : s.fLocked with
  | true =>
    rw [hlocked, if_pos rfl] at h
    exact ⟨1, s.inbox, scan_locked_refused _ _ _ _ _ h.1, rfl, fun _ h => h, h.2⟩
  | false =>
    rw [hlocked, if_neg Bool.false_ne_true] at h
    obtain ⟨inbox, hscan⟩ := scan_delivers h
    exact ⟨0, inbox, hscan⟩

end Rounds

section Runs

variable (lib : SmsgLib) (host : SmsgHost) (smsgAddresses : List SecMsgAddress)
  (folderId : UInt16) (behind : Nat → UInt8)

/-- Every scan of a run meets a condition on the state before it and the message that is read. -/
def EachScan (P : WlScan → Smsg → Prop) : WlScan → List WlEvent → Prop
  | _, [] => True
  | s, e :: events =>
    (e = .next → s.ended = none → ∀ m, readFile s.file s.offset = some m → P s m) ∧
      EachScan P (e.step lib host smsgAddresses folderId behind s) events

/-- The wallet's own messages are in the inbox. -/
def KeptOwn (ms : List Smsg) (inbox : SmsgInbox) : Prop :=
  ∀ m ∈ ms, IsOwn lib host smsgAddresses m → InInbox m inbox

/-- Where the loop is after so many rounds: in the file, or behind its end. -/
structure ScanAfter (done rest : List Smsg) (rounds : Nat) (s : WlScan) : Prop where
  within : rounds ≤ rest.length →
    Scanning (done ++ rest.take rounds) (rest.drop rounds) s ∧
      KeptOwn lib host smsgAddresses (done ++ rest.take rounds) s.inbox
  left : rest.length < rounds →
    s.ended = some .scanned ∧ s.count.nMessages = (done ++ rest).length ∧
      KeptOwn lib host smsgAddresses (done ++ rest) s.inbox

variable {lib host smsgAddresses folderId behind} {done rest : List Smsg} {s : WlScan} {m : Smsg}

variable (folderId) in
/-- A harmless scan takes the loop one message further. -/
theorem Scanning.next_keeps (h : Scanning done (m :: rest) s)
    (hkept : KeptOwn lib host smsgAddresses done s.inbox)
    (hscan : ScanKeeps lib host smsgAddresses behind s m) :
    Scanning (done ++ [m]) rest (s.next lib host smsgAddresses folderId behind) ∧
      KeptOwn lib host smsgAddresses (done ++ [m])
        (s.next lib host smsgAddresses folderId behind).inbox := by
  obtain ⟨rv, inbox, heq, hwl, hmono, hown⟩ := scan_keeps folderId hscan
  have hfile : inbox.wl[s.fileTime]? =
      some ((done ++ m :: rest ++ []).flatMap Smsg.bytes) := by
    rw [hwl, List.append_nil, h.file]
  rw [h.next_eq hscan.1 heq]
  refine ⟨by simpa using h.advance inbox [] hfile rv, fun m' hm' => ?_⟩
  rcases List.mem_append.mp hm' with hm' | hm'
  · exact fun hown' => hmono m' (hkept m' hm' hown')
  · obtain rfl := List.mem_singleton.mp hm'
    exact hown

/-- An event that is no round of the loop changes the lock or the time. -/
theorem WlEvent.step_idle {e : WlEvent} (he : e ≠ .next) (s : WlScan) :
    ∃ fLocked now, e.step lib host smsgAddresses folderId behind s = { s with fLocked, now } := by
  cases e with
  | lock => exact ⟨true, s.now, rfl⟩
  | unlock => exact ⟨false, s.now, rfl⟩
  | time now => exact ⟨s.fLocked, now, rfl⟩
  | next => exact absurd rfl he

theorem WlEvent.step_ended {end' : WlEnd} (h : s.ended = some end') (e : WlEvent) :
    (e.step lib host smsgAddresses folderId behind s).ended = some end' ∧
      (e.step lib host smsgAddresses folderId behind s).count = s.count ∧
      (e.step lib host smsgAddresses folderId behind s).inbox = s.inbox := by
  by_cases he : e = .next
  · subst he
    rw [WlEvent.step, WlScan.next, h, if_pos (by rfl)]
    exact ⟨h, rfl, rfl⟩
  · obtain ⟨fLocked, now, heq⟩ := WlEvent.step_idle he s
    rw [heq]
    exact ⟨h, rfl, rfl⟩

variable (lib host smsgAddresses folderId behind) in
theorem run_ended {end' : WlEnd} (h : s.ended = some end') (events : List WlEvent) :
    (WlEvent.run lib host smsgAddresses folderId behind s events).ended = some end' ∧
      (WlEvent.run lib host smsgAddresses folderId behind s events).count = s.count ∧
      (WlEvent.run lib host smsgAddresses folderId behind s events).inbox = s.inbox := by
  induction events generalizing s with
  | nil => exact ⟨h, rfl, rfl⟩
  | cons e events ih =>
    obtain ⟨hended, hcount, hinbox⟩ := WlEvent.step_ended h e
    rw [← hcount, ← hinbox]
    exact ih hended

/-- At the end of the file the next round leaves the loop. -/
theorem run_at_end (h : Scanning done [] s)
    (hkept : KeptOwn lib host smsgAddresses done s.inbox) (events : List WlEvent) (rounds : Nat) :
    ScanAfter lib host smsgAddresses done [] (rounds + 1)
      (WlEvent.run lib host smsgAddresses folderId behind s (.next :: events)) := by
  have hend : WlEvent.next.step lib host smsgAddresses folderId behind s = s.remove := h.next_end
  obtain ⟨hended, hcount, hinbox⟩ :=
    run_ended lib host smsgAddresses folderId behind (s := s.remove) rfl events
  rw [WlEvent.run, List.foldl_cons, hend]
  refine ⟨fun hle => absurd hle (Nat.not_succ_le_zero _), fun _ => ⟨hended, ?_, ?_⟩⟩
  · rw [List.append_nil, ← h.count]
    exact congrArg ScanCount.nMessages hcount
  · rw [List.append_nil]
    intro m hm hown
    have hkeeps : InInbox m s.remove.inbox := hkept m hm hown
    rw [← hinbox] at hkeeps
    exact hkeeps

/-- The loop through a run of harmless scans. The induction is on the events: a round takes a message
from the rest, any other event leaves the loop where it is. -/
theorem run_scanAfter (h : Scanning done rest s)
    (hkept : KeptOwn lib host smsgAddresses done s.inbox) (events : List WlEvent)
    (hscans : EachScan lib host smsgAddresses folderId behind
      (ScanKeeps lib host smsgAddresses behind) s events) :
    ScanAfter lib host smsgAddresses done rest (events.count .next)
      (WlEvent.run lib host smsgAddresses folderId behind s events) := by
  induction events generalizing s done rest with
  | nil =>
    refine ⟨fun _ => ?_, fun hlt => absurd hlt (Nat.not_lt_zero _)⟩
    simpa [WlEvent.run] using And.intro h hkept
  | cons e events ih =>
    obtain ⟨hfirst, hrest⟩ := hscans
    by_cases he : e = .next
    · subst he
      rw [List.count_cons_self]
      cases rest with
      | nil => exact run_at_end h hkept events _
      | cons m rest =>
        obtain ⟨hnext, hkept'⟩ := h.next_keeps folderId hkept (hfirst rfl h.running m h.reads)
        obtain ⟨hwithin, hleft⟩ := ih hnext hkept' hrest
        simp only [List.append_assoc, List.singleton_append] at hwithin hleft
        exact ⟨fun hle => hwithin (Nat.le_of_succ_le_succ hle),
          fun hlt => hleft (Nat.lt_of_succ_lt_succ hlt)⟩
    · obtain ⟨fLocked, now, heq⟩ := WlEvent.step_idle he s
      rw [List.count_cons_of_ne he, WlEvent.run, List.foldl_cons]
      rw [heq] at hrest ⊢
      exact ih (h.meanwhile fLocked now) hkept hrest

theorem Scanning.inWlFile (h : Scanning done rest s) (hm : m ∈ done ++ rest) :
    InWlFile m s.inbox := by
  have hall := scanFile_all [] (done ++ rest) (length_le_flatMap (done ++ rest))
  rw [List.nil_append, List.length_nil] at hall
  exact ⟨s.fileTime, _, h.file, by rwa [hall]⟩

/-- The file is opened at its first message. -/
theorem openWl_scanning {fSecMsgEnabled fLocked : Bool} {now fileTime : Int} {inbox : SmsgInbox}
    {file : List UInt8} {ms : List Smsg}
    (hopen : openWl fSecMsgEnabled fLocked now fileTime inbox = some s)
    (hfile : inbox.wl[fileTime]? = some file) (hwell : WellFormedWl fileTime file ms) :
    Scanning [] ms s ∧ s.fileTime = fileTime ∧ s.fLocked = false ∧ s.now = now := by
  unfold openWl at hopen
  split at hopen
  · cases hopen
  · split at hopen
    · cases hopen
    · rename_i hunlocked
      split at hopen
      · cases hopen
      · split at hopen
        · cases hopen
          refine ⟨⟨?_, rfl, rfl, rfl⟩, rfl, by simpa using hunlocked, rfl⟩
          rw [hfile, hwell.bytes, List.nil_append]
        · cases hopen

variable (lib smsgAddresses folderId behind) in
/-- A locked wallet adds every message that it reads to the file again, so that the loop goes on. -/
theorem locked_scan_goes_on (h : Scanning done (m :: rest) s) (hlocked : s.fLocked = true)
    (htaken : ∀ m' ∈ m :: rest, bucketOf m'.header.timestamp = s.fileTime ∧ ¬Refused s.now m' ∧
      host.resizes m'.header.nPayload = true) (n : Nat) :
    (WlEvent.run lib host smsgAddresses folderId behind s (List.replicate n .next)).ended = none ∧
      (WlEvent.run lib host smsgAddresses folderId behind s
        (List.replicate n .next)).count.nMessages = done.length + n := by
  induction n generalizing s done m rest with
  | zero => exact ⟨h.running, h.count⟩
  | succ n ih =>
    obtain ⟨hbucket, hnow, hroom⟩ := htaken m List.mem_cons_self
    have hscan := scan_locked_taken lib host smsgAddresses folderId behind s.inbox hnow
    rw [← hlocked] at hscan
    have hadded := h.advance { s.inbox with
        wl := s.inbox.wl.insert (bucketOf m.header.timestamp)
          ((s.inbox.wl[bucketOf m.header.timestamp]?).getD [] ++ m.bytes) } [m]
      (by simp [hbucket, h.file]) 3
    obtain ⟨m', rest', hrest⟩ : ∃ m' rest', rest ++ [m] = m' :: rest' :=
      List.exists_cons_of_ne_nil (by simp)
    rw [hrest] at hadded
    have hon := ih hadded hlocked fun m'' hm'' => by
      rw [← hrest] at hm''
      exact htaken m'' (by simpa [or_comm] using hm'')
    have hround : WlEvent.next.step lib host smsgAddresses folderId behind s = s.advance m 3 _ :=
      h.next_eq hroom hscan
    rw [WlEvent.run, List.replicate_succ, List.foldl_cons, hround]
    rw [List.length_append, List.length_singleton, Nat.add_assoc, Nat.add_comm 1 n] at hon
    exact hon

end Runs

namespace Sample

def heldInbox : SmsgInbox where
  wl := (∅ : ExtTreeMap Int (List UInt8) compare).insert 0 hiSmsg.bytes

def fiveOnce : List SecMsgAddress := [⟨addressOfFive, true, true⟩]

def heldScan : WlScan where
  inbox := heldInbox
  fLocked := false
  now := 0
  fileTime := 0

theorem heldScan_open : openWl true false 0 0 heldInbox = some heldScan := by
  simp [openWl, heldInbox, heldScan, SMSG_RETENTION]

theorem heldInbox_file : heldInbox.wl[(0 : Int)]? = some hiSmsg.bytes :=
  ExtTreeMap.getElem?_insert_self

theorem hiSmsg_wellFormed : WellFormedWl 0 hiSmsg.bytes [hiSmsg] where
  bytes := by simp
  bucket := by decide

theorem hiSmsg_taken : ∀ m ∈ [hiSmsg], bucketOf m.header.timestamp = 0 ∧ ¬Refused 0 m ∧
    smsgHost.resizes m.header.nPayload = true := by decide

theorem heldScan_scanning : Scanning [] [hiSmsg] heldScan :=
  (openWl_scanning heldScan_open heldInbox_file hiSmsg_wellFormed).1

theorem fiveOnce_receives :
    Receives smsgLib smsgHost hiSmsg ⟨addressOfFive, true, true⟩ :=
  ⟨rfl, hiSmsg_authentic, .inl rfl⟩

theorem heldScan_keeps :
    ScanKeeps smsgLib smsgHost fiveOnce (fun _ => 0) heldScan hiSmsg := by
  refine ⟨by decide, .inr ⟨⟨addressOfFive, true, true⟩, ?_, .inl ⟨fiveOnce_receives, ?_, ?_⟩⟩⟩
  · exact List.find?_cons_of_pos fiveOnce_receives.takes
  · exact ⟨by decide, by decide⟩
  · simp [heldScan, heldInbox]

/-- The only message is scanned before the wallet is locked. -/
theorem heldScan_scans :
    EachScan smsgLib smsgHost fiveOnce 0 (fun _ => 0)
      (ScanKeeps smsgLib smsgHost fiveOnce fun _ => 0) heldScan [.next, .lock, .next] := by
  obtain ⟨hnext, -⟩ := heldScan_scanning.next_keeps 0
    (fun m hm => absurd hm List.not_mem_nil) heldScan_keeps
  refine ⟨fun _ _ m hm => ?_, fun h => (by cases h), fun _ _ m hm => ?_, trivial⟩
  · rw [heldScan_scanning.reads] at hm
    cases hm
    exact heldScan_keeps
  · cases (hnext.meanwhile true _).reads_none.symm.trans hm

end Sample

end Triangles
