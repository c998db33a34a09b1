import Triangles.Lib.Slots
import Triangles.Model.NetMessage
import Triangles.Proofs.RoundTrip

/-! What the alerts in `mapAlerts` do to each other, and what an alert that is turned down has done
before. -/

namespace Triangles.Alert

open Std (ExtTreeMap)
open Codec

variable {K : Type} {env : AlertEnv K} {vchKey : List UInt8} {now time : Int} {alert a b : CAlert}
  {m m' : AlertMap}

theorem compare_eq_iff {x y : uint256} : compare x y = .eq ↔ x = y := Std.LawfulEqCmp.compare_eq_iff_eq

/-- The first loop leaves the alerts that are in effect and not cancelled. -/
theorem getElem?_cancelPrevious (self : CAlert) (m : AlertMap) (h : uint256) :
    (cancelPrevious now self m)[h]? =
      m[h]?.filter fun alert => !self.cancels now alert && alert.isInEffect now := by
  have hslot := Slots.foldl_slot (fun (m : AlertMap) (k : uint256) => m[k]?)
    (fun m mi => if self.cancels now mi.2 then m.erase mi.1 else if !mi.2.isInEffect now then m.erase mi.1
      else m)
    (fun mi old => if self.cancels now mi.2 then none else if !mi.2.isInEffect now then none else old)
    (fun m p k hne => by
      split_ifs
      · rw [ExtTreeMap.getElem?_erase, if_neg fun heq => hne (compare_eq_iff.mp heq).symm]
      · rw [ExtTreeMap.getElem?_erase, if_neg fun heq => hne (compare_eq_iff.mp heq).symm]
      · rfl)
    (fun m p => by
      split_ifs
      · rw [ExtTreeMap.getElem?_erase, if_pos (compare_eq_iff.mpr rfl)]
      · rw [ExtTreeMap.getElem?_erase, if_pos (compare_eq_iff.mpr rfl)]
      · rfl)
    m.toList (Slots.toList_keys_nodup m) m h
  rw [cancelPrevious]
  cases hm : m[h]? with
  | none =>
    rw [hslot.2, hm]
    · rfl
    · rintro hmem
      obtain ⟨p, hp, rfl⟩ := List.mem_map.mp hmem
      rw [ExtTreeMap.mem_toList_iff_getElem?_eq_some.mp hp] at hm
      cases hm
  | some alert =>
    have hmem : (h, alert) ∈ m.toList := ExtTreeMap.mem_toList_iff_getElem?_eq_some.mpr hm
    rw [hslot.1 (h, alert) hmem rfl, hm]
    cases hc : self.cancels now alert <;> cases he : alert.isInEffect now <;> simp [Option.filter, hc, he]

theorem mem_cancelPrevious {self : CAlert} {h : uint256} : (cancelPrevious now self m)[h]? = some a ↔
    m[h]? = some a ∧ self.cancels now a = false ∧ a.isInEffect now = true := by
  rw [getElem?_cancelPrevious, Option.filter_eq_some_iff]
  simp

theorem any_cancels : (m.toList.any fun item => item.2.cancels now alert) = true ↔
    ∃ (h : uint256) (a : CAlert), m[h]? = some a ∧ a.cancels now alert = true := by
  rw [List.any_eq_true]
  constructor
  · rintro ⟨⟨h, a⟩, hmem, hp⟩
    exact ⟨h, a, ExtTreeMap.mem_toList_iff_getElem?_eq_some.mp hmem, hp⟩
  · rintro ⟨h, a, hm, hp⟩
    exact ⟨(h, a), ExtTreeMap.mem_toList_iff_getElem?_eq_some.mpr hm, hp⟩

theorem isInEffect_of_cancels (h : a.cancels now b = true) : a.isInEffect now = true := by
  unfold CAlert.cancels at h
  cases he : a.isInEffect now with
  | true => rfl
  | false => simp [he] at h

/-- An alert that cancels another did so before. -/
theorem cancels_of_le (hle : now ≤ time) (h : a.cancels time b = true) : a.cancels now b = true := by
  have htime := isInEffect_of_cancels h
  have hnow : a.isInEffect now = true := by
    simp only [CAlert.isInEffect, decide_eq_true_eq] at htime ⊢
    omega
  simp only [CAlert.cancels, htime, hnow] at h ⊢
  exact h

/-! The invariant. -/

def Quiet (now : Int) (m : AlertMap) : Prop :=
  ∀ (h h' : uint256) (a b : CAlert), m[h]? = some a → m[h']? = some b → h ≠ h' →
    a.cancels now b = false

theorem Quiet.later (h : Quiet now m) (hle : now ≤ time) : Quiet time m := by
  intro k k' a b ha hb hne
  by_contra hc
  have hbefore := cancels_of_le hle (by simpa using hc)
  rw [h k k' a b ha hb hne] at hbefore
  cases hbefore

theorem quiet_sub (h : Quiet now m)
    (hsub : ∀ (k : uint256) (a : CAlert), m'[k]? = some a → m[k]? = some a) : Quiet now m' :=
  fun k k' a b ha hb hne => h k k' a b (hsub k a ha) (hsub k' b hb) hne

/-- A signed alert keeps the invariant. -/
theorem Quiet.processSigned (h : Quiet now m) : Quiet now (processSigned env now alert m).2 := by
  unfold Alert.processSigned
  dsimp only
  split_ifs with heffect hfinal hcancelled
  · exact h
  · exact h
  · exact quiet_sub h fun k a hk => (mem_cancelPrevious.mp hk).1
  · intro k k' a b ha hb hne
    rw [ExtTreeMap.getElem?_insertIfNew] at ha hb
    simp only [compare_eq_iff] at ha hb
    -- the old alerts, and the new one
    have hold : ∀ (k : uint256) (a : CAlert),
        (cancelPrevious now alert m)[k]? = some a → a.cancels now alert = false := by
      intro k a hk
      by_contra hc
      exact hcancelled (any_cancels.mpr ⟨k, a, hk, by simpa using hc⟩)
    split_ifs at ha hb with hnewa hnewb hnewb
    · exact absurd (hnewa.1.symm.trans hnewb.1) hne
    · obtain rfl := Option.some.inj ha
      exact (mem_cancelPrevious.mp hb).2.1
    · obtain rfl := Option.some.inj hb
      exact hold k a ha
    · exact h k k' a b (mem_cancelPrevious.mp ha).1 (mem_cancelPrevious.mp hb).1 hne

theorem Quiet.arrive {x : Arrival} (h : Quiet x.now m) : Quiet x.now (arrive env vchKey m x) := by
  unfold Alert.arrive processAlert
  cases CAlert.checkSignature env vchKey x.vchMsg x.vchSig with
  | error e => exact h
  | ok signed =>
    cases signed with
    | none => exact h
    | some alert => exact h.processSigned

theorem run_concat (arrivals : List Arrival) (x : Arrival) :
    run env vchKey (arrivals ++ [x]) = arrive env vchKey (run env vchKey arrivals) x := by
  rw [run, List.foldl_append]
  rfl

/-- In every run whose times do not go back. -/
theorem quiet_run (arrivals : List Arrival) (htimes : (arrivals.map Arrival.now).Pairwise (· ≤ ·))
    {time : Int} (hlast : ∀ x ∈ arrivals, x.now ≤ time) : Quiet time (run env vchKey arrivals) := by
  induction arrivals using List.reverseRecOn generalizing time with
  | nil =>
    intro k k' a b ha
    simp [run] at ha
  | append_singleton arrivals x ih =>
    rw [List.map_append, List.pairwise_append] at htimes
    have hbefore : Quiet x.now (run env vchKey arrivals) :=
      ih htimes.1 fun y hy => htimes.2.2 y.now (List.mem_map_of_mem hy) x.now (by simp)
    rw [run_concat]
    exact hbefore.arrive.later (hlast x (by simp))

/-! An alert that is turned down. -/

/-- Nothing has changed but that alerts that have expired are gone. -/
def OnlyExpired (now : Int) (m m' : AlertMap) : Prop :=
  ∀ h : uint256, m'[h]? = m[h]? ∨
    m'[h]? = none ∧ ∃ a : CAlert, m[h]? = some a ∧ a.isInEffect now = false

/-- The alert is in effect, and genuine if it has the reserved number. -/
def Considered (now : Int) (alert : CAlert) : Prop :=
  alert.isInEffect now = true ∧ (alert.nID = maxInt → isFinal alert = true)

/-- The alert cancels one that is in effect, and another one cancels it. -/
def Crosses (now : Int) (alert : CAlert) (m : AlertMap) : Prop :=
  (∃ (h : uint256) (a : CAlert), m[h]? = some a ∧ a.isInEffect now = true ∧ alert.cancels now a = true) ∧
    ∃ (h : uint256) (b : CAlert), m[h]? = some b ∧ alert.cancels now b = false ∧ b.cancels now alert = true

theorem processSigned_false_iff :
    ((processSigned env now alert m).1 = false → OnlyExpired now m (processSigned env now alert m).2) ↔
      ¬ (Considered now alert ∧ Crosses now alert m) := by
  have hsame : OnlyExpired now m m := fun h => .inl rfl
  unfold Alert.processSigned
  dsimp only
  split_ifs with heffect hfinal hcancelled
  · refine ⟨fun _ hbad => ?_, fun _ _ => hsame⟩
    rw [hbad.1.1] at heffect
    cases heffect
  · refine ⟨fun _ hbad => ?_, fun _ _ => hsame⟩
    rw [hbad.1.2 hfinal.1] at hfinal
    cases hfinal.2
  · obtain ⟨h, b, hb, hbc⟩ := any_cancels.mp hcancelled
    obtain ⟨hb, hno, -⟩ := mem_cancelPrevious.mp hb
    constructor
    · -- what it cancelled is gone, though in effect
      rintro honly ⟨-, ⟨k, a, ha, hin, hc⟩, -⟩
      have hgone : (cancelPrevious now alert m)[k]? = none := by
        rw [getElem?_cancelPrevious, ha]
        simp [Option.filter, hc]
      rcases honly rfl k with hkept | ⟨-, a', ha', hout⟩
      · rw [hgone, ha] at hkept
        cases hkept
      · rw [ha] at ha'
        cases ha'
        rw [hin] at hout
        cases hout
    · intro hnot _ k
      have hconsidered : Considered now alert := by
        refine ⟨by simpa using heffect, fun hid => ?_⟩
        by_contra hf
        exact hfinal ⟨hid, by simpa using hf⟩
      change (cancelPrevious now alert m)[k]? = _ ∨ (cancelPrevious now alert m)[k]? = none ∧ _
      rw [getElem?_cancelPrevious]
      cases hk : m[k]? with
      | none => exact .inl rfl
      | some a =>
        cases hin : a.isInEffect now with
        | false => exact .inr ⟨by simp [Option.filter, hin], a, rfl, hin⟩
        | true =>
          have hc : alert.cancels now a = false := by
            by_contra hc
            exact hnot ⟨hconsidered, ⟨k, a, hk, hin, by simpa using hc⟩, h, b, hb, hno, hbc⟩
          left
          simp [Option.filter, hin, hc]
  · refine ⟨fun _ hbad => ?_, fun _ hno => ?_⟩
    · obtain ⟨-, -, h, b, hb, hno, hbc⟩ := hbad
      exact hcancelled (any_cancels.mpr
        ⟨h, b, mem_cancelPrevious.mpr ⟨hb, hno, isInEffect_of_cancels hbc⟩, hbc⟩)
    · cases hno

/-! The calls. -/

/-- `ProcessAlert` turns the alert down only without a change to the alerts in effect. -/
def TurnsDownCleanly (env : AlertEnv K) (vchKey : List UInt8) (x : Arrival) (m : AlertMap) : Prop :=
  ∀ m', processAlert env vchKey x.now x.vchMsg x.vchSig m = .ok (false, m') → OnlyExpired x.now m m'

/-- The signature is good, and the alert crosses others. -/
def SignedCrossing (env : AlertEnv K) (vchKey : List UInt8) (x : Arrival) (m : AlertMap) : Prop :=
  ∃ alert, CAlert.checkSignature env vchKey x.vchMsg x.vchSig = .ok (some alert) ∧ Considered x.now alert ∧
    Crosses x.now alert m

theorem turnsDownCleanly_iff (x : Arrival) :
    TurnsDownCleanly env vchKey x m ↔ ¬ SignedCrossing env vchKey x m := by
  unfold TurnsDownCleanly SignedCrossing processAlert
  cases CAlert.checkSignature env vchKey x.vchMsg x.vchSig with
  | error e =>
    refine ⟨fun _ => ?_, fun _ m' h => by cases h⟩
    rintro ⟨alert, hsigned, -⟩
    cases hsigned
  | ok signed =>
    cases signed with
    | none =>
      refine ⟨fun _ => ?_, fun _ m' h => ?_⟩
      · rintro ⟨alert, hsigned, -⟩
        cases hsigned
      · cases h
        exact fun h => .inl rfl
    | some alert =>
      have hiff : ((processSigned env x.now alert m).1 = false →
          OnlyExpired x.now m (processSigned env x.now alert m).2) ↔
            ¬ (Considered x.now alert ∧ Crosses x.now alert m) := processSigned_false_iff
      constructor
      · rintro hclean ⟨alert', hsigned, hbad⟩
        cases hsigned
        refine hiff.mp (fun hf => hclean _ ?_) hbad
        rw [← hf]
        rfl
      · intro hnot m' h
        obtain ⟨hf, hm⟩ := Prod.mk.inj (Except.ok.inj h)
        rw [← hm]
        exact hiff.mpr (fun hbad => hnot ⟨alert, rfl, hbad⟩) hf

/-- After a call of a run whose times do not go back. -/
theorem quiet_call {arrivals before after : List Arrival} {x : Arrival}
    (htimes : (arrivals.map Arrival.now).Pairwise (· ≤ ·)) (h : arrivals = before ++ x :: after)
    (htime : x.now ≤ time) : Quiet time (run env vchKey (before ++ [x])) := by
  have hsplit : arrivals = (before ++ [x]) ++ after := by simp [h]
  rw [hsplit, List.map_append, List.pairwise_append] at htimes
  refine quiet_run _ htimes.1 fun y hy => ?_
  have hfirst := htimes.1
  rw [List.map_append, List.pairwise_append] at hfirst
  rcases List.mem_append.mp hy with hy | hy
  · exact (hfirst.2.2 y.now (List.mem_map_of_mem hy) x.now (by simp)).trans htime
  · rw [List.mem_singleton.mp hy]
    exact htime

/-- With a key of whatever kind, in every run of arrivals whose times do not go back: after every call no
alert in effect cancels another one, at its time or later; and a call that returns false removes expired
alerts only, if and only if it is not for an alert that cancels one in effect and is itself cancelled by
another. -/
theorem run_alerts_iff (env : AlertEnv K) (vchKey : List UInt8) (arrivals : List Arrival)
    (htimes : (arrivals.map Arrival.now).Pairwise (· ≤ ·)) (before after : List Arrival) (x : Arrival)
    (h : arrivals = before ++ x :: after) :
    (∀ time, x.now ≤ time → Quiet time (run env vchKey (before ++ [x]))) ∧
      (TurnsDownCleanly env vchKey x (run env vchKey before) ↔
        ¬ SignedCrossing env vchKey x (run env vchKey before)) :=
  ⟨fun _ htime => quiet_call htimes h htime, turnsDownCleanly_iff x⟩

/-! The keys of the two networks. -/

def pointForms : List UInt8 := [0, 2, 3, 4, 6, 7]

/-- Bytes that start otherwise are no public key. -/
def RefusesOtherForms (ops : KeyOps K) : Prop :=
  ∀ b rest, b ∉ pointForms → ops.setPubKey (b :: rest) = none

/-- Both keys have their halves the wrong way round: the first byte is 0xa6. -/
theorem alertKey_head (fTestNet : Bool) : (alertKey fTestNet).head? = some 0xa6 := by
  cases fTestNet <;> decide +kernel

/-- So no alert is ever signed. -/
theorem checkSignature_alertKey (hforms : RefusesOtherForms env.keys) (fTestNet : Bool)
    (vchMsg vchSig : List UInt8) :
    CAlert.checkSignature env (alertKey fTestNet) vchMsg vchSig = .ok none := by
  obtain ⟨rest, hkey⟩ := List.head?_eq_some_iff.mp (alertKey_head fTestNet)
  have hrefused : env.keys.setPubKey (alertKey fTestNet) = none := by
    rw [hkey]
    exact hforms 0xa6 rest (by decide)
  simp only [CAlert.checkSignature, KeyOps.check, hrefused]
  rfl

theorem run_alertKey (hforms : RefusesOtherForms env.keys) (fTestNet : Bool) (arrivals : List Arrival) :
    run env (alertKey fTestNet) arrivals = ∅ := by
  induction arrivals using List.reverseRecOn with
  | nil => rfl
  | append_singleton arrivals x ih =>
    rw [run_concat, ih]
    simp only [arrive, processAlert, checkSignature_alertKey hforms]
    rfl

/-- On either network, in every run of arrivals whose times do not go back: after every call no alert in
effect cancels another one, at its time or later, and a call that returns false removes expired alerts
only. As the keys are, every call returns false and the map stays empty. -/
theorem run_alerts (env : AlertEnv K) (hforms : RefusesOtherForms env.keys) (fTestNet : Bool)
    (arrivals : List Arrival) (htimes : (arrivals.map Arrival.now).Pairwise (· ≤ ·))
    (before after : List Arrival) (x : Arrival) (h : arrivals = before ++ x :: after) :
    (∀ time, x.now ≤ time → Quiet time (run env (alertKey fTestNet) (before ++ [x]))) ∧
      TurnsDownCleanly env (alertKey fTestNet) x (run env (alertKey fTestNet) before) ∧
      run env (alertKey fTestNet) before = ∅ ∧
      processAlert env (alertKey fTestNet) x.now x.vchMsg x.vchSig ∅ = .ok (false, ∅) := by
  refine ⟨fun _ htime => quiet_call htimes h htime, (turnsDownCleanly_iff x).mpr ?_,
    run_alertKey hforms fTestNet before, ?_⟩
  · rintro ⟨alert, hsigned, -⟩
    rw [checkSignature_alertKey hforms] at hsigned
    cases hsigned
  · simp only [processAlert, checkSignature_alertKey hforms]
    rfl

namespace Sample

def signed : AlertEnv Unit where
  hash vchMsg := leValue ((vchMsg.drop 20).take 4)
  keys := ⟨fun vch => if vch.headD 1 ∈ pointForms then some () else none, fun _ _ _ => true⟩

def goodKey : List UInt8 := 2 :: List.replicate 32 7

def message (nID cancelled : Int) : List UInt8 :=
  signedBytes 4 1 ++ signedBytes 8 0 ++ signedBytes 8 2000 ++ signedBytes 4 nID ++ signedBytes 4 0 ++
    (writeCompactSize 1 ++ signedBytes 4 cancelled) ++ signedBytes 4 0 ++ signedBytes 4 0 ++ [0] ++
    signedBytes 4 0 ++ [0] ++ [0] ++ [0]

def arrival (nID cancelled : Int) : Arrival := ⟨1000, message nID cancelled, []⟩

def crossing : List Arrival := [arrival 5 1, arrival 10 7, arrival 7 5]

end Sample

def Sample.alertOf (nID cancelled : Int) : CAlert where
  nVersion := 1
  nRelayUntil := 0
  nExpiration := 2000
  nID := nID
  nCancel := 0
  setCancel := {cancelled}
  nMinVer := 0
  nMaxVer := 0
  setSubVer := ∅
  nPriority := 0
  strComment := []
  strStatusBar := []
  strReserved := []
  vchMsg := Sample.message nID cancelled
  vchSig := []

theorem cancel_reads {cancelled : Int} (h : InSigned 4 cancelled) :
    Reads (unserializeSet (readSigned 4)) (writeCompactSize 1 ++ signedBytes 4 cancelled) {cancelled} := by
  refine (readCompactSize_reads (n := 1) (by decide)).bind ?_
  have hkeys : Reads (readMany (readSigned 4) 1) (signedBytes 4 cancelled) [cancelled] := by
    simpa using readMany_reads [cancelled] fun n hn => by
      simpa [List.mem_singleton.mp hn] using readSigned_reads h
  exact hkeys.map List.toFinset

theorem emptySet_reads {α : Type} [DecidableEq α] (r : Reader StreamError α) :
    Reads (unserializeSet r) [0] ∅ := fun _ => rfl

theorem emptyString_reads : Reads unserializeString [0] [] := fun _ => rfl

theorem Sample.message_reads {nID cancelled : Int} (hID : InSigned 4 nID) (h : InSigned 4 cancelled) :
    Reads CUnsignedAlert.unserialize (Sample.message nID cancelled)
      (Sample.alertOf nID cancelled).toCUnsignedAlert := by
  have hversion : Reads (readSigned 4) (signedBytes 4 1) 1 := readSigned_reads (by unfold InSigned; decide)
  have hzero : Reads (readSigned 4) (signedBytes 4 0) 0 := readSigned_reads (by unfold InSigned; decide)
  have hrelay : Reads (readSigned 8) (signedBytes 8 0) 0 := readSigned_reads (by unfold InSigned; decide)
  have hexpiration : Reads (readSigned 8) (signedBytes 8 2000) 2000 :=
    readSigned_reads (by unfold InSigned; decide)
  unfold Sample.message CUnsignedAlert.unserialize
  simp only [List.append_assoc]
  refine hversion.bind (hrelay.bind (hexpiration.bind ((readSigned_reads hID).bind (hzero.bind ?_))))
  rw [← List.append_assoc (writeCompactSize 1)]
  refine (cancel_reads h).bind (hzero.bind (hzero.bind ((emptySet_reads _).bind (hzero.bind ?_))))
  exact emptyString_reads.bind (emptyString_reads.bind (emptyString_reads.map _))

theorem Sample.checkSignature {nID cancelled : Int} (hID : InSigned 4 nID) (h : InSigned 4 cancelled) :
    CAlert.checkSignature Sample.signed Sample.goodKey (Sample.message nID cancelled) [] =
      .ok (some (Sample.alertOf nID cancelled)) := by
  have hread := Sample.message_reads hID h []
  rw [List.append_nil] at hread
  have hgood : Sample.signed.keys.check Sample.goodKey
      (Sample.signed.hash (Sample.message nID cancelled)) [] = true := rfl
  simp only [CAlert.checkSignature, hgood, hread]
  rfl

theorem crossing_alerts :
    (∀ time, 1000 ≤ time →
      Quiet time (run Sample.signed Sample.goodKey
        ([Sample.arrival 5 1, Sample.arrival 10 7] ++ [Sample.arrival 7 5]))) ∧
      (TurnsDownCleanly Sample.signed Sample.goodKey (Sample.arrival 7 5)
          (run Sample.signed Sample.goodKey [Sample.arrival 5 1, Sample.arrival 10 7]) ↔
        ¬ SignedCrossing Sample.signed Sample.goodKey (Sample.arrival 7 5)
          (run Sample.signed Sample.goodKey [Sample.arrival 5 1, Sample.arrival 10 7])) :=
  run_alerts_iff Sample.signed Sample.goodKey Sample.crossing (by decide)
    [Sample.arrival 5 1, Sample.arrival 10 7] [] (Sample.arrival 7 5) rfl

/-- With the keys of the source the same alerts are not looked at. -/
theorem crossing_refused :
    (∀ time, 1000 ≤ time → Quiet time (run Sample.signed (alertKey false)
      ([Sample.arrival 5 1, Sample.arrival 10 7] ++ [Sample.arrival 7 5]))) ∧
      TurnsDownCleanly Sample.signed (alertKey false) (Sample.arrival 7 5)
        (run Sample.signed (alertKey false) [Sample.arrival 5 1, Sample.arrival 10 7]) ∧
      run Sample.signed (alertKey false) [Sample.arrival 5 1, Sample.arrival 10 7] = ∅ ∧
      processAlert Sample.signed (alertKey false) 1000 (Sample.message 7 5) [] ∅ = .ok (false, ∅) :=
  run_alerts Sample.signed (fun _ _ hb => if_neg hb) false Sample.crossing (by decide)
    [Sample.arrival 5 1, Sample.arrival 10 7] [] (Sample.arrival 7 5) rfl

end Triangles.Alert
