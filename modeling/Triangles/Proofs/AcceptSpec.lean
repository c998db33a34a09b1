import Triangles.Model.ProcessBlock
import Triangles.Proofs.Frame

/-! What `AddToBlockIndex`, `AcceptBlock` and the checkpoint functions do to the block index. -/

namespace Triangles

open Outcome

/-- The index and the stakes seen in it are the same. -/
structure SameIndex (n t : FullNode) : Prop where
  mapBlockIndex : t.mapBlockIndex = n.mapBlockIndex
  setStakeSeen : t.setStakeSeen = n.setStakeSeen

theorem SameIndex.refl (n : FullNode) : SameIndex n n := ⟨rfl, rfl⟩

theorem SameIndex.trans (n t u : FullNode) (h : SameIndex n t) (h' : SameIndex t u) :
    SameIndex n u :=
  ⟨h'.mapBlockIndex.trans h.mapBlockIndex, h'.setStakeSeen.trans h.setStakeSeen⟩

section Frame

variable {env : Env} {host : Host}

theorem onState_leaves {α : Type} (x : Node α) (n : FullNode) :
    leaves (onState x) n = { n with toState := leaves x n.toState } := by
  unfold leaves onState
  cases x n.toState <;> rfl

theorem onState_ok {α : Type} {x : Node α} {n t : FullNode} {a : α} :
    onState x n = .ok a t ↔ ∃ s, x n.toState = .ok a s ∧ { n with toState := s } = t := by
  unfold onState
  cases x n.toState <;> simp

theorem onState_error {α : Type} {x : Node α} {n t : FullNode} {e : Reject} :
    onState x n = .error e t ↔ ∃ s, x n.toState = .error e s ∧ { n with toState := s } = t := by
  unfold onState
  cases x n.toState <;> simp

theorem onState_sameIndex {α : Type} (x : Node α) : Keeps SameIndex (onState x) := by
  intro n
  rw [onState_leaves]
  exact ⟨rfl, rfl⟩

theorem modify_sameIndex {g : FullNode → FullNode} (h : ∀ n, SameIndex n (g n)) :
    Keeps SameIndex (modify g : Full Unit) := Keeps.modify h

theorem writeSyncCheckpoint_sameIndex (hash : uint256) :
    Keeps SameIndex (writeSyncCheckpoint host hash) := by
  unfold writeSyncCheckpoint
  refine Keeps.bind SameIndex.trans (onState_sameIndex _) fun _ => ?_
  refine Keeps.bind SameIndex.trans (onState_sameIndex _) fun _ => ?_
  refine Keeps.bind SameIndex.trans (onState_sameIndex _) fun _ => ?_
  exact modify_sameIndex fun n => ⟨rfl, rfl⟩

end Frame

/-! What becomes of an offered block. -/

/-- `AcceptBlock` comes to the point where it enters the block in the index, as `pindexNew`. -/
def Admits (env : IndexEnv) (mode : CPMode) (host : AcceptHost) (n : FullNode) (block : CBlock)
    (pindexNew : CBlockIndex) : Prop :=
  ∃ hashProofOfStake spot, acceptChecks env.toEnv mode host n block = .ok hashProofOfStake ∧
    host.spot = some spot ∧
    newBlockIndex env n.mapBlockIndex block spot hashProofOfStake = .ok pindexNew

section Accept

variable {env : IndexEnv} {mode : CPMode} {host : AcceptHost} {n : FullNode} {block : CBlock}

/-- What the checks of `AcceptBlock` establish of a block on top of `pindexPrev`. -/
structure PassesChecks (env : Env) (mode : CPMode) (n : FullNode) (block : CBlock)
    (pindexPrev : CBlockIndex) : Prop where
  fresh : n.mapBlockIndex.find (block.getHash env) = none
  prev : n.mapBlockIndex.find block.hashPrevBlock = some pindexPrev
  bits : block.nBits = getNextTargetRequired env (some pindexPrev) block.isProofOfStake ∨
    (pindexPrev.nHeight + 1 : Int) ≤ CRAPCHAIN_CUTOFF_BLOCK
  sync : mode = .STRICT → n.checkSync env.fTestNet (block.getHash env) pindexPrev = .ok true

theorem acceptChecks_ok {env : Env} {hashProofOfStake : uint256}
    (h : acceptChecks env mode host n block = .ok hashProofOfStake) :
    ∃ pindexPrev, PassesChecks env mode n block pindexPrev := by
  unfold acceptChecks at h
  rw [check_bind] at h
  obtain ⟨hfresh, h⟩ := h
  split at h
  · cases h
  · rename_i pindexPrev hprev
    simp only [check_bind] at h
    obtain ⟨_, _, hbits, _, _, _, h⟩ := h
    obtain ⟨_, _, h⟩ := bind_ok.mp h
    obtain ⟨cpSatisfies, hsync, h⟩ := bind_ok.mp h
    obtain ⟨hstrict, _⟩ := check_bind.mp h
    refine ⟨pindexPrev, by simpa [BlockMap.has] using hfresh, hprev, by simpa using hbits, ?_⟩
    rintro rfl
    rw [hsync]
    simpa using hstrict

/-- The proof hash that `AcceptBlock` hands on is 0 for a proof-of-work block. -/
theorem acceptChecks_proof {env : Env} {hashProofOfStake : uint256}
    (h : acceptChecks env mode host n block = .ok hashProofOfStake)
    (hwork : block.isProofOfStake = false) : hashProofOfStake = 0 := by
  have hproof : block.proofHash env host.toHost host.fDebug n = .ok 0 := by
    unfold CBlock.proofHash
    rw [hwork]
  unfold acceptChecks at h
  obtain ⟨_, h⟩ := check_bind.mp h
  split at h
  · cases h
  · simp only [check_bind] at h
    obtain ⟨_, _, _, _, _, _, h⟩ := h
    rw [hproof] at h
    obtain ⟨_, ⟨⟩, h⟩ := bind_ok.mp h
    obtain ⟨_, _, h⟩ := bind_ok.mp h
    simp only [check_bind, pure_ok] at h
    exact h.2.2.symm

namespace Admits

variable {pindexNew : CBlockIndex} (h : Admits env mode host n block pindexNew)
include h

theorem hash : pindexNew.getBlockHash = block.getHash env.toEnv := by
  obtain ⟨_, _, _, _, hnew⟩ := h
  exact newBlockIndex_hash hnew

theorem passes : ∃ p, pindexNew.pprev = some p ∧ PassesChecks env.toEnv mode n block p := by
  obtain ⟨_, _, hchecks, _, hnew⟩ := h
  obtain ⟨p, hp⟩ := acceptChecks_ok hchecks
  exact ⟨p, (newBlockIndex_pprev hnew).trans hp.prev, hp⟩

theorem fresh : n.mapBlockIndex.find pindexNew.getBlockHash = none := by
  rw [h.hash]
  obtain ⟨_, _, hp⟩ := h.passes
  exact hp.fresh

theorem prev : ∀ p, pindexNew.pprev = some p → n.mapBlockIndex.find p.getBlockHash = some p := by
  obtain ⟨_, _, _, _, hnew⟩ := h
  exact newBlockIndex_prev hnew

def entered : FullNode := n.enter pindexNew h.fresh h.prev

theorem entered_find (hash : uint256) :
    h.entered.mapBlockIndex.find hash =
      if hash = pindexNew.getBlockHash then some pindexNew else n.mapBlockIndex.find hash := rfl

theorem find_old {hash : uint256} {p : CBlockIndex} (hp : n.mapBlockIndex.find hash = some p) :
    h.entered.mapBlockIndex.find hash = some p := by
  rw [h.entered_find, if_neg]
  · exact hp
  · rintro rfl
    rw [h.fresh] at hp
    cases hp

end Admits

theorem addToBlockIndex_run (env : IndexEnv) (host : Host) (n : FullNode) (block : CBlock)
    (spot : DiskSpot) (hashProofOfStake : uint256) :
    (¬ (n.mapBlockIndex.find (block.getHash env.toEnv) = none ∧
        ∃ p, newBlockIndex env n.mapBlockIndex block spot hashProofOfStake = .ok p) ∧
      ∃ e, addToBlockIndex env host block spot hashProofOfStake n = .error e n) ∨
    ∃ pindexNew hnew hprev,
      newBlockIndex env n.mapBlockIndex block spot hashProofOfStake = .ok pindexNew ∧
      addToBlockIndex env host block spot hashProofOfStake n =
        onState (recordBlockIndex env.toEnv host block pindexNew)
          (n.enter pindexNew hnew hprev) := by
  unfold addToBlockIndex
  split
  · split
    · rename_i e herror
      exact .inl ⟨by simp [herror], _, rfl⟩
    · rename_i hnew pindexNew hok
      exact .inr ⟨pindexNew, newBlockIndex_hash hok ▸ hnew, newBlockIndex_prev hok, hok, rfl⟩
  · rename_i hknown
    exact .inl ⟨fun hnew => hknown hnew.1, _, rfl⟩

/-- An offered block is turned down and nothing has changed, or it is in the index. Then
either recording it failed, or it is recorded and the pending checkpoint looked at. -/
theorem acceptBlock_cases (env : IndexEnv) (mode : CPMode) (host : AcceptHost) (n : FullNode)
    (block : CBlock) :
    (∃ e, acceptBlock env mode host block n = .error e n) ∨
    ∃ pindexNew, ∃ h : Admits env mode host n block pindexNew,
      (∃ e e' t, onState (recordBlockIndex env.toEnv host.toHost block pindexNew) h.entered =
          .error e t ∧ acceptBlock env mode host block n = .error e' t) ∨
      ∃ t, onState (recordBlockIndex env.toEnv host.toHost block pindexNew) h.entered = .ok () t ∧
        acceptBlock env mode host block n =
          .ok () (leaves (acceptPendingSyncCheckpoint env.toEnv host.toHost) t) := by
  unfold acceptBlock
  cases hchecks : acceptChecks env.toEnv mode host n block with
  | error e => exact .inl ⟨_, rfl⟩
  | ok hashProofOfStake =>
    cases host.checkDiskSpace with
    | false => exact .inl ⟨_, rfl⟩
    | true =>
      cases hspot : host.spot with
      | none => exact .inl ⟨_, rfl⟩
      | some spot =>
        rcases addToBlockIndex_run env host.toHost n block spot hashProofOfStake with
          ⟨_, e, he⟩ | ⟨pindexNew, hnew, hprev, hok, hrun⟩
        · simp only [he]
          exact .inl ⟨_, rfl⟩
        · refine .inr ⟨pindexNew, ⟨hashProofOfStake, spot, hchecks, hspot, hok⟩, ?_⟩
          simp only [hrun]
          unfold Admits.entered
          cases hrec : onState (recordBlockIndex env.toEnv host.toHost block pindexNew)
              (n.enter pindexNew hnew hprev) with
          | error e t => exact .inl ⟨_, _, t, rfl, rfl⟩
          | ok u t =>
            refine .inr ⟨t, rfl, ?_⟩
            unfold leaves
            simp only
            cases acceptPendingSyncCheckpoint env.toEnv host.toHost t <;> rfl

end Accept

/-! What the checkpoint functions do. -/

section Checkpoint

variable {env : Env} {host : Host}

theorem switchToCheckpoint_sameIndex (env : Env) (host : Host) (caller : String) (pindexCheckpoint : CBlockIndex) :
    Keeps SameIndex (switchToCheckpoint env host caller pindexCheckpoint) := by
  intro n
  unfold switchToCheckpoint leaves
  by_cases hmain : n.isInMainChain pindexCheckpoint = true
  · simp only [hmain, if_true]
    exact .refl n
  · simp only [hmain, Bool.false_eq_true, if_false]
    cases readBlockOf env host pindexCheckpoint with
    | error e => exact .refl n
    | ok block =>
      have hkeeps := onState_sameIndex (setBestChain env host block pindexCheckpoint) n
      unfold leaves at hkeeps
      cases hset : onState (setBestChain env host block pindexCheckpoint) n with
      | ok u t => simpa only [hset] using hkeeps
      | error e t =>
        simp only [hset] at hkeeps ⊢
        exact ⟨hkeeps.mapBlockIndex, hkeeps.setStakeSeen⟩

theorem adoptSyncCheckpoint_sameIndex (caller : String) (pindexCheckpoint : CBlockIndex) :
    Keeps SameIndex (adoptSyncCheckpoint env host caller pindexCheckpoint) := by
  unfold adoptSyncCheckpoint
  refine Keeps.bind SameIndex.trans (switchToCheckpoint_sameIndex _ _ _ _) fun _ => ?_
  refine Keeps.bind SameIndex.trans (named_keeps (writeSyncCheckpoint_sameIndex _) _) fun _ => ?_
  exact modify_sameIndex fun n => ⟨rfl, rfl⟩

/-- A checkpoint is valid when it is above the current one and comes back to it at its height. -/
theorem validateSyncCheckpoint_true {n m : FullNode} {hashCheckpoint : uint256}
    (h : n.validateSyncCheckpoint hashCheckpoint = (true, m)) :
    m = n ∧ ∃ c p, n.mapBlockIndex.find n.hashSyncCheckpoint = some c ∧
      n.mapBlockIndex.find hashCheckpoint = some p ∧ c.nHeight < p.nHeight ∧
      (p.lowerTo c.nHeight).getBlockHash = n.hashSyncCheckpoint := by
  unfold FullNode.validateSyncCheckpoint at h
  split at h
  · rename_i c p hc hp
    simp only at h
    split at h
    · split at h <;> cases h
    · rename_i hheight
      split at h
      · cases h
      · rename_i hback
        cases h
        exact ⟨rfl, c, p, hc, hp, not_le.mp hheight, not_not.mp hback⟩
  · cases h

theorem validateSyncCheckpoint_false {n m : FullNode} {hashCheckpoint : uint256}
    (h : n.validateSyncCheckpoint hashCheckpoint = (false, m)) :
    ∃ hash, m = { n with hashInvalidCheckpoint := hash } := by
  unfold FullNode.validateSyncCheckpoint at h
  split at h
  · simp only at h
    split at h
    · split at h <;> cases h <;> exact ⟨_, rfl⟩
    · split at h
      · cases h
        exact ⟨_, rfl⟩
      · cases h
  · cases h
    exact ⟨_, rfl⟩

/-- A step of the checkpoint functions notes down at most a pending or an invalid hash, or it
adopts a valid checkpoint. -/
inductive CheckpointStep (env : Env) (host : Host) (n : FullNode) : FullNode → Prop
  | noted (pending invalid : uint256) : CheckpointStep env host n
      { n with hashPendingCheckpoint := pending, hashInvalidCheckpoint := invalid }
  | adopted (caller : String) (hashCheckpoint : uint256) (p : CBlockIndex)
      (hvalid : n.validateSyncCheckpoint hashCheckpoint = (true, n))
      (hp : n.mapBlockIndex.find hashCheckpoint = some p) :
      CheckpointStep env host n (leaves (adoptSyncCheckpoint env host caller p) n)

/-- Where a checkpoint of an indexed block goes once it is validated. -/
theorem validated_step (env : Env) (host : Host) {n : FullNode} {hashCheckpoint : uint256}
    {p : CBlockIndex} (pending : uint256) (caller : String) (hp : n.mapBlockIndex.find hashCheckpoint = some p) :
    CheckpointStep env host n
      (match n.validateSyncCheckpoint hashCheckpoint with
      | (false, n) => { n with hashPendingCheckpoint := pending }
      | (true, n) => leaves (adoptSyncCheckpoint env host caller p) n) := by
  cases hv : n.validateSyncCheckpoint hashCheckpoint with
  | mk valid m =>
    cases valid with
    | false =>
      obtain ⟨hash, rfl⟩ := validateSyncCheckpoint_false hv
      exact .noted pending hash
    | true =>
      obtain ⟨rfl, _⟩ := validateSyncCheckpoint_true hv
      exact .adopted caller hashCheckpoint p hv hp

theorem acceptPendingSyncCheckpoint_step (n : FullNode) :
    CheckpointStep env host n (leaves (acceptPendingSyncCheckpoint env host) n) := by
  unfold acceptPendingSyncCheckpoint leaves
  by_cases hpending : n.hashPendingCheckpoint = 0
  · simp only [hpending, if_true]
    exact .noted n.hashPendingCheckpoint n.hashInvalidCheckpoint
  · simp only [hpending, if_false]
    cases hp : n.mapBlockIndex.find n.hashPendingCheckpoint with
    | none => exact .noted n.hashPendingCheckpoint n.hashInvalidCheckpoint
    | some p =>
      have hstep := validated_step env host 0 "AcceptPendingSyncCheckpoint" hp
      cases hv : n.validateSyncCheckpoint n.hashPendingCheckpoint with
      | mk valid m =>
        rw [hv] at hstep
        cases valid <;> exact hstep

theorem processSyncCheckpoint_step (signed : Option uint256) (n : FullNode) :
    CheckpointStep env host n (leaves (processSyncCheckpoint env host signed) n) := by
  unfold processSyncCheckpoint leaves
  cases signed with
  | none => exact .noted n.hashPendingCheckpoint n.hashInvalidCheckpoint
  | some hashCheckpoint =>
    simp only
    cases hp : n.mapBlockIndex.find hashCheckpoint with
    | none => exact .noted hashCheckpoint n.hashInvalidCheckpoint
    | some p =>
      cases hv : n.validateSyncCheckpoint hashCheckpoint with
      | mk valid m =>
        have hstep := validated_step env host m.hashPendingCheckpoint "ProcessSyncCheckpoint" hp
        rw [hv] at hstep
        cases valid <;> exact hstep

theorem CheckpointStep.sameIndex {n t : FullNode} (h : CheckpointStep env host n t) :
    SameIndex n t := by
  cases h with
  | noted pending invalid => exact ⟨rfl, rfl⟩
  | adopted caller hashCheckpoint p hvalid hp => exact adoptSyncCheckpoint_sameIndex caller p n

end Checkpoint

/-- After `AcceptBlock` the index is as before, or the block has been entered in it. -/
theorem acceptBlock_index (env : IndexEnv) (mode : CPMode) (host : AcceptHost) (n : FullNode)
    (block : CBlock) :
    SameIndex n (leaves (acceptBlock env mode host block) n) ∨
    ∃ pindexNew, ∃ h : Admits env mode host n block pindexNew,
      SameIndex h.entered (leaves (acceptBlock env mode host block) n) := by
  rcases acceptBlock_cases env mode host n block with ⟨e, he⟩ | ⟨pindexNew, h, hrun⟩
  · rw [leaves_error he]
    exact .inl (.refl n)
  · refine .inr ⟨pindexNew, h, ?_⟩
    have hrecord := onState_sameIndex (recordBlockIndex env.toEnv host.toHost block pindexNew)
    rcases hrun with ⟨e, e', t, hrec, hacc⟩ | ⟨t, hrec, hacc⟩
    · rw [leaves_error hacc]
      exact hrecord.error hrec
    · rw [leaves_ok hacc]
      exact .trans _ _ _ (hrecord.ok hrec) (acceptPendingSyncCheckpoint_step t).sameIndex

namespace Sample

theorem firstFile_ne : (1 : UInt32) ≠ 0xffffffff := by decide

/-- Where `mainBlock` lies in the first block file. -/
def mainSpot : DiskSpot := ⟨1, 400, firstFile_ne, by decide⟩

end Sample

end Triangles
