import Triangles.Proofs.Selection

/-! Which blocks make up a new stake modifier, and what of the block index it depends on. -/

namespace Triangles

open Outcome Draw CBlockIndex

/-- A block that the round with stop time `nStop` may select among those left. -/
def RightPick (env : Env) (nStakeModifierPrev : UInt64) (nStop : Int) (left : List CBlockIndex)
    (b : CBlockIndex) : Prop :=
  b ∈ left ∧
    ((b.getBlockTime ≤ nStop ∧ ∀ c ∈ left, c.getBlockTime ≤ nStop →
        b.selectionHash env nStakeModifierPrev ≤ c.selectionHash env nStakeModifierPrev) ∨
      ((∀ c ∈ left, nStop < c.getBlockTime) ∧ ∀ c ∈ left, b.candidate.le c.candidate))

/-- The bits of a new modifier are the entropy bits of blocks rightly picked one after the
other. -/
def Selected (env : Env) (p : CBlockIndex) (nStakeModifier : UInt64) : Prop :=
  ∃ nStakeModifierPrev nModifierTime, getLastStakeModifier p = .ok (nStakeModifierPrev, nModifierTime) ∧
  ∃ picks : List CBlockIndex, picks.length = min 64 (candidates env p).length ∧ picks.Nodup ∧
    ∀ r b, picks[r]? = some b →
      nStakeModifier.toNat.testBit r = (b.getStakeEntropyBit != 0) ∧
      RightPick env nStakeModifierPrev (stopAfter env (nSelectionIntervalStart env p) (r + 1))
        ((candidates env p).filter (· ∉ picks.take r)) b

section Picks

variable {env : Env} {mapBlockIndex : BlockMap} {nStakeModifierPrev : UInt64} {p : CBlockIndex}

def blockAt (mapBlockIndex : BlockMap) (p : CBlockIndex) (item : Candidate) : CBlockIndex :=
  (mapBlockIndex.find item.2).getD p

theorem Indexed.blockAt_candidate {item : Candidate} (h : Indexed mapBlockIndex item)
    (p : CBlockIndex) : (blockAt mapBlockIndex p item).candidate = item ∧
      mapBlockIndex.find item.2 = some (blockAt mapBlockIndex p item) := by
  obtain ⟨q, hq, rfl⟩ := h
  simp [blockAt, hq]

theorem blockAt_of_candidate (hp : mapBlockIndex.find p.getBlockHash = some p) {c : CBlockIndex}
    (hc : c ∈ candidates env p) : blockAt mapBlockIndex p c.candidate = c := by
  have hfind := BlockMap.find_ancestor hp (candidates_subset hc)
  simp [blockAt, candidate, hfind]

theorem scoreAt_candidate (hp : mapBlockIndex.find p.getBlockHash = some p) {c : CBlockIndex}
    (hc : c ∈ candidates env p) :
    scoreAt env mapBlockIndex nStakeModifierPrev c.candidate =
      c.selectionHash env nStakeModifierPrev := by
  have hfind := BlockMap.find_ancestor hp (candidates_subset hc)
  simp [scoreAt, entryAt, candidate, hfind]

/-- A block is left when its candidate has not been drawn. -/
theorem mem_left (hp : mapBlockIndex.find p.getBlockHash = some p) {taken : List Candidate}
    (htaken : taken ⊆ sortedCandidates env p) {c : CBlockIndex} :
    c ∈ (candidates env p).filter (· ∉ taken.map (blockAt mapBlockIndex p)) ↔
      c ∈ candidates env p ∧ c.candidate ∉ taken := by
  rw [List.mem_filter, decide_eq_true_eq]
  refine and_congr_right fun hc => not_congr ?_
  rw [List.mem_map]
  constructor
  · intro h
    obtain ⟨item, hitem, rfl⟩ := h
    rwa [((sortedCandidates_indexed hp item (htaken hitem)).blockAt_candidate p).1]
  · exact fun hm => ⟨c.candidate, hm, blockAt_of_candidate hp hc⟩

/-- A draw from the sorted candidates is a right pick of a block. -/
theorem Drawn.rightPick (hp : mapBlockIndex.find p.getBlockHash = some p) {nStop : Int}
    {taken : List Candidate} (htaken : taken ⊆ sortedCandidates env p) {d : Candidate}
    (h : Drawn (isLate nStop) (scoreAt env mapBlockIndex nStakeModifierPrev)
      (sortedCandidates env p) taken d) :
    RightPick env nStakeModifierPrev nStop
      ((candidates env p).filter (· ∉ taken.map (blockAt mapBlockIndex p)))
      (blockAt mapBlockIndex p d) := by
  obtain ⟨b, hb, rfl⟩ := mem_sortedCandidates.mp h.mem
  rw [blockAt_of_candidate hp hb]
  refine ⟨(mem_left hp htaken).mpr ⟨hb, h.fresh⟩, ?_⟩
  rcases h.best with ⟨hearly, hmin⟩ | ⟨hall, hhead⟩
  · refine .inl ⟨not_isLate_iff.mp hearly, ?_⟩
    intro c hc htime
    obtain ⟨hc, hleft⟩ := (mem_left hp htaken).mp hc
    rw [← scoreAt_candidate hp hb, ← scoreAt_candidate hp hc]
    exact hmin _ (mem_sortedCandidates.mpr ⟨c, hc, rfl⟩) hleft (not_isLate_iff.mpr htime)
  · refine .inr ⟨?_, ?_⟩
    · intro c hc
      obtain ⟨hc, hleft⟩ := (mem_left hp htaken).mp hc
      exact isLate_iff.mp (hall _ (mem_sortedCandidates.mpr ⟨c, hc, rfl⟩) hleft)
    · intro c hc
      obtain ⟨hc, hleft⟩ := (mem_left hp htaken).mp hc
      obtain ⟨rest, hrest⟩ := List.head?_eq_some_iff.mp hhead
      have hsorted : (b.candidate :: rest).Pairwise Candidate.le := by
        rw [← hrest]
        exact (sortedCandidates_sorted env p).filter _
      have hmem : c.candidate ∈ b.candidate :: rest := by
        rw [← hrest]
        exact List.mem_filter.mpr ⟨mem_sortedCandidates.mpr ⟨c, hc, rfl⟩, by simpa using hleft⟩
      rcases List.mem_cons.mp hmem with he | hm
      · rw [he]
        exact .inr ⟨rfl, Nat.le_refl _⟩
      · exact (List.pairwise_cons.mp hsorted).1 _ hm

end Picks

def selectedFor (env : Env) (mapBlockIndex : BlockMap) (nStakeModifierPrev : UInt64)
    (p : CBlockIndex) : List Candidate :=
  selectedIn env mapBlockIndex nStakeModifierPrev (nSelectionIntervalStart env p)
    (sortedCandidates env p) (min 64 (sortedCandidates env p).length)

section Compute

variable {env : Env} {mapBlockIndex : BlockMap} {p : CBlockIndex}
  {nStakeModifierPrev : UInt64} {nModifierTime : Int}

/-- The last modifier is as old as the interval of the block. -/
def stillCurrent (env : Env) (p : CBlockIndex) (nModifierTime : Int) : Prop :=
  p.getBlockTime / nModifierInterval env ≤ nModifierTime / nModifierInterval env

theorem compute_current (hlast : getLastStakeModifier p = .ok (nStakeModifierPrev, nModifierTime))
    (hcur : stillCurrent env p nModifierTime) :
    computeNextStakeModifier env mapBlockIndex (some p) = .ok (nStakeModifierPrev, false) := by
  simp only [computeNextStakeModifier, hlast]
  exact if_pos hcur

theorem compute_new (hp : mapBlockIndex.find p.getBlockHash = some p)
    (hlast : getLastStakeModifier p = .ok (nStakeModifierPrev, nModifierTime))
    (hdue : ¬ stillCurrent env p nModifierTime) :
    ∃ nStakeModifier, computeNextStakeModifier env mapBlockIndex (some p) = .ok (nStakeModifier, true) ∧
      ∀ i, nStakeModifier.toNat.testBit i =
        ((selectedFor env mapBlockIndex nStakeModifierPrev p)[i]?).any (entropyAt mapBlockIndex) := by
  obtain ⟨acc, hacc, hafter⟩ := rounds_ok (sortedCandidates_indexed hp)
    (sortedCandidates_nodup env hp) (sortedCandidates_sorted env p)
    (Nat.min_le_right 64 (sortedCandidates env p).length) (Nat.min_le_left _ _)
  refine ⟨acc.nStakeModifierNew, ?_, hafter.bits⟩
  unfold stillCurrent at hdue
  simp only [computeNextStakeModifier, hlast]
  rw [if_neg hdue, hacc]
  rfl

/-- The bits that `compute_new` names are those of right picks. -/
theorem selected_of_bits (hp : mapBlockIndex.find p.getBlockHash = some p)
    (hlast : getLastStakeModifier p = .ok (nStakeModifierPrev, nModifierTime))
    {nStakeModifier : UInt64}
    (hbits : ∀ i, nStakeModifier.toNat.testBit i =
      ((selectedFor env mapBlockIndex nStakeModifierPrev p)[i]?).any (entropyAt mapBlockIndex)) :
    Selected env p nStakeModifier := by
  have hn := Nat.min_le_right 64 (sortedCandidates env p).length
  obtain ⟨hlen, hnd, hsub⟩ := selectedIn_invariant env mapBlockIndex nStakeModifierPrev
    (nSelectionIntervalStart env p) (sortedCandidates_nodup env hp) (sortedCandidates_sorted env p) hn
  have hcount : (sortedCandidates env p).length = (candidates env p).length := by
    rw [(sortedCandidates_perm env p).length_eq, List.length_map]
  refine ⟨nStakeModifierPrev, nModifierTime, hlast,
    (selectedFor env mapBlockIndex nStakeModifierPrev p).map (blockAt mapBlockIndex p), ?_, ?_, ?_⟩
  · rw [List.length_map, ← hcount]
    exact hlen
  · refine List.Nodup.map_on ?_ hnd
    intro a ha b hb hab
    rw [← ((sortedCandidates_indexed hp a (hsub ha)).blockAt_candidate p).1, hab,
      ((sortedCandidates_indexed hp b (hsub hb)).blockAt_candidate p).1]
  · intro r b hb
    rw [List.getElem?_map, Option.map_eq_some_iff] at hb
    obtain ⟨d, hd, rfl⟩ := hb
    obtain ⟨htake, hdrawn⟩ := draw_get (scoreAt env mapBlockIndex nStakeModifierPrev)
      (sortedCandidates_nodup env hp)
      (fun n => late_of_sorted (sortedCandidates_sorted env p)
        (stopAfter env (nSelectionIntervalStart env p) (n + 1))) hn hd
    have hfind := ((sortedCandidates_indexed hp d hdrawn.mem).blockAt_candidate p).2
    constructor
    · rw [hbits, hd]
      simp [entropyAt, hfind]
    · rw [← List.map_take, selectedFor, selectedIn, htake]
      refine Drawn.rightPick hp ?_ hdrawn
      rw [← htake]
      exact fun c hc => hsub (List.mem_of_mem_take hc)

end Compute

/-- What two nodes have in common of a block's index entry, whatever order they received their
blocks in. -/
def stakeFields (p : CBlockIndex) : uint256 × UInt32 × UInt32 × UInt64 × uint256 :=
  (p.fields.phashBlock, p.fields.nTime, p.fields.nFlags, p.fields.nStakeModifier,
    p.fields.hashProofOfStake)

/-- The same blocks on the way back to the genesis block. -/
def SameAncestry (p q : CBlockIndex) : Prop :=
  p.ancestors.map stakeFields = q.ancestors.map stakeFields

section SameAncestry

variable {env : Env} {p q : CBlockIndex}

theorem ancestors_ne_nil (p : CBlockIndex) : p.ancestors ≠ [] :=
  List.ne_nil_of_mem (self_mem_ancestors p)

theorem SameAncestry.fields (h : SameAncestry p q) : stakeFields p = stakeFields q := by
  unfold SameAncestry at h
  cases p <;> cases q <;> exact (List.cons.inj h).1

theorem SameAncestry.parents {f g : BlockFields} (h : SameAncestry (.child f p) (.child g q)) :
    SameAncestry p q := (List.cons.inj h).2

theorem time_of_fields {a b : CBlockIndex} (h : stakeFields a = stakeFields b) :
    a.getBlockTime = b.getBlockTime := by
  simp only [stakeFields, Prod.mk.injEq] at h
  simp only [getBlockTime, h.2.1]

theorem generated_of_fields {a b : CBlockIndex} (h : stakeFields a = stakeFields b) :
    a.generatedStakeModifier = b.generatedStakeModifier := by
  simp only [stakeFields, Prod.mk.injEq] at h
  simp only [generatedStakeModifier, h.2.2.1]

theorem hash_of_fields {a b : CBlockIndex} (h : stakeFields a = stakeFields b) :
    a.getBlockHash = b.getBlockHash := congrArg Prod.fst h

theorem selectionHash_of_fields {a b : CBlockIndex} (h : stakeFields a = stakeFields b)
    (m : UInt64) : a.selectionHash env m = b.selectionHash env m := by
  simp only [stakeFields, Prod.mk.injEq] at h
  unfold selectionHash isProofOfStake getBlockHash
  rw [h.1, h.2.2.1, h.2.2.2.2]

theorem entropy_of_fields {a b : CBlockIndex} (h : stakeFields a = stakeFields b) :
    a.getStakeEntropyBit = b.getStakeEntropyBit := by
  simp only [stakeFields, Prod.mk.injEq] at h
  simp only [getStakeEntropyBit, h.2.2.1]

theorem SameAncestry.lastModifier : ∀ {p q : CBlockIndex}, SameAncestry p q →
    getLastStakeModifier p = getLastStakeModifier q
  | genesis f, genesis g, h => by
    have hf := h.fields
    have hgen := generated_of_fields hf
    simp only [stakeFields, CBlockIndex.fields, Prod.mk.injEq] at hf
    simp only [getLastStakeModifier, hgen, hf.2.1, hf.2.2.2.1]
  | genesis f, child g q, h => absurd (List.cons.inj h).2.symm (by simp [ancestors_ne_nil])
  | child f p, genesis g, h => absurd (List.cons.inj h).2 (by simp [ancestors_ne_nil])
  | child f p, child g q, h => by
    have hf := h.fields
    have hgen := generated_of_fields hf
    simp only [stakeFields, CBlockIndex.fields, Prod.mk.injEq] at hf
    simp only [getLastStakeModifier, hgen, hf.2.1, hf.2.2.2.1, h.parents.lastModifier]

theorem SameAncestry.start (h : SameAncestry p q) :
    nSelectionIntervalStart env p = nSelectionIntervalStart env q := by
  simp only [nSelectionIntervalStart, time_of_fields h.fields]

/-- Cutting the blocks off at a time cuts their candidates off. -/
theorem takeWhile_candidate (nStart : Int) (l : List CBlockIndex) :
    (l.takeWhile fun pindex => decide (nStart ≤ pindex.getBlockTime)).map candidate =
      (l.map candidate).takeWhile fun item => decide (nStart ≤ item.1) := by
  induction l with
  | nil => rfl
  | cons c l ih =>
    have hc : c.candidate.1 = c.getBlockTime := rfl
    by_cases h : nStart ≤ c.getBlockTime
    · simp [h, hc, ih]
    · simp [h, hc]

theorem SameAncestry.sortedCandidates (h : SameAncestry p q) :
    Triangles.sortedCandidates env p = Triangles.sortedCandidates env q := by
  have hmap : p.ancestors.map candidate = q.ancestors.map candidate := by
    have hfactor : candidate = (fun f => ((f.2.1.toNat : Int), f.1)) ∘ stakeFields := rfl
    rw [hfactor, ← List.map_map, ← List.map_map]
    exact congrArg _ h
  simp only [Triangles.sortedCandidates, candidates, takeWhile_candidate, hmap, h.start]

/-- Behind a candidate both indexes have blocks with the same fields. -/
theorem SameAncestry.find {mapBlockIndex mapBlockIndex' : BlockMap} (h : SameAncestry p q)
    (hp : mapBlockIndex.find p.getBlockHash = some p)
    (hq : mapBlockIndex'.find q.getBlockHash = some q) {item : Candidate}
    (hitem : item ∈ Triangles.sortedCandidates env p) :
    ∃ a b, mapBlockIndex.find item.2 = some a ∧ mapBlockIndex'.find item.2 = some b ∧
      stakeFields a = stakeFields b := by
  obtain ⟨a, ha, rfl⟩ := mem_sortedCandidates.mp hitem
  have hmem : stakeFields a ∈ q.ancestors.map stakeFields := by
    rw [← show p.ancestors.map stakeFields = q.ancestors.map stakeFields from h]
    exact List.mem_map_of_mem (candidates_subset ha)
  obtain ⟨b, hb, hfields⟩ := List.mem_map.mp hmem
  refine ⟨a, b, BlockMap.find_ancestor hp (candidates_subset ha), ?_, hfields.symm⟩
  have hfind := BlockMap.find_ancestor hq hb
  rwa [hash_of_fields hfields] at hfind

/-- The same candidates are selected, with the same bits. -/
theorem SameAncestry.bits {mapBlockIndex mapBlockIndex' : BlockMap} (h : SameAncestry p q)
    (hp : mapBlockIndex.find p.getBlockHash = some p)
    (hq : mapBlockIndex'.find q.getBlockHash = some q) (m : UInt64) (i : Nat) :
    ((selectedFor env mapBlockIndex m p)[i]?).any (entropyAt mapBlockIndex) =
      ((selectedFor env mapBlockIndex' m q)[i]?).any (entropyAt mapBlockIndex') := by
  have hscore : ∀ item ∈ Triangles.sortedCandidates env p,
      scoreAt env mapBlockIndex m item = scoreAt env mapBlockIndex' m item := by
    intro item hitem
    obtain ⟨a, b, ha, hb, hfields⟩ := h.find hp hq hitem
    simp [scoreAt, entryAt, ha, hb, selectionHash_of_fields hfields m]
  have hselected : selectedFor env mapBlockIndex m p = selectedFor env mapBlockIndex' m q := by
    rw [selectedFor, selectedFor, ← h.sortedCandidates, ← h.start]
    exact draw_congr hscore _
  rw [hselected]
  cases hd : (selectedFor env mapBlockIndex' m q)[i]? with
  | none => rfl
  | some d =>
    have hsub := (selectedIn_invariant env mapBlockIndex m (nSelectionIntervalStart env p)
      (sortedCandidates_nodup env hp) (sortedCandidates_sorted env p)
      (Nat.min_le_right 64 (Triangles.sortedCandidates env p).length)).2.2
    have hmem : d ∈ Triangles.sortedCandidates env p := by
      apply hsub
      change d ∈ selectedFor env mapBlockIndex m p
      rw [hselected]
      exact List.mem_of_getElem? hd
    obtain ⟨a, b, ha, hb, hfields⟩ := h.find hp hq hmem
    simp [entropyAt, ha, hb, entropy_of_fields hfields]

end SameAncestry

/-- In a tree whose genesis block generated a modifier `ComputeNextStakeModifier` succeeds, its
result is the same in every tree that has the same ancestry, and a new modifier is made
of the entropy bits of rightly picked blocks. -/
theorem next_stake_modifier_spec (env : Env) {mapBlockIndex : BlockMap}
    {pindexPrev : Option CBlockIndex}
    (hgen : ∀ {h f}, mapBlockIndex.find h = some (.genesis f) →
      (CBlockIndex.genesis f).generatedStakeModifier = true)
    (hmem : ∀ p ∈ pindexPrev, mapBlockIndex.find p.getBlockHash = some p) :
    ∃ nStakeModifier fGenerated,
      computeNextStakeModifier env mapBlockIndex pindexPrev = .ok (nStakeModifier, fGenerated) ∧
      (∀ (mapBlockIndex' : BlockMap) (pindexPrev' : Option CBlockIndex),
        (∀ q ∈ pindexPrev', mapBlockIndex'.find q.getBlockHash = some q) →
        Option.Rel SameAncestry pindexPrev pindexPrev' →
        computeNextStakeModifier env mapBlockIndex' pindexPrev' = .ok (nStakeModifier, fGenerated)) ∧
      (fGenerated = true → ∀ p ∈ pindexPrev, Selected env p nStakeModifier) := by
  cases pindexPrev with
  | none =>
    refine ⟨0, true, rfl, ?_, by simp⟩
    rintro map' _ _ ⟨⟩
    rfl
  | some p =>
    have hp := hmem p rfl
    obtain ⟨⟨nStakeModifierPrev, nModifierTime⟩, hlast⟩ := getLastStakeModifier_ok hgen hp
    by_cases hcur : stillCurrent env p nModifierTime
    · refine ⟨nStakeModifierPrev, false, compute_current hlast hcur, ?_, by simp⟩
      intro map' pindexPrev' hq hrel
      cases hrel with
      | some hsame =>
      refine compute_current (hsame.lastModifier ▸ hlast) ?_
      rwa [stillCurrent, ← time_of_fields hsame.fields]
    · obtain ⟨nStakeModifier, hnew, hbits⟩ := compute_new hp hlast hcur
      refine ⟨nStakeModifier, true, hnew, ?_, ?_⟩
      · intro map' pindexPrev' hq hrel
        cases hrel with
        | some hsame =>
        have hq := hq _ rfl
        obtain ⟨m, hm, hmbits⟩ := compute_new hq (hsame.lastModifier ▸ hlast)
          (by rwa [stillCurrent, ← time_of_fields hsame.fields])
        have heq : m = nStakeModifier := by
          apply UInt64.toNat_inj.mp
          apply Nat.eq_of_testBit_eq
          intro i
          rw [hmbits, hbits, hsame.bits hp hq]
        rw [hm, heq]
      · intro _ b hb
        cases hb
        exact selected_of_bits hp hlast hbits

namespace Sample

def mapOf (l : List CBlockIndex) (h : ∀ b ∈ l, ∀ p ∈ b.pprev,
    l.find? (fun q => q.getBlockHash == p.getBlockHash) = some p) : BlockMap where
  find hash := l.find? fun q => q.getBlockHash == hash
  hash_eq hf := by simpa using List.find?_some hf
  parent hf := h _ (List.mem_of_find?_eq_some hf) _ rfl

theorem mem_of_mapOf {l : List CBlockIndex} {h : ∀ b ∈ l, ∀ p ∈ b.pprev,
    l.find? (fun q => q.getBlockHash == p.getBlockHash) = some p} {hash : uint256} {b : CBlockIndex}
    (hb : (mapOf l h).find hash = some b) : b ∈ l :=
  List.mem_of_find?_eq_some hb

/-- Three blocks over a genesis block that generated a modifier; the last is two modifier
intervals later. -/
def oddGenesis : CBlockIndex :=
  .genesis { fieldsOf hashGenesisBlock 0 8 1 with nFlags := 4 }

def oddIndex : CBlockIndex :=
  .child { fieldsOf 101 101 1000 2 with nFlags := 2 } oddGenesis

def evenIndex : CBlockIndex := .child (fieldsOf 102 102 2000 3) oddIndex

def dueIndex : CBlockIndex :=
  .child { fieldsOf 701 701 3000 4 with nFlags := 2 } evenIndex

def dueMap : BlockMap := mapOf [oddGenesis, oddIndex, evenIndex, dueIndex] (by decide)

end Sample

theorem dueIndex_selects : ∃ nStakeModifier,
    computeNextStakeModifier (Sample.env []) Sample.dueMap (some Sample.dueIndex) =
      .ok (nStakeModifier, true) ∧ Selected (Sample.env []) Sample.dueIndex nStakeModifier := by
  have hroot : ∀ b ∈ [Sample.oddGenesis, Sample.oddIndex, Sample.evenIndex, Sample.dueIndex],
      b.pprev = none → b.generatedStakeModifier = true := by decide
  have hgen : ∀ {h f}, Sample.dueMap.find h = some (.genesis f) →
      (CBlockIndex.genesis f).generatedStakeModifier = true := by
    intro h f hf
    exact hroot _ (Sample.mem_of_mapOf hf) rfl
  have hmem : ∀ p ∈ some Sample.dueIndex, Sample.dueMap.find p.getBlockHash = some p := by
    rintro p ⟨⟩
    decide
  obtain ⟨m, g, hcompute, _, hselected⟩ :=
    next_stake_modifier_spec (Sample.env []) hgen hmem
  have hnew : (computeNextStakeModifier (Sample.env []) Sample.dueMap (some Sample.dueIndex)).map
      Prod.snd = .ok true := by decide
  rw [hcompute] at hnew
  cases hnew
  exact ⟨m, hcompute, hselected rfl _ rfl⟩

end Triangles
