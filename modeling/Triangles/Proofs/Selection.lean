import Triangles.Lib.Draw
import Triangles.Model.Kernel
import Triangles.Proofs.Chain

/-! The rounds of `ComputeNextStakeModifier` draw candidates from the sorted list, one a round,
without replacement. -/

namespace Triangles

open Outcome Draw CBlockIndex

namespace BlockMap

variable {mapBlockIndex : BlockMap}

theorem find_pprev {h : uint256} {p q : CBlockIndex} (hp : mapBlockIndex.find h = some p)
    (hq : p.pprev = some q) : mapBlockIndex.find q.getBlockHash = some q := by
  obtain ⟨f, rfl⟩ := pprev_eq_some hq
  exact mapBlockIndex.parent hp

/-- The index has the ancestors of every block it has. -/
theorem find_ancestor {p a : CBlockIndex} (hp : mapBlockIndex.find p.getBlockHash = some p)
    (ha : a ∈ p.ancestors) : mapBlockIndex.find a.getBlockHash = some a := by
  induction p with
  | genesis f =>
    rw [List.mem_singleton.mp ha]
    exact hp
  | child f p ih =>
    rcases List.mem_cons.mp ha with rfl | ha
    · exact hp
    · exact ih (mapBlockIndex.parent hp) ha

theorem ancestor_hash_inj {p a b : CBlockIndex} (hp : mapBlockIndex.find p.getBlockHash = some p)
    (ha : a ∈ p.ancestors) (hb : b ∈ p.ancestors) (h : a.getBlockHash = b.getBlockHash) : a = b := by
  have hfa := find_ancestor hp ha
  rw [h, find_ancestor hp hb] at hfa
  exact (Option.some.inj hfa).symm

end BlockMap

section Select

variable {env : Env} {mapBlockIndex : BlockMap} {nStop : Int} {nStakeModifierPrev : UInt64}

def entryAt (env : Env) (mapBlockIndex : BlockMap) (nStakeModifierPrev : UInt64)
    (item : Candidate) : Option (CBlockIndex × uint256) :=
  (mapBlockIndex.find item.2).map fun p => (p, p.selectionHash env nStakeModifierPrev)

def scoreAt (env : Env) (mapBlockIndex : BlockMap) (nStakeModifierPrev : UInt64)
    (item : Candidate) : uint256 :=
  ((entryAt env mapBlockIndex nStakeModifierPrev item).map Prod.snd).getD 0

/-- The candidate stands for an indexed block. -/
def Indexed (mapBlockIndex : BlockMap) (item : Candidate) : Prop :=
  ∃ p, mapBlockIndex.find item.2 = some p ∧ p.candidate = item

def isLate (nStop : Int) (item : Candidate) : Bool := decide (nStop < item.1)

theorem isLate_iff {nStop : Int} {item : Candidate} : isLate nStop item = true ↔ nStop < item.1 :=
  decide_eq_true_iff

theorem not_isLate_iff {nStop : Int} {item : Candidate} :
    isLate nStop item = false ↔ item.1 ≤ nStop :=
  decide_eq_false_iff_not.trans not_lt

theorem Indexed.entry {item : Candidate} (h : Indexed mapBlockIndex item) (env : Env)
    (nStakeModifierPrev : UInt64) :
    ∃ p, mapBlockIndex.find item.2 = some p ∧ p.getBlockTime = item.1 ∧ p.getBlockHash = item.2 ∧
      entryAt env mapBlockIndex nStakeModifierPrev item =
        some (p, scoreAt env mapBlockIndex nStakeModifierPrev item) ∧
      scoreAt env mapBlockIndex nStakeModifierPrev item = p.selectionHash env nStakeModifierPrev := by
  obtain ⟨p, hf, rfl⟩ := h
  refine ⟨p, hf, rfl, rfl, ?_, ?_⟩
  · simp [entryAt, scoreAt, hf]
  · simp [scoreAt, entryAt, hf]

/-- `SelectBlockFromCandidates` draws a candidate. -/
theorem selectFrom_eq {mapSelectedBlocks : SelectedBlocks} {taken l : List Candidate}
    (best : Option Candidate) (hl : ∀ item ∈ l, Indexed mapBlockIndex item)
    (ht : ∀ item ∈ l, item.2 ∈ mapSelectedBlocks ↔ item ∈ taken)
    (hbest : ∀ item ∈ best, Indexed mapBlockIndex item) :
    selectFrom env mapBlockIndex mapSelectedBlocks nStop nStakeModifierPrev l
        (best.bind (entryAt env mapBlockIndex nStakeModifierPrev)) =
      .ok ((pick (isLate nStop) (scoreAt env mapBlockIndex nStakeModifierPrev) taken l best).bind
        (entryAt env mapBlockIndex nStakeModifierPrev)) := by
  induction l generalizing best with
  | nil => rfl
  | cons item l ih =>
    have hitem := hl item List.mem_cons_self
    obtain ⟨p, hf, htime, hhash, hentry, hscore⟩ := hitem.entry env nStakeModifierPrev
    have hrest := fun c hc => hl c (List.mem_cons_of_mem item hc)
    have htrest := fun c hc => ht c (List.mem_cons_of_mem item hc)
    unfold selectFrom pick
    simp only [hf, htime, hhash, ht item List.mem_cons_self, isLate]
    cases best with
    | none =>
      simp only [Option.bind_none, Option.isSome_none, Bool.false_and, Bool.false_eq_true,
        ↓reduceIte]
      split
      · exact ih none hrest htrest (by simp)
      · rw [← hscore, ← hentry]
        exact ih (some item) hrest htrest (by simpa using hitem)
    | some c =>
      obtain ⟨q, _, _, _, hentryc, _⟩ := (hbest c rfl).entry env nStakeModifierPrev
      simp only [Option.bind_some, hentryc, Option.isSome_some, Bool.true_and, decide_eq_true_eq]
      split
      · simp [hentryc]
      · split
        · rw [← hentryc]
          exact ih (some c) hrest htrest hbest
        · rw [← hscore]
          split
          · rw [← hentry]
            exact ih (some item) hrest htrest (by simpa using hitem)
          · rw [← hentryc]
            exact ih (some c) hrest htrest hbest

theorem selectBlockFromCandidates_ok {mapSelectedBlocks : SelectedBlocks} {taken l : List Candidate}
    (hl : ∀ item ∈ l, Indexed mapBlockIndex item)
    (ht : ∀ item ∈ l, item.2 ∈ mapSelectedBlocks ↔ item ∈ taken) {d : Candidate} {p : CBlockIndex}
    (hd : pick (isLate nStop) (scoreAt env mapBlockIndex nStakeModifierPrev) taken l none = some d)
    (hp : mapBlockIndex.find d.2 = some p) :
    selectBlockFromCandidates env mapBlockIndex l mapSelectedBlocks nStop nStakeModifierPrev =
      .ok p := by
  have h : selectFrom env mapBlockIndex mapSelectedBlocks nStop nStakeModifierPrev l none =
      .ok ((some d).bind (entryAt env mapBlockIndex nStakeModifierPrev)) :=
    (selectFrom_eq none hl ht (by simp)).trans (by rw [hd])
  simp only [selectBlockFromCandidates, h, entryAt, Option.bind_some, hp, Option.map_some]
  rfl

end Select

section Rounds

variable (env : Env) (mapBlockIndex : BlockMap) (nStakeModifierPrev : UInt64) (nStart : Int)

def stopAfter (rounds : Nat) : Int :=
  nStart + ((List.range rounds).map (getStakeModifierSelectionIntervalSection env)).sum

def selectedIn (l : List Candidate) (rounds : Nat) : List Candidate :=
  draw (fun n => isLate (stopAfter env nStart (n + 1)))
    (scoreAt env mapBlockIndex nStakeModifierPrev) l rounds

def entropyAt (item : Candidate) : Bool :=
  (mapBlockIndex.find item.2).any fun p => p.getStakeEntropyBit != 0

end Rounds

/-- Writing one more bit above the ones there. -/
theorem testBit_write (m : UInt64) {e : UInt32} (he : e = 0 ∨ e = 1) {n : Nat} (hn : n < 64) (i : Nat) :
    (m ||| (e.toUInt64 <<< UInt64.ofNat n)).toNat.testBit i =
      (m.toNat.testBit i || (decide (i = n) && e != 0)) := by
  have hshift : (UInt64.ofNat n).toNat % 64 = n := by
    rw [UInt64.toNat_ofNat']
    omega
  rw [UInt64.toNat_or, Nat.testBit_or, UInt64.toNat_shiftLeft, Nat.testBit_mod_two_pow,
    Nat.testBit_shiftLeft, hshift]
  congr 1
  rcases he with rfl | rfl
  · simp
  · have hone : (1 : UInt32).toUInt64.toNat = 1 := rfl
    rw [hone]
    by_cases hi : i = n
    · subst hi
      simp [hn]
    · by_cases hge : n ≤ i
      · have hzero : Nat.testBit 1 (i - n) = false := by
          rw [← Bool.not_eq_true, Nat.testBit_one_eq_true_iff_self_eq_zero]
          omega
        simp [hi, hzero]
      · simp [hi, hge]

theorem entropyBit_cases (p : CBlockIndex) : p.getStakeEntropyBit = 0 ∨ p.getStakeEntropyBit = 1 := by
  have hle : p.getStakeEntropyBit.toNat ≤ 1 := by
    unfold getStakeEntropyBit
    have hand : p.fields.nFlags.toNat &&& 2 ≤ 2 := Nat.and_le_right
    have hshift : (1 : UInt32).toNat % 32 = 1 := rfl
    rw [UInt32.toNat_shiftRight, UInt32.toNat_and, hshift, Nat.shiftRight_one]
    exact Nat.div_le_of_le_mul hand
  rcases Nat.le_one_iff_eq_zero_or_eq_one.mp hle with h | h
  · exact .inl (UInt32.toNat_inj.mp h)
  · exact .inr (UInt32.toNat_inj.mp h)

section Rounds

variable {env : Env} {mapBlockIndex : BlockMap} {nStakeModifierPrev : UInt64} {nStart : Int}
  {l : List Candidate}

theorem Candidate.le_time {a b : Candidate} (h : a.le b) : a.1 ≤ b.1 := by
  rcases h with h | h
  · exact h.le
  · exact h.1.le

/-- Once a candidate of the sorted list is late, the rest is. -/
theorem late_of_sorted (hs : l.Pairwise Candidate.le) (nStop : Int) :
    l.Pairwise fun a c => isLate nStop a = true → isLate nStop c = true := by
  apply hs.imp
  intro a c hac
  rw [isLate_iff, isLate_iff]
  exact fun ha => lt_of_lt_of_le ha (Candidate.le_time hac)

theorem Indexed.eq_of_hash {a b : Candidate} (ha : Indexed mapBlockIndex a)
    (hb : Indexed mapBlockIndex b) (h : a.2 = b.2) : a = b := by
  obtain ⟨p, hp, rfl⟩ := ha
  obtain ⟨q, hq, rfl⟩ := hb
  rw [h, hq] at hp
  rw [Option.some.inj hp]

/-- What holds after some rounds of `ComputeNextStakeModifier`. -/
structure AfterRounds (env : Env) (mapBlockIndex : BlockMap) (nStakeModifierPrev : UInt64)
    (nStart : Int) (l : List Candidate) (rounds : Nat) (acc : ModifierAcc) : Prop where
  stop : acc.nSelectionIntervalStop = stopAfter env nStart rounds
  selected : ∀ h, h ∈ acc.mapSelectedBlocks ↔
    ∃ d ∈ selectedIn env mapBlockIndex nStakeModifierPrev nStart l rounds, d.2 = h
  bits : ∀ i, acc.nStakeModifierNew.toNat.testBit i =
    ((selectedIn env mapBlockIndex nStakeModifierPrev nStart l rounds)[i]?).any
      (entropyAt mapBlockIndex)

section Draws

variable (env : Env) (mapBlockIndex : BlockMap) (nStakeModifierPrev : UInt64) (nStart : Int)

theorem selectedIn_invariant (hd : l.Nodup) (hs : l.Pairwise Candidate.le) {n : Nat}
    (hn : n ≤ l.length) :
    (selectedIn env mapBlockIndex nStakeModifierPrev nStart l n).length = n ∧
      (selectedIn env mapBlockIndex nStakeModifierPrev nStart l n).Nodup ∧
      selectedIn env mapBlockIndex nStakeModifierPrev nStart l n ⊆ l :=
  draw_invariant _ hd (fun n => late_of_sorted hs (stopAfter env nStart (n + 1))) hn

theorem selectedIn_succ (hd : l.Nodup) (hs : l.Pairwise Candidate.le) {n : Nat}
    (hn : n < l.length) :
    ∃ d, pick (isLate (stopAfter env nStart (n + 1))) (scoreAt env mapBlockIndex nStakeModifierPrev)
        (selectedIn env mapBlockIndex nStakeModifierPrev nStart l n) l none = some d ∧
      selectedIn env mapBlockIndex nStakeModifierPrev nStart l (n + 1) =
        selectedIn env mapBlockIndex nStakeModifierPrev nStart l n ++ [d] ∧ d ∈ l := by
  obtain ⟨d, hpick, hsucc, hdrawn⟩ := draw_succ (scoreAt env mapBlockIndex nStakeModifierPrev) hd
    (fun n => late_of_sorted hs (stopAfter env nStart (n + 1))) hn
  exact ⟨d, hpick, hsucc, hdrawn.mem⟩

end Draws

theorem stopAfter_succ (env : Env) (nStart : Int) (n : Nat) :
    stopAfter env nStart (n + 1) =
      stopAfter env nStart n + getStakeModifierSelectionIntervalSection env n := by
  simp only [stopAfter, List.range_succ, List.map_append, List.map_singleton, List.sum_append,
    List.sum_singleton]
  omega

theorem modifierRound_ok (hl : ∀ item ∈ l, Indexed mapBlockIndex item) (hd : l.Nodup)
    (hs : l.Pairwise Candidate.le) {n : Nat} (hn : n < l.length) (h64 : n < 64) {acc : ModifierAcc}
    (h : AfterRounds env mapBlockIndex nStakeModifierPrev nStart l n acc) :
    ∃ acc', modifierRound env mapBlockIndex l nStakeModifierPrev acc n = .ok acc' ∧
      AfterRounds env mapBlockIndex nStakeModifierPrev nStart l (n + 1) acc' := by
  obtain ⟨hlen, _, hsub⟩ :=
    selectedIn_invariant env mapBlockIndex nStakeModifierPrev nStart hd hs (Nat.le_of_lt hn)
  obtain ⟨d, hpick, hsucc, hmem⟩ :=
    selectedIn_succ env mapBlockIndex nStakeModifierPrev nStart hd hs hn
  obtain ⟨p, hfind, hcand⟩ := hl d hmem
  have hhash : p.getBlockHash = d.2 := by
    rw [← hcand]
    rfl
  have htaken : ∀ item ∈ l, item.2 ∈ acc.mapSelectedBlocks ↔
      item ∈ selectedIn env mapBlockIndex nStakeModifierPrev nStart l n := by
    intro item hitem
    rw [h.selected]
    constructor
    · intro h
      obtain ⟨c, hc, hh⟩ := h
      rwa [← (hl c (hsub hc)).eq_of_hash (hl item hitem) hh]
    · exact fun hm => ⟨item, hm, rfl⟩
  have hselect := selectBlockFromCandidates_ok hl htaken hpick hfind
  refine ⟨⟨acc.nStakeModifierNew ||| (p.getStakeEntropyBit.toUInt64 <<< UInt64.ofNat n),
    stopAfter env nStart (n + 1), acc.mapSelectedBlocks.insert p.getBlockHash p⟩, ?_, rfl, ?_, ?_⟩
  · simp only [modifierRound, h.stop, ← stopAfter_succ, hselect]
  · intro k
    simp only [AList.mem_insert, h.selected, hhash, hsucc, List.mem_append, List.mem_singleton,
      or_and_right, exists_or, exists_eq_left]
    rw [or_comm, eq_comm]
  · intro i
    rw [testBit_write _ (entropyBit_cases p) h64, h.bits, hsucc]
    rcases Nat.lt_trichotomy i n with hi | rfl | hi
    · rw [List.getElem?_append_left (hlen.symm ▸ hi)]
      simp [hi.ne]
    · rw [List.getElem?_append_right hlen.le, hlen]
      simp [List.getElem?_eq_none hlen.le, entropyAt, hfind]
    · rw [List.getElem?_eq_none (by omega), List.getElem?_eq_none (by simp; omega)]
      simp [hi.ne']

/-- All rounds succeed while candidates are left. -/
theorem rounds_ok (hl : ∀ item ∈ l, Indexed mapBlockIndex item) (hd : l.Nodup)
    (hs : l.Pairwise Candidate.le) {n : Nat} (hn : n ≤ l.length) (h64 : n ≤ 64) :
    ∃ acc, (List.range n).foldlM (modifierRound env mapBlockIndex l nStakeModifierPrev)
        { nSelectionIntervalStop := nStart } = .ok acc ∧
      AfterRounds env mapBlockIndex nStakeModifierPrev nStart l n acc := by
  induction n with
  | zero =>
    refine ⟨_, rfl, ?_, ?_, ?_⟩
    · simp [stopAfter]
    · intro h
      simp [selectedIn, draw]
    · intro i
      simp [selectedIn, draw]
  | succ n ih =>
    obtain ⟨acc, hacc, hafter⟩ := ih (Nat.le_of_lt hn) (Nat.le_of_lt h64)
    obtain ⟨acc', hround, hafter'⟩ := modifierRound_ok hl hd hs hn h64 hafter
    refine ⟨acc', ?_, hafter'⟩
    rw [List.range_succ, List.foldlM_append, hacc]
    simp [bind, Except.bind, hround, pure, Except.pure]

end Rounds

instance : Std.Total Candidate.le where
  total a b := by
    rcases lt_trichotomy a.1 b.1 with h | h | h
    · exact .inl (.inl h)
    · exact (Nat.le_total a.2 b.2).imp (fun hle => .inr ⟨h, hle⟩) (fun hle => .inr ⟨h.symm, hle⟩)
    · exact .inr (.inl h)

instance : IsTrans Candidate Candidate.le where
  trans a b c hab hbc := by
    rcases hab with hab | ⟨hab, hle⟩ <;> rcases hbc with hbc | ⟨hbc, hle'⟩
    · exact .inl (hab.trans hbc)
    · exact .inl (hbc ▸ hab)
    · exact .inl (hab ▸ hbc)
    · exact .inr ⟨hab.trans hbc, Nat.le_trans hle hle'⟩

section Candidates

variable {env : Env} {mapBlockIndex : BlockMap} {p : CBlockIndex}

theorem ancestors_nodup (p : CBlockIndex) : p.ancestors.Nodup := by
  induction p with
  | genesis f => exact List.nodup_singleton _
  | child f p ih => exact List.nodup_cons.mpr ⟨child_not_ancestor, ih⟩

theorem candidates_subset : candidates env p ⊆ p.ancestors := List.takeWhile_subset _

theorem sortedCandidates_perm (env : Env) (p : CBlockIndex) :
    (sortedCandidates env p).Perm ((candidates env p).map CBlockIndex.candidate) :=
  (List.perm_insertionSort _ _).trans (List.reverse_perm _)

theorem sortedCandidates_sorted (env : Env) (p : CBlockIndex) :
    (sortedCandidates env p).Pairwise Candidate.le := List.pairwise_insertionSort _ _

theorem mem_sortedCandidates {item : Candidate} :
    item ∈ sortedCandidates env p ↔ ∃ c ∈ candidates env p, c.candidate = item := by
  rw [(sortedCandidates_perm env p).mem_iff, List.mem_map]

theorem sortedCandidates_indexed (hp : mapBlockIndex.find p.getBlockHash = some p) :
    ∀ item ∈ sortedCandidates env p, Indexed mapBlockIndex item := by
  intro item hitem
  obtain ⟨c, hc, rfl⟩ := mem_sortedCandidates.mp hitem
  exact ⟨c, BlockMap.find_ancestor hp (candidates_subset hc), rfl⟩

theorem sortedCandidates_nodup (env : Env) (hp : mapBlockIndex.find p.getBlockHash = some p) :
    (sortedCandidates env p).Nodup := by
  rw [(sortedCandidates_perm env p).nodup_iff]
  refine (List.Nodup.sublist (List.takeWhile_sublist _) (ancestors_nodup p)).map_on ?_
  intro a ha b hb hab
  exact BlockMap.ancestor_hash_inj hp (candidates_subset ha) (candidates_subset hb)
    (congrArg Prod.snd hab)

theorem getLastStakeModifier_ok
    (hgen : ∀ {h f}, mapBlockIndex.find h = some (.genesis f) →
      (CBlockIndex.genesis f).generatedStakeModifier = true)
    (hp : mapBlockIndex.find p.getBlockHash = some p) :
    ∃ last, getLastStakeModifier p = .ok last := by
  induction p with
  | genesis f => exact ⟨_, by rw [getLastStakeModifier, if_pos (hgen hp)]⟩
  | child f p ih =>
    unfold getLastStakeModifier
    split
    · exact ⟨_, rfl⟩
    · exact ih (mapBlockIndex.parent hp)

end Candidates

end Triangles
