import Triangles.Lib.Lineage
import Triangles.Model.Locator
import Triangles.Proofs.Coherence
import Triangles.Proofs.StakeModifier

/-! Block locators: the block they lead back to, and how far it is. -/

namespace Triangles

open CBlockIndex CBlockLocator StepBack

/-- The index is one tree over the genesis block, and the main chain is the way to the best block. -/
structure IndexTree (mapBlockIndex : BlockMap) (s : State) : Prop where
  genesis : ∀ {h f}, mapBlockIndex.find h = some (.genesis f) → h = hashGenesisBlock
  best : ∃ p, s.pindexBest = some p ∧ mapBlockIndex.find p.getBlockHash = some p
  main : ∀ b, s.isInMainChain b = true ↔ ∃ p, s.pindexBest = some p ∧ b ∈ p.ancestors

/-- A settled node has such an index, when it holds the blocks of the tree. -/
theorem Settled.indexTree {env : Env} {T : BlockTree env} {mapBlockIndex : BlockMap} {s : State}
    (h : Settled T s)
    (hmap : ∀ hash p, mapBlockIndex.find hash = some p ↔ T.mem p ∧ p.getBlockHash = hash) :
    IndexTree mapBlockIndex s where
  genesis := by
    intro hash f hfind
    obtain ⟨hmem, hhash⟩ := (hmap hash (.genesis f)).mp hfind
    rw [← hhash]
    exact (T.genesis_hash hmem).mpr ⟨f, rfl⟩
  best := by
    obtain ⟨p, hp, hmem, _⟩ := h
    exact ⟨p, hp, (hmap _ p).mpr ⟨hmem, rfl⟩⟩
  main := h.coherent.main

section StepsBack

variable {b : CBlockIndex}

theorem stepsBack_none (i : Nat) : stepsBack i none = none := by
  cases i <;> rfl

theorem stepsBack_add (i j : Nat) (p : Option CBlockIndex) :
    stepsBack (i + j) p = stepsBack j (stepsBack i p) := by
  induction i generalizing p with
  | zero => rw [Nat.zero_add, stepsBack]
  | succ i ih =>
    rw [Nat.succ_add]
    cases p with
    | none => rw [stepsBack, stepsBack, stepsBack_none]
    | some p =>
      rw [stepsBack, stepsBack]
      exact ih p.pprev

/-- The way back goes through the ancestors, one height at a time. -/
theorem stepsBack_some {i : Nat} {p : CBlockIndex} (h : stepsBack i (some b) = some p) :
    p ∈ b.ancestors ∧ p.nHeight + i = b.nHeight := by
  induction i generalizing b with
  | zero =>
    cases h
    exact ⟨self_mem_ancestors _, rfl⟩
  | succ i ih =>
    cases b with
    | genesis f => rw [stepsBack, pprev, stepsBack_none] at h; cases h
    | child f q =>
      obtain ⟨hmem, hheight⟩ := ih h
      refine ⟨List.mem_cons_of_mem _ hmem, ?_⟩
      rw [nHeight]
      omega

theorem stepsBack_ancestor {a : CBlockIndex} (h : a ∈ b.ancestors) :
    stepsBack (b.nHeight - a.nHeight) (some b) = some a := by
  induction b with
  | genesis f =>
    rw [List.mem_singleton.mp h, Nat.sub_self]
    rfl
  | child f q ih =>
    rcases List.mem_cons.mp h with rfl | hq
    · rw [Nat.sub_self]
      rfl
    · have hle := mem_ancestors_height hq
      rw [nHeight, Nat.succ_sub hle, stepsBack]
      exact ih hq

theorem exists_stepsBack {i : Nat} (h : i ≤ b.nHeight) : ∃ p, stepsBack i (some b) = some p := by
  induction i generalizing b with
  | zero => exact ⟨b, rfl⟩
  | succ i ih =>
    cases b with
    | genesis f => exact absurd h (Nat.not_succ_le_zero i)
    | child f q => exact ih (Nat.le_of_succ_le_succ h)

theorem exists_root (b : CBlockIndex) : ∃ f, .genesis f ∈ b.ancestors := by
  induction b with
  | genesis f => exact ⟨f, List.mem_singleton.mpr rfl⟩
  | child f q ih =>
    obtain ⟨f', hf'⟩ := ih
    exact ⟨f', List.mem_cons_of_mem _ hf'⟩

/-- Blocks on the way back are ancestors of those before them. -/
theorem stepsBack_below {i j : Nat} {p q : CBlockIndex} (hij : i ≤ j)
    (hp : stepsBack i (some b) = some p) (hq : stepsBack j (some b) = some q) :
    q ∈ p.ancestors := by
  rw [← Nat.add_sub_cancel' hij, stepsBack_add, hp] at hq
  exact (stepsBack_some hq).1

end StepsBack

/-- The entries of a locator from place `k` on. -/
inductive Entries (b : CBlockIndex) : Nat → List uint256 → Prop
  | stop {k : Nat} (hplace : stepsBack (place 10 k) (some b) = none) : Entries b k []
  | entry {k : Nat} {p : CBlockIndex} {vHave : List uint256}
      (hplace : stepsBack (place 10 k) (some b) = some p) (hrest : Entries b (k + 1) vHave) :
      Entries b k (p.getBlockHash :: vHave)

/-- The loop of `Set` at place `k`, which it counts by the hashes it has. -/
theorem setLoop_entries {b : CBlockIndex} {fuel k : Nat} {vHave : List uint256}
    (hlen : vHave.length = k) (hfuel : b.nHeight < place 10 k + fuel) :
    ∃ l, setLoop fuel (stepsBack (place 10 k) (some b)) (step 10 k) vHave = vHave ++ l ∧
      Entries b k l := by
  induction fuel generalizing k vHave with
  | zero =>
    refine ⟨[], (List.append_nil _).symm, .stop ?_⟩
    cases hplace : stepsBack (place 10 k) (some b) with
    | none => rfl
    | some p =>
      have hheight := (stepsBack_some hplace).2
      omega
  | succ fuel ih =>
    cases hplace : stepsBack (place 10 k) (some b) with
    | none => exact ⟨[], (List.append_nil _).symm, .stop hplace⟩
    | some p =>
      have hlen' : (vHave ++ [p.getBlockHash]).length = k + 1 := by
        rw [List.length_append, hlen, List.length_singleton]
      have hpos := step_pos 10 k
      obtain ⟨l, hset, hentries⟩ := ih hlen' (by rw [place]; omega)
      refine ⟨p.getBlockHash :: l, ?_, .entry hplace hentries⟩
      rw [setLoop, hlen', ← step_succ, ← hplace, ← stepsBack_add]
      rw [place] at hset
      rw [hset, List.append_assoc, List.singleton_append]

theorem set_entries (b : CBlockIndex) :
    ∃ l, CBlockLocator.set b = l ++ [hashGenesisBlock] ∧ Entries b 0 l := by
  have hfuel : b.nHeight < place 10 0 + (b.nHeight + 1) := by
    rw [place]
    omega
  obtain ⟨l, hset, hentries⟩ := setLoop_entries (@List.length_nil uint256) hfuel
  exact ⟨l, congrArg (· ++ [hashGenesisBlock]) hset, hentries⟩

section Readers

variable {mapBlockIndex : BlockMap} {s : State} {b : CBlockIndex}

theorem inMainChain_ancestor {a : CBlockIndex} (hb : mapBlockIndex.find b.getBlockHash = some b)
    (ha : a ∈ b.ancestors) : inMainChain mapBlockIndex s a.getBlockHash = s.isInMainChain a := by
  rw [inMainChain, BlockMap.find_ancestor hb ha]

/-- What the readers of a locator find in the entries from place `k` on, before the last one. -/
inductive Found (mapBlockIndex : BlockMap) (s : State) (b : CBlockIndex) (k : Nat)
    (l rest : List uint256) : Prop
  | at (j : Nat) (p : CBlockIndex) (hplace : stepsBack (place 10 j) (some b) = some p)
      (hmain : s.isInMainChain p = true)
      (hfirst : ∀ i, k ≤ i → i < j → ∀ q, stepsBack (place 10 i) (some b) = some q →
        s.isInMainChain q = false)
      (hindex : getBlockIndex mapBlockIndex s (l ++ rest) = some p)
      (hdist : distanceLoop mapBlockIndex s (l ++ rest) (place 10 k) (step 10 k) = place 10 j)
  | nowhere (hnone : ∀ hash ∈ l, inMainChain mapBlockIndex s hash = false)
      (hplaces : ∀ i, k ≤ i → ∀ q, stepsBack (place 10 i) (some b) = some q →
        s.isInMainChain q = false)
      (hindex : getBlockIndex mapBlockIndex s (l ++ rest) = getBlockIndex mapBlockIndex s rest)

theorem Entries.found (hb : mapBlockIndex.find b.getBlockHash = some b) {k : Nat}
    {l : List uint256} (h : Entries b k l) (rest : List uint256) :
    Found mapBlockIndex s b k l rest := by
  induction h with
  | @stop k hplace =>
    refine .nowhere (by simp) ?_ rfl
    intro i hi q hq
    rw [← Nat.add_sub_cancel' ((place_strictMono 10).monotone hi), stepsBack_add, hplace,
      stepsBack_none] at hq
    cases hq
  | @entry k p vHave hplace _ ih =>
    have hp := (stepsBack_some hplace).1
    have hread := inMainChain_ancestor (s := s) hb hp
    cases hmain : s.isInMainChain p with
    | true =>
      rw [hmain] at hread
      refine .at k p hplace hmain (fun i hki hik => absurd hik (not_lt.mpr hki)) ?_ ?_
      · rw [List.cons_append, getBlockIndex, if_pos hread]
        exact BlockMap.find_ancestor hb hp
      · rw [List.cons_append, distanceLoop, if_pos hread]
    | false =>
      rw [hmain] at hread
      have hindex : getBlockIndex mapBlockIndex s (p.getBlockHash :: vHave ++ rest) =
          getBlockIndex mapBlockIndex s (vHave ++ rest) := by
        rw [List.cons_append, getBlockIndex, hread]
        rfl
      have hdist : distanceLoop mapBlockIndex s (p.getBlockHash :: vHave ++ rest) (place 10 k)
          (step 10 k) = distanceLoop mapBlockIndex s (vHave ++ rest) (place 10 (k + 1))
            (step 10 (k + 1)) := by
        rw [List.cons_append, distanceLoop, hread, step_succ]
        -- both counters pass 10 at the same place
        simp only [← lt_place_iff 10 (k + 1)]
        rfl
      -- what was not seen from the next place on was not seen here either
      have hhere : ∀ q, stepsBack (place 10 k) (some b) = some q → s.isInMainChain q = false := by
        intro q hq
        rw [hplace] at hq
        cases hq
        exact hmain
      cases ih with
      | «at» j q hq hqmain hfirst hqindex hqdist =>
        refine .at j q hq hqmain ?_ (hindex.trans hqindex) (hdist.trans hqdist)
        intro i hki hij
        rcases Nat.eq_or_lt_of_le hki with rfl | hlt
        · exact hhere
        · exact hfirst i hlt hij
      | nowhere hnone hplaces hqindex =>
        refine .nowhere ?_ ?_ (hindex.trans hqindex)
        · intro hash hhash
          rcases List.mem_cons.mp hhash with rfl | htail
          · exact hread
          · exact hnone hash htail
        · intro i hki
          rcases Nat.eq_or_lt_of_le hki with rfl | hlt
          · exact hhere
          · exact hplaces i hlt

/-- The last entry of a locator is the genesis block, from which every chain starts. -/
theorem IndexTree.last (tree : IndexTree mapBlockIndex s)
    (hb : mapBlockIndex.find b.getBlockHash = some b) :
    ∃ g ∈ b.ancestors, g.getBlockHash = hashGenesisBlock ∧ s.isInMainChain g = true ∧
      getBlockIndex mapBlockIndex s [hashGenesisBlock] = some g := by
  obtain ⟨p, hp, hfind⟩ := tree.best
  obtain ⟨f, hf⟩ := exists_root b
  obtain ⟨f', hf'⟩ := exists_root p
  have hroot := BlockMap.find_ancestor hb hf
  have hroot' := BlockMap.find_ancestor hfind hf'
  have hsame := tree.genesis hroot
  rw [hsame] at hroot
  rw [tree.genesis hroot', hroot] at hroot'
  cases hroot'
  have hmain := (tree.main (.genesis f)).mpr ⟨p, hp, hf'⟩
  refine ⟨.genesis f, hf, hsame, hmain, ?_⟩
  have hread : inMainChain mapBlockIndex s hashGenesisBlock = true := by
    rw [inMainChain, hroot]
    exact hmain
  rw [getBlockIndex, if_pos hread, hroot]

/-- Below a block of the main chain all are in it. -/
theorem IndexTree.main_below (tree : IndexTree mapBlockIndex s) {a c : CBlockIndex}
    (ha : s.isInMainChain a = true) (hc : c ∈ a.ancestors) : s.isInMainChain c = true := by
  obtain ⟨p, hp, hmem⟩ := (tree.main a).mp ha
  exact (tree.main c).mpr ⟨p, hp, ancestors_trans hmem hc⟩

end Readers

/-- A locator of a block leads back to an ancestor in the main chain, at most twice as far as the
highest one unless it is the genesis block, and the distance of an entry is that of its block. -/
theorem locator_leads_back {mapBlockIndex : BlockMap} {s : State}
    (tree : IndexTree mapBlockIndex s) {b : CBlockIndex}
    (hb : mapBlockIndex.find b.getBlockHash = some b) :
    ∃ p, getBlockIndex mapBlockIndex s (CBlockLocator.set b) = some p ∧ p ∈ b.ancestors ∧
      s.isInMainChain p = true ∧
      (∀ a ∈ b.ancestors, s.isInMainChain a = true →
        b.nHeight - p.nHeight ≤ 2 * (b.nHeight - a.nHeight) ∨ p.getBlockHash = hashGenesisBlock) ∧
      ((∃ hash ∈ (CBlockLocator.set b).dropLast, inMainChain mapBlockIndex s hash = true) →
        getDistanceBack mapBlockIndex s (CBlockLocator.set b) = b.nHeight - p.nHeight) := by
  obtain ⟨l, hset, hentries⟩ := set_entries b
  rw [hset, List.dropLast_concat]
  cases hentries.found hb [hashGenesisBlock] (s := s) with
  | «at» j p hplace hmain hfirst hindex hdist =>
    obtain ⟨hmem, hheight⟩ := stepsBack_some hplace
    refine ⟨p, hindex, hmem, hmain, fun a ha hamain => .inl ?_, fun _ => ?_⟩
    · -- the first place from the distance of `a` on holds an ancestor of `a`, if any
      obtain ⟨i, hfrom, hto⟩ := exists_place 10 (b.nHeight - a.nHeight)
      have hji : place 10 j ≤ place 10 i := by
        by_contra hlt
        have hij := (place_strictMono 10).lt_iff_lt.mp (not_le.mp hlt)
        obtain ⟨q, hq⟩ := exists_stepsBack (b := b) (i := place 10 i) (by omega)
        have hqmem := stepsBack_below hfrom (stepsBack_ancestor ha) hq
        have hqmain := tree.main_below hamain hqmem
        rw [hfirst i (Nat.zero_le i) hij q hq] at hqmain
        cases hqmain
      omega
    · rw [getDistanceBack]
      have hzero : distanceLoop mapBlockIndex s (l ++ [hashGenesisBlock]) 0 1 = place 10 j := hdist
      omega
  | nowhere hnone hplaces hindex =>
    obtain ⟨g, hg, hhash, hmain, hlast⟩ := tree.last hb
    refine ⟨g, hindex.trans hlast, hg, hmain, fun _ _ _ => .inr hhash, ?_⟩
    intro hsome
    obtain ⟨hash, hmem, htrue⟩ := hsome
    rw [hnone hash hmem] at htrue
    cases htrue

namespace Sample

def treeMap : BlockMap := mapOf (blocks.map Prod.fst) (by decide)

theorem started_indexTree : IndexTree treeMap started := by
  have hmap : ∀ hash p, treeMap.find hash = some p ↔ tree.mem p ∧ p.getBlockHash = hash := by
    intro hash p
    constructor
    · exact fun h => ⟨mem_of_mapOf h, treeMap.hash_eq h⟩
    · rintro ⟨hmem, rfl⟩
      have hall : ∀ p ∈ blocks.map Prod.fst, treeMap.find p.getBlockHash = some p := by decide
      exact hall p hmem
  rcases started_reached.settled with hun | hset
  · exact absurd hun.pindexBest (by decide)
  · exact hset.indexTree hmap

end Sample

/-- A block two above the fork is two steps from it. -/
theorem badIndex_locator : ∃ p,
    getBlockIndex Sample.treeMap Sample.started (CBlockLocator.set Sample.badIndex) = some p ∧
    p.getBlockHash = hashGenesisBlock ∧
    getDistanceBack Sample.treeMap Sample.started (CBlockLocator.set Sample.badIndex) = 2 := by
  obtain ⟨p, hindex, _, _, _, hdist⟩ :=
    locator_leads_back Sample.started_indexTree (b := Sample.badIndex) (by decide)
  have hfound : (getBlockIndex Sample.treeMap Sample.started
      (CBlockLocator.set Sample.badIndex)) = some Sample.genesisIndex := by decide
  rw [hfound] at hindex
  cases hindex
  refine ⟨_, hfound, rfl, (hdist ⟨hashGenesisBlock, ?_⟩).trans (by decide)⟩
  decide

end Triangles

/-! `FindBlockByHeight` finds the block of the main chain at a height, wherever it starts. -/

namespace Triangles

open CBlockIndex

/-- The best chain of a node that has one: settled, with its height and its first block. -/
structure BestChain {env : Env} (T : BlockTree env) (s : State) : Prop where
  settled : Settled T s
  height : ∀ p, s.pindexBest = some p → s.nBestHeight = p.nHeight
  genesis : ∃ f, s.pindexGenesisBlock = some (.genesis f) ∧ T.mem (.genesis f)

/-- The calls of a node, with the block that `FindBlockByHeight` found last: lookups between
successful calls of `SetBestChain` that leave a coherent chain, and failed ones. -/
inductive Lookups {env : Env} (T : BlockTree env) : State → Option CBlockIndex → Prop
  | start {s : State} (h : BestChain T s) : Lookups T s none
  | find {s : State} {last : Option CBlockIndex} {nHeight : Int} (hs : Lookups T s last)
      (h0 : 0 ≤ nHeight) (hbest : nHeight ≤ s.nBestHeight) :
      Lookups T s (findBlockByHeight s last nHeight)
  | moved {s t : State} {last : Option CBlockIndex} {host : Host} {p : CBlockIndex}
      (hs : Lookups T s last) (hp : T.mem p)
      (h : setBestChain env host (T.block p) p s = .ok () t) (hcoherent : Coherent t) :
      Lookups T t none
  | failed {s t : State} {last : Option CBlockIndex} {host : Host} {p : CBlockIndex} {e : Reject}
      (hs : Lookups T s last) (h : setBestChain env host (T.block p) p s = .error e t) :
      Lookups T t last

section Walks

variable {s : State} {b : CBlockIndex} {nHeight : Int}

theorem same_of_height {a c : CBlockIndex} (ha : a ∈ b.ancestors) (hc : c ∈ b.ancestors)
    (hheight : a.nHeight = c.nHeight) : a = c := by
  have hback := stepsBack_ancestor ha
  rw [hheight, stepsBack_ancestor hc] at hback
  exact (Option.some.inj hback).symm

/-- The walk down stops above the genesis block, at the height or where it started. -/
theorem walkDown_spec (h0 : 0 ≤ nHeight) (p : CBlockIndex) :
    ∃ q ∈ p.ancestors, walkDown nHeight p = some q ∧ (q.nHeight : Int) ≤ nHeight ∧
      (nHeight ≤ p.nHeight → (q.nHeight : Int) = nHeight) := by
  induction p with
  | genesis f =>
    have hstop : ¬ nHeight < (CBlockIndex.genesis f).nHeight := not_lt.mpr h0
    refine ⟨_, self_mem_ancestors _, ?_, h0, fun h => le_antisymm h0 h⟩
    rw [walkDown, if_neg hstop]
  | child f p ih =>
    by_cases hlt : nHeight < (CBlockIndex.child f p).nHeight
    · obtain ⟨q, hq, hwalk, hle, heq⟩ := ih
      refine ⟨q, List.mem_cons_of_mem _ hq, ?_, hle, fun _ => heq ?_⟩
      · rw [walkDown, if_pos hlt]
        exact hwalk
      · rw [CBlockIndex.nHeight] at hlt
        omega
    · refine ⟨_, self_mem_ancestors _, ?_, not_lt.mp hlt, fun h => le_antisymm (not_lt.mp hlt) h⟩
      rw [walkDown, if_neg hlt]

/-- The walk up goes along the best chain, a height for each round. -/
theorem walkUp_spec (hlinked : LinkedTo s.pnext b) (hbest : nHeight ≤ b.nHeight) {rounds : Nat}
    {q : CBlockIndex} (hq : q ∈ b.ancestors) (hle : (q.nHeight : Int) ≤ nHeight)
    (hrounds : nHeight < q.nHeight + rounds) :
    ∃ r ∈ b.ancestors, walkUp s nHeight rounds q = some r ∧ (r.nHeight : Int) = nHeight := by
  induction rounds generalizing q with
  | zero => omega
  | succ rounds ih =>
    by_cases hlt : (q.nHeight : Int) < nHeight
    · have hne : b ≠ q := by
        rintro rfl
        omega
      obtain ⟨n, hn, hprev⟩ := exists_next hq hne
      have hnext := (hlinked q n).mpr ⟨hn, hprev⟩
      have hup : n.nHeight = q.nHeight + 1 := by
        obtain ⟨f, rfl⟩ := pprev_eq_some hprev
        rfl
      obtain ⟨r, hr, hwalk, hheight⟩ := ih hn (by omega) (by omega)
      refine ⟨r, hr, ?_, hheight⟩
      rw [walkUp, if_pos hlt, hnext]
      exact hwalk
    · refine ⟨q, hq, ?_, le_antisymm hle (not_lt.mp hlt)⟩
      rw [walkUp, if_neg hlt]

end Walks

section Chain

variable {env : Env} {T : BlockTree env} {s t : State} {last : Option CBlockIndex}

/-- The block found last, if any, is in the main chain. -/
def OnMain (s : State) (last : Option CBlockIndex) : Prop :=
  ∀ p, last = some p → s.isInMainChain p = true

/-- The first block of the tree is below every other. -/
theorem root_unique {f : BlockFields} (hf : T.mem (.genesis f)) {b : CBlockIndex} (hb : T.mem b) :
    .genesis f ∈ b.ancestors := by
  obtain ⟨f', hf'⟩ := exists_root b
  have hmem := T.ancestor_mem hb hf'
  have hsame := T.hash_inj hf hmem
    (((T.genesis_hash hf).mpr ⟨f, rfl⟩).trans ((T.genesis_hash hmem).mpr ⟨f', rfl⟩).symm)
  rw [hsame]
  exact hf'

theorem BestChain.lookup (h : BestChain T s) (hlast : OnMain s last) {nHeight : Int}
    (h0 : 0 ≤ nHeight) (hbest : nHeight ≤ s.nBestHeight) :
    ∃ r, findBlockByHeight s last nHeight = some r ∧ s.isInMainChain r = true ∧
      (r.nHeight : Int) = nHeight := by
  obtain ⟨b, hb, hmem, _, _, hat⟩ := h.settled
  obtain ⟨f, hgen, hf⟩ := h.genesis
  have hmain : ∀ p, s.isInMainChain p = true ↔ p ∈ b.ancestors := by
    intro p
    rw [h.settled.coherent.main p, hb]
    constructor
    · rintro ⟨_, hsame, hp⟩
      cases hsame
      exact hp
    · exact fun hp => ⟨b, rfl, hp⟩
  -- each of the three places it can start from is on the chain
  have hstart : ∃ p ∈ b.ancestors, nearestKnown s last nHeight = some p := by
    have hend : ∃ p ∈ b.ancestors, (if nHeight < s.nBestHeight.tdiv 2 then s.pindexGenesisBlock
        else s.pindexBest) = some p := by
      split
      · exact ⟨_, root_unique hf hmem, hgen⟩
      · exact ⟨b, self_mem_ancestors b, hb⟩
    obtain ⟨p, hp, hpe⟩ := hend
    unfold nearestKnown
    rw [hpe]
    cases last with
    | none => exact ⟨p, hp, rfl⟩
    | some l =>
      dsimp only
      split
      · exact ⟨l, (hmain l).mp (hlast l rfl), rfl⟩
      · exact ⟨p, hp, rfl⟩
  obtain ⟨p, hp, hknown⟩ := hstart
  obtain ⟨q, hq, hdown, hle, _⟩ := walkDown_spec h0 p
  rw [h.height b hb] at hbest
  have hrounds : nHeight < q.nHeight + (nHeight.toNat + 1 : Nat) := by omega
  obtain ⟨r, hr, hup, hheight⟩ :=
    walkUp_spec hat.linked hbest (ancestors_trans hp hq) hle hrounds
  refine ⟨r, ?_, (hmain r).mpr hr, hheight⟩
  rw [findBlockByHeight, hknown, Option.bind_some, hdown, Option.bind_some, hup]

/-- A successful call leaves the first block alone. -/
theorem moveBestChain_genesis {host : Host} {p : CBlockIndex} (hp : T.mem p) (hs : Settled T s)
    (h : moveBestChain env host (T.block p) p s.txnBegin = .ok () t) :
    t.pindexGenesisBlock = s.pindexGenesisBlock := by
  have hmoved := moveBestChain_moved hp (.inr hs) h
  obtain ⟨q, hq, _, _, _, hat⟩ := hs
  cases hmoved with
  | started f hf hun hpostponed ht =>
    rw [hun.pindexBest] at hq
    cases hq
  | extended f q' hf hbest hpostponed hinner =>
    subst hf
    rw [hq] at hbest
    cases hbest
    exact (setBestChainInner_at (s := s.txnBegin) ⟨hat.linked, hat.disk⟩ (T.block_hash hp)
      hinner).2
  | switched b r hbest hpostponed hr ht =>
    rw [hq] at hbest
    cases hbest
    obtain ⟨hatr, hgen⟩ := reorganize_at (s := s.txnBegin) hat.linked hr
    obtain ⟨_, _, _, _, hgenm⟩ :=
      connectFurther_at env host (postpone_climb q.nChainTrust p) hatr
    rw [ht, hgenm, hgen]
    rfl

theorem BestChain.moved (h : BestChain T s) {host : Host} {p : CBlockIndex} (hp : T.mem p)
    (hset : setBestChain env host (T.block p) p s = .ok () t) (hcoherent : Coherent t) :
    BestChain T t := by
  obtain ⟨hsettles, hpostponed⟩ := setBestChain_settles hp (.inr h.settled) hset
  obtain ⟨r, hmove, rfl⟩ := setBestChain_ok hset
  refine ⟨hsettles (hpostponed hcoherent), ?_, ?_⟩
  · intro q hq
    cases hq
    rfl
  · obtain ⟨f, hgen, hf⟩ := h.genesis
    exact ⟨f, (moveBestChain_genesis hp h.settled hmove).trans hgen, hf⟩

theorem BestChain.failed (h : BestChain T s) {host : Host} {p : CBlockIndex} {e : Reject}
    (hset : setBestChain env host (T.block p) p s = .error e t) : BestChain T t := by
  have hu := setBestChain_error_untouched hset
  refine ⟨h.settled.congr hu.pnext hu.pindexGenesisBlock hu.pindexBest hu.hashBestChain
    (hu.committed _ (by simp)), ?_, ?_⟩
  · intro q hq
    rw [hu.pindexBest] at hq
    rw [hu.nBestHeight]
    exact h.height q hq
  · rw [hu.pindexGenesisBlock]
    exact h.genesis

/-- Over a run the chain stays coherent, and the block found last stays in it. -/
theorem Lookups.inv (h : Lookups T s last) : BestChain T s ∧ OnMain s last := by
  induction h with
  | start h => exact ⟨h, fun _ hp => by cases hp⟩
  | find _ h0 hbest ih =>
    obtain ⟨r, hr, hmain, _⟩ := ih.1.lookup ih.2 h0 hbest
    refine ⟨ih.1, fun p hp => ?_⟩
    rw [hr] at hp
    cases hp
    exact hmain
  | moved _ hp h hcoherent ih => exact ⟨ih.1.moved hp h hcoherent, fun _ hp => by cases hp⟩
  | failed _ h ih =>
    refine ⟨ih.1.failed h, fun p hp => ?_⟩
    have hu := setBestChain_error_untouched h
    rw [State.isInMainChain, hu.pnext, hu.pindexBest]
    exact ih.2 p hp

end Chain

/-- A lookup after any run finds the block of the main chain at the height, which is the one the
walk down from the best block ends at. -/
theorem find_block_by_height {env : Env} {T : BlockTree env} {s : State}
    {last : Option CBlockIndex} (h : Lookups T s last) {nHeight : Int} (h0 : 0 ≤ nHeight)
    (hbest : nHeight ≤ s.nBestHeight) :
    ∃ r, findBlockByHeight s last nHeight = some r ∧ s.pindexBest.bind (walkDown nHeight) = some r ∧
      s.isInMainChain r = true ∧ (r.nHeight : Int) = nHeight ∧
      ∀ c, s.isInMainChain c = true → (c.nHeight : Int) = nHeight → c = r := by
  obtain ⟨hchain, hlast⟩ := h.inv
  obtain ⟨r, hr, hmain, hheight⟩ := hchain.lookup hlast h0 hbest
  have hunique : ∀ c, s.isInMainChain c = true → (c.nHeight : Int) = nHeight → c = r := by
    intro c hc hcheight
    obtain ⟨b, hb, hcb⟩ := (hchain.settled.coherent.main c).mp hc
    obtain ⟨b', hb', hrb⟩ := (hchain.settled.coherent.main r).mp hmain
    rw [hb] at hb'
    cases hb'
    exact same_of_height hcb hrb (by omega)
  refine ⟨r, hr, ?_, hmain, hheight, hunique⟩
  obtain ⟨b, hb, _⟩ := hchain.settled
  obtain ⟨q, hq, hdown, _, heq⟩ := walkDown_spec h0 b
  have hqmain := (hchain.settled.coherent.main q).mpr ⟨b, hb, hq⟩
  rw [hchain.height b hb] at hbest
  rw [hb, Option.bind_some, hdown, hunique q hqmain (heq hbest)]

namespace Sample

theorem started_bestChain : BestChain tree started where
  settled := by
    rcases started_reached.settled with hun | hset
    · exact absurd hun.pindexBest (by decide)
    · exact hset
  height := by
    intro p hp
    have hbest : started.pindexBest = some mainIndex := by decide
    rw [hbest] at hp
    cases hp
    decide
  genesis := ⟨genesisIndex.fields, by decide, by decide⟩

end Sample

/-- The first block is looked up, the chain moves to another branch, and its best block is looked
up from there. -/
theorem goodIndex_found : ∃ t last, Lookups Sample.tree t last ∧ last = none ∧
    findBlockByHeight t last 2 = some Sample.goodIndex := by
  obtain ⟨t, hset, hcoherent⟩ := goodBlock_coherent
  have hlow : (0 : Int) ≤ Sample.started.nBestHeight := by decide
  have hmoved := ((Lookups.start Sample.started_bestChain).find (le_refl 0) hlow).moved
    (by decide) hset hcoherent
  obtain ⟨r, _, rfl⟩ := setBestChain_ok hset
  obtain ⟨found, hfound, _, _, _, hunique⟩ :=
    find_block_by_height hmoved (by decide : (0 : Int) ≤ 2)
      (le_of_eq (by rfl : (2 : Int) = Sample.goodIndex.nHeight))
  have hbest := (hcoherent.main Sample.goodIndex).mpr ⟨_, rfl, self_mem_ancestors _⟩
  refine ⟨_, none, hmoved, rfl, ?_⟩
  rw [← hunique Sample.goodIndex hbest (by decide)] at hfound
  exact hfound

end Triangles
