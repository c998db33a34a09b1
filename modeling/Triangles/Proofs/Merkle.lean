import Mathlib.Data.Nat.Pairing
import Mathlib.Data.List.GetD
import Triangles.Proofs.BlockSpec
import Triangles.Proofs.Undo

/-! The Merkle root commits to the transactions: for a collision-free pair hash, lists without a
repeated txid are told apart by their roots, level by level. -/

namespace Triangles

open Outcome

/-- How many levels the tree over `nSize` leaves has: the rounds of
`for (nSize = vtx.size(); nSize > 1; nSize = (nSize + 1) / 2)`, and the root. -/
def merkleDepth (nSize : Nat) : Nat :=
  if nSize ≤ 1 then nSize else merkleDepth ((nSize + 1) / 2) + 1
termination_by nSize
decreasing_by omega

theorem merkleDepth_pos {n : Nat} (h : 0 < n) : 0 < merkleDepth n := by
  unfold merkleDepth
  split <;> omega

theorem merkleDepth_eq_zero {n : Nat} (h : merkleDepth n = 0) : n = 0 := by
  by_contra hpos
  have := merkleDepth_pos (n := n) (by omega)
  omega

theorem merkleDepth_of_le {n : Nat} (h : n ≤ 1) : merkleDepth n = n := by
  rw [merkleDepth, if_pos h]

theorem merkleDepth_of_gt {n : Nat} (h : 1 < n) :
    merkleDepth n = merkleDepth ((n + 1) / 2) + 1 := by
  rw [merkleDepth, if_neg (by omega)]

theorem one_lt_merkleDepth {n : Nat} (h : 1 < n) : 1 < merkleDepth n := by
  have := merkleDepth_pos (n := (n + 1) / 2) (by omega)
  rw [merkleDepth_of_gt h]
  omega

section
variable {env : Env}

theorem merkleLevel_length : ∀ l : List uint256,
    (merkleLevel env l).length = (l.length + 1) / 2
  | [] => rfl
  | [_] => by simp [merkleLevel]
  | _ :: _ :: rest => by
    simp only [merkleLevel, List.length_cons, merkleLevel_length rest]
    omega

theorem merkleTree_ne_nil {rounds : Nat} {l : List uint256} (h : l ≠ []) :
    merkleTree env rounds l ≠ [] := by
  cases rounds with
  | zero => exact h
  | succ rounds =>
    unfold merkleTree
    split
    · exact h
    · simp [h]

/-- While there are two nodes or more, the last node of the tree is that of the levels above. -/
theorem merkleTree_getLast {rounds : Nat} {l : List uint256} (h : 1 < l.length) :
    (merkleTree env (rounds + 1) l).getLast? =
      (merkleTree env rounds (merkleLevel env l)).getLast? := by
  have habove : merkleLevel env l ≠ [] := by
    intro hnil
    have hlen : (merkleLevel env l).length = (l.length + 1) / 2 := merkleLevel_length l
    rw [hnil, List.length_nil] at hlen
    omega
  rw [merkleTree, if_neg (by omega), List.getLast?_append_of_ne_nil _ (merkleTree_ne_nil habove)]

variable (hinj : Function.Injective2 env.hashPair)
include hinj

/-- Every node above comes from the pair below that starts with one of the nodes there. -/
theorem mem_merkleLevel {a b : uint256} : ∀ {l : List uint256},
    env.hashPair a b ∈ merkleLevel env l → a ∈ l
  | [x], h => by
    have hx : env.hashPair a b = env.hashPair x x := by simpa [merkleLevel] using h
    simp [(hinj hx).1]
  | x :: y :: rest, h => by
    rcases List.mem_cons.mp h with h | h
    · simp [(hinj h).1]
    · exact List.mem_cons_of_mem _ (List.mem_cons_of_mem _ (mem_merkleLevel h))

/-- Distinct nodes have distinct nodes above them. -/
theorem merkleLevel_nodup : ∀ {l : List uint256}, l.Nodup → (merkleLevel env l).Nodup
  | [], _ => List.nodup_nil
  | [_], _ => List.nodup_singleton _
  | x :: y :: rest, h => by
    rw [List.nodup_cons, List.nodup_cons] at h
    refine List.nodup_cons.mpr ⟨?_, merkleLevel_nodup h.2.2⟩
    intro hm
    exact h.1 (List.mem_cons_of_mem y (mem_merkleLevel hinj hm))

/-- Two levels without repetition under one level are the same. The odd last node that is
paired with itself cannot pass for a pair: that pair would repeat a node. -/
theorem merkleLevel_injective : ∀ {l l' : List uint256}, l.Nodup → l'.Nodup →
    merkleLevel env l = merkleLevel env l' → l = l'
  | [], [], _, _, _ => rfl
  | [], [_], _, _, h => by simp [merkleLevel] at h
  | [], _ :: _ :: _, _, _, h => by simp [merkleLevel] at h
  | [_], [], _, _, h => by simp [merkleLevel] at h
  | _ :: _ :: _, [], _, _, h => by simp [merkleLevel] at h
  | [x], [x'], _, _, h => by
    have hx : env.hashPair x x = env.hashPair x' x' := by simpa [merkleLevel] using h
    rw [(hinj hx).1]
  | [x], x' :: y' :: rest', _, hnd', h => by
    simp only [merkleLevel, List.cons.injEq] at h
    obtain ⟨hx, hy⟩ := hinj h.1
    subst hx hy
    simp at hnd'
  | x :: y :: rest, [x'], hnd, _, h => by
    simp only [merkleLevel, List.cons.injEq] at h
    obtain ⟨hx, hy⟩ := hinj h.1
    subst hx hy
    simp at hnd
  | x :: y :: rest, x' :: y' :: rest', hnd, hnd', h => by
    simp only [merkleLevel, List.cons.injEq] at h
    obtain ⟨hx, hy⟩ := hinj h.1
    rw [List.nodup_cons, List.nodup_cons] at hnd hnd'
    rw [hx, hy, merkleLevel_injective hnd.2.2 hnd'.2.2 h.2]

/-- Going down from equal roots: at every level both trees have the same nodes. -/
theorem merkleTree_injective {rounds rounds' : Nat} {l l' : List uint256}
    (hr : l.length ≤ rounds) (hr' : l'.length ≤ rounds') (hnd : l.Nodup) (hnd' : l'.Nodup)
    (hdepth : merkleDepth l.length = merkleDepth l'.length)
    (hroot : (merkleTree env rounds l).getLast? = (merkleTree env rounds' l').getLast?) :
    l = l' := by
  induction rounds generalizing rounds' l l' with
  | zero =>
    have hl : l.length = 0 := by omega
    rw [hl, merkleDepth_of_le (by omega)] at hdepth
    have hl' : l'.length = 0 := merkleDepth_eq_zero hdepth.symm
    rw [List.eq_nil_of_length_eq_zero hl, List.eq_nil_of_length_eq_zero hl']
  | succ rounds ih =>
    by_cases hone : l.length ≤ 1
    · have hone' : l'.length ≤ 1 := by
        by_contra hmore
        have := one_lt_merkleDepth (n := l'.length) (by omega)
        rw [merkleDepth_of_le hone] at hdepth
        omega
      -- one level only: the tree is the list of leaves itself
      have htree : ∀ {n : Nat} {m : List uint256}, m.length ≤ 1 → merkleTree env n m = m := by
        intro n m hm
        cases n with
        | zero => rfl
        | succ n => rw [merkleTree, if_pos hm]
      rw [htree hone, htree hone'] at hroot
      match l, l', hone, hone' with
      | [], [], _, _ => rfl
      | [], [_], _, _ => simp at hroot
      | [_], [], _, _ => simp at hroot
      | [_], [_], _, _ => simpa using hroot
    · have hmore' : 1 < l'.length := by
        by_contra hle
        have := one_lt_merkleDepth (n := l.length) (by omega)
        rw [merkleDepth_of_le (n := l'.length) (by omega)] at hdepth
        omega
      have hmore : 1 < l.length := by omega
      obtain ⟨rounds', rfl⟩ : ∃ n, rounds' = n + 1 := ⟨rounds' - 1, by omega⟩
      rw [merkleTree_getLast hmore, merkleTree_getLast hmore'] at hroot
      rw [merkleDepth_of_gt hmore, merkleDepth_of_gt hmore'] at hdepth
      refine merkleLevel_injective hinj hnd hnd' (ih ?_ ?_ (merkleLevel_nodup hinj hnd)
        (merkleLevel_nodup hinj hnd') ?_ hroot)
      · rw [merkleLevel_length]
        omega
      · rw [merkleLevel_length]
        omega
      · rw [merkleLevel_length, merkleLevel_length]
        omega

end

theorem buildMerkleTree_root {env : Env} {block : CBlock} (h : block.vtx ≠ []) :
    (block.vMerkleTree env).getLast? = some (block.buildMerkleTree env) := by
  have hne : block.vMerkleTree env ≠ [] := merkleTree_ne_nil (by simpa using h)
  rw [CBlock.buildMerkleTree, List.getLast?_eq_some_getLast hne, Option.getD_some]

theorem buildMerkleTree_injective {env : Env} (hinj : Function.Injective2 env.hashPair)
    {block block' : CBlock} (hnd : (block.vtx.map (CTransaction.getHash env)).Nodup)
    (hnd' : (block'.vtx.map (CTransaction.getHash env)).Nodup)
    (hdepth : merkleDepth block.vtx.length = merkleDepth block'.vtx.length)
    (hroot : block.buildMerkleTree env = block'.buildMerkleTree env) :
    block.vtx.map (CTransaction.getHash env) = block'.vtx.map (CTransaction.getHash env) := by
  by_cases hnil : block.vtx = []
  · -- the default root 0 stands for the empty tree only, and the depth tells that one apart
    have hlen : block'.vtx.length = 0 := by
      rw [hnil, List.length_nil, merkleDepth_of_le (by omega)] at hdepth
      exact merkleDepth_eq_zero hdepth.symm
    rw [hnil, List.eq_nil_of_length_eq_zero hlen]
  · have hnil' : block'.vtx ≠ [] := by
      intro h
      rw [h, List.length_nil, merkleDepth_of_le (Nat.zero_le 1)] at hdepth
      exact hnil (List.eq_nil_of_length_eq_zero (merkleDepth_eq_zero hdepth))
    refine merkleTree_injective hinj (by rw [List.length_map]) (by rw [List.length_map]) hnd
      hnd' (by simpa only [List.length_map] using hdepth) ?_
    exact (buildMerkleTree_root hnil).trans (hroot ▸ (buildMerkleTree_root hnil').symm)

/-- The root of a block commits to its txids, among lists without a repeated txid and trees
of one depth. -/
theorem buildMerkleTree_commits {env : Env} (hinj : Function.Injective2 env.hashPair)
    {block block' : CBlock} (hnd : (block.vtx.map (CTransaction.getHash env)).Nodup)
    (hnd' : (block'.vtx.map (CTransaction.getHash env)).Nodup)
    (hdepth : merkleDepth block.vtx.length = merkleDepth block'.vtx.length)
    (hroot : block.buildMerkleTree env = block'.buildMerkleTree env) :
    block.vtx.map (CTransaction.getHash env) = block'.vtx.map (CTransaction.getHash env) ∧
      block.vtx.length = block'.vtx.length := by
  have heq := buildMerkleTree_injective hinj hnd hnd' hdepth hroot
  refine ⟨heq, ?_⟩
  simpa using congrArg List.length heq

namespace Sample

/-- A pair hash without collisions. -/
def pairingEnv : Env := { env [] with hashPair := Nat.pair }

theorem pairingEnv_injective : Function.Injective2 pairingEnv.hashPair := by
  intro a b c d h
  exact Nat.pair_eq_pair.mp h

def threeTxs (nTime : UInt32) : CBlock :=
  blockOf 0 nTime [coinbase 1 5, coinbase 2 5, coinbase 3 5]

end Sample

theorem buildMerkleTree_commits_three :
    ((Sample.threeTxs 7).vtx.map (CTransaction.getHash Sample.pairingEnv) = [1, 2, 3] ∧
      (Sample.threeTxs 7) ≠ Sample.threeTxs 8) ∧
    (Sample.threeTxs 7).vtx.length = (Sample.threeTxs 8).vtx.length :=
  ⟨by decide, (buildMerkleTree_commits Sample.pairingEnv_injective (by decide) (by decide) rfl
    rfl).2⟩

end Triangles

/-! Merkle branches: the verifier, which never sees the number of leaves, comes from any leaf and
its branch to the root of the tree. -/

namespace Triangles

section
variable {env : Env}

theorem foldMerkleBranch_cons (otherside hash : uint256) (rest : List uint256) (i : Nat) :
    foldMerkleBranch env (otherside :: rest) hash i =
      foldMerkleBranch env rest
        (if i % 2 = 1 then env.hashPair otherside hash else env.hashPair hash otherside)
        (i / 2 : Nat) := by
  have hdiv : (i : Int) / 2 = ((i / 2 : Nat) : Int) := by omega
  have hodd : ((i : Int) % 2 = 1) ↔ i % 2 = 1 := by omega
  rw [foldMerkleBranch, hdiv, if_congr hodd rfl rfl]

/-- The two nodes of pair `k`: nodes `2k` and `2k + 1`, the last node once more where the
second is missing. -/
theorem merkleLevel_getD : ∀ (l : List uint256) {k : Nat}, 2 * k < l.length →
    (merkleLevel env l).getD k 0 =
      env.hashPair (l.getD (2 * k) 0) (l.getD (min (2 * k + 1) (l.length - 1)) 0)
  | [a], 0, _ => by simp [merkleLevel]
  | [a], k + 1, h => by
    rw [List.length_singleton] at h
    omega
  | a :: b :: rest, 0, _ => by simp [merkleLevel]
  | a :: b :: rest, k + 1, h => by
    have hk : 2 * k < rest.length := by
      simp only [List.length_cons] at h
      omega
    have hfirst : 2 * (k + 1) = 2 * k + 1 + 1 := by omega
    have hsecond : min (2 * (k + 1) + 1) ((a :: b :: rest).length - 1) =
        min (2 * k + 1) (rest.length - 1) + 1 + 1 := by
      simp only [List.length_cons]
      omega
    rw [merkleLevel, List.getD_cons_succ, merkleLevel_getD rest hk, hsecond, hfirst]
    simp only [List.getD_cons_succ]

/-- Flipping the low bit leads to the other node of the pair. -/
theorem xor_one (i : Nat) : i ^^^ 1 = if i % 2 = 1 then i - 1 else i + 1 := by
  have hdiv : (i ^^^ 1) / 2 ^ 1 = i / 2 ^ 1 := by
    rw [Nat.xor_div_two_pow]
    exact Nat.xor_zero _
  have hmod : (i ^^^ 1) % 2 ^ 1 = i % 2 ^ 1 ^^^ 1 := Nat.xor_mod_two_pow
  rw [Nat.pow_one] at hdiv hmod
  rcases Nat.mod_two_eq_zero_or_one i with hi | hi
  · have hone : (i ^^^ 1) % 2 = 1 := by
      rw [hmod, hi]
      rfl
    rw [if_neg (by omega)]
    omega
  · have hzero : (i ^^^ 1) % 2 = 0 := by
      rw [hmod, hi]
      rfl
    rw [if_pos hi]
    omega

/-- One level up: the node above `i` is the hash that the verifier makes of node `i` and the
entry of the branch. -/
theorem merkleLevel_above {l : List uint256} {i : Nat} (h : i < l.length) :
    (if i % 2 = 1 then env.hashPair (l.getD (min (i ^^^ 1) (l.length - 1)) 0) (l.getD i 0)
      else env.hashPair (l.getD i 0) (l.getD (min (i ^^^ 1) (l.length - 1)) 0)) =
      (merkleLevel env l).getD (i / 2) 0 := by
  rw [merkleLevel_getD l (by omega), xor_one]
  by_cases hodd : i % 2 = 1
  · have hleft : min (i - 1) (l.length - 1) = 2 * (i / 2) := by omega
    have hright : min (2 * (i / 2) + 1) (l.length - 1) = i := by omega
    rw [if_pos hodd, if_pos hodd, hleft, hright]
  · have hleft : 2 * (i / 2) = i := by omega
    rw [if_neg hodd, if_neg hodd, hleft]

variable (env) in
/-- From node `i` of a level that starts at `below.length` in the flattened tree, the branch
leads to the last node. The induction is on the rounds, that is, over the levels above. -/
theorem foldMerkleBranch_tree {rounds : Nat} (below : List uint256) {l : List uint256} {i : Nat}
    (hr : l.length ≤ rounds) (hi : i < l.length) :
    foldMerkleBranch env
        (merkleBranch (below ++ merkleTree env rounds l) rounds below.length l.length i)
        (l.getD i 0) i =
      ((merkleTree env rounds l).getLast?).getD 0 := by
  induction rounds generalizing below l i with
  | zero => omega
  | succ rounds ih =>
    by_cases hone : l.length ≤ 1
    · obtain ⟨root, rfl⟩ : ∃ root, l = [root] := List.length_eq_one_iff.mp (by omega)
      have hzero : i = 0 := by
        rw [List.length_singleton] at hi
        omega
      rw [merkleBranch, if_pos hone, merkleTree, if_pos hone, hzero]
      rfl
    · have hlen : (merkleLevel env l).length = (l.length + 1) / 2 := merkleLevel_length l
      have hsib : min (i ^^^ 1) (l.length - 1) < l.length := by omega
      have hread : (below ++ (l ++ merkleTree env rounds (merkleLevel env l))).getD
          (below.length + min (i ^^^ 1) (l.length - 1)) 0 =
          l.getD (min (i ^^^ 1) (l.length - 1)) 0 := by
        rw [List.getD_append_right _ _ _ _ (by omega), Nat.add_sub_cancel_left,
          List.getD_append _ _ _ _ hsib]
      rw [merkleTree_getLast (by omega), merkleTree, if_neg hone, merkleBranch, if_neg hone,
        foldMerkleBranch_cons, hread, merkleLevel_above hi]
      -- the levels up to this one are what lies below the next
      have hstart : below.length + l.length = (below ++ l).length := by
        rw [List.length_append]
      rw [hstart, ← hlen, ← List.append_assoc]
      exact ih (below ++ l) (by omega) (by omega)

end

/-- The branch of every transaction of a block leads from its txid to the Merkle root. -/
theorem checkMerkleBranch_getMerkleBranch (env : Env) (block : CBlock)
    (nIndex : Fin block.vtx.length) :
    checkMerkleBranch env ((block.vtx.get nIndex).getHash env)
        (block.getMerkleBranch env nIndex) (nIndex : Nat) =
      block.buildMerkleTree env := by
  have hne : ((nIndex : Nat) : Int) ≠ -1 := by omega
  have hleaf : (block.vtx.map (CTransaction.getHash env)).getD nIndex 0 =
      (block.vtx.get nIndex).getHash env := by
    rw [List.getD_eq_getElem _ _ (by simp), List.getElem_map, List.get_eq_getElem]
  have hlen : (block.vtx.map (CTransaction.getHash env)).length = block.vtx.length :=
    List.length_map _
  have hlt : (nIndex : Nat) < (block.vtx.map (CTransaction.getHash env)).length := by omega
  have h := foldMerkleBranch_tree env [] hlen.le hlt
  rw [List.nil_append, List.length_nil, hlen, hleaf] at h
  rw [checkMerkleBranch, if_neg hne]
  exact h

end Triangles
