import Triangles.Model.LoadBlockIndex
import Triangles.Proofs.OrphanBlocks
import Triangles.Proofs.RoundTrip

/-! What an import passes to `ProcessBlock`: every intact record, unless a record in front of it cannot
be read. -/

namespace Triangles.Import

open Codec Outcome

variable {fTestNet : Bool} {file : List UInt8} {nPos : UInt32} {p m : Nat}

/-! Message starts. -/

def StartsAt (fTestNet : Bool) (file : List UInt8) (p : Nat) : Prop :=
  (file.drop p).take 4 = (pchMessageStart fTestNet).1

theorem StartsAt.byte (h : StartsAt fTestNet file p) {k : Nat} (hk : k < 4) :
    file[p + k]? = (pchMessageStart fTestNet).1[k]? := by
  have hbyte := congrArg (fun l : List UInt8 => l[k]?) h
  simpa [List.getElem?_take, hk] using hbyte

theorem StartsAt.le (h : StartsAt fTestNet file p) : p + 4 ≤ file.length := by
  have hlen := congrArg List.length h
  have hstart : (pchMessageStart fTestNet).1.length = 4 := (pchMessageStart fTestNet).2
  rw [List.length_take, List.length_drop, hstart] at hlen
  omega

/-- The first byte of a message start does not stand in it again, so two of them do not overlap. -/
theorem StartsAt.apart (h : StartsAt fTestNet file p) (h' : StartsAt fTestNet file m) (hlt : p < m) :
    p + 4 ≤ m := by
  by_contra hnot
  obtain ⟨k, hk⟩ : ∃ k : Fin 3, m = p + (k.1 + 1) := ⟨⟨m - p - 1, by omega⟩, by simp; omega⟩
  have hbyte := h.byte (k := k.1 + 1) (by omega)
  have hfirst := h'.byte (k := 0) (by omega)
  rw [Nat.add_zero, hk, hbyte] at hfirst
  revert hfirst
  clear hbyte hk h h' hnot
  revert k
  cases fTestNet <;> decide

/-! The search. -/

/-- What a round does with a message start. -/
inductive RoundSpec (fTestNet : Bool) (file : List UInt8) (nPos : UInt32) : Round → Prop
  | ended (h : ∀ m, nPos.toNat ≤ m → file.length ≤ m + 8) : RoundSpec fTestNet file nPos .ended
  | found (p : Nat) (q : UInt32) (hq : q.toNat = p + 4) (hle : nPos.toNat ≤ p) (h : StartsAt fTestNet file p)
      (hfirst : ∀ m, nPos.toNat ≤ m → m < p → ¬ StartsAt fTestNet file m) :
      RoundSpec fTestNet file nPos (.found q)
  | onward (q : UInt32) (hlt : nPos.toNat < q.toNat) (hfile : nPos.toNat < file.length)
      (hnone : ∀ m, nPos.toNat ≤ m → m < q.toNat → ¬ StartsAt fTestNet file m) :
      RoundSpec fTestNet file nPos (.onward q)

theorem add_toNat {n : UInt32} {k : Nat} (h : n.toNat + k < 2 ^ 32) :
    (n + UInt32.ofNat k).toNat = n.toNat + k := by
  rw [UInt32.toNat_add, UInt32.toNat_ofNat', Nat.mod_eq_of_lt (a := k) (by omega), Nat.mod_eq_of_lt h]

/-- `memchr` looks for the first byte of a message start. -/
theorem StartsAt.head {m : Nat} (h : StartsAt fTestNet file m) :
    file[m]? = some ((pchMessageStart fTestNet).1.headD 0) := by
  have hbyte := h.byte (k := 0) (by omega)
  rw [Nat.add_zero] at hbyte
  rw [hbyte]
  cases fTestNet <;> rfl

theorem searchRound_spec (hfile : file.length < 2 ^ 32 - 2 ^ 17) :
    RoundSpec fTestNet file nPos (searchRound fTestNet file nPos) := by
  have hstart : (pchMessageStart fTestNet).1.length = 4 := (pchMessageStart fTestNet).2
  unfold searchRound memchr
  simp only [hstart, List.length_take, List.length_drop, bufferSize]
  split_ifs with hshort
  · exact .ended fun m hm => by omega
  -- the places that `memchr` looks at
  generalize hread : min 65536 (file.length - nPos.toNat) = nRead at hshort
  have hle : nPos.toNat + nRead ≤ file.length := by omega
  have hscan : ((file.drop nPos.toNat).take 65536).take (nRead + 1 - 4) =
      (file.drop nPos.toNat).take (nRead - 3) := by
    rw [List.take_take]
    congr 1
    omega
  rw [hscan]
  cases hfind : ((file.drop nPos.toNat).take (nRead - 3)).idxOf? ((pchMessageStart fTestNet).1.headD 0) with
  | none =>
    have hq : (nPos + UInt32.ofNat (65536 - 4 + 1)).toNat = nPos.toNat + 65533 := add_toNat (by omega)
    generalize nPos + UInt32.ofNat (65536 - 4 + 1) = q at hq
    refine .onward q (by omega) (by omega) fun m hm hlt hstarts => ?_
    have hroom := hstarts.le
    have hmem : (pchMessageStart fTestNet).1.headD 0 ∈ (file.drop nPos.toNat).take (nRead - 3) := by
      rw [List.mem_take_iff_getElem]
      have hbyte := hstarts.head
      obtain ⟨hm', hget⟩ := List.getElem?_eq_some_iff.mp hbyte
      refine ⟨m - nPos.toNat, by simp; omega, ?_⟩
      rw [List.getElem_drop, ← hget]
      congr 1
      omega
    rw [List.idxOf?_eq_none_iff] at hfind
    exact hfind hmem
  | some nFind =>
    obtain ⟨hlt, hget, hbefore⟩ := List.findIdx?_eq_some_iff_getElem.mp hfind
    rw [List.length_take, List.length_drop] at hlt
    have hnone : ∀ m, nPos.toNat ≤ m → m < nPos.toNat + nFind → ¬ StartsAt fTestNet file m := by
      intro m hm hmlt hstarts
      have hbyte := hstarts.head
      obtain ⟨hm', hget⟩ := List.getElem?_eq_some_iff.mp hbyte
      have hno := hbefore (m - nPos.toNat) (by omega)
      rw [List.getElem_take, List.getElem_drop] at hno
      have hidx : nPos.toNat + (m - nPos.toNat) = m := by omega
      simp [hidx, hget] at hno
    have hmarker : (((file.drop nPos.toNat).take 65536).drop nFind).take 4 =
        (file.drop (nPos.toNat + nFind)).take 4 := by
      rw [List.drop_take, List.take_take, List.drop_drop]
      congr 1
      omega
    simp only [hmarker]
    split_ifs with hstarts
    · have hq : (nPos + (UInt32.ofNat nFind + UInt32.ofNat 4)).toNat = nPos.toNat + (nFind + 4) := by
        rw [← UInt32.ofNat_add]
        exact add_toNat (by omega)
      exact .found (nPos.toNat + nFind) _ (by omega) (by omega) hstarts hnone
    · have hq : (nPos + (UInt32.ofNat nFind + 1)).toNat = nPos.toNat + (nFind + 1) := by
        change (nPos + (UInt32.ofNat nFind + UInt32.ofNat 1)).toNat = _
        rw [← UInt32.ofNat_add]
        exact add_toNat (by omega)
      refine .onward _ (by omega) (by omega) fun m hm hmlt => ?_
      by_cases heq : m = nPos.toNat + nFind
      · rwa [heq]
      · exact hnone m hm (by omega)

/-- The first message start from a position on. -/
structure FirstStart (fTestNet : Bool) (file : List UInt8) (nPos : UInt32) (p : Nat) : Prop where
  le : nPos.toNat ≤ p
  starts : StartsAt fTestNet file p
  first : ∀ m, nPos.toNat ≤ m → m < p → ¬ StartsAt fTestNet file m

/-- No record fits in behind a message start any more. -/
def NoRoom (fTestNet : Bool) (file : List UInt8) (nPos : UInt32) : Prop :=
  ∀ m, nPos.toNat ≤ m → StartsAt fTestNet file m → file.length ≤ m + 8

theorem search_spec {n : UInt32} (fTestNet : Bool) (hfile : file.length < 2 ^ 32 - 2 ^ 17) (rounds : Nat)
    (hpos : 1 ≤ rounds) (hrounds : file.length + 1 ≤ n.toNat + rounds) :
    (search fTestNet file rounds n = some none ∧ NoRoom fTestNet file n) ∨
    ∃ q p, search fTestNet file rounds n = some (some q) ∧ q.toNat = p + 4 ∧
      FirstStart fTestNet file n p := by
  induction rounds generalizing n with
  | zero => omega
  | succ rounds ih =>
    rw [search]
    have hround : RoundSpec fTestNet file n (searchRound fTestNet file n) := searchRound_spec hfile
    revert hround
    generalize searchRound fTestNet file n = round
    intro hround
    cases hround with
    | ended h => exact .inl ⟨rfl, fun m hm _ => h m hm⟩
    | found p q hq hle h hfirst => exact .inr ⟨q, p, rfl, hq, hle, h, hfirst⟩
    | onward q hlt hin hnone =>
      have hge : ∀ m, n.toNat ≤ m → StartsAt fTestNet file m → q.toNat ≤ m := by
        intro m hm hstarts
        by_contra hnot
        exact hnone m hm (by omega) hstarts
      have hrounds' : file.length + 1 ≤ q.toNat + rounds := by omega
      rcases ih (by omega) hrounds' with ⟨hend, hroom⟩ | ⟨q', p, hfound, hq', hfirst⟩
      · exact .inl ⟨hend, fun m hm hstarts => hroom m (hge m hm hstarts) hstarts⟩
      · refine .inr ⟨q', p, hfound, hq', hlt.le.trans hfirst.le, hfirst.starts, fun m hm hmp hstarts => ?_⟩
        exact hfirst.first m (hge m hm hstarts) hmp hstarts

/-! Records. -/

/-- The size and the block behind a message start are read. -/
structure ReadsAt (file : List UInt8) (p : Nat) (nSize : UInt32) (block : CBlock) : Prop where
  size : ∃ blkdat, readUInt32 (file.drop (p + 4)) = .ok (nSize, blkdat) ∧
    ∃ rest, CBlock.unserialize SER_DISK blkdat = .ok (block, rest)
  pos : 0 < nSize
  small : nSize.toNat ≤ MAX_BLOCK_SIZE

/-- Reading behind this message start throws an exception: the size, or a block of a size that is
tried. -/
def Unreadable (fTestNet : Bool) (file : List UInt8) (p : Nat) : Prop :=
  StartsAt fTestNet file p ∧
    ((∃ e, readUInt32 (file.drop (p + 4)) = .error e) ∨
      ∃ nSize blkdat e, readUInt32 (file.drop (p + 4)) = .ok (nSize, blkdat) ∧ 0 < nSize ∧
        nSize.toNat ≤ MAX_BLOCK_SIZE ∧ CBlock.unserialize SER_DISK blkdat = .error e)

/-- The size is one that no block has: it is not tried to read one. -/
def Untried (file : List UInt8) (p : Nat) : Prop :=
  ∃ nSize blkdat, readUInt32 (file.drop (p + 4)) = .ok (nSize, blkdat) ∧
    ¬ (0 < nSize ∧ nSize.toNat ≤ MAX_BLOCK_SIZE)

theorem ReadsAt.not_unreadable {nSize : UInt32} {block : CBlock} (h : ReadsAt file p nSize block) :
    ¬ Unreadable fTestNet file p := by
  rintro ⟨-, ⟨e, he⟩ | ⟨n, blkdat, e, hn, -, -, he⟩⟩
  · obtain ⟨blkdat, hsize, -⟩ := h.size
    rw [hsize] at he
    cases he
  · obtain ⟨blkdat', hsize, rest, hblock⟩ := h.size
    rw [hsize] at hn
    cases hn
    rw [hblock] at he
    cases he

theorem ReadsAt.not_untried {nSize : UInt32} {block : CBlock} (h : ReadsAt file p nSize block) :
    ¬ Untried file p := by
  rintro ⟨n, blkdat, hn, hsize⟩
  obtain ⟨blkdat', hsize', -⟩ := h.size
  rw [hsize'] at hn
  cases hn
  exact hsize ⟨h.pos, h.small⟩

theorem Untried.not_unreadable (h : Untried file p) : ¬ Unreadable fTestNet file p := by
  obtain ⟨n, blkdat, hn, hsize⟩ := h
  rintro ⟨-, ⟨e, he⟩ | ⟨n', blkdat', e, hn', hpos, hsmall, -⟩⟩
  · rw [hn] at he
    cases he
  · rw [hn] at hn'
    cases hn'
    exact hsize ⟨hpos, hsmall⟩

theorem ReadsAt.unique {nSize nSize' : UInt32} {block block' : CBlock} (h : ReadsAt file p nSize block)
    (h' : ReadsAt file p nSize' block') : nSize = nSize' ∧ block = block' := by
  obtain ⟨blkdat, hsize, rest, hblock⟩ := h.size
  obtain ⟨blkdat', hsize', rest', hblock'⟩ := h'.size
  rw [hsize] at hsize'
  cases hsize'
  rw [hblock] at hblock'
  cases hblock'
  exact ⟨rfl, rfl⟩

/-- An intact record: the message start, a size, and a block in exactly that many bytes. -/
structure Intact (fTestNet : Bool) (file : List UInt8) (p : Nat) (nSize : UInt32) (block : CBlock) : Prop where
  starts : StartsAt fTestNet file p
  fits : block.Fits
  size : nSize.toNat = (block.serialize SER_DISK).length
  bytes : ∃ rest, file.drop (p + 4) = wordBytes 4 nSize.toNat ++ (block.serialize SER_DISK ++ rest)

theorem Intact.size_ge {nSize : UInt32} {block : CBlock} (h : Intact fTestNet file p nSize block) :
    80 ≤ nSize.toNat := by
  rw [h.size, CBlock.serialize, List.length_append, CBlockHeader.serialize_length]
  omega

theorem Intact.room {nSize : UInt32} {block : CBlock} (h : Intact fTestNet file p nSize block) :
    p + 8 + 80 ≤ file.length := by
  obtain ⟨rest, hbytes⟩ := h.bytes
  have hlen := congrArg List.length hbytes
  have hge := h.size_ge
  have hsize := h.size
  simp only [List.length_drop, List.length_append, wordBytes_length] at hlen
  omega

theorem Intact.reads_size {nSize : UInt32} {block : CBlock} (h : Intact fTestNet file p nSize block) :
    ∃ rest, readUInt32 (file.drop (p + 4)) = .ok (nSize, block.serialize SER_DISK ++ rest) := by
  obtain ⟨rest, hbytes⟩ := h.bytes
  exact ⟨rest, by rw [hbytes]; exact readUInt32_reads nSize _⟩

theorem Intact.readsAt {nSize : UInt32} {block : CBlock} (h : Intact fTestNet file p nSize block)
    (hsmall : nSize.toNat ≤ MAX_BLOCK_SIZE) : ReadsAt file p nSize block := by
  obtain ⟨rest, hsize⟩ := h.reads_size
  have hge := h.size_ge
  refine ⟨⟨_, hsize, rest, h.fits.reads (.inr rfl) rest⟩, ?_, hsmall⟩
  rw [UInt32.lt_iff_toNat_lt]
  change 0 < nSize.toNat
  omega

/-! The runs of the outer loop. -/

variable {σ : Type} {processBlock : CBlock → σ → Bool × σ}

inductive Runs (fTestNet : Bool) (file : List UInt8) (processBlock : CBlock → σ → Bool × σ) :
    UInt32 → σ → Result σ → Prop
  | ended {nPos : UInt32} {node : σ} (h : NoRoom fTestNet file nPos) :
      Runs fTestNet file processBlock nPos node ⟨[], node, false⟩
  | thrown {nPos : UInt32} {node : σ} {p : Nat} (hfirst : FirstStart fTestNet file nPos p)
      (h : Unreadable fTestNet file p) : Runs fTestNet file processBlock nPos node ⟨[], node, true⟩
  | skipped {nPos : UInt32} {node : σ} {p : Nat} {q : UInt32} {r : Result σ}
      (hfirst : FirstStart fTestNet file nPos p) (hq : q.toNat = p + 4) (huntried : Untried file p)
      (h : Runs fTestNet file processBlock q node r) : Runs fTestNet file processBlock nPos node r
  | visited {nPos : UInt32} {node : σ} {p : Nat} {q nSize : UInt32} {block : CBlock} {r : Result σ}
      (hfirst : FirstStart fTestNet file nPos p) (hq : q.toNat = p + 4) (hreads : ReadsAt file p nSize block)
      (h : Runs fTestNet file processBlock
        (if (processBlock block node).1 then q + (4 + nSize) else q) (processBlock block node).2 r) :
      Runs fTestNet file processBlock nPos node
        { r with visits := ⟨q, nSize, block, (processBlock block node).1⟩ :: r.visits }

/-- The block was accepted, and the record of this size overlaps what starts behind it at `p`. -/
def Visit.Covers (v : Visit) (p : Nat) : Prop :=
  v.fRet = true ∧ v.nPos.toNat < p + 4 ∧ p < v.nPos.toNat + 4 + v.nSize.toNat

/-- Where the loop goes on behind an accepted record that ends in the file. -/
theorem next_toNat {q nSize : UInt32} (h : q.toNat + 4 + nSize.toNat < 2 ^ 32) :
    (q + (4 + nSize)).toNat = q.toNat + 4 + nSize.toNat := by
  have hsize := nSize.toNat_lt
  have h4 : (4 : UInt32).toNat = 4 := rfl
  rw [UInt32.toNat_add, UInt32.toNat_add, h4, Nat.mod_eq_of_lt (a := 4 + nSize.toNat) (by omega),
    Nat.mod_eq_of_lt (by omega)]
  omega

section Outcome

variable {node : σ} {r : Result σ} {nSize : UInt32} {block : CBlock}

theorem Runs.visits_read (h : Runs fTestNet file processBlock nPos node r) :
    ∀ v ∈ r.visits, ∃ p, v.nPos.toNat = p + 4 ∧ ReadsAt file p v.nSize v.block := by
  induction h with
  | ended h => simp
  | thrown hfirst h => simp
  | skipped hfirst hq huntried h ih => exact ih
  | visited hfirst hq hreads h ih =>
    intro v hv
    rcases List.mem_cons.mp hv with rfl | hv
    · exact ⟨_, hq, hreads⟩
    · exact ih v hv

/-- An intact record is visited, unless an accepted record overlaps it or a record in front of it
cannot be read. -/
theorem Runs.complete (h : Runs fTestNet file processBlock nPos node r) (hle : nPos.toNat ≤ p)
    (hintact : Intact fTestNet file p nSize block) (hsmall : nSize.toNat ≤ MAX_BLOCK_SIZE)
    (hfile : file.length < 2 ^ 32) :
    (∃ v ∈ r.visits, v.nPos.toNat = p + 4 ∧ v.block = block) ∨ (∃ v ∈ r.visits, v.Covers p) ∨
      ∃ u, nPos.toNat ≤ u ∧ u < p ∧ Unreadable fTestNet file u ∧ ∀ v ∈ r.visits, ¬ v.Covers u := by
  have hreadsAt := hintact.readsAt hsmall
  have hroom := hintact.room
  induction h with
  | ended h =>
    have hlen := h p hle hintact.starts
    omega
  | @thrown nPos node u hfirst h =>
    rcases Nat.lt_trichotomy u p with hlt | rfl | hgt
    · exact .inr (.inr ⟨u, hfirst.le, hlt, h, by simp⟩)
    · exact absurd h hreadsAt.not_unreadable
    · exact absurd hintact.starts (hfirst.first p hle hgt)
  | @skipped nPos node u q r hfirst hq huntried h ih =>
    rcases Nat.lt_trichotomy u p with hlt | rfl | hgt
    · have hapart := hfirst.starts.apart hintact.starts hlt
      have hge := hfirst.le
      rcases ih (by omega) with hvisit | hcover | ⟨u', hu', hrest⟩
      · exact .inl hvisit
      · exact .inr (.inl hcover)
      · exact .inr (.inr ⟨u', by omega, hrest⟩)
    · exact absurd huntried hreadsAt.not_untried
    · exact absurd hintact.starts (hfirst.first p hle hgt)
  | @visited nPos node u q n b r hfirst hq hreads h ih =>
    rcases Nat.lt_trichotomy u p with hlt | rfl | hgt
    · have hapart := hfirst.starts.apart hintact.starts hlt
      have hge := hfirst.le
      cases hok : (processBlock b node).1 with
      | true =>
        by_cases hcovers : p < q.toNat + 4 + n.toNat
        · exact .inr (.inl ⟨_, List.mem_cons_self, rfl, by change q.toNat < p + 4; omega, hcovers⟩)
        · -- behind the accepted record
          have hnext : (q + (4 + n)).toNat = q.toNat + 4 + n.toNat := next_toNat (by omega)
          rw [hok, if_pos rfl] at ih
          rcases ih (by omega) with ⟨v, hv, hvisit⟩ | ⟨v, hv, hcover⟩ | ⟨u', hu', hup, hbad, hfree⟩
          · exact .inl ⟨v, List.mem_cons_of_mem _ hv, hvisit⟩
          · exact .inr (.inl ⟨v, List.mem_cons_of_mem _ hv, hcover⟩)
          · refine .inr (.inr ⟨u', by omega, hup, hbad, fun v hv => ?_⟩)
            rcases List.mem_cons.mp hv with rfl | hv
            · rintro ⟨-, -, hin⟩
              simp only at hin
              omega
            · exact hfree v hv
      | false =>
        rw [hok, if_neg Bool.false_ne_true] at ih
        rcases ih (by omega) with ⟨v, hv, hvisit⟩ | ⟨v, hv, hcover⟩ | ⟨u', hu', hup, hbad, hfree⟩
        · exact .inl ⟨v, List.mem_cons_of_mem _ hv, hvisit⟩
        · exact .inr (.inl ⟨v, List.mem_cons_of_mem _ hv, hcover⟩)
        · refine .inr (.inr ⟨u', by omega, hup, hbad, fun v hv => ?_⟩)
          rcases List.mem_cons.mp hv with rfl | hv
          · rintro ⟨hyes, -⟩
            cases hyes
          · exact hfree v hv
    · exact .inl ⟨_, List.mem_cons_self, hq, (hreads.unique hreadsAt).2⟩
    · exact absurd hintact.starts (hfirst.first p hle hgt)

/-- A record that cannot be read ends the import, unless an accepted record overlaps it. -/
theorem Runs.stops (h : Runs fTestNet file processBlock nPos node r) (hle : nPos.toNat ≤ p)
    (hbad : Unreadable fTestNet file p) (hfile : file.length < 2 ^ 32) :
    (∃ v ∈ r.visits, v.Covers p) ∨ ∀ v ∈ r.visits, v.nPos.toNat < p + 4 := by
  have hroom := hbad.1.le
  induction h with
  | ended h => exact .inr (by simp)
  | thrown hfirst h => exact .inr (by simp)
  | @skipped nPos node u q r hfirst hq huntried h ih =>
    rcases Nat.lt_trichotomy u p with hlt | rfl | hgt
    · have hapart := hfirst.starts.apart hbad.1 hlt
      exact ih (by omega)
    · exact absurd hbad huntried.not_unreadable
    · exact absurd hbad.1 (hfirst.first p hle hgt)
  | @visited nPos node u q n b r hfirst hq hreads h ih =>
    rcases Nat.lt_trichotomy u p with hlt | rfl | hgt
    · have hapart := hfirst.starts.apart hbad.1 hlt
      have hstep : ((∃ v ∈ r.visits, v.Covers p) ∨ ∀ v ∈ r.visits, v.nPos.toNat < p + 4) →
          (∃ v ∈ (⟨q, n, b, (processBlock b node).1⟩ :: r.visits : List Visit), v.Covers p) ∨
            ∀ v ∈ (⟨q, n, b, (processBlock b node).1⟩ :: r.visits : List Visit), v.nPos.toNat < p + 4 := by
        rintro (⟨v, hv, hcover⟩ | hall)
        · exact .inl ⟨v, List.mem_cons_of_mem _ hv, hcover⟩
        · right
          intro v hv
          rcases List.mem_cons.mp hv with rfl | hv
          · change q.toNat < p + 4
            omega
          · exact hall v hv
      cases hok : (processBlock b node).1 with
      | true =>
        by_cases hcovers : p < q.toNat + 4 + n.toNat
        · exact .inl ⟨_, List.mem_cons_self, rfl, by change q.toNat < p + 4; omega, hcovers⟩
        · have hnext : (q + (4 + n)).toNat = q.toNat + 4 + n.toNat := next_toNat (by omega)
          rw [hok] at hstep
          rw [hok, if_pos rfl] at ih
          exact hstep (ih (by omega))
      | false =>
        rw [hok] at hstep
        rw [hok, if_neg Bool.false_ne_true] at ih
        exact hstep (ih (by omega))
    · exact absurd hbad hreads.not_unreadable
    · exact absurd hbad.1 (hfirst.first p hle hgt)

end Outcome

/-! The loop ends. -/

/-- The blocks that may be read somewhere in the file. -/
def blocksIn (file : List UInt8) : List CBlock :=
  (List.range (file.length + 1)).filterMap fun p =>
    match CBlock.unserialize SER_DISK (file.drop p) with
    | .ok (block, _) => some block
    | .error _ => none

theorem ReadsAt.mem_blocksIn {nSize : UInt32} {block : CBlock} (h : ReadsAt file p nSize block) :
    block ∈ blocksIn file := by
  obtain ⟨blkdat, hsize, rest, hblock⟩ := h.size
  obtain ⟨hlen, rfl⟩ := readUInt32_ok hsize
  rw [List.length_drop] at hlen
  refine List.mem_filterMap.mpr ⟨p + 8, List.mem_range.mpr (by omega), ?_⟩
  rw [List.drop_drop] at hblock
  rw [hblock]

/-- `ProcessBlock` accepts the blocks of the file only so often: a number that no call makes larger is
smaller after each that accepts. -/
structure Wears (processBlock : CBlock → σ → Bool × σ) (file : List UInt8) (wear : σ → Nat) : Prop where
  accepted : ∀ block ∈ blocksIn file, ∀ node, (processBlock block node).1 = true →
    wear (processBlock block node).2 < wear node
  rejected : ∀ block ∈ blocksIn file, ∀ node, (processBlock block node).1 = false →
    wear (processBlock block node).2 ≤ wear node

/-- The loop from a position on ends, with any number of rounds from some number on. -/
def Ends (fTestNet : Bool) (file : List UInt8) (processBlock : CBlock → σ → Bool × σ) (nPos : UInt32)
    (node : σ) : Prop :=
  ∃ rounds r, (∀ more, loop fTestNet file processBlock (rounds + more) nPos node = some r) ∧
    Runs fTestNet file processBlock nPos node r

theorem Ends.round (hfile : file.length < 2 ^ 32 - 2 ^ 17) {node : σ}
    (hskip : ∀ p (q : UInt32), q.toNat = p + 4 → FirstStart fTestNet file nPos p →
      Ends fTestNet file processBlock q node)
    (hvisit : ∀ p (q nSize : UInt32) block, q.toNat = p + 4 → FirstStart fTestNet file nPos p →
      ReadsAt file p nSize block → Ends fTestNet file processBlock
        (if (processBlock block node).1 then q + (4 + nSize) else q) (processBlock block node).2) :
    Ends fTestNet file processBlock nPos node := by
  have hsucc : ∀ rounds more, rounds + 1 + more = rounds + more + 1 := by omega
  by_cases hend : nPos = 0xffffffff
  · refine ⟨1, ⟨[], node, false⟩, fun more => ?_, .ended fun m hm hstarts => ?_⟩
    · rw [Nat.add_comm, loop, if_pos hend]
    · have hroom := hstarts.le
      subst hend
      change 4294967295 ≤ m at hm
      omega
  · have hsearched := search_spec (n := nPos) fTestNet hfile (file.length + 1) (by omega) (by omega)
    rcases hsearched with ⟨hsearch, hroom⟩ | ⟨q, p, hsearch, hq, hfirst⟩
    · refine ⟨1, ⟨[], node, false⟩, fun more => ?_, .ended hroom⟩
      rw [Nat.add_comm, loop, if_neg hend, hsearch]
    · cases hsize : readUInt32 (file.drop q.toNat) with
      | error e =>
        refine ⟨1, ⟨[], node, true⟩, fun more => ?_, .thrown hfirst ⟨hfirst.starts, .inl ⟨e, ?_⟩⟩⟩
        · rw [Nat.add_comm, loop, if_neg hend, hsearch]
          simp only [hsize]
        · rw [← hq, hsize]
      | ok x =>
        obtain ⟨nSize, blkdat⟩ := x
        by_cases htried : 0 < nSize ∧ nSize.toNat ≤ MAX_BLOCK_SIZE
        · cases hblock : CBlock.unserialize SER_DISK blkdat with
          | error e =>
            refine ⟨1, ⟨[], node, true⟩, fun more => ?_, .thrown hfirst ⟨hfirst.starts, .inr
              ⟨nSize, blkdat, e, by rw [← hq, hsize], htried.1, htried.2, hblock⟩⟩⟩
            rw [Nat.add_comm, loop, if_neg hend, hsearch]
            simp only [hsize, if_pos htried, hblock]
          | ok y =>
            obtain ⟨block, rest⟩ := y
            have hreads : ReadsAt file p nSize block :=
              ⟨⟨blkdat, by rw [← hq, hsize], rest, hblock⟩, htried.1, htried.2⟩
            obtain ⟨rounds, r, hloop, hruns⟩ := hvisit p q nSize block hq hfirst hreads
            refine ⟨rounds + 1, _, fun more => ?_, .visited hfirst hq hreads hruns⟩
            rw [hsucc, loop, if_neg hend, hsearch]
            simp only [hsize, if_pos htried, hblock, hloop more, Option.map_some]
        · obtain ⟨rounds, r, hloop, hruns⟩ := hskip p q hq hfirst
          refine ⟨rounds + 1, r, fun more => ?_, .skipped hfirst hq ⟨nSize, blkdat, by rw [← hq, hsize], htried⟩
            hruns⟩
          rw [hsucc, loop, if_neg hend, hsearch]
          simp only [hsize, if_neg htried, hloop more]

/-- The number of acceptances that are left decreases, or the position grows. -/
theorem loop_ends (hfile : file.length < 2 ^ 32 - 2 ^ 17) {wear : σ → Nat}
    (hwear : Wears processBlock file wear) (k j : Nat) (nPos : UInt32) (node : σ) (hk : wear node ≤ k)
    (hj : file.length ≤ nPos.toNat + j) : Ends fTestNet file processBlock nPos node := by
  induction k using Nat.strong_induction_on generalizing j nPos node with
  | _ k ihk =>
    induction j generalizing nPos node with
    | zero =>
      -- no message start fits in behind the position
      have hnone : ∀ p, ¬ FirstStart fTestNet file nPos p := by
        intro p hfirst
        have hle := hfirst.le
        have hroom := hfirst.starts.le
        omega
      exact .round hfile (fun p _ _ hfirst => absurd hfirst (hnone p))
        fun p _ _ _ _ hfirst => absurd hfirst (hnone p)
    | succ j ih =>
      refine .round hfile (fun p q hq hfirst => ?_) fun p q nSize block hq hfirst hreads => ?_
      · have hle := hfirst.le
        exact ih q node hk (by omega)
      · have hle := hfirst.le
        cases hok : (processBlock block node).1 with
        | true =>
          have hless := hwear.accepted block hreads.mem_blocksIn node hok
          exact ihk (wear (processBlock block node).2) (by omega) file.length _ _ le_rfl (by omega)
        | false =>
          have hsame := hwear.rejected block hreads.mem_blocksIn node hok
          exact ih q _ (by omega) (by omega)

end Triangles.Import

namespace Triangles

open Outcome

/-! `ProcessBlock` accepts a block once, or as an orphan before. -/

section Accepts

variable {env : IndexEnv} {mode : CPMode} {host : ProcessHost} {n t : BlockNode} {block : CBlock}

/-- No block leaves the index. -/
def BlockNode.Grows (n t : BlockNode) : Prop :=
  ∀ h, n.mapBlockIndex.has h = true → t.mapBlockIndex.has h = true

theorem offer_grows : n.Grows (n.offer env mode host block).2 := by
  intro h hhas
  change (leaves (acceptBlock env mode (host.offering block) block) n.toFullNode).mapBlockIndex.has h = true
  rcases acceptBlock_index env mode (host.offering block) n.toFullNode block with
    hsame | ⟨pindexNew, hadmits, hentered⟩
  · rw [hsame.mapBlockIndex]
    exact hhas
  · rw [hentered.mapBlockIndex, BlockMap.has, hadmits.entered_find]
    split_ifs
    · rfl
    · exact hhas

theorem offer_accepted (h : (n.offer env mode host block).1 = true) :
    (n.offer env mode host block).2.mapBlockIndex.has (block.getHash env.toEnv) = true := by
  change (!fails (acceptBlock env mode (host.offering block) block) n.toFullNode) = true at h
  change (leaves (acceptBlock env mode (host.offering block) block) n.toFullNode).mapBlockIndex.has _ = true
  rcases acceptBlock_cases env mode (host.offering block) n.toFullNode block with
    ⟨e, he⟩ | ⟨pindexNew, hadmits, ⟨e, e', t, -, he⟩ | ⟨t, hrec, hacc⟩⟩
  · simp [fails, he] at h
  · simp [fails, he] at h
  · have hrecord := onState_sameIndex (recordBlockIndex env.toEnv (host.offering block).toHost block pindexNew)
    have hsame : SameIndex hadmits.entered
        (leaves (acceptPendingSyncCheckpoint env.toEnv (host.offering block).toHost) t) :=
      .trans _ _ _ (hrecord.ok hrec) (acceptPendingSyncCheckpoint_step t).sameIndex
    rw [leaves_ok hacc, hsame.mapBlockIndex, BlockMap.has, hadmits.entered_find, if_pos hadmits.hash.symm]
    rfl

theorem releaseLoop_grows (env : IndexEnv) (mode : CPMode) (host : ProcessHost) (rounds i : Nat)
    (w : BlockNode × List uint256) :
    w.1.Grows (releaseLoop env mode host rounds i w).1 := by
  have hfold : ∀ (l : List CBlock) (w : BlockNode × List uint256),
      w.1.Grows (l.foldl (releaseOrphan env mode host) w).1 := by
    intro l
    induction l with
    | nil => exact fun w h hhas => hhas
    | cons b l ih => exact fun w h hhas => ih _ h (offer_grows h hhas)
  induction rounds generalizing i w with
  | zero => exact fun h hhas => hhas
  | succ rounds ih =>
    rw [releaseLoop]
    cases w.2[i]? with
    | none => exact fun h hhas => hhas
    | some hashPrev => exact fun h hhas => ih _ _ h (hfold _ w h hhas)

/-- A block that `ProcessBlock` takes is new; it is an orphan then, or in the index. -/
theorem processBlock_ok (h : processBlock env mode host block n = .ok () t) :
    n.mapBlockIndex.has (block.getHash env.toEnv) = false ∧
      n.mapOrphanBlocks.lookup (block.getHash env.toEnv) = none ∧
      ((t.mapBlockIndex = n.mapBlockIndex ∧
          t.mapOrphanBlocks = n.mapOrphanBlocks.insert (block.getHash env.toEnv) block) ∨
        (n.Grows t ∧ t.mapBlockIndex.has (block.getHash env.toEnv) = true)) := by
  unfold processBlock at h
  cases hchecks : processChecks env.toEnv (host.offering block).toHost n block with
  | error e =>
    simp only [hchecks] at h
    cases h
  | ok u =>
    have hnew : n.mapBlockIndex.has (block.getHash env.toEnv) = false := by
      have hall := hchecks
      simp only [processChecks, check_bind] at hall
      simpa using hall.1
    refine ⟨hnew, processChecks_ok hchecks, ?_⟩
    simp only [hchecks] at h
    cases hprev : n.mapBlockIndex.find block.hashPrevBlock with
    | none =>
      simp only [hprev, storeOrphan] at h
      split_ifs at h
      cases h
      exact .inl ⟨rfl, rfl⟩
    | some p =>
      simp only [hprev] at h
      have hgrows : n.Grows (n.offer env mode host block).2 := offer_grows
      have haccepted : (n.offer env mode host block).1 = true →
          (n.offer env mode host block).2.mapBlockIndex.has (block.getHash env.toEnv) = true := offer_accepted
      revert h hgrows haccepted
      cases n.offer env mode host block with
      | mk accepted n' =>
        intro h hgrows haccepted
        cases accepted with
        | false => cases h
        | true =>
          have hloop := releaseLoop_grows env mode host (n'.mapOrphanBlocksByPrev.length + 1) 0
            (n', [block.getHash env.toEnv])
          have hall : n'.Grows t := by
            cases h
            cases host.master with
            | false => exact hloop
            | true =>
              intro x hx
              change (sendSyncCheckpoint _ _ _).mapBlockIndex.has x = true
              rw [sendSyncCheckpoint_index]
              exact hloop x hx
          exact .inr ⟨fun x hx => hall x (hgrows x hx), hall _ (haccepted rfl)⟩

/-- A block that it turns down changes nothing for the orphans. -/
theorem processBlock_error {e : Reject} (h : processBlock env mode host block n = .error e t) :
    n.Grows t ∧ t.mapOrphanBlocks = n.mapOrphanBlocks := by
  unfold processBlock at h
  cases hchecks : processChecks env.toEnv (host.offering block).toHost n block with
  | error e =>
    simp only [hchecks] at h
    cases h
    exact ⟨fun _ hx => hx, rfl⟩
  | ok u =>
    simp only [hchecks] at h
    cases hprev : n.mapBlockIndex.find block.hashPrevBlock with
    | none =>
      simp only [hprev, storeOrphan] at h
      split_ifs at h
      cases h
      exact ⟨fun _ hx => hx, rfl⟩
    | some p =>
      simp only [hprev] at h
      have hgrows : n.Grows (n.offer env mode host block).2 := offer_grows
      have horphans : (n.offer env mode host block).2.mapOrphanBlocks = n.mapOrphanBlocks := rfl
      revert h hgrows horphans
      cases n.offer env mode host block with
      | mk accepted n' =>
        intro h hgrows horphans
        cases accepted with
        | false =>
          cases h
          exact ⟨hgrows, horphans⟩
        | true => cases h

end Accepts

/-! The import of a file. -/

namespace Import

/-- How often blocks of the file may still be accepted: those that are not in the index, and for as
many of them as are not orphans either. -/
def wear (env : Env) (file : List UInt8) (s : BlockNode × Nat) : Nat :=
  let hashes := ((blocksIn file).map (CBlock.getHash env)).toFinset
  (hashes.filter fun h => s.1.mapBlockIndex.has h = false).card * (hashes.card + 1) +
    (hashes.filter fun h => s.1.mapOrphanBlocks.lookup h = none).card

/-- Fewer hashes pass a test that is stricter, and that one of them no longer passes. -/
theorem card_filter_lt {hashes : Finset uint256} {before after : uint256 → Prop} [DecidablePred before]
    [DecidablePred after] (hless : ∀ h, after h → before h) {h : uint256} (hmem : h ∈ hashes)
    (hbefore : before h) (hafter : ¬ after h) : (hashes.filter after).card < (hashes.filter before).card := by
  have hsub : hashes.filter after ⊆ hashes.filter before :=
    Finset.monotone_filter_right hashes (fun h _ => hless h)
  refine Finset.card_lt_card ((Finset.ssubset_iff_of_subset hsub).mpr ⟨h, ?_, fun hin => ?_⟩)
  · exact Finset.mem_filter.mpr ⟨hmem, hbefore⟩
  · exact hafter (Finset.mem_filter.mp hin).2

/-- What is not in the index was not in it before. -/
theorem not_has_of_grows {n t : BlockNode} (hgrows : n.Grows t) {h : uint256}
    (hnot : t.mapBlockIndex.has h = false) : n.mapBlockIndex.has h = false := by
  by_contra hhas
  rw [hgrows h (by simpa using hhas)] at hnot
  cases hnot

theorem processImported_wears (env : IndexEnv) (mode : CPMode) (hosts : Nat → ProcessHost)
    (file : List UInt8) : Wears (processImported env mode hosts) file (wear env.toEnv file) := by
  constructor
  · intro block hblock s hok
    obtain ⟨n, k⟩ := s
    have hmem : block.getHash env.toEnv ∈ ((blocksIn file).map (CBlock.getHash env.toEnv)).toFinset :=
      List.mem_toFinset.mpr (List.mem_map_of_mem hblock)
    simp only [processImported] at hok ⊢
    cases hrun : processBlock env mode (hosts k) block n with
    | error e t => simp [fails, hrun] at hok
    | ok u t =>
      obtain ⟨hnew, hnone, hcases⟩ := processBlock_ok hrun
      rw [leaves_ok hrun]
      simp only [wear]
      generalize ((blocksIn file).map (CBlock.getHash env.toEnv)).toFinset = hashes at hmem
      rcases hcases with ⟨hindex, horphans⟩ | ⟨hgrows, hhas⟩
      · -- an orphan more
        rw [hindex, horphans]
        refine Nat.add_lt_add_left (card_filter_lt (fun h hnot => ?_) hmem hnone ?_) _
        · rw [Assoc.lookup_insert_eq] at hnot
          split_ifs at hnot
          exact hnot
        · rw [Assoc.lookup_insert_eq, if_pos rfl]
          simp
      · -- a block of the file less that is not in the index
        have hless : (hashes.filter fun h => t.mapBlockIndex.has h = false).card <
            (hashes.filter fun h => n.mapBlockIndex.has h = false).card :=
          card_filter_lt (fun h => not_has_of_grows hgrows) hmem hnew (by simp [hhas])
        have hall : (hashes.filter fun h => t.mapOrphanBlocks.lookup h = none).card ≤ hashes.card :=
          Finset.card_filter_le _ _
        have hmul := Nat.mul_le_mul_right (hashes.card + 1) hless
        rw [Nat.succ_mul] at hmul
        omega
  · intro block hblock s hno
    obtain ⟨n, k⟩ := s
    simp only [processImported] at hno ⊢
    cases hrun : processBlock env mode (hosts k) block n with
    | ok u t => simp [fails, hrun] at hno
    | error e t =>
      obtain ⟨hgrows, horphans⟩ := processBlock_error hrun
      rw [leaves_error hrun]
      simp only [wear, horphans]
      refine Nat.add_le_add_right (Nat.mul_le_mul_right _ (Finset.card_le_card ?_)) _
      exact Finset.monotone_filter_right _ fun h _ => not_has_of_grows hgrows

/-- The block of the record at `p` was passed to `ProcessBlock`. -/
def Result.Passed {σ : Type} (r : Result σ) (p : Nat) (block : CBlock) : Prop :=
  ∃ v ∈ r.visits, v.nPos.toNat = p + 4 ∧ v.block = block

/-- A record that was accepted begins in front of `p` and reaches behind it. -/
def Result.Overlaps {σ : Type} (r : Result σ) (p : Nat) : Prop := ∃ v ∈ r.visits, v.Covers p

/-- The import of a file ends; and an intact record that overlaps no accepted record in front of it is
passed to `ProcessBlock` if and only if its size is one that is tried and no record in front of it, other
than inside an accepted one, makes the reading throw an exception. -/
theorem loadExternalBlockFile_passes_iff (env : IndexEnv) (mode : CPMode) (hosts : Nat → ProcessHost)
    (fTestNet : Bool) (file : List UInt8) (n : BlockNode) (hfile : file.length < 2 ^ 32 - 2 ^ 17) :
    ∃ rounds fRet r,
      (∀ more, loadExternalBlockFile fTestNet file (processImported env mode hosts) (rounds + more) (n, 0) =
        some (fRet, r)) ∧
      ∀ p nSize block, Intact fTestNet file p nSize block → ¬ r.Overlaps p →
        (r.Passed p block ↔ nSize.toNat ≤ MAX_BLOCK_SIZE ∧
          ∀ u < p, Unreadable fTestNet file u → r.Overlaps u) := by
  have hwears := processImported_wears env mode hosts file
  obtain ⟨rounds, r, hloop, hruns⟩ : Ends fTestNet file (processImported env mode hosts) 0 (n, 0) :=
    loop_ends hfile hwears _ file.length 0 (n, 0) le_rfl (by omega)
  refine ⟨rounds, _, r, fun more => by rw [loadExternalBlockFile, hloop more]; rfl, ?_⟩
  intro p nSize block hintact hfree
  constructor
  · rintro ⟨v, hv, hpos, rfl⟩
    obtain ⟨p', hpos', hreads⟩ := hruns.visits_read v hv
    obtain rfl : p' = p := by omega
    obtain ⟨rest, hsize⟩ := hintact.reads_size
    obtain ⟨blkdat, hsize', -⟩ := hreads.size
    rw [hsize] at hsize'
    cases hsize'
    refine ⟨hreads.small, fun u hu hbad => ?_⟩
    rcases hruns.stops (Nat.zero_le u) hbad (by omega) with hcover | hbefore
    · exact hcover
    · have hlt := hbefore v hv
      omega
  · rintro ⟨hsmall, hbad⟩
    rcases hruns.complete (Nat.zero_le p) hintact hsmall (by omega) with
      hvisit | hcover | ⟨u, -, hu, hunreadable, hnone⟩
    · exact hvisit
    · exact absurd hcover hfree
    · obtain ⟨v, hv, hcover⟩ := hbad u hu hunreadable
      exact absurd hcover (hnone v hv)

namespace Sample

def smallBlock : CBlock where
  nVersion := 1
  hashPrevBlock := 0
  hashMerkleRoot := 0
  nTime := 0
  nBits := 0xffffffff
  nNonce := 0xffffffff
  vtx := []
  vchBlockSig := []

def record : List UInt8 :=
  (pchMessageStart false).1 ++ (wordBytes 4 82 ++ smallBlock.serialize SER_DISK)

def damaged : List UInt8 := (pchMessageStart false).1 ++ (wordBytes 4 1 ++ record)

theorem damaged_unreadable : Unreadable false damaged 0 := by
  refine ⟨rfl, .inr ⟨1, record, .sizeTooLarge, rfl, by decide, by decide, rfl⟩⟩

theorem damaged_intact : Intact false damaged 8 82 smallBlock where
  starts := rfl
  fits := by decide
  size := rfl
  bytes := ⟨[], rfl⟩

end Sample

/-- The import of the damaged file ends without the intact record. -/
theorem damaged_record_lost : Sample.damaged.length < 2 ^ 32 - 2 ^ 17 ∧
    ∃ rounds fRet r, (∀ more, loadExternalBlockFile false Sample.damaged
        (processImported Sample.arrivalEnv .STRICT fun _ => Sample.arrivalHost) (rounds + more)
        (Sample.rootNode.withoutOrphans, 0) = some (fRet, r)) ∧
      ¬ ∀ p nSize block, Intact false Sample.damaged p nSize block → ¬ r.Overlaps p → r.Passed p block := by
  have hfile : Sample.damaged.length < 2 ^ 32 - 2 ^ 17 := by decide
  have hwears := processImported_wears Sample.arrivalEnv .STRICT (fun _ => Sample.arrivalHost) Sample.damaged
  obtain ⟨rounds, r, hloop, hruns⟩ : Ends false Sample.damaged (processImported Sample.arrivalEnv .STRICT
      fun _ => Sample.arrivalHost) 0 (Sample.rootNode.withoutOrphans, 0) :=
    loop_ends hfile hwears _ Sample.damaged.length 0 _ le_rfl (by omega)
  refine ⟨hfile, rounds, _, r, fun more => by rw [loadExternalBlockFile, hloop more]; rfl, fun hall => ?_⟩
  -- nothing lies in front of the record that cannot be read
  have hbefore : ∀ v ∈ r.visits, v.nPos.toNat < 0 + 4 := by
    rcases hruns.stops (Nat.zero_le 0) Sample.damaged_unreadable (by omega) with
      ⟨v, hv, -, hlt, -⟩ | hbefore
    · obtain ⟨p, hp, -⟩ := hruns.visits_read v hv
      omega
    · exact hbefore
  have hnone : ∀ v ∈ r.visits, False := by
    intro v hv
    obtain ⟨p, hp, -⟩ := hruns.visits_read v hv
    have hlt := hbefore v hv
    omega
  obtain ⟨v, hv, -⟩ := hall 8 82 Sample.smallBlock Sample.damaged_intact fun ⟨v, hv, _⟩ => hnone v hv
  exact hnone v hv

/-- Of a file with nothing but an intact record. -/
theorem record_passes_iff : ∃ rounds fRet r, (∀ more, loadExternalBlockFile false Sample.record
        (processImported Sample.arrivalEnv .STRICT fun _ => Sample.arrivalHost) (rounds + more)
        (Sample.rootNode.withoutOrphans, 0) = some (fRet, r)) ∧
      ∀ p nSize block, Intact false Sample.record p nSize block → ¬ r.Overlaps p →
        (r.Passed p block ↔ nSize.toNat ≤ MAX_BLOCK_SIZE ∧
          ∀ u < p, Unreadable false Sample.record u → r.Overlaps u) :=
  loadExternalBlockFile_passes_iff Sample.arrivalEnv .STRICT (fun _ => Sample.arrivalHost) false
    Sample.record Sample.rootNode.withoutOrphans (by decide)

end Import

end Triangles
