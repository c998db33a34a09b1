import Triangles.Model.SmsgNet
import Triangles.Proofs.MessageFile

/-! Where the handlers of the other messages read. -/

namespace Triangles

open Std (ExtTreeMap)
open Spans

section Inside

/-- A handler reads nothing behind its vector, the sizes it computes do not wrap around, and its loop
runs no more often than once for eight bytes. -/
structure ControlInside (size : Nat) (r : ControlReads) : Prop where
  reads : Inside size r.reads
  sizes : ∀ n ∈ r.sizes, n < 2 ^ 32
  rounds : r.rounds ≤ size / 8

theorem controlInside_nothing (size : Nat) : ControlInside size {} := ⟨inside_nil, nofun, Nat.zero_le _⟩

/-- A handler that reads one number and stops. -/
theorem controlInside_head {size n : Nat} (h : n ≤ size) :
    ControlInside size { reads := [(0, n)] } where
  reads := by simpa using h
  sizes := nofun
  rounds := Nat.zero_le _

variable {now : Int} {peer : SecMsgNode} {s : SmsgStore} {vchData : List UInt8}

theorem invReads_inside : ControlInside vchData.length (invReads now peer vchData) := by
  have hmax : SMSG_RETENTION / SMSG_BUCKET_LEN + 1 = 289 := by decide
  unfold invReads
  simp only [hmax]
  split
  · exact controlInside_nothing _
  · rename_i hlong
    split
    · exact controlInside_nothing _
    · split
      · exact controlInside_head (by omega)
      · rename_i hbuckets
        split
        · exact controlInside_head (by omega)
        · rename_i hsize
          have hfits : 4 + 16 * leValue (slice vchData 0 4) ≤ vchData.length := by omega
          refine ⟨?_, by simp only [List.mem_singleton, forall_eq]; omega, by simp only; omega⟩
          simp only [inside_cons, inside_append]
          exact ⟨by omega, ⟨inside_table (by decide) hfits, inside_table (by decide) hfits⟩,
            inside_table (by decide) hfits⟩

/-- A vector whose number of buckets is so large that the size computed for it wraps around, to a
size that the vector has. -/
def ShowWraps (vchData : List UInt8) : Prop :=
  4 ≤ vchData.length ∧ 2 ^ 29 ≤ leValue (slice vchData 0 4) ∧
    (4 + leValue (slice vchData 0 4) * 8) % 2 ^ 32 ≤ vchData.length

theorem showReads_inside_iff :
    ControlInside vchData.length (showReads vchData) ↔ ¬ShowWraps vchData := by
  unfold showReads ShowWraps
  simp only
  split
  · exact ⟨fun _ => by omega, fun _ => controlInside_nothing _⟩
  · rename_i hlong
    split
    · exact ⟨fun _ => by omega, fun _ => controlInside_head (by omega)⟩
    · rename_i hsize
      constructor
      · intro h hwraps
        have hlt := h.sizes (4 + leValue (slice vchData 0 4) * 8) List.mem_cons_self
        omega
      · intro h
        have hfits : 4 + 8 * leValue (slice vchData 0 4) ≤ vchData.length := by omega
        refine ⟨?_, by simp only [List.mem_singleton, forall_eq]; omega, by simp only; omega⟩
        rw [inside_cons]
        exact ⟨by simp only; omega, inside_table (by decide) hfits⟩

theorem tokenReads_inside {n size : Nat} (h : 8 + 16 * n ≤ size) : Inside size (tokenReads n) :=
  inside_append.mpr ⟨inside_table (by decide) h, inside_table (by decide) h⟩

theorem haveReads_inside : ControlInside vchData.length (haveReads now s vchData) := by
  unfold haveReads
  simp only
  split
  · exact controlInside_nothing _
  · rename_i hlong
    split
    · exact controlInside_head (by omega)
    · have hfits : 8 + 16 * ((vchData.length - 8) / 16) ≤ vchData.length := by omega
      refine ⟨?_, nofun, by simp only; omega⟩
      simp only [inside_cons, inside_append]
      exact ⟨by omega, tokenReads_inside hfits, inside_table (by decide) hfits⟩

theorem bunchLoop_found {tokenSet : TokenSet} {token : TokenKey} {offset : Nat}
    (h : tokenSet[token]? = some offset) (rest : List TokenKey) (r : Nat × List UInt8) :
    bunchLoop s tokenSet (token :: rest) r =
      if bunchFull (addToBunch s token offset r) then addToBunch s token offset r
      else bunchLoop s tokenSet rest (addToBunch s token offset r) := by
  have hfull : ∀ r, bunchFull r = true ↔ 500 ≤ r.1 ∨ 96000 ≤ 12 + r.2.length :=
    fun r => decide_eq_true_iff
  simp only [bunchLoop, h, hfull]
  rfl

theorem cons_of_take {n : Nat} {token : TokenKey} {rest tokens : List TokenKey}
    (htake : tokens.take (n + 1) = (token :: rest).take (n + 1))
    (hlen : tokens.length = (token :: rest).length) :
    ∃ rest', tokens = token :: rest' ∧ rest'.take n = rest.take n ∧ rest'.length = rest.length := by
  cases tokens with
  | nil => cases hlen
  | cons token' rest' =>
    rw [List.take_succ_cons, List.take_succ_cons, List.cons.injEq] at htake
    exact ⟨rest', by rw [htake.1], htake.2, Nat.succ.inj hlen⟩

/-- The loop over the wanted tokens runs at most once for each, and the tokens after it has ended
make no difference. -/
theorem bunchRounds_spec (tokenSet : TokenSet) (tokens : List TokenKey) (r : Nat × List UInt8) :
    bunchRounds s tokenSet tokens r ≤ tokens.length ∧
      ∀ tokens', tokens'.take (bunchRounds s tokenSet tokens r) =
          tokens.take (bunchRounds s tokenSet tokens r) → tokens'.length = tokens.length →
        bunchLoop s tokenSet tokens' r = bunchLoop s tokenSet tokens r := by
  induction tokens generalizing r with
  | nil =>
    refine ⟨Nat.le_refl _, fun tokens' _ hlen => ?_⟩
    rw [List.eq_nil_of_length_eq_zero hlen]
  | cons token rest ih =>
    unfold bunchRounds
    cases hfind : tokenSet[token]? with
    | none =>
      obtain ⟨hle, hsame⟩ := ih r
      refine ⟨Nat.succ_le_succ hle, fun tokens' htake hlen => ?_⟩
      obtain ⟨rest', rfl, hrest, hlen'⟩ := cons_of_take htake hlen
      simp only [bunchLoop, hfind]
      exact hsame rest' hrest hlen'
    | some offset =>
      simp only
      cases hfull : bunchFull (addToBunch s token offset r) with
      | true =>
        refine ⟨Nat.succ_le_succ (Nat.zero_le _), fun tokens' htake hlen => ?_⟩
        obtain ⟨rest', rfl, -, -⟩ := cons_of_take htake hlen
        rw [bunchLoop_found hfind, bunchLoop_found hfind, hfull, if_pos rfl, if_pos rfl]
      | false =>
        obtain ⟨hle, hsame⟩ := ih (addToBunch s token offset r)
        refine ⟨Nat.succ_le_succ hle, fun tokens' htake hlen => ?_⟩
        obtain ⟨rest', rfl, hrest, hlen'⟩ := cons_of_take htake hlen
        rw [bunchLoop_found hfind, bunchLoop_found hfind, hfull]
        exact hsame rest' hrest hlen'

theorem wantReads_inside : ControlInside vchData.length (wantReads s vchData) := by
  unfold wantReads
  split
  · exact controlInside_nothing _
  · rename_i hlong
    cases s.smsgBuckets[int64Of (slice vchData 0 8)]? with
    | none => exact controlInside_head (by omega)
    | some b =>
      simp only
      have hrounds := (bunchRounds_spec (s := s) b.setTokens
        ((List.range ((vchData.length - 8) / 16)).map fun i => tokenAt vchData (8 + 16 * i))
        (0, [])).1
      rw [List.length_map, List.length_range] at hrounds
      refine ⟨?_, nofun, by simp only; omega⟩
      rw [inside_cons]
      exact ⟨by simp only; omega, tokenReads_inside (by omega)⟩

theorem timeReads_inside : ControlInside vchData.length (timeReads vchData) := by
  unfold timeReads
  split
  · exact controlInside_nothing _
  · exact controlInside_head (by omega)

end Inside

/-- The messages are parsed within their bounds, except for a `smsgShow` whose number of buckets makes
the size wrap around. -/
theorem control_inside_iff (now : Int) (peer : SecMsgNode) (s : SmsgStore) (vchData : List UInt8)
    (strCommand : SmsgCommand) :
    ControlInside vchData.length (controlReads now peer s vchData strCommand) ↔
      ¬(strCommand = .smsgShow ∧ ShowWraps vchData) := by
  cases strCommand with
  | smsgShow =>
    rw [and_iff_right rfl]
    exact showReads_inside_iff
  | smsgInv => exact ⟨fun _ => by simp, fun _ => invReads_inside⟩
  | smsgHave => exact ⟨fun _ => by simp, fun _ => haveReads_inside⟩
  | smsgWant => exact ⟨fun _ => by simp, fun _ => wantReads_inside⟩
  | smsgMatch => exact ⟨fun _ => by simp, fun _ => timeReads_inside⟩
  | smsgIgnore => exact ⟨fun _ => by simp, fun _ => timeReads_inside⟩
  | smsgMsg => exact ⟨fun _ => by simp, fun _ => controlInside_nothing _⟩
  | smsgPing => exact ⟨fun _ => by simp, fun _ => controlInside_nothing _⟩
  | smsgPong => exact ⟨fun _ => by simp, fun _ => controlInside_nothing _⟩
  | smsgDisabled => exact ⟨fun _ => by simp, fun _ => controlInside_nothing _⟩

namespace Sample

def wrapShow : List UInt8 := wordBytes 4 (2 ^ 29)

theorem wrapShow_count : leValue (slice wrapShow 0 4) = 2 ^ 29 := by decide

end Sample

/-- Four bytes are taken for the times of 536870912 buckets. -/
theorem show_wraps : ¬ControlInside Sample.wrapShow.length
    (controlReads 0 {} {} Sample.wrapShow .smsgShow) := by
  intro h
  have hlen : Sample.wrapShow.length = 4 := rfl
  have hrounds := h.rounds
  simp only [controlReads, showReads, hlen, Sample.wrapShow_count] at hrounds
  rw [if_neg (by decide), if_neg (by decide)] at hrounds
  exact absurd hrounds (by decide)

end Triangles
