import Triangles.Proofs.NetSend
import Triangles.Proofs.RoundTrip

/-! What `ReceiveMsgBytes` makes of a stream: the messages do not depend on how the stream is cut into
chunks, and a message that was sent comes out as it was. -/

namespace Triangles.Net

open Codec

variable {start : MessageStart}

/-! Buffers that are filled from the front. -/

theorem resize_of_le {v : List UInt8} {n : Nat} (h : v.length ≤ n) :
    resize v n = v ++ List.replicate (n - v.length) 0 := by
  simp [resize, List.take_of_length_le h]

theorem memcpy_resize {got src : List UInt8} {n k : Nat} (hroom : got.length + k ≤ n)
    (hsrc : k ≤ src.length) :
    memcpy (resize got n) got.length src k = .ok (resize (got ++ src.take k) n) := by
  have hgot : got.length ≤ n := by omega
  have hlen : (got ++ src.take k).length ≤ n := by simp; omega
  have hroom' : got.length + k ≤ (resize got n).length := by simp [resize_of_le hgot]; omega
  rw [memcpy, if_pos ⟨hroom', hsrc⟩, resize_of_le hgot, resize_of_le hlen]
  simp [List.drop_append, hsrc, Nat.sub_sub]

theorem asInt_of_lt {n : Nat} (h : n < 2 ^ 31) : asInt n = n := by
  apply Int.bmod_eq_of_le <;> omega

/-! The header. -/

def headerOf (bytes : List UInt8) : CMessageHeader where
  pchMessageStart := bytes.take 4
  pchCommand := (bytes.drop 4).take 12
  nMessageSize := UInt32.ofNat (leValue ((bytes.drop 16).take 4))
  nChecksum := UInt32.ofNat (leValue ((bytes.drop 20).take 4))

theorem unserialize_headerOf {bytes : List UInt8} (h : bytes.length = 24) :
    CMessageHeader.unserialize bytes = .ok (headerOf bytes, []) := by
  have h4 : MESSAGE_START_SIZE ≤ bytes.length := by simp [h, MESSAGE_START_SIZE]
  have h12 : COMMAND_SIZE ≤ (bytes.drop 4).length := by simp [h, COMMAND_SIZE]
  have h16 : 4 ≤ (bytes.drop 16).length := by simp [h]
  have h20 : 4 ≤ (bytes.drop 20).length := by simp [h]
  change (readBytes StreamError.endOfData MESSAGE_START_SIZE bytes >>= fun a =>
    readBytes StreamError.endOfData COMMAND_SIZE a.2 >>= fun b => readUInt32 b.2 >>= fun c =>
      readUInt32 c.2 >>= fun d =>
        Except.ok ((⟨a.1, b.1, c.1, d.1⟩ : CMessageHeader), d.2)) = _
  rw [readBytes_of_le h4]
  change (readBytes StreamError.endOfData COMMAND_SIZE (bytes.drop 4) >>= fun b => _) = _
  rw [readBytes_of_le h12]
  have hdrop : (bytes.drop 4).drop COMMAND_SIZE = bytes.drop 16 := by simp [COMMAND_SIZE]
  change (readUInt32 ((bytes.drop 4).drop COMMAND_SIZE) >>= fun c => _) = _
  rw [hdrop, readUInt32_of_le h16]
  have hdrop : (bytes.drop 16).drop 4 = bytes.drop 20 := by simp
  change (readUInt32 ((bytes.drop 16).drop 4) >>= fun d => _) = _
  rw [hdrop, readUInt32_of_le h20]
  have hrest : (bytes.drop 20).drop 4 = [] := by simp [h]
  change Except.ok (headerOf bytes, (bytes.drop 20).drop 4) = _
  rw [hrest]

/-! The states of a message while its bytes come in. -/

/-- Some bytes of the header are there. -/
def inHeader (start : MessageStart) (got : List UInt8) : CNetMessage :=
  { CNetMessage.new start with
    hdrbuf := resize got 24
    nHdrPos := UInt32.ofNat got.length }

/-- The header is there, and some bytes of the data. -/
def inData (hdr : CMessageHeader) (got : List UInt8) : CNetMessage where
  in_data := true
  hdrbuf := []
  hdr := hdr
  nHdrPos := 24
  vRecv := resize got hdr.nMessageSize.toNat
  nDataPos := UInt32.ofNat got.length

def refused (start : MessageStart) (hdr : CMessageHeader) : CNetMessage :=
  { CNetMessage.new start with hdrbuf := [], hdr := hdr, nHdrPos := 24 }

theorem ofNat_toNat {n : Nat} (h : n < 2 ^ 32) : (UInt32.ofNat n).toNat = n :=
  UInt32.toNat_ofNat_of_lt' h

/-- What is still missing of `size` bytes. -/
theorem remaining_toNat {size : UInt32} {n : Nat} (h : n ≤ size.toNat) :
    (size - UInt32.ofNat n).toNat = size.toNat - n := by
  have hlt := size.toNat_lt
  have hn : (UInt32.ofNat n).toNat = n := ofNat_toNat (by omega)
  rw [UInt32.toNat_sub_of_le, hn]
  rw [UInt32.le_iff_toNat_le, hn]
  exact h

theorem complete_inData (hdr : CMessageHeader) {got : List UInt8}
    (h : got.length ≤ hdr.nMessageSize.toNat) :
    (inData hdr got).complete = decide (got.length = hdr.nMessageSize.toNat) := by
  have hlt := hdr.nMessageSize.toNat_lt
  have hnat : (UInt32.ofNat got.length).toNat = got.length := ofNat_toNat (by omega)
  simp only [CNetMessage.complete, inData, Bool.true_eq_false, if_false]
  rw [Bool.eq_iff_iff, beq_iff_eq, decide_eq_true_iff, ← UInt32.toNat_inj, hnat, eq_comm]

/-- What `readHeader` does with bytes that do not complete the header. -/
theorem readHeader_more {got pch : List UInt8} (h : got.length + pch.length < 24) :
    (inHeader start got).readHeader pch = .ok (inHeader start (got ++ pch), pch.length) := by
  have hpos : (UInt32.ofNat got.length).toNat = got.length := ofNat_toNat (by omega)
  have hrem : (24 - UInt32.ofNat got.length).toNat = 24 - got.length := remaining_toNat (by simp; omega)
  have hmin : min (24 - got.length) pch.length = pch.length := by omega
  have hpos' : UInt32.ofNat got.length + UInt32.ofNat pch.length = UInt32.ofNat (got ++ pch).length := by
    rw [List.length_append, UInt32.ofNat_add]
  have hlt : UInt32.ofNat (got ++ pch).length < 24 := by
    rw [UInt32.lt_iff_toNat_lt, ofNat_toNat (by simp; omega)]
    simpa using h
  simp only [CNetMessage.readHeader, inHeader, hrem, hmin, hpos]
  rw [memcpy_resize (by omega) le_rfl, List.take_length]
  simp only [hpos', bind, Except.bind, if_pos hlt, asInt_of_lt (show pch.length < 2 ^ 31 by omega)]
  rfl

theorem readHeader_full {got src rest : List UInt8} (h : got.length + src.length = 24)
    (hgot : got.length < 24) :
    (inHeader start got).readHeader (src ++ rest) =
      .ok (if MAX_SIZE < (headerOf (got ++ src)).nMessageSize.toNat then
          (refused start (headerOf (got ++ src)), -1)
        else (inData (headerOf (got ++ src)) [], (src.length : Int))) := by
  have hpos : (UInt32.ofNat got.length).toNat = got.length := ofNat_toNat (by omega)
  have hrem : (24 - UInt32.ofNat got.length).toNat = 24 - got.length := remaining_toNat (by simp; omega)
  have hmin : min (24 - got.length) (src ++ rest).length = src.length := by simp; omega
  have hpos' : UInt32.ofNat got.length + UInt32.ofNat src.length = 24 := by
    rw [← UInt32.ofNat_add, h]
    rfl
  have hfull : resize (got ++ src) 24 = got ++ src := by
    rw [resize_of_le (by simp; omega)]
    simp [h]
  simp only [CNetMessage.readHeader, inHeader, hrem, hmin, hpos]
  rw [memcpy_resize (by omega) (by simp), List.take_left]
  simp only [hpos', hfull, bind, Except.bind, if_neg (show ¬ (24 : UInt32) < 24 by decide),
    unserialize_headerOf (show (got ++ src).length = 24 by simpa using h),
    asInt_of_lt (show src.length < 2 ^ 31 by omega)]
  split_ifs <;> rfl

/-- What `readData` does with bytes of the data, and with what follows them. -/
theorem readData_eq {hdr : CMessageHeader} {got src rest : List UInt8}
    (hsize : hdr.nMessageSize.toNat ≤ MAX_SIZE)
    (hroom : got.length + src.length ≤ hdr.nMessageSize.toNat)
    (hrest : rest = [] ∨ got.length + src.length = hdr.nMessageSize.toNat) :
    (inData hdr got).readData (src ++ rest) = .ok (inData hdr (got ++ src), src.length) := by
  have hmax : MAX_SIZE < 2 ^ 31 := by decide
  have hpos : (UInt32.ofNat got.length).toNat = got.length := ofNat_toNat (by omega)
  have hrem : (hdr.nMessageSize - UInt32.ofNat got.length).toNat =
      hdr.nMessageSize.toNat - got.length := remaining_toNat (by omega)
  have hmin : min (hdr.nMessageSize.toNat - got.length) (src ++ rest).length = src.length := by
    rcases hrest with rfl | hfull
    · simp; omega
    · simp; omega
  have hpos' : UInt32.ofNat got.length + UInt32.ofNat src.length = UInt32.ofNat (got ++ src).length := by
    rw [List.length_append, UInt32.ofNat_add]
  simp only [CNetMessage.readData, inData, hrem, hmin, hpos]
  rw [memcpy_resize hroom (by simp), List.take_left]
  simp only [hpos', bind, Except.bind, asInt_of_lt (show src.length < 2 ^ 31 by omega)]
  rfl

/-! What a stream is made of. -/

/-- The messages of a stream and whether it goes on: whole ones, and at its end a part of one or a
header that asks for too much. -/
inductive Frames (start : MessageStart) : List UInt8 → Bool → List CNetMessage → Prop
  | nothing : Frames start [] true []
  | header (got : List UInt8) (hne : got ≠ []) (hlt : got.length < 24) :
      Frames start got true [inHeader start got]
  | refused (head rest : List UInt8) (hhead : head.length = 24)
      (hbig : MAX_SIZE < (headerOf head).nMessageSize.toNat) :
      Frames start (head ++ rest) false [refused start (headerOf head)]
  | data (head got : List UInt8) (hhead : head.length = 24)
      (hsize : (headerOf head).nMessageSize.toNat ≤ MAX_SIZE)
      (hlt : got.length < (headerOf head).nMessageSize.toNat) :
      Frames start (head ++ got) true [inData (headerOf head) got]
  | message (head got rest : List UInt8) {fRet : Bool} {l : List CNetMessage} (hhead : head.length = 24)
      (hsize : (headerOf head).nMessageSize.toNat ≤ MAX_SIZE)
      (hlen : got.length = (headerOf head).nMessageSize.toNat) (h : Frames start rest fRet l) :
      Frames start (head ++ (got ++ rest)) fRet (inData (headerOf head) got :: l)

variable {s s' rest head got pch : List UInt8} {fRet fRet' : Bool} {l l' : List CNetMessage}

/-- A header and no more data than it asks for. -/
theorem Frames.part (hhead : head.length = 24) (hsize : (headerOf head).nMessageSize.toNat ≤ MAX_SIZE)
    (hle : got.length ≤ (headerOf head).nMessageSize.toNat) :
    Frames start (head ++ got) true [inData (headerOf head) got] := by
  rcases hle.lt_or_eq with hlt | hlen
  · exact .data head got hhead hsize hlt
  · have hnothing : Frames start [] true [] := .nothing
    have h := Frames.message head got [] hhead hsize hlen hnothing
    rwa [List.append_nil] at h

/-- Bytes behind a header that asks for too much change nothing. -/
theorem Frames.extend (h : Frames start s fRet l) (hstop : fRet = false) (t : List UInt8) :
    Frames start (s ++ t) false l := by
  induction h with
  | nothing => cases hstop
  | header got hne hlt => cases hstop
  | refused head rest hhead hbig =>
    rw [List.append_assoc]
    exact .refused head (rest ++ t) hhead hbig
  | data head got hhead hsize hlt => cases hstop
  | message head got rest hhead hsize hlen h ih =>
    rw [List.append_assoc, List.append_assoc]
    exact .message head got (rest ++ t) hhead hsize hlen (ih hstop)

theorem Frames.short (h : Frames start s fRet l) (hlt : s.length < 24) :
    fRet = true ∧ l = if s = [] then [] else [inHeader start s] := by
  cases h with
  | nothing => simp
  | header got hne _ => simp [hne]
  | refused head rest hhead _ =>
    rw [List.length_append, hhead] at hlt
    omega
  | data head got hhead _ _ =>
    rw [List.length_append, hhead] at hlt
    omega
  | message head got rest hhead _ _ _ =>
    rw [List.length_append, List.length_append, hhead] at hlt
    omega

theorem Frames.long (h : Frames start (head ++ rest) fRet l) (hhead : head.length = 24) :
    (MAX_SIZE < (headerOf head).nMessageSize.toNat ∧ fRet = false ∧
      l = [Net.refused start (headerOf head)]) ∨
    ((headerOf head).nMessageSize.toNat ≤ MAX_SIZE ∧
      ((rest.length < (headerOf head).nMessageSize.toNat ∧ fRet = true ∧
        l = [inData (headerOf head) rest]) ∨
      (∃ got rest' l', rest = got ++ rest' ∧ got.length = (headerOf head).nMessageSize.toNat ∧
        Frames start rest' fRet l' ∧ l = inData (headerOf head) got :: l'))) := by
  generalize hs : head ++ rest = s at h
  cases h with
  | nothing => simp [← List.length_eq_zero_iff, hhead] at hs
  | header got _ hlt =>
    have hlen := congrArg List.length hs
    simp only [List.length_append] at hlen
    omega
  | refused head' rest' hhead' hbig =>
    obtain ⟨rfl, rfl⟩ := List.append_inj hs (hhead.trans hhead'.symm)
    exact .inl ⟨hbig, rfl, rfl⟩
  | data head' got hhead' hsize hlt =>
    obtain ⟨rfl, rfl⟩ := List.append_inj hs (hhead.trans hhead'.symm)
    exact .inr ⟨hsize, .inl ⟨hlt, rfl, rfl⟩⟩
  | message head' got rest' hhead' hsize hlen h =>
    obtain ⟨rfl, rfl⟩ := List.append_inj hs (hhead.trans hhead'.symm)
    exact .inr ⟨hsize, .inr ⟨got, rest', _, rfl, hlen, h, rfl⟩⟩

/-- A stream is read in one way only. -/
theorem Frames.unique (h : Frames start s fRet l) (h' : Frames start s fRet' l') :
    fRet = fRet' ∧ l = l' := by
  induction h generalizing fRet' l' with
  | nothing =>
    obtain ⟨hok, hl⟩ := h'.short (by simp)
    exact ⟨hok.symm, by simpa using hl.symm⟩
  | header got hne hlt =>
    obtain ⟨hok, hl⟩ := h'.short hlt
    exact ⟨hok.symm, by simpa [hne] using hl.symm⟩
  | refused head rest hhead hbig =>
    rcases h'.long hhead with ⟨-, rfl, rfl⟩ | ⟨hsize, -⟩
    · exact ⟨rfl, rfl⟩
    · omega
  | data head got hhead hsize hlt =>
    rcases h'.long hhead with ⟨hbig, -⟩ | ⟨-, ⟨-, rfl, rfl⟩ | ⟨got', rest', l'', rfl, hlen, -⟩⟩
    · omega
    · exact ⟨rfl, rfl⟩
    · simp only [List.length_append] at hlt
      omega
  | message head got rest hhead hsize hlen _ ih =>
    rcases h'.long hhead with ⟨hbig, -⟩ | ⟨-, ⟨hlt, -⟩ | ⟨got', rest', l'', hrest, hlen', hrest', rfl⟩⟩
    · omega
    · simp only [List.length_append] at hlt
      omega
    · obtain ⟨rfl, rfl⟩ := List.append_inj hrest (hlen.trans hlen'.symm)
      obtain ⟨rfl, rfl⟩ := ih hrest'
      exact ⟨rfl, rfl⟩

/-! The loop. -/

def receiveRound (start : MessageStart) (vRecvMsg : List CNetMessage) (pch : List UInt8) :
    Except Fault (List CNetMessage × Int) := do
  let (before, msg) := currentMessage start vRecvMsg
  let (msg, handled) ← msg.absorb pch
  return (before ++ [msg], handled)

theorem receiveLoop_nil (rounds : Nat) : receiveLoop start rounds l [] = .ok (true, l) := by
  cases rounds <;> rfl

theorem receiveLoop_succ (rounds : Nat) (hne : pch ≠ []) :
    receiveLoop start (rounds + 1) l pch = (receiveRound start l pch >>= fun x =>
      if x.2 < 0 then .ok (false, x.1) else receiveLoop start rounds x.1 (pch.drop x.2.toNat)) := by
  cases pch with
  | nil => exact absurd rfl hne
  | cons b pch =>
    simp only [receiveLoop, receiveRound]
    cases (currentMessage start l).2.absorb (b :: pch) <;> rfl

/-- Whole messages in front do not matter. -/
theorem receiveRound_cons {msg : CNetMessage} (h : msg.complete = true) :
    receiveRound start (msg :: l) pch =
      (receiveRound start l pch >>= fun x => .ok (msg :: x.1, x.2)) := by
  have hcurrent : currentMessage start (msg :: l) =
      (msg :: (currentMessage start l).1, (currentMessage start l).2) := by
    cases l with
    | nil => simp [currentMessage, h]
    | cons a l =>
      simp only [currentMessage, List.getLast?_cons_cons]
      cases hlast : (a :: l).getLast? with
      | none => simp at hlast
      | some last => cases hc : last.complete <;> simp [hc]
  simp only [receiveRound, hcurrent]
  cases (currentMessage start l).2.absorb pch <;> rfl

/-- A round takes some bytes and the stream goes on, or it refuses the message. -/
def Handles (start : MessageStart) (s : List UInt8) (l : List CNetMessage) (pch : List UInt8) : Prop :=
  (∃ src rest l', pch = src ++ rest ∧ src ≠ [] ∧
    receiveRound start l pch = .ok (l', (src.length : Int)) ∧ Frames start (s ++ src) true l') ∨
  (∃ l', receiveRound start l pch = .ok (l', -1) ∧ Frames start (s ++ pch) false l')

/-- The messages `l` end in one that is read on. -/
theorem receiveRound_of {msg msg' : CNetMessage} {handled : Int}
    (hcurrent : currentMessage start l = ([], msg)) (habsorb : msg.absorb pch = .ok (msg', handled)) :
    receiveRound start l pch = .ok ([msg'], handled) := by
  simp only [receiveRound, hcurrent, habsorb]
  rfl

theorem handles_header (hcurrent : currentMessage start l = ([], inHeader start got))
    (hlt : got.length < 24) (hne : pch ≠ []) : Handles start got l pch := by
  by_cases hmore : got.length + pch.length < 24
  · have habsorb : (inHeader start got).absorb pch = .ok (inHeader start (got ++ pch), (pch.length : Int)) :=
      readHeader_more hmore
    refine .inl ⟨pch, [], _, by simp, hne, receiveRound_of hcurrent habsorb, ?_⟩
    exact .header _ (by simp [hne]) (by simpa using hmore)
  · obtain ⟨src, rest, rfl, hsrc⟩ : ∃ src rest, pch = src ++ rest ∧ src.length = 24 - got.length :=
      ⟨pch.take (24 - got.length), pch.drop (24 - got.length), by simp, by simp; omega⟩
    have hhead : (got ++ src).length = 24 := by simp; omega
    have hread : (inHeader start got).absorb (src ++ rest) = _ :=
      readHeader_full (by simpa using hhead) hlt
    by_cases hbig : MAX_SIZE < (headerOf (got ++ src)).nMessageSize.toNat
    · rw [if_pos hbig] at hread
      refine .inr ⟨_, receiveRound_of hcurrent hread, ?_⟩
      rw [← List.append_assoc]
      exact .refused _ rest hhead hbig
    · rw [if_neg hbig] at hread
      have hsrc' : src ≠ [] := by
        rintro rfl
        simp only [List.length_nil] at hsrc
        omega
      refine .inl ⟨src, rest, _, rfl, hsrc', receiveRound_of hcurrent hread, ?_⟩
      have h : Frames start (got ++ src ++ []) true [inData (headerOf (got ++ src)) []] :=
        .part hhead (not_lt.mp hbig) (by simp)
      rwa [List.append_nil] at h

theorem handles_data (hhead : head.length = 24) (hsize : (headerOf head).nMessageSize.toNat ≤ MAX_SIZE)
    (hlt : got.length < (headerOf head).nMessageSize.toNat) (hne : pch ≠ []) :
    Handles start (head ++ got) [inData (headerOf head) got] pch := by
  have hcurrent : currentMessage start [inData (headerOf head) got] = ([], inData (headerOf head) got) := by
    simp [currentMessage, complete_inData _ hlt.le, hlt.ne]
  obtain ⟨src, rest, rfl, hroom, hrest⟩ : ∃ src rest, pch = src ++ rest ∧
      got.length + src.length ≤ (headerOf head).nMessageSize.toNat ∧
      (rest = [] ∨ got.length + src.length = (headerOf head).nMessageSize.toNat) := by
    refine ⟨pch.take ((headerOf head).nMessageSize.toNat - got.length),
      pch.drop ((headerOf head).nMessageSize.toNat - got.length), by simp, by simp; omega, ?_⟩
    by_cases hall : pch.length ≤ (headerOf head).nMessageSize.toNat - got.length
    · exact .inl (List.drop_eq_nil_of_le hall)
    · right
      simp
      omega
  have hsrc : src ≠ [] := by
    rintro rfl
    rcases hrest with rfl | hfull
    · exact hne rfl
    · simp only [List.length_nil] at hfull
      omega
  refine .inl ⟨src, rest, _, rfl, hsrc, receiveRound_of hcurrent (readData_eq hsize hroom hrest), ?_⟩
  rw [List.append_assoc]
  exact .part hhead hsize (by simpa using hroom)

theorem Frames.handles (h : Frames start s fRet l) (hgo : fRet = true) (hne : pch ≠ []) :
    Handles start s l pch := by
  induction h with
  | nothing => exact handles_header rfl (by simp) hne
  | header got _ hlt => exact handles_header rfl hlt hne
  | refused head rest hhead hbig => cases hgo
  | data head got hhead hsize hlt => exact handles_data hhead hsize hlt hne
  | message head got rest hhead hsize hlen _ ih =>
    have hcomplete : (inData (headerOf head) got).complete = true := by
      simp [complete_inData _ hlen.le, hlen]
    rcases ih hgo with ⟨src, pch', l', rfl, hsrc, hround, hframes⟩ | ⟨l', hround, hframes⟩
    · refine .inl ⟨src, pch', inData (headerOf head) got :: l', rfl, hsrc, ?_, ?_⟩
      · rw [receiveRound_cons hcomplete, hround]
        rfl
      · rw [List.append_assoc, List.append_assoc]
        exact .message head got _ hhead hsize hlen hframes
    · refine .inr ⟨inData (headerOf head) got :: l', ?_, ?_⟩
      · rw [receiveRound_cons hcomplete, hround]
        rfl
      · rw [List.append_assoc, List.append_assoc]
        exact .message head got _ hhead hsize hlen hframes

/-- The loop ends, writes nowhere else, and leaves what the whole stream is made of. -/
theorem Frames.loop_ok (h : Frames start s true l) {rounds : Nat} (hrounds : pch.length ≤ rounds) :
    ∃ fRet l', receiveLoop start rounds l pch = .ok (fRet, l') ∧ Frames start (s ++ pch) fRet l' := by
  induction rounds generalizing s l pch with
  | zero =>
    obtain rfl := List.eq_nil_of_length_eq_zero (Nat.le_zero.mp hrounds)
    exact ⟨true, l, receiveLoop_nil 0, by rwa [List.append_nil]⟩
  | succ rounds ih =>
    by_cases hne : pch = []
    · subst hne
      exact ⟨true, l, receiveLoop_nil _, by rwa [List.append_nil]⟩
    · rw [receiveLoop_succ rounds hne]
      rcases h.handles rfl hne with ⟨src, rest, l', rfl, hsrc, hround, hframes⟩ | ⟨l', hround, hframes⟩
      · have hpos := List.length_pos_iff.mpr hsrc
        have hrounds : rest.length ≤ rounds := by
          simp only [List.length_append] at hrounds
          omega
        obtain ⟨fRet, l'', hloop, hframes'⟩ := ih hframes hrounds
        refine ⟨fRet, l'', ?_, by rwa [List.append_assoc] at hframes'⟩
        rw [hround]
        change (if (src.length : Int) < 0 then Except.ok (false, l') else
          receiveLoop start rounds l' ((src ++ rest).drop (src.length : Int).toNat)) = _
        rw [if_neg (by omega), Int.toNat_natCast, List.drop_left, hloop]
      · refine ⟨false, l', ?_, hframes⟩
        rw [hround]
        rfl

theorem Frames.call_ok (h : Frames start s true l) (pch : List UInt8) :
    ∃ fRet l', receiveMsgBytes start l pch = .ok (fRet, l') ∧ Frames start (s ++ pch) fRet l' :=
  h.loop_ok le_rfl

theorem receive_whole (stream : List UInt8) :
    ∃ fRet l, receiveMsgBytes start [] stream = .ok (fRet, l) ∧ Frames start stream fRet l :=
  Frames.nothing.call_ok stream

theorem Frames.whole (h : Frames start s fRet l) :
    receiveMsgBytes start [] s = .ok (fRet, l) := by
  obtain ⟨fRet', l', hrun, hframes⟩ : ∃ fRet' l', receiveMsgBytes start [] s = .ok (fRet', l') ∧
      Frames start s fRet' l' := receive_whole s
  obtain ⟨rfl, rfl⟩ := h.unique hframes
  exact hrun

/-- The calls for the chunks, up to the one that refuses a message. -/
theorem Frames.calls_ok (h : Frames start s true l) (chunks : List (List UInt8)) :
    ∃ fRet l' received rest, receiveChunks start l chunks = .ok (fRet, l', rest) ∧
      chunks = received ++ rest ∧ Frames start (s ++ received.flatten) fRet l' ∧
      (fRet = true → rest = []) ∧
      (fRet = false → received ≠ [] ∧ ∃ l'', Frames start (s ++ received.dropLast.flatten) true l'') := by
  induction chunks generalizing s l with
  | nil => exact ⟨true, l, [], [], rfl, rfl, by simpa using h, fun _ => rfl, by simp⟩
  | cons chunk chunks ih =>
    obtain ⟨fRet, l', hcall, hframes⟩ := h.call_ok chunk
    cases fRet with
    | false =>
      refine ⟨false, l', [chunk], chunks, ?_, rfl, by simpa using hframes, by simp, fun _ => ?_⟩
      · rw [receiveChunks, hcall]
        rfl
      · exact ⟨by simp, l, by simpa using h⟩
    | true =>
      obtain ⟨fRet, l'', received, rest, hcalls, rfl, hframes', hall, hlast⟩ := ih hframes
      refine ⟨fRet, l'', chunk :: received, rest, ?_, rfl, by simpa using hframes', hall, fun hf => ?_⟩
      · rw [receiveChunks, hcall]
        exact hcalls
      · obtain ⟨hne, l₀, hbefore⟩ := hlast hf
        refine ⟨by simp, l₀, ?_⟩
        rw [List.dropLast_cons_of_ne_nil hne]
        simpa using hbefore

/-! Where the stream is refused. -/

/-- `ReceiveMsgBytes` returns false with byte `n` of the stream, and not before it. -/
def RefusedAt (start : MessageStart) (stream : List UInt8) (n : Nat) : Prop :=
  n ≤ stream.length ∧ (∃ l, receiveMsgBytes start [] (stream.take n) = .ok (false, l)) ∧
    ∀ m < n, ∃ l, receiveMsgBytes start [] (stream.take m) = .ok (true, l)

theorem refusedAt_within {a b stream : List UInt8} (ha : ∃ l, Frames start a true l)
    (hb : Frames start (a ++ b) false l) (hpre : a ++ b <+: stream) :
    ∃ n, RefusedAt start stream n ∧ a.length < n ∧ n ≤ (a ++ b).length := by
  classical
  have hhere : ∃ n l, receiveMsgBytes start [] (stream.take n) = .ok (false, l) :=
    ⟨(a ++ b).length, l, by rw [List.prefix_iff_eq_take.mp hpre |>.symm, hb.whole]⟩
  have hle : Nat.find hhere ≤ (a ++ b).length :=
    Nat.find_min' hhere ⟨l, by rw [List.prefix_iff_eq_take.mp hpre |>.symm, hb.whole]⟩
  have hbefore : ∀ m < Nat.find hhere, ∃ l, receiveMsgBytes start [] (stream.take m) = .ok (true, l) := by
    intro m hm
    obtain ⟨fRet, l', hrun, -⟩ := receive_whole (stream.take m)
    cases fRet with
    | true => exact ⟨l', hrun⟩
    | false => exact absurd ⟨l', hrun⟩ (Nat.find_min hhere hm)
  refine ⟨Nat.find hhere, ⟨hle.trans hpre.length_le, Nat.find_spec hhere, hbefore⟩, ?_, hle⟩
  -- refused within `a`, it would be refused there
  by_contra hnot
  obtain ⟨l₀, ha⟩ := ha
  obtain ⟨l₁, hrun⟩ := Nat.find_spec hhere
  obtain ⟨fRet, l₂, hrun', hframes⟩ : ∃ fRet l', receiveMsgBytes start []
      (stream.take (Nat.find hhere)) = .ok (fRet, l') ∧
      Frames start (stream.take (Nat.find hhere)) fRet l' := receive_whole _
  obtain ⟨rfl, rfl⟩ : false = fRet ∧ l₁ = l₂ := by simpa [hrun] using hrun'
  obtain ⟨t, ht⟩ : stream.take (Nat.find hhere) <+: a := by
    have hpre' : a <+: stream := (List.prefix_append a b).trans hpre
    have hlen := hpre'.length_le
    rw [List.prefix_iff_eq_take.mp hpre', List.prefix_take_iff]
    refine ⟨List.take_prefix _ _, ?_⟩
    rw [List.length_take]
    omega
  have hstop := hframes.extend rfl t
  rw [ht] at hstop
  cases (ha.unique hstop).1

/-! Messages as they are sent. -/

theorem memcpy_middle {a b c src : List UInt8} {pos n : Nat} (hpos : a.length = pos)
    (hb : b.length = n) (hsrc : src.length = n) :
    memcpy (a ++ (b ++ c)) pos src n = .ok (a ++ (src ++ c)) := by
  subst hpos hb
  rw [memcpy, if_pos ⟨by simp, hsrc.ge⟩, List.take_left, List.take_of_length_le hsrc.le,
    ← List.drop_drop, List.drop_left, List.drop_left, List.append_assoc]

@[simp] theorem strncpy_length (psz : List UInt8) (n : Nat) : (CMessageHeader.strncpy psz n).length = n := by
  simp [CMessageHeader.strncpy]

def sentHeader (start : MessageStart) (hash : List UInt8 → uint256) (pszCommand payload : List UInt8) :
    CMessageHeader :=
  { CMessageHeader.new start pszCommand (UInt32.ofNat payload.length) with
    nChecksum := UInt32.ofNat (hash payload) }

variable {hash : List UInt8 → uint256} {pszCommand payload : List UInt8}

theorem sentHeader_length : (sentHeader start hash pszCommand payload).serialize.length = 24 := by
  have hstart : start.1.length = 4 := start.2
  simp [CMessageHeader.serialize, sentHeader, CMessageHeader.new, hstart, COMMAND_SIZE]

theorem setSizeAndChecksum_new :
    setSizeAndChecksum hash ((CMessageHeader.new start pszCommand 0).serialize ++ payload) =
      .ok ((sentHeader start hash pszCommand payload).serialize ++ payload) := by
  have hstart : start.1.length = 4 := start.2
  have hlen : UInt32.ofNat ((CMessageHeader.new start pszCommand 0).serialize ++ payload).length -
      UInt32.ofNat HEADER_SIZE = UInt32.ofNat payload.length := by
    have hsize : ((CMessageHeader.new start pszCommand 0).serialize ++ payload).length =
        payload.length + HEADER_SIZE := by
      simp [CMessageHeader.serialize, CMessageHeader.new, hstart, COMMAND_SIZE, HEADER_SIZE,
        MESSAGE_START_SIZE]
      omega
    rw [hsize, UInt32.ofNat_add, add_sub_cancel_right]
  rw [setSizeAndChecksum, hlen]
  -- the start and the command, the size, the checksum, the payload
  generalize hfront : start.1 ++ CMessageHeader.strncpy pszCommand COMMAND_SIZE = front
  have hfrontlen : front.length = MESSAGE_SIZE_OFFSET := by
    rw [← hfront, List.length_append, hstart, strncpy_length]
    rfl
  have hbytes : ∀ hdr : CMessageHeader, hdr.pchMessageStart = start.1 →
      hdr.pchCommand = CMessageHeader.strncpy pszCommand COMMAND_SIZE → hdr.serialize ++ payload =
        front ++ (wordBytes 4 hdr.nMessageSize.toNat ++ (wordBytes 4 hdr.nChecksum.toNat ++ payload)) := by
    intro hdr hs hc
    rw [CMessageHeader.serialize, hs, hc, ← hfront]
    simp
  rw [hbytes _ rfl rfl, hbytes _ rfl rfl, memcpy_middle hfrontlen (by simp) (by simp)]
  have hpayload : (front ++ (wordBytes 4 (UInt32.ofNat payload.length).toNat ++
      (wordBytes 4 (CMessageHeader.new start pszCommand 0).nChecksum.toNat ++ payload))).drop HEADER_SIZE =
        payload := by
    rw [← List.append_assoc, ← List.append_assoc]
    apply List.drop_left'
    simp [hfrontlen, HEADER_SIZE, MESSAGE_SIZE_OFFSET, COMMAND_SIZE, MESSAGE_START_SIZE]
  simp only [bind, Except.bind, hpayload]
  rw [if_neg (by simp [hfrontlen, CHECKSUM_OFFSET]; omega), ← List.append_assoc,
    memcpy_middle (by simp [hfrontlen, CHECKSUM_OFFSET]) (by simp) (by simp), List.append_assoc]
  rfl

theorem serialize_reads {hdr : CMessageHeader} (hstart : hdr.pchMessageStart.length = MESSAGE_START_SIZE)
    (hcommand : hdr.pchCommand.length = COMMAND_SIZE) :
    Reads CMessageHeader.unserialize hdr.serialize hdr := by
  have h4 := readBytes_reads StreamError.endOfData hdr.pchMessageStart
  have h12 := readBytes_reads StreamError.endOfData hdr.pchCommand
  rw [hstart] at h4
  rw [hcommand] at h12
  exact h4.bind (h12.bind ((readUInt32_reads hdr.nMessageSize).bind
    ((readUInt32_reads hdr.nChecksum).map fun nChecksum =>
      (⟨hdr.pchMessageStart, hdr.pchCommand, hdr.nMessageSize, nChecksum⟩ : CMessageHeader))))

theorem headerOf_sent : headerOf (sentHeader start hash pszCommand payload).serialize =
    sentHeader start hash pszCommand payload := by
  have hcommand : (sentHeader start hash pszCommand payload).pchCommand.length = COMMAND_SIZE :=
    strncpy_length pszCommand COMMAND_SIZE
  have hreads := serialize_reads start.2 hcommand []
  rw [List.append_nil, unserialize_headerOf sentHeader_length] at hreads
  exact (Prod.mk.inj (Except.ok.inj hreads)).1

theorem getCommand_strncpy (hdr : CMessageHeader)
    (h : hdr.pchCommand = CMessageHeader.strncpy pszCommand COMMAND_SIZE) :
    hdr.getCommand = (pszCommand.takeWhile (· != 0)).take COMMAND_SIZE := by
  have hchars : ∀ c ∈ (pszCommand.takeWhile (· != 0)).take COMMAND_SIZE, (c != 0) = true :=
    fun c hc => List.all_eq_true.mp List.all_takeWhile c (List.mem_of_mem_take hc)
  rw [CMessageHeader.getCommand, h, CMessageHeader.strncpy]
  generalize (pszCommand.takeWhile (· != 0)).take COMMAND_SIZE = chars at hchars
  have htake : ∀ n, (chars ++ List.replicate n 0).takeWhile (· != 0) = chars := by
    intro n
    rw [List.takeWhile_append_of_pos hchars]
    cases n <;> simp [List.replicate_succ]
  simp only [htake]
  split_ifs with hlast
  · rfl
  · cases hn : COMMAND_SIZE - chars.length with
    | zero => simp
    | succ n =>
      refine absurd ?_ hlast
      rw [hn, List.replicate_succ', ← List.append_assoc, List.getLast?_concat]

def wire (start : MessageStart) (hash : List UInt8 → uint256) (m : List UInt8 × List UInt8) : List UInt8 :=
  (sentHeader start hash m.1 m.2).serialize ++ m.2

def sendCalls (m : List UInt8 × List UInt8) : List CNode.Call :=
  [.beginMessage m.1, .write m.2, .endMessage false]

theorem sendCalls_run (start : MessageStart) (hash : List UInt8 → uint256) (answers : SendAnswers)
    {pnode : CNode} (h : Sound pnode) (hss : pnode.ssSend = []) (m : List UInt8 × List UInt8) :
    ∃ pnode', pnode.run answers start hash (sendCalls m) = .ok pnode' ∧ Sound pnode' ∧
      pnode'.ssSend = [] ∧ pnode'.queued = pnode.queued ++ [wire start hash m] := by
  have hlen : (wire start hash m).length = 24 + m.2.length := by simp [wire, sentHeader_length]
  have hne : wire start hash m ≠ [] := by
    rw [← List.length_pos_iff]
    omega
  have hqueued := h.queue hne
  -- `BeginMessage` and the payload
  have hbegin : pnode.run answers start hash (sendCalls m) =
      CNode.endMessage answers hash false { pnode with
        ssSend := (CMessageHeader.new start m.1 0).serialize ++ m.2 } := by
    simp only [CNode.run, sendCalls, List.foldlM_cons, List.foldlM_nil, CNode.step, CNode.beginMessage,
      hss, ne_eq, not_true_eq_false, if_false, bind, Except.bind]
    cases CNode.endMessage answers hash false { pnode with
      ssSend := (CMessageHeader.new start m.1 0).serialize ++ m.2 } <;> rfl
  have hnil : (CMessageHeader.new start m.1 0).serialize ++ m.2 ≠ [] := by
    simp [← List.length_pos_iff, CMessageHeader.serialize, CMessageHeader.new]
  rw [hbegin, CNode.endMessage, if_neg Bool.false_ne_true, if_neg hnil, setSizeAndChecksum_new]
  change ∃ pnode', (if pnode.vSendMsg.isEmpty = true then _ else _) = _ ∧ _
  split_ifs
  · obtain ⟨pnode', hsend, hsound, hq, hs⟩ := hqueued.socketSendData_ok answers
    exact ⟨pnode', hsend, hsound, hs, hq⟩
  · exact ⟨_, rfl, hqueued, rfl, rfl⟩

theorem sendCalls_runs (start : MessageStart) (hash : List UInt8 → uint256) (answers : SendAnswers)
    {pnode : CNode} (h : Sound pnode) (hss : pnode.ssSend = [])
    (messages : List (List UInt8 × List UInt8)) :
    ∃ pnode', pnode.run answers start hash (messages.flatMap sendCalls) = .ok pnode' ∧
      pnode'.queued = pnode.queued ++ messages.map (wire start hash) := by
  induction messages generalizing pnode with
  | nil => exact ⟨pnode, rfl, by simp⟩
  | cons m messages ih =>
    obtain ⟨pnode₁, hrun, hsound, hss, hqueued⟩ := sendCalls_run start hash answers h hss m
    obtain ⟨pnode₂, hruns, hqueued'⟩ := ih hsound hss
    refine ⟨pnode₂, ?_, by simp [hqueued', hqueued]⟩
    rw [CNode.run] at hrun hruns
    rw [List.flatMap_cons, CNode.run, List.foldlM_append, hrun]
    exact hruns

/-- A received message is one that was sent. -/
structure Recovered (start : MessageStart) (hash : List UInt8 → uint256) (m : List UInt8 × List UInt8)
    (msg : CNetMessage) : Prop where
  complete : msg.complete = true
  start : msg.hdr.pchMessageStart = start.1
  command : msg.hdr.getCommand = (m.1.takeWhile (· != 0)).take COMMAND_SIZE
  size : msg.hdr.nMessageSize.toNat = m.2.length
  checksum : msg.hdr.nChecksum = UInt32.ofNat (hash msg.vRecv)
  data : msg.vRecv = m.2

theorem frames_wires (start : MessageStart) (hash : List UInt8 → uint256)
    (messages : List (List UInt8 × List UInt8))
    (hsize : ∀ m ∈ messages, m.2.length ≤ MAX_SIZE) :
    ∃ l, Frames start (messages.map (wire start hash)).flatten true l ∧
      List.Forall₂ (Recovered start hash) messages l := by
  induction messages with
  | nil => exact ⟨[], .nothing, .nil⟩
  | cons m messages ih =>
    obtain ⟨l, hframes, hall⟩ := ih fun m hm => hsize m (List.mem_cons_of_mem _ hm)
    have hle := hsize m List.mem_cons_self
    have hmax : MAX_SIZE < 2 ^ 32 := by decide
    have hnat : (sentHeader start hash m.1 m.2).nMessageSize.toNat = m.2.length := ofNat_toNat (by omega)
    have hhead : headerOf (sentHeader start hash m.1 m.2).serialize = sentHeader start hash m.1 m.2 :=
      headerOf_sent
    have hmessage := Frames.message (sentHeader start hash m.1 m.2).serialize m.2
      (messages.map (wire start hash)).flatten sentHeader_length (by rw [hhead, hnat]; exact hle)
      (by rw [hhead, hnat]) hframes
    rw [hhead] at hmessage
    refine ⟨inData (sentHeader start hash m.1 m.2) m.2 :: l, ?_, .cons ?_ hall⟩
    · simpa [wire] using hmessage
    · have hdata : (inData (sentHeader start hash m.1 m.2) m.2).vRecv = m.2 := by
        change resize m.2 (sentHeader start hash m.1 m.2).nMessageSize.toNat = m.2
        rw [hnat, resize_of_le le_rfl]
        simp
      exact {
        complete := by simp [complete_inData _ hnat.ge, hnat]
        start := rfl
        command := getCommand_strncpy _ rfl
        size := hnat
        checksum := by rw [hdata]; rfl
        data := hdata }

/-- However a stream is cut into calls of `ReceiveMsgBytes`, the calls end without a fault and leave the
messages and the answer that one call for the whole stream leaves, and the byte at which they are
refused is the same. What `BeginMessage` and `EndMessage` make of payloads of at most `MAX_SIZE` bytes is
received as it was sent. -/
theorem receiveChunks_whole (start : MessageStart) :
    (∀ chunks : List (List UInt8), ∃ fRet l received rest,
      receiveMsgBytes start [] chunks.flatten = .ok (fRet, l) ∧
      receiveChunks start [] chunks = .ok (fRet, l, rest) ∧
      chunks = received ++ rest ∧ (fRet = true → rest = []) ∧
      (fRet = false → ∃ n, RefusedAt start chunks.flatten n ∧
        received.dropLast.flatten.length < n ∧ n ≤ received.flatten.length)) ∧
    (∀ (answers : SendAnswers) (hash : List UInt8 → uint256) (messages : List (List UInt8 × List UInt8)),
      (∀ m ∈ messages, m.2.length ≤ MAX_SIZE) →
      ∃ pnode, CNode.run answers start hash {} (messages.flatMap sendCalls) = .ok pnode ∧
        ∀ chunks : List (List UInt8), chunks.flatten = pnode.queued.flatten →
          ∃ l, receiveChunks start [] chunks = .ok (true, l, []) ∧
            List.Forall₂ (Recovered start hash) messages l) := by
  constructor
  · intro chunks
    obtain ⟨fRet, l, received, rest, hcalls, rfl, hframes, hall, hlast⟩ :=
      (Frames.nothing : Frames start [] true []).calls_ok chunks
    rw [List.nil_append] at hframes
    cases fRet with
    | true =>
      obtain rfl := hall rfl
      refine ⟨true, l, received, [], ?_, hcalls, rfl, hall, by simp⟩
      rw [List.append_nil, hframes.whole]
    | false =>
      have hwhole := hframes.extend rfl rest.flatten
      rw [← List.flatten_append] at hwhole
      refine ⟨false, l, received, rest, hwhole.whole, hcalls, rfl, hall, fun _ => ?_⟩
      obtain ⟨hne, l', hbefore⟩ := hlast rfl
      -- the call that refuses, and those before it
      have hsplit : received.flatten = received.dropLast.flatten ++ received.getLast hne := by
        conv_lhs => rw [← List.dropLast_append_getLast hne]
        simp
      rw [hsplit] at hframes ⊢
      refine refusedAt_within ⟨l', by simpa using hbefore⟩ hframes ?_
      rw [← hsplit, List.flatten_append]
      exact List.prefix_append _ _
  · intro answers hash messages hsize
    obtain ⟨pnode, hrun, hqueued⟩ := sendCalls_runs start hash answers sound_start rfl messages
    refine ⟨pnode, hrun, fun chunks hchunks => ?_⟩
    obtain ⟨l, hframes, hall⟩ := frames_wires start hash messages hsize
    obtain ⟨fRet, l', received, rest, hcalls, rfl, hframes', hrest, -⟩ :=
      (Frames.nothing : Frames start [] true []).calls_ok chunks
    rw [List.nil_append] at hframes'
    have hstream : (received ++ rest).flatten = (messages.map (wire start hash)).flatten := by
      rw [hchunks, hqueued]
      rfl
    cases fRet with
    | true =>
      obtain rfl := hrest rfl
      rw [List.append_nil] at hstream
      rw [hstream] at hframes'
      obtain ⟨-, rfl⟩ := hframes.unique hframes'
      exact ⟨l, hcalls, hall⟩
    | false =>
      have hstop := hframes'.extend rfl rest.flatten
      rw [← List.flatten_append, hstream] at hstop
      cases (hframes.unique hstop).1

/-- A `ping` of eight bytes is received in any chunks. -/
theorem ping_received : ∃ pnode,
    CNode.run Sample.tenBytes Sample.mainStart (fun _ => 0) {}
      ([([0x70, 0x69, 0x6e, 0x67], [1, 2, 3, 4, 5, 6, 7, 8])].flatMap sendCalls) = .ok pnode ∧
    ∀ chunks : List (List UInt8), chunks.flatten = pnode.queued.flatten →
      ∃ l, receiveChunks Sample.mainStart [] chunks = .ok (true, l, []) ∧
        List.Forall₂ (Recovered Sample.mainStart fun _ => 0)
          [([0x70, 0x69, 0x6e, 0x67], [1, 2, 3, 4, 5, 6, 7, 8])] l :=
  (receiveChunks_whole Sample.mainStart).2 Sample.tenBytes (fun _ => 0) _ (by decide)

end Triangles.Net
