import WinBlaze.Lib.ByteWords
import WinBlaze.Scanner.Ntfs.MftBitmap

/-!
# Data runs

A data run is a header byte with two widths, a length and a signed distance from
the run before it. The decoder of the bitmap's model works on numbers; here the
same loop is spelled in machine words, with every index, sum and shift checked,
and both are shown to accept exactly the well-formed run lists.
-/

namespace WinBlaze

namespace Ntfs

open ByteCodec ByteWords

/-! ## Machine words -/

/-- A byte slice. No allocation is longer than `isize::MAX`. -/
structure Slice where
  bytes : List UInt8
  length_lt : bytes.length < 2 ^ 63

def usizeAdd (a b : ℕ) : Parse ℕ := if a + b < 2 ^ 64 then .ok (a + b) else .error .panic

def usizeSub (a b : ℕ) : Parse ℕ := if b ≤ a then .ok (a - b) else .error .panic

def usizeMul (a b : ℕ) : Parse ℕ := if a * b < 2 ^ 64 then .ok (a * b) else .error .panic

/-- `<<` on a 64-bit word; the amount must be less than its width. -/
def shiftLeft64 (bits : BitVec 64) (amount : ℕ) : Parse (BitVec 64) :=
  if amount < 64 then .ok (bits <<< amount) else .error .panic

/-- `>>` on an `i64`, which keeps the sign. -/
def shiftRight64 (bits : BitVec 64) (amount : ℕ) : Parse (BitVec 64) :=
  if amount < 64 then .ok (bits.sshiftRight amount) else .error .panic

def checkedAdd (a b : Int64) : Option Int64 :=
  if -2 ^ 63 ≤ a.toInt + b.toInt ∧ a.toInt + b.toInt < 2 ^ 63 then some (a + b) else none

def checkedMul (a b : UInt64) : Option UInt64 :=
  if a.toNat * b.toNat < 2 ^ 64 then some (a * b) else none

theorem usizeAdd_eq {a b : ℕ} (h : a + b < 2 ^ 64) : usizeAdd a b = .ok (a + b) := if_pos h

theorem eq_of_usizeAdd {a b c : ℕ} (h : usizeAdd a b = .ok c) : c = a + b := by
  rw [usizeAdd] at h
  split at h
  · exact (Except.ok.inj h).symm
  · cases h

theorem usizeSub_eq {a b : ℕ} (h : b ≤ a) : usizeSub a b = .ok (a - b) := if_pos h

theorem usizeMul_eq {a b : ℕ} (h : a * b < 2 ^ 64) : usizeMul a b = .ok (a * b) := if_pos h

theorem shiftLeft64_eq (bits : BitVec 64) {amount : ℕ} (h : amount < 64) :
    shiftLeft64 bits amount = .ok (bits <<< amount) := if_pos h

theorem shiftRight64_eq (bits : BitVec 64) {amount : ℕ} (h : amount < 64) :
    shiftRight64 bits amount = .ok (bits.sshiftRight amount) := if_pos h

/-! ## The loop in machine words -/

namespace Machine

/-- The bits of a field of `size` bytes. An `i64` is or-ed from the same bits as a `u64`. -/
def fieldBits (runs : List UInt8) (cursor size : ℕ) : Parse (BitVec 64) :=
  (List.range size).foldlM (fun bits i ↦ do
    let place ← usizeAdd cursor i
    let byte ← indexByte runs place
    let amount ← usizeMul 8 i
    let shifted ← shiftLeft64 (.ofNat 64 byte.toNat) amount
    pure (bits ||| shifted)) 0

/-- The sign-extended bits of a field of `size` bytes. -/
def signedBits (runs : List UInt8) (cursor size : ℕ) : Parse (BitVec 64) := do
  let bits ← fieldBits runs cursor size
  let used ← usizeMul 8 size
  let shift ← usizeSub 64 used
  let top ← shiftLeft64 bits shift
  shiftRight64 top shift

/-- The body of the loop up to the running sum, at a header that is not zero. -/
def decodeDataRun (runs : List UInt8) (header : UInt8) (cursor : ℕ) :
    Parse (UInt64 × Int64 × ℕ) := do
  let cursor ← usizeAdd cursor 1
  let lengthSize := (header &&& 0x0F).toNat
  let offsetSize := (header >>> 4).toNat
  if lengthSize = 0 ∨ lengthSize > 8 ∨ offsetSize > 8 then invalidData "invalid data run header"
  else
    let lengthEnd ← usizeAdd cursor lengthSize
    let runEnd ← usizeAdd lengthEnd offsetSize
    if runEnd > runs.length then invalidData "truncated data run"
    else
      let runLength ← fieldBits runs cursor lengthSize
      if offsetSize = 0 then invalidData "sparse run in MFT data attribute"
      else
        let offsetDelta ← signedBits runs lengthEnd offsetSize
        pure (.ofBitVec runLength, .ofBitVec offsetDelta, runEnd)

/-- The rest of the body: the sum, its check, and the products. -/
def runExtent (bytesPerCluster runLength : UInt64) (currentLcn offsetDelta : Int64) :
    Parse (Int64 × UInt64 × UInt64) :=
  match checkedAdd currentLcn offsetDelta with
  | none => invalidData "data run offset overflow"
  | some currentLcn =>
      if currentLcn < 0 ∨ runLength = 0 then invalidData "data run points before volume start"
      else
        match checkedMul currentLcn.toUInt64 bytesPerCluster, checkedMul runLength bytesPerCluster with
        | some start, some length => .ok (currentLcn, start, length)
        | _, _ => invalidData "data run size overflow"

theorem lt_of_decodeDataRun {runs : List UInt8} {header : UInt8} {cursor : ℕ}
    {run : UInt64 × Int64 × ℕ} (h : decodeDataRun runs header cursor = .ok run) :
    cursor < run.2.2 ∧ run.2.2 ≤ runs.length := by
  obtain ⟨next, hnext, h⟩ := Parse.bind_eq_ok_iff.mp h
  obtain rfl := eq_of_usizeAdd hnext
  dsimp only at h
  split at h
  case isTrue => cases h
  case isFalse hsizes =>
    obtain ⟨lengthEnd, hlength, h⟩ := Parse.bind_eq_ok_iff.mp h
    obtain ⟨runEnd, hend, h⟩ := Parse.bind_eq_ok_iff.mp h
    obtain rfl := eq_of_usizeAdd hlength
    obtain rfl := eq_of_usizeAdd hend
    split at h
    case isTrue => cases h
    case isFalse hlength =>
      obtain ⟨runLength, -, h⟩ := Parse.bind_eq_ok_iff.mp h
      split at h
      case isTrue => cases h
      case isFalse =>
        obtain ⟨offsetDelta, -, h⟩ := Parse.bind_eq_ok_iff.mp h
        cases h
        exact ⟨by dsimp only; omega, not_lt.mp hlength⟩

def decodeDataRunsFrom (runs : List UInt8) (bytesPerCluster : UInt64) (cursor : ℕ)
    (currentLcn : Int64) (extents : List (UInt64 × UInt64)) : Parse (List (UInt64 × UInt64)) :=
  if _hcursor : cursor < runs.length then do
    let header ← indexByte runs cursor
    if header = 0 then pure extents
    else
      match _hrun : decodeDataRun runs header cursor with
      | .error failure => .error failure
      | .ok run => do
          let extent ← runExtent bytesPerCluster run.1 currentLcn run.2.1
          decodeDataRunsFrom runs bytesPerCluster run.2.2 extent.1 (extents ++ [extent.2])
  else pure extents
termination_by runs.length - cursor
decreasing_by
  have hlt := (lt_of_decodeDataRun _hrun).1
  omega

def decodeDataRuns (runs : Slice) (bytesPerCluster : UInt64) : Parse (List (UInt64 × UInt64)) := do
  let extents ← decodeDataRunsFrom runs.bytes bytesPerCluster 0 0 []
  if extents.isEmpty then invalidData "MFT data attribute has no runs" else pure extents

/-! ## No step panics -/

section Fields

variable {runs : List UInt8} {cursor size : ℕ}

theorem indexByte_eq (h : cursor < runs.length) : indexByte runs cursor = .ok (u8At runs cursor) :=
  if_pos h

theorem numberAt_succ (h : cursor + size < runs.length) :
    ofLeBytes ((runs.drop cursor).take size ++ [u8At runs (cursor + size)]) =
      numberAt (size + 1) runs cursor := by
  have hlt : size < (runs.drop cursor).length := by
    rw [List.length_drop]
    omega
  rw [numberAt, List.take_succ_eq_append_getElem hlt, List.getElem_drop, u8At,
    List.getD_eq_getElem _ _ h]

theorem fieldBits_eq (hsize : size ≤ 8) (hend : cursor + size ≤ runs.length)
    (hlength : runs.length < 2 ^ 63) :
    fieldBits runs cursor size = .ok (.ofNat 64 (numberAt size runs cursor)) := by
  induction size with
  | zero => simp [fieldBits, numberAt, ofLeBytes, pure, Except.pure]
  | succ size ih =>
      have hprevious := ih (by omega) (by omega)
      have htaken : ((runs.drop cursor).take size).length = size := by
        rw [List.length_take, List.length_drop]
        omega
      have hor := or_shiftLeft_byte (w := 64) ((runs.drop cursor).take size)
        (u8At runs (cursor + size)) (by omega)
      rw [htaken, numberAt_succ (by omega)] at hor
      unfold fieldBits at hprevious ⊢
      rw [List.range_succ, List.foldlM_append, hprevious, Parse.ok_bind, List.foldlM_cons,
        usizeAdd_eq (by omega), Parse.ok_bind, indexByte_eq (by omega), Parse.ok_bind,
        usizeMul_eq (by omega), Parse.ok_bind, shiftLeft64_eq _ (by omega), Parse.ok_bind]
      exact congrArg Except.ok hor

theorem signedBits_eq (runs : List UInt8) (cursor size : ℕ) (hsize : size ≤ 8) (hend : cursor + size ≤ runs.length)
    (hlength : runs.length < 2 ^ 63) (hpos : 0 < size) :
    ∃ bits, signedBits runs cursor size = .ok bits ∧
      bits.toInt = (BitVec.ofNat (8 * size) (numberAt size runs cursor)).toInt := by
  have hlt : numberAt size runs cursor < 2 ^ (8 * size) := by
    rw [← pow_256]
    refine (ofLeBytes_lt _).trans_le (Nat.pow_le_pow_right (by decide) ?_)
    rw [List.length_take]
    exact min_le_left _ _
  refine ⟨_, ?_, toInt_shiftLeft_sshiftRight (by omega : 8 * size ≤ 64) hlt⟩
  rw [signedBits, fieldBits_eq hsize hend hlength, Parse.ok_bind, usizeMul_eq (by omega),
    Parse.ok_bind, usizeSub_eq (by omega), Parse.ok_bind, shiftLeft64_eq _ (by omega),
    Parse.ok_bind, shiftRight64_eq _ (by omega)]

end Fields

/-! ## The two loops agree -/

section Agreement

variable {runs : List UInt8} {cursor : ℕ}

theorem decodeDataRun_eq (hlength : runs.length < 2 ^ 63) (hcursor : cursor < runs.length) :
    (decodeDataRun runs (u8At runs cursor) cursor).map
        (fun run ↦ (run.1, run.2.1.toInt, run.2.2)) = Ntfs.decodeDataRun runs cursor := by
  unfold decodeDataRun Ntfs.decodeDataRun
  rw [usizeAdd_eq (by omega), Parse.ok_bind]
  dsimp only
  split
  case isTrue => rfl
  case isFalse hsizes =>
    rw [usizeAdd_eq (by omega), Parse.ok_bind, usizeAdd_eq (by omega), Parse.ok_bind]
    split
    case isTrue => rfl
    case isFalse hend =>
      rw [fieldBits_eq (by omega) (by omega) hlength, Parse.ok_bind]
      split
      case isTrue => rfl
      case isFalse hoffset =>
        obtain ⟨bits, hbits, hint⟩ := signedBits_eq runs
          (cursor + 1 + (u8At runs cursor &&& 0x0F).toNat) (u8At runs cursor >>> 4).toNat
          (by omega) (by omega) hlength (by omega)
        rw [hbits, Parse.ok_bind, ← hint]
        rfl

theorem toInt_checkedAdd {a b sum : Int64} (h : checkedAdd a b = some sum) :
    sum.toInt = a.toInt + b.toInt := by
  unfold checkedAdd at h
  split at h
  case isTrue hbounds =>
    obtain rfl := Option.some.inj h
    rw [Int64.toInt_add]
    exact Int.bmod_eq_of_le (by omega) (by omega)
  case isFalse => cases h

theorem checkedMul_eq {a b : UInt64} (h : a.toNat * b.toNat < 2 ^ 64) :
    checkedMul a b = some (a * b) := if_pos h

theorem lt_of_checkedMul {a b product : UInt64} (h : checkedMul a b = some product) :
    a.toNat * b.toNat < 2 ^ 64 := by
  by_contra hover
  rw [checkedMul, if_neg hover] at h
  cases h

theorem toNat_toUInt64 {lcn : Int64} (h : 0 ≤ lcn.toInt) : lcn.toUInt64.toNat = lcn.toInt.toNat := by
  have hcond := BitVec.toInt_eq_toNat_cond lcn.toBitVec
  have hlt := lcn.toBitVec.isLt
  change lcn.toInt = _ at hcond
  change lcn.toBitVec.toNat = _
  split at hcond <;> omega

theorem runExtent_eq (bytesPerCluster runLength : UInt64) (currentLcn offsetDelta : Int64) :
    (runExtent bytesPerCluster runLength currentLcn offsetDelta).map Prod.snd =
      Ntfs.runExtent bytesPerCluster runLength (currentLcn.toInt + offsetDelta.toInt) := by
  unfold runExtent Ntfs.runExtent
  cases hsum : checkedAdd currentLcn offsetDelta with
  | none =>
      have hover : ¬(-2 ^ 63 ≤ currentLcn.toInt + offsetDelta.toInt ∧
          currentLcn.toInt + offsetDelta.toInt < 2 ^ 63) := by
        intro hbounds
        rw [checkedAdd, if_pos hbounds] at hsum
        cases hsum
      rw [if_pos (by omega)]
      rfl
  | some sum =>
      have hbounds := Int64.le_toInt sum
      have hbounds' := Int64.toInt_lt sum
      rw [← toInt_checkedAdd hsum, if_neg (by omega)]
      dsimp only
      by_cases hbefore : sum < 0 ∨ runLength = 0
      · rw [if_pos hbefore, if_pos (by simpa [Int64.lt_iff_toInt_lt] using hbefore)]
        rfl
      · have hnonneg : 0 ≤ sum.toInt := by
          simpa [Int64.lt_iff_toInt_lt] using (not_or.mp hbefore).1
        rw [if_neg hbefore, if_neg (by simpa [Int64.lt_iff_toInt_lt] using hbefore),
          ← toNat_toUInt64 hnonneg]
        by_cases hproducts : sum.toUInt64.toNat * bytesPerCluster.toNat < 2 ^ 64 ∧
            runLength.toNat * bytesPerCluster.toNat < 2 ^ 64
        · rw [if_pos hproducts, checkedMul_eq hproducts.1, checkedMul_eq hproducts.2,
            UInt64.ofNat_mul, UInt64.ofNat_toNat, UInt64.ofNat_toNat]
          rfl
        · rw [if_neg hproducts]
          split
          case h_1 hstart hlength => exact (hproducts ⟨lt_of_checkedMul hstart,
              lt_of_checkedMul hlength⟩).elim
          case h_2 => rfl

theorem toInt_of_runExtent {bytesPerCluster runLength : UInt64} {currentLcn offsetDelta : Int64}
    {extent : Int64 × UInt64 × UInt64}
    (h : runExtent bytesPerCluster runLength currentLcn offsetDelta = .ok extent) :
    extent.1.toInt = currentLcn.toInt + offsetDelta.toInt := by
  unfold runExtent at h
  split at h
  case h_1 => cases h
  case h_2 sum hsum =>
    split at h
    case isTrue => cases h
    case isFalse =>
      split at h
      case h_1 =>
        cases h
        exact toInt_checkedAdd hsum
      case h_2 => cases h

theorem decodeDataRunsFrom_eq (bytesPerCluster : UInt64) (hlength : runs.length < 2 ^ 63)
    (currentLcn : Int64) (extents : List (UInt64 × UInt64)) :
    decodeDataRunsFrom runs bytesPerCluster cursor currentLcn extents =
      Ntfs.decodeDataRunsFrom runs bytesPerCluster cursor currentLcn.toInt extents := by
  induction hleft : runs.length - cursor using Nat.strong_induction_on
    generalizing cursor currentLcn extents with
  | h left ih =>
      rw [decodeDataRunsFrom, Ntfs.decodeDataRunsFrom]
      by_cases hcursor : cursor < runs.length
      · have hrun := decodeDataRun_eq hlength hcursor
        rw [dif_pos hcursor, dif_pos hcursor, indexByte_eq hcursor, Parse.ok_bind]
        by_cases hzero : u8At runs cursor = 0
        · rw [if_pos hzero, if_pos hzero]
          rfl
        · rw [if_neg hzero, if_neg hzero]
          split
          case h_1 failure hmachine =>
            rw [hmachine] at hrun
            split
            case h_1 hnumbers =>
              obtain rfl := Except.error.inj (hrun.trans hnumbers)
              rfl
            case h_2 hnumbers => cases hrun.trans hnumbers
          case h_2 run hmachine =>
            rw [hmachine] at hrun
            split
            case h_1 hnumbers => cases hrun.trans hnumbers
            case h_2 hnumbers =>
              have hlt := (lt_of_decodeDataRun hmachine).1
              obtain rfl := Except.ok.inj (hrun.trans hnumbers)
              have hextent := runExtent_eq bytesPerCluster run.1 currentLcn run.2.1
              dsimp only
              rw [← hextent]
              cases hproduct : runExtent bytesPerCluster run.1 currentLcn run.2.1 with
              | error failure => rfl
              | ok extent =>
                  rw [Parse.ok_bind, ih _ (by omega) _ _ rfl, toInt_of_runExtent hproduct]
                  rfl
      · rw [dif_neg hcursor, dif_neg hcursor]
        rfl

/-- No step of the decoder overflows or indexes past the end. -/
theorem decodeDataRuns_eq (runs : Slice) (bytesPerCluster : UInt64) :
    decodeDataRuns runs bytesPerCluster = Ntfs.decodeDataRuns runs.bytes bytesPerCluster := by
  rw [decodeDataRuns, decodeDataRunsFrom_eq bytesPerCluster runs.length_lt]
  rfl

end Agreement

end Machine

/-! ## Well-formed run lists -/

/-- A run as it is stored: its length, and its distance from the run before it. -/
structure DataRun where
  lengthBytes : List UInt8
  offsetBytes : List UInt8
  length_lengthBytes : 1 ≤ lengthBytes.length ∧ lengthBytes.length ≤ 8
  length_offsetBytes : 1 ≤ offsetBytes.length ∧ offsetBytes.length ≤ 8

namespace DataRun

def header (run : DataRun) : UInt8 :=
  .ofNat (run.lengthBytes.length + 16 * run.offsetBytes.length)

def encode (run : DataRun) : List UInt8 := run.header :: (run.lengthBytes ++ run.offsetBytes)

def clusters (run : DataRun) : ℕ := ofLeBytes run.lengthBytes

def offsetDelta (run : DataRun) : ℤ := signed run.offsetBytes

/-- The logical cluster numbers the runs start at, when the run before them starts at `lcn`. -/
def lcns (lcn : ℤ) : List DataRun → List ℤ
  | [] => []
  | run :: rest => (lcn + run.offsetDelta) :: lcns (lcn + run.offsetDelta) rest

/-- A run that starts at `lcn` and whose extent is a range of the volume. -/
structure Placed (run : DataRun) (bytesPerCluster : UInt64) (lcn : ℤ) : Prop where
  nonneg : 0 ≤ lcn
  lt : lcn < 2 ^ 63
  nonempty : run.clusters ≠ 0
  start_lt : lcn.toNat * bytesPerCluster.toNat < 2 ^ 64
  length_lt : run.clusters * bytesPerCluster.toNat < 2 ^ 64

def extent (run : DataRun) (bytesPerCluster : UInt64) (lcn : ℤ) : UInt64 × UInt64 :=
  (.ofNat (lcn.toNat * bytesPerCluster.toNat), .ofNat (run.clusters * bytesPerCluster.toNat))

end DataRun

/-- The runs up to the first header of zero, or to the end. -/
def RunsOf (bytes : List UInt8) (runs : List DataRun) : Prop :=
  ∃ tail, bytes = runs.flatMap DataRun.encode ++ tail ∧ (tail = [] ∨ tail.head? = some 0)

section Runs

variable {bytes rest : List UInt8} {cursor : ℕ} {bytesPerCluster : UInt64}

theorem take_append_drop_add (n count : ℕ) :
    (bytes.drop n).take count ++ bytes.drop (n + count) = bytes.drop n := by
  rw [← List.drop_drop, List.take_append_drop]

theorem toNat_and_15 (header : UInt8) : (header &&& 0x0F).toNat = header.toNat % 16 := by
  rw [UInt8.toNat_and]
  exact Nat.and_two_pow_sub_one_eq_mod header.toNat 4

theorem toNat_shiftRight_4 (header : UInt8) : (header >>> 4).toNat = header.toNat / 16 := by
  rw [UInt8.toNat_shiftRight]
  exact Nat.shiftRight_eq_div_pow header.toNat 4

theorem DataRun.toNat_header (run : DataRun) :
    run.header.toNat = run.lengthBytes.length + 16 * run.offsetBytes.length := by
  have hlength := run.length_lengthBytes
  have hoffset := run.length_offsetBytes
  exact UInt8.toNat_ofNat_of_lt' (by omega : _ < 256)

theorem exists_run_of_decodeDataRun {decoded : UInt64 × ℤ × ℕ}
    (h : decodeDataRun bytes cursor = .ok decoded) :
    ∃ run : DataRun, bytes.drop cursor = run.encode ++ bytes.drop decoded.2.2 ∧
      decoded.1.toNat = run.clusters ∧ decoded.2.1 = run.offsetDelta := by
  have hlt := lt_of_decodeDataRun h
  unfold decodeDataRun at h
  dsimp only at h
  split at h
  case isTrue => cases h
  case isFalse hsizes =>
    split at h
    case isTrue => cases h
    case isFalse hend =>
      split at h
      case isTrue => cases h
      case isFalse hoffset =>
        obtain rfl := Except.ok.inj h
        have hheader := (u8At bytes cursor).toNat_lt
        have hsize := toNat_and_15 (u8At bytes cursor)
        have hoffsetSize := toNat_shiftRight_4 (u8At bytes cursor)
        generalize hl : (u8At bytes cursor &&& 0x0F).toNat = lengthSize at *
        generalize ho : (u8At bytes cursor >>> 4).toNat = offsetSize at *
        have hlengthBytes : ((bytes.drop (cursor + 1)).take lengthSize).length = lengthSize := by
          rw [List.length_take, List.length_drop]
          omega
        have hoffsetBytes :
            ((bytes.drop (cursor + 1 + lengthSize)).take offsetSize).length = offsetSize := by
          rw [List.length_take, List.length_drop]
          omega
        obtain ⟨run, hrunLength, hrunOffset⟩ : ∃ run : DataRun,
            run.lengthBytes = (bytes.drop (cursor + 1)).take lengthSize ∧
              run.offsetBytes = (bytes.drop (cursor + 1 + lengthSize)).take offsetSize :=
          ⟨⟨_, _, by omega, by omega⟩, rfl, rfl⟩
        refine ⟨run, ?_, ?_, ?_⟩
        · have hsplit : bytes.drop cursor = u8At bytes cursor :: bytes.drop (cursor + 1) := by
            rw [List.drop_eq_getElem_cons (by omega), u8At, List.getD_eq_getElem _ _ (by omega)]
          have hbyte : u8At bytes cursor = .ofNat (lengthSize + 16 * offsetSize) := by
            apply UInt8.toNat_inj.mp
            rw [UInt8.toNat_ofNat_of_lt' (by omega : _ < 256)]
            omega
          rw [DataRun.encode, DataRun.header, hrunLength, hrunOffset, hlengthBytes, hoffsetBytes,
            ← hbyte, hsplit]
          simp only [List.cons_append, List.append_assoc, List.cons.injEq, true_and]
          rw [take_append_drop_add, take_append_drop_add]
        · rw [DataRun.clusters, hrunLength]
          refine UInt64.toNat_ofNat_of_lt' ((ofLeBytes_lt _).trans_le ?_)
          rw [hlengthBytes]
          exact Nat.pow_le_pow_right (by decide) (by omega : lengthSize ≤ 8)
        · rw [DataRun.offsetDelta, hrunOffset]
          have hint := toInt_ofNat_ofLeBytes ((bytes.drop (cursor + 1 + lengthSize)).take offsetSize)
          rw [hoffsetBytes] at hint
          exact hint

theorem decodeDataRun_of_encode {run : DataRun} (h : bytes.drop cursor = run.encode ++ rest) :
    ∃ decoded, decodeDataRun bytes cursor = .ok decoded ∧ bytes.drop decoded.2.2 = rest ∧
      decoded.1.toNat = run.clusters ∧ decoded.2.1 = run.offsetDelta := by
  have hl := run.length_lengthBytes
  have ho := run.length_offsetBytes
  have hheader := run.toNat_header
  have hcount : bytes.length - cursor =
      1 + run.lengthBytes.length + run.offsetBytes.length + rest.length := by
    rw [← List.length_drop, h]
    simp only [DataRun.encode, List.cons_append, List.length_cons, List.length_append]
    omega
  have hbyte : u8At bytes cursor = run.header := by
    have hget : bytes[cursor]? = some run.header := by
      rw [← Nat.add_zero cursor, ← List.getElem?_drop, h]
      rfl
    rw [u8At, List.getD_eq_getElem?_getD, hget]
    rfl
  have hbody : bytes.drop (cursor + 1) = run.lengthBytes ++ (run.offsetBytes ++ rest) := by
    rw [← List.drop_drop, h, DataRun.encode, List.cons_append, List.drop_one, List.tail_cons,
      List.append_assoc]
  have hoffsets : bytes.drop (cursor + 1 + run.lengthBytes.length) = run.offsetBytes ++ rest := by
    rw [← List.drop_drop, hbody, List.drop_left]
  have hlengthSize : (u8At bytes cursor &&& 0x0F).toNat = run.lengthBytes.length := by
    rw [toNat_and_15, hbyte, hheader]
    omega
  have hoffsetSize : (u8At bytes cursor >>> 4).toNat = run.offsetBytes.length := by
    rw [toNat_shiftRight_4, hbyte, hheader]
    omega
  refine ⟨(.ofNat (ofLeBytes run.lengthBytes),
    (BitVec.ofNat (8 * run.offsetBytes.length) (ofLeBytes run.offsetBytes)).toInt,
    cursor + 1 + run.lengthBytes.length + run.offsetBytes.length), ?_, ?_, ?_, ?_⟩
  · unfold decodeDataRun
    dsimp only
    rw [hlengthSize, hoffsetSize, if_neg (by omega), if_neg (by omega), if_neg (by omega), numberAt,
      hbody, List.take_left, numberAt, hoffsets, List.take_left]
  · rw [← List.drop_drop, hoffsets, List.drop_left]
  · refine UInt64.toNat_ofNat_of_lt' ((ofLeBytes_lt _).trans_le ?_)
    exact Nat.pow_le_pow_right (by decide) hl.2
  · exact toInt_ofNat_ofLeBytes run.offsetBytes

theorem runExtent_eq_ok_iff {run : DataRun} {runLength : UInt64} {lcn : ℤ} {extent : UInt64 × UInt64}
    (hclusters : runLength.toNat = run.clusters) :
    runExtent bytesPerCluster runLength lcn = .ok extent ↔
      run.Placed bytesPerCluster lcn ∧ extent = run.extent bytesPerCluster lcn := by
  have hzero : runLength = 0 ↔ run.clusters = 0 := by
    rw [← hclusters, ← UInt64.toNat_inj]
    rfl
  have hproduct : runLength * bytesPerCluster =
      .ofNat (run.clusters * bytesPerCluster.toNat) := by
    rw [← hclusters, UInt64.ofNat_mul, UInt64.ofNat_toNat, UInt64.ofNat_toNat]
  unfold runExtent
  rw [hproduct, hclusters]
  constructor
  · intro h
    split at h
    case isTrue => cases h
    case isFalse hbounds =>
      split at h
      case isTrue => cases h
      case isFalse hvalid =>
        split at h
        case isTrue hproducts =>
          exact ⟨⟨by omega, by omega, fun hempty ↦ hvalid (Or.inr (hzero.mpr hempty)),
            hproducts.1, hproducts.2⟩, (Except.ok.inj h).symm⟩
        case isFalse => cases h
  · rintro ⟨hplaced, rfl⟩
    have hnonneg := hplaced.nonneg
    have hlt := hplaced.lt
    rw [if_neg (by omega), if_neg (not_or.mpr ⟨by omega, mt hzero.mp hplaced.nonempty⟩),
      if_pos ⟨hplaced.start_lt, hplaced.length_lt⟩]
    rfl

/-- Each run is placed, and the extents are theirs in order. -/
def ExtentsOf (bytesPerCluster : UInt64) : ℤ → List DataRun → List (UInt64 × UInt64) → Prop
  | _, [], extents => extents = []
  | lcn, run :: rest, extents =>
      run.Placed bytesPerCluster (lcn + run.offsetDelta) ∧
        ∃ others, extents = run.extent bytesPerCluster (lcn + run.offsetDelta) :: others ∧
          ExtentsOf bytesPerCluster (lcn + run.offsetDelta) rest others

theorem runsOf_nil_iff : RunsOf bytes [] ↔ bytes = [] ∨ bytes.head? = some 0 := by
  simp [RunsOf]

theorem runsOf_cons_iff {run : DataRun} {runs : List DataRun} :
    RunsOf bytes (run :: runs) ↔ ∃ more, bytes = run.encode ++ more ∧ RunsOf more runs := by
  constructor
  · rintro ⟨tail, rfl, htail⟩
    exact ⟨runs.flatMap DataRun.encode ++ tail, by simp, tail, rfl, htail⟩
  · rintro ⟨more, rfl, tail, rfl, htail⟩
    exact ⟨tail, by simp, htail⟩

/-- Where the loop stops there is no run. -/
theorem runsOf_iff_of_stop {runs : List DataRun} (h : bytes = [] ∨ bytes.head? = some 0) :
    RunsOf bytes runs ↔ runs = [] := by
  cases runs with
  | nil => simp only [runsOf_nil_iff, h]
  | cons run rest =>
      simp only [runsOf_cons_iff, reduceCtorEq, iff_false, not_exists, not_and]
      rintro more rfl -
      simp only [DataRun.encode, List.cons_append, reduceCtorEq, List.head?_cons, Option.some.injEq,
        false_or] at h
      have hheader := run.toNat_header
      have hpos := run.length_lengthBytes.1
      rw [h, UInt8.toNat_zero] at hheader
      omega

theorem head?_drop_eq (h : cursor < bytes.length) :
    (bytes.drop cursor).head? = some (u8At bytes cursor) := by
  rw [List.head?_drop, List.getElem?_eq_getElem h, u8At, List.getD_eq_getElem _ _ h]

theorem ok_eq_iff_of_stop {lcn : ℤ} {extents result : List (UInt64 × UInt64)}
    (h : bytes = [] ∨ bytes.head? = some 0) :
    (.ok extents : Parse (List (UInt64 × UInt64))) = .ok result ↔
      ∃ runs others, RunsOf bytes runs ∧ ExtentsOf bytesPerCluster lcn runs others ∧
        result = extents ++ others := by
  constructor
  · intro hresult
    exact ⟨[], [], (runsOf_iff_of_stop h).mpr rfl, rfl, by simp [Except.ok.inj hresult]⟩
  · rintro ⟨runs, others, hruns, hextents, rfl⟩
    obtain rfl := (runsOf_iff_of_stop h).mp hruns
    obtain rfl := hextents
    rw [List.append_nil]

theorem decodeDataRunsFrom_eq_ok_iff {lcn : ℤ} {extents result : List (UInt64 × UInt64)} :
    decodeDataRunsFrom bytes bytesPerCluster cursor lcn extents = .ok result ↔
      ∃ runs others, RunsOf (bytes.drop cursor) runs ∧ ExtentsOf bytesPerCluster lcn runs others ∧
        result = extents ++ others := by
  induction hleft : bytes.length - cursor using Nat.strong_induction_on
    generalizing cursor lcn extents with
  | h left ih =>
      rw [decodeDataRunsFrom]
      by_cases hcursor : cursor < bytes.length
      · rw [dif_pos hcursor]
        by_cases hzero : u8At bytes cursor = 0
        · rw [if_pos hzero]
          exact ok_eq_iff_of_stop (Or.inr (by rw [head?_drop_eq hcursor, hzero]))
        · rw [if_neg hzero]
          have hhead : ¬RunsOf (bytes.drop cursor) [] := by
            rw [runsOf_nil_iff, head?_drop_eq hcursor]
            simp [hzero, hcursor]
          constructor
          · intro h
            split at h
            case h_1 => cases h
            case h_2 decoded hdecoded =>
              have hlt := (lt_of_decodeDataRun hdecoded).1
              obtain ⟨run, hbytes, hclusters, hdelta⟩ := exists_run_of_decodeDataRun hdecoded
              split at h
              case h_1 => cases h
              case h_2 extent hextent =>
                rw [hdelta, runExtent_eq_ok_iff hclusters] at hextent
                obtain ⟨runs, others, hruns, hothers, rfl⟩ := (ih _ (by omega) rfl).mp h
                obtain ⟨hplaced, rfl⟩ := hextent
                refine ⟨run :: runs, _ :: others, runsOf_cons_iff.mpr ⟨_, hbytes, hruns⟩,
                  ⟨hplaced, others, rfl, ?_⟩, by rw [List.append_assoc]; rfl⟩
                rwa [hdelta] at hothers
          · rintro ⟨runs, others, hruns, hothers, rfl⟩
            cases runs with
            | nil => exact (hhead hruns).elim
            | cons run runs =>
                obtain ⟨more, hbytes, hmore⟩ := runsOf_cons_iff.mp hruns
                obtain ⟨hplaced, others, rfl, hothers⟩ := hothers
                obtain ⟨decoded, hdecoded, hrest, hclusters, hdelta⟩ := decodeDataRun_of_encode hbytes
                have hlt := (lt_of_decodeDataRun hdecoded).1
                have hextent := (runExtent_eq_ok_iff hclusters).mpr ⟨hplaced, rfl⟩
                split
                case h_1 hfailure => cases hfailure.symm.trans hdecoded
                case h_2 other hother =>
                  obtain rfl := Except.ok.inj (hother.symm.trans hdecoded)
                  rw [hdelta, hextent]
                  refine (ih _ (by omega) rfl).mpr ⟨runs, others, ?_, hothers, ?_⟩
                  · rwa [hrest]
                  · rw [List.append_assoc]
                    rfl
      · rw [dif_neg hcursor]
        exact ok_eq_iff_of_stop (Or.inl (List.drop_eq_nil_iff.mpr (not_lt.mp hcursor)))

theorem extentsOf_iff {lcn : ℤ} {runs : List DataRun} {extents : List (UInt64 × UInt64)} :
    ExtentsOf bytesPerCluster lcn runs extents ↔
      (∀ placed ∈ (DataRun.lcns lcn runs).zip runs, placed.2.Placed bytesPerCluster placed.1) ∧
        extents = List.zipWith (fun lcn run ↦ DataRun.extent run bytesPerCluster lcn)
          (DataRun.lcns lcn runs) runs := by
  induction runs generalizing lcn extents with
  | nil => simp [ExtentsOf]
  | cons run rest ih =>
      simp only [ExtentsOf, DataRun.lcns, List.zip_cons_cons, List.forall_mem_cons,
        List.zipWith_cons_cons, ih]
      constructor
      · rintro ⟨hplaced, others, rfl, hrest, rfl⟩
        exact ⟨⟨hplaced, hrest⟩, rfl⟩
      · rintro ⟨⟨hplaced, hrest⟩, rfl⟩
        exact ⟨hplaced, _, rfl, hrest, rfl⟩

theorem decodeDataRun_ne_panic (bytes : List UInt8) (cursor : ℕ) :
    decodeDataRun bytes cursor ≠ .error .panic := by
  unfold decodeDataRun
  dsimp only
  split
  case isTrue => simp [invalidData]
  case isFalse =>
    split
    case isTrue => simp [invalidData]
    case isFalse => split <;> simp [invalidData]

theorem runExtent_ne_panic (bytesPerCluster runLength : UInt64) (lcn : ℤ) :
    runExtent bytesPerCluster runLength lcn ≠ .error .panic := by
  unfold runExtent
  split
  case isTrue => simp [invalidData]
  case isFalse =>
    split
    case isTrue => simp [invalidData]
    case isFalse => split <;> simp [invalidData]

theorem decodeDataRunsFrom_ne_panic (lcn : ℤ) (extents : List (UInt64 × UInt64)) :
    decodeDataRunsFrom bytes bytesPerCluster cursor lcn extents ≠ .error .panic := by
  induction hleft : bytes.length - cursor using Nat.strong_induction_on
    generalizing cursor lcn extents with
  | h left ih =>
      rw [decodeDataRunsFrom]
      split
      case isFalse => simp
      case isTrue =>
        split
        case isTrue => simp
        case isFalse =>
          split
          case h_1 failure hdecoded =>
            rintro ⟨⟩
            exact decodeDataRun_ne_panic bytes cursor hdecoded
          case h_2 decoded hdecoded =>
            have hlt := (lt_of_decodeDataRun hdecoded).1
            split
            case h_1 failure hextent =>
              rintro ⟨⟩
              exact runExtent_ne_panic _ _ _ hextent
            case h_2 => exact ih _ (by omega) _ _ rfl

/-- The place and the size of an extent. -/
def range (extent : UInt64 × UInt64) : ℕ × ℕ := (extent.1.toNat, extent.2.toNat)

theorem range_injective : Function.Injective range := by
  rintro ⟨start, length⟩ ⟨start', length'⟩ h
  obtain ⟨hstart, hlength⟩ := Prod.mk.inj h
  exact Prod.ext (UInt64.toNat_inj.mp hstart) (UInt64.toNat_inj.mp hlength)

theorem range_extent {run : DataRun} {lcn : ℤ} (h : run.Placed bytesPerCluster lcn) :
    range (run.extent bytesPerCluster lcn) =
      (lcn.toNat * bytesPerCluster.toNat, run.clusters * bytesPerCluster.toNat) :=
  Prod.ext (UInt64.toNat_ofNat_of_lt' h.start_lt) (UInt64.toNat_ofNat_of_lt' h.length_lt)

theorem map_range_zipWith {lcns : List ℤ} {runs : List DataRun}
    (h : ∀ placed ∈ lcns.zip runs, placed.2.Placed bytesPerCluster placed.1) :
    (List.zipWith (fun lcn run ↦ DataRun.extent run bytesPerCluster lcn) lcns runs).map range =
      List.zipWith (fun lcn run ↦ (lcn.toNat * bytesPerCluster.toNat,
        run.clusters * bytesPerCluster.toNat)) lcns runs := by
  rw [← List.map_uncurry_zip_eq_zipWith, ← List.map_uncurry_zip_eq_zipWith, List.map_map]
  exact List.map_congr_left fun placed hmem ↦ range_extent (h placed hmem)

theorem isEmpty_of_extentsOf {lcn : ℤ} {runs : List DataRun} {extents : List (UInt64 × UInt64)}
    (h : ExtentsOf bytesPerCluster lcn runs extents) : extents.isEmpty = true ↔ runs = [] := by
  cases runs with
  | nil => simp [show extents = [] from h]
  | cons run rest =>
      obtain ⟨-, others, rfl, -⟩ := h
      simp

theorem decodeDataRuns_ne_panic (bytes : List UInt8) (bytesPerCluster : UInt64) :
    decodeDataRuns bytes bytesPerCluster ≠ .error .panic := by
  unfold decodeDataRuns
  cases hloop : decodeDataRunsFrom bytes bytesPerCluster 0 0 [] with
  | error failure =>
      rw [Parse.error_bind, ← hloop]
      exact decodeDataRunsFrom_ne_panic 0 []
  | ok extents =>
      rw [Parse.ok_bind]
      split <;> simp [invalidData, pure, Except.pure]

theorem decodeDataRuns_eq_ok_iff_extentsOf {extents : List (UInt64 × UInt64)} :
    decodeDataRuns bytes bytesPerCluster = .ok extents ↔
      ∃ runs, RunsOf bytes runs ∧ runs ≠ [] ∧ ExtentsOf bytesPerCluster 0 runs extents := by
  rw [decodeDataRuns, Parse.bind_eq_ok_iff]
  constructor
  · rintro ⟨result, hloop, hresult⟩
    obtain ⟨runs, others, hruns, hothers, rfl⟩ := decodeDataRunsFrom_eq_ok_iff.mp hloop
    split at hresult
    case isTrue => cases hresult
    case isFalse hempty =>
      obtain rfl := Except.ok.inj hresult
      exact ⟨runs, hruns, fun hnil ↦ hempty ((isEmpty_of_extentsOf hothers).mpr hnil), hothers⟩
  · rintro ⟨runs, hruns, hnonempty, hextents⟩
    refine ⟨extents, decodeDataRunsFrom_eq_ok_iff.mpr ⟨runs, extents, hruns, hextents, rfl⟩, ?_⟩
    rw [if_neg (mt (isEmpty_of_extentsOf hextents).mp hnonempty)]
    rfl

/-- The decoder never overflows, and accepts exactly the run lists whose runs are all placed. -/
theorem decodeDataRuns_eq_ok_iff (bytes : Slice) (bytesPerCluster : UInt64) :
    Machine.decodeDataRuns bytes bytesPerCluster ≠ .error .panic ∧
    ∀ extents, Machine.decodeDataRuns bytes bytesPerCluster = .ok extents ↔
      ∃ runs, RunsOf bytes.bytes runs ∧ runs ≠ [] ∧
        (∀ placed ∈ (DataRun.lcns 0 runs).zip runs, placed.2.Placed bytesPerCluster placed.1) ∧
        extents.map range =
          List.zipWith (fun lcn run ↦ (lcn.toNat * bytesPerCluster.toNat,
            run.clusters * bytesPerCluster.toNat)) (DataRun.lcns 0 runs) runs := by
  rw [Machine.decodeDataRuns_eq]
  refine ⟨decodeDataRuns_ne_panic _ _, fun extents ↦ decodeDataRuns_eq_ok_iff_extentsOf.trans ?_⟩
  refine exists_congr fun runs ↦ and_congr_right fun _ ↦ and_congr_right fun _ ↦ ?_
  rw [extentsOf_iff]
  refine and_congr_right fun hplaced ↦ ?_
  rw [← map_range_zipWith hplaced]
  exact (List.map_injective_iff.mpr range_injective).eq_iff.symm

/-- A run of 16 clusters, and one of 4 clusters that starts 16 clusters before it. -/
example : Machine.decodeDataRuns ⟨[0x21, 0x10, 0x00, 0x40, 0x11, 0x04, 0xF0, 0x00], by decide⟩ 4096 =
    .ok [(0x4000 * 4096, 0x10 * 4096), (0x3FF0 * 4096, 0x04 * 4096)] := by
  decide +kernel

end Runs

end Ntfs

end WinBlaze
