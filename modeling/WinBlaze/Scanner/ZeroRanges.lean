import WinBlaze.Lib.ByteCodec
import WinBlaze.Lib.OpenRun

/-!
# Zero ranges of a file

A file is read block by block into one buffer, each block by as many calls as it
takes. The range of a run of zero blocks is given back to the file system when a
block that is not zero, or the end of the file, is reached.
-/

namespace WinBlaze

open ByteCodec

namespace StorageMaintenance

def blockSize : ℕ := 64 * 1024

theorem blockSize_pos : 0 < blockSize := by decide

/-- An open file, and how the calls on it go. A call of `read` for some bytes at
a position fails or gives a number of bytes, none only at the end. -/
structure OpenFile where
  content : List UInt8
  read : ℕ → ℕ → Option ℕ
  compressed : Bool
  setSparse : Bool
  setZeroData : List UInt8 → Bool
  read_le : ∀ position requested, ∀ count ∈ read position requested,
    count ≤ requested ∧ count ≤ content.length - position
  read_end : ∀ position requested, 0 < requested → read position requested = some 0 →
    content.length ≤ position

inductive SparsifyError
  | compressed
  | setSparse
  | read
  | setZeroData
  | offsetOverflow
  deriving DecidableEq, Repr

/-- `buffer[count..]` starts with some bytes now. -/
def fill (buffer : List UInt8) (count : ℕ) (bytes : List UInt8) : List UInt8 :=
  buffer.take count ++ bytes ++ buffer.drop (count + bytes.length)

/-- The loop that fills the buffer from `offset` on, of which `count` bytes are
there. -/
def readBlock (file : OpenFile) (offset : ℕ) (buffer : List UInt8) (count : ℕ) :
    Option (ℕ × List UInt8) :=
  if count < blockSize then
    match file.read (offset + count) (blockSize - count) with
    | none => none
    | some read =>
        if read = 0 then some (count, buffer)
        else
          readBlock file offset
            (fill buffer count ((file.content.drop (offset + count)).take read)) (count + read)
  else some (count, buffer)
termination_by blockSize - count

/-- The input of the control code for a range. -/
def zeroDataRange (range : ℕ × ℕ) : List UInt8 := leBytes 8 range.1 ++ leBytes 8 range.2

/-- The loop over the blocks. `ranges` are those given back so far. -/
def sparsifyLoop (file : OpenFile) (buffer : List UInt8) (offset : ℕ) (zeroStart : Option ℕ)
    (ranges : List (ℕ × ℕ)) : List (ℕ × ℕ) × Except SparsifyError Unit :=
  match readBlock file offset buffer 0 with
  | none => (ranges, .error .read)
  | some (count, buffer) =>
      if count = blockSize ∧ buffer.all (· == 0) then
        if offset + count < 2 ^ 63 then
          sparsifyLoop file buffer (offset + count) (some (zeroStart.getD offset)) ranges
        else (ranges, .error .offsetOverflow)
      else
        let closed := FreeRuns.closeRun offset zeroStart ranges
        if ∃ start ∈ zeroStart, file.setZeroData (zeroDataRange (start, offset)) = false then
          (closed, .error .setZeroData)
        else if offset + count < 2 ^ 63 then
          if count < blockSize then (closed, .ok ())
          else sparsifyLoop file buffer (offset + count) none closed
        else (closed, .error .offsetOverflow)
termination_by 2 ^ 63 - offset
decreasing_by
  all_goals
    have hpos := blockSize_pos
    omega

/-- The ranges that are given back, and the outcome. -/
def sparsifyZeros (file : OpenFile) : List (ℕ × ℕ) × Except SparsifyError Unit :=
  if file.compressed then ([], .error .compressed)
  else if !file.setSparse then ([], .error .setSparse)
  else sparsifyLoop file (List.replicate blockSize 0) 0 none []

/-! ## A block -/

/-- The block is not zero. -/
def occupied (content : List UInt8) (block : ℕ) : Bool :=
  !((content.drop (block * blockSize)).take blockSize).all (· == 0)

/-- The number of full blocks. -/
def fullBlocks (content : List UInt8) : ℕ := content.length / blockSize

variable {file : OpenFile} {offset count : ℕ} {buffer : List UInt8}

theorem length_fill {bytes : List UInt8} (h : count + bytes.length ≤ buffer.length) :
    (fill buffer count bytes).length = buffer.length := by
  simp only [fill, List.length_append, List.length_take, List.length_drop]
  omega

theorem take_fill {bytes : List UInt8} (h : count ≤ buffer.length) :
    (fill buffer count bytes).take (count + bytes.length) = buffer.take count ++ bytes := by
  refine List.take_left' ?_
  rw [List.length_append, List.length_take, Nat.min_eq_left h]

/-- The buffer starts with bytes of the file. -/
structure BlockRead (file : OpenFile) (offset count : ℕ) (buffer : List UInt8) : Prop where
  length : buffer.length = blockSize
  le_blockSize : count ≤ blockSize
  held : buffer.take count = (file.content.drop offset).take count
  within : offset + count ≤ file.content.length ∨ count = 0

theorem blockRead_zero (hlength : buffer.length = blockSize) (offset : ℕ) :
    BlockRead file offset 0 buffer where
  length := hlength
  le_blockSize := Nat.zero_le _
  held := rfl
  within := Or.inr rfl

/-- More bytes are read. -/
theorem BlockRead.more (h : BlockRead file offset count buffer) {read : ℕ} (hread : read ≠ 0)
    (hsome : file.read (offset + count) (blockSize - count) = some read) :
    BlockRead file offset (count + read)
      (fill buffer count ((file.content.drop (offset + count)).take read)) := by
  obtain ⟨hrequested, hleft⟩ := file.read_le _ _ _ hsome
  have hle := h.le_blockSize
  have hlength := h.length
  have hbytes : ((file.content.drop (offset + count)).take read).length = read := by
    rw [List.length_take, List.length_drop]
    omega
  refine ⟨?_, by omega, ?_, Or.inl (by omega)⟩
  · rw [length_fill (by omega), hlength]
  · have htake : (fill buffer count ((file.content.drop (offset + count)).take read)).take
        (count + ((file.content.drop (offset + count)).take read).length) = _ :=
      take_fill (hle.trans_eq hlength.symm)
    rw [hbytes] at htake
    rw [htake, h.held, List.take_add, List.drop_drop]

/-- The loop stops at a full block or at the end of the file. -/
theorem readBlock_spec {count' : ℕ} {buffer' : List UInt8} (h : BlockRead file offset count buffer)
    (hread : readBlock file offset buffer count = some (count', buffer')) :
    BlockRead file offset count' buffer' ∧
      (count' < blockSize → file.content.length ≤ offset + count') := by
  induction hleft : blockSize - count using Nat.strong_induction_on generalizing count buffer with
  | _ left ih =>
      rw [readBlock] at hread
      split at hread
      case isFalse hfull =>
        cases hread
        exact ⟨h, fun hlt ↦ absurd hlt hfull⟩
      case isTrue hlt =>
        split at hread
        case h_1 => cases hread
        case h_2 read hsome =>
          split at hread
          case isTrue hzero =>
            cases hread
            subst hzero
            exact ⟨h, fun _ ↦ file.read_end _ _ (Nat.sub_pos_of_lt hlt) hsome⟩
          case isFalse hpos =>
            exact ih _ (by omega) (h.more hpos hsome) hread rfl

/-- Reads that do not fail give a block. -/
theorem exists_readBlock (hreads : ∀ position requested, (file.read position requested).isSome)
    (offset : ℕ) (buffer : List UInt8) (count : ℕ) :
    ∃ block, readBlock file offset buffer count = some block := by
  induction hleft : blockSize - count using Nat.strong_induction_on generalizing count buffer with
  | _ left ih =>
      rw [readBlock]
      split
      case isFalse => exact ⟨_, rfl⟩
      case isTrue hlt =>
        obtain ⟨read, hsome⟩ := Option.isSome_iff_exists.mp
          (hreads (offset + count) (blockSize - count))
        simp only [hsome]
        split
        case isTrue => exact ⟨_, rfl⟩
        case isFalse hpos => exact ih _ (by omega) _ _ rfl

/-- A full block is zero when the buffer is. -/
theorem all_eq_occupied {block : ℕ} (h : BlockRead file (block * blockSize) blockSize buffer) :
    buffer.all (· == 0) = !occupied file.content block := by
  have hbuffer : buffer.take blockSize = buffer := List.take_of_length_le h.length.le
  rw [occupied, Bool.not_not, ← h.held, hbuffer]

/-- A byte of a zero block is zero. -/
theorem zero_of_free {content : List UInt8} {place : ℕ}
    (h : occupied content (place / blockSize) = false) (hplace : place < content.length) :
    content[place]? = some 0 := by
  have hall : ((content.drop (place / blockSize * blockSize)).take blockSize).all (· == 0) = true := by
    simpa [occupied] using h
  have hsplit : place / blockSize * blockSize + place % blockSize = place :=
    Nat.div_add_mod' place blockSize
  have hlt := Nat.mod_lt place blockSize_pos
  have hget : ((content.drop (place / blockSize * blockSize)).take blockSize)[place % blockSize]? =
      content[place]? := by
    rw [List.getElem?_take_of_lt hlt, List.getElem?_drop, hsplit]
  rw [List.getElem?_eq_getElem hplace] at hget ⊢
  have hmem := List.mem_of_getElem? hget
  exact congrArg some (by simpa using List.all_eq_true.mp hall _ hmem)

/-! ## The ranges -/

/-- The bytes of a run of blocks. -/
def byteRange (run : ℕ × ℕ) : ℕ × ℕ := (run.1 * blockSize, run.2 * blockSize)

/-- The ranges are those of the maximal runs of zero blocks that end before a
limit, in their order. -/
def Reports (content : List UInt8) (limit : ℕ) (ranges : List (ℕ × ℕ)) : Prop :=
  ∃ runs : List (ℕ × ℕ), ranges = runs.map byteRange ∧
    (∀ first stop, (first, stop) ∈ runs ↔
      FreeRuns.IsRun (occupied content) (fullBlocks content) first stop ∧ stop < limit) ∧
    runs.Pairwise (fun run next ↦ run.2 < next.1)

theorem map_closeRun (block : ℕ) (start : Option ℕ) (runs : List (ℕ × ℕ)) :
    FreeRuns.closeRun (block * blockSize) (start.map (· * blockSize)) (runs.map byteRange) =
      (FreeRuns.closeRun block start runs).map byteRange := by
  unfold FreeRuns.closeRun
  cases start <;> simp [byteRange]

/-- The block after the full ones is not full. -/
theorem eq_fullBlocks {content : List UInt8} {block count : ℕ} (hle : block ≤ fullBlocks content)
    (hcount : count < blockSize) (hend : content.length ≤ block * blockSize + count) :
    block = fullBlocks content := by
  refine le_antisymm hle ?_
  by_contra hlt
  have hmul : (block + 1) * blockSize ≤ fullBlocks content * blockSize :=
    Nat.mul_le_mul_right _ (Nat.not_le.mp hlt)
  have hdiv : fullBlocks content * blockSize ≤ content.length := Nat.div_mul_le_self _ _
  rw [Nat.succ_mul] at hmul
  omega

/-- From a block on, with what was passed before it. -/
theorem sparsifyLoop_spec {block : ℕ} {start : Option ℕ} {runs : List (ℕ × ℕ)}
    (h : FreeRuns.Passed (occupied file.content) (fullBlocks file.content) block start runs)
    (hlength : buffer.length = blockSize) :
    (∃ limit, Reports file.content limit
        (sparsifyLoop file buffer (block * blockSize) (start.map (· * blockSize))
          (runs.map byteRange)).1 ∧
      ((sparsifyLoop file buffer (block * blockSize) (start.map (· * blockSize))
        (runs.map byteRange)).2 = .ok () → fullBlocks file.content < limit)) ∧
    ((∀ position requested, (file.read position requested).isSome) →
      (∀ input, file.setZeroData input = true) → file.content.length < 2 ^ 63 →
        (sparsifyLoop file buffer (block * blockSize) (start.map (· * blockSize))
          (runs.map byteRange)).2 = .ok ()) := by
  induction hleft : fullBlocks file.content - block using Nat.strong_induction_on
    generalizing block start runs buffer with
  | _ left ih =>
      have hreported : Reports file.content block (runs.map byteRange) :=
        ⟨runs, rfl, h.mem_iff, h.sorted⟩
      have hlast : block * blockSize ≤ file.content.length :=
        (Nat.mul_le_mul_right _ h.le_total).trans (Nat.div_mul_le_self _ _)
      rw [sparsifyLoop]
      split
      case h_1 hfailed =>
        refine ⟨⟨block, hreported, fun hok ↦ (by cases hok)⟩, fun hreads _ _ ↦ ?_⟩
        obtain ⟨read, hread⟩ := exists_readBlock hreads (block * blockSize) buffer 0
        rw [hfailed] at hread
        cases hread
      case h_2 count buffer' hread =>
        obtain ⟨hblock, hend⟩ := readBlock_spec (blockRead_zero hlength _) hread
        have hwithin : block * blockSize + count ≤ file.content.length := by
          rcases hblock.within with hwithin | hzero
          · exact hwithin
          · omega
        split
        case isTrue hzero =>
          obtain ⟨rfl, hall⟩ := hzero
          have hroom : block < fullBlocks file.content := by
            rw [← Nat.succ_le_iff, fullBlocks, Nat.le_div_iff_mul_le blockSize_pos, Nat.succ_mul]
            exact hwithin
          have hfree : occupied file.content block = false := by
            rw [all_eq_occupied hblock] at hall
            simpa using hall
          have hopened : some ((start.map (· * blockSize)).getD (block * blockSize)) =
              (some (start.getD block)).map (· * blockSize) := by
            cases start <;> rfl
          split
          case isTrue =>
            rw [hopened, ← Nat.succ_mul]
            exact ih _ (by omega) (h.free_step hroom hfree) hblock.length rfl
          case isFalse hoverflow =>
            refine ⟨⟨block, hreported, fun hok ↦ (by cases hok)⟩, fun _ _ hsmall ↦ ?_⟩
            exact absurd (hwithin.trans_lt hsmall) hoverflow
        case isFalse hother =>
          have hright : block = fullBlocks file.content ∨ occupied file.content block = true := by
            rcases Nat.lt_or_ge count blockSize with hlt | hge
            · exact Or.inl (eq_fullBlocks h.le_total hlt (hend hlt))
            · obtain rfl := le_antisymm hblock.le_blockSize hge
              refine Or.inr ?_
              rw [all_eq_occupied hblock] at hother
              simpa using hother
          obtain ⟨hmem, hsorted⟩ := h.close hright
          have hclosed : Reports file.content (block + 1)
              ((FreeRuns.closeRun block start runs).map byteRange) := ⟨_, rfl, hmem, hsorted⟩
          simp only [map_closeRun]
          split
          case isTrue hfailed =>
            refine ⟨⟨block + 1, hclosed, fun hok ↦ (by cases hok)⟩, fun _ hcontrols _ ↦ ?_⟩
            obtain ⟨first, -, hfalse⟩ := hfailed
            rw [hcontrols] at hfalse
            cases hfalse
          case isFalse =>
            split
            case isFalse hoverflow =>
              refine ⟨⟨block + 1, hclosed, fun hok ↦ (by cases hok)⟩, fun _ _ hsmall ↦ ?_⟩
              exact absurd (hwithin.trans_lt hsmall) hoverflow
            case isTrue =>
              split
              case isTrue hlt =>
                have htotal := eq_fullBlocks h.le_total hlt (hend hlt)
                exact ⟨⟨block + 1, hclosed, fun _ ↦ htotal ▸ Nat.lt_succ_self block⟩,
                  fun _ _ _ ↦ rfl⟩
              case isFalse hfull =>
                obtain rfl := le_antisymm hblock.le_blockSize (Nat.not_lt.mp hfull)
                have hroom : block < fullBlocks file.content := by
                  rw [← Nat.succ_le_iff, fullBlocks, Nat.le_div_iff_mul_le blockSize_pos,
                    Nat.succ_mul]
                  exact hwithin
                have hoccupied := hright.resolve_left hroom.ne
                rw [← Nat.succ_mul]
                exact ih _ (by omega) (h.occupied_step hroom hoccupied) hblock.length rfl

/-- Only zero bytes of full blocks are in the range of a run. -/
theorem byteRange_zero {content : List UInt8} {first stop : ℕ}
    (h : FreeRuns.IsRun (occupied content) (fullBlocks content) first stop) :
    stop * blockSize ≤ content.length ∧
      ∀ place, first * blockSize ≤ place → place < stop * blockSize → content[place]? = some 0 := by
  have hbound : stop * blockSize ≤ content.length :=
    (Nat.mul_le_mul_right _ h.bound).trans (Nat.div_mul_le_self _ _)
  refine ⟨hbound, fun place hfirst hstop ↦ ?_⟩
  refine zero_of_free (h.free _ ?_ ?_) (hstop.trans_le hbound)
  · rwa [Nat.le_div_iff_mul_le blockSize_pos]
  · rwa [Nat.div_lt_iff_lt_mul blockSize_pos]

/-- The ranges are those of the maximal runs of full zero blocks, in increasing
order and apart from each other: all of them when the function succeeds, and
otherwise all that end before some block. They begin and end at blocks, are
inside the file and have only zero bytes in them. The function succeeds on a file
of less than 2^63 bytes when no call fails. -/
theorem sparsifyZeros_exact (file : OpenFile) :
    (∃ limit,
      (∀ range, range ∈ (sparsifyZeros file).1 ↔
        ∃ first stop, range = (first * blockSize, stop * blockSize) ∧
          FreeRuns.IsRun (occupied file.content) (fullBlocks file.content) first stop ∧
            stop < limit) ∧
      ((sparsifyZeros file).2 = .ok () → fullBlocks file.content < limit)) ∧
    (sparsifyZeros file).1.Pairwise (fun range next ↦ range.2 < next.1) ∧
    (∀ range ∈ (sparsifyZeros file).1, blockSize ∣ range.1 ∧ blockSize ∣ range.2 ∧
      range.1 < range.2 ∧ range.2 ≤ file.content.length ∧
        ∀ place, range.1 ≤ place → place < range.2 → file.content[place]? = some 0) ∧
    (file.compressed = false → file.setSparse = true →
      (∀ position requested, (file.read position requested).isSome) →
        (∀ input, file.setZeroData input = true) → file.content.length < 2 ^ 63 →
          (sparsifyZeros file).2 = .ok ()) := by
  have hbuffer : (List.replicate blockSize (0 : UInt8)).length = blockSize := List.length_replicate
  obtain ⟨hloop, hsucceeds⟩ :=
    sparsifyLoop_spec (FreeRuns.passed_zero (occupied file.content) (fullBlocks file.content)) hbuffer
  simp only [Nat.zero_mul, Option.map_none, List.map_nil] at hloop hsucceeds
  have hreports : ∃ limit, Reports file.content limit (sparsifyZeros file).1 ∧
      ((sparsifyZeros file).2 = .ok () → fullBlocks file.content < limit) := by
    have hnone : Reports file.content 0 [] := ⟨[], rfl, by simp, List.Pairwise.nil⟩
    unfold sparsifyZeros
    split
    · exact ⟨0, hnone, fun hok ↦ (by cases hok)⟩
    · split
      · exact ⟨0, hnone, fun hok ↦ (by cases hok)⟩
      · exact hloop
  obtain ⟨limit, ⟨runs, hruns, hmem, hsorted⟩, hok⟩ := hreports
  have hrange : ∀ range, range ∈ (sparsifyZeros file).1 ↔
      ∃ first stop, range = (first * blockSize, stop * blockSize) ∧
        FreeRuns.IsRun (occupied file.content) (fullBlocks file.content) first stop ∧
          stop < limit := by
    intro range
    rw [hruns, List.mem_map]
    constructor
    · rintro ⟨⟨first, stop⟩, hrun, rfl⟩
      exact ⟨first, stop, rfl, (hmem first stop).mp hrun⟩
    · rintro ⟨first, stop, rfl, hrun⟩
      exact ⟨(first, stop), (hmem first stop).mpr hrun, rfl⟩
  refine ⟨⟨limit, hrange, hok⟩, ?_, fun range hmember ↦ ?_, ?_⟩
  · rw [hruns, List.pairwise_map]
    exact hsorted.imp fun hlt ↦ Nat.mul_lt_mul_of_pos_right hlt blockSize_pos
  · obtain ⟨first, stop, rfl, hrun, -⟩ := (hrange range).mp hmember
    obtain ⟨hbound, hzero⟩ := byteRange_zero hrun
    exact ⟨Nat.dvd_mul_left _ _, Nat.dvd_mul_left _ _,
      Nat.mul_lt_mul_of_pos_right hrun.nonempty blockSize_pos, hbound, hzero⟩
  · intro hcompressed hsparse hreads hcontrols hsmall
    simpa [sparsifyZeros, hcompressed, hsparse] using hsucceeds hreads hcontrols hsmall

theorem le_of_min_eq_zero {requested size position : ℕ} (hpos : 0 < requested)
    (h : min requested (size - position) = 0) : size ≤ position := by
  omega

/-- Two zero blocks and one more byte, read as far as asked for. -/
def sampleFile : OpenFile where
  content := List.replicate (2 * blockSize) 0 ++ [1]
  read position requested := some (min requested (2 * blockSize + 1 - position))
  compressed := false
  setSparse := true
  setZeroData _ := true
  read_le := by
    intro position requested count hcount
    obtain rfl := Option.some.inj hcount
    simp
  read_end := by
    intro position requested hpos hzero
    rw [List.length_append, List.length_replicate, List.length_singleton]
    exact le_of_min_eq_zero hpos (Option.some.inj hzero)

theorem length_sampleFile : sampleFile.content.length = 2 * blockSize + 1 := by
  simp [sampleFile]

theorem sampleFile_isRun :
    FreeRuns.IsRun (occupied sampleFile.content) (fullBlocks sampleFile.content) 0 2 := by
  have hblocks : fullBlocks sampleFile.content = 2 := by
    rw [fullBlocks, length_sampleFile]
    decide
  refine ⟨Nat.zero_lt_two, hblocks.ge, fun i _ hi ↦ ?_, Or.inl rfl, Or.inl hblocks.symm⟩
  have hblock : (i + 1) * blockSize ≤ 2 * blockSize := Nat.mul_le_mul_right _ hi
  rw [Nat.succ_mul] at hblock
  unfold occupied sampleFile
  rw [List.drop_append_of_le_length (by rw [List.length_replicate]; omega), List.drop_replicate,
    List.take_append_of_le_length (by rw [List.length_replicate]; omega), List.take_replicate]
  simp

theorem sparsifyZeros_exact_sample : (0, 2 * blockSize) ∈ (sparsifyZeros sampleFile).1 := by
  obtain ⟨⟨limit, hrange, hall⟩, -, -, hok⟩ := sparsifyZeros_exact sampleFile
  have hsmall : sampleFile.content.length < 2 ^ 63 := by
    rw [length_sampleFile]
    decide
  have hlimit := hall (hok rfl rfl (fun _ _ ↦ rfl) (fun _ ↦ rfl) hsmall)
  have hrun := sampleFile_isRun
  exact (hrange _).mpr ⟨0, 2, by rw [Nat.zero_mul], hrun, hrun.bound.trans_lt hlimit⟩

end StorageMaintenance

end WinBlaze
